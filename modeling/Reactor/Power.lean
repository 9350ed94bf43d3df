/-!
# Powers and bounds

* `twoTo`, `tenTo` : the powers of two and of ten.
* `wordBound` : the number of words of 64 bits.
* `int64Bound` : the integers of 64 bits lie between its negative and itself, which is left out.
-/

namespace Reactor

/-- A power of two. -/
def twoTo (n : Nat) : Nat :=
  Nat.pow 2 n

/-- A power of ten. -/
def tenTo (n : Nat) : Nat :=
  Nat.pow 10 n

/-- The number of words of 64 bits. -/
def wordBound : Nat := 18446744073709551616

/-- The number of natural numbers among the integers of 64 bits. -/
def int64Bound : Nat := 9223372036854775808

theorem twoTo_zero : twoTo 0 = 1 := rfl

theorem twoTo_succ (n : Nat) : twoTo (n + 1) = twoTo n * 2 := rfl

theorem tenTo_zero : tenTo 0 = 1 := rfl

theorem tenTo_succ (n : Nat) : tenTo (n + 1) = tenTo n * 10 := rfl

theorem twoTo_pos (n : Nat) : 0 < twoTo n := by
  induction n with
  | zero => decide
  | succ n ih => rw [twoTo_succ]; omega

theorem tenTo_pos (n : Nat) : 0 < tenTo n := by
  induction n with
  | zero => decide
  | succ n ih => rw [tenTo_succ]; omega

theorem wordBound_eq : wordBound = twoTo 64 := by decide

theorem int64Bound_eq : int64Bound = twoTo 63 := by decide

end Reactor
