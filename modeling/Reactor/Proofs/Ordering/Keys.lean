import Reactor.Value.Order

/-!
# Sort keys

A comparison of two payloads that are not both lists goes by one of several rules. `Data.sortKey` is
what a payload brings to it: a number, a date or a text, and void and null rank below everything. Two
keys are alike (`SortKey.Alike`) if a comparison of them goes by the rule of their kind. Three keys that
are alike in pairs are compared as in an order (`SortKey.chained_compare`).
-/

namespace Reactor

/-- The three comparisons of a first, a second and a third in turn, and of the first with the third,
agree as in an order. -/
def Chained (o₁ o₂ o₃ : Ordering) : Prop :=
  o₁ ≠ .gt → o₂ ≠ .gt → o₃ = o₁.then o₂

namespace Chained

variable {o₁ o₂ o₃ p₁ p₂ p₃ : Ordering}

theorem of_lt (h₁ : o₁ = .lt) (h₃ : o₃ = .lt) : Chained o₁ o₂ o₃ := by
  intro _ _
  rw [h₁, h₃]
  rfl

theorem of_lt_right (h₂ : o₂ = .lt) (h₃ : o₃ = .lt) : Chained o₁ o₂ o₃ := by
  intro h₁ _
  rw [h₂, h₃]
  cases o₁ with
  | lt => rfl
  | eq => rfl
  | gt => exact absurd rfl h₁

theorem of_gt_left (h : o₁ = .gt) : Chained o₁ o₂ o₃ :=
  fun h₁ => absurd h h₁

theorem of_gt_right (h : o₂ = .gt) : Chained o₁ o₂ o₃ :=
  fun _ h₂ => absurd h h₂

/-- An order that goes by a second rule where a first one does not decide. -/
theorem lex (h : Chained o₁ o₂ o₃) (hp : o₁ = .eq → o₂ = .eq → o₃ = .eq → Chained p₁ p₂ p₃) :
    Chained (o₁.then p₁) (o₂.then p₂) (o₃.then p₃) := by
  intro h₁ h₂
  cases o₁ with
  | gt => exact absurd rfl h₁
  | lt =>
    cases o₂ with
    | gt => exact absurd rfl h₂
    | lt =>
      rw [h nofun nofun]
      rfl
    | eq =>
      rw [h nofun nofun]
      rfl
  | eq =>
    cases o₂ with
    | gt => exact absurd rfl h₂
    | lt =>
      rw [h nofun nofun]
      change Ordering.lt = p₁.then .lt
      cases p₁ with
      | gt => exact absurd rfl h₁
      | lt => rfl
      | eq => rfl
    | eq =>
      rw [h nofun nofun]
      exact hp rfl rfl (h nofun nofun) h₁ h₂

end Chained

theorem chained_compare_int (x y z : Int) :
    Chained (Ord.compare x y) (Ord.compare y z) (Ord.compare x z) := by
  intro h₁ h₂
  rw [Int.compare_ne_gt] at h₁ h₂
  rcases Int.lt_or_eq_of_le h₁ with h | rfl
  · rw [Int.compare_eq_lt.2 h, Int.compare_eq_lt.2 (Int.lt_of_lt_of_le h h₂)]
    rfl
  · rw [Int.compare_eq_eq.2 rfl]
    rfl

namespace Number

/-- The numbers are compared exactly, or both by the order of decimals. -/
def Alike : Number → Number → Prop
  | int _, dec _ => False
  | dec _, int _ => False
  | _, _ => True

/-- A bound on the places of finite numbers, which have 64 bits. -/
def bound : Int := 36893488147419103232

/-- The place of a number among the numbers that it is alike to. -/
def place : Number → Int
  | int n => n.toInt
  | dec x => x.totalKey
  | inf positive => if positive then bound else -bound

theorem totalKey_bounds (x : Decimal) : -bound < x.totalKey ∧ x.totalKey < bound := by
  have h := x.bits.toNat_lt
  unfold Decimal.totalKey
  simp only [int64Bound, bound]
  split <;> omega

theorem place_bounds {n : Number} (h : ∀ p, n ≠ inf p) : -bound < n.place ∧ n.place < bound := by
  cases n with
  | int n =>
    have := n.le_toInt
    have := n.toInt_lt
    simp only [place, bound]
    omega
  | dec x => exact totalKey_bounds x
  | inf p => exact absurd rfl (h p)

/-- Numbers that are alike are ordered by their places. -/
theorem compare_eq_place {m n : Number} (h : m.Alike n) :
    m.compare n = Ord.compare m.place n.place := by
  have last (n : Number) (hn : ∀ p, n ≠ inf p) (q : Bool) :
      (if q then .lt else .gt) = Ord.compare n.place (inf q).place := by
    have bounds := place_bounds hn
    cases q with
    | true => exact (Int.compare_eq_lt.2 bounds.2).symm
    | false => exact (Int.compare_eq_gt.2 bounds.1).symm
  have first (n : Number) (hn : ∀ p, n ≠ inf p) (q : Bool) :
      (if q then .gt else .lt) = Ord.compare (inf q).place n.place := by
    have bounds := place_bounds hn
    cases q with
    | true => exact (Int.compare_eq_gt.2 bounds.2).symm
    | false => exact (Int.compare_eq_lt.2 bounds.1).symm
  match m, n, h with
  | inf p, inf q, _ => cases p <;> cases q <;> decide
  | inf p, int n, _ => exact first (int n) (fun _ h => by cases h) p
  | inf p, dec y, _ => exact first (dec y) (fun _ h => by cases h) p
  | int m, inf q, _ => exact last (int m) (fun _ h => by cases h) q
  | dec x, inf q, _ => exact last (dec x) (fun _ h => by cases h) q
  | int m, int n, _ => rfl
  | dec x, dec y, _ => rfl

theorem chained_compare {m n p : Number} (hmn : m.Alike n) (hnp : n.Alike p) (hmp : m.Alike p) :
    Chained (m.compare n) (n.compare p) (m.compare p) := by
  rw [compare_eq_place hmn, compare_eq_place hnp, compare_eq_place hmp]
  exact chained_compare_int _ _ _

end Number

theorem chained_compareText (s t u : String) :
    Chained (Value.compareText s t) (Value.compareText t u) (Value.compareText s u) := by
  intro h₁ h₂
  unfold Value.compareText at *
  by_cases hst : s < t
  · rw [if_pos hst] at h₁ ⊢
    by_cases htu : t < u
    · rw [if_pos (String.lt_trans hst htu)]
      rfl
    · rw [if_neg htu] at h₂
      by_cases heq : t = u
      · rw [← heq, if_pos hst]
        rfl
      · exact absurd (if_neg heq) h₂
  · rw [if_neg hst] at h₁ ⊢
    by_cases heq : s = t
    · rw [heq, if_pos rfl]
      rfl
    · exact absurd (if_neg heq) h₁

/-- What a payload brings to a comparison. -/
inductive SortKey where
  | void
  | null
  | number (n : Number)
  | date (millis : Int64)
  | text (s : String)
  /-- The payload is compared with void, with null and, if it is a list, with lists. -/
  | other

namespace SortKey

/-- A comparison goes by one rule, and this rule is an order. -/
def Alike : SortKey → SortKey → Prop
  | void, _ => True
  | _, void => True
  | null, _ => True
  | _, null => True
  | number m, number n => m.Alike n
  | date _, date _ => True
  | text _, text _ => True
  | _, _ => False

/-- The order by the rule of the kind. -/
def compare : SortKey → SortKey → Ordering
  | void, void => .eq
  | null, null => .eq
  | void, _ => .lt
  | _, void => .gt
  | null, _ => .lt
  | _, null => .gt
  | number m, number n => m.compare n
  | date x, date y => Ord.compare x.toInt y.toInt
  | text s, text t => Value.compareText s t
  | _, _ => .eq

/-- Void and null rank below the kinds that have an order of their own. -/
def rank : SortKey → Nat
  | void => 0
  | null => 1
  | _ => 2

variable {k l m : SortKey}

theorem rank_le (k : SortKey) : k.rank ≤ 2 := by
  cases k <;> simp only [rank] <;> decide

theorem compare_of_rank_lt (h : k.rank < l.rank) : k.compare l = .lt := by
  cases k with
  | void =>
    cases l with
    | void => cases h
    | _ => rfl
  | null =>
    cases l with
    | void => cases h
    | null => exact absurd h (Nat.lt_irrefl _)
    | _ => rfl
  | _ => exact absurd (Nat.lt_of_lt_of_le h (rank_le l)) (Nat.lt_irrefl 2)

theorem compare_of_rank_gt (h : l.rank < k.rank) : k.compare l = .gt := by
  cases l with
  | void =>
    cases k with
    | void => cases h
    | _ => rfl
  | null =>
    cases k with
    | void => cases h
    | null => exact absurd h (Nat.lt_irrefl _)
    | _ => rfl
  | _ => exact absurd (Nat.lt_of_lt_of_le h (rank_le k)) (Nat.lt_irrefl 2)

theorem compare_other_left (h : other.Alike k) : other.compare k = .gt := by
  cases k with
  | void | null => rfl
  | _ => exact h.elim

theorem compare_other_right (h : k.Alike other) : k.compare other = .lt := by
  cases k with
  | void | null => rfl
  | _ => exact h.elim

theorem chained_compare_of_rank_eq (hkl : k.Alike l) (hlm : l.Alike m) (hkm : k.Alike m)
    (rank_kl : k.rank = l.rank) (rank_lm : l.rank = m.rank) :
    Chained (k.compare l) (l.compare m) (k.compare m) := by
  cases l with
  | void =>
    cases k with
    | void => exact fun _ _ => rfl
    | _ => cases rank_kl
  | null =>
    cases k with
    | null => exact fun _ _ => rfl
    | _ => cases rank_kl
  | number n =>
    match k, m, hkl, hlm, hkm with
    | number _, number _, hkl, hlm, hkm => exact Number.chained_compare hkl hlm hkm
    | void, _, _, _, _ | null, _, _, _, _ => cases rank_kl
    | _, void, _, _, _ | _, null, _, _, _ => cases rank_lm
  | date y =>
    match k, m, hkl, hlm with
    | date _, date _, _, _ => exact chained_compare_int _ _ _
    | void, _, _, _ | null, _, _, _ => cases rank_kl
    | _, void, _, _ | _, null, _, _ => cases rank_lm
  | text t =>
    match k, m, hkl, hlm with
    | text _, text _, _, _ => exact chained_compareText _ _ _
    | void, _, _, _ | null, _, _, _ => cases rank_kl
    | _, void, _, _ | _, null, _, _ => cases rank_lm
  | other =>
    match k, hkl with
    | void, _ | null, _ => cases rank_kl

/-- Three keys that are alike in pairs are compared as in an order. -/
theorem chained_compare (hkl : k.Alike l) (hlm : l.Alike m) (hkm : k.Alike m) :
    Chained (k.compare l) (l.compare m) (k.compare m) := by
  rcases Nat.lt_trichotomy k.rank l.rank with rank_kl | rank_kl | rank_kl
  · rcases Nat.lt_or_ge m.rank l.rank with rank_lm | rank_lm
    · exact .of_gt_right (compare_of_rank_gt rank_lm)
    · exact .of_lt (compare_of_rank_lt rank_kl)
        (compare_of_rank_lt (Nat.lt_of_lt_of_le rank_kl rank_lm))
  · rcases Nat.lt_trichotomy l.rank m.rank with rank_lm | rank_lm | rank_lm
    · exact .of_lt_right (compare_of_rank_lt rank_lm) (compare_of_rank_lt (rank_kl ▸ rank_lm))
    · exact chained_compare_of_rank_eq hkl hlm hkm rank_kl rank_lm
    · exact .of_gt_right (compare_of_rank_gt rank_lm)
  · exact .of_gt_left (compare_of_rank_gt rank_kl)

end SortKey

/-- What a payload brings to a comparison. -/
def Data.sortKey : Data → SortKey
  | .void => .void
  | .null _ => .null
  | .date millis => .date millis
  | data =>
    match Number.coerce? data with
    | some n => .number n
    | none => if data.isScalar then .text data.plainText else .other

namespace Data

variable {data : Data}

theorem rank_sortKey (hvoid : data = .void → False) (hnull : ∀ of, data = .null of → False) :
    data.sortKey.rank = 2 := by
  unfold sortKey
  split
  · exact (hvoid rfl).elim
  · exact (hnull _ rfl).elim
  · rfl
  · split
    · rfl
    · split <;> rfl

theorem rank_sortKey_pos (hvoid : data = .void → False) : 0 < data.sortKey.rank := by
  cases data with
  | void => exact (hvoid rfl).elim
  | null of => exact Nat.one_pos
  | _ =>
    rw [rank_sortKey (fun h => by cases h) fun _ h => by cases h]
    decide

/-- A text counts as a number if it reads as one. -/
theorem sortKey_string (s : String) : (Data.string s).sortKey =
    match Number.parse? s with
    | some n => .number n
    | none => .text s := by
  have coerce : Number.coerce? (Data.string s) = Number.parse? s := by
    unfold Number.coerce?
    rfl
  unfold sortKey
  dsimp only
  rw [coerce]
  cases Number.parse? s with
  | none => rfl
  | some n => rfl

theorem coerce?_of_sortKey {n : Number} (h : data.sortKey = .number n) :
    Number.coerce? data = some n := by
  unfold sortKey at h
  split at h <;> try cases h
  split at h
  · rename_i hn
    cases h
    exact hn
  · split at h <;> cases h

theorem eq_date_of_sortKey {millis : Int64} (h : data.sortKey = .date millis) :
    data = .date millis := by
  unfold sortKey at h
  split at h
  · cases h
  · cases h
  · cases h
    rfl
  · split at h
    · cases h
    · split at h <;> cases h

theorem isScalar_of_sortKey {s : String} (h : data.sortKey = .text s) :
    Number.coerce? data = none ∧ data.isScalar = true ∧ data.plainText = s := by
  unfold sortKey at h
  split at h <;> try cases h
  split at h
  · cases h
  · rename_i hn
    split at h
    · rename_i hs
      cases h
      exact ⟨hn, hs, rfl⟩
    · cases h

end Data

namespace Value

/-- Payloads with keys that are alike are compared by their keys. -/
theorem compareLeaves_eq {a b : Data} (h : a.sortKey.Alike b.sortKey) :
    compareLeaves a b = .ok (a.sortKey.compare b.sortKey) := by
  have void_rank : Data.void.sortKey.rank = 0 := rfl
  have null_rank (of : Option ValueType) : (Data.null of).sortKey.rank = 1 := rfl
  unfold compareLeaves
  split
  case h_1 => rfl
  case h_2 => rfl
  case h_3 hb => rw [SortKey.compare_of_rank_lt (by rw [void_rank]; exact Data.rank_sortKey_pos hb)]
  case h_4 _ ha => rw [SortKey.compare_of_rank_gt (by rw [void_rank]; exact Data.rank_sortKey_pos ha)]
  case h_5 of hnull hvoid =>
    rw [SortKey.compare_of_rank_lt (by rw [null_rank, Data.rank_sortKey hvoid hnull]; decide)]
  case h_6 of hnull hvoid =>
    rw [SortKey.compare_of_rank_gt (by rw [null_rank, Data.rank_sortKey hvoid hnull]; decide)]
  case h_7 x y => cases x <;> cases y <;> rfl
  case h_8 => rfl
  case h_9 x y =>
    rw [Data.sortKey_string, Data.sortKey_string] at h ⊢
    cases hx : Number.parse? x with
    | none =>
      cases hy : Number.parse? y with
      | none => rfl
      | some n =>
        rw [hx, hy] at h
        exact h.elim
    | some m =>
      cases hy : Number.parse? y with
      | none =>
        rw [hx, hy] at h
        exact h.elim
      | some n => rfl
  case h_10 hva hna hvb hnb _ _ _ hdates _ =>
    have ha := Data.rank_sortKey hva hna
    have hb := Data.rank_sortKey hvb hnb
    match hk : a.sortKey, hl : b.sortKey, h with
    | .void, _, _ | .null, _, _ => rw [hk] at ha; cases ha
    | _, .void, _ | _, .null, _ => rw [hl] at hb; cases hb
    | .number m, .number n, _ =>
      rw [Data.coerce?_of_sortKey hk, Data.coerce?_of_sortKey hl]
      rfl
    | .date x, .date y, _ =>
      exact (hdates x y (Data.eq_date_of_sortKey hk) (Data.eq_date_of_sortKey hl)).elim
    | .text s, .text t, _ =>
      obtain ⟨hm, hsa, rfl⟩ := Data.isScalar_of_sortKey hk
      obtain ⟨hn, hsb, rfl⟩ := Data.isScalar_of_sortKey hl
      rw [hm, hn, hsa, hsb]
      rfl

end Value

end Reactor
