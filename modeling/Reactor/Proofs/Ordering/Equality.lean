import Reactor.Proofs.Ordering.Scalars
import Reactor.Proofs.Traversals.Ends

/-!
# Equality as a relation

Two values are equal (`World.Equal`) if they are copies of one value, or if their payloads go together and
the parts that belong together are equal. Which parts these are depends on the payloads only
(`World.pairs?`). The computation of equality tells whether this relation holds (`Value.decides_equalsAt`),
for values that no lambda is part of. The relation does not depend on the side (`World.Equal.symm`).
-/

namespace Reactor

/-! ## Computations that tell something -/

namespace Context

variable {ctx : Context} {w : World} {sure other P Q : Prop} {act act' : Eval Bool}

/-- The computation leaves the state alone and tells whether the proposition holds; or it runs out of budget,
unless it is sure to end. -/
def Decides (ctx : Context) (w : World) (sure P : Prop) (act : Eval Bool) : Prop :=
  ctx.Gives (· = w) sure (fun r => ∃ t, r = .ok t ∧ (t = true ↔ P)) act

theorem decides_pure {t : Bool} (h : t = true ↔ P) : ctx.Decides w sure P (pure t) :=
  gives_pure ⟨t, rfl, h⟩

theorem decides_false (h : ¬P) : ctx.Decides w sure P (pure false) :=
  decides_pure (iff_of_false Bool.false_ne_true h)

theorem Decides.weaken (h : ctx.Decides w sure P act) (hsure : other → sure) : ctx.Decides w other P act :=
  Gives.weaken h hsure

theorem Decides.congr (h : ctx.Decides w sure P act) (hPQ : P ↔ Q) : ctx.Decides w sure Q act :=
  Gives.mono h fun _ ⟨t, ht, hiff⟩ => ⟨t, ht, hiff.trans hPQ⟩

/-- A second computation tells the rest if the first one does not say no. -/
theorem Decides.and (h : ctx.Decides w sure P act) (h' : ctx.Decides w sure Q act') :
    ctx.Decides w sure (P ∧ Q) (do if ← act then act' else return false) := by
  refine Gives.bindOk h fun t ht => ?_
  split
  · rename_i hyes
    exact h'.congr (and_iff_right (ht.1 hyes)).symm
  · rename_i hno
    exact decides_false fun hPQ => hno (ht.2 hPQ.1)

end Context

namespace World

open Value

variable {w : World} {v x a b : Value}

/-- A traversal of the value comes to no lambda, and to no map with two entries under one key. -/
structure Inert (w : World) (v : Value) : Prop where
  lambda? {x : Value} (h : w.Unfolds v x) : x.lambda? = none
  nodup {x : Value} {entries : Entries String Value} (h : w.Unfolds v x) (hx : x.data = .map entries) :
    (Entries.keys entries).Nodup

theorem Inert.part (h : w.Inert v) (hx : x ∈ w.parts v) : w.Inert x :=
  ⟨fun hto => h.lambda? (.part hx hto), fun hto => h.nodup (.part hx hto)⟩

/-- A value whose parts have no parts unfolds to itself and to them. -/
theorem Unfolds.eq_or_mem_parts (hto : w.Unfolds v x) (h : ∀ y ∈ w.parts v, w.parts y = []) :
    x = v ∨ x ∈ w.parts v := by
  cases hto with
  | refl => exact .inl rfl
  | part hy hto =>
    cases hto with
    | refl => exact .inr hy
    | part hz _ =>
      rw [h _ hy] at hz
      cases hz

/-- A value whose parts have no parts is inert if itself and they are no lambdas and no maps. -/
theorem inert_of_parts (h : ∀ y ∈ w.parts v, w.parts y = [])
    (hself : v.lambda? = none ∧ ∀ entries, v.data ≠ .map entries)
    (hparts : ∀ y ∈ w.parts v, y.lambda? = none ∧ ∀ entries, y.data ≠ .map entries) : w.Inert v := by
  have hall {x : Value} (hto : w.Unfolds v x) : x.lambda? = none ∧ ∀ entries, x.data ≠ .map entries := by
    rcases hto.eq_or_mem_parts h with rfl | hx
    · exact hself
    · exact hparts x hx
  exact ⟨fun hto => (hall hto).1, fun hto hx => absurd hx ((hall hto).2 _)⟩

/-! ## Parts that belong together -/

/-- Elements at the same places belong together, if there are equally many. -/
def zipped? (xs ys : List Value) : Option (List (Value × Value)) :=
  if xs.length = ys.length then some (xs.zip ys) else none

/-- Values under one key belong together, if the keys are the same. -/
def matched? (xs ys : Entries String Value) : Option (List (Value × Value)) :=
  if xs.length = ys.length ∧ ∀ entry ∈ xs, (Entries.get? ys entry.1).isSome then
    some (xs.filterMap fun entry => (Entries.get? ys entry.1).map (entry.2, ·))
  else none

/-- The elements of two lists belong together. Other payloads have no parts here. -/
def listed? (a b : Data) : Option (List (Value × Value)) :=
  match items? a, items? b with
  | some xs, some ys => zipped? xs ys
  | _, _ => if equalLeaves a b then some [] else none

/-- The parts of two payloads that belong together, if the payloads may be equal at all. -/
def pairs? (w : World) (a b : Data) : Option (List (Value × Value)) :=
  match a, b with
  | .range p q, .range r s => some [(p, r), (q, s)]
  | .map xs, .map ys => matched? xs ys
  | .queue p, .queue q => if p = q then some [] else zipped? (w.queueAt p).items (w.queueAt q).items
  | a, b => listed? a b

/-- The values are copies of one value, or the parts that belong together are equal. -/
inductive Equal (w : World) : Value → Value → Prop
  | copies {a b : Value} (h : sameCopy a b = true) : Equal w a b
  | parts {a b : Value} {pairs : List (Value × Value)} (h : w.pairs? a.data b.data = some pairs)
    (h' : ∀ p ∈ pairs, Equal w p.1 p.2) : Equal w a b

theorem equal_iff (hcopy : sameCopy a b = false) :
    w.Equal a b ↔ ∃ pairs, w.pairs? a.data b.data = some pairs ∧ ∀ p ∈ pairs, w.Equal p.1 p.2 := by
  constructor
  · intro h
    cases h with
    | copies h => cases hcopy.symm.trans h
    | parts h h' => exact ⟨_, h, h'⟩
  · rintro ⟨pairs, h, h'⟩
    exact .parts h h'

theorem zipped?_eq_some_iff {xs ys : List Value} {pairs : List (Value × Value)} :
    zipped? xs ys = some pairs ↔ xs.length = ys.length ∧ pairs = xs.zip ys := by
  unfold zipped?
  split
  · rename_i hlength
    simp [hlength, eq_comm]
  · rename_i hlength
    simp [hlength]

theorem matched?_eq_some {xs ys : Entries String Value} {pairs : List (Value × Value)}
    (h : matched? xs ys = some pairs) :
    (xs.length = ys.length ∧ ∀ entry ∈ xs, (Entries.get? ys entry.1).isSome) ∧
      ∀ p, p ∈ pairs ↔ ∃ key, (key, p.1) ∈ xs ∧ Entries.get? ys key = some p.2 := by
  unfold matched? at h
  split at h
  · rename_i hkeys
    cases h
    refine ⟨hkeys, fun p => ?_⟩
    rw [List.mem_filterMap]
    constructor
    · rintro ⟨⟨key, x⟩, hentry, hp⟩
      obtain ⟨y, hy, rfl⟩ := Option.map_eq_some_iff.1 hp
      exact ⟨key, hentry, hy⟩
    · rintro ⟨key, hentry, hy⟩
      exact ⟨(key, p.1), hentry, Option.map_eq_some_iff.2 ⟨p.2, hy, rfl⟩⟩
  · cases h

/-- The parts that belong together are parts of the two values. -/
theorem mem_parts_of_pairs? {pairs : List (Value × Value)} {p : Value × Value}
    (h : w.pairs? a.data b.data = some pairs) (hp : p ∈ pairs) : p.1 ∈ w.parts a ∧ p.2 ∈ w.parts b := by
  have hzipped {xs ys : List Value} (h : zipped? xs ys = some pairs) : p.1 ∈ xs ∧ p.2 ∈ ys := by
    obtain ⟨-, rfl⟩ := zipped?_eq_some_iff.1 h
    exact ⟨(List.of_mem_zip hp).1, (List.of_mem_zip hp).2⟩
  obtain ⟨adata, anotes⟩ := a
  obtain ⟨bdata, bnotes⟩ := b
  dsimp only [data_mk] at h
  unfold pairs? at h
  split at h
  · cases h
    rcases List.mem_cons.1 hp with rfl | hp
    · exact ⟨List.mem_cons_self, List.mem_cons_self⟩
    · rw [List.mem_singleton.1 hp]
      exact ⟨List.mem_cons_of_mem _ List.mem_cons_self, List.mem_cons_of_mem _ List.mem_cons_self⟩
  · obtain ⟨key, hx, hy⟩ := ((matched?_eq_some h).2 p).1 hp
    exact ⟨List.mem_map_of_mem hx, List.mem_map_of_mem (Entries.mem_of_get?_eq_some hy)⟩
  · split at h
    · cases h
      cases hp
    · exact hzipped h
  · unfold listed? at h
    split at h
    · rename_i hxs hys
      rw [parts_of_items? hxs, parts_of_items? hys]
      exact hzipped h
    · split at h
      · cases h
        cases hp
      · cases h

theorem zipped?_swap {xs ys : List Value} {pairs : List (Value × Value)} (h : zipped? xs ys = some pairs) :
    ∃ others, zipped? ys xs = some others ∧ ∀ p ∈ others, p.swap ∈ pairs := by
  obtain ⟨hlength, rfl⟩ := zipped?_eq_some_iff.1 h
  refine ⟨ys.zip xs, zipped?_eq_some_iff.2 ⟨hlength.symm, rfl⟩, fun p hp => ?_⟩
  rw [← List.zip_swap]
  exact List.mem_map_of_mem hp

/-- With distinct keys, as many entries with the same keys have no other keys. -/
theorem matched?_swap {xs ys : Entries String Value} {pairs : List (Value × Value)}
    (hxs : (Entries.keys xs).Nodup) (hys : (Entries.keys ys).Nodup) (h : matched? xs ys = some pairs) :
    ∃ others, matched? ys xs = some others ∧ ∀ p ∈ others, p.swap ∈ pairs := by
  obtain ⟨⟨hlength, hkeys⟩, hmem⟩ := matched?_eq_some h
  have hsubset : Entries.keys xs ⊆ Entries.keys ys := by
    intro key hkey
    obtain ⟨entry, hentry, rfl⟩ := List.mem_map.1 hkey
    exact Entries.mem_keys_iff.2 (hkeys entry hentry)
  have hperm : (Entries.keys xs).Perm (Entries.keys ys) := by
    refine (List.subperm_of_subset hxs hsubset).perm_of_length_le ?_
    rw [Entries.keys, Entries.keys, List.length_map, List.length_map, hlength]
  have hback : ys.length = xs.length ∧ ∀ entry ∈ ys, (Entries.get? xs entry.1).isSome :=
    ⟨hlength.symm, fun entry hentry =>
      Entries.mem_keys_iff.1 (hperm.mem_iff.2 (List.mem_map_of_mem (f := Prod.fst) hentry))⟩
  obtain ⟨others, hothers⟩ : ∃ others, matched? ys xs = some others := by
    unfold matched?
    rw [if_pos hback]
    exact ⟨_, rfl⟩
  refine ⟨others, hothers, fun p hp => ?_⟩
  obtain ⟨key, hy, hx⟩ := ((matched?_eq_some hothers).2 p).1 hp
  exact (hmem p.swap).2 ⟨key, Entries.mem_of_get?_eq_some hx, Entries.get?_of_mem hys hy⟩

theorem listed?_swap {a b : Data} {pairs : List (Value × Value)} (h : listed? a b = some pairs) :
    ∃ others, listed? b a = some others ∧ ∀ p ∈ others, p.swap ∈ pairs := by
  have hleaves (h : (if equalLeaves a b then some [] else none) = some pairs) :
      ∃ others : List (Value × Value),
        (if equalLeaves b a then some [] else none) = some others ∧ ∀ p ∈ others, p.swap ∈ pairs := by
    rw [equalLeaves_comm] at h
    split at h
    · rename_i hequal
      rw [if_pos hequal]
      exact ⟨[], rfl, nofun⟩
    · cases h
  unfold listed? at h ⊢
  cases hxs : items? a with
  | none =>
    rw [hxs] at h
    cases items? b <;> exact hleaves h
  | some xs =>
    rw [hxs] at h
    cases hys : items? b with
    | none =>
      rw [hys] at h
      exact hleaves h
    | some ys =>
      rw [hys] at h
      exact zipped?_swap h

theorem pairs?_eq_listed? {a b : Data} (hranges : ∀ p q r s, a = .range p q → b = .range r s → False)
    (hmaps : ∀ xs ys, a = .map xs → b = .map ys → False)
    (hqueues : ∀ p q, a = .queue p → b = .queue q → False) : w.pairs? a b = listed? a b := by
  unfold pairs?
  split
  · exact (hranges _ _ _ _ rfl rfl).elim
  · exact (hmaps _ _ rfl rfl).elim
  · exact (hqueues _ _ rfl rfl).elim
  · rfl

theorem pairs?_of_items? {a b : Data} {xs ys : List Value} (hxs : items? a = some xs)
    (hys : items? b = some ys) : w.pairs? a b = zipped? xs ys := by
  rw [pairs?_eq_listed?, listed?, hxs, hys]
  · rintro p q r s rfl rfl
    cases hxs
  · rintro _ _ rfl rfl
    cases hxs
  · rintro _ _ rfl rfl
    cases hxs

/-- From the other side the same parts belong together. -/
theorem pairs?_swap {pairs : List (Value × Value)} (ha : w.Inert a) (hb : w.Inert b)
    (h : w.pairs? a.data b.data = some pairs) :
    ∃ others, w.pairs? b.data a.data = some others ∧ ∀ p ∈ others, p.swap ∈ pairs := by
  have hkeys {v : Value} {entries : Entries String Value} (hv : w.Inert v) (h : v.data = .map entries) :
      (Entries.keys entries).Nodup := hv.nodup (.refl v) h
  unfold pairs? at h
  split at h
  · rename_i p q r s hp hr
    cases h
    rw [hp, hr]
    refine ⟨[(r, p), (s, q)], rfl, ?_⟩
    simp
  · rename_i xs ys hxs hys
    rw [hxs, hys]
    exact matched?_swap (hkeys ha hxs) (hkeys hb hys) h
  · rename_i p q hp hq
    rw [hp, hq]
    split at h
    · rename_i hpq
      cases h
      exact ⟨[], if_pos hpq.symm, nofun⟩
    · rename_i hpq
      obtain ⟨others, hothers, hswap⟩ := zipped?_swap h
      exact ⟨others, (if_neg (Ne.symm hpq)).trans hothers, hswap⟩
  · rename_i hranges hmaps hqueues
    rw [pairs?_eq_listed? (fun p q r s hp hr => hranges r s p q hr hp)
      (fun xs ys hxs hys => hmaps ys xs hys hxs) fun p q hp hq => hqueues q p hq hp]
    exact listed?_swap h

theorem Equal.symm (ha : w.Inert a) (hb : w.Inert b) (h : w.Equal a b) : w.Equal b a := by
  induction h with
  | @copies a b h =>
    have hb' : b.isLambda = false := by
      rw [isLambda, hb.lambda? (.refl b)]
      rfl
    simp only [sameCopy, Bool.and_eq_true, bne_iff_ne, beq_iff_eq] at h
    refine .copies ?_
    simp only [sameCopy, Bool.and_eq_true, bne_iff_ne, beq_iff_eq, hb']
    exact ⟨⟨h.1.2 ▸ h.1.1, h.1.2.symm⟩, rfl⟩
  | parts h _ ih =>
    obtain ⟨others, hothers, hswap⟩ := pairs?_swap ha hb h
    refine .parts hothers fun p hp => ?_
    obtain ⟨hleft, hright⟩ := mem_parts_of_pairs? h (hswap p hp)
    exact ih p.swap (hswap p hp) (ha.part hleft) (hb.part hright)

/-- The relation does not depend on the side. -/
theorem equal_comm (ha : w.Inert a) (hb : w.Inert b) : w.Equal a b ↔ w.Equal b a :=
  ⟨.symm ha hb, .symm hb ha⟩

end World

/-! ## The computation -/

namespace Value

open Context

variable {ctx : Context} {w : World} {a b : Value} {sure : Prop} {equal : Value → Value → Eval Bool}

theorem decides_equalItems {xs ys : List Value} (hlength : xs.length = ys.length)
    (h : ∀ p ∈ xs.zip ys, ctx.Decides w sure (w.Equal p.1 p.2) (equal p.1 p.2)) :
    ctx.Decides w sure (∀ p ∈ xs.zip ys, w.Equal p.1 p.2) (equalItems equal xs ys) := by
  induction xs generalizing ys with
  | nil =>
    cases ys with
    | nil => exact decides_pure (iff_of_true rfl nofun)
    | cons y ys => cases hlength
  | cons x xs ih =>
    cases ys with
    | nil => cases hlength
    | cons y ys =>
      rw [List.zip_cons_cons] at h ⊢
      obtain ⟨hfirst, hrest⟩ := List.forall_mem_cons.1 h
      refine (hfirst.and (ih (Nat.succ.inj hlength) hrest)).congr ?_
      rw [List.forall_mem_cons]

theorem decides_equalEntries {xs ys : Entries String Value}
    (h : ∀ entry ∈ xs, ∀ y, Entries.get? ys entry.1 = some y →
      ctx.Decides w sure (w.Equal entry.2 y) (equal entry.2 y)) :
    ctx.Decides w sure (∀ entry ∈ xs, ∃ y, Entries.get? ys entry.1 = some y ∧ w.Equal entry.2 y)
      (equalEntries equal ys xs) := by
  induction xs with
  | nil => exact decides_pure (iff_of_true rfl nofun)
  | cons entry xs ih =>
    obtain ⟨hfirst, hrest⟩ := List.forall_mem_cons.1 h
    unfold equalEntries
    cases hget : Entries.get? ys entry.1 with
    | none =>
      refine decides_false fun hall => ?_
      obtain ⟨y, hy, -⟩ := hall entry List.mem_cons_self
      cases hget.symm.trans hy
    | some y =>
      refine ((hfirst y hget).and (ih hrest)).congr ?_
      rw [List.forall_mem_cons]
      simp [hget]

theorem equal_zipped_iff {xs ys : List Value} :
    (∃ pairs, World.zipped? xs ys = some pairs ∧ ∀ p ∈ pairs, w.Equal p.1 p.2) ↔
      xs.length = ys.length ∧ ∀ p ∈ xs.zip ys, w.Equal p.1 p.2 := by
  simp only [World.zipped?_eq_some_iff]
  constructor
  · rintro ⟨_, ⟨hlength, rfl⟩, h⟩
    exact ⟨hlength, h⟩
  · rintro ⟨hlength, h⟩
    exact ⟨_, ⟨hlength, rfl⟩, h⟩

theorem equal_matched_iff {xs ys : Entries String Value} :
    (∃ pairs, World.matched? xs ys = some pairs ∧ ∀ p ∈ pairs, w.Equal p.1 p.2) ↔
      xs.length = ys.length ∧ ∀ entry ∈ xs, ∃ y, Entries.get? ys entry.1 = some y ∧ w.Equal entry.2 y := by
  constructor
  · rintro ⟨pairs, hpairs, h⟩
    obtain ⟨⟨hlength, hkeys⟩, hmem⟩ := World.matched?_eq_some hpairs
    refine ⟨hlength, fun entry hentry => ?_⟩
    obtain ⟨y, hy⟩ := Option.isSome_iff_exists.1 (hkeys entry hentry)
    exact ⟨y, hy, h (entry.2, y) ((hmem _).2 ⟨entry.1, hentry, hy⟩)⟩
  · rintro ⟨hlength, h⟩
    have hkeys : xs.length = ys.length ∧ ∀ entry ∈ xs, (Entries.get? ys entry.1).isSome := by
      refine ⟨hlength, fun entry hentry => ?_⟩
      obtain ⟨y, hy, -⟩ := h entry hentry
      exact Option.isSome_iff_exists.2 ⟨y, hy⟩
    obtain ⟨pairs, hpairs⟩ : ∃ pairs, World.matched? xs ys = some pairs := by
      unfold World.matched?
      rw [if_pos hkeys]
      exact ⟨_, rfl⟩
    refine ⟨pairs, hpairs, fun p hp => ?_⟩
    obtain ⟨key, hentry, hget⟩ := ((World.matched?_eq_some hpairs).2 p).1 hp
    obtain ⟨y, hy, hequal⟩ := h _ hentry
    obtain rfl := Option.some.inj (hget.symm.trans hy)
    exact hequal

theorem decides_zipped {xs ys : List Value}
    (h : ∀ x ∈ xs, ∀ y ∈ ys, ctx.Decides w sure (w.Equal x y) (equal x y)) :
    ctx.Decides w sure (∃ pairs, World.zipped? xs ys = some pairs ∧ ∀ p ∈ pairs, w.Equal p.1 p.2)
      (if xs.length = ys.length then equalItems equal xs ys else pure false) := by
  rw [equal_zipped_iff]
  split
  · rename_i hlength
    refine (decides_equalItems hlength fun p hp => ?_).congr (and_iff_right hlength).symm
    exact h p.1 (List.of_mem_zip hp).1 p.2 (List.of_mem_zip hp).2
  · rename_i hlength
    exact decides_false fun h => hlength h.1

theorem decides_matched {xs ys : Entries String Value}
    (h : ∀ x ∈ Entries.values xs, ∀ y ∈ Entries.values ys, ctx.Decides w sure (w.Equal x y) (equal x y)) :
    ctx.Decides w sure (∃ pairs, World.matched? xs ys = some pairs ∧ ∀ p ∈ pairs, w.Equal p.1 p.2)
      (if xs.length = ys.length then equalEntries equal ys xs else pure false) := by
  rw [equal_matched_iff]
  split
  · rename_i hlength
    refine (decides_equalEntries fun entry hentry y hy => ?_).congr (and_iff_right hlength).symm
    exact h entry.2 (List.mem_map_of_mem hentry) y (List.mem_map_of_mem (Entries.mem_of_get?_eq_some hy))
  · rename_i hlength
    exact decides_false fun h => hlength h.1

theorem decides_listed {a b : Data}
    (h : ∀ xs ys, items? a = some xs → items? b = some ys →
      ∀ x ∈ xs, ∀ y ∈ ys, ctx.Decides w sure (w.Equal x y) (equal x y)) :
    ctx.Decides w sure (∃ pairs, World.listed? a b = some pairs ∧ ∀ p ∈ pairs, w.Equal p.1 p.2)
      (match items? a, items? b with
        | some xs, some ys => if xs.length = ys.length then equalItems equal xs ys else pure false
        | _, _ => pure (equalLeaves a b)) := by
  have leaves : ctx.Decides w sure
      (∃ pairs : List (Value × Value),
        (if equalLeaves a b then some [] else none) = some pairs ∧ ∀ p ∈ pairs, w.Equal p.1 p.2)
      (pure (equalLeaves a b)) := by
    refine decides_pure ?_
    split
    · rename_i hequal
      exact iff_of_true hequal ⟨[], rfl, nofun⟩
    · rename_i hequal
      exact iff_of_false hequal fun ⟨_, h, _⟩ => by cases h
  unfold World.listed?
  cases hxs : items? a with
  | none => exact leaves
  | some xs =>
    cases hys : items? b with
    | none => exact leaves
    | some ys => exact decides_zipped (h xs ys hxs hys)

/-- The computation tells whether two values are equal. It ends if the budget allows the levels of the first
one. -/
theorem decides_equalsAt (ctx : Context) (budget : Nat) (ha : w.Inert a) (hb : w.Inert b) :
    ctx.Decides w (w.Flat budget a) (w.Equal a b) (equalsAt budget a b) := by
  induction budget generalizing a b with
  | zero => exact gives_exhausted id
  | succ budget ih =>
    have parts (x : Value) (hx : x ∈ w.parts a) (y : Value) (hy : y ∈ w.parts b) :
        ctx.Decides w (w.Flat (budget + 1) a) (w.Equal x y) (equalsAt budget x y) :=
      (ih (ha.part hx) (hb.part hy)).weaken fun hflat => hflat x hx
    unfold equalsAt
    split
    · rename_i hcopy
      exact decides_pure (iff_of_true rfl (.copies hcopy))
    rename_i hcopy
    rw [onAttempt_of_lambda?_eq_none (ha.lambda? (.refl a)),
      onAttempt_of_lambda?_eq_none (hb.lambda? (.refl b))]
    dsimp only
    refine Decides.congr ?_ (World.equal_iff (eq_false_of_ne_true hcopy)).symm
    obtain ⟨adata, anotes⟩ := a
    obtain ⟨bdata, bnotes⟩ := b
    dsimp only [data_mk]
    split
    · rename_i p q r s
      have hstart := parts p List.mem_cons_self r List.mem_cons_self
      have hstop := parts q (List.mem_cons_of_mem _ List.mem_cons_self) s
        (List.mem_cons_of_mem _ List.mem_cons_self)
      refine (hstart.and hstop).congr ?_
      constructor
      · rintro ⟨h, h'⟩
        exact ⟨_, rfl, List.forall_mem_cons.2 ⟨h, List.forall_mem_singleton.2 h'⟩⟩
      · rintro ⟨_, ⟨⟩, h⟩
        exact ⟨h _ List.mem_cons_self, h _ (List.mem_cons_of_mem _ List.mem_cons_self)⟩
    · exact decides_matched parts
    · rename_i p q
      split
      · rename_i hpq
        exact decides_pure (iff_of_true rfl ⟨[], if_pos hpq, nofun⟩)
      · rename_i hpq
        have hpairs : w.pairs? (.queue p) (.queue q) =
            World.zipped? (w.queueAt p).items (w.queueAt q).items := if_neg hpq
        rw [hpairs]
        refine (gives_gets_eq (f := id) (a := w) ?_).bindOk ?_
        · rintro _ rfl
          rfl
        · rintro u rfl
          have items : ∀ x ∈ (u.queueAt p).items, ∀ y ∈ (u.queueAt q).items,
              ctx.Decides u (u.Flat (budget + 1) (.mk (.queue p) anotes)) (u.Equal x y) (equalsAt budget x y) :=
            parts
          have h := decides_zipped items
          -- the queues are held while their items are compared
          split
          · rename_i hlength
            rw [if_pos hlength] at h
            exact Gives.holding h _
          · rename_i hlength
            rw [if_neg hlength] at h
            exact h
    · rename_i hranges hmaps hqueues
      rw [World.pairs?_eq_listed? hranges hmaps hqueues]
      refine decides_listed fun xs ys hxs hys x hx y hy => parts x ?_ y ?_
      · rwa [parts_of_items? hxs]
      · rwa [parts_of_items? hys]

end Value

end Reactor
