import Reactor.Proofs.Casts
import Reactor.Proofs.Collections.Items
import Reactor.Proofs.Ordering.Agreement

/-!
# Elements under keys

A key addresses a place of a list or a sequence by its integer and an entry of a map by its text (`Value.slot`).
Reading, setting and looking for a key read it in the same way, so that an element that has been set is found under
every key of its slot, and all others stay where they are (`Value.Updated`, `Value.set_updates`).
-/

namespace Reactor

section Lists

variable {α : Type} {xs : List α} {i j : Nat} {x : α}

/-- The list with another element at a place of it, or at the place behind it. -/
def putAt (xs : List α) (i : Nat) (x : α) : List α :=
  if i < xs.length then xs.set i x else xs ++ [x]

theorem getElem?_putAt (hi : i ≤ xs.length) : (putAt xs i x)[j]? = if j = i then some x else xs[j]? := by
  unfold putAt
  split
  · rename_i hlt
    rw [List.getElem?_set]
    by_cases hj : i = j
    · rw [if_pos hj, if_pos hlt, if_pos hj.symm]
    · rw [if_neg hj, if_neg (Ne.symm hj)]
  · rename_i hge
    obtain rfl : i = xs.length := by omega
    rw [List.getElem?_append]
    split
    · rw [if_neg (by omega)]
    · by_cases hj : j = xs.length
      · rw [if_pos hj, hj, Nat.sub_self]
        rfl
      · rw [if_neg hj, List.getElem?_eq_none (by simp; omega), List.getElem?_eq_none (by omega)]

theorem length_putAt :
    (putAt xs i x).length = if i < xs.length then xs.length else xs.length + 1 := by
  unfold putAt
  split
  · exact List.length_set
  · exact List.length_append

end Lists

/-- A new key makes a map longer. -/
theorem Entries.length_insert {κ α : Type} [DecidableEq κ] (entries : Entries κ α) (key : κ) (value : α) :
    (insert entries key value).length = if entries.contains key then entries.length else entries.length + 1 := by
  have hlength (entries : Entries κ α) : entries.length = (keys entries).length := (List.length_map _).symm
  rw [hlength, hlength entries, keys_insert, contains]
  by_cases h : key ∈ keys entries
  · rw [if_pos h, if_pos (mem_keys_iff.1 h)]
  · rw [if_neg h, if_neg (mt mem_keys_iff.2 h), List.length_append, List.length_singleton]

namespace Value

open Eval

variable {ctx : Context} {w u : World} {v c k k' x : Value} {items : List Value} {entries : Entries String Value}
  {n : Int64}

/-! ## What keys address -/

/-- What a key stands for: the name of an entry in a map, else a number. -/
def slot (v key : Value) : Eval (String ⊕ Int64) :=
  match v.data with
  | .map _ => do return .inl (← key.human)
  | _ => do return .inr (← key.toInteger)

theorem toInteger_eq (hk : w.Undeferred k) : k.toInteger ctx w = ofExcept (dataToInteger k.data) ctx w := by
  rw [toInteger, forced_of_lambda?_eq_none hk.lambda?_eq_none]
  rfl

/-- A value with an integer has a text too. -/
theorem isLeaf_of_dataToInteger (hn : dataToInteger k.data = .ok n) : isLeaf k.data = true := by
  obtain ⟨data, notes⟩ := k
  cases data with
  | list _ => cases hn
  | sequence _ => cases hn
  | map _ => cases hn
  | range _ _ => cases hn
  | queue _ => cases hn
  | lambda _ => cases hn
  | _ => rfl

/-- A key that comes to no lambda has a text, or the budget does not allow its levels. -/
theorem human_cases (hk : w.Undeferred k) (ctx : Context) :
    (k.human ctx w = .exhausted ∧ ¬w.Flat ctx.budget k) ∨ ∃ text, k.human ctx w = .value text w := by
  rcases human_ends hk ctx with h | h
  · exact .inl h
  · obtain ⟨r, u, run, rfl, text, rfl⟩ := Outcome.yields_iff.1 h
    exact .inr ⟨text, run⟩

/-- The place that a number stands for. -/
def placeOf (n : Int64) : Option Nat :=
  if n < 0 then none else some n.toInt.toNat

theorem placeOf_eq_some_iff {i : Nat} : placeOf n = some i ↔ n.toInt = i := by
  have hneg : n < 0 ↔ n.toInt < 0 := by rw [Int64.lt_iff_toInt_lt, Int64.toInt_zero]
  unfold placeOf
  by_cases h : n.toInt < 0
  · rw [if_pos (hneg.2 h)]
    exact ⟨nofun, fun hi => by omega⟩
  · rw [if_neg (mt hneg.1 h), Option.some_inj]
    omega

/-- Different numbers stand for different places. -/
theorem eq_of_placeOf {m : Int64} {i : Nat} (hm : placeOf m = some i) (hn : placeOf n = some i) : m = n := by
  rw [placeOf_eq_some_iff] at hm hn
  exact Int64.toInt_inj.1 (hm.trans hn.symm)

theorem indexOf_of_ok (hk : w.Undeferred k) (hn : dataToInteger k.data = .ok n) :
    indexOf k ctx w = .value (placeOf n) w := by
  rw [indexOf, bind_apply, toInteger_eq hk, hn]
  rfl

theorem indexOf_of_error {e : Error} (hk : w.Undeferred k) (he : dataToInteger k.data = .error e) :
    indexOf k ctx w = .error e w := by
  rw [indexOf, bind_apply, toInteger_eq hk, he]
  rfl

/-- The collection is another one of its kind with an element under the key, and all others as they were. -/
structure Updated (ctx : Context) (w : World) (v k x c : Value) : Prop where
  tag : c.tag = v.tag
  get : c.get k ctx w = .value x w
  containsKey : c.containsKey k ctx w = .value true w
  /-- Under the keys of all other slots there is what was there before. -/
  get_other (k' : Value) (hk' : w.Undeferred k') (hslot : slot v k' ctx w ≠ slot v k ctx w) :
    c.get k' ctx w = v.get k' ctx w
  /-- A new element makes the collection longer. -/
  size : ∃ n known, v.size ctx w = .value n w ∧ v.containsKey k ctx w = .value known w ∧
    c.size ctx w = .value (if known then n else n + 1) w
  /-- The keys that a map had come first in its keys. -/
  keys (entries : Entries String Value) (h : v.data = .map entries) :
    ∃ more : Entries String Value, c.data = .map more ∧ entries.keys <+: more.keys

/-! ## Lists and sequences -/

section Items

variable (hv : items? v.data = some items)
include hv

theorem get_of_items? : v.get k = do return ((← indexOf k).bind fun i => items[i]?).getD .void := by
  rw [get, onForced_of_items? hv]
  obtain ⟨data, notes⟩ := v
  cases data with
  | list xs => cases hv; simp only [data_mk, bind_assoc, pure_bind]
  | sequence xs => cases hv; simp only [data_mk, bind_assoc, pure_bind]
  | _ => cases hv

theorem containsKey_of_items? : v.containsKey k = do return (← indexOf k).any (· < items.length) := by
  rw [containsKey, onForced_of_items? hv]
  obtain ⟨data, notes⟩ := v
  cases data with
  | list xs => cases hv; rfl
  | sequence xs => cases hv; rfl
  | _ => cases hv

theorem size_of_items? : v.size = pure items.length := by
  rw [size, onForced_of_items? hv]
  obtain ⟨data, notes⟩ := v
  cases data with
  | list xs => cases hv; rfl
  | sequence xs => cases hv; rfl
  | _ => cases hv

theorem set_of_items? : v.set k x = (do
    match ← indexOf k with
    | some i => if i ≤ items.length then return sameKind v (putAt items i x) else set.outOfBounds k items.length
    | none => set.outOfBounds k items.length) := by
  have hset : v.set k x = (do
      match ← indexOf k with
      | some i =>
        if i < items.length then return sameKind v (items.set i x)
        else if i = items.length then return sameKind v (items ++ [x])
        else set.outOfBounds k items.length
      | none => set.outOfBounds k items.length) := by
    rw [set, onForced_of_items? hv]
    obtain ⟨data, notes⟩ := v
    cases data with
    | list xs => cases hv; rfl
    | sequence xs => cases hv; rfl
    | _ => cases hv
  rw [hset]
  congr 1
  funext place
  cases place with
  | none => rfl
  | some i =>
    dsimp only
    unfold putAt
    by_cases hlt : i < items.length
    · rw [if_pos hlt, if_pos hlt, if_pos (Nat.le_of_lt hlt)]
    · by_cases heq : i = items.length
      · rw [if_neg hlt, if_pos heq, if_pos (Nat.le_of_eq heq), if_neg hlt]
      · rw [if_neg hlt, if_neg heq, if_neg (by omega)]

theorem slot_of_items? : slot v k = do return .inr (← k.toInteger) := by
  obtain ⟨data, notes⟩ := v
  cases data with
  | list xs => rfl
  | sequence xs => rfl
  | _ => cases hv

omit hv in
/-- The failure names the key, which takes a budget. -/
theorem outOfBounds_eq {length : Nat} (hk : w.Undeferred k) (hn : dataToInteger k.data = .ok n) :
    set.outOfBounds k length ctx w = .exhausted ∧ ctx.budget = 0 ∨
      ∃ e, set.outOfBounds k length ctx w = .error e w := by
  rw [set.outOfBounds, bind_apply]
  rcases human_cases hk ctx with ⟨h, hflat⟩ | ⟨text, run⟩
  · refine .inl ⟨by rw [h]; rfl, ?_⟩
    by_contra hbudget
    exact hflat ((flat_of_isLeaf (isLeaf_of_dataToInteger hn)).mono (by omega))
  · refine .inr ⟨.new .invalidOperation ("Index " ++ text ++ " out of bounds (length: " ++ toString length ++ ")"), ?_⟩
    rw [run]
    rfl

/-- What setting an element may end with: the key has no integer, or a place is set, or there is no such place. -/
theorem set_items_cases (ctx : Context) (hk : w.Undeferred k) (x : Value) :
    (∃ e, dataToInteger k.data = .error e ∧ v.set k x ctx w = .error e w) ∨
    (∃ n i, dataToInteger k.data = .ok n ∧ placeOf n = some i ∧ i ≤ items.length ∧
      v.set k x ctx w = .value (sameKind v (putAt items i x)) w) ∨
    ∃ n, dataToInteger k.data = .ok n ∧ (n.toInt < 0 ∨ (items.length : Int) < n.toInt) ∧
      (v.set k x ctx w = .exhausted ∧ ctx.budget = 0 ∨ ∃ e, v.set k x ctx w = .error e w) := by
  rw [set_of_items? hv, bind_apply]
  cases hn : dataToInteger k.data with
  | error e =>
    refine .inl ⟨e, rfl, ?_⟩
    rw [indexOf_of_error hk hn]
    rfl
  | ok n =>
    rw [indexOf_of_ok hk hn, Outcome.bind_value]
    cases hplace : placeOf n with
    | none =>
      have hneg : ¬∃ i : Nat, n.toInt = i := by
        rintro ⟨i, hi⟩
        rw [placeOf_eq_some_iff.2 hi] at hplace
        cases hplace
      refine .inr (.inr ⟨n, rfl, .inl ?_, outOfBounds_eq hk hn⟩)
      by_contra hge
      exact hneg ⟨n.toInt.toNat, by omega⟩
    | some i =>
      have hi := placeOf_eq_some_iff.1 hplace
      dsimp only
      split
      · rename_i hle
        exact .inr (.inl ⟨n, i, rfl, hplace, hle, rfl⟩)
      · rename_i hgt
        exact .inr (.inr ⟨n, rfl, .inr (by omega), outOfBounds_eq hk hn⟩)

/-- Setting fails exactly without a place to set. -/
theorem set_items_fails_iff (hk : w.Undeferred k) (hbudget : 0 < ctx.budget) (x : Value) :
    ((∃ e, v.set k x ctx w = .error e w) ↔ (∃ e, k.toInteger ctx w = .error e w) ∨
      ∃ n, k.toInteger ctx w = .value n w ∧ (n.toInt < 0 ∨ (items.length : Int) < n.toInt)) ∧
    ((∃ c, v.set k x ctx w = .value c w) ∨ ∃ e, v.set k x ctx w = .error e w) := by
  rcases set_items_cases hv ctx hk x with ⟨e, he, run⟩ | ⟨n, i, hn, hplace, hi, run⟩ | ⟨n, hn, hout, run⟩
  · have hkey : k.toInteger ctx w = .error e w := by
      rw [toInteger_eq hk, he]
      rfl
    exact ⟨iff_of_true ⟨e, run⟩ (.inl ⟨e, hkey⟩), .inr ⟨e, run⟩⟩
  · have hkey : k.toInteger ctx w = .value n w := by
      rw [toInteger_eq hk, hn]
      rfl
    refine ⟨iff_of_false ?_ ?_, .inl ⟨_, run⟩⟩
    · rw [run]
      exact nofun
    · rw [hkey]
      rintro (⟨e, he⟩ | ⟨m, hm, hout⟩)
      · cases he
      · cases hm
        rw [placeOf_eq_some_iff] at hplace
        omega
  · have hkey : k.toInteger ctx w = .value n w := by
      rw [toInteger_eq hk, hn]
      rfl
    obtain ⟨e, run⟩ := run.resolve_left fun h => by omega
    exact ⟨iff_of_true ⟨e, run⟩ (.inr ⟨n, hkey, hout⟩), .inr ⟨e, run⟩⟩

/-- Under a key of another number there is what was there before. -/
theorem get_sameKind_of_ne {i : Nat} (hk' : w.Undeferred k') (hi : i ≤ items.length) (hplace : placeOf n = some i)
    (hne : dataToInteger k'.data ≠ .ok n) :
    (sameKind v (putAt items i x)).get k' ctx w = v.get k' ctx w := by
  rw [get_of_items? items?_sameKind, get_of_items? hv, bind_apply, bind_apply]
  cases hm : dataToInteger k'.data with
  | error e => rw [indexOf_of_error hk' hm, Outcome.bind_error, Outcome.bind_error]
  | ok m =>
    rw [indexOf_of_ok hk' hm, Outcome.bind_value, Outcome.bind_value]
    cases hplace' : placeOf m with
    | none => rfl
    | some j =>
      have hji : j ≠ i := by
        rintro rfl
        exact hne (by rw [hm, eq_of_placeOf hplace' hplace])
      rw [Option.bind_some, Option.bind_some, getElem?_putAt hi, if_neg hji]

theorem updated_items {i : Nat} (hk : w.Undeferred k) (hn : dataToInteger k.data = .ok n) (hplace : placeOf n = some i)
    (hi : i ≤ items.length) : Updated ctx w v k x (sameKind v (putAt items i x)) where
  tag := tag_sameKind hv
  get := by
    rw [get_of_items? items?_sameKind, bind_apply, indexOf_of_ok hk hn, hplace, Outcome.bind_value, Option.bind_some,
      getElem?_putAt hi, if_pos rfl]
    rfl
  containsKey := by
    have hlt : i < (putAt items i x).length := by
      rw [length_putAt]
      split <;> omega
    rw [containsKey_of_items? items?_sameKind, bind_apply, indexOf_of_ok hk hn, hplace, Outcome.bind_value]
    simp [hlt]
  get_other := by
    intro k' hk' hslot
    refine get_sameKind_of_ne hv hk' hi hplace fun hn' => hslot ?_
    rw [slot_of_items? hv, slot_of_items? hv, bind_apply, bind_apply, toInteger_eq hk, toInteger_eq hk', hn, hn']
  size := by
    refine ⟨items.length, decide (i < items.length), by rw [size_of_items? hv]; rfl, ?_, ?_⟩
    · rw [containsKey_of_items? hv, bind_apply, indexOf_of_ok hk hn, hplace]
      rfl
    · rw [size_of_items? items?_sameKind, length_putAt, pure_apply]
      simp only [decide_eq_true_eq]
  keys := by
    intro entries hmap
    rw [hmap] at hv
    cases hv

/-- If an element has been set, its place was there. -/
theorem updated_of_set_items (hk : w.Undeferred k) (run : v.set k x ctx w = .value c u) :
    u = w ∧ Updated ctx w v k x c := by
  rcases set_items_cases hv ctx hk x with ⟨e, -, h⟩ | ⟨n, i, hn, hplace, hi, h⟩ | ⟨n, -, -, ⟨h, -⟩ | ⟨e, h⟩⟩
  · rw [h] at run
    cases run
  · rw [h] at run
    cases run
    exact ⟨rfl, updated_items hv hk hn hplace hi⟩
  · rw [h] at run
    cases run
  · rw [h] at run
    cases run

end Items

theorem items_of_tag (h : v.tag = .list ∨ v.tag = .sequence) : ∃ items, items? v.data = some items := by
  obtain ⟨data, notes⟩ := v
  cases data with
  | list items => exact ⟨items, rfl⟩
  | sequence items => exact ⟨items, rfl⟩
  | _ => rcases h with h | h <;> cases h

/-! ## Maps -/

section Maps

variable (hv : v.data = .map entries)
include hv

theorem onForced_of_map {α : Type} (work : Value → Eval α) : v.onForced work = work v := by
  obtain ⟨data, notes⟩ := v
  cases hv
  rfl

theorem get_of_map : v.get k = do return (Entries.get? entries (← k.human)).getD .void := by
  rw [get, onForced_of_map hv, hv]
  simp only [bind_assoc, pure_bind]

theorem containsKey_of_map : v.containsKey k = do return Entries.contains entries (← k.human) := by
  rw [containsKey, onForced_of_map hv, hv]

theorem size_of_map : v.size = pure entries.length := by
  rw [size, onForced_of_map hv, hv]

theorem set_of_map : v.set k x = do return .map (Entries.insert entries (← k.human) x) := by
  rw [set, onForced_of_map hv, hv]

theorem slot_of_map : slot v k = do return .inl (← k.human) := by
  rw [slot, hv]

theorem updated_map {text : String} (hk : k.human ctx w = .value text w) :
    Updated ctx w v k x (.map (Entries.insert entries text x)) where
  tag := (congrArg Data.type hv).symm
  get := by
    rw [get_of_map rfl, bind_apply, hk, Outcome.bind_value, Entries.get?_insert, if_pos rfl]
    rfl
  containsKey := by
    rw [containsKey_of_map rfl, bind_apply, hk, Outcome.bind_value, Entries.contains_insert,
      decide_eq_true rfl, Bool.true_or]
    rfl
  get_other := by
    intro k' hk' hslot
    rw [get_of_map rfl, get_of_map hv, bind_apply, bind_apply]
    rcases human_cases hk' ctx with ⟨h, -⟩ | ⟨text', h⟩
    · rw [h, Outcome.bind_exhausted, Outcome.bind_exhausted]
    · have hne : text ≠ text' := by
        rintro rfl
        exact hslot (by rw [slot_of_map hv, slot_of_map hv, bind_apply, bind_apply, hk, h])
      rw [h, Outcome.bind_value, Outcome.bind_value, Entries.get?_insert, if_neg hne]
  size := by
    refine ⟨entries.length, Entries.contains entries text, by rw [size_of_map hv]; rfl, ?_, ?_⟩
    · rw [containsKey_of_map hv, bind_apply, hk]
      rfl
    · rw [size_of_map rfl, pure_apply, Entries.length_insert]
  keys := by
    intro entries' hv'
    obtain rfl : entries = entries' := Data.map.inj (hv.symm.trans hv')
    refine ⟨_, rfl, ?_⟩
    rw [Entries.keys_insert]
    split
    · exact List.prefix_refl _
    · exact List.prefix_append _ _

/-- If an entry has been set, the key had a text. -/
theorem updated_of_set_map (hk : w.Undeferred k) (run : v.set k x ctx w = .value c u) :
    u = w ∧ Updated ctx w v k x c := by
  rw [set_of_map hv, bind_apply] at run
  rcases human_cases hk ctx with ⟨h, -⟩ | ⟨text, h⟩
  · rw [h] at run
    cases run
  · rw [h] at run
    cases run
    exact ⟨rfl, updated_map hv h⟩

theorem exists_set_map (hk : w.Undeferred k) (hflat : w.Flat ctx.budget k) (x : Value) :
    ∃ c, v.set k x ctx w = .value c w := by
  obtain ⟨text, run⟩ := (human_cases hk ctx).resolve_left fun h => h.2 hflat
  refine ⟨.map (Entries.insert entries text x), ?_⟩
  rw [set_of_map hv, bind_apply, run]
  rfl

end Maps

theorem entries_of_tag (h : v.tag = .map) : ∃ entries, v.data = .map entries := by
  obtain ⟨data, notes⟩ := v
  cases data with
  | map entries => exact ⟨entries, rfl⟩
  | _ => cases h

/-- **Setting elements.** What has been set in a list, a sequence or a map is found under the key, whatever type the key
is of. All other slots are as they were. A place of a list is set exactly if the key has an integer, which is
neither negative nor above the length; an entry of a map is set if the key has a text. -/
theorem set_updates (ctx : Context) (hv : v.tag = .list ∨ v.tag = .sequence ∨ v.tag = .map) (hk : w.Undeferred k)
    (x : Value) :
    (∀ c u, v.set k x ctx w = .value c u → u = w ∧ Updated ctx w v k x c) ∧
    (∀ items, items? v.data = some items → 0 < ctx.budget →
      ((∃ e, v.set k x ctx w = .error e w) ↔ (∃ e, k.toInteger ctx w = .error e w) ∨
        ∃ n, k.toInteger ctx w = .value n w ∧ (n.toInt < 0 ∨ (items.length : Int) < n.toInt)) ∧
      ((∃ c, v.set k x ctx w = .value c w) ∨ ∃ e, v.set k x ctx w = .error e w)) ∧
    (v.tag = .map → w.Flat ctx.budget k → ∃ c, v.set k x ctx w = .value c w) := by
  refine ⟨fun c u run => ?_, fun items hitems hbudget => set_items_fails_iff hitems hk hbudget x, fun htag hflat => ?_⟩
  · rw [← or_assoc] at hv
    rcases hv with hv | hv
    · obtain ⟨items, hitems⟩ := items_of_tag hv
      exact updated_of_set_items hitems hk run
    · obtain ⟨entries, hmap⟩ := entries_of_tag hv
      exact updated_of_set_map hmap hk run
  · obtain ⟨entries, hmap⟩ := entries_of_tag htag
    exact exists_set_map hmap hk hflat x

/-- A text with blanks addresses the place behind one element, and a boolean that element. -/
theorem set_at_end :
    let ctx := Context.ofBudget 1 default
    let w : World := {}
    let v := sequence [integer 5]
    let c := sequence [integer 5, null]
    (v.tag = .sequence ∧ w.Undeferred (string " 1 ")) ∧ v.set (string " 1 ") null ctx w = .value c w ∧
      c.get (string " 1 ") ctx w = .value null w ∧ c.containsKey (string " 1 ") ctx w = .value true w ∧
      (w.Undeferred (boolean false) ∧ slot v (boolean false) ctx w ≠ slot v (string " 1 ") ctx w) ∧
      c.get (boolean false) ctx w = v.get (boolean false) ctx w ∧ c.size ctx w = .value 2 w := by
  intro ctx w v c
  have undeferred {k : Value} (hleaf : isLeaf k.data = true) : w.Undeferred k :=
    fun _ hto => (inert_of_isLeaf hleaf).lambda? hto
  have hslot : slot v (boolean false) ctx w ≠ slot v (string " 1 ") ctx w := by
    intro h
    have hsame : (Outcome.value (.inr 0) w : Outcome (String ⊕ Int64)) = .value (.inr 1) w := h
    exact absurd (Sum.inr.inj (Outcome.value.inj hsame).1) (by decide)
  have hset : v.set (string " 1 ") null ctx w = .value c w := rfl
  obtain ⟨-, h⟩ := (set_updates ctx (.inr (.inl rfl)) (undeferred rfl) null).1 c w hset
  exact ⟨⟨rfl, undeferred rfl⟩, hset, h.get, h.containsKey, ⟨undeferred rfl, hslot⟩,
    h.get_other (boolean false) (undeferred rfl) hslot, rfl⟩

end Value

end Reactor
