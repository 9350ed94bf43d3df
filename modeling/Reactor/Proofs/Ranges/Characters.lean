import Reactor.Proofs.Ranges.Words

/-!
# Ranges of characters

The elements of a range of characters are worked out by code points. Between two characters there may be code
points that are none of a character, the surrogates: a range counts them too and has void in their places.

* `Value.AreBetween` : the characters from one to another one, in order.
* `Value.character_ranges_expand` : what a range of characters lists, holds and becomes when it is turned around.
* `Value.surrogates_are_listed` : two neighbouring characters have a range of more than two elements.
-/

namespace Reactor.Value

variable {v x a b : Value} {c d e : Char} {k : Int} {ctx : Context} {w : World}

/-! ## Code points -/

/-- The text of one character. -/
def character (c : Char) : Value :=
  .string (String.singleton c)

theorem character_inj : character c = character d ↔ c = d := by
  refine ⟨fun h => ?_, congrArg character⟩
  have hdata : Data.string (String.singleton c) = .string (String.singleton d) := congrArg data h
  exact String.singleton_inj.1 (Data.string.inj hdata)

/-- The character with the code point. -/
def character? (k : Int) : Option Char :=
  if 0 ≤ k && k.toNat.isValidChar then some (Char.ofNat k.toNat) else none

theorem rangeItem_characters (k : Int) : rangeItem .characters k = (character? k).elim .void character := by
  unfold rangeItem character?
  cases 0 ≤ k && k.toNat.isValidChar <;> rfl

theorem toNat_ofNat {n : Nat} (h : n.isValidChar) : (Char.ofNat n).toNat = n := by
  unfold Char.ofNat
  rw [dif_pos h]
  rfl

theorem character?_of_isValidChar (hk : 0 ≤ k) (h : k.toNat.isValidChar) :
    character? k = some (Char.ofNat k.toNat) := by
  unfold character?
  rw [decide_eq_true hk, decide_eq_true h]
  rfl

theorem character?_eq_some_iff : character? k = some c ↔ k = c.toNat := by
  constructor
  · intro h
    unfold character? at h
    split at h
    · rename_i hk
      rw [Bool.and_eq_true, decide_eq_true_iff, decide_eq_true_iff] at hk
      cases h
      rw [toNat_ofNat hk.2]
      omega
    · cases h
  · rintro rfl
    rw [character?_of_isValidChar (by omega) (by exact c.valid), Int.toNat_natCast, Char.ofNat_toNat]

/-- The number is a code point between those of characters, and no character has it. -/
def IsSurrogate (k : Int) : Prop :=
  0xd800 ≤ k ∧ k ≤ 0xdfff

/-- There are surrogates between the characters. -/
def Straddles (c d : Char) : Prop :=
  c.toNat < 0xd800 ∧ 0xdfff < d.toNat ∨ d.toNat < 0xd800 ∧ 0xdfff < c.toNat

theorem character?_eq_none_iff (hk : Between c.toNat d.toNat k) : character? k = none ↔ IsSurrogate k := by
  have hc := codePoint_cases c
  have hd := codePoint_cases d
  unfold Between at hk
  unfold IsSurrogate
  constructor
  · intro hnone
    by_contra hout
    have hvalid : k.toNat.isValidChar := by
      show k.toNat < 0xd800 ∨ 0xdfff < k.toNat ∧ k.toNat < 0x110000
      omega
    cases hnone.symm.trans (character?_of_isValidChar (by omega) hvalid)
  · intro hin
    refine Option.eq_none_iff_forall_ne_some.2 fun e he => ?_
    have hat : k = e.toNat := character?_eq_some_iff.1 he
    have hvalid := codePoint_cases e
    omega

/-! ## Characters between others -/

/-- The characters are those from one character to another one, in order. -/
structure AreBetween (c d : Char) (chars : List Char) : Prop where
  mem_iff : ∀ e, e ∈ chars ↔ Between c.toNat d.toNat e.toNat
  ascending : c ≤ d → chars.Pairwise (· < ·)
  descending : d ≤ c → chars.Pairwise (· > ·)

theorem pairwise_stretch {m n : Int} {r : Int → Int → Prop}
    (h : ∀ i j : Nat, i < j → j ≤ (n - m).natAbs → r (m + (n - m).sign * i) (m + (n - m).sign * j)) :
    (stretch m n).Pairwise r := by
  refine List.pairwise_iff_getElem.2 fun i j hi hj hij => ?_
  rw [length_stretch] at hj
  rw [getElem_stretch, getElem_stretch]
  exact h i j hij (by omega)

/-- The characters of a stretch are in the order of their code points. -/
theorem pairwise_filterMap {ks : List Int} {r : Int → Int → Prop} {q : Char → Char → Prop} (hks : ks.Pairwise r)
    (h : ∀ c d : Char, r c.toNat d.toNat → q c d) : (ks.filterMap character?).Pairwise q := by
  refine List.pairwise_filterMap.2 (hks.imp ?_)
  intro i j hij c hc d hd
  rw [character?_eq_some_iff] at hc hd
  exact h c d (hc ▸ hd ▸ hij)

theorem areBetween_stretch (c d : Char) : AreBetween c d ((stretch c.toNat d.toNat).filterMap character?) where
  mem_iff e := by
    simp only [List.mem_filterMap, mem_stretch, character?_eq_some_iff]
    exact ⟨fun ⟨k, hk, he⟩ => he ▸ hk, fun he => ⟨_, he, rfl⟩⟩
  ascending hcd := by
    have hcd : c.toNat ≤ d.toNat := hcd
    refine pairwise_filterMap (pairwise_stretch (r := (· < ·)) fun i j hij hj => ?_) fun x y hxy => ?_
    · rw [Int.sign_eq_one_of_pos (by omega)]
      omega
    · exact Int.ofNat_lt.1 hxy
  descending hdc := by
    have hdc : d.toNat ≤ c.toNat := hdc
    refine pairwise_filterMap (pairwise_stretch (r := (· > ·)) fun i j hij hj => ?_) fun x y hxy => ?_
    · rw [Int.sign_eq_neg_one_of_neg (by omega)]
      omega
    · exact Int.ofNat_lt.1 hxy

/-- The item in the place of a code point. -/
def itemOf (k : Int) : Value :=
  (character? k).elim .void character

theorem filter_itemOf (ks : List Int) :
    (ks.map itemOf).filter (·.tag != .void) = (ks.filterMap character?).map character := by
  induction ks with
  | nil => rfl
  | cons k ks ih =>
    rw [List.map_cons, itemOf]
    cases hk : character? k with
    | none =>
      rw [List.filterMap_cons_none hk]
      exact ih
    | some e =>
      rw [List.filterMap_cons_some hk]
      exact congrArg (character e :: ·) ih

/-- Without surrogates every code point is one of a character. -/
theorem map_itemOf {ks : List Int} (h : ∀ k ∈ ks, character? k ≠ none) :
    ks.map itemOf = (ks.filterMap character?).map character := by
  rw [← filter_itemOf, List.filter_eq_self.2]
  intro x hx
  obtain ⟨k, hk, rfl⟩ := List.mem_map.1 hx
  obtain ⟨e, he⟩ := Option.ne_none_iff_exists'.1 (h k hk)
  rw [itemOf, he]
  rfl

theorem nodup_stretch (m n : Int) : (stretch m n).Nodup := by
  refine pairwise_stretch fun i j hij hj heq => ?_
  rcases Int.lt_trichotomy m n with hlt | rfl | hlt
  · rw [Int.sign_eq_one_of_pos (by omega)] at heq
    omega
  · omega
  · rw [Int.sign_eq_neg_one_of_neg (by omega)] at heq
    omega

/-- A stretch that goes past the surrogates has all 2048 of them. -/
theorem length_of_straddles (h : Straddles c d) :
    (stretch c.toNat d.toNat).length = ((stretch c.toNat d.toNat).filterMap character?).length + 2048 := by
  -- what has no character is the stretch of surrogates: neither list repeats a number, and both have the same ones
  have hperm : ((stretch c.toNat d.toNat).filter fun k => character? k = none).Perm (stretch 0xd800 0xdfff) := by
    refine (List.perm_ext_iff_of_nodup ((nodup_stretch ..).filter _) (nodup_stretch ..)).2 fun k => ?_
    rw [List.mem_filter, mem_stretch, mem_stretch, decide_eq_true_iff]
    unfold Straddles at h
    constructor
    · rintro ⟨hk, hnone⟩
      exact .inl ((character?_eq_none_iff hk).1 hnone)
    · intro hk
      have hbetween : Between c.toNat d.toNat k := by
        unfold Between at hk ⊢
        omega
      refine ⟨hbetween, (character?_eq_none_iff hbetween).2 ?_⟩
      unfold Between at hk
      unfold IsSurrogate
      omega
  rw [List.length_eq_countP_add_countP fun k => (character? k).isSome, List.length_filterMap_eq_countP]
  refine congrArg _ ?_
  rw [List.countP_eq_length_filter]
  simpa using hperm.length_eq

/-! ## Ranges of characters -/

theorem lengthOfEnds_characters (c d : Char) :
    lengthOfEnds (.characters, c.toNat, d.toNat) = (stretch c.toNat d.toNat).length ∧
      lengthOfEnds (.characters, c.toNat, d.toNat) ≤ maxRange := by
  have hc := codePoint_cases c
  have hd := codePoint_cases d
  simp only [length_stretch, lengthOfEnds, RangeKind.step, Nat.div_one, wordBound, maxRange]
  omega

theorem Spans.toList_characters (h : v.Spans .characters c.toNat d.toNat) (ctx : Context) (w : World) :
    v.toList ctx w = .value ((stretch c.toNat d.toNat).map itemOf) w := by
  obtain ⟨-, hsmall⟩ := lengthOfEnds_characters c d
  rw [h.toList_of_le hsmall, itemsOfEnds_eq_map (by decide) hsmall]
  exact congrArg (Outcome.value · w) (List.map_congr_left fun k _ => rangeItem_characters k)

theorem character_mem_items : character e ∈ (stretch c.toNat d.toNat).map itemOf ↔ Between c.toNat d.toNat e.toNat := by
  rw [List.mem_map]
  constructor
  · rintro ⟨k, hk, heq⟩
    unfold itemOf at heq
    cases hat : character? k with
    | none =>
      rw [hat] at heq
      cases heq
    | some i =>
      rw [hat] at heq
      have hi : i = e := character_inj.1 heq
      rw [character?_eq_some_iff.1 hat, hi] at hk
      exact mem_stretch.1 hk
  · intro he
    refine ⟨e.toNat, mem_stretch.2 he, ?_⟩
    rw [itemOf, character?_eq_some_iff.2 rfl]
    rfl

/-- **Ranges of characters.** A range of characters lists the characters from one end to the other one in order, and
void in the places of the surrogates between them. It holds the texts of the characters that it lists, and its
negative lists the same the other way around. Its size counts what is listed. So unless there are surrogates
between the ends it is the number of the characters, and if there are, it is greater by their number. -/
theorem character_ranges_expand (hv : v.data = .range a b) (ha : a.data = .string (String.singleton c))
    (hb : b.data = .string (String.singleton d)) (hbudget : 0 < ctx.budget) (w : World) :
    ∃ chars items, AreBetween c d chars ∧
      v.toList ctx w = .value items w ∧ v.size ctx w = .value items.length w ∧
      items.filter (·.tag != .void) = chars.map character ∧
      (¬Straddles c d → items = chars.map character) ∧
      (Straddles c d → items.length = chars.length + 2048) ∧
      (∀ (x : Value) (e : Char), x.data = .string (String.singleton e) →
        ∃ found, v.containsValue x ctx w = .value found w ∧ (found = true ↔ character e ∈ items)) ∧
      ∃ r, v.negate ctx w = .value r w ∧ r.toList ctx w = .value items.reverse w := by
  have hpoint {p : Data} {i : Char} (hp : p = .string (String.singleton i)) : p.IsPoint .characters i.toNat :=
    hp ▸ .character (singleChar?_singleton i)
  have h : v.Spans .characters c.toNat d.toNat := .intro hv (hpoint ha) (hpoint hb)
  refine ⟨_, _, areBetween_stretch c d, h.toList_characters ctx w, ?_, filter_itemOf _, ?_, ?_, ?_, ?_⟩
  · rw [h.size_apply, (lengthOfEnds_characters c d).1, List.length_map]
  · intro hgap
    refine map_itemOf fun k hk hnone => hgap ?_
    rw [mem_stretch] at hk
    obtain ⟨hlow, hhigh⟩ := (character?_eq_none_iff hk).1 hnone
    have hc := codePoint_cases c
    have hd := codePoint_cases d
    unfold Between at hk
    unfold Straddles
    omega
  · intro hgap
    rw [List.length_map]
    exact length_of_straddles hgap
  · intro x e hx
    refine ⟨_, h.containsValue_apply (hpoint hx) hbudget w, ?_⟩
    rw [decide_eq_true_iff, character_mem_items]
  · obtain ⟨r, hrun, hr⟩ := h.negate_spans ctx w
    refine ⟨r, hrun, ?_⟩
    rw [hr.toList_characters, stretch_swap, List.map_reverse]

/-- From one letter to another one there are no surrogates. -/
theorem letters_expand :
    let v := range (character 'q') (character 'e')
    let ctx := Context.ofBudget 1 default
    ¬Straddles 'q' 'e' ∧ ∃ chars, AreBetween 'q' 'e' chars ∧
      v.toList ctx {} = .value (chars.map character) {} ∧ v.size ctx {} = .value chars.length {} := by
  intro v ctx
  have hgap : ¬Straddles 'q' 'e' := by
    unfold Straddles
    decide
  obtain ⟨chars, items, hchars, hlist, hsize, -, hall, -⟩ :=
    character_ranges_expand (v := v) rfl rfl rfl (show 0 < ctx.budget from Nat.one_pos) {}
  obtain rfl := hall hgap
  rw [List.length_map] at hsize
  exact ⟨hgap, chars, hchars, hlist, hsize⟩

/-- The last character before the surrogates and the first one after them have no character between them. Their
range has 2050 elements. -/
theorem surrogates_are_listed :
    let c := Char.ofNat 0xd7ff
    let d := Char.ofNat 0xe000
    let v := range (character c) (character d)
    let ctx := Context.ofBudget 1 default
    AreBetween c d [c, d] ∧ v.size ctx {} = .value 2050 {} ∧
      ¬∃ chars, AreBetween c d chars ∧ v.toList ctx {} = .value (chars.map character) {} := by
  intro c d v ctx
  have h : v.Spans .characters c.toNat d.toNat :=
    .intro rfl (.character (singleChar?_singleton c)) (.character (singleChar?_singleton d))
  have hends : c.toNat = 0xd7ff ∧ d.toNat = 0xe000 := by decide
  refine ⟨⟨fun e => ?_, fun _ => by decide, fun hdc => absurd hdc (by decide)⟩, ?_, ?_⟩
  · have hvalid := codePoint_cases e
    rw [List.mem_cons, List.mem_singleton, ← Char.toNat_inj, ← Char.toNat_inj, hends.1, hends.2]
    unfold Between
    omega
  · rw [h.size_apply, hends.1, hends.2]
    rfl
  · rintro ⟨chars, -, hlist⟩
    have hitems : (stretch c.toNat d.toNat).map itemOf = chars.map character :=
      (Outcome.value.inj ((h.toList_characters ctx {}).symm.trans hlist)).1
    have hvoid : Value.void ∈ chars.map character := by
      have hitem : itemOf 0xd800 = .void := by
        rw [itemOf, show character? 0xd800 = none by decide]
        rfl
      rw [← hitems, ← hitem]
      exact List.mem_map_of_mem (mem_stretch.2 (by decide))
    obtain ⟨e, -, he⟩ := List.mem_map.1 hvoid
    cases congrArg tag he

end Reactor.Value
