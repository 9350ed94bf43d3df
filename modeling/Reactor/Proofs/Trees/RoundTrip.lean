import Reactor.Proofs.Trees.Positions
import Reactor.Value.Equality
import Reactor.Proofs.Calendar.Texts

/-!
# Reading a tree back

* `Eval.Settles` : from some depth on a computation gives a value and leaves the state alone.
* `Value.Mirrors.settles_equalsAt` : values that look alike are equal.
* `Value.Reads` : a tree is read as a value that looks like a given one.
* `Value.Concrete.exists_tree` : a value has a tree, and it is read as a value that looks like it.
* `Value.equals_ofTree_toTree` : the value that is read equals the one that was written.
-/

namespace Reactor

namespace Eval

/-- From some depth on the computation gives a value and leaves the state alone. -/
def Settles {α : Type} (act : Nat → Eval α) (w : World) (a : α) : Prop :=
  ∃ least, ∀ depth, least ≤ depth → ∀ ctx, act depth ctx w = .value a w

variable {α β : Type} {act : Nat → Eval α} {w : World} {a : α}

theorem settles_pure (a : α) (w : World) : Settles (fun _ => pure a) w a :=
  ⟨0, fun _ _ _ => rfl⟩

theorem Settles.bind {f : Nat → α → Eval β} {b : β} (h : Settles act w a)
    (hf : Settles (fun depth => f depth a) w b) :
    Settles (fun depth => act depth >>= f depth) w b := by
  obtain ⟨least, h⟩ := h
  obtain ⟨least', hf⟩ := hf
  refine ⟨max least least', fun depth hdepth ctx => ?_⟩
  show (act depth >>= f depth) ctx w = _
  rw [bind_apply, h depth (by omega) ctx]
  exact hf depth (by omega) ctx

theorem Settles.holding (h : Settles act w a) (places : List Place) :
    Settles (fun depth => Eval.holding places (act depth)) w a := by
  obtain ⟨least, h⟩ := h
  exact ⟨least, fun depth hdepth _ => h depth hdepth _⟩

/-- One level up it takes one level more. -/
theorem Settles.succ {act' : Nat → Eval α} (h : Settles act w a)
    (hsucc : ∀ depth ctx, act' (depth + 1) ctx w = act depth ctx w) : Settles act' w a := by
  obtain ⟨least, h⟩ := h
  refine ⟨least + 1, fun depth hdepth ctx => ?_⟩
  obtain ⟨depth, rfl⟩ : ∃ n, depth = n + 1 := ⟨depth - 1, by omega⟩
  rw [hsucc]
  exact h depth (by omega) ctx

theorem settles_mapM {f : Nat → α → Eval β} {xs : List α} {ys : List β}
    (h : List.Forall₂ (fun x y => Settles (fun depth => f depth x) w y) xs ys) :
    Settles (fun depth => xs.mapM (f depth)) w ys := by
  induction h with
  | nil => exact settles_pure [] w
  | cons h _ ih =>
    simp only [List.mapM_cons]
    exact h.bind (ih.bind (settles_pure _ w))

end Eval

/-- A decimal that is a number equals itself. -/
theorem Number.equals_dec_self {x : Decimal} (h : x.isNotANumber = false) :
    (dec x).equals (dec x) = true := by
  simp [equals, toDecimal, Decimal.equals, h]

namespace Value

open Eval (Settles)

variable {w : World} {v v' : Value}

theorem settles_equalItems {equal : Nat → Value → Value → Eval Bool} {xs ys : List Value}
    (h : List.Forall₂ (fun x y => Settles (fun depth => equal depth x y) w true) xs ys) :
    Settles (fun depth => equalItems (equal depth) xs ys) w true := by
  induction h with
  | nil => exact Eval.settles_pure true w
  | cons h _ ih => exact h.bind ih

theorem settles_equalEntries {equal : Nat → Value → Value → Eval Bool}
    {others xs : Entries String Value}
    (h : ∀ entry ∈ xs, ∃ y, others.get? entry.1 = some y ∧
      Settles (fun depth => equal depth entry.2 y) w true) :
    Settles (fun depth => equalEntries (equal depth) others xs) w true := by
  induction xs with
  | nil => exact Eval.settles_pure true w
  | cons first rest ih =>
    obtain ⟨key, x⟩ := first
    obtain ⟨y, hy, hequal⟩ := h (key, x) List.mem_cons_self
    simp only [equalEntries, hy]
    exact hequal.bind (ih fun entry hentry => h entry (List.mem_cons_of_mem _ hentry))

/-- Lists whose elements at the same places are equal. -/
theorem forall₂_of_parts {R : Value → Value → Prop} {xs ys : List Value}
    (hlength : xs.length = ys.length)
    (h : ∀ (index : Nat) (x y : Value), xs[index]? = some x → ys[index]? = some y → R x y) :
    List.Forall₂ R xs ys := by
  refine List.forall₂_iff_get.2 ⟨hlength, fun i hx hy => h i _ _ ?_ ?_⟩ <;> simp

/-- Values that look alike are equal. -/
theorem Mirrors.settles_equalsAt (h : v.Mirrors w v') :
    Settles (fun depth => equalsAt depth v v') w true := by
  induction h with
  | @intro v v' own parts ih =>
    cases hcopy : sameCopy v v' with
    | true =>
      refine (Eval.settles_pure true w).succ fun depth ctx => ?_
      simp only [equalsAt, hcopy, if_true]
    | false =>
      obtain ⟨data, notes⟩ := v
      obtain ⟨data', notes'⟩ := v'
      simp only [data_mk] at own
      cases own with
      | list h =>
        refine (settles_equalItems (forall₂_of_parts h fun index => ih (.item index))).succ
          fun depth ctx => ?_
        simp [equalsAt, hcopy, onAttempt, lambda?, items?, h]
      | sequence h =>
        refine (settles_equalItems (forall₂_of_parts h fun index => ih (.item index))).succ
          fun depth ctx => ?_
        simp [equalsAt, hcopy, onAttempt, lambda?, items?, h]
      | @queue p q hp hq h =>
        by_cases hpq : p = q
        · refine (Eval.settles_pure true w).succ fun depth ctx => ?_
          simp [equalsAt, onAttempt, lambda?, hpq]
        · refine ((settles_equalItems (forall₂_of_parts h fun index => ih (.item index))).holding
            (itemsPlacesBefore (w.queueAt p).items (itemsPlaces (w.queueAt q).items))).succ
              fun depth ctx => ?_
          simp [equalsAt, hcopy, onAttempt, lambda?, hpq, h]
      | @map xs ys hnodup hperm =>
        have hlength : xs.length = ys.length := by
          simpa [Entries.keys] using hperm.length_eq.symm
        have hentries : Settles (fun depth => equalEntries (equalsAt depth) ys xs) w true :=
          settles_equalEntries fun entry hentry => by
            have hkey : entry.1 ∈ ys.keys := hperm.mem_iff.2 (List.mem_map_of_mem hentry)
            obtain ⟨y, hy⟩ := Option.isSome_iff_exists.1 (Entries.mem_keys_iff.1 hkey)
            exact ⟨y, hy, ih (.entry entry.1) _ _ (Entries.get?_of_mem hnodup hentry) hy⟩
        refine hentries.succ fun depth ctx => ?_
        simp [equalsAt, hcopy, onAttempt, lambda?, hlength]
      | range p q r s =>
        have hstart : Settles (fun depth => equalsAt depth p r) w true := ih .start p r rfl rfl
        have hstop : Settles (fun depth => equalsAt depth q s) w true := ih .stop q s rfl rfl
        refine (hstart.bind (f := fun depth equal =>
          if equal then equalsAt depth q s else pure false) hstop).succ fun depth ctx => ?_
        simp [equalsAt, hcopy, onAttempt, lambda?]
      | decimal h =>
        refine (Eval.settles_pure true w).succ fun depth ctx => ?_
        simp [equalsAt, hcopy, onAttempt, lambda?, items?, equalLeaves, Number.of?,
          Number.equals_dec_self h]
      | uri h =>
        refine (Eval.settles_pure true w).succ fun depth ctx => ?_
        simp [equalsAt, hcopy, onAttempt, lambda?, items?, equalLeaves, h]
      | error hkind hmessage =>
        refine (Eval.settles_pure true w).succ fun depth ctx => ?_
        simp [equalsAt, hcopy, onAttempt, lambda?, items?, equalLeaves, hkind, hmessage]
      | _ =>
        refine (Eval.settles_pure true w).succ fun depth ctx => ?_
        simp [equalsAt, hcopy, onAttempt, lambda?, items?, equalLeaves, Number.of?, Number.equals,
          Data.isScalar]

end Value

/-! ## Texts that read back -/

theorem ValueType.parse_name (ty : ValueType) : ValueType.parse ty.name = .ok ty := by
  cases ty <;> rfl

namespace Decimal

variable {x : Decimal}

/-- The bits of an infinite decimal. -/
theorem eq_infinity_of_shape {negative : Bool} (h : x.shape = .infinite negative) :
    x = infinity (!negative) := by
  obtain ⟨bits⟩ := x
  have hbits := bits.toNat_lt
  simp only [shape, twoTo, beq_iff_eq, Nat.pow_eq] at h
  split at h
  · rename_i hexponent
    split at h
    · rename_i hfraction
      simp only [Shape.infinite.injEq, isSigned, int64Bound] at h
      cases negative with
      | true =>
        have hsigned := of_decide_eq_true h
        have hvalue : bits.toNat = 0xfff0000000000000 := by omega
        exact congrArg Decimal.mk (UInt64.toNat_inj.1 hvalue)
      | false =>
        have hunsigned := of_decide_eq_false h
        have hvalue : bits.toNat = 0x7ff0000000000000 := by omega
        exact congrArg Decimal.mk (UInt64.toNat_inj.1 hvalue)
    · cases h
  · split at h <;> cases h

/-- The text of an infinite decimal reads back. -/
theorem parse?_bare (h : x.isNotANumber = false) (hfinite : x.isFinite = false) :
    parse? (bare x) = some x := by
  unfold isNotANumber at h
  unfold isFinite at hfinite
  cases hshape : x.shape with
  | notANumber => simp [hshape] at h
  | finite => simp [hshape] at hfinite
  | infinite negative =>
    rw [bare, hshape, eq_infinity_of_shape hshape]
    cases negative <;> rfl

end Decimal

namespace Value

open Eval (Settles)

variable {w u : World} {v v' : Value} {json : Json}

-- what is written and what is read is computed, one constructor at a time
attribute [local simp] toTreeAt onForced lambda?
attribute [local simp] ofTree ofTrees ofMembers ofTaggedLeaf? member textMember

/-! ## Objects of a named type -/

/-- An object of a named type has its members, in some order. -/
theorem exists_tagged (name : String) {members : List (String × Json)}
    (h : (typeKey :: Entries.keys members).Nodup) :
    ∃ all, tagged name members = .object all ∧ Entries.get? all typeKey = some (.string name) ∧
      ∀ key, typeKey ≠ key → Entries.get? all key = Entries.get? members key := by
  have hnodup : (Entries.keys ((typeKey, Json.string name) :: members)).Nodup := h
  obtain ⟨all, hall, hperm⟩ := Json.holds_ofMembers hnodup
  have hget := Entries.get?_perm hnodup hperm
  refine ⟨all, hall, by simp [hget, Entries.get?], fun key hkey => ?_⟩
  rw [hget, Entries.get?, if_neg hkey]

/-- What is read from an object whose type needs no other tree. -/
theorem ofTree_tagged (name : String) (members : List (String × Json)) {leaf : Value}
    (h : (typeKey :: Entries.keys members).Nodup)
    (hleaf : ∀ all, (∀ key, typeKey ≠ key → Entries.get? all key = Entries.get? members key) →
      ofTaggedLeaf? name all = some (.ok leaf)) :
    ofTree (tagged name members) = pure leaf := by
  obtain ⟨all, htagged, htype, hget⟩ := exists_tagged name h
  simp only [htagged, ofTree, htype, hleaf all hget, Eval.ofExcept_ok]

section

variable {all : List (String × Json)} {key : String}

theorem member_eq (name : String) (h : Entries.get? all key = some json) :
    member all name key = .ok json := by
  simp only [member, h]

theorem textMember_eq {s : String} (name : String) (h : Entries.get? all key = some (.string s)) :
    textMember all name key = .ok s := by
  rw [textMember, member_eq name h]
  rfl

theorem ofTree_sequence (htype : Entries.get? all typeKey = some (.string "Sequence")) :
    ofTree (.object all) = (do return .sequence (← ofValues "Sequence" all all)) := by
  rw [ofTree]
  simp only [htype]
  rfl

theorem ofTree_queue (htype : Entries.get? all typeKey = some (.string "Queue")) :
    ofTree (.object all) = (do
      let items ← ofValues "Queue" all all
      return .queue (← Eval.newQueue items)) := by
  rw [ofTree]
  simp only [htype]
  rfl

theorem ofTree_range (htype : Entries.get? all typeKey = some (.string "Range")) :
    ofTree (.object all) = (do
      let start ← ofMember "Range" "from" all all
      let stop ← ofMember "Range" "to" all all
      return .range start stop) := by
  rw [ofTree]
  simp only [htype]
  rfl

theorem ofTree_map (htype : Entries.get? all typeKey = some (.string "Map")) :
    ofTree (.object all) = ofEntries all all := by
  rw [ofTree]
  simp only [htype]
  rfl

end

/-! ## Reading -/

/-- The tree is read as a value that looks like the given one, also after queues have come to the
state. To read it adds queues and changes nothing else. -/
def Reads (w : World) (json : Json) (v : Value) : Prop :=
  ∀ u, w.Grows u → ∃ v' u',
    (∀ ctx, ofTree json ctx u = .value v' u') ∧ u.Grows u' ∧ v.Mirrors u' v'

/-- Values whose elements look alike and that have no other parts. -/
theorem Mirrors.ofItems (own : v.data.Agrees w v'.data)
    (hitems : List.Forall₂ (Mirrors w) (v.itemsIn w) (v'.itemsIn w)) (hentries : v.entries = [])
    (hends : v.ends? = none) : v.Mirrors w v' := by
  refine .intro own fun part x x' hx hx' => ?_
  cases part with
  | item index =>
    obtain ⟨hlt, rfl⟩ := List.getElem?_eq_some_iff.1 hx
    obtain ⟨hlt', rfl⟩ := List.getElem?_eq_some_iff.1 hx'
    exact (List.forall₂_iff_get.1 hitems).2 index hlt hlt'
  | entry key => simp [part?, hentries, Entries.get?] at hx
  | start => simp [part?, hends] at hx
  | stop => simp [part?, hends] at hx

theorem exists_ofTrees {items : List Value} {jsons : List Json}
    (h : List.Forall₂ (fun x json => Reads w json x) items jsons) (hgrows : w.Grows u) :
    ∃ items' u', (∀ ctx, ofTrees jsons ctx u = .value items' u') ∧ u.Grows u' ∧
      List.Forall₂ (Mirrors u') items items' := by
  induction h generalizing u with
  | nil => exact ⟨[], u, fun ctx => by rw [ofTrees]; rfl, .refl u, .nil⟩
  | cons h _ ih =>
    obtain ⟨x', u', hx', hgrows', hmirrors⟩ := h u hgrows
    obtain ⟨items', u'', hitems', hgrows'', hall⟩ := ih (hgrows.trans hgrows')
    refine ⟨x' :: items', u'', fun ctx => ?_, hgrows'.trans hgrows'',
      .cons (hmirrors.grow hgrows'') hall⟩
    rw [ofTrees]
    simp only [Eval.bind_apply, hx', hitems', Outcome.bind_value, Eval.pure_apply]

theorem exists_ofMembers {entries : Entries String Value} {members : List (String × Json)}
    (h : ∀ member ∈ members, ∃ x, entries.get? member.1 = some x ∧ Reads w member.2 x)
    (hgrows : w.Grows u) :
    ∃ entries' u', (∀ ctx, ofMembers members ctx u = .value entries' u') ∧ u.Grows u' ∧
      Entries.keys entries' = Entries.keys members ∧
        ∀ entry ∈ entries', ∃ x, entries.get? entry.1 = some x ∧ x.Mirrors u' entry.2 := by
  induction members generalizing u with
  | nil =>
    exact ⟨[], u, fun ctx => by rw [ofMembers]; rfl, .refl u, rfl,
      fun _ h => (List.not_mem_nil h).elim⟩
  | cons first rest ih =>
    obtain ⟨key, json⟩ := first
    obtain ⟨x, hget, hreads⟩ := h (key, json) List.mem_cons_self
    obtain ⟨x', u', hx', hgrows', hmirrors⟩ := hreads u hgrows
    obtain ⟨entries', u'', hentries', hgrows'', hkeys, hall⟩ :=
      ih (fun member hmember => h member (List.mem_cons_of_mem _ hmember)) (hgrows.trans hgrows')
    refine ⟨(key, x') :: entries', u'', fun ctx => ?_, hgrows'.trans hgrows'',
      congrArg (key :: ·) hkeys, List.forall_mem_cons.2 ⟨⟨x, hget, hmirrors.grow hgrows''⟩, hall⟩⟩
    rw [ofMembers]
    simp only [Eval.bind_apply, hx', hentries', Outcome.bind_value, Eval.pure_apply]

theorem reads_list {items : List Value} {jsons : List Json} {notes : Notes}
    (h : List.Forall₂ (fun x json => Reads w json x) items jsons) :
    Reads w (.array jsons) (mk (.list items) notes) := by
  intro u hgrows
  obtain ⟨items', u', hread, hgrows', hall⟩ := exists_ofTrees h hgrows
  refine ⟨.list items', u', fun ctx => ?_, hgrows', .ofItems (.list hall.length_eq) hall rfl rfl⟩
  rw [ofTree]
  simp only [Eval.bind_apply, hread, Outcome.bind_value, Eval.pure_apply]

theorem reads_sequence {items : List Value} {jsons : List Json} {notes : Notes}
    (h : List.Forall₂ (fun x json => Reads w json x) items jsons) :
    Reads w (tagged "Sequence" [("values", .array jsons)]) (mk (.sequence items) notes) := by
  intro u hgrows
  obtain ⟨items', u', hread, hgrows', hall⟩ := exists_ofTrees h hgrows
  obtain ⟨all, htagged, htype, hget⟩ := exists_tagged "Sequence"
    (show (typeKey :: Entries.keys [("values", Json.array jsons)]).Nodup from
      (by decide : [typeKey, "values"].Nodup))
  refine ⟨.sequence items', u', fun ctx => ?_, hgrows',
    .ofItems (.sequence hall.length_eq) hall rfl rfl⟩
  have hvalues : Entries.get? all "values" = some (.array jsons) := hget "values" (by decide)
  rw [htagged, ofTree_sequence htype, ofValues_eq all hvalues]
  simp only [Eval.bind_apply, hread, Outcome.bind_value, Eval.pure_apply]

/-- A queue that comes to the state is the last one. -/
theorem newQueue_apply {items : List Value} (h : anyNeedsMark items = false) (ctx : Context)
    (u : World) :
    Eval.newQueue items ctx u =
      .value ⟨u.queues.size⟩ { u with queues := u.queues.push { items } } := by
  simp [Eval.newQueue, shareAll_of_anyNeedsMark_eq_false h]

theorem reads_queue {id : QueueId} {jsons : List Json} {notes : Notes}
    (hid : id.index < w.queues.size)
    (h : List.Forall₂ (fun x json => Reads w json x) (w.queueAt id).items jsons) :
    Reads w (tagged "Queue" [("values", .array jsons)]) (mk (.queue id) notes) := by
  intro u hgrows
  obtain ⟨items', u', hread, hgrows', hall⟩ := exists_ofTrees h hgrows
  obtain ⟨all, htagged, htype, hget⟩ := exists_tagged "Queue"
    (show (typeKey :: Entries.keys [("values", Json.array jsons)]).Nodup from
      (by decide : [typeKey, "values"].Nodup))
  have hneeds : anyNeedsMark items' = false := by
    refine anyNeedsMark_eq_false fun x' hx' => ?_
    obtain ⟨index, hlt, rfl⟩ := List.getElem_of_mem hx'
    have hlength := hall.length_eq
    exact ((List.forall₂_iff_get.1 hall).2 index (by omega) hlt).needsMark_right
  have hpush := World.Grows.push u' { items := items' }
  have hvalues : Entries.get? all "values" = some (.array jsons) := hget "values" (by decide)
  have hold : ({ u' with queues := u'.queues.push { items := items' } } : World).queueAt id =
      w.queueAt id := (hgrows.trans (hgrows'.trans hpush)).queueAt hid
  have hnew : ({ u' with queues := u'.queues.push { items := items' } } : World).queueAt
      ⟨u'.queues.size⟩ = { items := items' } := by
    simp [World.queueAt]
  refine ⟨.queue ⟨u'.queues.size⟩, _, fun ctx => ?_, hgrows'.trans hpush, .ofItems ?_ ?_ rfl rfl⟩
  · rw [htagged, ofTree_queue htype, ofValues_eq all hvalues]
    simp only [Eval.bind_apply, hread, Outcome.bind_value, newQueue_apply hneeds, Eval.pure_apply]
  · refine .queue (Nat.lt_of_lt_of_le hid (hgrows.trans (hgrows'.trans hpush)).size_le) (by simp) ?_
    rw [hold, hnew]
    exact hall.length_eq
  · show List.Forall₂ _ (World.queueAt _ id).items (World.queueAt _ ⟨u'.queues.size⟩).items
    rw [hold, hnew]
    exact hall.imp fun _ _ h => h.grow hpush

theorem reads_range {start stop : Value} {first last : Json} {notes : Notes}
    (hstart : Reads w first start) (hstop : Reads w last stop) :
    Reads w (tagged "Range" [("from", first), ("to", last)]) (mk (.range start stop) notes) := by
  intro u hgrows
  obtain ⟨start', u', hread, hgrows', hmirrors⟩ := hstart u hgrows
  obtain ⟨stop', u'', hread', hgrows'', hmirrors'⟩ := hstop u' (hgrows.trans hgrows')
  obtain ⟨all, htagged, htype, hget⟩ := exists_tagged "Range"
    (show (typeKey :: Entries.keys [("from", first), ("to", last)]).Nodup from
      (by decide : [typeKey, "from", "to"].Nodup))
  have hfrom : Entries.get? all "from" = some first := hget "from" (by decide)
  have hto : Entries.get? all "to" = some last := hget "to" (by decide)
  refine ⟨.range start' stop', u'', fun ctx => ?_, hgrows'.trans hgrows'',
    .intro (.range ..) fun part x x' hx hx' => ?_⟩
  · rw [htagged, ofTree_range htype, ofMember_eq all hfrom, ofMember_eq all hto]
    simp only [Eval.bind_apply, hread, hread', Outcome.bind_value, Eval.pure_apply]
  · cases part with
    | start => cases hx; cases hx'; exact hmirrors.grow hgrows''
    | stop => cases hx; cases hx'; exact hmirrors'
    | item index => cases hx
    | entry key => cases hx

theorem keys_eq_of_forall₂ {R : String × Value → String × Json → Prop}
    {entries : Entries String Value} {members : List (String × Json)}
    (h : List.Forall₂ (fun entry member => entry.1 = member.1 ∧ R entry member) entries members) :
    entries.keys = Entries.keys members := by
  induction h with
  | nil => rfl
  | cons h _ ih => exact congrArg₂ List.cons h.1 ih

/-- What is read from the members of a map, in some order. -/
theorem exists_map {entries : Entries String Value} {members sorted : List (String × Json)}
    (notes : Notes) (hnodup : entries.keys.Nodup)
    (h : List.Forall₂ (fun entry member => entry.1 = member.1 ∧ Reads w member.2 entry.2)
      entries members) (hperm : sorted.Perm members) (hgrows : w.Grows u) :
    ∃ v' u', (∀ ctx, (do return .map (← ofMembers sorted) : Eval Value) ctx u = .value v' u') ∧
      u.Grows u' ∧ (mk (.map entries) notes).Mirrors u' v' := by
  have hkeys := keys_eq_of_forall₂ h
  have hmembers (member : String × Json) (hmember : member ∈ sorted) :
      ∃ x, entries.get? member.1 = some x ∧ Reads w member.2 x := by
    obtain ⟨index, hlt, rfl⟩ := List.getElem_of_mem (hperm.mem_iff.1 hmember)
    have hlength := h.length_eq
    obtain ⟨hkey, hreads⟩ := (List.forall₂_iff_get.1 h).2 index (by omega) hlt
    refine ⟨_, ?_, hreads⟩
    rw [show members[index].1 = _ from hkey.symm]
    exact Entries.get?_of_mem hnodup (List.getElem_mem _)
  obtain ⟨entries', u', hread, hgrows', hkeys', hall⟩ := exists_ofMembers hmembers hgrows
  have hperm' : (Entries.keys entries').Perm entries.keys := by
    rw [hkeys, hkeys']
    exact hperm.map Prod.fst
  refine ⟨.map entries', u', fun ctx => ?_, hgrows',
    .intro (.map hnodup hperm') fun part x x' hx hx' => ?_⟩
  · simp only [Eval.bind_apply, hread, Outcome.bind_value, Eval.pure_apply]
  · cases part with
    | entry key =>
      obtain ⟨y, hy, hmirrors⟩ := hall (key, x') (Entries.mem_of_get?_eq_some hx')
      cases (show some x = some y from hx.symm.trans hy)
      exact hmirrors
    | item index => cases hx
    | start => cases hx
    | stop => cases hx

theorem reads_map {entries : Entries String Value} {members : List (String × Json)} {notes : Notes}
    (hnodup : entries.keys.Nodup)
    (h : List.Forall₂ (fun entry member => entry.1 = member.1 ∧ Reads w member.2 entry.2)
      entries members) :
    Reads w (if entries.contains typeKey then tagged "Map" [("entries", Json.ofMembers members)]
      else Json.ofMembers members) (mk (.map entries) notes) := by
  have hkeys := keys_eq_of_forall₂ h
  intro u hgrows
  obtain ⟨sorted, hsorted, hperm⟩ := Json.holds_ofMembers (hkeys ▸ hnodup)
  obtain ⟨v', u', hread, hgrows', hmirrors⟩ := exists_map notes hnodup h hperm hgrows
  refine ⟨v', u', fun ctx => ?_, hgrows', hmirrors⟩
  split
  · obtain ⟨all, htagged, htype, hget⟩ := exists_tagged "Map"
      (show (typeKey :: Entries.keys [("entries", Json.ofMembers members)]).Nodup from
        (by decide : [typeKey, "entries"].Nodup))
    have hentries : Entries.get? all "entries" = some (.object sorted) :=
      (hget "entries" (by decide)).trans (by rw [hsorted]; rfl)
    rw [htagged, ofTree_map htype, ofEntries_eq all hentries]
    exact hread ctx
  · rename_i hcontains
    have hnone : Entries.get? sorted typeKey = none := by
      have hperm' : (Entries.keys sorted).Perm entries.keys := hkeys ▸ hperm.map Prod.fst
      rw [← Option.not_isSome_iff_eq_none, ← Entries.mem_keys_iff, hperm'.mem_iff]
      exact fun hmem => hcontains (Entries.mem_keys_iff.1 hmem)
    rw [hsorted, ofTree]
    simp only [hnone]
    exact hread ctx

/-! ## Writing -/

theorem exists_forall₂ {α β : Type} {R : α → β → Prop} {xs : List α} (h : ∀ x ∈ xs, ∃ y, R x y) :
    ∃ ys, List.Forall₂ R xs ys := by
  induction xs with
  | nil => exact ⟨[], .nil⟩
  | cons x xs ih =>
    obtain ⟨y, hy⟩ := h x List.mem_cons_self
    obtain ⟨ys, hys⟩ := ih fun x hx => h x (List.mem_cons_of_mem _ hx)
    exact ⟨y :: ys, .cons hy hys⟩

/-- What is to be shown of a value: it has a tree, and the tree is read as a value that looks like
it. -/
def HasTree (w : World) (v : Value) : Prop :=
  ∃ json, Settles (fun depth => toTreeAt depth v) w json ∧ Reads w json v

theorem hasTree_of_leaf (v' : Value) (hleaf : v.data.IsLeaf)
    (hwrite : ∀ depth, toTreeAt (depth + 1) v = pure json) (hread : ofTree json = pure v')
    (own : ∀ u, v.data.Agrees u v'.data) : HasTree w v := by
  refine ⟨json, (Eval.settles_pure json w).succ fun depth ctx => by rw [hwrite], fun u _ =>
    ⟨v', u, fun ctx => by rw [hread]; rfl, .refl u, .intro (own u) fun part x x' hx _ => ?_⟩⟩
  rw [part?_of_isLeaf hleaf] at hx
  cases hx

section

variable {notes : Notes}

theorem hasTree_void : HasTree w (mk .void notes) := by
  refine hasTree_of_leaf .void trivial (fun depth => ?_)
    (ofTree_tagged "Void" [] (by decide) fun all _ => rfl) fun _ => .void
  simp

theorem hasTree_null (of : Option ValueType) : HasTree w (mk (.null of) notes) := by
  cases of with
  | none =>
    have hread : ofTree .null = pure .null := by simp
    refine hasTree_of_leaf _ trivial (fun depth => ?_) hread fun _ => .null none
    simp
  | some ty =>
    refine hasTree_of_leaf (.typedNull ty) trivial (fun depth => ?_)
      (ofTree_tagged "Null" [("of", .string ty.name)]
        (by decide : [typeKey, "of"].Nodup) fun all hget => ?_) fun _ => .null (some ty)
    · simp
    · have hof := textMember_eq "Null" (hget "of" (by decide))
      simp only [ofTaggedLeaf?, hof, ValueType.parse_name, bind, Except.bind, pure, Except.pure]

theorem hasTree_decimal {x : Decimal} (h : x.isNotANumber = false) :
    HasTree w (mk (.decimal x) notes) := by
  cases hfinite : x.isFinite with
  | true =>
    have hread : ofTree (.decimal x) = pure (.decimal x) := by simp
    refine hasTree_of_leaf _ trivial (fun depth => ?_) hread fun _ => .decimal h
    simp [hfinite]
  | false =>
    refine hasTree_of_leaf (.decimal x) trivial (fun depth => ?_)
      (ofTree_tagged "Decimal" [("value", .string (Decimal.bare x))]
        (by decide : [typeKey, "value"].Nodup) fun all hget => ?_) fun _ => .decimal h
    · simp [hfinite]
    · have hvalue := textMember_eq "Decimal" (hget "value" (by decide))
      simp only [ofTaggedLeaf?, hvalue, Decimal.parse?_bare h hfinite, bind, Except.bind, pure,
        Except.pure]

theorem hasTree_date {millis : Int64} (h : 0 ≤ Calendar.yearAt millis.toInt)
    (h' : Calendar.yearAt millis.toInt ≤ Calendar.maxYear) :
    HasTree w (mk (.date millis) notes) := by
  refine hasTree_of_leaf (.date millis) trivial (fun depth => ?_)
    (ofTree_tagged "Date" [("value", .string (Calendar.format millis.toInt))]
      (by decide : [typeKey, "value"].Nodup) fun all hget => ?_) fun _ => .date millis
  · simp
  · have hvalue := textMember_eq "Date" (hget "value" (by decide))
    simp only [ofTaggedLeaf?, hvalue, Calendar.parse?_format h h', Int64.ofInt_toInt, bind,
      Except.bind, pure, Except.pure]

theorem hasTree_infinity (positive : Bool) : HasTree w (mk (.infinity positive) notes) := by
  refine hasTree_of_leaf (.infinity positive) trivial (fun depth => ?_)
    (ofTree_tagged "Infinity" [("positive", .boolean positive)]
      (by decide : [typeKey, "positive"].Nodup) fun all hget => ?_) fun _ => .infinity positive
  · simp
  · have hpositive := member_eq "Infinity" (hget "positive" (by decide))
    simp only [ofTaggedLeaf?, hpositive, bind, Except.bind, pure, Except.pure]

theorem hasTree_uri (uri : Uri) : HasTree w (mk (.uri uri) notes) := by
  refine hasTree_of_leaf (.uri { text := uri.text }) trivial (fun depth => ?_)
    (ofTree_tagged "URI" [("value", .string uri.text)]
      (by decide : [typeKey, "value"].Nodup) fun all hget => ?_) fun _ => .uri rfl
  · simp
  · have hvalue := textMember_eq "URI" (hget "value" (by decide))
    simp only [ofTaggedLeaf?, hvalue, bind, Except.bind, pure, Except.pure]

theorem hasTree_error (e : Error) : HasTree w (mk (.error e) notes) := by
  refine hasTree_of_leaf (.failure (.new e.kind e.message)) trivial (fun depth => ?_)
    (ofTree_tagged "Error"
      [("errorType", .string e.kind.name), ("errorMessage", .string e.message)]
      (by decide : [typeKey, "errorType", "errorMessage"].Nodup) fun all hget => ?_)
    fun _ => .error rfl rfl
  · simp
  · have hkind := textMember_eq "Error" (hget "errorType" (by decide))
    have hmessage := textMember_eq "Error" (hget "errorMessage" (by decide))
    simp only [ofTaggedLeaf?, hkind, hmessage, ErrorKind.ofName?_name, Option.getD_some, bind,
      Except.bind, pure, Except.pure]

/-- A list whose elements have trees. -/
theorem exists_trees {xs : List Value} (h : ∀ x ∈ xs, HasTree w x) :
    ∃ jsons, Settles (fun depth => xs.mapM (toTreeAt depth)) w jsons ∧
      List.Forall₂ (fun x json => Reads w json x) xs jsons := by
  obtain ⟨jsons, hjsons⟩ := exists_forall₂ h
  exact ⟨jsons, Eval.settles_mapM (hjsons.imp fun _ _ h => h.1), hjsons.imp fun _ _ h => h.2⟩

end

/-- A map whose values have trees. -/
theorem exists_members {entries : Entries String Value} (h : ∀ entry ∈ entries, HasTree w entry.2) :
    ∃ members, Settles (fun depth => entries.mapM fun entry => do
        return (entry.1, ← toTreeAt depth entry.2)) w members ∧
      List.Forall₂ (fun entry member => entry.1 = member.1 ∧ Reads w member.2 entry.2)
        entries members := by
  have hmember (entry : String × Value) (hentry : entry ∈ entries) :
      ∃ member : String × Json, Settles (fun depth => do
        return (entry.1, ← toTreeAt depth entry.2)) w member ∧
          entry.1 = member.1 ∧ Reads w member.2 entry.2 := by
    obtain ⟨json, hwrite, hread⟩ := h entry hentry
    exact ⟨(entry.1, json), hwrite.bind (Eval.settles_pure _ w), rfl, hread⟩
  obtain ⟨members, hmembers⟩ := exists_forall₂ hmember
  exact ⟨members, Eval.settles_mapM (hmembers.imp fun _ _ h => h.1),
    hmembers.imp fun _ _ h => h.2⟩

/-- A value has a tree, and the tree is read as a value that looks like it. -/
theorem Concrete.hasTree (h : v.Concrete w) : HasTree w v := by
  induction h with
  | @intro v own parts ih =>
    have hitems : ∀ x ∈ v.itemsIn w, HasTree w x := fun x hx => by
      obtain ⟨index, hindex⟩ := List.mem_iff_getElem?.1 hx
      exact ih (.item index) x hindex
    obtain ⟨data, notes⟩ := v
    rw [data_mk] at own
    cases data with
    | void => exact hasTree_void
    | null of => exact hasTree_null of
    | boolean b =>
      have hread : ofTree (.boolean b) = pure (.boolean b) := by simp
      exact hasTree_of_leaf _ trivial (fun depth => by simp) hread
        fun _ => .boolean b
    | integer n =>
      have hread : ofTree (.integer n) = pure (.integer n) := by simp
      exact hasTree_of_leaf _ trivial (fun depth => by simp) hread
        fun _ => .integer n
    | decimal x => exact hasTree_decimal own
    | string s =>
      have hread : ofTree (.string s) = pure (.string s) := by simp
      exact hasTree_of_leaf _ trivial (fun depth => by simp) hread
        fun _ => .string s
    | date millis => exact hasTree_date own.1 own.2
    | infinity positive => exact hasTree_infinity positive
    | list items =>
      obtain ⟨jsons, hwrite, hread⟩ := exists_trees (show ∀ x ∈ items, HasTree w x from hitems)
      refine ⟨.array jsons, (hwrite.bind (f := fun _ jsons => pure (.array jsons))
        (Eval.settles_pure _ w)).succ fun depth ctx => ?_, reads_list hread⟩
      simp only [toTreeAt, onForced, lambda?, data_mk]
    | sequence items =>
      obtain ⟨jsons, hwrite, hread⟩ := exists_trees (show ∀ x ∈ items, HasTree w x from hitems)
      refine ⟨_, (hwrite.bind (f := fun _ jsons =>
        pure (tagged "Sequence" [("values", .array jsons)])) (Eval.settles_pure _ w)).succ fun depth ctx => ?_, reads_sequence hread⟩
      simp only [toTreeAt, onForced, lambda?, data_mk]
    | queue id =>
      obtain ⟨jsons, hwrite, hread⟩ := exists_trees hitems
      refine ⟨_, ((hwrite.bind (f := fun _ jsons =>
        pure (tagged "Queue" [("values", .array jsons)])) (Eval.settles_pure _ w)).holding (itemsPlaces (w.queueAt id).items)).succ
          fun depth ctx => ?_, reads_queue own hread⟩
      simp only [toTreeAt, onForced, lambda?, data_mk, Eval.bind_apply, Eval.gets_apply,
        Outcome.bind_value]
      rfl
    | map entries =>
      have hentries (entry : String × Value) (hentry : entry ∈ entries) : HasTree w entry.2 :=
        ih (.entry entry.1) entry.2 (Entries.get?_of_mem own hentry)
      obtain ⟨members, hwrite, hread⟩ := exists_members hentries
      refine ⟨_, (hwrite.bind (f := fun _ members =>
        if Entries.contains entries typeKey then
          pure (tagged "Map" [("entries", Json.ofMembers members)])
        else pure (Json.ofMembers members)) ?_).succ fun depth ctx => ?_, reads_map own hread⟩
      · split
        · exact Eval.settles_pure _ w
        · exact Eval.settles_pure _ w
      · simp only [toTreeAt, onForced, lambda?, data_mk]
    | range start stop =>
      obtain ⟨first, hfirst, hstart⟩ := ih .start start rfl
      obtain ⟨last, hlast, hstop⟩ := ih .stop stop rfl
      refine ⟨_, (hfirst.bind (f := fun depth first => do
        let last ← toTreeAt depth stop
        return tagged "Range" [("from", first), ("to", last)])
          (hlast.bind (Eval.settles_pure _ w))).succ fun depth ctx => ?_,
        reads_range hstart hstop⟩
      simp only [toTreeAt, onForced, lambda?, data_mk]
    | uri uri => exact hasTree_uri uri
    | error e => exact hasTree_error e
    | lambda id => exact own.elim

/-- **Trees round trip.** A value without lambdas, whose decimals are numbers, whose dates fall in
years that a text may name and whose queues do not hold themselves, has a tree. The tree is read as
a value that equals it and that has, behind every path, the same type, the same type of what is
absent and the same keys. To read it adds queues to the state and changes nothing else. -/
theorem equals_ofTree_toTree {w : World} {v : Value} (h : v.Concrete w) :
    ∃ json v' w' depth,
      (∀ ctx : Context, depth ≤ ctx.budget → v.toTree ctx w = .value json w) ∧
      (∀ ctx : Context, ofTree json ctx w = .value v' w') ∧ w.Grows w' ∧
      (∀ ctx : Context, depth ≤ ctx.budget →
        v.equals v' ctx w' = .value true w' ∧ v'.equals v ctx w' = .value true w') ∧
      ∀ path, (v'.at? w' path).map label = (v.at? w path).map label := by
  obtain ⟨json, ⟨depth, hwrite⟩, hread⟩ := h.hasTree
  obtain ⟨v', w', hread, hgrows, hmirrors⟩ := hread w (.refl w)
  obtain ⟨depth', hequal⟩ := hmirrors.settles_equalsAt
  obtain ⟨depth'', hequal'⟩ := hmirrors.symm.settles_equalsAt
  refine ⟨json, v', w', max depth (max depth' depth''), fun ctx hctx => ?_, hread, hgrows,
    fun ctx hctx => ⟨?_, ?_⟩, fun path => ?_⟩
  · exact hwrite ctx.budget (by omega) ctx
  · exact hequal ctx.budget (by omega) ctx
  · exact hequal' ctx.budget (by omega) ctx
  · rw [hmirrors.label_at? path, h.at?_grow hgrows path]

/-- A map that has the key of the type itself, under which there is a queue of a typed null, reads
back. -/
theorem typeKey_in_map_reads_back :
    let w : World := { queues := #[{ items := [.typedNull .date] }] }
    let v : Value := .map [(typeKey, .queue ⟨0⟩), ("rest", .sequence [.decimal (.infinity true)])]
    v.Concrete w ∧ ∃ json v' w' depth,
      (∀ ctx : Context, depth ≤ ctx.budget → v.toTree ctx w = .value json w) ∧
      (∀ ctx : Context, ofTree json ctx w = .value v' w') ∧ w.Grows w' ∧
      (∀ ctx : Context, depth ≤ ctx.budget →
        v.equals v' ctx w' = .value true w' ∧ v'.equals v ctx w' = .value true w') ∧
      ∀ path, (v'.at? w' path).map label = (v.at? w path).map label := by
  intro w v
  have hnull : (typedNull .date).Concrete w := .ofLeaf trivial trivial
  have hqueue : (queue ⟨0⟩).Concrete w :=
    .of Nat.zero_lt_one (List.forall_mem_singleton.2 hnull) (fun _ h => (List.not_mem_nil h).elim)
      fun _ h => by cases h
  have hdecimal : (decimal (.infinity true)).Concrete w :=
    .ofLeaf (show Decimal.isNotANumber (.infinity true) = false by decide) trivial
  have hsequence : (sequence [decimal (.infinity true)]).Concrete w :=
    .of trivial (List.forall_mem_singleton.2 hdecimal) (fun _ h => (List.not_mem_nil h).elim)
      fun _ h => by cases h
  have hkeys : [typeKey, "rest"].Nodup := by decide
  have h : v.Concrete w := by
    refine .of hkeys (fun _ h => (List.not_mem_nil h).elim) ?_ fun _ h => by cases h
    exact List.forall_mem_cons.2 ⟨hqueue, List.forall_mem_singleton.2 hsequence⟩
  exact ⟨h, equals_ofTree_toTree h⟩

end Value

end Reactor
