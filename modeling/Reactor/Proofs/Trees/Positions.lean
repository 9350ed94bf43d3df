import Reactor.Value.Tree
import Mathlib.Data.List.Perm.Basic
import Mathlib.Data.Finset.Dedup

/-!
# Objects of JSON trees and positions within values

An object keeps its members in the order of their keys. With distinct keys they are the members it
was made of, in some order; that is all that reading depends on.

* `Json.insertKey_perm` : a new key adds a member.
* `Json.Holds` : an object has a list of members, in some order.
* `Value.ofMember_eq`, `Value.ofValues_eq`, `Value.ofEntries_eq` : what is read from a member that
  is there.

A value is a tree: its parts are the elements of a list, a sequence or a queue, the values of a map
and the ends of a range.

* `Value.part?`, `Value.at?` : the part of a value behind a step and behind a path.
* `Value.label` : what there is to see of a value without a look at its parts.
* `World.Grows` : queues have come to a state, and nothing else has changed.
* `Value.Concrete` : a tree has a form for the value. It holds no lambda at any position, and queues
  do not hold themselves.
* `Value.Mirrors` : one value looks like another at every position.
-/

namespace Reactor

namespace Entries

variable {κ : Type} [DecidableEq κ] {α : Type}

/-- With distinct keys, the order of the entries does not matter. -/
theorem get?_perm {entries others : Entries κ α} (h : entries.keys.Nodup)
    (hperm : others.Perm entries) (key : κ) : others.get? key = entries.get? key := by
  have hothers : others.keys.Nodup := (hperm.map Prod.fst).nodup_iff.2 h
  cases hget : entries.get? key with
  | some value => exact get?_of_mem hothers (hperm.mem_iff.2 (mem_of_get?_eq_some hget))
  | none =>
    cases hget' : others.get? key with
    | none => rfl
    | some value =>
      rw [get?_of_mem h (hperm.mem_iff.1 (mem_of_get?_eq_some hget'))] at hget
      cases hget

end Entries

namespace Json

/-- A new key adds a member. -/
theorem insertKey_perm {α : Type} {members : List (String × α)} {key : String} (value : α)
    (h : key ∉ Entries.keys members) :
    (insertKey members key value).Perm ((key, value) :: members) := by
  induction members with
  | nil => exact .refl _
  | cons first rest ih =>
    obtain ⟨k, a⟩ := first
    simp only [Entries.keys, List.map_cons, List.mem_cons, not_or] at h
    rw [insertKey, if_neg h.1]
    split
    · exact .refl _
    · exact ((ih h.2).cons (k, a)).trans (.swap ..)

theorem foldl_insertKey_perm {α : Type} {members : List (String × α)} (done : List (String × α))
    (h : (Entries.keys (members ++ done)).Nodup) :
    (members.foldl (fun done (key, value) => insertKey done key value) done).Perm
      (members ++ done) := by
  induction members generalizing done with
  | nil => exact .refl _
  | cons first rest ih =>
    obtain ⟨key, value⟩ := first
    simp only [Entries.keys, List.cons_append, List.map_cons, List.nodup_cons] at h
    have hperm : (insertKey done key value).Perm ((key, value) :: done) :=
      insertKey_perm value fun hmem => h.1 (by
        simpa [Entries.keys] using Or.inr (List.mem_map.1 hmem))
    have hmiddle : (rest ++ insertKey done key value).Perm ((key, value) :: (rest ++ done)) :=
      (hperm.append_left rest).trans List.perm_middle
    have hnodup : (Entries.keys (rest ++ insertKey done key value)).Nodup :=
      (hmiddle.map Prod.fst).nodup_iff.2 (List.nodup_cons.2 h)
    exact (ih _ hnodup).trans hmiddle

/-- The tree is an object with the given members, in some order. -/
def Holds (json : Json) (members : List (String × Json)) : Prop :=
  ∃ sorted, json = .object sorted ∧ sorted.Perm members

/-- With distinct keys, an object has the members that it is made of. -/
theorem holds_ofMembers {members : List (String × Json)} (h : (Entries.keys members).Nodup) :
    (ofMembers members).Holds members :=
  ⟨_, rfl, by simpa using foldl_insertKey_perm [] (by simpa using h)⟩

end Json

namespace Value

variable {name key : String} {members : List (String × Json)} {json : Json}

theorem ofMember_eq (all : List (String × Json)) (h : Entries.get? members key = some json) :
    ofMember name key all members = ofTree json := by
  induction members with
  | nil => cases h
  | cons first rest ih =>
    obtain ⟨k, a⟩ := first
    rw [Entries.get?] at h
    rw [ofMember]
    split at h
    · rename_i hk
      rw [if_pos hk, Option.some.inj h]
    · rename_i hk
      rw [if_neg hk, ih h]

theorem ofValues_eq {items : List Json} (all : List (String × Json))
    (h : Entries.get? members "values" = some (.array items)) :
    ofValues name all members = ofTrees items := by
  induction members with
  | nil => cases h
  | cons first rest ih =>
    obtain ⟨k, a⟩ := first
    by_cases hk : k = "values"
    · rw [Entries.get?, if_pos hk, Option.some.injEq] at h
      rw [h, ofValues, if_pos hk]
    · rw [Entries.get?, if_neg hk] at h
      rw [← ih h, ofValues.eq_def]
      simp only [if_neg hk]

theorem ofEntries_eq {entries : List (String × Json)} (all : List (String × Json))
    (h : Entries.get? members "entries" = some (.object entries)) :
    ofEntries all members = (do return .map (← ofMembers entries)) := by
  induction members with
  | nil => cases h
  | cons first rest ih =>
    obtain ⟨k, a⟩ := first
    by_cases hk : k = "entries"
    · rw [Entries.get?, if_pos hk, Option.some.injEq] at h
      rw [h, ofEntries, if_pos hk]
    · rw [Entries.get?, if_neg hk] at h
      rw [← ih h, ofEntries.eq_def]
      simp only [if_neg hk]

end Value

/-- The year of an instant, in milliseconds. -/
def Calendar.yearAt (millis : Int) : Int :=
  (Date.ofDayNumber (millis.fdiv millisPerDay)).year

namespace Value

/-! ## Parts -/

/-- A step from a value to one of its parts. -/
inductive Part where
  | item (index : Nat)
  | entry (key : String)
  | start
  | stop

/-- The elements of a list, of a sequence, or of what a queue holds. -/
def itemsIn (w : World) (v : Value) : List Value :=
  match v.data with
  | .list items | .sequence items => items
  | .queue id => (w.queueAt id).items
  | _ => []

/-- The entries of a map. -/
def entries (v : Value) : Entries String Value :=
  match v.data with
  | .map entries => entries
  | _ => []

/-- The ends of a range. -/
def ends? (v : Value) : Option (Value × Value) :=
  match v.data with
  | .range start stop => some (start, stop)
  | _ => none

/-- The part of a value behind a step. -/
def part? (w : World) (v : Value) : Part → Option Value
  | .item index => (v.itemsIn w)[index]?
  | .entry key => v.entries.get? key
  | .start => v.ends?.map Prod.fst
  | .stop => v.ends?.map Prod.snd

/-- The part of a value behind a path. -/
def at? (w : World) (v : Value) : List Part → Option Value
  | [] => some v
  | part :: path => do (← v.part? w part).at? w path

/-- What there is to see of a value without a look at its parts. -/
structure Label where
  type : ValueType
  /-- The type of what is absent, if it is known. -/
  of : Option ValueType
  /-- The keys of a map. -/
  keys : Finset String

/-- The type of a value, with the keys if it is a map. -/
def label (v : Value) : Label where
  type := v.tag
  of := match v.data with
    | .null of => of
    | _ => none
  keys := v.entries.keys.toFinset

end Value

/-- Queues have come to a state, and nothing else has changed. -/
def World.Grows (w w' : World) : Prop :=
  ∃ more, w' = { w with queues := w.queues ++ more }

namespace World

variable {w w' : World}

theorem Grows.refl (w : World) : w.Grows w :=
  ⟨#[], by simp⟩

theorem Grows.trans {w'' : World} (h : w.Grows w') (h' : w'.Grows w'') : w.Grows w'' := by
  obtain ⟨more, rfl⟩ := h
  obtain ⟨others, rfl⟩ := h'
  exact ⟨more ++ others, by simp⟩

theorem Grows.size_le (h : w.Grows w') : w.queues.size ≤ w'.queues.size := by
  obtain ⟨more, rfl⟩ := h
  simp

/-- The queues that were there hold what they held. -/
theorem Grows.queueAt (h : w.Grows w') {id : QueueId} (hid : id.index < w.queues.size) :
    w'.queueAt id = w.queueAt id := by
  obtain ⟨more, rfl⟩ := h
  have hid' : id.index < (w.queues ++ more).size := by simpa using Nat.lt_add_right _ hid
  simp only [World.queueAt, Array.getD, hid, hid', dif_pos]
  exact Array.getElem_append_left hid

/-- A new queue comes last. -/
theorem Grows.push (w : World) (record : QueueRecord) :
    w.Grows { w with queues := w.queues.push record } :=
  ⟨#[record], by simp⟩

end World

/-! ## Values with a tree -/

/-- The payload has no parts. -/
def Data.IsLeaf : Data → Prop
  | .list _ | .sequence _ | .map _ | .range .. | .queue _ => False
  | _ => True

/-- A payload has a form in trees: it is no lambda, a decimal is a number, a date falls in a year
that a text may name, and a queue is one of the state. -/
def Data.Concrete (w : World) : Data → Prop
  | .lambda _ => False
  | .decimal x => x.isNotANumber = false
  | .date millis =>
    0 ≤ Calendar.yearAt millis.toInt ∧ Calendar.yearAt millis.toInt ≤ Calendar.maxYear
  | .map entries => (Entries.keys entries).Nodup
  | .queue id => id.index < w.queues.size
  | _ => True

/-- Two payloads look alike, apart from their parts. -/
inductive Data.Agrees (w : World) : Data → Data → Prop
  | void : Agrees w .void .void
  | null (of : Option ValueType) : Agrees w (.null of) (.null of)
  | boolean (b : Bool) : Agrees w (.boolean b) (.boolean b)
  | integer (n : Int64) : Agrees w (.integer n) (.integer n)
  | decimal {x : Decimal} (h : x.isNotANumber = false) : Agrees w (.decimal x) (.decimal x)
  | string (s : String) : Agrees w (.string s) (.string s)
  | date (millis : Int64) : Agrees w (.date millis) (.date millis)
  | infinity (positive : Bool) : Agrees w (.infinity positive) (.infinity positive)
  | list {xs ys : List Value} (h : xs.length = ys.length) : Agrees w (.list xs) (.list ys)
  | sequence {xs ys : List Value} (h : xs.length = ys.length) :
    Agrees w (.sequence xs) (.sequence ys)
  | map {xs ys : Entries String Value} (h : (Entries.keys xs).Nodup)
    (hperm : (Entries.keys ys).Perm (Entries.keys xs)) : Agrees w (.map xs) (.map ys)
  | range (start stop start' stop' : Value) : Agrees w (.range start stop) (.range start' stop')
  | uri {u v : Uri} (h : u.text = v.text) : Agrees w (.uri u) (.uri v)
  | queue {p q : QueueId} (hp : p.index < w.queues.size) (hq : q.index < w.queues.size)
    (h : (w.queueAt p).items.length = (w.queueAt q).items.length) : Agrees w (.queue p) (.queue q)
  | error {e f : Error} (hkind : e.kind = f.kind) (hmessage : e.message = f.message) :
    Agrees w (.error e) (.error f)

namespace Value

/-- A tree has a form for the value: its payload and its parts have one. The parts of a queue are
among them, so that a queue that holds itself is none of these values. -/
inductive Concrete (w : World) : Value → Prop
  | intro {v : Value} (own : v.data.Concrete w)
    (parts : ∀ part x, v.part? w part = some x → Concrete w x) : Concrete w v

/-- One value looks like another at every position. -/
inductive Mirrors (w : World) : Value → Value → Prop
  | intro {v v' : Value} (own : v.data.Agrees w v'.data)
    (parts : ∀ part x x', v.part? w part = some x → v'.part? w part = some x' → Mirrors w x x') :
    Mirrors w v v'

variable {w w' : World} {v v' : Value}

theorem part?_of_isLeaf (h : v.data.IsLeaf) (part : Part) : v.part? w part = none := by
  unfold part? itemsIn entries ends?
  generalize v.data = data at h ⊢
  cases data <;> first | exact h.elim | cases part <;> rfl

/-- A value has a tree if its elements, the values of its entries and its ends have one. -/
theorem Concrete.of (own : v.data.Concrete w) (hitems : ∀ x ∈ v.itemsIn w, x.Concrete w)
    (hentries : ∀ entry ∈ v.entries, entry.2.Concrete w)
    (hends : ∀ ends ∈ v.ends?, ends.1.Concrete w ∧ ends.2.Concrete w) : v.Concrete w := by
  refine .intro own fun part x hx => ?_
  cases part with
  | item index => exact hitems x (List.mem_of_getElem? hx)
  | entry key => exact hentries (key, x) (Entries.mem_of_get?_eq_some hx)
  | start =>
    obtain ⟨ends, hmem, rfl⟩ := Option.map_eq_some_iff.1 hx
    exact (hends ends hmem).1
  | stop =>
    obtain ⟨ends, hmem, rfl⟩ := Option.map_eq_some_iff.1 hx
    exact (hends ends hmem).2

theorem Concrete.ofLeaf (own : v.data.Concrete w) (hleaf : v.data.IsLeaf) : v.Concrete w := by
  refine .intro own fun part x hx => ?_
  rw [part?_of_isLeaf hleaf] at hx
  cases hx

theorem Mirrors.own (h : v.Mirrors w v') : v.data.Agrees w v'.data := by
  cases h
  assumption

theorem Mirrors.parts (h : v.Mirrors w v') {part : Part} {x x' : Value}
    (hx : v.part? w part = some x) (hx' : v'.part? w part = some x') : x.Mirrors w x' := by
  obtain ⟨-, parts⟩ := h
  exact parts part x x' hx hx'

theorem label_eq_of_agrees (h : v.data.Agrees w v'.data) : v'.label = v.label := by
  unfold label tag entries
  generalize v.data = a at h ⊢
  generalize v'.data = b at h ⊢
  cases h with
  | map hnodup hperm => simp [Data.type, List.toFinset_eq_of_perm _ _ hperm]
  | _ => rfl

/-- Values that agree have parts behind the same steps. -/
theorem part?_isSome_of_agrees (h : v.data.Agrees w v'.data) (part : Part) :
    (v'.part? w part).isSome = (v.part? w part).isSome := by
  have items {xs ys : List Value} (h : xs.length = ys.length) (index : Nat) :
      ys[index]?.isSome = xs[index]?.isSome := by
    rw [Bool.eq_iff_iff, isSome_getElem?, isSome_getElem?, h]
  unfold part? itemsIn entries ends?
  generalize v.data = a at h ⊢
  generalize v'.data = b at h ⊢
  cases part with
  | item index =>
    cases h with
    | list h => exact items h index
    | sequence h => exact items h index
    | queue hp hq h => exact items h index
    | _ => rfl
  | entry key =>
    cases h with
    | map hnodup hperm =>
      rw [Bool.eq_iff_iff, ← Entries.mem_keys_iff, ← Entries.mem_keys_iff, hperm.mem_iff]
    | _ => rfl
  | start => cases h <;> rfl
  | stop => cases h <;> rfl

theorem agrees_symm {a b : Data} (h : a.Agrees w b) : b.Agrees w a := by
  cases h with
  | list h => exact .list h.symm
  | sequence h => exact .sequence h.symm
  | map hnodup hperm => exact .map (hperm.nodup_iff.2 hnodup) hperm.symm
  | uri h => exact .uri h.symm
  | queue hp hq h => exact .queue hq hp h.symm
  | error hkind hmessage => exact .error hkind.symm hmessage.symm
  | _ => constructor <;> assumption

theorem Mirrors.symm (h : v.Mirrors w v') : v'.Mirrors w v := by
  induction h with
  | intro own parts ih =>
    exact .intro (agrees_symm own) fun part x x' hx hx' => ih part x' x hx' hx

/-- A value that looks like another has the same labels behind the same paths. -/
theorem Mirrors.label_at? (h : v.Mirrors w v') (path : List Part) :
    (v'.at? w path).map label = (v.at? w path).map label := by
  induction path generalizing v v' with
  | nil => exact congrArg some (label_eq_of_agrees h.own)
  | cons part path ih =>
    have hsome := part?_isSome_of_agrees h.own part
    rw [at?, at?]
    cases hx : v.part? w part with
    | none =>
      cases hx' : v'.part? w part with
      | none => rfl
      | some x' => simp [hx, hx'] at hsome
    | some x =>
      cases hx' : v'.part? w part with
      | none => simp [hx, hx'] at hsome
      | some x' => exact ih (h.parts hx hx')

/-- Behind every step of the second value there is a part that looks like one of the first. -/
theorem Mirrors.part?_right (h : v.Mirrors w v') {part : Part} {x' : Value}
    (hx' : v'.part? w part = some x') : ∃ x, v.part? w part = some x ∧ x.Mirrors w x' := by
  have hsome := part?_isSome_of_agrees h.own part
  rw [hx'] at hsome
  obtain ⟨x, hx⟩ := Option.isSome_iff_exists.1 hsome.symm
  exact ⟨x, hx, h.parts hx hx'⟩

/-! ## Values that equal themselves -/

theorem anyNeedsMark_eq_false {items : List Value} (h : ∀ x ∈ items, x.needsMark = false) :
    anyNeedsMark items = false := by
  induction items with
  | nil => rfl
  | cons x rest ih =>
    rw [anyNeedsMark, h x List.mem_cons_self, ih fun y hy => h y (List.mem_cons_of_mem _ hy)]
    rfl

theorem entryNeedsMark_eq_false {entries : List (String × Value)}
    (h : ∀ entry ∈ entries, entry.2.needsMark = false) : entryNeedsMark entries = false := by
  induction entries with
  | nil => rfl
  | cons first rest ih =>
    obtain ⟨key, x⟩ := first
    rw [entryNeedsMark, h (key, x) List.mem_cons_self,
      ih fun y hy => h y (List.mem_cons_of_mem _ hy)]
    rfl

/-- A value that looks like another holds nothing that may differ from itself. -/
theorem Mirrors.needsMark_right (h : v.Mirrors w v') : v'.needsMark = false := by
  induction h with
  | @intro v v' own parts ih =>
    have hpart (part : Part) {x' : Value} (hx' : v'.part? w part = some x') :
        x'.needsMark = false := by
      obtain ⟨x, hx, -⟩ := Mirrors.part?_right (.intro own parts) hx'
      exact ih part x x' hx hx'
    have hitem {x' : Value} (hx' : x' ∈ v'.itemsIn w) : x'.needsMark = false := by
      obtain ⟨index, hindex⟩ := List.mem_iff_getElem?.1 hx'
      exact hpart (.item index) hindex
    obtain ⟨data, notes⟩ := v'
    rw [data_mk] at own
    generalize v.data = a at own
    rw [needsMark]
    cases own with
    | decimal h => exact h
    | list => exact anyNeedsMark_eq_false fun x' hx' => hitem hx'
    | sequence => exact anyNeedsMark_eq_false fun x' hx' => hitem hx'
    | map hnodup hperm =>
      have hnodup' := (hperm.nodup_iff).2 hnodup
      exact entryNeedsMark_eq_false fun entry hentry =>
        hpart (.entry entry.1) (Entries.get?_of_mem hnodup' hentry)
    | range =>
      rw [dataNeedsMark, hpart .start rfl, hpart .stop rfl]
      rfl
    | _ => rfl

/-! ## Growth -/

/-- What a value holds of a state does not change as queues come to it. -/
theorem part?_of_grows (h : w.Grows w')
    (hqueue : ∀ id, v.data = .queue id → id.index < w.queues.size) (part : Part) :
    v.part? w' part = v.part? w part := by
  have hitems : v.itemsIn w' = v.itemsIn w := by
    unfold itemsIn
    cases hdata : v.data with
    | queue id => exact congrArg QueueRecord.items (h.queueAt (hqueue id hdata))
    | _ => rfl
  unfold part?
  rw [hitems]

theorem agrees_grow {a b : Data} (h : a.Agrees w b) (hgrows : w.Grows w') : a.Agrees w' b := by
  cases h with
  | queue hp hq h =>
    refine .queue (Nat.lt_of_lt_of_le hp hgrows.size_le) (Nat.lt_of_lt_of_le hq hgrows.size_le) ?_
    rw [hgrows.queueAt hp, hgrows.queueAt hq, h]
  | _ => constructor <;> assumption

/-- A value with a tree has the same parts as queues come to the state. -/
theorem Concrete.at?_grow (h : v.Concrete w) (hgrows : w.Grows w') (path : List Part) :
    v.at? w' path = v.at? w path := by
  induction path generalizing v with
  | nil => rfl
  | cons part path ih =>
    obtain ⟨own, parts⟩ := h
    have hqueue (id : QueueId) (hdata : v.data = .queue id) : id.index < w.queues.size := by
      rw [hdata] at own
      exact own
    rw [at?, at?, part?_of_grows hgrows hqueue]
    cases hx : v.part? w part with
    | none => rfl
    | some x => exact ih (parts part x hx)

/-- Values that look alike name queues of the state. -/
theorem queue_lt_of_agrees (h : v.data.Agrees w v'.data) :
    (∀ id, v.data = .queue id → id.index < w.queues.size) ∧
      ∀ id, v'.data = .queue id → id.index < w.queues.size := by
  generalize v.data = a at h ⊢
  generalize v'.data = b at h ⊢
  cases h with
  | queue hp hq =>
    constructor
    · rintro id ⟨⟩
      exact hp
    · rintro id ⟨⟩
      exact hq
  | _ => exact ⟨fun _ h => Data.noConfusion h, fun _ h => Data.noConfusion h⟩

/-- Values go on to look alike as queues come to the state. -/
theorem Mirrors.grow (h : v.Mirrors w v') (hgrows : w.Grows w') : v.Mirrors w' v' := by
  induction h with
  | intro own parts ih =>
    obtain ⟨hqueue, hqueue'⟩ := queue_lt_of_agrees own
    refine .intro (agrees_grow own hgrows) fun part x x' hx hx' => ih part x x' ?_ ?_
    · rwa [part?_of_grows hgrows hqueue] at hx
    · rwa [part?_of_grows hgrows hqueue'] at hx'

end Value

end Reactor
