import Reactor.Engine.World
import Reactor.Proofs.Network.Plain

/-!
# What a value is made of

A traversal goes on from a value to its parts: to the elements of a collection, to the items that a queue
has at the time, to the result that a lambda keeps (`World.parts`). So a value need not be a finite tree,
though every payload is one.

* `World.Flat` : the value unfolds to at most a number of levels.
* `World.Unfolds`, `World.Meets` : what a traversal comes to from a value.
* `World.Coils` : a traversal of the value comes back to it. Then no number of levels is enough
  (`World.Coils.not_flat`).
* `World.Gains` : the queue or the lambda with a certain payload gets more parts. The values of the state
  stay flat exactly if none of the new parts meets that payload (`World.Gains.grounded`,
  `World.Gains.coils`).
-/

namespace Reactor

/-- The result that a lambda keeps. -/
def LambdaRecord.kept (record : LambdaRecord) : List Value :=
  match record.cache with
  | .holding v => [v]
  | _ => []

/-- Values that are shared are the same without marks. -/
theorem Value.exists_shareAll (items : List Value) (ctx : Context) (w : World) :
    ∃ shared marks, Value.shareAll items ctx w = .value shared { w with marks } ∧
      shared.map Value.unmark = items.map Value.unmark := by
  unfold Value.shareAll
  split
  · refine ⟨_, _, rfl, ?_⟩
    rw [← itemsUnmark_eq, itemsUnmark_markItemsFrom, itemsUnmark_eq items]
    rfl
  · exact ⟨items, w.marks, rfl, rfl⟩

namespace World

/-- What a traversal goes on to. -/
def parts (w : World) (v : Value) : List Value :=
  match v.data with
  | .list items => items
  | .sequence items => items
  | .map entries => Entries.values entries
  | .range start stop => [start, stop]
  | .queue id => (w.queueAt id).items
  | .lambda id => (w.lambdaAt id).kept
  | _ => []

/-- The value unfolds to at most a number of levels. -/
def Flat (w : World) : Nat → Value → Prop
  | 0, _ => False
  | n + 1, v => ∀ x ∈ w.parts v, w.Flat n x

/-- Every value unfolds to a number of levels. -/
def Grounded (w : World) : Prop :=
  ∀ v, ∃ n, w.Flat n v

/-- A traversal of the first value comes to the second one. -/
inductive Unfolds (w : World) : Value → Value → Prop
  | refl (v : Value) : Unfolds w v v
  | part {v x y : Value} (h : x ∈ w.parts v) (h' : Unfolds w x y) : Unfolds w v y

/-- A traversal of the value comes to a payload. -/
def Meets (w : World) (v : Value) (node : Data) : Prop :=
  ∃ y, w.Unfolds v y ∧ y.data = node

/-- A traversal of the value comes back to it. -/
def Coils (w : World) (v : Value) : Prop :=
  ∃ x ∈ w.parts v, w.Meets x v.data

variable {u w : World} {v x y : Value} {node : Data} {added : List Value} {m n : Nat}

/-! ## Levels -/

theorem parts_congr_data (w : World) (h : x.data = v.data) : w.parts x = w.parts v := by
  unfold parts
  rw [h]

theorem Flat.mono (h : w.Flat m v) (hmn : m ≤ n) : w.Flat n v := by
  induction m generalizing v n with
  | zero => exact h.elim
  | succ m ih =>
    obtain ⟨n, rfl⟩ : ∃ k, n = k + 1 := ⟨n - 1, by omega⟩
    exact fun x hx => ih (h x hx) (by omega)

theorem Flat.congr_data (h : w.Flat n v) (hx : x.data = v.data) : w.Flat n x := by
  cases n with
  | zero => exact h
  | succ n =>
    show ∀ y ∈ w.parts x, _
    rw [w.parts_congr_data hx]
    exact h

/-- Some values unfold to a number of levels together. -/
theorem exists_flat {items : List Value} (h : ∀ x ∈ items, ∃ n, w.Flat n x) :
    ∃ n, ∀ x ∈ items, w.Flat n x := by
  induction items with
  | nil => exact ⟨0, nofun⟩
  | cons item items ih =>
    obtain ⟨m, hm⟩ := h item List.mem_cons_self
    obtain ⟨n, hn⟩ := ih fun x hx => h x (List.mem_cons_of_mem _ hx)
    refine ⟨max m n, List.forall_mem_cons.2 ⟨hm.mono (Nat.le_max_left m n), fun x hx => ?_⟩⟩
    exact (hn x hx).mono (Nat.le_max_right m n)

/-- A value unfolds to a number of levels if its parts do. -/
theorem exists_flat_of_parts (h : ∀ x ∈ w.parts v, ∃ n, w.Flat n x) : ∃ n, w.Flat n v := by
  obtain ⟨n, hn⟩ := exists_flat h
  exact ⟨n + 1, hn⟩

/-- With no more parts, there are no more levels. -/
theorem Flat.of_subset (hparts : ∀ v, u.parts v ⊆ w.parts v) (h : w.Flat n v) : u.Flat n v := by
  induction n generalizing v with
  | zero => exact h
  | succ n ih => exact fun x hx => ih (h x (hparts v hx))

/-- Where queues are empty and lambdas keep nothing, every value is a finite tree. -/
theorem grounded_of_unfilled (hqueues : ∀ id, (w.queueAt id).items = [])
    (hlambdas : ∀ k, (w.lambdaAt k).kept = []) : w.Grounded := by
  intro v
  -- the induction is on the size of the value, and the parts of a collection are smaller
  induction hn : sizeOf v using Nat.strongRecOn generalizing v with
  | ind n ih =>
    refine exists_flat_of_parts fun x hx => ih (sizeOf x) ?_ x rfl
    subst hn
    obtain ⟨data, notes⟩ := v
    cases data with
    | list items =>
      have hlt : sizeOf x < sizeOf items := List.sizeOf_lt_of_mem hx
      simp only [Value.mk.sizeOf_spec, Data.list.sizeOf_spec]
      omega
    | sequence items =>
      have hlt : sizeOf x < sizeOf items := List.sizeOf_lt_of_mem hx
      simp only [Value.mk.sizeOf_spec, Data.sequence.sizeOf_spec]
      omega
    | map entries =>
      obtain ⟨⟨key, item⟩, hentry, rfl⟩ := List.mem_map.1 hx
      have hlt := List.sizeOf_lt_of_mem hentry
      simp only [Value.mk.sizeOf_spec, Data.map.sizeOf_spec, Prod.mk.sizeOf_spec] at hlt ⊢
      omega
    | range start stop =>
      simp only [Value.mk.sizeOf_spec, Data.range.sizeOf_spec]
      rcases List.mem_cons.1 hx with rfl | hx
      · omega
      · rw [List.mem_singleton.1 hx]
        omega
    | queue id =>
      have none : w.parts (.mk (.queue id) notes) = [] := hqueues id
      rw [none] at hx
      cases hx
    | lambda k =>
      have none : w.parts (.mk (.lambda k) notes) = [] := hlambdas k
      rw [none] at hx
      cases hx
    | _ => cases hx

/-! ## Coming back -/

theorem Unfolds.flat (h : w.Unfolds v x) (hv : w.Flat n v) : w.Flat n x := by
  induction h generalizing n with
  | refl v => exact hv
  | part hx _ ih =>
    cases n with
    | zero => exact hv.elim
    | succ n => exact (ih (hv _ hx)).mono (Nat.le_succ n)

/-- A value that a traversal comes back to unfolds without end. -/
theorem Coils.not_flat (h : w.Coils v) (n : Nat) : ¬w.Flat n v := by
  obtain ⟨x, hx, y, hto, hdata⟩ := h
  induction n with
  | zero => exact id
  | succ n ih => exact fun hv => ih ((hto.flat (hv x hx)).congr_data hdata.symm)

theorem meets_of_part (hx : x ∈ w.parts v) (h : w.Meets x node) : w.Meets v node := by
  obtain ⟨y, hto, hdata⟩ := h
  exact ⟨y, .part hx hto, hdata⟩

/-- What is met is the value itself, or one of its parts meets it. -/
theorem meets_iff : w.Meets v node ↔ v.data = node ∨ ∃ x ∈ w.parts v, w.Meets x node := by
  constructor
  · rintro ⟨y, hto, hdata⟩
    cases hto with
    | refl => exact .inl hdata
    | part hx hto => exact .inr ⟨_, hx, y, hto, hdata⟩
  · rintro (hdata | ⟨x, hx, hmeets⟩)
    · exact ⟨v, .refl v, hdata⟩
    · exact meets_of_part hx hmeets

/-! ## Marks -/

theorem parts_unmark (w : World) (v : Value) :
    (w.parts v.unmark).map Value.unmark = (w.parts v).map Value.unmark := by
  have twice : Value.unmark ∘ Value.unmark = Value.unmark := funext Value.unmark_unmark
  obtain ⟨data, notes⟩ := v
  cases data with
  | list items =>
    show (Value.itemsUnmark items).map _ = _
    rw [Value.itemsUnmark_eq, List.map_map, twice]
    rfl
  | sequence items =>
    show (Value.itemsUnmark items).map _ = _
    rw [Value.itemsUnmark_eq, List.map_map, twice]
    rfl
  | map entries =>
    show (Entries.values (Value.entriesUnmark entries)).map _ = _
    rw [Value.entriesUnmark_eq, Entries.values, List.map_map, List.map_map]
    show _ = (Entries.values entries).map _
    rw [Entries.values, List.map_map]
    exact List.map_congr_left fun entry _ => Value.unmark_unmark entry.2
  | range start stop =>
    show [start.unmark.unmark, stop.unmark.unmark] = _
    rw [Value.unmark_unmark, Value.unmark_unmark]
    rfl
  | _ => rfl

/-- Copies of a value have copies of its parts. -/
theorem exists_part_of_unmark_eq (h : x.unmark = v.unmark) (hy : y ∈ w.parts v) :
    ∃ z ∈ w.parts x, z.unmark = y.unmark := by
  have same : (w.parts x).map Value.unmark = (w.parts v).map Value.unmark := by
    rw [← w.parts_unmark x, h, w.parts_unmark]
  have hmem : y.unmark ∈ (w.parts x).map Value.unmark := same ▸ List.mem_map_of_mem hy
  obtain ⟨z, hz, heq⟩ := List.mem_map.1 hmem
  exact ⟨z, hz, heq⟩

/-- Copies of a value meet the same queues and lambdas. -/
theorem Meets.of_unmark_eq (hnode : ∀ data, Value.dataUnmark data = Value.dataUnmark node → data = node)
    (hv : w.Meets v node) (h : x.unmark = v.unmark) : w.Meets x node := by
  obtain ⟨y, hto, hdata⟩ := hv
  induction hto generalizing x with
  | refl v =>
    refine ⟨x, .refl x, hnode _ ?_⟩
    obtain ⟨xdata, xnotes⟩ := x
    obtain ⟨vdata, vnotes⟩ := v
    rw [Value.unmark, Value.unmark] at h
    rw [← hdata]
    exact (Value.mk.inj h).1
  | part hpart _ ih =>
    obtain ⟨z, hz, heq⟩ := exists_part_of_unmark_eq h hpart
    exact meets_of_part hz (ih heq hdata)

theorem queue_of_dataUnmark_eq (id : QueueId) (data : Data)
    (h : Value.dataUnmark data = Value.dataUnmark (.queue id)) : data = .queue id := by
  cases data <;> cases h
  rfl

/-! ## New parts -/

/-- Values with a certain payload have more parts in the second state, all others the same. -/
structure Gains (w u : World) (node : Data) (added : List Value) : Prop where
  here {v : Value} (h : v.data = node) : u.parts v = w.parts v ++ added
  elsewhere {v : Value} (h : v.data ≠ node) : u.parts v = w.parts v

namespace Gains

variable (h : w.Gains u node added)
include h

theorem mem_parts (hx : x ∈ w.parts v) : x ∈ u.parts v := by
  by_cases hv : v.data = node
  · rw [h.here hv]
    exact List.mem_append_left _ hx
  · rwa [h.elsewhere hv]

theorem unfolds (hto : w.Unfolds v x) : u.Unfolds v x := by
  induction hto with
  | refl v => exact .refl v
  | part hx _ ih => exact .part (h.mem_parts hx) ih

/-- A value that does not meet the payload unfolds as before. -/
theorem flat_of_not_meets (hv : w.Flat n v) (hmeets : ¬w.Meets v node) : u.Flat n v := by
  induction n generalizing v with
  | zero => exact hv
  | succ n ih =>
    intro x hx
    rw [h.elsewhere fun hdata => hmeets ⟨v, .refl v, hdata⟩] at hx
    exact ih (hv x hx) fun hmeets' => hmeets (meets_of_part hx hmeets')

/-- If no new part meets the payload, every value still unfolds to a number of levels. -/
theorem grounded (hw : w.Grounded) (hadded : ∀ x ∈ added, ¬w.Meets x node) : u.Grounded := by
  have new (x : Value) (hx : x ∈ added) : ∃ n, u.Flat n x := by
    obtain ⟨n, hn⟩ := hw x
    exact ⟨n, h.flat_of_not_meets hn (hadded x hx)⟩
  have all (n : Nat) (v : Value) (hv : w.Flat n v) : ∃ n, u.Flat n v := by
    induction n generalizing v with
    | zero => exact hv.elim
    | succ n ih =>
      refine exists_flat_of_parts fun x hx => ?_
      by_cases hdata : v.data = node
      · rw [h.here hdata] at hx
        rcases List.mem_append.1 hx with hx | hx
        · exact ih x (hv x hx)
        · exact new x hx
      · rw [h.elsewhere hdata] at hx
        exact ih x (hv x hx)
  exact fun v => (hw v).elim fun n hn => all n v hn

/-- If a new part meets the payload, a traversal of it comes back. -/
theorem coils (hv : v.data = node) (hx : x ∈ added) (hmeets : w.Meets x node) : u.Coils v := by
  obtain ⟨y, hto, hdata⟩ := hmeets
  refine ⟨x, ?_, y, h.unfolds hto, hdata.trans hv.symm⟩
  rw [h.here hv]
  exact List.mem_append_right _ hx

end Gains

end World

end Reactor
