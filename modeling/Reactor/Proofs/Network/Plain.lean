import Reactor.Proofs.Handlers

/-!
# Plain values

* `Value.unmark` : a value without the marks that tell its copies apart. Marked values are compared by
  what they are without marks (`Value.unmark_markFrom`).
* `Value.Plain` : a value that names no lambda, queue or cell.
-/

namespace Reactor

namespace Value

/-! ## Values without marks -/

mutual

/-- The value without marks. -/
def unmark : Value → Value
  | .mk data notes => .mk (dataUnmark data) { notes with mark := 0 }

/-- The payload without marks. -/
def dataUnmark : Data → Data
  | .list items => .list (itemsUnmark items)
  | .sequence items => .sequence (itemsUnmark items)
  | .map entries => .map (entriesUnmark entries)
  | .range start stop => .range (unmark start) (unmark stop)
  | data => data

/-- The values without marks. -/
def itemsUnmark : List Value → List Value
  | [] => []
  | v :: vs => unmark v :: itemsUnmark vs

/-- The entries without marks. -/
def entriesUnmark : List (String × Value) → List (String × Value)
  | [] => []
  | (key, v) :: rest => (key, unmark v) :: entriesUnmark rest

end

theorem itemsUnmark_eq (items : List Value) : itemsUnmark items = items.map unmark := by
  induction items with
  | nil => rfl
  | cons v vs ih => rw [itemsUnmark, ih, List.map_cons]

theorem entriesUnmark_eq (entries : List (String × Value)) :
    entriesUnmark entries = entries.map fun entry => (entry.1, unmark entry.2) := by
  induction entries with
  | nil => rfl
  | cons entry rest ih => rw [entriesUnmark, ih, List.map_cons]

mutual

@[simp] theorem unmark_unmark (v : Value) : v.unmark.unmark = v.unmark := by
  match v with
  | .mk data notes => rw [unmark, unmark, dataUnmark_dataUnmark data]

@[simp] theorem dataUnmark_dataUnmark (data : Data) : dataUnmark (dataUnmark data) = dataUnmark data := by
  match data with
  | .list items => exact congrArg Data.list (itemsUnmark_itemsUnmark items)
  | .sequence items => exact congrArg Data.sequence (itemsUnmark_itemsUnmark items)
  | .map entries => exact congrArg Data.map (entriesUnmark_entriesUnmark entries)
  | .range start stop => exact congrArg₂ Data.range (unmark_unmark start) (unmark_unmark stop)
  | .lambda _ | .void | .null _ | .boolean _ | .integer _ | .decimal _ | .string _ | .date _
  | .infinity _ | .uri _ | .queue _ | .error _ => rfl

theorem itemsUnmark_itemsUnmark (items : List Value) :
    itemsUnmark (itemsUnmark items) = itemsUnmark items := by
  match items with
  | [] => rfl
  | v :: vs => rw [itemsUnmark, itemsUnmark, unmark_unmark v, itemsUnmark_itemsUnmark vs]

theorem entriesUnmark_entriesUnmark (entries : List (String × Value)) :
    entriesUnmark (entriesUnmark entries) = entriesUnmark entries := by
  match entries with
  | [] => rfl
  | (key, v) :: rest =>
    rw [entriesUnmark, entriesUnmark, unmark_unmark v, entriesUnmark_entriesUnmark rest]

end

@[simp] theorem lambda?_unmark (v : Value) : v.unmark.lambda? = v.lambda? := by
  obtain ⟨data, notes⟩ := v
  cases data <;> rfl

mutual

theorem unmark_markFrom (n : Nat) (v : Value) : (markFrom n v).1.unmark = v.unmark := by
  match v with
  | .mk data notes =>
    unfold markFrom
    split
    · rfl
    · show unmark (.mk (markDataFrom n data).1 _) = _
      rw [unmark, unmark, dataUnmark_markDataFrom n data]

theorem dataUnmark_markDataFrom (n : Nat) (data : Data) :
    dataUnmark (markDataFrom n data).1 = dataUnmark data := by
  match data with
  | .list items =>
    exact congrArg Data.list (itemsUnmark_markItemsFrom n [] items)
  | .sequence items =>
    exact congrArg Data.sequence (itemsUnmark_markItemsFrom n [] items)
  | .map entries =>
    exact congrArg Data.map (entriesUnmark_markEntriesFrom n [] entries)
  | .range start stop =>
    show Data.range (unmark (markFrom n start).1) (unmark (markFrom _ stop).1) = _
    rw [unmark_markFrom n start, unmark_markFrom _ stop]
    rfl
  | .lambda _ | .void | .null _ | .boolean _ | .integer _ | .decimal _ | .string _ | .date _
  | .infinity _ | .uri _ | .queue _ | .error _ => rfl

theorem itemsUnmark_markItemsFrom (n : Nat) (done items : List Value) :
    itemsUnmark (markItemsFrom n done items).1 = (itemsUnmark done).reverse ++ itemsUnmark items := by
  match items with
  | [] => rw [markItemsFrom, itemsUnmark_eq, itemsUnmark_eq, List.map_reverse, itemsUnmark,
      List.append_nil]
  | v :: vs =>
    rw [markItemsFrom, itemsUnmark_markItemsFrom _ _ vs, itemsUnmark, itemsUnmark, unmark_markFrom n v,
      List.reverse_cons, List.append_assoc]
    rfl

theorem entriesUnmark_markEntriesFrom (n : Nat) (done entries : List (String × Value)) :
    entriesUnmark (markEntriesFrom n done entries).1 =
      (entriesUnmark done).reverse ++ entriesUnmark entries := by
  match entries with
  | [] => rw [markEntriesFrom, entriesUnmark_eq, entriesUnmark_eq, List.map_reverse, entriesUnmark,
      List.append_nil]
  | (key, v) :: rest =>
    rw [markEntriesFrom, entriesUnmark_markEntriesFrom _ _ rest, entriesUnmark, entriesUnmark,
      unmark_markFrom n v, List.reverse_cons, List.append_assoc]
    rfl

end

/-! ## Places -/

mutual

/-- What a value names stands in front of the rest. -/
theorem placesBefore_eq (v : Value) (rest : List Place) :
    v.placesBefore rest = v.places ++ rest := by
  match v with
  | .mk data notes => exact dataPlacesBefore_eq data rest

theorem dataPlacesBefore_eq (data : Data) (rest : List Place) :
    dataPlacesBefore data rest = dataPlacesBefore data [] ++ rest := by
  match data with
  | .list items | .sequence items => exact itemsPlacesBefore_eq items rest
  | .map entries => exact entriesPlacesBefore_eq entries rest
  | .range start stop =>
    rw [dataPlacesBefore, dataPlacesBefore, placesBefore_eq start, placesBefore_eq stop,
      placesBefore_eq start (stop.placesBefore []), placesBefore_eq stop [], List.append_nil,
      List.append_assoc]
  | .uri uri => rw [dataPlacesBefore, dataPlacesBefore, List.append_nil]
  | .lambda _ | .queue _ => rfl
  | .void | .null _ | .boolean _ | .integer _ | .decimal _ | .string _ | .date _
  | .infinity _ | .error _ => rfl

theorem itemsPlacesBefore_eq (items : List Value) (rest : List Place) :
    itemsPlacesBefore items rest = itemsPlaces items ++ rest := by
  match items with
  | [] => rfl
  | v :: vs =>
    rw [itemsPlaces, itemsPlacesBefore, itemsPlacesBefore, itemsPlacesBefore_eq vs,
      itemsPlacesBefore_eq vs (v.placesBefore []), placesBefore_eq v, placesBefore_eq v [],
      List.append_nil, List.append_assoc]

theorem entriesPlacesBefore_eq (entries : List (String × Value)) (rest : List Place) :
    entriesPlacesBefore entries rest = entriesPlaces entries ++ rest := by
  match entries with
  | [] => rfl
  | (_, v) :: more =>
    rw [entriesPlaces, entriesPlacesBefore, entriesPlacesBefore, entriesPlacesBefore_eq more,
      entriesPlacesBefore_eq more (v.placesBefore []), placesBefore_eq v, placesBefore_eq v [],
      List.append_nil, List.append_assoc]

end

theorem mem_itemsPlaces {items : List Value} {place : Place} :
    place ∈ itemsPlaces items ↔ ∃ v ∈ items, place ∈ v.places := by
  induction items with
  | nil => simp [itemsPlaces_nil]
  | cons v vs ih =>
    rw [itemsPlaces, itemsPlacesBefore, itemsPlacesBefore_eq, List.mem_append, ih]
    show _ ∨ place ∈ v.places ↔ _
    simp only [List.mem_cons, exists_eq_or_imp, or_comm]

theorem mem_entriesPlaces {entries : List (String × Value)} {place : Place} :
    place ∈ entriesPlaces entries ↔ ∃ entry ∈ entries, place ∈ entry.2.places := by
  induction entries with
  | nil => simp [entriesPlaces_nil]
  | cons entry rest ih =>
    rw [entriesPlaces, entriesPlacesBefore, entriesPlacesBefore_eq, List.mem_append, ih]
    show _ ∨ place ∈ entry.2.places ↔ _
    simp only [List.mem_cons, exists_eq_or_imp, or_comm]

mutual

theorem placesBefore_unmark (v : Value) (rest : List Place) :
    v.unmark.placesBefore rest = v.placesBefore rest := by
  match v with
  | .mk data notes => exact dataPlacesBefore_unmark data rest

theorem dataPlacesBefore_unmark (data : Data) (rest : List Place) :
    dataPlacesBefore (dataUnmark data) rest = dataPlacesBefore data rest := by
  match data with
  | .list items | .sequence items => exact itemsPlacesBefore_unmark items rest
  | .map entries => exact entriesPlacesBefore_unmark entries rest
  | .range start stop =>
    rw [dataUnmark, dataPlacesBefore, dataPlacesBefore, placesBefore_unmark start,
      placesBefore_unmark stop]
  | .lambda _ | .void | .null _ | .boolean _ | .integer _ | .decimal _ | .string _ | .date _
  | .infinity _ | .uri _ | .queue _ | .error _ => rfl

theorem itemsPlacesBefore_unmark (items : List Value) (rest : List Place) :
    itemsPlacesBefore (itemsUnmark items) rest = itemsPlacesBefore items rest := by
  match items with
  | [] => rfl
  | v :: vs =>
    rw [itemsUnmark, itemsPlacesBefore, itemsPlacesBefore, placesBefore_unmark v,
      itemsPlacesBefore_unmark vs]

theorem entriesPlacesBefore_unmark (entries : List (String × Value)) (rest : List Place) :
    entriesPlacesBefore (entriesUnmark entries) rest = entriesPlacesBefore entries rest := by
  match entries with
  | [] => rfl
  | (_, v) :: more =>
    rw [entriesUnmark, entriesPlacesBefore, entriesPlacesBefore, placesBefore_unmark v,
      entriesPlacesBefore_unmark more]

end

/-! ## Plain values -/

/-- The value names no lambda, queue or cell. -/
def Plain (v : Value) : Prop :=
  v.places = []

theorem Plain.lambda?_eq_none {v : Value} (h : v.Plain) : v.lambda? = none := by
  cases hl : v.lambda? with
  | none => rfl
  | some id =>
    rw [Plain, places_of_lambda? hl] at h
    cases h

theorem plain_unmark_iff {v : Value} : v.unmark.Plain ↔ v.Plain := by
  rw [Plain, places, placesBefore_unmark]
  rfl

/-- Copies of a value name the same places. -/
theorem Plain.of_unmark_eq {u v : Value} (h : u.Plain) (hv : v.unmark = u.unmark) : v.Plain := by
  rw [← plain_unmark_iff, hv, plain_unmark_iff]
  exact h

theorem plain_iff {v : Value} : v.Plain ↔ ∀ place, place ∉ v.places :=
  List.eq_nil_iff_forall_not_mem

theorem plain_list_iff {items : List Value} {notes : Notes} :
    (Value.mk (.list items) notes).Plain ↔ ∀ v ∈ items, v.Plain := by
  have same : (Value.mk (.list items) notes).places = itemsPlaces items := rfl
  simp only [plain_iff, same, mem_itemsPlaces, not_exists, not_and]
  exact ⟨fun h v hv place => h place v hv, fun h place v hv => h v hv place⟩

theorem plain_sequence_iff {items : List Value} {notes : Notes} :
    (Value.mk (.sequence items) notes).Plain ↔ ∀ v ∈ items, v.Plain :=
  show (Value.mk (.list items) notes).Plain ↔ _ from plain_list_iff

theorem plain_map_iff {entries : List (String × Value)} {notes : Notes} :
    (Value.mk (.map entries) notes).Plain ↔ ∀ entry ∈ entries, entry.2.Plain := by
  have same : (Value.mk (.map entries) notes).places = entriesPlaces entries := rfl
  simp only [plain_iff, same, mem_entriesPlaces, not_exists, not_and]
  exact ⟨fun h entry he place => h place entry he, fun h place entry he => h entry he place⟩

theorem plain_range_iff {start stop : Value} {notes : Notes} :
    (Value.mk (.range start stop) notes).Plain ↔ start.Plain ∧ stop.Plain := by
  have same : (Value.mk (.range start stop) notes).places = start.placesBefore stop.places := rfl
  rw [Plain, same, placesBefore_eq, List.append_eq_nil_iff]
  rfl

end Value

end Reactor
