import Reactor.Prediction.Snapshot
import Reactor.Proofs.Learning.Tallies

/-!
# Snapshots read back

A part of a snapshot is read from the front of the bytes, and what follows it is left for the next part
(`Snapshot.Reads`). So the parts are taken one by one: numbers (`reads_encodeNat`), texts (`reads_encodeText`),
and lists of what is read item by item (`reads_encodeList`).

* `Snapshot.decode?_encode` : the snapshot of a learner is read as its entries, each with its types in the order
  in which they are declared (`Learner.saved`).
-/

namespace Reactor

namespace Snapshot

variable {α β : Type}

/-- In front of any other bytes the given ones are read as a value. -/
def Reads (item : List UInt8 → Option (α × List UInt8)) (bytes : List UInt8) (a : α) : Prop :=
  ∀ rest, item (bytes ++ rest) = some (a, rest)

/-! ## Numbers -/

theorem reads_encodeNat {top fuel n : Nat} (htop : top < 128) (h : n < 128 ^ fuel * (top + 1)) :
    Reads (decodeNat? top (fuel + 1)) (encodeNat fuel n) n := by
  intro rest
  induction fuel generalizing n with
  | zero =>
    have hn : n ≤ top := by omega
    have hbyte : (UInt8.ofNat n).toNat = n := Nat.mod_eq_of_lt (by omega)
    have hsmall : n < 128 := by omega
    simp [encodeNat, decodeNat?, hbyte, hsmall, hn]
  | succ fuel ih =>
    rw [encodeNat]
    split
    · next hsmall =>
      have hbyte : (UInt8.ofNat n).toNat = n := Nat.mod_eq_of_lt (by omega)
      simp [decodeNat?, hbyte, hsmall]
    · have hbyte : (UInt8.ofNat (n % 128 + 128)).toNat = n % 128 + 128 := Nat.mod_eq_of_lt (by omega)
      have hlarge : ¬ n % 128 + 128 < 128 := by omega
      have hrest : n / 128 < 128 ^ fuel * (top + 1) := by
        rw [Nat.div_lt_iff_lt_mul (by decide)]
        calc n < 128 ^ (fuel + 1) * (top + 1) := h
          _ = 128 ^ fuel * (top + 1) * 128 := by rw [Nat.pow_succ, Nat.mul_right_comm]
      have hsum : n % 128 + 128 - 128 + 128 * (n / 128) = n := by omega
      rw [List.cons_append, decodeNat?, hbyte, if_neg hlarge, ih hrest]
      simp only [Option.map_some, hsum]

theorem reads_encodeWord {n : Nat} (h : n < 2 ^ 64) : Reads decodeWord? (encodeWord n) n :=
  reads_encodeNat (by decide) h

theorem encodeNat_ne_nil (fuel n : Nat) : encodeNat fuel n ≠ [] := by
  cases fuel with
  | zero => simp [encodeNat]
  | succ fuel =>
    rw [encodeNat]
    split <;> simp

theorem encodeWord_ne_nil (n : Nat) : encodeWord n ≠ [] :=
  encodeNat_ne_nil 9 n

/-! ## Types and texts -/

theorem reads_type (ty : ValueType) : Reads decodeType? (encodeWord ty.index) ty := by
  intro rest
  cases ty <;> rfl

theorem loop_toList (bytes : ByteArray) (i : Nat) (front : List UInt8) :
    ByteArray.toList.loop bytes i front = front.reverse ++ bytes.data.toList.drop i := by
  fun_induction ByteArray.toList.loop bytes i front with
  | case1 i front h ih =>
    have hi : i < bytes.data.toList.length := by simpa using h
    have hget : bytes.get! i = bytes.data.toList[i] := by
      rw [ByteArray.get!, Array.getElem_toList]
      exact getElem!_pos bytes.data i (by simpa using h)
    rw [ih, List.drop_eq_getElem_cons hi, hget]
    simp
  | case2 i front h =>
    have hi : bytes.data.toList.length ≤ i := by simpa using h
    rw [List.drop_eq_nil_of_le hi, List.append_nil]

theorem toArray_toList (bytes : ByteArray) : (⟨bytes.toList.toArray⟩ : ByteArray) = bytes := by
  rw [ByteArray.toList, loop_toList]
  simp

theorem fromUTF8?_toByteArray (s : String) : String.fromUTF8? s.toByteArray = some s := by
  rw [String.fromUTF8?, dif_pos s.isValidUTF8]
  rfl

theorem reads_encodeText {s : String} (h : s.toUTF8.size < 2 ^ 64) : Reads decodeText? (encodeText s) s := by
  intro rest
  have hlength : s.toUTF8.toList.length = s.toUTF8.size := by
    rw [ByteArray.toList, loop_toList]
    simp
  simp only [decodeText?, encodeText, List.append_assoc, bind]
  rw [reads_encodeWord (hlength ▸ h) _]
  simp [toArray_toList, fromUTF8?_toByteArray]

/-! ## Lists -/

theorem reads_many {item : List UInt8 → Option (β × List UInt8)} {bytes : α → List UInt8} {f : α → β}
    {items : List α} (h : ∀ a ∈ items, Reads item (bytes a) (f a)) {fuel : Nat} (hfuel : items.length ≤ fuel) :
    Reads (decodeMany? item fuel items.length) (items.flatMap bytes) (items.map f) := by
  intro rest
  induction items generalizing fuel with
  | nil => cases fuel <;> rfl
  | cons a items ih =>
    obtain ⟨fuel, rfl⟩ : ∃ n, fuel = n + 1 := ⟨fuel - 1, by simp at hfuel; omega⟩
    have hrest := ih (fun a ha => h a (List.mem_cons_of_mem _ ha)) (Nat.le_of_succ_le_succ hfuel)
    simp only [List.flatMap_cons, List.append_assoc, List.length_cons, decodeMany?, bind]
    rw [h a List.mem_cons_self, Option.bind_some, hrest]
    rfl

theorem length_le_flatMap {bytes : α → List UInt8} {items : List α} (h : ∀ a ∈ items, bytes a ≠ []) :
    items.length ≤ (items.flatMap bytes).length := by
  induction items with
  | nil => exact Nat.le_refl 0
  | cons a items ih =>
    have hfirst : 1 ≤ (bytes a).length := List.length_pos_iff.2 (h a List.mem_cons_self)
    have hrest := ih fun a ha => h a (List.mem_cons_of_mem _ ha)
    simp only [List.length_cons, List.flatMap_cons, List.length_append]
    omega

/-- A list is read item by item. Each item takes a byte, so there are enough of them. -/
theorem reads_encodeList {item : List UInt8 → Option (β × List UInt8)} {bytes : α → List UInt8} {f : α → β}
    {items : List α} (h : ∀ a ∈ items, Reads item (bytes a) (f a)) (hne : ∀ a ∈ items, bytes a ≠ [])
    (hlength : items.length < 2 ^ 64) : Reads (decodeList? item) (encodeList bytes items) (items.map f) := by
  intro rest
  have hfuel : items.length ≤ (items.flatMap bytes ++ rest).length := by
    rw [List.length_append]
    exact Nat.le_add_right_of_le (length_le_flatMap hne)
  simp only [decodeList?, encodeList, List.append_assoc, bind]
  rw [reads_encodeWord hlength, Option.bind_some]
  exact reads_many h hfuel rest

end Snapshot

/-! ## Learners -/

namespace LearnedEntry

/-- The entry with its types in the order in which they are declared. -/
def saved (entry : LearnedEntry) : LearnedEntry :=
  { entry with
    counts := ValueType.all.filterMap fun ty => (Entries.get? entry.counts ty).map fun count => (ty, count) }

theorem keys_saved (entry : LearnedEntry) :
    Entries.keys entry.saved.counts = ValueType.all.filter fun ty => Entries.contains entry.counts ty := by
  simp only [saved, Entries.keys]
  induction ValueType.all with
  | nil => rfl
  | cons ty types ih =>
    cases h : Entries.get? entry.counts ty <;> simp [h, Entries.contains, ih]

theorem nodup_saved (entry : LearnedEntry) : (Entries.keys entry.saved.counts).Nodup := by
  rw [keys_saved]
  exact ValueType.nodup_all.filter _

theorem get?_saved (entry : LearnedEntry) (ty : ValueType) :
    Entries.get? entry.saved.counts ty = Entries.get? entry.counts ty := by
  cases h : Entries.get? entry.counts ty with
  | none =>
    have absent : ty ∉ Entries.keys entry.saved.counts := by
      simp [keys_saved, Entries.contains, h]
    simpa [Entries.mem_keys_iff] using absent
  | some count =>
    refine Entries.get?_of_mem entry.nodup_saved (List.mem_filterMap.2 ⟨ty, ValueType.mem_all ty, ?_⟩)
    rw [h]
    rfl

end LearnedEntry

namespace Entries

variable {κ α : Type} [DecidableEq κ]

/-- Entries that are inserted under new keys of their own go to the end as they are. -/
theorem merge_of_nodup {entries more : Entries κ α} (h : (keys (entries ++ more)).Nodup) :
    merge entries more = entries ++ more := by
  induction more generalizing entries with
  | nil => exact (List.append_nil _).symm
  | cons entry rest ih =>
    have new : entry.1 ∉ entries.keys := by
      rw [keys, List.map_append, List.map_cons, List.nodup_middle, List.nodup_cons, List.mem_append, not_or] at h
      exact h.1.1
    have step : merge entries (entry :: rest) = merge (insert entries entry.1 entry.2) rest := rfl
    rw [List.append_cons] at h ⊢
    rw [step, insert_of_notMem new, ih h]

end Entries

namespace Learner

/-- The entries of a learner as a snapshot gives them back. -/
def saved (learner : Learner) : Entries String LearnedEntry :=
  learner.entries.map fun (key, entry) => (key, entry.saved)

/-- A snapshot of the learner can be written: lengths and times are numbers of 64 bits. -/
structure Fits (learner : Learner) : Prop where
  length : learner.entries.length < 2 ^ 64
  key : ∀ part ∈ learner.entries, part.1.toUTF8.size < 2 ^ 64
  updated : ∀ part ∈ learner.entries, part.2.updated < 2 ^ 64

end Learner

namespace Snapshot

theorem reads_count (ty : ValueType) (count : UInt64) :
    Reads decodeCount? (encodeWord ty.index ++ encodeWord count.toNat) (ty, count) := by
  intro rest
  simp only [decodeCount?, List.append_assoc, bind]
  rw [reads_type, Option.bind_some, reads_encodeWord count.toNat_lt, Option.bind_some, UInt64.ofNat_toNat]
  rfl

theorem length_saved_lt (entry : LearnedEntry) : entry.saved.counts.length < 2 ^ 64 :=
  Nat.lt_of_le_of_lt (List.length_filterMap_le _ _) (by decide)

theorem encodeEntry_eq (key : String) (entry : LearnedEntry) :
    encodeEntry key entry = encodeText key ++
      (encodeList (fun (ty, count) => encodeWord ty.index ++ encodeWord count.toNat) entry.saved.counts ++
        encodeWord entry.updated) :=
  List.append_assoc ..

theorem reads_encodeEntry {key : String} {entry : LearnedEntry} (hkey : key.toUTF8.size < 2 ^ 64)
    (hupdated : entry.updated < 2 ^ 64) :
    Reads decodeEntry? (encodeEntry key entry) (key, entry.saved) := by
  intro rest
  have hcounts : Reads (decodeList? decodeCount?)
      (encodeList (fun (ty, count) => encodeWord ty.index ++ encodeWord count.toNat) entry.saved.counts)
      entry.saved.counts := by
    have h := reads_encodeList (fun part _ => reads_count part.1 part.2)
      (fun part _ => List.append_ne_nil_of_left_ne_nil (encodeWord_ne_nil part.1.index) _) (length_saved_lt entry)
    rwa [List.map_id'] at h
  have hmerge : Entries.merge [] entry.saved.counts = entry.saved.counts := Entries.merge_of_nodup entry.nodup_saved
  simp only [ decodeEntry?, encodeEntry_eq, List.append_assoc, bind]
  rw [reads_encodeText hkey, Option.bind_some, hcounts, Option.bind_some, reads_encodeWord hupdated,
    Option.bind_some, hmerge]
  rfl

theorem encodeEntry_ne_nil (key : String) (entry : LearnedEntry) : encodeEntry key entry ≠ [] := by
  simp [encodeEntry, encodeText, encodeWord_ne_nil]

/-- **Snapshots read back.** The snapshot of a learner is read as its entries. -/
theorem decode?_encode {learner : Learner} (h : learner.Fits) : decode? (encode learner) = some learner.saved := by
  have hentries : Reads (decodeList? decodeEntry?) (encode learner) learner.saved :=
    reads_encodeList
      (fun part hpart => reads_encodeEntry (h.key part hpart) (h.updated part hpart))
      (fun part _ => encodeEntry_ne_nil part.1 part.2) h.length
  have whole := hentries []
  rw [List.append_nil] at whole
  rw [decode?, whole]
  rfl

end Snapshot

end Reactor
