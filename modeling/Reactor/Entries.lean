/-!
# Keyed entries in insertion order

A list of pairs read as a finite map. A new key goes to the end, a known key keeps its place.

* `Entries.get?`, `Entries.contains`, `Entries.insert`, `Entries.erase`, `Entries.modify`.
* `Entries.merge` : the entries of a second map inserted one after another.
-/

namespace Reactor

/-- Pairs of a key and a value, in insertion order. -/
abbrev Entries (κ : Type) (α : Type) := List (κ × α)

namespace Entries

variable {κ : Type} [DecidableEq κ] {α : Type}

/-- The value under a key. -/
def get? : Entries κ α → κ → Option α
  | [], _ => none
  | (k, a) :: rest, key => if k = key then some a else get? rest key

/-- Some entry has the key. -/
def contains (entries : Entries κ α) (key : κ) : Bool :=
  (entries.get? key).isSome

/-- Replaces the value under a known key in place, and adds a new key at the end. -/
def insert : Entries κ α → κ → α → Entries κ α
  | [], key, value => [(key, value)]
  | (k, a) :: rest, key, value =>
    if k = key then (k, value) :: rest else (k, a) :: insert rest key value

/-- Drops the entry with the key. -/
def erase (entries : Entries κ α) (key : κ) : Entries κ α :=
  entries.filter fun entry => entry.1 ≠ key

/-- Changes the value under a key. -/
def modify (entries : Entries κ α) (key : κ) (f : α → α) : Entries κ α :=
  entries.map fun (k, a) => (k, if k = key then f a else a)

/-- The keys in order. -/
def keys (entries : Entries κ α) : List κ :=
  entries.map (·.1)

/-- The values in order. -/
def values (entries : Entries κ α) : List α :=
  entries.map (·.2)

/-- Inserts the entries of `more` one after another. -/
def merge (entries more : Entries κ α) : Entries κ α :=
  more.foldl (fun acc (k, a) => insert acc k a) entries

theorem get?_insert (entries : Entries κ α) (key k : κ) (value : α) :
    get? (insert entries key value) k = if key = k then some value else get? entries k := by
  induction entries with
  | nil => simp [insert, get?]
  | cons entry rest ih =>
    obtain ⟨j, a⟩ := entry
    by_cases h : j = key
    · subst h; by_cases hk : j = k <;> simp [insert, get?, hk]
    · by_cases hk : j = k
      · subst hk; simp [insert, get?, h, Ne.symm h]
      · simp [insert, get?, h, hk, ih]

theorem keys_insert (entries : Entries κ α) (key : κ) (value : α) :
    keys (insert entries key value) =
      if key ∈ keys entries then keys entries else keys entries ++ [key] := by
  induction entries with
  | nil => simp [insert, keys]
  | cons entry rest ih =>
    obtain ⟨j, a⟩ := entry
    by_cases h : j = key
    · subst h; simp [insert, keys]
    · have hne : key ≠ j := fun e => h e.symm
      simp only [insert, h, if_false]
      simp only [keys, List.map_cons, List.mem_cons, hne, false_or] at ih ⊢
      rw [ih]; split <;> simp [*]

/-- A key that is not there goes to the end. -/
theorem insert_of_notMem {entries : Entries κ α} {key : κ} (h : key ∉ entries.keys) (value : α) :
    insert entries key value = entries ++ [(key, value)] := by
  induction entries with
  | nil => rfl
  | cons entry rest ih =>
    have hne : entry.1 ≠ key := fun same => h (same ▸ List.mem_cons_self)
    rw [insert, if_neg hne, ih fun hmem => h (List.mem_cons_of_mem _ hmem), List.cons_append]

theorem mem_keys_iff {entries : Entries κ α} {key : κ} :
    key ∈ entries.keys ↔ (entries.get? key).isSome = true := by
  induction entries with
  | nil => simp [keys, get?]
  | cons first rest ih =>
    obtain ⟨k, a⟩ := first
    by_cases hk : k = key
    · simp [keys, get?, hk]
    · simpa [keys, get?, hk, Ne.symm hk] using ih

theorem contains_insert (entries : Entries κ α) (key k : κ) (value : α) :
    (insert entries key value).contains k = (decide (key = k) || entries.contains k) := by
  rw [contains, get?_insert]
  by_cases h : key = k
  · simp [h]
  · simp [h, contains]

theorem nodup_keys_insert {entries : Entries κ α} (h : entries.keys.Nodup) (key : κ) (value : α) :
    (keys (insert entries key value)).Nodup := by
  rw [keys_insert]
  split
  · exact h
  · next hkey =>
    rw [List.nodup_append]
    exact ⟨h, List.pairwise_singleton _ _, fun k hk k' hk' => by
      rw [List.mem_singleton.1 hk']
      exact fun same => hkey (same ▸ hk)⟩

/-- What is among the entries after an insertion was there before or was inserted. -/
theorem mem_insert {entries : Entries κ α} {key : κ} {value : α} {entry : κ × α}
    (h : entry ∈ insert entries key value) : entry ∈ entries ∨ entry = (key, value) := by
  induction entries with
  | nil => exact .inr (List.mem_singleton.1 h)
  | cons first rest ih =>
    obtain ⟨k, a⟩ := first
    by_cases hk : k = key
    · subst hk
      simp only [insert, if_true, List.mem_cons] at h
      exact h.elim .inr fun h => .inl (List.mem_cons_of_mem _ h)
    · simp only [insert, if_neg hk, List.mem_cons] at h
      rcases h with rfl | h
      · exact .inl List.mem_cons_self
      · exact (ih h).imp_left (List.mem_cons_of_mem _)

theorem mem_of_mem_erase {entries : Entries κ α} {key : κ} {entry : κ × α}
    (h : entry ∈ erase entries key) : entry ∈ entries :=
  (List.mem_filter.1 h).1

theorem mem_of_get?_eq_some {entries : Entries κ α} {key : κ} {value : α}
    (h : get? entries key = some value) : (key, value) ∈ entries := by
  induction entries with
  | nil => cases h
  | cons first rest ih =>
    obtain ⟨k, a⟩ := first
    by_cases hk : k = key
    · subst hk
      simp only [get?, if_true, Option.some.injEq] at h
      subst h
      exact List.mem_cons_self
    · simp only [get?, if_neg hk] at h
      exact List.mem_cons_of_mem _ (ih h)

/-- With distinct keys, what is among the entries is found under its key. -/
theorem get?_of_mem {entries : Entries κ α} (h : entries.keys.Nodup) {key : κ} {value : α}
    (hmem : (key, value) ∈ entries) : entries.get? key = some value := by
  induction entries with
  | nil => exact (List.not_mem_nil hmem).elim
  | cons first rest ih =>
    obtain ⟨k, a⟩ := first
    simp only [keys, List.map_cons, List.nodup_cons] at h
    rcases List.mem_cons.1 hmem with heq | hmem
    · cases heq
      simp [get?]
    · have hne : k ≠ key := fun e => h.1 (e ▸ List.mem_map_of_mem hmem)
      rw [get?, if_neg hne, ih h.2 hmem]

theorem get?_erase (entries : Entries κ α) (key k : κ) :
    get? (erase entries key) k = if key = k then none else get? entries k := by
  induction entries with
  | nil => simp [erase, get?]
  | cons entry rest ih =>
    obtain ⟨j, a⟩ := entry
    simp only [erase, ne_eq, decide_not] at ih ⊢
    by_cases h : j = key
    · subst h
      by_cases hk : j = k <;> simp_all [get?]
    · by_cases hk : j = k
      · subst hk; simp [get?, h, Ne.symm h]
      · simp [get?, h, hk, ih]

end Entries

end Reactor
