import Reactor.Proofs.Learning.Runs
import Reactor.Proofs.Learning.Snapshots

/-!
# The entries of a learner

The entries of a learner are a table: there is one entry for a signature, with one count for a type, and the
times are numbers of 64 bits (`Learner.Sound`). All that can be done to a learner keeps it so, whatever bytes it
is loaded from (`Learner.Built.sound`).

* `Learner.count_lookup` : what is looked up under some keys is the sum of what is there under each.
* `Learner.Alike` : learners that hold the same counts and times, in whatever order. They expand calls to the
  same signatures and predict the same (`Learner.Alike.predict`).
-/

namespace Reactor

namespace Counts

variable {counts more : Counts} {ty : ValueType}

theorem get?_eq (counts : Counts) (ty : ValueType) :
    Entries.get? counts ty = if Entries.contains counts ty then some (counts.count ty) else none := by
  unfold Entries.contains count
  cases Entries.get? counts ty <;> rfl

theorem counts_addAll (tally : Tally) (more : Counts) :
    (tally.addAll more).counts = tally.counts.addAll more := by
  induction more generalizing tally with
  | nil => rfl
  | cons entry rest ih => exact ih _

theorem count_addAll (counts : Counts) (h : (Entries.keys more).Nodup) (ty : ValueType) :
    (counts.addAll more).count ty = counts.count ty + more.count ty := by
  have := Tally.count_addAll h { counts } ty
  rwa [Tally.count, counts_addAll] at this

theorem contains_addAll (counts more : Counts) (ty : ValueType) :
    Entries.contains (counts.addAll more) ty = (Entries.contains counts ty || Entries.contains more ty) := by
  have := Tally.contains_addAll { counts } more ty
  rwa [counts_addAll] at this

theorem nodup_addAll (h : (Entries.keys counts).Nodup) (more : Counts) :
    (Entries.keys (counts.addAll more)).Nodup := by
  induction more generalizing counts with
  | nil => exact h
  | cons entry rest ih => exact ih (Entries.nodup_keys_insert h entry.1 _)

/-- The sum of two tables depends on what they hold for each type, and not on their order. -/
theorem get?_addAll (counts : Counts) (h : (Entries.keys more).Nodup) (ty : ValueType) :
    Entries.get? (counts.addAll more) ty =
      if Entries.contains counts ty || Entries.contains more ty then some (counts.count ty + more.count ty)
      else none := by
  rw [get?_eq, contains_addAll, count_addAll counts h]

/-- The tables hold the same count for each type, in whatever order. -/
def Alike (counts counts' : Counts) : Prop :=
  ∀ ty, Entries.get? counts ty = Entries.get? counts' ty

variable {counts' more' : Counts}

theorem Alike.count (h : counts.Alike counts') (ty : ValueType) : counts.count ty = counts'.count ty := by
  rw [Counts.count, h ty]
  rfl

theorem Alike.contains (h : counts.Alike counts') (ty : ValueType) :
    Entries.contains counts ty = Entries.contains counts' ty := by
  rw [Entries.contains, h ty]
  rfl

theorem Alike.addAll (h : counts.Alike counts') (h' : more.Alike more') (hnodup : (Entries.keys more).Nodup)
    (hnodup' : (Entries.keys more').Nodup) : (counts.addAll more).Alike (counts'.addAll more') := by
  intro ty
  rw [get?_addAll _ hnodup, get?_addAll _ hnodup', h.contains, h'.contains, h.count, h'.count]

/-- It does not matter which table is added first. -/
theorem alike_addAll_comm (counts : Counts) (h : (Entries.keys more).Nodup) (h' : (Entries.keys more').Nodup) :
    ((counts.addAll more).addAll more').Alike ((counts.addAll more').addAll more) := by
  intro ty
  rw [get?_addAll _ h', get?_addAll _ h, contains_addAll, contains_addAll, count_addAll _ h, count_addAll _ h',
    Bool.or_right_comm, add_right_comm]

end Counts

namespace Tally

variable {tally tally' : Tally}

/-- The tallies hold the same counts and the same total. -/
structure Alike (tally tally' : Tally) : Prop where
  counts : tally.counts.Alike tally'.counts
  total : tally.total = tally'.total

/-- Nothing that can be asked of the tallies tells them apart. -/
theorem Alike.answers (h : tally.Alike tally') :
    tally.count = tally'.count ∧ tally.types = tally'.types ∧ tally.probable? = tally'.probable? ∧
      tally.probability = tally'.probability := by
  have hcount : tally.count = tally'.count := funext h.counts.count
  have hseen : tally.seen = tally'.seen := by
    unfold seen
    simp only [h.counts.contains]
  have hgiven : tally.compareGiven = tally'.compareGiven := by
    funext s t
    rw [compareGiven, compareGiven, hcount]
  have htypes : tally.types = tally'.types := by rw [types, types, hseen, hgiven]
  refine ⟨hcount, htypes, by rw [probable?_eq, probable?_eq, htypes], ?_⟩
  funext ty
  rw [probability, probability, isEmpty, isEmpty, hcount, h.total]

end Tally

/-! ## Entries -/

namespace LearnedEntry

variable {entry entry' loaded : LearnedEntry}

/-- There is one count for each type, and the time is a number of 64 bits. -/
structure Sound (entry : LearnedEntry) : Prop where
  counts : (Entries.keys entry.counts).Nodup
  updated : entry.updated < 2 ^ 64

theorem sound_default : ({} : LearnedEntry).Sound :=
  ⟨.nil, by decide⟩

/-- Adds the counts of another entry; the time is the later one. -/
def absorb (entry loaded : LearnedEntry) : LearnedEntry :=
  { counts := entry.counts.addAll loaded.counts, updated := max entry.updated loaded.updated }

theorem Sound.absorb (h : entry.Sound) (h' : loaded.Sound) : (entry.absorb loaded).Sound :=
  ⟨Counts.nodup_addAll h.counts _, Nat.max_lt.2 ⟨h.updated, h'.updated⟩⟩

theorem Sound.saved (h : entry.Sound) : entry.saved.Sound :=
  ⟨entry.nodup_saved, h.updated⟩

/-- The entries hold the same counts and the same time. -/
structure Alike (entry entry' : LearnedEntry) : Prop where
  counts : entry.counts.Alike entry'.counts
  updated : entry.updated = entry'.updated

theorem alike_saved (entry : LearnedEntry) : entry.saved.Alike entry :=
  ⟨entry.get?_saved, rfl⟩

theorem Alike.absorb (h : entry.Alike entry') {loaded' : LearnedEntry} (hloaded : loaded.Alike loaded')
    (hsound : loaded.Sound) (hsound' : loaded'.Sound) : (entry.absorb loaded).Alike (entry'.absorb loaded') :=
  ⟨h.counts.addAll hloaded.counts hsound.counts hsound'.counts, by
    rw [LearnedEntry.absorb, LearnedEntry.absorb, h.updated, hloaded.updated]⟩

/-- It does not matter which entry is absorbed first. -/
theorem alike_absorb_comm (entry : LearnedEntry) {loaded' : LearnedEntry} (h : loaded.Sound) (h' : loaded'.Sound) :
    ((entry.absorb loaded).absorb loaded').Alike ((entry.absorb loaded').absorb loaded) :=
  ⟨Counts.alike_addAll_comm entry.counts h.counts h'.counts, Nat.max_right_comm ..⟩

end LearnedEntry

theorem Entries.nodup_keys_merge {κ α : Type} [DecidableEq κ] {entries : Entries κ α} (h : entries.keys.Nodup)
    (more : Entries κ α) : (Entries.merge entries more).keys.Nodup := by
  induction more generalizing entries with
  | nil => exact h
  | cons entry rest ih => exact ih (nodup_keys_insert h entry.1 entry.2)

/-! ## Decoded entries -/

namespace Snapshot

variable {α : Type}

theorem decodeNat?_lt {top fuel n : Nat} {bytes rest : List UInt8}
    (h : decodeNat? top (fuel + 1) bytes = some (n, rest)) : n < 128 ^ fuel * (top + 1) := by
  induction fuel generalizing bytes rest n with
  | zero =>
    cases bytes with
    | nil => cases h
    | cons b bytes =>
      rw [decodeNat?] at h
      split at h
      · split at h
        · cases h
        · next hlast =>
          cases h
          simp at hlast
          omega
      · cases h
  | succ fuel ih =>
    cases bytes with
    | nil => cases h
    | cons b bytes =>
      have hpositive : 1 ≤ 128 ^ fuel * (top + 1) := Nat.mul_pos (Nat.pow_pos (by decide)) (Nat.succ_pos top)
      have hgroup : 128 ^ (fuel + 1) * (top + 1) = 128 * (128 ^ fuel * (top + 1)) := by
        rw [Nat.pow_succ, Nat.mul_comm _ 128, Nat.mul_assoc]
      have hbyte : b.toNat < 256 := b.toNat_lt
      rw [decodeNat?] at h
      split at h
      · cases h
        omega
      · obtain ⟨⟨m, _⟩, hm, heq⟩ := Option.map_eq_some_iff.1 h
        have := ih hm
        cases heq
        omega

theorem decodeWord?_lt {n : Nat} {bytes rest : List UInt8} (h : decodeWord? bytes = some (n, rest)) : n < 2 ^ 64 :=
  decodeNat?_lt h

/-- What holds of every item that can be read holds of all items of a list. -/
theorem forall_decodeMany? {item : List UInt8 → Option (α × List UInt8)} {P : α → Prop}
    (hitem : ∀ bytes a rest, item bytes = some (a, rest) → P a) {fuel count : Nat} {bytes rest : List UInt8}
    {items : List α} (h : decodeMany? item fuel count bytes = some (items, rest)) : ∀ a ∈ items, P a := by
  induction fuel generalizing count bytes items with
  | zero =>
    cases count with
    | zero =>
      cases h
      exact fun _ h => nomatch h
    | succ count => cases h
  | succ fuel ih =>
    cases count with
    | zero =>
      cases h
      exact fun _ h => nomatch h
    | succ count =>
      simp only [decodeMany?, bind, Option.bind_eq_some_iff] at h
      obtain ⟨⟨a, bytes⟩, ha, ⟨more, _⟩, hmore, heq⟩ := h
      cases heq
      exact List.forall_mem_cons.2 ⟨hitem _ _ _ ha, ih hmore⟩

/-- Whatever the bytes are, an entry that is read has one count for each type. -/
theorem sound_decodeEntry? {bytes rest : List UInt8} {key : String} {entry : LearnedEntry}
    (h : decodeEntry? bytes = some ((key, entry), rest)) : entry.Sound := by
  simp only [ decodeEntry?, bind, Option.bind_eq_some_iff] at h
  obtain ⟨_, -, ⟨counts, _⟩, -, ⟨updated, _⟩, hupdated, heq⟩ := h
  cases heq
  have none : (Entries.keys ([] : Counts)).Nodup := List.nodup_nil
  exact ⟨Entries.nodup_keys_merge none counts, decodeWord?_lt hupdated⟩

theorem sound_decode? {bytes : List UInt8} {loaded : Entries String LearnedEntry} (h : decode? bytes = some loaded) :
    ∀ part ∈ loaded, part.2.Sound := by
  obtain ⟨⟨items, _⟩, hitems, rfl⟩ := Option.map_eq_some_iff.1 h
  simp only [decodeList?, bind, Option.bind_eq_some_iff] at hitems
  obtain ⟨_, -, hmany⟩ := hitems
  exact forall_decodeMany? (fun _ _ _ => sound_decodeEntry?) hmany

end Snapshot

/-! ## Tables -/

namespace Learner

variable {learner other : Learner} {operation : String} {inputs : List InputShape} {key : String} {now : Nat}

/-- There is one entry for each signature. -/
structure Sound (learner : Learner) : Prop where
  keys : (Entries.keys learner.entries).Nodup
  entry : ∀ part ∈ learner.entries, part.2.Sound

/-- The entry under a key, or a new one. -/
def entryAt (learner : Learner) (key : String) : LearnedEntry :=
  (Entries.get? learner.entries key).getD {}

theorem Sound.entryAt (h : learner.Sound) (key : String) : (learner.entryAt key).Sound := by
  unfold Learner.entryAt
  cases hkey : Entries.get? learner.entries key with
  | none => exact LearnedEntry.sound_default
  | some entry => exact h.entry _ (Entries.mem_of_get?_eq_some hkey)

theorem Sound.insert (h : learner.Sound) (key : String) {entry : LearnedEntry} (hentry : entry.Sound) :
    ({ learner with entries := Entries.insert learner.entries key entry } : Learner).Sound := by
  refine ⟨Entries.nodup_keys_insert h.keys key entry, fun part hpart => ?_⟩
  rcases Entries.mem_insert hpart with hpart | rfl
  · exact h.entry part hpart
  · exact hentry

/-- Adds a loaded entry to what is there under its key. -/
def absorb (learner : Learner) (part : String × LearnedEntry) : Learner :=
  { learner with entries := Entries.insert learner.entries part.1 ((learner.entryAt part.1).absorb part.2) }

theorem Sound.absorb (h : learner.Sound) {part : String × LearnedEntry} (hpart : part.2.Sound) :
    (learner.absorb part).Sound :=
  h.insert part.1 ((h.entryAt part.1).absorb hpart)

/-- A merge takes in one entry after another, those that are not too old. -/
theorem merge_eq (learner : Learner) (now : Nat) (loaded : Entries String LearnedEntry) :
    learner.merge now loaded =
      let fresh := loaded.filter fun part => !learner.isStale now part.2
      (fresh.foldl Learner.absorb learner, fresh.length) := by
  exact Prod.ext (List.foldl_hom (fun entries => { learner with entries }) fun _ _ => rfl).symm rfl

theorem Sound.foldl_absorb (h : learner.Sound) {parts : List (String × LearnedEntry)}
    (hparts : ∀ part ∈ parts, part.2.Sound) : (parts.foldl Learner.absorb learner).Sound := by
  induction parts generalizing learner with
  | nil => exact h
  | cons part rest ih =>
    exact ih (h.absorb (hparts part List.mem_cons_self)) fun part hpart =>
      hparts part (List.mem_cons_of_mem _ hpart)

theorem Sound.merge (h : learner.Sound) (now : Nat) {loaded : Entries String LearnedEntry}
    (hloaded : ∀ part ∈ loaded, part.2.Sound) : (learner.merge now loaded).1.Sound := by
  rw [merge_eq]
  exact h.foldl_absorb fun part hpart => hloaded part (List.mem_filter.1 hpart).1

/-- Counts one result under a key. -/
def count (now : Nat) (output : ValueType) (learner : Learner) (key : String) : Learner :=
  { learner with
    entries := Entries.insert learner.entries key
      { counts := (learner.entryAt key).counts.add output 1, updated := now } }

/-- A result is counted under one key after another. -/
theorem learn_eq (learner : Learner) (now : Nat) (operation : String) (inputs : List InputShape)
    (output : ValueType) : learner.learn now operation inputs output =
      (learner.callKeys operation inputs).foldl (Learner.count now output) learner :=
  (List.foldl_hom (fun entries => { learner with entries }) fun _ _ => rfl).symm

theorem Sound.learn (h : learner.Sound) (hnow : now < 2 ^ 64) (operation : String) (inputs : List InputShape)
    (output : ValueType) : (learner.learn now operation inputs output).Sound := by
  rw [learn_eq]
  generalize learner.callKeys operation inputs = keys
  induction keys generalizing learner with
  | nil => exact h
  | cons key keys ih =>
    exact ih (h.insert key ⟨Entries.nodup_keys_insert (h.entryAt key).counts output _, hnow⟩)

/-- The ways in which a host comes to a learner. -/
inductive Built : Learner → Prop where
  | new (expiry : Option Nat) : Built { expiry }
  | learn {before : Learner} {now : Nat} (h : Built before) (hnow : now < 2 ^ 64) (operation : String)
    (inputs : List InputShape) (output : ValueType) : Built (before.learn now operation inputs output)
  | load {before : Learner} (h : Built before) {bytes : List UInt8} {loaded : Entries String LearnedEntry}
    (hread : Snapshot.decode? bytes = some loaded) (now : Nat) : Built (before.merge now loaded).1
  | clear {before : Learner} (h : Built before) : Built before.clear

theorem Built.sound (h : learner.Built) : learner.Sound := by
  induction h with
  | new expiry => exact ⟨.nil, fun _ h => nomatch h⟩
  | learn _ hnow operation inputs output ih => exact ih.learn hnow operation inputs output
  | load _ hread now ih => exact ih.merge now (Snapshot.sound_decode? hread)
  | clear _ _ => exact ⟨.nil, fun _ h => nomatch h⟩

/-! ## Looking up -/

theorem lookup_eq (learner : Learner) (keys : List String) :
    learner.lookup keys = keys.foldl (fun tally key => tally.addAll (learner.countsAt key)) {} := by
  unfold lookup countsAt
  congr 1
  funext tally key
  cases Entries.get? learner.entries key <;> rfl

theorem summed_lookup (learner : Learner) (keys : List String) : (learner.lookup keys).Summed := by
  rw [lookup_eq]
  exact List.foldlRecOn keys _ Tally.summed_empty fun _ h key _ => h.addAll (learner.countsAt key)

theorem countsAt_eq (learner : Learner) (key : String) : learner.countsAt key = (learner.entryAt key).counts := by
  unfold countsAt entryAt
  cases Entries.get? learner.entries key <;> rfl

theorem Sound.countsAt (h : learner.Sound) (key : String) : (Entries.keys (learner.countsAt key)).Nodup := by
  rw [countsAt_eq]
  exact (h.entryAt key).counts

/-- What is looked up is the sum of what is there under the keys. -/
theorem Sound.count_lookup (h : learner.Sound) (keys : List String) (ty : ValueType) :
    (learner.lookup keys).count ty = (keys.map fun key => (learner.countsAt key).count ty).sum := by
  have step (tally : Tally) : (keys.foldl (fun tally key => tally.addAll (learner.countsAt key)) tally).count ty =
      tally.count ty + (keys.map fun key => (learner.countsAt key).count ty).sum := by
    induction keys generalizing tally with
    | nil => simp
    | cons key keys ih =>
      rw [List.foldl_cons, ih, Tally.count_addAll (h.countsAt key), List.map_cons, List.sum_cons, add_assoc]
  rw [lookup_eq, step, Tally.count_empty, zero_add]

/-! ## Learners that are alike -/

/-- The tables hold alike entries under the same keys. -/
def AlikeTables (table table' : Entries String LearnedEntry) : Prop :=
  ∀ key, Option.Rel LearnedEntry.Alike (Entries.get? table key) (Entries.get? table' key)

/-- The learners hold alike entries, and entries that are as old expire for them. -/
structure Alike (learner learner' : Learner) : Prop where
  expiry : learner.expiry = learner'.expiry
  entries : AlikeTables learner.entries learner'.entries

variable {learner' : Learner}

theorem Alike.countsAt (h : learner.Alike learner') (key : String) :
    (learner.countsAt key).Alike (learner'.countsAt key) := by
  have hkey := h.entries key
  unfold Learner.countsAt
  revert hkey
  cases Entries.get? learner.entries key <;> cases Entries.get? learner'.entries key
  · exact fun _ _ => rfl
  · exact fun h => nomatch h
  · exact fun h => nomatch h
  · rintro ⟨h⟩
    exact h.counts

theorem Alike.lookup (h : learner.Alike learner') (hsound : learner.Sound) (hsound' : learner'.Sound)
    (keys : List String) : (learner.lookup keys).Alike (learner'.lookup keys) := by
  have hcounts : (learner.lookup keys).counts.Alike (learner'.lookup keys).counts := by
    rw [lookup_eq, lookup_eq]
    have step {tally tally' : Tally} (htally : tally.counts.Alike tally'.counts) :
        (keys.foldl (fun tally key => tally.addAll (learner.countsAt key)) tally).counts.Alike
          (keys.foldl (fun tally key => tally.addAll (learner'.countsAt key)) tally').counts := by
      induction keys generalizing tally tally' with
      | nil => exact htally
      | cons key keys ih =>
        refine ih ?_
        rw [Counts.counts_addAll, Counts.counts_addAll]
        exact htally.addAll (h.countsAt key) (hsound.countsAt key) (hsound'.countsAt key)
    exact step fun _ => rfl
  refine ⟨hcounts, ?_⟩
  rw [learner.summed_lookup keys, learner'.summed_lookup keys]
  exact congrArg List.sum (List.map_congr_left fun ty _ => hcounts.count ty)

mutual

theorem Alike.candidates (h : learner.Alike learner') (hsound : learner.Sound) (hsound' : learner'.Sound) :
    ∀ input, learner.candidates input = learner'.candidates input
  | .known _ => by rw [Learner.candidates, Learner.candidates]
  | .unknown => by rw [Learner.candidates, Learner.candidates]
  | .pending operation inputs => by
    have hinputs := h.allCandidates hsound hsound' inputs
    rw [Learner.candidates, Learner.candidates, hinputs, (h.lookup hsound hsound' _).answers.2.1]

theorem Alike.allCandidates (h : learner.Alike learner') (hsound : learner.Sound) (hsound' : learner'.Sound) :
    ∀ inputs, learner.allCandidates inputs = learner'.allCandidates inputs
  | [] => rfl
  | input :: inputs => by
    rw [Learner.allCandidates, Learner.allCandidates, h.candidates hsound hsound' input,
      h.allCandidates hsound hsound' inputs]

end

/-- Learners that are alike expand a call to the same signatures, and predict the same for it. -/
theorem Alike.predict (h : learner.Alike learner') (hsound : learner.Sound) (hsound' : learner'.Sound)
    (operation : String) (inputs : List InputShape) :
    (learner.predict operation inputs).Alike (learner'.predict operation inputs) := by
  have hkeys : learner.callKeys operation inputs = learner'.callKeys operation inputs := by
    rw [callKeys, callKeys, h.allCandidates hsound hsound']
  rw [Learner.predict, Learner.predict, hkeys]
  exact h.lookup hsound hsound' _

end Learner

end Reactor
