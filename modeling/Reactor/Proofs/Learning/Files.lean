import Reactor.Proofs.Learning.Tables
import Reactor.Session.Run

/-!
# Snapshots add up

A merge takes over the entries of a snapshot that are not too old (`fresh`), one signature at a time: what is
under a signature afterwards depends only on what was there before and on what the snapshot has under it
(`absorbed`, `get?_merge_saved`). So look-ups add up over merges (`count_lookup_merge`), two snapshots may be
merged in either order (`alike_merge_comm`), and tables that hold the same counts stay so (`Alike.merge`).

A learner is saved to a file and another one is loaded from it. What is loaded is what was saved
(`Snapshot.decode?_encode`), so the load merges the entries that are not too old (`run_loadLearner`), and what is
under each signature afterwards is what was there before and what was saved (`Learner.count_lookup_merge`).

A call whose inputs all show their types has one signature for every learner, so its predictions add up
(`snapshots_add_up`). An input that shows none is expanded by each learner on its own, and the signatures that
two learners expand a call to need not be those of their merge (`pending_inputs_mix`).
-/

namespace Reactor

/-- With distinct keys, what is found among some of the entries is found among all of them. -/
theorem Entries.get?_filter {κ α : Type} [DecidableEq κ] {entries : Entries κ α} (h : entries.keys.Nodup)
    (p : α → Bool) (key : κ) :
    Entries.get? (entries.filter fun part => p part.2) key = (Entries.get? entries key).filter p := by
  induction entries with
  | nil => rfl
  | cons part rest ih =>
    obtain ⟨k, a⟩ := part
    obtain ⟨new, hrest⟩ := List.nodup_cons.1 h
    have ih := ih hrest
    rw [Entries.get?, List.filter_cons]
    by_cases hk : k = key
    · subst hk
      have none : Entries.get? rest k = none := Option.not_isSome_iff_eq_none.1 (mt Entries.mem_keys_iff.2 new)
      rw [none] at ih
      cases hp : p a <;> simp [Entries.get?, hp, ih, Option.filter]
    · cases p a <;> simp [Entries.get?, hk, ih]

namespace Learner

variable {source target learner : Learner} {key : String} {now : Nat}

/-! ## What is taken over -/

/-- The entries whose last update is not older than the cutoff. -/
def fresh (learner : Learner) (expiry : Option Nat) (now : Nat) : Learner :=
  { learner with
    entries := learner.entries.filter fun part => expiry.all fun age => now - age ≤ part.2.updated }

theorem not_isStale (learner : Learner) (now : Nat) (entry : LearnedEntry) :
    (!learner.isStale now entry) = learner.expiry.all fun age => now - age ≤ entry.updated := by
  unfold isStale
  cases learner.expiry with
  | none => rfl
  | some age =>
    show (!decide (entry.updated < now - age)) = decide (now - age ≤ entry.updated)
    rw [← decide_not, decide_eq_decide]
    exact Nat.not_lt

theorem Sound.fresh (h : learner.Sound) (expiry : Option Nat) (now : Nat) : (learner.fresh expiry now).Sound :=
  ⟨h.keys.sublist (List.filter_sublist.map _), fun part hpart => h.entry part (List.mem_filter.1 hpart).1⟩

/-- Without an expired entry nothing is left out. -/
theorem fresh_eq (h : ∀ part ∈ learner.entries, target.isStale now part.2 = false) :
    learner.fresh target.expiry now = learner := by
  have all : (learner.entries.filter fun part => target.expiry.all fun age => now - age ≤ part.2.updated) =
      learner.entries :=
    List.filter_eq_self.2 fun part hpart => by rw [← not_isStale, h part hpart]; rfl
  rw [fresh, all]

theorem saved_fresh (source target : Learner) (now : Nat) :
    (source.saved.filter fun part => !target.isStale now part.2) = (source.fresh target.expiry now).saved := by
  simp only [saved, fresh, List.filter_map, not_isStale]
  rfl

theorem get?_saved (learner : Learner) (key : String) :
    Entries.get? learner.saved key = (Entries.get? learner.entries key).map LearnedEntry.saved := by
  unfold saved
  induction learner.entries with
  | nil => rfl
  | cons part rest ih =>
    rw [List.map_cons, Entries.get?, Entries.get?, ih]
    split <;> rfl

theorem keys_saved (learner : Learner) : Entries.keys learner.saved = Entries.keys learner.entries := by
  simp [saved, Entries.keys]

theorem merge_saved (target source : Learner) (now : Nat) :
    target.merge now source.saved =
      ((source.fresh target.expiry now).saved.foldl absorb target, (source.fresh target.expiry now).entries.length) := by
  rw [merge_eq, saved_fresh]
  simp [saved]

/-! ## What is there afterwards -/

/-- What is there under a key after what was loaded under it. -/
def absorbed : Option LearnedEntry → Option LearnedEntry → Option LearnedEntry
  | here, none => here
  | here, some loaded => some ((here.getD {}).absorb loaded)

theorem get?_foldl_absorb (learner : Learner) {parts : Entries String LearnedEntry} (h : parts.keys.Nodup)
    (key : String) :
    Entries.get? (parts.foldl absorb learner).entries key =
      absorbed (Entries.get? learner.entries key) (Entries.get? parts key) := by
  induction parts generalizing learner with
  | nil => rfl
  | cons part rest ih =>
    obtain ⟨new, hrest⟩ := List.nodup_cons.1 h
    rw [List.foldl_cons, ih _ hrest, absorb, Entries.get?_insert, Entries.get?]
    split
    · next same =>
      have none : Entries.get? rest key = none :=
        Option.not_isSome_iff_eq_none.1 (mt Entries.mem_keys_iff.2 (same ▸ new))
      rw [none, entryAt, same]
      rfl
    · rfl

theorem get?_merge_saved (target : Learner) (hsource : source.Sound) (now : Nat) (key : String) :
    Entries.get? (target.merge now source.saved).1.entries key =
      absorbed (Entries.get? target.entries key)
        ((Entries.get? (source.fresh target.expiry now).entries key).map LearnedEntry.saved) := by
  have hkeys : (Entries.keys (source.fresh target.expiry now).saved).Nodup := by
    rw [keys_saved]
    exact (hsource.fresh _ now).keys
  rw [merge_saved, get?_foldl_absorb target hkeys, get?_saved]

theorem count_countsAt_merge (target : Learner) (hsource : source.Sound) (now : Nat) (key : String)
    (ty : ValueType) :
    ((target.merge now source.saved).1.countsAt key).count ty =
      (target.countsAt key).count ty + ((source.fresh target.expiry now).countsAt key).count ty := by
  unfold countsAt
  rw [get?_merge_saved target hsource]
  cases hloaded : Entries.get? (source.fresh target.expiry now).entries key with
  | none => exact (add_zero _).symm
  | some loaded =>
    have hadd (counts : Counts) : (counts.addAll loaded.saved.counts).count ty =
        counts.count ty + loaded.counts.count ty := by
      rw [Counts.count_addAll counts loaded.nodup_saved, loaded.alike_saved.counts.count]
    cases Entries.get? target.entries key <;> exact hadd _

theorem Sound.saved (h : learner.Sound) : ∀ part ∈ learner.saved, part.2.Sound := by
  intro part hpart
  obtain ⟨entry, hentry, rfl⟩ := List.mem_map.1 hpart
  exact (h.entry entry hentry).saved

/-- What is looked up adds up. -/
theorem count_lookup_merge (htarget : target.Sound) (hsource : source.Sound) (now : Nat) (keys : List String)
    (ty : ValueType) :
    ((target.merge now source.saved).1.lookup keys).count ty =
      (target.lookup keys).count ty + ((source.fresh target.expiry now).lookup keys).count ty := by
  rw [(htarget.merge now hsource.saved).count_lookup, htarget.count_lookup, (hsource.fresh _ now).count_lookup,
    ← List.sum_map_add]
  exact congrArg List.sum (List.map_congr_left fun key _ => count_countsAt_merge target hsource now key ty)

theorem total_lookup_merge (htarget : target.Sound) (hsource : source.Sound) (now : Nat) (keys : List String) :
    ((target.merge now source.saved).1.lookup keys).total =
      (target.lookup keys).total + ((source.fresh target.expiry now).lookup keys).total := by
  rw [summed_lookup, summed_lookup, summed_lookup, ← List.sum_map_add]
  exact congrArg List.sum (List.map_congr_left fun ty _ => count_lookup_merge htarget hsource now keys ty)

/-- The order of the keys does not matter. -/
theorem Sound.count_lookup_perm (h : learner.Sound) {keys keys' : List String} (hkeys : keys.Perm keys')
    (ty : ValueType) : (learner.lookup keys).count ty = (learner.lookup keys').count ty := by
  rw [h.count_lookup, h.count_lookup]
  exact (hkeys.map _).sum_eq

/-! ## Alike tables, alike merges -/

variable {source' target' other : Learner} {later : Nat}

theorem rel_refl (entry : Option LearnedEntry) : Option.Rel LearnedEntry.Alike entry entry := by
  cases entry with
  | none => exact .none
  | some entry => exact .some ⟨fun _ => rfl, rfl⟩

theorem Alike.refl (learner : Learner) : learner.Alike learner :=
  ⟨rfl, fun _ => rel_refl _⟩

theorem get?_fresh (h : learner.Sound) (expiry : Option Nat) (now : Nat) (key : String) :
    Entries.get? (learner.fresh expiry now).entries key =
      (Entries.get? learner.entries key).filter fun entry => expiry.all fun age => now - age ≤ entry.updated :=
  Entries.get?_filter h.keys (fun entry => expiry.all fun age => now - age ≤ entry.updated) key

theorem expiry_merge (learner : Learner) (now : Nat) (loaded : Entries String LearnedEntry) :
    (learner.merge now loaded).1.expiry = learner.expiry :=
  rfl

/-- Learners that are alike have entries that are alike to take over. -/
theorem Alike.fresh (h : source.Alike source') (hsource : source.Sound) (hsource' : source'.Sound)
    (expiry : Option Nat) (now : Nat) : (source.fresh expiry now).Alike (source'.fresh expiry now) := by
  refine ⟨h.expiry, fun key => ?_⟩
  rw [get?_fresh hsource, get?_fresh hsource']
  have hkey := h.entries key
  revert hkey
  cases Entries.get? source.entries key <;> cases Entries.get? source'.entries key
  · exact fun _ => .none
  · exact fun h => nomatch h
  · exact fun h => nomatch h
  · rintro ⟨h⟩
    simp only [Option.filter, h.updated]
    split
    · exact .some h
    · exact .none

theorem isSome_of_rel {entry entry' : Option LearnedEntry} (h : Option.Rel LearnedEntry.Alike entry entry') :
    entry.isSome = entry'.isSome := by
  cases h <;> rfl

theorem Alike.length_eq (h : source.Alike source') (hsource : source.Sound) (hsource' : source'.Sound) :
    source.entries.length = source'.entries.length := by
  have hkeys : (Entries.keys source.entries).Perm (Entries.keys source'.entries) := by
    rw [List.perm_ext_iff_of_nodup hsource.keys hsource'.keys]
    intro key
    rw [Entries.mem_keys_iff, Entries.mem_keys_iff, isSome_of_rel (h.entries key)]
  simpa [Entries.keys] using hkeys.length_eq

theorem rel_absorbed {here here' loaded loaded' : Option LearnedEntry} (h : Option.Rel LearnedEntry.Alike here here')
    (hloaded : Option.Rel LearnedEntry.Alike loaded loaded') (hsound : ∀ entry ∈ loaded, entry.Sound)
    (hsound' : ∀ entry ∈ loaded', entry.Sound) :
    Option.Rel LearnedEntry.Alike (absorbed here loaded) (absorbed here' loaded') := by
  have hstart : (here.getD {}).Alike (here'.getD {}) := by
    cases h with
    | none => exact ⟨fun _ => rfl, rfl⟩
    | some h => exact h
  cases hloaded with
  | none => exact h
  | some hloaded => exact .some (hstart.absorb hloaded (hsound _ rfl) (hsound' _ rfl))

/-- It does not matter which of two entries is taken over first. -/
theorem rel_absorbed_comm (here : Option LearnedEntry) {first second : Option LearnedEntry}
    (hfirst : ∀ entry ∈ first, entry.Sound) (hsecond : ∀ entry ∈ second, entry.Sound) :
    Option.Rel LearnedEntry.Alike (absorbed (absorbed here first) second) (absorbed (absorbed here second) first) := by
  cases first with
  | none => cases second <;> exact rel_refl _
  | some entry =>
    cases second with
    | none => exact rel_refl _
    | some entry' =>
      exact .some (LearnedEntry.alike_absorb_comm (here.getD {}) (hfirst _ rfl) (hsecond _ rfl))

theorem rel_saved {entry entry' : Option LearnedEntry} (h : Option.Rel LearnedEntry.Alike entry entry') :
    Option.Rel LearnedEntry.Alike (entry.map LearnedEntry.saved) (entry'.map LearnedEntry.saved) := by
  cases h with
  | none => exact .none
  | some h =>
    refine .some ⟨fun ty => ?_, h.updated⟩
    rw [LearnedEntry.get?_saved, LearnedEntry.get?_saved, h.counts ty]

theorem Sound.saved_of_get? (h : learner.Sound) (key : String) :
    ∀ entry ∈ (Entries.get? learner.entries key).map LearnedEntry.saved, entry.Sound := by
  intro entry hentry
  obtain ⟨found, hfound, rfl⟩ := Option.map_eq_some_iff.1 hentry
  exact (h.entry _ (Entries.mem_of_get?_eq_some hfound)).saved

/-- Learners that are alike stay so when they are loaded with learners that are alike, and as many entries are
taken over. -/
theorem Alike.merge (htarget : target.Alike target') (halike : source.Alike source') (hsource : source.Sound)
    (hsource' : source'.Sound) (now : Nat) :
    (target.merge now source.saved).2 = (target'.merge now source'.saved).2 ∧
      (target.merge now source.saved).1.Alike (target'.merge now source'.saved).1 := by
  have hfresh := halike.fresh hsource hsource' target.expiry now
  have hsound := hsource.fresh target.expiry now
  have hsound' := hsource'.fresh target.expiry now
  refine ⟨?_, htarget.expiry, fun key => ?_⟩
  · rw [merge_saved, merge_saved, ← htarget.expiry]
    exact hfresh.length_eq hsound hsound'
  · rw [get?_merge_saved target hsource, get?_merge_saved target' hsource', ← htarget.expiry]
    exact rel_absorbed (htarget.entries key) (rel_saved (hfresh.entries key)) (hsound.saved_of_get? key)
      (hsound'.saved_of_get? key)

theorem fresh_congr {expiry : Option Nat} (h : ∀ part ∈ learner.entries,
      (expiry.all fun age => now - age ≤ part.2.updated) = expiry.all fun age => later - age ≤ part.2.updated) :
    learner.fresh expiry now = learner.fresh expiry later := by
  rw [fresh, fresh, List.filter_congr h]

/-- Two snapshots may be loaded in either order, if as many entries of both are expired at either time. -/
theorem alike_merge_comm (target : Learner) (hsource : source.Sound) (hother : other.Sound)
    (hstale : ∀ part ∈ source.entries ++ other.entries, target.isStale now part.2 = target.isStale later part.2) :
    ((target.merge now source.saved).1.merge later other.saved).1.Alike
      ((target.merge now other.saved).1.merge later source.saved).1 := by
  have same (learner : Learner)
      (h : ∀ part ∈ learner.entries, target.isStale now part.2 = target.isStale later part.2) :
      learner.fresh target.expiry now = learner.fresh target.expiry later :=
    fresh_congr fun part hpart => by rw [← not_isStale, ← not_isStale, h part hpart]
  refine ⟨rfl, fun key => ?_⟩
  rw [get?_merge_saved _ hother, get?_merge_saved _ hsource, get?_merge_saved _ hsource, get?_merge_saved _ hother,
    expiry_merge, expiry_merge, same source fun part hpart => hstale part (List.mem_append_left _ hpart),
    same other fun part hpart => hstale part (List.mem_append_right _ hpart)]
  exact rel_absorbed_comm _ ((hsource.fresh target.expiry later).saved_of_get? key)
    ((hother.fresh target.expiry later).saved_of_get? key)

end Learner

open Reactor.Action (run)

variable {w : World} {scope : ScopeId} {ctx : Context} {file : String} {source target : Option String}

/-! ## Files -/

/-- The state with the contents of a file. -/
def World.withFile (w : World) (file : String) (bytes : List UInt8) : World :=
  w.modifyDesk fun desk => { desk with files := Entries.insert desk.files file bytes }

/-- The state without a file. -/
def World.withoutFile (w : World) (file : String) : World :=
  w.modifyDesk fun desk => { desk with files := Entries.erase desk.files file }

theorem World.learnerNamed_withFile (w : World) (file : String) (bytes : List UInt8) (name : Option String) :
    (w.withFile file bytes).learnerNamed name = w.learnerNamed name := by
  cases name <;> rfl

theorem World.learnerNamed_withoutFile (w : World) (file : String) (name : Option String) :
    (w.withoutFile file).learnerNamed name = w.learnerNamed name := by
  cases name <;> rfl

theorem World.learnerNamed_setLearner (w : World) (learner : Learner) (target name : Option String) :
    (w.setLearner learner target).learnerNamed name = if target = name then learner else w.learnerNamed name := by
  cases target with
  | none => cases name <;> rfl
  | some target =>
    cases name with
    | none => rfl
    | some name =>
      simp only [World.setLearner, World.learnerNamed, World.modifyDesk, Entries.get?_insert, Option.some.injEq]
      split <;> rfl

theorem run_saveLearner (hfile : isFileName file = true) :
    run scope (.saveLearner source file) ctx w =
      .value .done (w.withFile file (Snapshot.encode (w.learnerNamed source))) := by
  simp only [run, writeFile, hfile, if_true]
  rfl

theorem takeFile_of_some {bytes : List UInt8} (h : Entries.get? w.desk.files file = some bytes) :
    takeFile file ctx w = .value bytes (w.withoutFile file) := by
  rw [takeFile, Eval.bind_apply, Eval.gets_apply, Outcome.bind_value, h]
  rfl

theorem loadSnapshot_of_none {bytes : List UInt8} (h : Snapshot.decode? bytes = none) :
    loadSnapshot target bytes ctx w = .error Snapshot.invalid w := by
  rw [loadSnapshot, h]
  rfl

theorem loadSnapshot_of_some {bytes : List UInt8} {loaded : Entries String LearnedEntry}
    (h : Snapshot.decode? bytes = some loaded) :
    loadSnapshot target bytes ctx w =
      let merged := (w.learnerNamed target).merge w.now loaded
      .value merged.2 (w.setLearner merged.1 target) := by
  rw [loadSnapshot, h]
  rfl

theorem run_loadLearner_eq :
    run scope (.loadLearner target file none) =
      (takeFile file >>= fun bytes => loadSnapshot target bytes >>= fun count => pure (.reply (.integer count))) := by
  rw [run]

/-- A load fails if there is no snapshot to be read, and changes no learner then. -/
theorem run_loadLearner_of_none (scope : ScopeId) (ctx : Context) (target : Option String)
    (h : ∀ bytes ∈ Entries.get? w.desk.files file, Snapshot.decode? bytes = none) :
    ∃ e v, run scope (.loadLearner target file none) ctx w = .error e v ∧
      ∀ name, v.learnerNamed name = w.learnerNamed name := by
  rw [run_loadLearner_eq, Eval.bind_apply]
  cases hbytes : Entries.get? w.desk.files file with
  | none =>
    refine ⟨Snapshot.ioFailure, w, ?_, fun _ => rfl⟩
    rw [takeFile, Eval.bind_apply, Eval.gets_apply, Outcome.bind_value, hbytes]
    rfl
  | some bytes =>
    refine ⟨Snapshot.invalid, w.withoutFile file, ?_, w.learnerNamed_withoutFile file⟩
    rw [takeFile_of_some hbytes, Outcome.bind_value, Eval.bind_apply, loadSnapshot_of_none (h bytes hbytes),
      Outcome.bind_error]

theorem run_loadLearner (scope : ScopeId) (ctx : Context) (target : Option String) {bytes : List UInt8}
    {loaded : Entries String LearnedEntry} (h : Entries.get? w.desk.files file = some bytes)
    (hread : Snapshot.decode? bytes = some loaded) :
    run scope (.loadLearner target file none) ctx w =
      let merged := (w.learnerNamed target).merge w.now loaded
      .value (.reply (.integer merged.2)) ((w.withoutFile file).setLearner merged.1 target) := by
  rw [run_loadLearner_eq, Eval.bind_apply, takeFile_of_some h, Outcome.bind_value, Eval.bind_apply,
    loadSnapshot_of_some hread]
  rfl

/-! ## Sums -/

namespace Learner

/-- What a merged learner holds for each signature is what the two learners hold for it together. -/
structure AddedTo (added target merged : Learner) : Prop where
  lookup : ∀ keys ty, (merged.lookup keys).count ty = (target.lookup keys).count ty + (added.lookup keys).count ty
  total : ∀ keys, (merged.lookup keys).total = (target.lookup keys).total + (added.lookup keys).total
  /-- If the learners expand a call to the same signatures, their predictions add up. -/
  predict : ∀ operation inputs, (merged.callKeys operation inputs).Perm (target.callKeys operation inputs) →
    (merged.callKeys operation inputs).Perm (added.callKeys operation inputs) → ∀ ty,
      (merged.predict operation inputs).count ty =
        (target.predict operation inputs).count ty + (added.predict operation inputs).count ty
  /-- A call whose inputs all show their types is expanded to one signature by every learner. -/
  predicted : ∀ (app : Application) ty,
    (app.predicted merged).count ty = (app.predicted target).count ty + (app.predicted added).count ty

theorem addedTo_merge {target source : Learner} (htarget : target.Sound) (hsource : source.Sound) (now : Nat) :
    (source.fresh target.expiry now).AddedTo target (target.merge now source.saved).1 := by
  have lookup := count_lookup_merge htarget hsource now
  refine ⟨lookup, total_lookup_merge htarget hsource now, fun operation inputs hkeys hkeys' ty => ?_, fun app ty => ?_⟩
  · unfold Learner.predict
    rw [lookup, htarget.count_lookup_perm hkeys, (hsource.fresh _ now).count_lookup_perm hkeys']
  · rw [Application.predicted_eq, Application.predicted_eq, Application.predicted_eq, lookup]

/-- Loads a snapshot at some time; also gives the number of entries that are taken over. -/
def load? (learner : Learner) (now : Nat) (bytes : List UInt8) : Option (Learner × Nat) :=
  (Snapshot.decode? bytes).map (learner.merge now)

/-- Loads one snapshot and later another one. -/
def loadTwo? (learner : Learner) (now later : Nat) (first second : List UInt8) : Option (Learner × Nat) := do
  let (loaded, _) ← learner.load? now first
  loaded.load? later second

theorem load?_encode {source : Learner} (h : source.Fits) (target : Learner) (now : Nat) :
    target.load? now (Snapshot.encode source) = some (target.merge now source.saved) := by
  rw [load?, Snapshot.decode?_encode h, Option.map_some]

theorem loadTwo?_encode {first second : Learner} (h : first.Fits) (h' : second.Fits) (target : Learner)
    (now later : Nat) : target.loadTwo? now later (Snapshot.encode first) (Snapshot.encode second) =
      some ((target.merge now first.saved).1.merge later second.saved) := by
  rw [loadTwo?, load?_encode h]
  exact load?_encode h' _ later

section

variable {a : Learner}

theorem save_writes (hfile : isFileName file = true) (hsource : w.learnerNamed source = a) :
    ∃ v, run scope (.saveLearner source file) ctx w = .value .done v ∧
      Entries.get? v.desk.files file = some (Snapshot.encode a) ∧
        ∀ name, v.learnerNamed name = w.learnerNamed name := by
  refine ⟨_, run_saveLearner hfile, ?_, World.learnerNamed_withFile w file _⟩
  rw [hsource]
  exact (Entries.get?_insert ..).trans (if_pos rfl)

theorem load_adds (ha : a.Sound) (hfits : a.Fits)
    (hbytes : Entries.get? w.desk.files file = some (Snapshot.encode a)) (hb : (w.learnerNamed target).Sound) :
    let b := w.learnerNamed target
    let kept := a.fresh b.expiry w.now
    ∃ v, run scope (.loadLearner target file none) ctx w = .value (.reply (.integer kept.entries.length)) v ∧
      kept.AddedTo b (v.learnerNamed target) ∧
        ∀ name, name ≠ target → v.learnerNamed name = w.learnerNamed name := by
  intro b kept
  have hrun := run_loadLearner scope ctx target hbytes (Snapshot.decode?_encode hfits)
  rw [Learner.merge_saved] at hrun
  refine ⟨_, hrun, ?_, fun name hname => ?_⟩
  · rw [World.learnerNamed_setLearner, if_pos rfl, ← Learner.merge_saved]
    exact Learner.addedTo_merge hb ha w.now
  · rw [World.learnerNamed_setLearner, if_neg (Ne.symm hname), World.learnerNamed_withoutFile]

theorem loads_commute (ha : a.Sound) (hfits : a.Fits) {other b : Learner} (hother : other.Sound)
    (hfits' : other.Fits) (hb : b.Sound) {now later : Nat}
    (hstale : ∀ part ∈ a.entries ++ other.entries, b.isStale now part.2 = b.isStale later part.2) :
    ∃ one two, b.loadTwo? now later (Snapshot.encode a) (Snapshot.encode other) = some one ∧
      b.loadTwo? now later (Snapshot.encode other) (Snapshot.encode a) = some two ∧ one.1.Alike two.1 ∧
      (∀ operation inputs, (one.1.predict operation inputs).Alike (two.1.predict operation inputs)) ∧
      ∀ (receiver : Learner) (moment : Nat),
        (receiver.merge moment one.1.saved).2 = (receiver.merge moment two.1.saved).2 ∧
          (receiver.merge moment one.1.saved).1.Alike (receiver.merge moment two.1.saved).1 := by
  have alike := Learner.alike_merge_comm b ha hother hstale
  have hone := (hb.merge now ha.saved).merge later hother.saved
  have htwo := (hb.merge now hother.saved).merge later ha.saved
  exact ⟨_, _, Learner.loadTwo?_encode hfits hfits' b now later, Learner.loadTwo?_encode hfits' hfits b now later,
    alike, alike.predict hone htwo, fun receiver moment => (Learner.Alike.refl receiver).merge alike hone htwo moment⟩

end

/-- **Snapshots add up.** Assume that a learner is saved to a file, and that another one is loaded from it.

The load takes over the entries that are not older than the cutoff, all of them if none is, and gives their
number. What the loaded learner then holds for each signature is the sum of what it held before and of what was
taken over, as 64-bit words, and so is what it predicts for a call whose inputs all show their types, or for
one that all expand to the same signatures. Other learners do not change.

Two snapshots may be loaded in either order, if the same entries are expired at either time: the predictions
are the same after it, for whatever calls, and so are the entries that later loads from it take over.

A load from a file that is not there, or whose bytes are no snapshot, fails and changes no learner. -/
theorem snapshots_add_up {a : Learner} (ha : a.Built) (hfits : a.Fits) (scope : ScopeId) (ctx : Context) :
    (∀ (w : World) (source : Option String) (file : String), isFileName file = true → w.learnerNamed source = a →
      ∃ v, run scope (.saveLearner source file) ctx w = .value .done v ∧
        Entries.get? v.desk.files file = some (Snapshot.encode a) ∧
          ∀ name, v.learnerNamed name = w.learnerNamed name) ∧
    (∀ (w : World) (target : Option String) (file : String),
      Entries.get? w.desk.files file = some (Snapshot.encode a) → (w.learnerNamed target).Built →
        let b := w.learnerNamed target
        let kept := a.fresh b.expiry w.now
        ∃ v, run scope (.loadLearner target file none) ctx w = .value (.reply (.integer kept.entries.length)) v ∧
          kept.AddedTo b (v.learnerNamed target) ∧
            ∀ name, name ≠ target → v.learnerNamed name = w.learnerNamed name) ∧
    (∀ (b : Learner) (now : Nat), (∀ part ∈ a.entries, b.isStale now part.2 = false) → a.fresh b.expiry now = a) ∧
    (∀ (other b : Learner) (now later : Nat), other.Built → other.Fits → b.Built →
      (∀ part ∈ a.entries ++ other.entries, b.isStale now part.2 = b.isStale later part.2) →
        ∃ one two, b.loadTwo? now later (Snapshot.encode a) (Snapshot.encode other) = some one ∧
          b.loadTwo? now later (Snapshot.encode other) (Snapshot.encode a) = some two ∧ one.1.Alike two.1 ∧
          (∀ operation inputs, (one.1.predict operation inputs).Alike (two.1.predict operation inputs)) ∧
          ∀ (receiver : Learner) (moment : Nat),
            (receiver.merge moment one.1.saved).2 = (receiver.merge moment two.1.saved).2 ∧
              (receiver.merge moment one.1.saved).1.Alike (receiver.merge moment two.1.saved).1) ∧
    ∀ (w : World) (target : Option String) (file : String),
      (∀ bytes ∈ Entries.get? w.desk.files file, Snapshot.decode? bytes = none) →
        ∃ e v, run scope (.loadLearner target file none) ctx w = .error e v ∧
          ∀ name, v.learnerNamed name = w.learnerNamed name :=
  ⟨fun _ _ _ => save_writes, fun _ _ _ hbytes hb => load_adds ha.sound hfits hbytes hb.sound,
    fun _ _ => Learner.fresh_eq,
    fun _ _ _ _ hother hfits' hb => loads_commute ha.sound hfits hother.sound hfits' hb.sound,
    fun _ target _ => run_loadLearner_of_none scope ctx target⟩

/-- One learner has seen a string for a call, the other one has seen a boolean for it. A third learner that
takes entries of the last ten milliseconds may be loaded from either first, and a file that is not there cannot be
loaded. -/
theorem snapshots_add_up_once :
    let a : Learner := ({} : Learner).learn 7 "f" [.known .integer] .string
    let b : Learner := ({} : Learner).learn 5 "f" [.known .integer] .boolean
    let third : Learner := { expiry := some 10 }
    let w : World := { desk := { learners := [("a", a), ("b", b)] } }
    let ctx : Context :=
      { thread := default, budget := 1, evaluate := fun _ _ _ _ _ => .exhausted
        force := fun _ _ _ => .exhausted }
    (∃ v v', run ⟨0⟩ (.saveLearner (some "a") "file") ctx w = .value .done v ∧
      run ⟨0⟩ (.loadLearner (some "b") "file" none) ctx v = .value (.reply (.integer 1)) v' ∧
        ∀ ty, ((v'.learnerNamed (some "b")).lookup ["f(Integer)"]).count ty =
          (b.lookup ["f(Integer)"]).count ty + (a.lookup ["f(Integer)"]).count ty) ∧
    (∃ one two, third.loadTwo? 12 14 (Snapshot.encode a) (Snapshot.encode b) = some one ∧
      third.loadTwo? 12 14 (Snapshot.encode b) (Snapshot.encode a) = some two ∧ one.1.Alike two.1) ∧
    ∃ e v, run ⟨0⟩ (.loadLearner (some "b") "missing" none) ctx w = .error e v ∧
      v.learnerNamed (some "b") = b := by
  intro a b third w ctx
  have ha : a.Built := .learn (.new none) (by decide) ..
  have hb : b.Built := .learn (.new none) (by decide) ..
  have hfits : a.Fits := ⟨by decide, by decide, by decide⟩
  have hfits' : b.Fits := ⟨by decide, by decide, by decide⟩
  obtain ⟨save, load, whole, order, fails⟩ := snapshots_add_up ha hfits ⟨0⟩ ctx
  obtain ⟨v, hsave, hbytes, hsame⟩ := save w (some "a") "file" (by decide) (by decide)
  have htarget : v.learnerNamed (some "b") = b := (hsame _).trans (by decide)
  obtain ⟨v', hload, added, -⟩ := load v (some "b") "file" hbytes (htarget ▸ hb)
  rw [htarget] at hload added
  have hkept : a.fresh b.expiry v.now = a := whole b v.now fun _ _ => rfl
  rw [hkept] at hload added
  obtain ⟨one, two, hone, htwo, halike, -⟩ := order b third 12 14 hb hfits' (.new _) (by decide)
  obtain ⟨e, u, hfails, hleft⟩ := fails w (some "b") "missing" (by rintro _ ⟨⟩)
  exact ⟨⟨v, v', hsave, hload, added.lookup _⟩, ⟨one, two, hone, htwo, halike⟩, e, u, hfails,
    (hleft _).trans (by decide)⟩

/-- Only the first learner has seen results of the outer call, for a string, and only the second one has seen
that the inner call gives a string. Neither has a prediction for the outer call on an inner one that is yet to
be computed; together they have. -/
theorem pending_inputs_mix :
    let a : Learner := ({} : Learner).learn 7 "outer" [.known .string] .boolean
    let b : Learner := ({} : Learner).learn 5 "inner" [] .string
    let merged := (b.merge 7 a.saved).1
    let predicted (learner : Learner) := learner.predict "outer" [.pending "inner" []]
    b.load? 7 (Snapshot.encode a) = some (merged, 1) ∧
      (predicted merged).count .boolean = 1 ∧ (predicted a).count .boolean = 0 ∧ (predicted b).count .boolean = 0 := by
  intro a b merged predicted
  have hfits : a.Fits := ⟨by decide, by decide, by decide⟩
  have hcount : (b.merge 7 a.saved).2 = 1 := by decide
  exact ⟨hcount ▸ Learner.load?_encode hfits b 7, by decide +kernel⟩

end Learner

end Reactor
