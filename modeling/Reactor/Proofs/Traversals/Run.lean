import Reactor.Proofs.Queues.Calls
import Reactor.Proofs.Traversals.Ends

/-!
# Queues and lambdas that hold themselves

`Filling` lists the calls by which a host makes queues and lambdas and fills them: with items and with
results. As long as no call puts something into a queue that a traversal of it comes to, and no lambda comes
to keep a result from which a traversal comes to the lambda, every traversal ends. The first call that does
so makes a value that contains itself, and traversals of it never end (`Filling.traversals_end`).
-/

namespace Reactor

/-- A call of a host that makes a queue or a lambda or fills one. -/
inductive Filling where
  | queue (items : List Value)
  | push (id : QueueId) (item : Value)
  | take (id : QueueId)
  | lambda (record : LambdaRecord)
  | force (k : LambdaId)

namespace Filling

/-- What a call does. -/
def act : Filling → Eval Unit
  | .queue items => do let _ ← Eval.newQueue items
  | .push id item => do let _ ← (Value.queue id).write item true
  | .take id => do let _ ← (Value.queue id).read false true
  | .lambda record => do let _ ← LambdaId.new record
  | .force k => do let _ ← k.force

/-- The state in which a lambda is being computed. -/
def begun (ctx : Context) (w : World) (k : LambdaId) : World :=
  w.modifyLambda k (.begun ctx.thread.id)

/-- A call whose effect is that of the call alone: items are ready, nobody is told of them, and the
computation of a lambda leaves queues and lambdas as they are. -/
def Fits (ctx : Context) (w : World) : Filling → Prop
  | .queue items => ∀ x ∈ items, w.Ready x
  | .push id item => id.index < w.queues.size ∧ (w.queueAt id).subscribers = [] ∧ w.Ready item
  | .take _ => True
  | .lambda record => record.cache = .empty
  | .force k => k.index < w.lambdas.size ∧ (w.lambdaAt k).fixable = true ∧ (w.lambdaAt k).cache = .empty ∧
      (k.evaluate ctx (begun ctx w k)).Leaves fun _ v =>
        v.queues = w.queues ∧ v.lambdas = (begun ctx w k).lambdas

/-- A call that closes a circle: what it puts into a queue leads to the queue, or the result that a lambda
comes to keep leads to the lambda. -/
def Closes (ctx : Context) (w : World) : Filling → Prop
  | .push id item => w.Meets item (.queue id)
  | .force k => ∃ x v, k.evaluate ctx (begun ctx w k) = .value x v ∧ w.Meets x (.lambda k)
  | _ => False

end Filling

namespace World

variable {u w : World} {closes : Prop} {added : List Value} {id : QueueId} {k : LambdaId}

/-- A state has come from another one by a call that filled a queue or a lambda, or emptied some. -/
inductive Filled (w u : World) (closes : Prop) : Prop
  | less (h : ∀ v, u.parts v ⊆ w.parts v) (hcloses : ¬closes)
  | more {node : Data} {added : List Value} (h : w.Gains u node added)
    (hcloses : closes ↔ ∃ x ∈ added, w.Meets x node)

theorem Filled.grounded (h : w.Filled u closes) (hw : w.Grounded) (hopen : ¬closes) : u.Grounded := by
  cases h with
  | less h _ => exact fun v => (hw v).imp fun n hv => hv.of_subset h
  | more h hcloses => exact h.grounded hw fun x hx hmeets => hopen (hcloses.2 ⟨x, hx, hmeets⟩)

theorem Filled.exists_coils (h : w.Filled u closes) (hcloses : closes) : ∃ v, u.Coils v := by
  cases h with
  | less _ hopen => exact absurd hcloses hopen
  | @more node _ h hiff =>
    obtain ⟨x, hx, hmeets⟩ := hiff.1 hcloses
    exact ⟨.mk node {}, h.coils rfl hx hmeets⟩

/-! ## Parts of a changed state -/

theorem parts_subset (hqueues : ∀ id, (u.queueAt id).items ⊆ (w.queueAt id).items)
    (hlambdas : ∀ k, (u.lambdaAt k).kept ⊆ (w.lambdaAt k).kept) (v : Value) : u.parts v ⊆ w.parts v := by
  obtain ⟨data, notes⟩ := v
  cases data with
  | queue id => exact hqueues id
  | lambda k => exact hlambdas k
  | _ => exact List.Subset.refl _

theorem gains_queue (hhere : (u.queueAt id).items = (w.queueAt id).items ++ added)
    (helsewhere : ∀ other, other ≠ id → (u.queueAt other).items = (w.queueAt other).items)
    (hlambdas : ∀ k, (u.lambdaAt k).kept = (w.lambdaAt k).kept) : w.Gains u (.queue id) added := by
  refine ⟨fun {v} h => ?_, fun {v} h => ?_⟩
  · rw [parts, parts, h]
    exact hhere
  · obtain ⟨data, notes⟩ := v
    cases data with
    | queue other => exact helsewhere other fun heq => h (congrArg Data.queue heq)
    | lambda k => exact hlambdas k
    | _ => rfl

theorem gains_lambda (hhere : (u.lambdaAt k).kept = (w.lambdaAt k).kept ++ added)
    (helsewhere : ∀ other, other ≠ k → (u.lambdaAt other).kept = (w.lambdaAt other).kept)
    (hqueues : u.queues = w.queues) : w.Gains u (.lambda k) added := by
  have queue (id : QueueId) : u.queueAt id = w.queueAt id := by rw [queueAt, queueAt, hqueues]
  refine ⟨fun {v} h => ?_, fun {v} h => ?_⟩
  · rw [parts, parts, h]
    exact hhere
  · obtain ⟨data, notes⟩ := v
    cases data with
    | queue id =>
      show (u.queueAt id).items = (w.queueAt id).items
      rw [queue]
    | lambda other => exact helsewhere other fun heq => h (congrArg Data.lambda heq)
    | _ => rfl

/-- A lambda that does not keep a result yet adds no parts. -/
theorem kept_addDependent (w : World) (source dependent k : LambdaId) :
    ((w.addDependent source dependent).1.lambdaAt k).kept = (w.lambdaAt k).kept := by
  unfold addDependent
  split
  · rfl
  · show ((w.modifyLambda source _).lambdaAt k).kept = _
    rw [lambdaAt_modifyLambda]
    split <;> rfl

theorem kept_foldl_addDependent (w : World) (sources : List LambdaId) (dependent k : LambdaId) :
    ((sources.foldl (fun w source => (w.addDependent source dependent).1) w).lambdaAt k).kept =
      (w.lambdaAt k).kept := by
  induction sources generalizing w with
  | nil => rfl
  | cons source sources ih => rw [List.foldl_cons, ih, kept_addDependent]

theorem queues_foldl_addDependent (w : World) (sources : List LambdaId) (dependent : LambdaId) :
    (sources.foldl (fun w source => (w.addDependent source dependent).1) w).queues = w.queues := by
  induction sources generalizing w with
  | nil => rfl
  | cons source sources ih =>
    rw [List.foldl_cons, ih]
    unfold addDependent
    split <;> rfl

end World

namespace Filling

variable {ctx : Context} {u v w : World} {id : QueueId} {k : LambdaId} {item : Value}

/-! ## What each call does -/

theorem newQueue_leaves {items : List Value} (h : ∀ x ∈ items, w.Ready x) :
    (Eval.newQueue items ctx w).Leaves fun _ u => w.Filled u False := by
  obtain ⟨shared, marks, run, same⟩ := Value.exists_shareAll items ctx w
  unfold Eval.newQueue
  rw [Eval.bind_apply, run, Outcome.bind_value, Eval.modifyGet_apply]
  have queueAt (other : QueueId) : World.queueAt
      { w with marks, queues := w.queues.push ({ items := shared } : QueueRecord) } other =
        if other.index = w.queues.size then { items := shared } else w.queueAt other :=
    World.getD_push ..
  refine .value (.more (show World.Gains _ _ (.queue ⟨w.queues.size⟩) shared from World.gains_queue ?_
    (fun other hne => ?_) fun _ => rfl) ⟨False.elim, ?_⟩)
  · rw [queueAt, if_pos rfl, World.queueAt, World.getD_of_le _ _ (Nat.le_refl _)]
    rfl
  · rw [queueAt, if_neg fun heq => hne (congrArg QueueId.mk heq)]
  · rintro ⟨x, hx, hmeets⟩
    obtain ⟨y, hy, heq⟩ : ∃ y ∈ items, y.unmark = x.unmark := by
      have hmem : x.unmark ∈ items.map Value.unmark := same ▸ List.mem_map_of_mem hx
      exact List.mem_map.1 hmem
    obtain ⟨z, hto, hdata⟩ := hmeets.of_unmark_eq (World.queue_of_dataUnmark_eq _) heq
    exact absurd ((h y hy z hto).1 _ hdata) (Nat.lt_irrefl _)

/-- Nobody is told of an item. -/
theorem push_apply (h : (w.queueAt id).subscribers = []) (item : Value) :
    Queue.push id item ctx w =
      .value () (w.modifyQueue id fun q => { q with items := q.items ++ [item] }) := by
  have untold : ((w.modifyQueue id fun q => { q with items := q.items ++ [item] }).queueAt id).subscribers =
      [] := by
    rw [World.queueAt_modifyQueue]
    split <;> exact h
  unfold Queue.push Queue.publish
  rw [Eval.bind_apply, Eval.modify_apply, Outcome.bind_value, Eval.bind_apply, Eval.gets_apply,
    Outcome.bind_value, untold]
  rfl

/-- A fixed item is shared, and goes into the queue. -/
theorem share_push_leaves (hid : id.index < w.queues.size) (hsubscribers : (w.queueAt id).subscribers = [])
    {a : Value} (ha : w.SameQueues item a) :
    ((do
      let a ← a.share
      Eval.holding a.places ((Resource.queue id).write a true) : Eval Value) ctx w).Leaves fun _ u =>
        w.Filled u (w.Meets item (.queue id)) := by
  rw [Eval.bind_apply, Value.share_apply, Outcome.bind_value, Eval.holding_apply]
  have written : (Resource.queue id).write (a.markFrom w.marks).1 true =
      (Queue.push id (a.markFrom w.marks).1 >>= fun _ => pure (a.markFrom w.marks).1) := rfl
  have untold : (World.queueAt { w with marks := (a.markFrom w.marks).2 } id).subscribers = [] := hsubscribers
  rw [written, Eval.bind_apply, push_apply untold, Outcome.bind_value]
  have queueAt (other : QueueId) := World.queueAt_modifyQueue { w with marks := (a.markFrom w.marks).2 }
    id other fun q => { q with items := q.items ++ [(a.markFrom w.marks).1] }
  refine .value (.more (show World.Gains _ _ (.queue id) [(a.markFrom w.marks).1] from
    World.gains_queue ?_ (fun other hne => ?_) fun _ => rfl) ?_)
  · rw [queueAt, if_pos ⟨rfl, hid⟩]
    rfl
  · rw [queueAt, if_neg fun h => hne h.1.symm]
    rfl
  · have copy : (a.markFrom w.marks).1.unmark = a.unmark := Value.unmark_markFrom w.marks a
    have hqueue := World.queue_of_dataUnmark_eq id
    rw [← ha id]
    refine ⟨fun h => ⟨_, List.mem_singleton_self _, h.of_unmark_eq hqueue copy⟩, ?_⟩
    rintro ⟨x, hx, hmeets⟩
    rw [List.mem_singleton.1 hx] at hmeets
    exact hmeets.of_unmark_eq hqueue copy.symm

theorem write_leaves (hid : id.index < w.queues.size) (hsubscribers : (w.queueAt id).subscribers = [])
    (hitem : w.Ready item) (hctx : ctx.Recalls w) :
    ((Value.queue id).write item true ctx w).Leaves fun _ u =>
      w.Filled u (w.Meets item (.queue id)) := by
  unfold Value.write
  rw [Value.requireStream_of_isQueue (.inl rfl), pure_bind, Eval.holding_apply]
  have fixed := @Value.gives_fixDeep_same _ _ _ hctx hitem
    { ctx.thread with held := [(Resource.queue id).place] ++ ctx.thread.held } (Nat.le_refl _) w rfl
  refine Eval.leaves_bind fixed.leaves ?_ fun e _ h => ?_
  · rintro a v ⟨hv, _, ⟨⟩, ha⟩
    subst hv
    exact share_push_leaves hid hsubscribers ha
  · obtain ⟨-, _, he, -⟩ := h
    cases he

theorem front?_leaves : (Queue.front? id true ctx w).Leaves fun _ u => w.Filled u False := by
  unfold Queue.front?
  rw [Eval.modifyGet_apply]
  cases hitems : (w.queueAt id).items with
  | nil => exact .value (.less (fun _ => List.Subset.refl _) not_false)
  | cons item items =>
    refine .value (.less (World.parts_subset (fun other => ?_) fun _ => List.Subset.refl _) not_false)
    show ((w.modifyQueue id _).queueAt other).items ⊆ _
    rw [World.queueAt_modifyQueue]
    split
    · rename_i found
      rw [← found.1, hitems]
      exact List.subset_cons_self item items
    · exact List.Subset.refl _

theorem read_leaves : ((Value.queue id).read false true ctx w).Leaves fun _ u => w.Filled u False := by
  unfold Value.read
  rw [Value.stream?_of_isQueue (.inl rfl), pure_bind]
  show (((do return (← Queue.front? id true).getD .void) : Eval Value) _ w).Leaves _
  exact Eval.leaves_bind front?_leaves (fun _ _ h => .value h) fun _ _ h => h

theorem new_leaves {record : LambdaRecord} (h : record.cache = .empty) :
    (LambdaId.new record ctx w).Leaves fun _ u => w.Filled u False := by
  rw [World.new_apply]
  refine .value (.less (World.parts_subset (fun other => ?_) fun k => ?_) not_false)
  · rw [World.queueAt, World.queues_foldl_addDependent]
    exact List.Subset.refl _
  · rw [World.kept_foldl_addDependent, World.lambdaAt, World.getD_push]
    split
    · rw [LambdaRecord.kept, h]
      exact List.nil_subset _
    · exact List.Subset.refl _

theorem force_leaves (hk : k.index < w.lambdas.size) (hfix : (w.lambdaAt k).fixable = true)
    (hcache : (w.lambdaAt k).cache = .empty)
    (hcompute : (k.evaluate ctx (begun ctx w k)).Leaves fun _ v =>
      v.queues = w.queues ∧ v.lambdas = (begun ctx w k).lambdas) :
    (k.force ctx w).Leaves fun _ u => w.Filled u ((Filling.force k).Closes ctx w) := by
  rw [LambdaId.force_of_empty hfix hcache]
  show ((_ : Eval Value) ctx (begun ctx w k)).Leaves _
  rw [Eval.bind_apply, Eval.attempt_apply]
  rcases hcompute with hrun | hrun
  · rw [hrun]
    exact .inl rfl
  obtain ⟨r, v, run, hqueues, hlambdas⟩ := Outcome.yields_iff.1 hrun
  have hkept : (w.lambdaAt k).kept = [] := by rw [LambdaRecord.kept, hcache]
  have queueAt (id : QueueId) : v.queueAt id = w.queueAt id := by rw [World.queueAt, hqueues, World.queueAt]
  have settled (j : LambdaId) : (v.modifyLambda k
      (LambdaId.settle ctx.thread.id (w.lambdaAt k).generation r)).lambdaAt j =
        if k = j then LambdaId.settle ctx.thread.id (w.lambdaAt k).generation r
          ((w.lambdaAt k).begun ctx.thread.id)
        else w.lambdaAt j := by
    have lambdaAt : v.lambdaAt j = (begun ctx w k).lambdaAt j := by
      rw [World.lambdaAt, hlambdas, World.lambdaAt]
    have hsize : v.lambdas.size = w.lambdas.size := by
      rw [hlambdas]
      exact Array.size_modify ..
    rw [World.lambdaAt_modifyLambda, lambdaAt, begun, World.lambdaAt_modifyLambda, hsize]
    by_cases hj : k = j
    · subst hj
      rw [if_pos ⟨rfl, hk⟩, if_pos ⟨rfl, hk⟩, if_pos rfl]
    · rw [if_neg fun h => hj h.1, if_neg fun h => hj h.1, if_neg hj]
  rw [run]
  cases r with
  | ok x =>
    have hcache' : (LambdaId.settle ctx.thread.id (w.lambdaAt k).generation (.ok x)
        ((w.lambdaAt k).begun ctx.thread.id)).cache = .holding x :=
      @LambdaId.settle_ok ctx.thread.id ((w.lambdaAt k).begun ctx.thread.id) x rfl
    refine .value (.more (show World.Gains _ _ (.lambda k) [x] from
      World.gains_lambda ?_ (fun j hj => ?_) hqueues) ?_)
    · rw [settled, if_pos rfl, hkept, LambdaRecord.kept, hcache']
      rfl
    · rw [settled, if_neg fun h => hj h.symm]
    · constructor
      · rintro ⟨y, _, run', hmeets⟩
        cases run.symm.trans run'
        exact ⟨x, List.mem_singleton_self x, hmeets⟩
      · rintro ⟨y, hy, hmeets⟩
        exact ⟨x, v, run, List.mem_singleton.1 hy ▸ hmeets⟩
  | error e =>
    have hcache' : (LambdaId.settle ctx.thread.id (w.lambdaAt k).generation (.error e)
        ((w.lambdaAt k).begun ctx.thread.id)).cache = .empty := LambdaId.settle_error rfl
    refine .error (.less (World.parts_subset (fun id => ?_) fun j => ?_) ?_)
    · show (v.queueAt id).items ⊆ _
      rw [queueAt]
      exact List.Subset.refl _
    · rw [settled]
      split
      · rw [LambdaRecord.kept, hcache']
        exact List.nil_subset _
      · exact List.Subset.refl _
    · rintro ⟨y, _, run', -⟩
      cases run.symm.trans run'

/-- Each call fills a queue or a lambda, or empties some. -/
theorem leaves {call : Filling} (hctx : ctx.Recalls w) (hfits : call.Fits ctx w) :
    (call.act ctx w).Leaves fun _ u => w.Filled u (call.Closes ctx w) := by
  have ended {α : Type} {act : Eval α} {closes : Prop}
      (h : (act ctx w).Leaves fun _ u => w.Filled u closes) :
      ((do let _ ← act : Eval Unit) ctx w).Leaves fun _ u => w.Filled u closes :=
    Eval.leaves_bind h (fun _ _ h => .value h) fun _ _ h => h
  cases call with
  | queue items => exact ended (newQueue_leaves hfits)
  | push id item => exact ended (write_leaves hfits.1 hfits.2.1 hfits.2.2 hctx)
  | take id => exact ended read_leaves
  | lambda record => exact ended (new_leaves hfits)
  | force k => exact ended (force_leaves hfits.1 hfits.2.1 hfits.2.2.1 hfits.2.2.2)

/-! ## Runs -/

/-- A host gets from one state to another by calls that fit and close no circle. -/
inductive Reaches (ctx : Context) (w : World) : World → Prop
  | start : Reaches ctx w w
  | step {v u : World} {call : Filling} {r : Except Error Unit} (h : Reaches ctx w v)
    (hfits : call.Fits ctx v) (hopen : ¬call.Closes ctx v) (run : call.act ctx v = .done r u) :
    Reaches ctx w u

variable {budget : Nat} {thread : Thread}

theorem Reaches.grounded (hw : w.Grounded)
    (h : Reaches (.ofBudget (budget + 1) thread) w v) : v.Grounded := by
  induction h with
  | start => exact hw
  | step _ hfits hopen run ih =>
    have filled := Outcome.Leaves.of_done (run ▸ leaves (Context.recalls_ofBudget budget thread _) hfits)
    exact filled.grounded ih hopen

/-- After calls of which none has closed a circle: if the next one does not either, every traversal of every
ready value ends, and if it does, a value comes to contain itself, and traversals of it never end. -/
theorem traversals_end (hw : w.Grounded) (h : Reaches (.ofBudget (budget + 1) thread) w v)
    {call : Filling} (hfits : call.Fits (.ofBudget (budget + 1) thread) v) {r : Except Error Unit}
    (run : call.act (.ofBudget (budget + 1) thread) v = .done r u) :
    (¬call.Closes (.ofBudget (budget + 1) thread) v → ∀ x y, u.Ready x → u.Ready y →
      ∃ enough, ∀ size ≥ enough, ∀ thread, x.TraversalsEnd y (.ofBudget size thread) u) ∧
    (call.Closes (.ofBudget (budget + 1) thread) v → ∃ x, u.Coils x ∧ (u.Ready x →
      ∀ size thread, x.toTree (.ofBudget size thread) u = .exhausted)) := by
  have filled := Outcome.Leaves.of_done (run ▸ leaves (Context.recalls_ofBudget budget thread _) hfits)
  refine ⟨fun hopen x y hx hy => ?_, fun hcloses => ?_⟩
  · obtain ⟨n, hflat⟩ := filled.grounded (h.grounded hw) hopen x
    exact ⟨n, fun size hsize thread => hx.traversalsEnd hy hflat hsize thread⟩
  · obtain ⟨x, hcoils⟩ := filled.exists_coils hcloses
    exact ⟨x, hcoils, fun hx => hx.toTree_eq_exhausted hcoils.not_flat⟩

end Filling

/-- A runtime with one queue. -/
def World.ofQueue (items : List Value) : World :=
  { bare with queues := #[{ items }] }

namespace World

variable {items : List Value} {x y : Value}

theorem queueAt_ofQueue (items : List Value) : ((ofQueue items).queueAt ⟨0⟩).items = items := rfl

theorem grounded_ofQueue : (ofQueue []).Grounded := by
  refine grounded_of_unfilled (fun id => ?_) fun k => ?_
  · match id with
    | ⟨0⟩ => rfl
    | ⟨i + 1⟩ =>
      rw [queueAt, getD_of_le _ _ (Nat.succ_le_succ (Nat.zero_le i))]
      rfl
  · rw [lambdaAt, getD_of_le _ _ (Nat.zero_le _)]
    rfl

/-- A traversal of a queue comes to nothing else if it comes to nothing else from its items. -/
theorem ready_ofQueue (h : ∀ x ∈ items, x.data = .queue ⟨0⟩ ∨ (ofQueue items).parts x = [] ∧
    ∀ id k, x.data ≠ .queue id ∧ x.data ≠ .lambda k) : (ofQueue items).Ready (.queue ⟨0⟩) := by
  have all (v y : Value) (hto : (ofQueue items).Unfolds v y) (hv : v.data = .queue ⟨0⟩ ∨
      (ofQueue items).parts v = [] ∧ ∀ id k, v.data ≠ .queue id ∧ v.data ≠ .lambda k) :
      y.data = .queue ⟨0⟩ ∨ ∀ id k, y.data ≠ .queue id ∧ y.data ≠ .lambda k := by
    induction hto with
    | refl v => exact hv.imp_right And.right
    | @part v x _ hx _ ih =>
      refine ih ?_
      rcases hv with hv | hv
      · rw [parts_congr_data _ (show v.data = (Value.queue ⟨0⟩).data from hv)] at hx
        exact h x hx
      · rw [hv.1] at hx
        cases hx
  intro y hto
  rcases all _ y hto (.inl rfl) with hy | hy
  · refine ⟨fun id hid => ?_, fun k hk => ?_⟩
    · cases hy.symm.trans hid
      exact Nat.zero_lt_one
    · cases hy.symm.trans hk
  · exact ⟨fun id hid => absurd hid (hy id ⟨0⟩).1, fun k hk => absurd hk (hy ⟨0⟩ k).2⟩

end World

theorem Filling.push_ofQueue {item : Value} (h : item = .integer 1 ∨ item = .queue ⟨0⟩) :
    (Filling.push ⟨0⟩ item).act (.ofBudget 2 { id := 0 }) (.ofQueue []) = .value () (.ofQueue [item]) := by
  rcases h with rfl | rfl <;> rfl

/-- A number goes into a queue, or the queue into itself. -/
theorem Filling.traversals_end_ofQueue :
    (∃ enough, ∀ size ≥ enough, ∀ thread, (Value.queue ⟨0⟩).TraversalsEnd (.queue ⟨0⟩)
      (.ofBudget size thread) (.ofQueue [.integer 1])) ∧
    ∃ x, (World.ofQueue [.queue ⟨0⟩]).Coils x := by
  have unfold_integer (y : Value) (h : (World.ofQueue []).Unfolds (.integer 1) y) : y = .integer 1 := by
    cases h with
    | refl => rfl
    | part hx _ => cases hx
  have pushed : (Filling.push ⟨0⟩ (.integer 1)).Fits (.ofBudget 2 { id := 0 }) (.ofQueue []) := by
    refine ⟨Nat.zero_lt_one, rfl, fun y hy => ?_⟩
    rw [unfold_integer y hy]
    exact ⟨nofun, nofun⟩
  have itself : (Filling.push ⟨0⟩ (.queue ⟨0⟩)).Fits (.ofBudget 2 { id := 0 }) (.ofQueue []) :=
    ⟨Nat.zero_lt_one, rfl, World.ready_ofQueue nofun⟩
  have number : (World.ofQueue [.integer 1]).Ready (.queue ⟨0⟩) := by
    refine World.ready_ofQueue fun x hx => .inr ?_
    rw [List.mem_singleton.1 hx]
    exact ⟨rfl, fun _ _ => ⟨nofun, nofun⟩⟩
  constructor
  · refine (traversals_end World.grounded_ofQueue .start pushed
      (r := .ok ()) (push_ofQueue (.inl rfl))).1 ?_ _ _ number number
    rintro ⟨y, hy, hdata⟩
    rw [unfold_integer y hy] at hdata
    cases hdata
  · obtain ⟨x, hx, -⟩ := (traversals_end World.grounded_ofQueue .start itself
      (r := .ok ()) (push_ofQueue (.inr rfl))).2 ⟨_, .refl _, rfl⟩
    exact ⟨x, hx⟩

/-- It is not so that traversals always end: a queue that was pushed into itself is the first of its own
items, and neither a tree nor a copy of it is ever finished. -/
theorem Filling.queue_holds_itself :
    (Filling.push ⟨0⟩ (.queue ⟨0⟩)).act (.ofBudget 2 { id := 0 }) (.ofQueue []) =
        .value () (.ofQueue [.queue ⟨0⟩]) ∧
      ((World.ofQueue [.queue ⟨0⟩]).queueAt ⟨0⟩).items = [.queue ⟨0⟩] ∧
      ∀ size thread,
        (Value.queue ⟨0⟩).toTree (.ofBudget size thread) (.ofQueue [.queue ⟨0⟩]) = .exhausted ∧
        (Value.queue ⟨0⟩).copy (.ofBudget size thread) (.ofQueue [.queue ⟨0⟩]) = .exhausted := by
  have ready : (World.ofQueue [.queue ⟨0⟩]).Ready (.queue ⟨0⟩) := by
    refine World.ready_ofQueue fun x hx => .inl ?_
    rw [List.mem_singleton.1 hx]
    rfl
  have coils : (World.ofQueue [.queue ⟨0⟩]).Coils (.queue ⟨0⟩) :=
    ⟨_, List.mem_singleton_self _, _, .refl _, rfl⟩
  have copied (n : Nat) (ctx : Context) :
      Value.copyAt n (.queue ⟨0⟩) ctx (.ofQueue [.queue ⟨0⟩]) = .exhausted := by
    induction n with
    | zero => rfl
    | succ n ih =>
      show ((Eval.gets (fun w => (w.queueAt ⟨0⟩).items) >>= fun items => do
        return Value.withData (.queue ⟨0⟩) (.queue (← Eval.newQueue (← items.mapM (Value.copyAt n))))
          : Eval Value) ctx _) = _
      rw [Eval.bind_apply, Eval.gets_apply, Outcome.bind_value, World.queueAt_ofQueue, List.mapM_cons,
        Eval.bind_apply, Eval.bind_apply, ih]
      rfl
  exact ⟨push_ofQueue (.inr rfl), rfl, fun size thread => ⟨ready.toTree_eq_exhausted coils.not_flat size thread, copied _ _⟩⟩

end Reactor
