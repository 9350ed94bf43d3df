import Reactor.Proofs.Traits.Operators
import Reactor.Script.Answer
import Reactor.Value.Stream
import Reactor.Value.Tree

/-!
# Traits of the work with resources

Fixing, copying and reading values, and the operations on queues and cells. Writing to a queue runs its
subscribers.
-/

namespace Reactor.Trait

variable {T : Trait} {α : Type}

/-! ## Fixing -/

theorem has_parallelThreshold (items : List Value) :
    T.Has (Value.parallelThreshold items) :=
  .ite (T.has_gets fun _ _ => rfl) (T.has_pure _)

theorem has_onPool {act : Eval α} (h : T.Has act) : T.Has (Value.onPool act) := by
  exact T.has_thread.bind fun thread => .ite h (T.has_onNewThread h true)

section Items

variable {fix : Value → Eval Value} (h : ∀ v, T.Has (fix v))
include h

theorem has_fixEach (done items : List Value) : T.Has (Value.fixEach fix done items) := by
  induction items generalizing done with
  | nil => exact T.has_pure _
  | cons item items ih => exact (h item).bind fun _ => (ih _).holding _

theorem has_fixAll (done items : List Value) (failure : Option Error) :
    T.Has (Value.fixAll fix done failure items) := by
  induction items generalizing done failure with
  | nil =>
    cases failure with
    | none => exact T.has_pure _
    | some e => exact T.has_fail e
  | cons item items ih =>
    refine (h item).attempt.bind fun result => ?_
    cases result with
    | ok _ => exact (ih _ _).holding _
    | error _ => exact ih _ _

theorem has_fixItems (parallel : Bool) (items : List Value) :
    T.Has (Value.fixItems fix parallel items) :=
  (has_parallelThreshold items).bind fun _ =>
    .ite (has_fixAll (fun v => has_onPool (h v)) _ _ _) (has_fixEach h _ _)

end Items

/-- A value that has been computed is fixed to some depth by fixing what it is made of. -/
theorem has_fixParts {fix : Value → Eval Value} (h : ∀ v, T.Has (fix v)) (depth : Nat)
    (parallel : Bool) (v : Value) : T.Has (v.onForced fun v => do
      if depth = 0 then return v
      match v.data with
      | .list items => return v.withData (.list (← Value.fixItems fix parallel items))
      | .sequence items => return v.withData (.sequence (← Value.fixItems fix parallel items))
      | .map entries =>
        let fixed ← Value.fixItems fix parallel (Entries.values entries)
        return v.withData (.map ((Entries.keys entries).zip fixed))
      | .range start stop =>
        let start ← fix start
        let stop ← Eval.holding start.places (fix stop)
        return v.withData (.range start stop)
      | _ => return v) := by
  refine has_onForced fun v => .ite (T.has_pure v) ?_
  have items := has_fixItems h parallel
  cases v.data with
  | list _ => exact (items _).andReturn _
  | sequence _ => exact (items _).andReturn _
  | map _ => exact (items _).andReturn _
  | range start stop => exact (h _).bind fun _ => ((h _).holding _).andReturn _
  | _ => exact T.has_pure _

theorem has_fixAt (budget depth : Nat) (parallel : Bool) (v : Value) :
    T.Has (Value.fixAt budget depth parallel v) := by
  induction budget generalizing depth v with
  | zero =>
    cases depth with
    | zero => exact T.has_pure _
    | succ _ => exact T.has_exhausted
  | succ budget ih =>
    cases depth with
    | zero => exact T.has_pure _
    | succ depth =>
      have rest := has_fixParts (ih depth) depth parallel
      unfold Value.fixAt
      cases v.lambda? with
      | none => exact (T.has_pure true).bind fun _ => .ite (T.has_pure v) (rest v)
      | some id =>
        exact Has.bind (T.has_gets fun _ _ => rfl) fun _ => .ite (T.has_pure v) (rest v)

theorem has_fixDepth (v : Value) (depth : Nat) (parallel : Bool) :
    T.Has (v.fixDepth depth parallel) :=
  T.has_budget.bind fun budget => has_fixAt budget depth parallel v

theorem has_fix (v : Value) (parallel : Bool) : T.Has (v.fix parallel) :=
  has_fixDepth v 1 parallel

theorem has_fixDeep (v : Value) (parallel : Bool) : T.Has (v.fixDeep parallel) :=
  has_fixDepth v _ parallel

theorem has_copyAt (depth : Nat) (v : Value) : T.Has (v.copyAt depth) := by
  induction depth generalizing v with
  | zero => exact T.has_exhausted
  | succ depth ih =>
    unfold Value.copyAt
    have items (xs : List Value) : T.Has (xs.mapM (Value.copyAt depth)) := has_mapM ih xs
    cases v.data with
    | list xs => exact (items xs).andReturn _
    | sequence xs => exact (items xs).andReturn _
    | map entries => exact (has_mapM (fun entry => (ih entry.2).andReturn _) entries).andReturn _
    | range start stop => exact (ih start).bind fun _ => (ih stop).andReturn _
    | queue id =>
      exact (has_items id).bind fun xs => (items xs).bind fun _ => (has_newQueue _).andReturn _
    | _ => exact T.has_pure _

theorem has_copy (v : Value) : T.Has v.copy :=
  T.has_budget.bind fun depth => has_copyAt depth v

/-! ## Reading texts -/

mutual

theorem has_ofTree (json : Json) : T.Has (Value.ofTree json) := by
  match json with
  | .null => exact T.has_pure _
  | .boolean _ => exact T.has_pure _
  | .integer _ => exact T.has_pure _
  | .decimal _ => exact T.has_pure _
  | .string _ => exact T.has_pure _
  | .array items =>
    unfold Value.ofTree
    exact (has_ofTrees items).andReturn _
  | .object members =>
    unfold Value.ofTree
    split
    · split
      · exact has_ofExcept _
      · split
        · exact (has_ofValues _ members members).andReturn _
        · exact (has_ofValues _ members members).bind fun _ => (has_newQueue _).andReturn _
        · exact (has_ofMember _ _ members members).bind fun _ =>
            (has_ofMember _ _ members members).andReturn _
        · exact has_ofEntries members members
        · exact T.has_fail _
    · exact (has_ofMembers members).andReturn _

theorem has_ofTrees (items : List Json) : T.Has (Value.ofTrees items) := by
  match items with
  | [] => exact T.has_pure _
  | json :: rest => exact (has_ofTree json).bind fun _ => (has_ofTrees rest).andReturn _

theorem has_ofMembers (members : List (String × Json)) : T.Has (Value.ofMembers members) := by
  match members with
  | [] => exact T.has_pure _
  | (_, json) :: rest => exact (has_ofTree json).bind fun _ => (has_ofMembers rest).andReturn _

theorem has_ofMember (name key : String) (all members : List (String × Json)) :
    T.Has (Value.ofMember name key all members) := by
  match members with
  | [] => exact T.has_fail _
  | (_, json) :: rest =>
    unfold Value.ofMember
    exact .ite (has_ofTree json) (has_ofMember name key all rest)

theorem has_ofValues (name : String) (all members : List (String × Json)) :
    T.Has (Value.ofValues name all members) := by
  match members with
  | [] => exact T.has_fail _
  | (_, json) :: rest =>
    unfold Value.ofValues
    refine .ite ?_ (has_ofValues name all rest)
    match json with
    | .array items => exact has_ofTrees items
    | .null => exact T.has_fail _
    | .boolean _ => exact T.has_fail _
    | .integer _ => exact T.has_fail _
    | .decimal _ => exact T.has_fail _
    | .string _ => exact T.has_fail _
    | .object _ => exact T.has_fail _

theorem has_ofEntries (all members : List (String × Json)) :
    T.Has (Value.ofEntries all members) := by
  match members with
  | [] => exact T.has_fail _
  | (_, json) :: rest =>
    unfold Value.ofEntries
    refine .ite ?_ (has_ofEntries all rest)
    match json with
    | .object entries => exact (has_ofMembers entries).andReturn _
    | .null => exact T.has_fail _
    | .boolean _ => exact T.has_fail _
    | .integer _ => exact T.has_fail _
    | .decimal _ => exact T.has_fail _
    | .string _ => exact T.has_fail _
    | .array _ => exact T.has_fail _

end

theorem has_ofJson (text : String) : T.Has (Value.ofJson text) := by
  unfold Value.ofJson
  split
  · exact has_ofTree _
  · exact T.has_fail _

theorem has_parseJson (v : Value) : T.Has v.parseJson :=
  (has_human v).bind fun text => has_ofJson text

/-! ## Queues and cells -/

theorem has_front (id : QueueId) (mutating : Bool) : T.Has (Queue.front? id mutating) := by
  refine T.has_modifyGet (fun w l => ?_) fun w => ?_
  · rw [show (w.withLearner l).queueAt id = w.queueAt id from rfl]
    cases (w.queueAt id).items with
    | nil => rfl
    | cons item items => cases mutating <;> rfl
  · cases (w.queueAt id).items with
    | nil => exact .refl w
    | cons item items =>
      cases mutating with
      | false => exact .refl w
      | true => exact .queue id (List.Subset.refl _)

theorem has_push (id : QueueId) (value : Value) : T.Has (Queue.push id value) :=
  (has_modify (fun _ _ => rfl) fun _ => .queue id (List.Subset.refl _)).bind fun _ =>
    T.has_publish id value

theorem has_now : T.Has (Eval.gets World.now) :=
  T.has_gets fun _ _ => rfl

theorem has_await (id : QueueId) (timeout : Option Nat) (mutating : Bool) :
    T.Has (Queue.await id timeout mutating) := by
  refine (has_front id mutating).bind fun found => ?_
  cases found with
  | some item => exact T.has_pure item
  | none =>
    exact has_now.bind fun _ => (T.has_wait _).bind fun _ => (has_front id mutating).andReturn _

theorem has_resourceRead (resource : Resource) (blocking mutating : Bool) :
    T.Has (resource.read blocking mutating) := by
  cases resource with
  | queue id => exact .ite (has_await id none mutating) ((has_front id mutating).andReturn _)
  | cell id =>
    unfold Resource.read
    refine has_aside (fun _ _ => ?_) (fun _ => ?_) fun _ => ?_
    · cases mutating <;> rfl
    · cases mutating <;> exact ⟨⟨rfl, rfl, rfl, rfl⟩, rfl, rfl⟩
    · cases mutating <;> rfl

theorem has_readTimeout (resource : Resource) (millis : Nat) (mutating : Bool) :
    T.Has (resource.readTimeout millis mutating) := by
  cases resource with
  | queue id => exact has_await id _ mutating
  | cell id => exact has_resourceRead (.cell id) true mutating

theorem has_resourceWrite (resource : Resource) (value : Value) (mutating : Bool) :
    T.Has (resource.write value mutating) := by
  cases resource with
  | queue id =>
    exact .ite ((has_push id value).bind fun _ => T.has_pure _)
      ((T.has_publish id value).bind fun _ => T.has_pure _)
  | cell id =>
    refine .ite (Has.bind ?_ fun _ => T.has_pure _) (T.has_pure _)
    exact has_modify (fun _ _ => rfl) fun _ => .aside ⟨⟨rfl, rfl, rfl, rfl⟩, rfl, rfl⟩

theorem has_resourceUnsubscribe (resource : Resource) (subscription : String) :
    T.Has (resource.unsubscribe subscription) := by
  cases resource with
  | queue id =>
    refine T.has_modifyGet (fun w l => ?_) fun w => ?_
    · rw [show (w.withLearner l).queueAt id = w.queueAt id from rfl]
      split <;> rfl
    · split
      · exact .queue id fun _ h => Entries.mem_of_mem_erase h
      · exact .refl w
  | cell id => exact T.has_pure _

theorem has_resourceDrain (resource : Resource) : T.Has resource.drain := by
  cases resource with
  | queue id =>
    unfold Resource.drain
    exact T.has_modifyGet (fun _ _ => rfl) fun _ => .queue id (List.Subset.refl _)
  | cell id => exact T.has_fail _

theorem has_namedQueue (name : String) : T.Has (Uri.namedQueue name) := by
  refine Has.bind (T.has_gets fun _ _ => rfl) fun found => ?_
  cases found with
  | some id => exact T.has_pure id
  | none =>
    refine (has_newQueue []).bind fun id => Has.bind ?_ fun _ => T.has_pure id
    exact has_modify (fun _ _ => rfl) fun _ => .aside ⟨⟨rfl, rfl, rfl, rfl⟩, rfl, rfl⟩

theorem has_resolve (text : String) : T.Has (Uri.resolve text) := by
  unfold Uri.resolve
  dsimp only
  split
  · exact (has_namedQueue _).andReturn _
  · exact .ite (T.has_fail _) ((has_newCell _).andReturn _)
  · exact T.has_fail _

/-! ## Streams -/

theorem has_stream (v : Value) : T.Has v.stream? := by
  refine (has_forced v).bind fun v => ?_
  split
  · exact T.has_pure _
  · exact (has_ofExcept _).andReturn _
  · exact T.has_pure _

theorem has_requireStream (v : Value) (operation : String) :
    T.Has (v.requireStream operation) := by
  refine (has_stream v).bind fun found => ?_
  cases found with
  | some resource => exact T.has_pure resource
  | none => exact (has_type v).bind fun _ => T.has_fail _

theorem has_read (v : Value) (blocking mutating : Bool) : T.Has (v.read blocking mutating) := by
  refine (has_stream v).bind fun found => ?_
  cases found with
  | some resource => exact (has_resourceRead resource blocking mutating).holding _
  | none => exact has_forced v

theorem has_write (v item : Value) (mutating : Bool) : T.Has (v.write item mutating) := by
  refine (has_requireStream v _).bind fun resource => Has.holding ?_ _
  exact (has_fixDeep item false).bind fun item => (has_share item).bind fun item =>
    (has_resourceWrite resource item mutating).holding _

theorem has_writeAll (v : Value) (items : List Value) : T.Has (v.writeAll items) :=
  has_inTurn (fun _ item => (has_write v item true).bind fun _ => T.has_pure _) _ _ _ _

theorem has_popTimeout (v : Value) (millis : Nat) : T.Has (v.popTimeout millis) :=
  (has_requireStream v _).bind fun resource => (has_readTimeout resource millis true).holding _

theorem has_unsubscribe (v : Value) (subscription : String) :
    T.Has (v.unsubscribe subscription) :=
  (has_requireStream v _).bind fun resource => has_resourceUnsubscribe resource subscription

theorem has_drain (v : Value) : T.Has v.drain :=
  (has_requireStream v _).bind fun resource => (has_resourceDrain resource).andReturn _

theorem has_all (v : Value) : T.Has v.all :=
  (has_requireStream v _).bind fun resource => (has_resourceAll resource).andReturn _

end Reactor.Trait
