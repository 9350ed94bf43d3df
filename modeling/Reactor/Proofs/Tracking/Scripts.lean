import Reactor.Proofs.Network.Pass
import Reactor.Proofs.Network.Write

/-!
# Scripts that assign variables

A callback runs while a thread notifies lambdas, and it may assign variables itself. `Context.Permits` says what
it may do: read names, assign plain values to certain names, and force lambdas that it finds in registers. A
script that does no more has no other effect on what is kept of the state (`Expr.Drives`). Scripts of a certain
form do no more (`Expr.Assigns`, `Expr.Assigns.drives`).
-/

namespace Reactor

/-- Whatever the thread holds, the computation keeps what is kept of the state, and a value that it gives has the
property. It may fail, and it may run out of budget. -/
def Context.Brings {α : Type} (ctx : Context) (kept : World → Prop) (p : α → Prop) (act : Eval α) : Prop :=
  ctx.Keeps kept False (fun r => ∀ a, r = .ok a → p a) act

/-- What a callback may do in a scope. What does not touch settings, scopes, variables, lambdas and registers keeps
what is kept, and so does reading names, assigning plain values to some of them, and forcing lambdas that are in
some registers. None of this gives a deferred value. -/
structure Context.Permits (ctx : Context) (scope : ScopeId) (registers : Entries String Value)
    (targets : String → Prop) (kept : World → Prop) : Prop where
  known {w : World} (hw : kept w) : w.Registers registers
  beside {w v : World} (hw : kept w) (h : w.Beside v) : kept v
  get (name : String) (must : Bool) : ctx.Brings kept Value.Plain (scope.get name must)
  set {name : String} {value : Value} (hname : targets name) (hvalue : value.Plain) :
    ctx.Brings kept Value.Plain (scope.set name value)
  force {name : String} {value : Value} {k : LambdaId} (hvalue : Entries.get? registers name = some value)
    (hk : value.lambda? = some k) : ctx.Brings kept Value.Plain (Eval.force k)

/-- The script, run with a plain value, does what a callback may do that assigns certain names. -/
def Expr.Drives (e : Expr) (scope : ScopeId) (registers : Entries String Value) (targets : String → Prop) :
    Prop :=
  ∀ ⦃ctx : Context⦄ ⦃kept : World → Prop⦄, ctx.Permits scope registers targets kept →
    ∀ ⦃value : Value⦄, value.Plain → ctx.Brings kept Value.Plain (e.eval scope (some value))

/-- An operation that computes a plain value, or fails, from plain arguments. -/
def Operation.Steady (op : Operation) : Prop :=
  ∀ (apply : Value → Eval Value) (args : List Value), (∀ x ∈ args, x.Plain) →
    Eval.Steady (fun reply => reply.asValue.Plain) (op.perform apply args)

/-- A script that computes plain values from constants, from the value that it is run with and from names that it
reads, forces lambdas that are in registers, and assigns what it has computed to certain names. -/
inductive Expr.Assigns (registers : Entries String Value) (targets : String → Prop) : Expr → Prop
  | void : Assigns registers targets .void
  | null : Assigns registers targets .null
  | boolean (b : Bool) : Assigns registers targets (.boolean b)
  | integer (n : Int64) : Assigns registers targets (.integer n)
  | string (s : String) : Assigns registers targets (.string s)
  | item : Assigns registers targets .item
  | lookup (name : String) (must : Bool) : Assigns registers targets (.lookup name must)
  | forced {name : String} {value : Value} {k : LambdaId} (hvalue : Entries.get? registers name = some value)
    (hk : value.lambda? = some k) : Assigns registers targets (.call .forced [.register name] none)
  | set {name : String} {e : Expr} (hname : targets name) (h : Assigns registers targets e) :
    Assigns registers targets (.set name e)
  | block {es : List Expr} (h : ∀ e ∈ es, Assigns registers targets e) : Assigns registers targets (.block es)
  | cond {test yes no : Expr} (htest : Assigns registers targets test) (hyes : Assigns registers targets yes)
    (hno : Assigns registers targets no) : Assigns registers targets (.cond test yes no)
  | call {op : Operation} {args : List Expr} (hop : op.Steady) (h : ∀ e ∈ args, Assigns registers targets e) :
    Assigns registers targets (.call op args none)

/-! ## Operations -/

namespace Operation

variable {op : Operation}

theorem plain_getD {args : List Value} (h : ∀ x ∈ args, x.Plain) (i : Nat) : (args.getD i .void).Plain := by
  rw [List.getD_eq_getElem?_getD]
  cases hi : args[i]? with
  | none => rfl
  | some x => exact h x (List.mem_of_getElem? hi)

theorem steady_isPositive : Operation.isPositive.Steady := fun _ _ h =>
  (Value.steady_numberMatches (plain_getD h 0) _).bind fun _ _ => Eval.steady_pure rfl

end Operation

/-! ## Computations on a thread -/

namespace Context

variable {α β : Type} {ctx : Context} {kept : World → Prop} {p : α → Prop} {q : β → Prop} {act : Eval α}

theorem brings_pure {a : α} (h : p a) : ctx.Brings kept p (pure a) := by
  intro held w hw
  refine .inr ⟨hw, ?_⟩
  rintro _ ⟨⟩
  exact h

theorem Brings.bind {f : α → Eval β} (h : ctx.Brings kept p act) (hf : ∀ a, p a → ctx.Brings kept q (f a)) :
    ctx.Brings kept q (act >>= f) := by
  intro held w hw
  rw [Eval.bind_apply]
  exact (h hw).bind (fun a v h => hf a (h.2 a rfl) h.1) fun e v h => ⟨h.1, fun a ha => by cases ha⟩

theorem Brings.holding (h : ctx.Brings kept p act) (places : List Place) :
    ctx.Brings kept p (Eval.holding places act) :=
  fun held _ hw => @h (places ++ held) _ hw

end Context

theorem Eval.Steady.brings {α : Type} {ctx : Context} {kept : World → Prop} {p : α → Prop} {act : Eval α}
    (h : Eval.Steady p act) : ctx.Brings kept p act := by
  intro held w hw
  rcases h { ctx with thread := { ctx.thread with held } } with run | ⟨r, hr, run⟩
  · exact .inl ⟨run w, id⟩
  · rw [run]
    exact .inr (Outcome.yields_iff.2 ⟨r, w, rfl, hw, hr⟩)

/-! ## Scripts -/

section Scripts

variable {ctx : Context} {scope : ScopeId} {registers : Entries String Value} {targets : String → Prop}
  {kept : World → Prop} (permits : ctx.Permits scope registers targets kept)
include permits

theorem Context.Permits.share {value : Value} (h : value.Plain) : ctx.Brings kept Value.Plain value.share :=
  fun _ _ hw => (ScopeId.share_leaves h).ends.mono fun _ _ h => ⟨permits.beside hw h.1, h.2⟩

/-- A lambda that a register holds is forced. -/
theorem Context.Permits.forced {name : String} {value : Value} {k : LambdaId} {item : Option Value}
    (hvalue : Entries.get? registers name = some value) (hk : value.lambda? = some k) :
    ctx.Brings kept Value.Plain (do
      (← (Expr.call .forced [.register name] none).reply scope item).toValue) := by
  simp only [Expr.reply, Expr.evalAll, bind_assoc, pure_bind]
  have found : ctx.Brings kept (· = value) (Eval.gets fun w => (Entries.get? w.desk.registers name).getD .void) := by
    refine fun held w hw => .inr ⟨hw, ?_⟩
    rintro _ ⟨⟩
    dsimp only
    rw [permits.known hw name value hvalue]
    rfl
  have shared : ctx.Brings kept (fun x => x.lambda? = some k) value.share := by
    intro held w hw
    rw [Value.share_apply]
    refine .inr ⟨permits.beside hw ⟨rfl, rfl, rfl, rfl, rfl⟩, ?_⟩
    rintro _ ⟨⟩
    rw [← Value.lambda?_unmark, Value.unmark_markFrom, Value.lambda?_unmark, hk]
  refine found.bind fun _ hx => hx ▸ shared.bind fun x hx => ?_
  refine ((Context.brings_pure (p := fun vs => vs = []) rfl).holding _).bind fun vs hvs => ?_
  have forced : ctx.Brings kept (fun reply => reply.asValue.Plain)
      (Operation.forced.perform (Expr.applyBody scope none) (x :: vs)) := by
    show ctx.Brings kept _ (do return Reply.value (← x.forced))
    rw [Value.forced_of_lambda? hx, bind_assoc]
    simp only [pure_bind]
    exact (permits.force hvalue hk).bind fun y hy => Context.brings_pure hy.overlaid
  exact (forced.holding _).bind fun reply hreply => permits.share hreply

omit permits in
/-- The values of scripts, in order. -/
theorem Context.brings_evalAll {item : Option Value} {es : List Expr}
    (h : ∀ e ∈ es, ctx.Brings kept Value.Plain (do (← e.reply scope item).toValue)) :
    ctx.Brings kept (fun vs => ∀ v ∈ vs, v.Plain) (Expr.evalAll scope item es) := by
  induction es with
  | nil =>
    rw [Expr.evalAll]
    exact Context.brings_pure (List.forall_mem_nil _)
  | cons e es ih =>
    obtain ⟨he, hes⟩ := List.forall_mem_cons.1 h
    rw [Expr.evalAll, ← bind_assoc]
    refine he.bind fun v hv => ((ih hes).holding _).bind fun vs hvs => ?_
    exact Context.brings_pure (List.forall_mem_cons.2 ⟨hv, hvs⟩)

theorem Expr.Assigns.brings {e : Expr} (h : e.Assigns registers targets) {item : Option Value}
    (hitem : ∀ v, item = some v → v.Plain) :
    ctx.Brings kept Value.Plain (do (← e.reply scope item).toValue) := by
  have gives {v : Value} (hv : v.Plain) : ctx.Brings kept Value.Plain (Reply.value v).toValue := permits.share hv
  induction h with
  | void | null | boolean b | integer n | string s =>
    rw [Expr.reply, pure_bind]
    exact gives rfl
  | item =>
    rw [Expr.reply, pure_bind]
    refine gives ?_
    cases item with
    | none => rfl
    | some v => exact hitem v rfl
  | lookup name must =>
    simp only [Expr.reply, bind_assoc, pure_bind]
    exact (permits.get name must).bind fun v hv => gives hv
  | forced hvalue hk => exact permits.forced hvalue hk
  | set hname _ ih =>
    simp only [Expr.reply, bind_assoc, pure_bind]
    rw [← bind_assoc]
    exact ih.bind fun v hv => (permits.set hname hv).bind fun x hx => gives hx
  | block _ ih =>
    simp only [Expr.reply, bind_assoc, pure_bind]
    refine (Context.brings_evalAll ih).bind fun vs hvs => gives ?_
    cases hlast : vs.getLast? with
    | none => rfl
    | some v => exact hvs v (List.mem_of_getLast? hlast)
  | cond _ _ _ htest hyes hno =>
    simp only [Expr.reply, bind_assoc]
    rw [← bind_assoc]
    refine htest.bind fun v hv => ((Value.steady_truthy hv).brings.holding _).bind fun truth _ => ?_
    cases truth with
    | true =>
      simp only [if_true, bind_assoc, pure_bind]
      rw [← bind_assoc]
      exact hyes.bind fun x hx => gives hx
    | false =>
      simp only [Bool.false_eq_true, if_false, bind_assoc, pure_bind]
      rw [← bind_assoc]
      exact hno.bind fun x hx => gives hx
  | call hop _ ih =>
    simp only [Expr.reply, bind_assoc]
    refine (Context.brings_evalAll ih).bind fun vs hvs => ?_
    exact ((hop _ vs hvs).brings.holding _).bind fun reply hreply => permits.share hreply

omit permits in
/-- Scripts of this form do what callbacks may do. -/
theorem Expr.Assigns.drives {e : Expr} (h : e.Assigns registers targets) (scope : ScopeId) :
    e.Drives scope registers targets :=
  fun _ _ permits _ hvalue => h.brings permits fun _ hv => by
    cases hv
    exact hvalue

end Scripts

end Reactor
