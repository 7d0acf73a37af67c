import Pseudocode.Proofs.FirstError

/-!
An exhausted stack is contained.

The stack holds a bounded number of evaluations that are in progress, one inside the other. When a
further one would start, the stack is exhausted, and nothing on the way out can go on, up to the
innermost call in progress. That call ends with an error in the environment in which it started;
from there on the error is like any other. If no call is in progress, the host has the error, in the
environment in which it started the evaluation.

Design. `Exhausts` is about the way in: it says which evaluations are in progress when the stack is
exhausted. What comes of it on the way out is proved along the same list. An evaluation in which the
stack is not exhausted is the one with a stack without bound (`answer_unbounded`), so nothing else
can come of a bound.

Main result: `stack_exhaustion_contained`.
-/

namespace Pseudocode

open Eval

/-! ### Plans that catch nothing -/

namespace Plan

/-- The plan does not catch an exhausted stack. -/
def Unguarded : Plan → Prop
  | .finish _ => True
  | .unfinished => True
  | .look k => ∀ env, (k env).Unguarded
  | .note _ _ next => next.Unguarded
  | .emit _ next => next.Unguarded
  | .bind _ _ next => next.Unguarded
  | .ask _ _ k => ∀ v, v.isError = false → (k v).Unguarded
  | .askReturn _ _ => True
  | .guarded _ _ => False
  | .framed _ _ _ inner => inner.Unguarded

variable {ev : Evaluator} {plan : Plan} {ctx : Context} {n : Node} {s : State}

/-- A part that exhausts the stack is the end of a plan that does not catch it. -/
theorem Unguarded.run_of_overflow (hplan : plan.Unguarded) {q : Point} {exit : Env → Env}
    {log : List Event} (h : .part q exit ∈ plan.acts ev ctx s)
    (hq : q.answer ev = .overflow log) : plan.run ev ctx s = .overflow log := by
  induction plan generalizing ctx s exit with
  | finish v => cases h
  | unfinished => cases List.mem_singleton.mp h
  | look k ih => exact ih s.env (hplan s.env) h
  | note e remark next ih => exact ih hplan h
  | emit v next ih =>
    obtain h | h := List.mem_cons.mp h
    · cases h
    · exact ih hplan h
  | bind name b next ih => exact ih hplan h
  | ask effects m k ih =>
    -- the part itself exhausts the stack, or it has a value and something behind it does
    rw [run_ask]
    obtain h | h := List.mem_cons.mp h
    · cases h
      have hev : ev ctx m s = .overflow log := hq
      rw [hev]
      rfl
    · obtain ⟨v, t, hev, hv, h⟩ := Outcome.mem_onward.mp h
      rw [hev, Outcome.andThen_done_of_not_isError hv]
      exact ih v (hplan v hv) h
  | askReturn name m =>
    cases List.mem_singleton.mp h
    have hev : ev ctx m s = .overflow log := hq
    rw [run_askReturn, hev]
    rfl
  | guarded name inner ih => exact hplan.elim
  | framed name params vs inner ih =>
    obtain ⟨a, ha, heq⟩ := List.mem_map.mp h
    obtain ⟨exit', rfl, -⟩ := Act.leaving_eq_part heq
    rw [run_framed, ih hplan ha]
    rfl

/-- A plan without frames has no guard in it. -/
theorem Plain.unguarded {P : Node → Prop} {endless : Prop} (h : plan.Plain P endless) :
    plan.Unguarded := by
  induction plan with
  | finish v => trivial
  | unfinished => trivial
  | look k ih => exact fun env => ih env (h env)
  | note e remark next ih => exact ih h
  | emit v next ih => exact ih h.2
  | bind name b next ih => exact ih h
  | ask effects m k ih =>
    cases effects with
    | kept => exact fun v hv => ih v (h.2 v hv)
    | undone => exact h.elim
  | askReturn name m => trivial
  | guarded name inner ih => exact h.elim
  | framed name params vs inner ih => exact h.elim

theorem unguarded_arguments (n : Node) : (arguments n).Unguarded := by
  unfold arguments
  rcases n.child? .left with - | first
  · trivial
  · intro v _
    dsimp only
    rcases n.child? .right with - | rest
    · trivial
    · exact fun _ _ => trivial

/-- Only calls catch an exhausted stack. -/
theorem unguarded_ofNode (rounds : Nat) (hcall : n.kind ≠ .call) :
    (ofNode rounds n).Unguarded := by
  by_cases hargs : n.kind = .arguments
  · rw [ofNode, hargs]
    exact unguarded_arguments n
  · exact (plain_ofNode rounds hcall hargs).unguarded

theorem unguarded_passing {k : List Value → Plan} (hk : ∀ vs, (k vs).Unguarded) (es : List Node) :
    (passing k es).Unguarded := by
  induction es generalizing k with
  | nil => exact hk []
  | cons e es ih => exact fun v _ => ih fun vs => hk (v :: vs)

theorem unguarded_body (name : String) (tree ret : Option Node) :
    (body name tree ret).Unguarded := by
  have hreturning : (returning name ret).Unguarded := by rcases ret with - | m <;> trivial
  rcases tree with - | m
  · exact hreturning
  · exact fun _ _ => hreturning

/-- If an argument, the body or the return expression of a call exhausts the stack, then the call
ends with an error, in the environment in which it started. -/
theorem run_call_of_overflow {q : Point} {exit : Env → Env} {log : List Event}
    (h : .part q exit ∈ (call n).acts ev ctx s) (hq : q.answer ev = .overflow log) :
    ∃ name, n.text? "name" = some name
      ∧ (call n).run ev ctx s = .done (.error (.callTooDeep name (ctx.depth + 1))) ⟨s.env, log⟩ := by
  -- a call that is refused in front of its guard has no parts
  unfold call at h ⊢
  rcases hname : n.text? "name" with - | name
  · rw [hname] at h
    cases h
  rw [hname] at h
  dsimp only at h
  rw [acts_look] at h
  refine ⟨name, rfl, ?_⟩
  dsimp only
  rw [run_look]
  rcases hbind : s.env[name]? with - | (⟨v, constant⟩ | ⟨params, tree, ret⟩)
  · rw [hbind] at h
    cases h
  · rw [hbind] at h
    cases h
  simp only [hbind] at h ⊢
  rcases hes : Node.argumentExpressions? (n.child? .argument) with - | es
  · rw [hes] at h
    cases h
  simp only [hes] at h ⊢
  split at h
  · cases h
  rename_i hlen
  rw [if_neg hlen]
  by_cases hdepth : ctx.limit ≤ ctx.depth
  · rw [acts_guarded_of_le _ _ hdepth] at h
    cases h
  · rw [acts_guarded_of_not_le _ _ hdepth] at h
    have hplan : (passing (fun vs => .framed name params vs (body name tree ret)) es).Unguarded :=
      unguarded_passing (k := fun vs => .framed name params vs (body name tree ret))
        (fun _ => unguarded_body name tree ret) es
    rw [run_guarded_of_not_le _ _ hdepth, hplan.run_of_overflow h hq]
    rfl

end Plan

/-! ### Room -/

/-- The context with a stack that holds any number of nodes. -/
def Context.unbounded (ctx : Context) : Context := { ctx with room := none }

/-- There is no way down exactly where no room is left. -/
theorem Context.room_eq_of_no_room {ctx : Context} (h : ctx.descend? = none) :
    ctx.room = some 0 := by
  obtain ⟨tracing, limit, depth, room⟩ := ctx
  rcases room with - | (- | r) <;> cases h
  rfl

/-- A node takes one place of the stack. -/
theorem Context.room_eq_of_descend? {ctx inner : Context} (h : ctx.descend? = some inner) :
    ctx.room = inner.room.map (· + 1) := by
  obtain ⟨tracing, limit, depth, room⟩ := ctx
  rcases room with - | (- | r) <;> cases h <;> rfl

theorem Context.unbounded_eq_of_descend? {ctx inner : Context} (h : ctx.descend? = some inner) :
    inner.unbounded = ctx.unbounded := by
  obtain ⟨room, rfl⟩ := eq_of_descend? h
  rfl

/-- A continuation only matters for the value that it gets. -/
theorem Outcome.andThen_congr {o : Outcome} {f g : Value → State → Outcome}
    (h : ∀ v s, o = .done v s → v.isError = false → f v s = g v s) : o.andThen f = o.andThen g := by
  rcases o with ⟨v, s⟩ | log | -
  · rcases hv : v.isError with - | -
    · rw [andThen_done_of_not_isError hv, andThen_done_of_not_isError hv]
      exact h v s rfl hv
    · simp [andThen, hv]
  · rfl
  · rfl

namespace Plan

variable {ev ev' : Evaluator} {plan : Plan} {ctx : Context} {s : State}

/-- A plan does not depend on the room of its context except through its parts. -/
theorem run_unbounded
    (h : ∀ q exit, .part q exit ∈ plan.acts ev ctx s →
      ev' q.ctx.unbounded q.node q.state = q.answer ev) :
    plan.run ev' ctx.unbounded s = plan.run ev ctx s := by
  induction plan generalizing ctx s with
  | finish v => rfl
  | unfinished => rfl
  | look k ih => exact ih s.env h
  | note e remark next ih => exact ih h
  | emit v next ih => exact ih fun q exit hq => h q exit (List.mem_cons_of_mem _ hq)
  | bind name b next ih => exact ih h
  | ask effects m k ih =>
    have hpart : ev' ctx.unbounded m s = ev ctx m s := h ⟨ctx, m, s⟩ _ List.mem_cons_self
    rw [run_ask, run_ask, hpart]
    -- the parts that follow are those of the plan behind the value
    refine Outcome.andThen_congr fun v t hdone hv => ih v fun q exit hq => h q exit ?_
    exact List.mem_cons_of_mem _ (Outcome.mem_onward.mpr ⟨v, t, hdone, hv, hq⟩)
  | askReturn name m =>
    have hpart : ev' ctx.unbounded m s = ev ctx m s := h ⟨ctx, m, s⟩ _ List.mem_cons_self
    rw [run_askReturn, run_askReturn, hpart]
    rfl
  | guarded name inner ih =>
    by_cases hdepth : ctx.limit ≤ ctx.depth
    · have hunbounded : ctx.unbounded.limit ≤ ctx.unbounded.depth := hdepth
      rw [run_guarded_of_le _ _ hdepth, run_guarded_of_le _ _ hunbounded]
      rfl
    · have hunbounded : ¬ ctx.unbounded.limit ≤ ctx.unbounded.depth := hdepth
      rw [acts_guarded_of_not_le _ _ hdepth] at h
      rw [run_guarded_of_not_le _ _ hdepth, run_guarded_of_not_le _ _ hunbounded, ih h]
      rfl
  | framed name params vs inner ih =>
    rw [run_framed, run_framed]
    have hinner := ih fun q exit hq => h q _ (List.mem_map_of_mem hq)
    exact congrArg (Outcome.mapEnv _) hinner

end Plan

/-! ### The way in -/

/-- In the evaluation at a point, the stack is exhausted while the evaluations at certain points are
in progress, the outermost first. Each of them has the next one evaluated, and the last of them
something for which there is no room. -/
inductive Eval.Exhausts : Nat → Point → List Point → Prop
  | here {fuel p} : p.ctx.descend? = none → Exhausts (fuel + 1) p []
  | inside {fuel p q stack} : Consults fuel p q → Exhausts fuel q stack →
      Exhausts (fuel + 1) p (p :: stack)

variable {fuel : Nat} {p : Point}

/-- A part has the room that its node leaves. -/
theorem room_of_consults {q : Point} (h : Consults fuel p q) :
    ∃ inner, p.ctx.descend? = some inner ∧ q.ctx.room = inner.room := by
  obtain ⟨inner, exit, hroom, hpart⟩ := h
  have hdoes : Does inner p.node p.entry (.part q exit) := does_of_mem_acts hpart
  exact ⟨inner, hroom, by cases hdoes <;> rfl⟩

/-- An exhausted stack holds as many evaluations as it has room for. -/
theorem Eval.Exhausts.room_eq {stack : List Point} (h : Exhausts fuel p stack) :
    p.ctx.room = some stack.length := by
  induction h with
  | here hroom => exact Context.room_eq_of_no_room hroom
  | inside hq _ ih =>
    obtain ⟨inner, hroom, hinner⟩ := room_of_consults hq
    rw [Context.room_eq_of_descend? hroom, ← hinner, ih]
    rfl

/-- If the stack is not exhausted, it might as well be without bound. -/
theorem answer_unbounded (h : ∀ stack, ¬ Exhausts fuel p stack) :
    eval fuel p.ctx.unbounded p.node p.state = p.answer (eval fuel) := by
  induction fuel generalizing p with
  | zero => rfl
  | succ fuel ih =>
    rcases hroom : p.ctx.descend? with - | inner
    · exact absurd (.here hroom) (h [])
    -- where a part exhausts the stack, the node does so around it
    have hparts : ∀ q exit, .part q exit ∈ p.acts fuel inner →
        eval fuel q.ctx.unbounded q.node q.state = q.answer (eval fuel) :=
      fun q exit hq => ih fun stack hstack => h _ (.inside ⟨inner, exit, hroom, hq⟩ hstack)
    have hunbounded : p.ctx.unbounded.descend? = some p.ctx.unbounded := rfl
    rw [Point.answer_of_descend hroom, eval_of_descend hunbounded, ← Plan.run_unbounded hparts,
      Context.unbounded_eq_of_descend? hroom]
    rfl

/-! ### The way out -/

/-- With no call in progress, an exhausted stack is the end of the whole evaluation. -/
theorem overflow_of_exhausts {stack : List Point} (h : Exhausts fuel p stack)
    (hcalls : ∀ c ∈ stack, c.node.kind ≠ .call) :
    ∃ log, p.answer (eval fuel) = .overflow log := by
  induction h with
  | here hroom => exact ⟨_, Point.answer_of_no_room hroom⟩
  | @inside fuel p q stack hq _ ih =>
    obtain ⟨inner, exit, hroom, hpart⟩ := hq
    obtain ⟨hcall, hcalls⟩ := List.forall_mem_cons.mp hcalls
    obtain ⟨log, hlog⟩ := ih hcalls
    refine ⟨log, ?_⟩
    rw [Point.answer_of_descend hroom,
      (Plan.unguarded_ofNode fuel hcall).run_of_overflow hpart hlog]
    rfl

/-- A call whose part exhausts the stack ends with an error, in the environment in which it
started. -/
theorem answer_call_of_overflow {c q : Point} {log : List Event} (hcall : c.node.kind = .call)
    (hq : Consults fuel c q) (hlog : q.answer (eval fuel) = .overflow log) :
    ∃ name s, c.node.text? "name" = some name
      ∧ c.answer (eval (fuel + 1)) = .done (.error (.callTooDeep name (c.ctx.depth + 1))) s
      ∧ s.env = c.state.env := by
  obtain ⟨inner, exit, hroom, hpart⟩ := hq
  have hplan : Plan.ofNode fuel c.node = Plan.call c.node := by rw [Plan.ofNode, hcall]
  -- the guard stands below the node of the call, at the same depth
  have hdepth : inner.depth = c.ctx.depth := by
    obtain ⟨room, rfl⟩ := Context.eq_of_descend? hroom
    rfl
  rw [Point.acts, hplan] at hpart
  obtain ⟨name, hname, hrun⟩ := Plan.run_call_of_overflow hpart hlog
  have hdone : c.answer (eval (fuel + 1))
      = (Outcome.done (.error (.callTooDeep name (c.ctx.depth + 1))) ⟨c.state.env, log⟩).noted c.ctx
          .completed := by
    rw [Point.answer_of_descend hroom, hplan, hrun, hdepth, c.env_entry]
  exact ⟨name, _, hname, hdone, State.env_note ..⟩

/-- The innermost call in progress is completed with an error, in the environment in which it
started. -/
theorem completed_of_exhausts {outer inner : List Point} {c : Point}
    (h : Exhausts fuel p (outer ++ c :: inner)) (hcall : c.node.kind = .call)
    (hinner : ∀ q ∈ inner, q.node.kind ≠ .call) :
    ∃ name, c.node.text? "name" = some name
      ∧ .completed c (.error (.callTooDeep name (c.ctx.depth + 1))) c.state.env ∈ moments fuel p := by
  -- along the evaluations around the call, whose moments contain those of the call
  induction outer generalizing fuel p with
  | nil =>
    cases h with
    | inside hq h =>
      obtain ⟨log, hlog⟩ := overflow_of_exhausts h hinner
      obtain ⟨name, s, hname, hdone, henv⟩ := answer_call_of_overflow hcall hq hlog
      refine ⟨name, hname, ?_⟩
      rw [← henv]
      exact List.mem_of_getLast? (getLast?_moments hdone)
  | cons r outer ih =>
    cases h with
    | inside hq h =>
      obtain ⟨room, exit, hroom, hpart⟩ := hq
      obtain ⟨name, hname, hmem⟩ := ih h
      refine ⟨name, hname, ?_⟩
      rw [moments_of_descend hroom]
      exact List.mem_cons_of_mem _ (List.mem_append_left _
        (List.mem_flatMap.mpr ⟨_, hpart, hmem⟩))

/-- A stack on which calls are in progress has an innermost one. -/
theorem exists_innermost_call {stack : List Point} (h : ¬ ∀ c ∈ stack, c.node.kind ≠ .call) :
    ∃ outer c inner, stack = outer ++ c :: inner ∧ c.node.kind = .call
      ∧ ∀ q ∈ inner, q.node.kind ≠ .call := by
  induction stack with
  | nil => exact absurd (fun _ hc => nomatch hc) h
  | cons a stack ih =>
    by_cases hrest : ∀ c ∈ stack, c.node.kind ≠ .call
    · have ha : a.node.kind = .call := by
        by_contra ha
        exact h (List.forall_mem_cons.mpr ⟨ha, hrest⟩)
      exact ⟨[], a, stack, rfl, ha, hrest⟩
    · obtain ⟨outer, c, inner, rfl, hc, hinner⟩ := ih hrest
      exact ⟨a :: outer, c, inner, rfl, hc, hinner⟩

/-! ### Interpreters -/

/-- The settings with a stack that holds any number of nodes. -/
def Settings.unbounded (settings : Settings) : Settings := { settings with room := none }

namespace Interpreter

/-- The point at which an interpreter starts to evaluate a node. -/
def start (settings : Settings) (depth : Int) (n : Node) (env : Env) : Point :=
  ⟨settings.context depth, n, ⟨env, []⟩⟩

/-- What a bounded stack does to the evaluation of a node. -/
structure Contained (settings : Settings) (depth : Int) (n : Node) (env : Env) : Prop where
  /-- What ends on a stack without bound ends on this one. -/
  ends : ∀ v t, evaluateAt settings.unbounded depth n env = .done v t →
    ∃ w u, evaluateAt settings depth n env = .done w u
  /-- What does not exhaust the stack is as it is on a stack without bound. -/
  unaffected : (∀ stack, ¬ Exhausts settings.fuel (start settings depth n env) stack) →
    evaluateAt settings depth n env = evaluateAt settings.unbounded depth n env
  /-- The stack is exhausted when as many evaluations are in progress as it holds. -/
  full : ∀ stack, Exhausts settings.fuel (start settings depth n env) stack →
    settings.room = some stack.length
  /-- If no call is in progress, the program is too deep, and the environment is untouched. -/
  outside_calls : ∀ stack, Exhausts settings.fuel (start settings depth n env) stack →
    (∀ q ∈ stack, q.node.kind ≠ .call) →
    ∃ log, evaluateAt settings depth n env = .done (.error .programTooDeep) ⟨env, log⟩
  /-- The innermost call in progress, `c`, is too deep: it is completed with that error in the
  environment in which it started, and the error unwinds to the value of the whole. -/
  inside_call : ∀ outer c inner,
    Exhausts settings.fuel (start settings depth n env) (outer ++ c :: inner) →
    c.node.kind = .call → (∀ q ∈ inner, q.node.kind ≠ .call) →
    ∃ f, c.node.text? "name" = some f
      ∧ .completed c (.error (.callTooDeep f (c.ctx.depth + 1))) c.state.env
        ∈ moments settings.fuel (start settings depth n env)
      ∧ ∃ s path,
        evaluateAt settings depth n env = .done (.error (.callTooDeep f (c.ctx.depth + 1))) s
        ∧ List.IsChain Unwinds ((c, c.state.env) :: path)
        ∧ ((c, c.state.env) :: path).getLast? = some (start settings depth n env, s.env)

variable (settings : Settings) (depth : Int) (n : Node) (env : Env)

theorem evaluateAt_eq :
    evaluateAt settings depth n env
      = ((start settings depth n env).answer (eval settings.fuel)).caught .programTooDeep env := rfl

variable {settings depth n env}

/-- What does not exhaust the stack does not need its bound. -/
theorem evaluateAt_unbounded
    (h : ∀ stack, ¬ Exhausts settings.fuel (start settings depth n env) stack) :
    evaluateAt settings depth n env = evaluateAt settings.unbounded depth n env := by
  rw [evaluateAt_eq, ← answer_unbounded h]
  rfl

/-- Outside of all calls the whole program is what nests too deeply. -/
theorem evaluateAt_of_exhausts {stack : List Point}
    (h : Exhausts settings.fuel (start settings depth n env) stack)
    (hcalls : ∀ q ∈ stack, q.node.kind ≠ .call) :
    ∃ log, evaluateAt settings depth n env = .done (.error .programTooDeep) ⟨env, log⟩ := by
  obtain ⟨log, hlog⟩ := overflow_of_exhausts h hcalls
  refine ⟨log, ?_⟩
  rw [evaluateAt_eq, hlog]
  rfl

/-- An error that ends a node ends the nodes around it, up to the whole run. -/
theorem evaluateAt_of_completed {c : Point} {fault : Fault} {left : Env}
    (h : .completed c (.error fault) left ∈ moments settings.fuel (start settings depth n env)) :
    ∃ s path, evaluateAt settings depth n env = .done (.error fault) s
      ∧ List.IsChain Unwinds ((c, left) :: path)
      ∧ ((c, left) :: path).getLast? = some (start settings depth n env, s.env) := by
  obtain ⟨before, after, h⟩ := List.append_of_mem h
  obtain ⟨s, path, hanswer, -, hchain, hlast, -⟩ := exists_unwinding [] h
  refine ⟨s, path, ?_, hchain, hlast⟩
  rw [evaluateAt_eq, hanswer]
  rfl

/-- An exhausted stack does not keep an evaluation from ending; the value is an error. -/
theorem exists_error_of_exhausts {stack : List Point}
    (h : Exhausts settings.fuel (start settings depth n env) stack) :
    ∃ fault s, evaluateAt settings depth n env = .done (.error fault) s := by
  by_cases hcalls : ∀ q ∈ stack, q.node.kind ≠ .call
  · obtain ⟨log, hlog⟩ := evaluateAt_of_exhausts h hcalls
    exact ⟨_, _, hlog⟩
  · obtain ⟨outer, c, inner, rfl, hcall, hinner⟩ := exists_innermost_call hcalls
    obtain ⟨f, -, hcompleted⟩ := completed_of_exhausts h hcall hinner
    obtain ⟨s, -, hdone, -⟩ := evaluateAt_of_completed hcompleted
    exact ⟨_, s, hdone⟩

/-- All parts of the containment, for any stack, program and environment. -/
theorem contained (settings : Settings) (depth : Int) (n : Node) (env : Env) :
    Contained settings depth n env where
  ends v t hdone := by
    -- if nothing exhausts the stack, the run is that without a bound
    by_cases h : ∃ stack, Exhausts settings.fuel (start settings depth n env) stack
    · obtain ⟨stack, h⟩ := h
      obtain ⟨fault, s, herror⟩ := exists_error_of_exhausts h
      exact ⟨_, s, herror⟩
    · exact ⟨v, t, (evaluateAt_unbounded (not_exists.mp h)).trans hdone⟩
  unaffected h := evaluateAt_unbounded h
  full stack h := h.room_eq
  outside_calls stack h hcalls := evaluateAt_of_exhausts h hcalls
  inside_call outer c inner h hcall hinner := by
    obtain ⟨f, hname, hcompleted⟩ := completed_of_exhausts h hcall hinner
    exact ⟨f, hname, hcompleted, evaluateAt_of_completed hcompleted⟩

end Interpreter

theorem Fault.message_programTooDeep :
    Fault.programTooDeep.message = "ERROR! Program nests too deeply to evaluate." := by
  calc Fault.programTooDeep.message
    _ = "ERROR! " ++ "Program nests too deeply to evaluate." := rfl
    _ = _ := by simp

/-- The message names the subroutine and the depth. -/
theorem Fault.message_callTooDeep (f : String) (d : Int) :
    (Fault.callTooDeep f d).message
      = "ERROR! Call to '" ++ f ++ "' at depth " ++ Decimal.intText d
        ++ " nests too deeply to evaluate." := by
  -- the texts are cut where the message is put together
  have hcall : "ERROR! Call to '" = "ERROR! " ++ ("Call to " ++ "'") := by simp
  have hdepth : "' at depth " = "'" ++ " at depth " := by simp
  rw [hcall, hdepth]
  show "ERROR! " ++ ("Call to " ++ ("'" ++ f ++ "'") ++ " at depth " ++ Decimal.intText d
    ++ " nests too deeply to evaluate.") = _
  simp only [String.append_assoc, -String.reduceAppend]

/-- **An exhausted stack is contained.** Whatever the stack holds, an evaluation and a run end if
they would end on a stack without bound. What becomes of them if the stack is exhausted says
`Contained`, for any depth to start from; hosts start from depth 0, and runs from the empty
environment. -/
theorem stack_exhaustion_contained (settings : Settings) :
    (∀ depth n env, Interpreter.Contained settings depth n env)
      ∧ (∀ root v t, Interpreter.run settings.unbounded root = .done v t →
        ∃ w u, Interpreter.run settings root = .done w u)
      ∧ Fault.programTooDeep.message = "ERROR! Program nests too deeply to evaluate."
      ∧ ∀ f d, (Fault.callTooDeep f d).message
        = "ERROR! Call to '" ++ f ++ "' at depth " ++ Decimal.intText d
          ++ " nests too deeply to evaluate." := by
  refine ⟨Interpreter.contained settings, ?_, Fault.message_programTooDeep,
    Fault.message_callTooDeep⟩
  intro root v t hdone
  -- the empty program is not evaluated at all
  rcases root with - | n
  · exact ⟨_, _, rfl⟩
  · exact (Interpreter.contained settings 0 n ∅).ends v t hdone

/-- A subroutine `f` that assigns to `y` and returns a value in two brackets, and a subroutine `g`
that assigns to `y` and calls `f`. -/
def bracketingEnv : Env :=
  (∅ : Env).insert "f" (.subroutine [] (some (.assignment "y" false (.boolean "False")))
      (some (.bracket (.bracket (.boolean "True")))))
    |>.insert "g" (.subroutine []
      (some (.sequence (.assignment "y" false (.boolean "True")) (.call "f" []))) none)

/-- Settings with a stack for some number of nodes. -/
def shallow (room : Nat) : Settings :=
  { limit := 50, tracing := false, room := some room, fuel := 9 }

/-- In a call of `g`, a stack for five nodes is exhausted while `f` returns its value: the call of
`f` ends with the error, with `y` as `g` has set it, and so does the call of `g`. A value in brackets
exhausts a stack for one node, with no call in progress. -/
theorem stack_exhaustion_contained_nested :
    (∃ outer c inner s,
      Exhausts 9 (Interpreter.start (shallow 5) 0 (.call "g" []) bracketingEnv) (outer ++ c :: inner)
        ∧ c.node = .call "f" []
        ∧ .completed c (.error (.callTooDeep "f" 2)) c.state.env
          ∈ moments 9 (Interpreter.start (shallow 5) 0 (.call "g" []) bracketingEnv)
        ∧ c.state.env["y"]? = some (.variable (.bool true) false)
        ∧ Interpreter.evaluate (shallow 5) (.call "g" []) bracketingEnv
          = .done (.error (.callTooDeep "f" 2)) s)
      ∧ ∃ stack log,
        Exhausts 9 (Interpreter.start (shallow 1) 0 (.bracket (.boolean "True")) bracketingEnv) stack
        ∧ Interpreter.evaluate (shallow 1) (.bracket (.boolean "True")) bracketingEnv
          = .done (.error .programTooDeep) ⟨bracketingEnv, log⟩ := by
  constructor
  · -- the nodes on the exhausted stack, from the whole run in to the second bracket
    obtain ⟨outer, c, q, r, h, hc, hdepth, hq, hr, hy⟩ : ∃ outer c q r,
        Exhausts 9 (Interpreter.start (shallow 5) 0 (.call "g" []) bracketingEnv) (outer ++ [c, q, r])
          ∧ c.node = .call "f" [] ∧ c.ctx.depth = 1
          ∧ q.node.kind = .bracket ∧ r.node.kind = .bracket
          ∧ c.state.env["y"]? = some (.variable (.bool true) false) :=
      ⟨[_, _], _, _, _,
        .inside ⟨_, _, rfl, List.mem_cons_self⟩
          (.inside ⟨_, _, rfl, List.mem_cons_of_mem _ List.mem_cons_self⟩
            (.inside ⟨_, _, rfl, List.mem_cons_of_mem _ List.mem_cons_self⟩
              (.inside ⟨_, _, rfl, List.mem_cons_self⟩
                (.inside ⟨_, _, rfl, List.mem_cons_self⟩ (.here rfl))))),
        rfl, rfl, rfl, rfl, rfl⟩
    have hcall : c.node.kind = .call := by
      rw [hc]
      rfl
    have hinner : ∀ q' ∈ [q, r], q'.node.kind ≠ .call := by simp [hq, hr]
    have hcontained := (stack_exhaustion_contained (shallow 5)).1 0 (.call "g" []) bracketingEnv
    obtain ⟨f, hf, hcompleted, s, -, hdone, -⟩ := hcontained.inside_call outer c _ h hcall hinner
    rw [hc] at hf
    obtain rfl : "f" = f := Option.some.inj hf
    rw [hdepth] at hcompleted hdone
    exact ⟨outer, c, _, s, h, hc, hcompleted, hy, hdone⟩
  · -- with one place only, the bracket itself exhausts the stack
    obtain ⟨q, h, hq⟩ : ∃ q, Exhausts 9
        (Interpreter.start (shallow 1) 0 (.bracket (.boolean "True")) bracketingEnv) [q]
        ∧ q.node.kind = .bracket :=
      ⟨_, .inside ⟨_, _, rfl, List.mem_cons_self⟩ (.here rfl), rfl⟩
    have hcalls : ∀ q' ∈ [q], q'.node.kind ≠ .call := by simp [hq]
    have hcontained :=
      (stack_exhaustion_contained (shallow 1)).1 0 (.bracket (.boolean "True")) bracketingEnv
    obtain ⟨log, hlog⟩ := hcontained.outside_calls [q] h hcalls
    exact ⟨[q], log, h, hlog⟩

end Pseudocode
