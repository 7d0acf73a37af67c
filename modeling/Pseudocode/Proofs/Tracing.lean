import Pseudocode.Proofs.Blocks

/-!
Tracing only adds to the log.

While tracing, the log holds what has been put out and remarks between it. The remarks are never
read again, so a run without tracing is the image of the run with it under the map that strikes them
out. The image of an outcome is that of its log; the image of a plan's run is the run of the same
plan.

Main results: `eval_untraced`, and `Fits.behaviour_eq_plain`, which says that what a node does can
be found out on a stack without bound and without a trace.
-/

namespace Pseudocode

open Eval

/-! ### Logs without remarks -/

/-- Has the event to do with what is put out? -/
def Event.isEmission (e : Event) : Bool := e.emission?.isSome

theorem Event.not_isEmission_of_isRemark {e : Event} (h : e.isRemark = true) :
    e.isEmission = false := by
  cases e with
  | emitted v => cases h
  | _ => rfl

/-- The context without tracing. -/
def Context.untraced (ctx : Context) : Context := { ctx with tracing := false }

/-- Whether there is room on the stack does not depend on tracing. -/
theorem Context.descend?_untraced (ctx : Context) :
    ctx.untraced.descend? = ctx.descend?.map Context.untraced := by
  obtain ⟨tracing, limit, depth, room⟩ := ctx
  rcases room with - | (- | r) <;> rfl

namespace State

variable {s : State} {ctx : Context} {e : Event}

/-- The state with all but the emissions struck out of its log. -/
def untraced (s : State) : State := ⟨s.env, s.log.filter Event.isEmission⟩

/-- A record that is no emission is left out. -/
theorem untraced_note (he : e.isEmission = false) (s : State) (ctx : Context) :
    (s.note ctx e).untraced = s.untraced := by
  unfold note
  split
  · simp [untraced, he]
  · rfl

theorem note_untraced (s : State) (ctx : Context) (e : Event) : s.note ctx.untraced e = s := rfl

theorem untraced_emit (s : State) (v : Value) : (s.emit v).untraced = s.untraced.emit v := by
  simp only [untraced, emit]
  rw [List.filter_cons_of_pos rfl]

/-- Leaving the records out keeps all emissions. -/
theorem emissions_untraced (s : State) : emissions s.untraced.log = emissions s.log := by
  show (s.log.filter Event.isEmission).reverse.filterMap Event.emission? = _
  rw [← List.filter_reverse, List.filterMap_filter, emissions]
  congr 1
  funext e
  cases e <;> rfl

end State

namespace Outcome

/-- The outcome with all but the emissions struck out of its log. -/
def untraced : Outcome → Outcome
  | .done v s => .done v s.untraced
  | .overflow log => .overflow (log.filter Event.isEmission)
  | .unfinished => .unfinished

variable {o : Outcome}

/-- What follows an outcome may be stripped of its records separately. -/
theorem untraced_andThen {k k' : Value → State → Outcome}
    (hk : ∀ v s, (k v s).untraced = k' v s.untraced) :
    (o.andThen k).untraced = o.untraced.andThen k' := by
  rcases o with ⟨v, s⟩ | log | -
  · rcases hv : v.isError with - | -
    · rw [andThen_done_of_not_isError hv, untraced, andThen_done_of_not_isError hv]
      exact hk v s
    · simp [untraced, andThen, hv]
  · rfl
  · rfl

theorem untraced_mapEnv (g : Env → Env) : (o.mapEnv g).untraced = o.untraced.mapEnv g := by
  rcases o with ⟨v, s⟩ | log | - <;> rfl

theorem untraced_caught (fault : Fault) (env : Env) :
    (o.caught fault env).untraced = o.untraced.caught fault env := by
  rcases o with ⟨v, s⟩ | log | - <;> rfl

theorem untraced_noted (ctx : Context) {e : Value → Event} (he : ∀ v, (e v).isEmission = false) :
    (o.noted ctx e).untraced = o.untraced.noted ctx.untraced e := by
  rcases o with ⟨v, s⟩ | log | -
  · exact congrArg (done v) (State.untraced_note (he v) s ctx)
  · rfl
  · rfl

end Outcome

/-! ### Plans and evaluations -/

/-- The run of a plan without tracing is the image of the run with it. -/
theorem Plan.run_untraced {ev : Evaluator}
    (hev : ∀ ctx n s, (ev ctx n s).untraced = ev ctx.untraced n s.untraced) {plan : Plan}
    {ctx : Context} {s : State} :
    (plan.run ev ctx s).untraced = plan.run ev ctx.untraced s.untraced := by
  -- induction on the plan; only recording a remark differs, and that is left out
  induction plan generalizing ctx s with
  | finish v => rfl
  | unfinished => rfl
  | look k ih => exact ih s.env
  | note e remark next ih =>
    show (next.run ev ctx (s.note ctx e)).untraced = next.run ev ctx.untraced s.untraced
    rw [ih, State.untraced_note (Event.not_isEmission_of_isRemark remark)]
  | emit v next ih =>
    show (next.run ev ctx (s.emit v)).untraced = next.run ev ctx.untraced (s.untraced.emit v)
    rw [ih, State.untraced_emit]
  | bind name b next ih => exact ih (s := s.bind name b)
  | ask effects m k ih =>
    rw [run_ask, run_ask, ← hev]
    show _ = ((ev ctx m s).untraced.mapEnv (effects.after s.env)).andThen _
    rw [← Outcome.untraced_mapEnv]
    apply Outcome.untraced_andThen
    intro v t
    exact ih v
  | askReturn name m =>
    rw [run_askReturn, run_askReturn, ← hev]
    apply Outcome.untraced_noted
    intro v
    rfl
  | guarded name inner ih =>
    by_cases hdepth : ctx.limit ≤ ctx.depth
    · have huntraced : ctx.untraced.limit ≤ ctx.untraced.depth := hdepth
      rw [run_guarded_of_le _ _ hdepth, run_guarded_of_le _ _ huntraced]
      rfl
    · have huntraced : ¬ ctx.untraced.limit ≤ ctx.untraced.depth := hdepth
      rw [run_guarded_of_not_le _ _ hdepth, run_guarded_of_not_le _ _ huntraced, ← ih]
      exact Outcome.untraced_caught _ _
  | framed name params vs inner ih =>
    rw [run_framed, run_framed, Outcome.untraced_mapEnv, ih, State.untraced_note rfl]
    rfl

/-- An evaluation without tracing is the image of the evaluation with it. -/
theorem eval_untraced (fuel : Nat) (ctx : Context) (n : Node) (s : State) :
    (eval fuel ctx n s).untraced = eval fuel ctx.untraced n s.untraced := by
  induction fuel generalizing ctx n s with
  | zero => rfl
  | succ fuel ih =>
    have hdescend := ctx.descend?_untraced
    rcases hroom : ctx.descend? with - | inner
    · rw [hroom] at hdescend
      rw [eval_of_no_room hroom, eval_of_no_room hdescend]
      rfl
    · rw [hroom] at hdescend
      rw [eval_of_descend hroom, eval_of_descend hdescend, State.note_untraced,
        Outcome.untraced_noted ctx fun v => rfl, Plan.run_untraced ih, State.untraced_note rfl]

/-! ### Behaviours -/

section
variable {ctx : Context} {n : Node} {env : Env}

/-- What a node does, it does without tracing as well. -/
theorem behaviour_untraced (ctx : Context) (n : Node) :
    behaviour eval ctx.untraced n = behaviour eval ctx n := by
  funext env v env' out
  have himage : ∀ fuel, eval fuel ctx.untraced n ⟨env, []⟩
      = (eval fuel ctx n ⟨env, []⟩).untraced := by
    intro fuel
    exact (eval_untraced fuel ctx n ⟨env, []⟩).symm
  apply propext
  constructor
  · rintro ⟨t, ⟨fuel, h⟩, rfl, rfl⟩
    rw [himage] at h
    -- the traced evaluation ends just if its image does
    rcases ho : eval fuel ctx n ⟨env, []⟩ with ⟨w, u⟩ | log | - <;> rw [ho] at h
    · cases h
      exact ⟨u, ⟨fuel, ho⟩, rfl, (State.emissions_untraced u).symm⟩
    · cases h
    · cases h
  · rintro ⟨t, ⟨fuel, h⟩, rfl, rfl⟩
    refine ⟨t.untraced, ⟨fuel, ?_⟩, rfl, State.emissions_untraced t⟩
    rw [himage, h]
    rfl

/-- The context with a stack without bound and without tracing. -/
def Context.plain (ctx : Context) : Context := ctx.unbounded.untraced

theorem Context.quiet_plain (ctx : Context) : ctx.plain.Quiet := ⟨rfl, rfl⟩

/-- Where the stack is not exhausted, its bound makes no difference, and tracing makes none. -/
theorem Eval.Fits.behaviour_eq_plain (h : Fits ctx n env) :
    behaviour eval ctx n env = behaviour eval ctx.plain n env := by
  rw [h.behaviour_eq, Context.plain, behaviour_untraced]

end

end Pseudocode
