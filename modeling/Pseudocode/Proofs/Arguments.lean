import Pseudocode.Proofs.CallProtocol
import Pseudocode.Proofs.Tracing

/-!
Argument lists, displayed and passed.

An argument list is met in two places. As a node it is evaluated link by link, and each link puts
its own display in front of the display of the rest. In a call it is a list of expressions, which
are evaluated one after the other and bound to the parameters. `ArgumentsEnd` says what the
arguments come to, without regard to either: their values, or the first error, and what has been put
out on the way. Both places do with it what they are for.

Design. `ArgumentsEnd` speaks of behaviours, that is, of ends with some number of steps. On the side
of the list this is an induction on its links. On the side of the call it is what `Passing` says for
each number of steps.

Main result: `arguments_displayed_and_passed`.
-/

namespace Pseudocode

open Eval

/-! ### What arguments come to -/

/-- The arguments, one after the other and each of them in `env`: their values, or the first error,
and what they put out up to there. What follows the first error has no part in it. -/
inductive ArgumentsEnd (b : Node → Behaviour) (env : Env) :
    List Node → Except Fault (List Value) → List Value → Prop
  | nil : ArgumentsEnd b env [] (.ok []) []
  | failed {e es fault left out} : b e env (.error fault) left out →
      ArgumentsEnd b env (e :: es) (.error fault) out
  | cons {e es v left first r rest} : b e env v left first → v.isError = false →
      ArgumentsEnd b env es r rest → ArgumentsEnd b env (e :: es) (r.map (v :: ·)) (first ++ rest)

/-- The display of arguments with values; an error is passed on. -/
def argumentsShown : Except Fault (List Value) → Value
  | .ok vs => .string (", ".intercalate (vs.map Value.display))
  | .error fault => .error fault

/-- How arguments with that end are passed. -/
def Eval.Passed.ofEnd : Except Fault (List Value) → Passed
  | .ok vs => .values vs
  | .error fault => .failed fault

/-- A first argument goes in front of how the others end. -/
theorem Eval.Passed.ofEnd_map_cons (v : Value) (r : Except Fault (List Value)) :
    ofEnd (r.map (v :: ·)) = (ofEnd r).cons v := by
  cases r <;> rfl

/-- A behaviour with one end at most. -/
def Behaviour.Determined (b : Behaviour) : Prop :=
  ∀ env v v' env' env'' out out', b env v env' out → b env v' env'' out' →
    v = v' ∧ env' = env'' ∧ out = out'

/-- A node in an environment has one value and one list of outputs. -/
theorem behaviour_determined (ctx : Context) (n : Node) :
    (behaviour eval ctx n).Determined := by
  rintro env v v' env' env'' out out' ⟨t, ⟨fuel, h⟩, rfl, rfl⟩ ⟨t', ⟨fuel', h'⟩, rfl, rfl⟩
  -- both ends are that of the longer one of the two evaluations
  have heq := eval_eq_of_done h (Nat.le_max_left fuel fuel')
  rw [eval_eq_of_done h' (Nat.le_max_right fuel fuel')] at heq
  cases heq
  exact ⟨rfl, rfl, rfl⟩

/-- How a list of arguments ends is settled by how each of its parts behaves. -/
theorem ArgumentsEnd.unique {b : Node → Behaviour} (hb : ∀ n, (b n).Determined) {env : Env}
    {es : List Node} {r r' : Except Fault (List Value)} {out out' : List Value}
    (h : ArgumentsEnd b env es r out) (h' : ArgumentsEnd b env es r' out') :
    r = r' ∧ out = out' := by
  -- both go on from one argument to the next in the same way, since its end is determined
  induction h generalizing r' out' with
  | nil =>
    cases h'
    exact ⟨rfl, rfl⟩
  | failed he =>
    cases h' with
    | failed he' =>
      obtain ⟨hfault, -, rfl⟩ := hb _ _ _ _ _ _ _ _ he he'
      cases hfault
      exact ⟨rfl, rfl⟩
    | cons he' hv _ =>
      obtain ⟨rfl, -, -⟩ := hb _ _ _ _ _ _ _ _ he he'
      cases hv
  | cons he hv _ ih =>
    cases h' with
    | failed he' =>
      obtain ⟨rfl, -, -⟩ := hb _ _ _ _ _ _ _ _ he he'
      cases hv
    | cons he' _ hes' =>
      obtain ⟨rfl, -, rfl⟩ := hb _ _ _ _ _ _ _ _ he he'
      obtain ⟨rfl, rfl⟩ := ih hes'
      exact ⟨rfl, rfl⟩

/-! ### Argument lists as nodes -/

/-- An outcome without its effects on the environment, and then another one. -/
theorem Outcome.inEnv_andThen_eq_done_iff {o : Outcome} {env : Env}
    {k : Value → State → Outcome} {v : Value} {t : State} :
    (o.inEnv env).andThen k = .done v t
      ↔ (∃ u, o = .done v u ∧ v.isError = true ∧ t = ⟨env, u.log⟩)
        ∨ ∃ w u, o = .done w u ∧ w.isError = false ∧ k w ⟨env, u.log⟩ = .done v t := by
  -- the environment is thrown away before the continuation runs, so only the value and the log pass
  rw [andThen_eq_done_iff]
  constructor
  · rintro (⟨h, hv⟩ | ⟨w, y, h, hw, hk⟩)
    · obtain ⟨u, hu, rfl⟩ := mapEnv_eq_done_iff.mp h
      exact .inl ⟨u, hu, hv, rfl⟩
    · obtain ⟨u, hu, rfl⟩ := mapEnv_eq_done_iff.mp h
      exact .inr ⟨w, u, hu, hw, hk⟩
  · rintro (⟨u, hu, hv, rfl⟩ | ⟨w, u, hu, hw, hk⟩)
    · exact .inl ⟨mapEnv_eq_done_iff.mpr ⟨u, hu, rfl⟩, hv⟩
    · exact .inr ⟨w, ⟨env, u.log⟩, mapEnv_eq_done_iff.mpr ⟨u, hu, rfl⟩, hw, hk⟩

theorem argumentsShown_singleton (v : Value) : argumentsShown (.ok [v]) = .string v.display := by
  rw [argumentsShown, List.map_singleton, String.intercalate_singleton]

/-- An argument is shown in front of the others, with a comma, unless they end with an error. -/
theorem argumentsShown_cons (v : Value) {r : Except Fault (List Value)} (hr : r ≠ .ok []) :
    argumentsShown (r.map (v :: ·))
      = if (argumentsShown r).isError then argumentsShown r
        else .string (v.display ++ ", " ++ (argumentsShown r).display) := by
  rcases r with fault | (- | ⟨w, ws⟩)
  · rfl
  · exact absurd rfl hr
  · show Value.string (", ".intercalate (v.display :: w.display :: ws.map Value.display)) = _
    rw [String.intercalate_cons_cons]
    rfl

section
variable {ctx : Context} {es : List Node} {env env' : Env} {v : Value} {out : List Value}

theorem ArgumentsEnd.ne_nil {b : Node → Behaviour} {r : Except Fault (List Value)}
    (h : ArgumentsEnd b env es r out) (hes : es ≠ []) : r ≠ .ok [] := by
  cases h with
  | nil => exact absurd rfl hes
  | failed => nofun
  | @cons _ _ _ _ _ r => cases r <;> nofun

/-- The display of a list is its first argument and then, unless that is an error, the display of
the rest, both in the environment of the list. -/
theorem eval_link (hctx : ctx.Quiet) (fuel : Nat) (e : Node) (rest : Option Node) (s : State) :
    eval (fuel + 1) ctx (.ofParts .arguments [] [(.left, some e), (.right, rest)]) s
      = ((eval fuel ctx e s).inEnv s.env).andThen fun v s => match rest with
        | none => .done (.string v.display) s
        | some list => ((eval fuel ctx list s).inEnv s.env).andThen fun w s =>
          .done (.string (v.display ++ ", " ++ w.display)) s := by
  rw [hctx.eval_succ]
  cases rest <;> rfl

/-- What a list with a first argument and further ones does. -/
theorem behaviour_link_iff (hctx : ctx.Quiet) {e list : Node} :
    behaviour eval ctx (.ofParts .arguments [] [(.left, some e), (.right, some list)]) env v env'
        out
      ↔ env' = env ∧ ((∃ left, behaviour eval ctx e env v left out ∧ v.isError = true)
        ∨ ∃ w x left left' first rest, behaviour eval ctx e env w left first ∧ w.isError = false
          ∧ behaviour eval ctx list env x left' rest ∧ out = first ++ rest
          ∧ v = if x.isError then x else .string (w.display ++ ", " ++ x.display)) := by
  constructor
  · -- the first argument fails, or the rest fails, or both values are shown
    rintro ⟨t, ⟨- | fuel, h⟩, rfl, rfl⟩
    · cases h
    rw [eval_link hctx, Outcome.inEnv_andThen_eq_done_iff] at h
    obtain ⟨u, hu, hv, rfl⟩ | ⟨w, u, hu, hw, hrest⟩ := h
    · exact ⟨rfl, .inl ⟨u.env, ⟨u, ⟨fuel, hu⟩, rfl, rfl⟩, hv⟩⟩
    obtain ⟨y, hy, hv, rfl⟩ | ⟨x, y, hy, hx, hend⟩ := Outcome.inEnv_andThen_eq_done_iff.mp hrest
    · obtain ⟨rest, hy, hout⟩ := behaviour_of_eval hy
      refine ⟨rfl, .inr ⟨w, v, u.env, y.env, _, rest, ⟨u, ⟨fuel, hu⟩, rfl, rfl⟩, hw, hy, hout, ?_⟩⟩
      rw [if_pos hv]
    · obtain ⟨rest, hy, hout⟩ := behaviour_of_eval hy
      cases hend
      refine ⟨rfl, .inr ⟨w, x, u.env, y.env, _, rest, ⟨u, ⟨fuel, hu⟩, rfl, rfl⟩, hw, hy, hout, ?_⟩⟩
      rw [hx]
      rfl
  · rintro ⟨rfl, ⟨left, ⟨u, ⟨fuel, hu⟩, -, hout⟩, hv⟩
      | ⟨w, x, left, left', first, rest, ⟨u, ⟨fuel, hu⟩, -, rfl⟩, hw, hx, rfl, rfl⟩⟩
    · refine ⟨⟨env', u.log⟩, ⟨fuel + 1, ?_⟩, rfl, hout⟩
      rw [eval_link hctx]
      exact Outcome.inEnv_andThen_eq_done_iff.mpr (.inl ⟨u, hu, hv, rfl⟩)
    · -- the steps of both parts together are enough for the node
      obtain ⟨y, steps, hy, -, hout⟩ := eval_of_behaviour hx (s := ⟨env', u.log⟩) rfl
      refine ⟨⟨env', y.log⟩, ⟨max fuel steps + 1, ?_⟩, rfl, hout⟩
      have hu' := eval_eq_of_done hu (Nat.le_max_left fuel steps)
      rw [eval_link hctx]
      refine Outcome.inEnv_andThen_eq_done_iff.mpr (.inr ⟨w, u, hu', hw, ?_⟩)
      refine Outcome.inEnv_andThen_eq_done_iff.mpr ?_
      rcases hv : x.isError with - | -
      · exact .inr ⟨x, y, hy _ (Nat.le_max_right ..), hv, rfl⟩
      · exact .inl ⟨y, hy _ (Nat.le_max_right ..), hv, rfl⟩

/-- What a list with one argument does. -/
theorem behaviour_last_link_iff (hctx : ctx.Quiet) {e : Node} :
    behaviour eval ctx (.ofParts .arguments [] [(.left, some e), (.right, none)]) env v env' out
      ↔ env' = env ∧ ∃ w left, behaviour eval ctx e env w left out
        ∧ v = if w.isError then w else .string w.display := by
  constructor
  · rintro ⟨t, ⟨- | fuel, h⟩, rfl, rfl⟩
    · cases h
    rw [eval_link hctx, Outcome.inEnv_andThen_eq_done_iff] at h
    -- an error is passed on, any other value is shown
    obtain ⟨u, hu, hv, rfl⟩ | ⟨w, u, hu, hw, hend⟩ := h
    · exact ⟨rfl, v, u.env, ⟨u, ⟨fuel, hu⟩, rfl, rfl⟩, (if_pos hv).symm⟩
    · cases hend
      refine ⟨rfl, w, u.env, ⟨u, ⟨fuel, hu⟩, rfl, rfl⟩, ?_⟩
      rw [hw]
      rfl
  · rintro ⟨rfl, w, left, ⟨u, ⟨fuel, hu⟩, -, hout⟩, rfl⟩
    refine ⟨⟨env', u.log⟩, ⟨fuel + 1, ?_⟩, rfl, hout⟩
    rw [eval_link hctx]
    refine Outcome.inEnv_andThen_eq_done_iff.mpr ?_
    rcases hw : w.isError with - | -
    · exact .inr ⟨w, u, hu, hw, rfl⟩
    · exact .inl ⟨u, hu, hw, rfl⟩

/-- A list of arguments, as a node, shows what they come to. -/
theorem behaviour_arguments_iff (hctx : ctx.Quiet) {list : Node}
    (hlist : Node.arguments? es = some list) :
    behaviour eval ctx list env v env' out
      ↔ env' = env
        ∧ ∃ r, ArgumentsEnd (behaviour eval ctx) env es r out ∧ v = argumentsShown r := by
  induction es generalizing list v env' out with
  | nil => cases hlist
  | cons e es ih =>
    obtain rfl := Option.some.inj hlist
    -- the last link has a display of its own, and the others put theirs in front of that of the rest
    cases es with
    | nil =>
      rw [Node.arguments?, behaviour_last_link_iff hctx]
      refine and_congr_right fun _ => ?_
      constructor
      · rintro ⟨w, left, he, rfl⟩
        rcases hw : w.isError with - | -
        · refine ⟨.ok [w], ?_, (argumentsShown_singleton w).symm⟩
          rw [← List.append_nil out]
          exact .cons he hw .nil
        · obtain ⟨fault, rfl⟩ := Value.isError_iff.mp hw
          exact ⟨.error fault, .failed he, rfl⟩
      · rintro ⟨r, hr, rfl⟩
        cases hr with
        | failed he => exact ⟨_, _, he, rfl⟩
        | @cons _ _ w left _ _ _ he hw hes =>
          cases hes
          refine ⟨w, left, ?_, ?_⟩
          · rw [List.append_nil]
            exact he
          · rw [hw]
            exact argumentsShown_singleton w
    | cons e' es =>
      rw [Node.arguments?, behaviour_link_iff hctx]
      refine and_congr_right fun _ => ?_
      constructor
      · rintro (⟨left, he, hv⟩ | ⟨w, x, left, left', first, rest, he, hw, hx, rfl, rfl⟩)
        · obtain ⟨fault, rfl⟩ := Value.isError_iff.mp hv
          exact ⟨.error fault, .failed he, rfl⟩
        · obtain ⟨-, r, hr, rfl⟩ := (ih rfl).mp hx
          have hne := hr.ne_nil (List.cons_ne_nil e' es)
          exact ⟨_, .cons he hw hr, (argumentsShown_cons w hne).symm⟩
      · rintro ⟨r, hr, rfl⟩
        cases hr with
        | failed he => exact .inl ⟨_, he, rfl⟩
        | @cons _ _ w left first r rest he hw hes =>
          have hx : behaviour eval ctx (.ofParts .arguments []
              [(.left, some e'), (.right, Node.arguments? es)]) env (argumentsShown r) env rest :=
            (ih rfl).mpr ⟨rfl, r, hes, rfl⟩
          have hne := hes.ne_nil (List.cons_ne_nil e' es)
          exact .inr ⟨w, _, left, env, first, rest, he, hw, hx, rfl, argumentsShown_cons w hne⟩

end

/-! ### Argument lists in calls -/

section
variable {ctx : Context} {env env' : Env} {v : Value} {out : List Value}

/-- A body or a returned expression may be missing; then nothing happens. -/
theorem optional_of_eval {fuel : Nat} {part : Option Node} {s t : State}
    (h : optional (eval fuel) ctx part s = .done v t) :
    ∃ out, Behaviour.optional (behaviour eval ctx) part s.env v t.env out
      ∧ emissions t.log = emissions s.log ++ out := by
  cases part with
  | none =>
    cases h
    exact ⟨[], ⟨rfl, rfl, rfl⟩, (List.append_nil _).symm⟩
  | some n => exact behaviour_of_eval h

/-- The same the other way round, with enough steps. -/
theorem eval_of_optional {part : Option Node}
    (h : Behaviour.optional (behaviour eval ctx) part env v env' out) {s : State}
    (hs : s.env = env) :
    ∃ t steps, (∀ fuel, steps ≤ fuel → optional (eval fuel) ctx part s = .done v t)
      ∧ t.env = env' ∧ emissions t.log = emissions s.log ++ out := by
  cases part with
  | none =>
    obtain ⟨rfl, rfl, rfl⟩ := h
    exact ⟨s, 0, fun fuel _ => rfl, hs, (List.append_nil _).symm⟩
  | some n => exact eval_of_behaviour h hs

/-- Passing the arguments one by one is how their list ends. -/
theorem argumentsEnd_of_passing (hctx : ctx.Quiet) {fuel : Nat} {es : List Node}
    {log log' : List Event} {p : Passed} (h : Passing (eval fuel) ctx env es log p log') :
    ∃ r out, ArgumentsEnd (behaviour eval ctx) env es r out ∧ p = .ofEnd r
      ∧ emissions log' = emissions log ++ out := by
  induction h with
  | nil => exact ⟨_, _, .nil, rfl, (List.append_nil _).symm⟩
  | failed he =>
    obtain ⟨out, he, hout⟩ := behaviour_of_eval he
    exact ⟨_, out, .failed he, rfl, hout⟩
  -- on a stack without bound no argument exhausts it
  | exhausted he => exact absurd he (eval_ne_overflow hctx.room _ _ _)
  | @cons _ _ _ v _ _ _ he hv _ ih =>
    obtain ⟨first, he, hfirst⟩ := behaviour_of_eval he
    obtain ⟨r, rest, hes, rfl, hrest⟩ := ih
    refine ⟨_, _, .cons he hv hes, (Passed.ofEnd_map_cons v r).symm, ?_⟩
    rw [hrest, hfirst, List.append_assoc]

/-- The list of arguments is passed as it ends, with enough steps for all of them. -/
theorem passing_of_argumentsEnd {es : List Node} {r : Except Fault (List Value)}
    (h : ArgumentsEnd (behaviour eval ctx) env es r out) (log : List Event) :
    ∃ log' steps, (∀ fuel, steps ≤ fuel → Passing (eval fuel) ctx env es log (.ofEnd r) log')
      ∧ emissions log' = emissions log ++ out := by
  induction h generalizing log with
  | nil => exact ⟨log, 0, fun fuel _ => .nil, (List.append_nil _).symm⟩
  | failed he =>
    obtain ⟨t, steps, he, -, hout⟩ := eval_of_behaviour he (s := ⟨env, log⟩) rfl
    exact ⟨t.log, steps, fun fuel hle => .failed (he fuel hle), hout⟩
  | @cons _ _ v _ _ r _ he hv _ ih =>
    obtain ⟨t, steps, he, -, hfirst⟩ := eval_of_behaviour he (s := ⟨env, log⟩) rfl
    obtain ⟨log', steps', hes, hrest⟩ := ih t.log
    -- the greater of the two numbers of steps is enough for both
    refine ⟨log', max steps steps', ?_, ?_⟩
    · intro fuel hle
      rw [Passed.ofEnd_map_cons]
      exact .cons (he fuel (by omega)) hv (hes fuel (by omega))
    · rw [hrest, hfirst, List.append_assoc]

variable {name : String} {params : List String} {tree ret : Option Node} {es : List Node}

/-- What the frame of a call does: the body and then, unless that is an error, the return
expression. -/
def frameBehaviour (ctx : Context) (tree ret : Option Node) : Behaviour :=
  (Behaviour.optional (behaviour eval ctx.inCall) tree).andThen
    (Behaviour.optional (behaviour eval ctx.inCall) ret)

/-- A frame runs the body and then what is returned. -/
theorem runFrame_eq (hctx : ctx.Quiet) (fuel : Nat) (frame : State) :
    runFrame (eval fuel) ctx name tree ret frame
      = (optional (eval fuel) ctx.inCall tree frame).andThen
        fun _ s => optional (eval fuel) ctx.inCall ret s := by
  simp only [runFrame, hctx.note, hctx.noted]

/-- A frame does not exhaust a stack without bound. -/
theorem runFrame_ne_overflow (hctx : ctx.Quiet) {fuel : Nat} {frame : State} (log : List Event) :
    runFrame (eval fuel) ctx name tree ret frame ≠ .overflow log := by
  have hpart : ∀ part s log, optional (eval fuel) ctx.inCall part s ≠ .overflow log := by
    intro part s log
    cases part with
    | none => nofun
    | some n => exact eval_ne_overflow hctx.inCall.room n s log
  rw [runFrame_eq hctx]
  exact Outcome.andThen_ne_overflow (hpart tree frame log) fun _ s => hpart ret s log

/-- What a frame does as a run, it does as a behaviour. -/
theorem frameBehaviour_of_runFrame (hctx : ctx.Quiet) {fuel : Nat} {frame left : State}
    (h : runFrame (eval fuel) ctx name tree ret frame = .done v left) :
    ∃ out, frameBehaviour ctx tree ret frame.env v left.env out
      ∧ emissions left.log = emissions frame.log ++ out := by
  rw [runFrame_eq hctx, Outcome.andThen_eq_done_iff] at h
  obtain ⟨h, hv⟩ | ⟨w, u, h, hw, hret⟩ := h
  · obtain ⟨out, h, hout⟩ := optional_of_eval h
    exact ⟨out, .inl ⟨h, hv⟩, hout⟩
  · obtain ⟨first, h, hfirst⟩ := optional_of_eval h
    obtain ⟨second, hret, hsecond⟩ := optional_of_eval hret
    refine ⟨first ++ second, .inr ⟨w, u.env, first, second, h, hw, hret, rfl⟩, ?_⟩
    rw [hsecond, hfirst, List.append_assoc]

/-- What a frame does as a behaviour, it does as a run with enough steps. -/
theorem runFrame_of_frameBehaviour (hctx : ctx.Quiet) (name : String) (frame : State)
    (h : frameBehaviour ctx tree ret frame.env v env' out) :
    ∃ left steps, (∀ fuel, steps ≤ fuel →
        runFrame (eval fuel) ctx name tree ret frame = .done v left)
      ∧ left.env = env' ∧ emissions left.log = emissions frame.log ++ out := by
  simp only [runFrame_eq hctx, Outcome.andThen_eq_done_iff]
  -- either the body fails, or it is followed by what is returned
  obtain ⟨h, hv⟩ | ⟨w, mid, first, second, h, hw, hret, rfl⟩ := h
  · obtain ⟨left, steps, h, henv, hout⟩ := eval_of_optional h rfl
    exact ⟨left, steps, fun fuel hle => .inl ⟨h fuel hle, hv⟩, henv, hout⟩
  · obtain ⟨u, steps, h, hmid, hfirst⟩ := eval_of_optional h rfl
    obtain ⟨left, steps', hret, henv, hsecond⟩ := eval_of_optional hret hmid
    refine ⟨left, max steps steps', ?_, henv, ?_⟩
    · intro fuel hle
      exact .inr ⟨w, u, h fuel (by omega), hw, hret fuel (by omega)⟩
    · rw [hsecond, hfirst, List.append_assoc]

/-- A call of a subroutine with the right number of arguments is its invocation. -/
theorem eval_call_eq (hctx : ctx.Quiet) (fuel : Nat) {s : State}
    (hf : s.env[name]? = some (.subroutine params tree ret)) (hlen : es.length = params.length)
    (hdepth : ctx.depth < ctx.limit) :
    eval (fuel + 1) ctx (.call name es) s
      = (invoke (eval fuel) ctx name params tree ret es s).caught
        (.callTooDeep name (ctx.depth + 1)) s.env := by
  rw [hctx.eval_succ]
  exact call_eq_invoke hf hlen hdepth

/-- What a call does with what its arguments come to: an error is its result, and values are bound
to the parameters for the frame. -/
theorem behaviour_call_iff (hctx : ctx.Quiet)
    (hf : env[name]? = some (.subroutine params tree ret)) (hlen : es.length = params.length)
    (hdepth : ctx.depth < ctx.limit) :
    behaviour eval ctx (.call name es) env v env' out
      ↔ (∃ fault, ArgumentsEnd (behaviour eval ctx) env es (.error fault) out
          ∧ v = .error fault ∧ env' = env)
        ∨ ∃ vs left first second, ArgumentsEnd (behaviour eval ctx) env es (.ok vs) first
          ∧ frameBehaviour ctx tree ret (env.bindAll params vs) v left second
          ∧ (∀ x, x ∈ params → env'[x]? = env[x]?) ∧ (∀ x, x ∉ params → env'[x]? = left[x]?)
          ∧ out = first ++ second := by
  constructor
  · rintro ⟨t, ⟨- | fuel, h⟩, rfl, rfl⟩
    · cases h
    rw [eval_call_eq hctx fuel hf hlen hdepth] at h
    -- a stack without bound is exhausted neither in an argument nor in the frame
    cases callEnds_of_invoke hlen h with
    | argument hp =>
      obtain ⟨r, out, hr, hend, hout⟩ := argumentsEnd_of_passing hctx hp
      cases r with
      | ok vs => cases hend
      | error fault =>
        cases hend
        refine .inl ⟨_, ?_, rfl, rfl⟩
        rw [hout]
        exact hr
    | frame hp hrun hin hout =>
      obtain ⟨r, first, hr, hend, hfirst⟩ := argumentsEnd_of_passing hctx hp
      obtain ⟨second, hframe, hsecond⟩ := frameBehaviour_of_runFrame hctx hrun
      cases r with
      | error fault => cases hend
      | ok vs =>
        cases hend
        refine .inr ⟨_, _, first, second, hr, hframe, hin, hout, ?_⟩
        rw [hsecond, hfirst]
        rfl
    | exhaustedArgument hp =>
      obtain ⟨r, -, -, hend, -⟩ := argumentsEnd_of_passing hctx hp
      cases r <;> cases hend
    | exhaustedFrame _ hrun => exact absurd hrun (runFrame_ne_overflow hctx _)
  · rintro (⟨fault, hr, rfl, rfl⟩ | ⟨vs, left, first, second, hr, hframe, hin, hout, rfl⟩)
    · obtain ⟨log, steps, hp, hout⟩ := passing_of_argumentsEnd hr []
      refine ⟨⟨env', log⟩, ⟨steps + 1, ?_⟩, rfl, hout⟩
      rw [eval_call_eq hctx steps hf hlen hdepth]
      exact invoke_of_callEnds hlen (.argument (hp steps (Nat.le_refl _)))
    · obtain ⟨log, steps, hp, hfirst⟩ := passing_of_argumentsEnd hr []
      obtain ⟨last, steps', hrun, rfl, hsecond⟩ :=
        runFrame_of_frameBehaviour hctx name ⟨env.bindAll params vs, log⟩ hframe
      refine ⟨⟨env', last.log⟩, ⟨max steps steps' + 1, ?_⟩, rfl, ?_⟩
      · rw [eval_call_eq hctx _ hf hlen hdepth]
        exact invoke_of_callEnds hlen
          (.frame (hp _ (Nat.le_max_left ..)) (hrun _ (Nat.le_max_right ..)) hin hout)
      · rw [hsecond, hfirst]
        rfl

end

/-! ### The two agree -/

/-- **Arguments are displayed as they are passed.** Where the stack is not exhausted, with tracing
or without: a list of arguments, as a node, leaves the environment as it is, and its value shows
what the arguments come to, each of them in that environment. That is the displays of all values, in
order and with commas between them, or the first error; what follows an error is not evaluated. A
call with the same list, of a subroutine with as many parameters and below the depth limit, comes to
an end with what the arguments come to as well: an error is its result, in the environment of the
call, and values are those that the parameters are bound to in the frame. Arguments come to one end
at most. -/
theorem arguments_displayed_and_passed {es : List Node} (hes : es ≠ []) (ctx : Context)
    (env : Env) :
    ∃ list, Node.arguments? es = some list
      ∧ (Fits ctx list env → ∀ v env' out, behaviour eval ctx list env v env' out
        ↔ env' = env
          ∧ ∃ r, ArgumentsEnd (behaviour eval ctx.plain) env es r out ∧ v = argumentsShown r)
      ∧ (∀ name params tree ret, env[name]? = some (.subroutine params tree ret) →
        es.length = params.length → ctx.depth < ctx.limit → Fits ctx (.call name es) env →
        ∀ v env' out, behaviour eval ctx (.call name es) env v env' out
          ↔ (∃ fault, ArgumentsEnd (behaviour eval ctx.plain) env es (.error fault) out
              ∧ v = .error fault ∧ env' = env)
            ∨ ∃ vs left first second,
              ArgumentsEnd (behaviour eval ctx.plain) env es (.ok vs) first
              ∧ frameBehaviour ctx.plain tree ret (env.bindAll params vs) v left second
              ∧ (∀ x, x ∈ params → env'[x]? = env[x]?) ∧ (∀ x, x ∉ params → env'[x]? = left[x]?)
              ∧ out = first ++ second)
      ∧ ∀ r r' out out', ArgumentsEnd (behaviour eval ctx.plain) env es r out →
        ArgumentsEnd (behaviour eval ctx.plain) env es r' out' → r = r' ∧ out = out' := by
  obtain ⟨e, es, rfl⟩ := List.exists_cons_of_ne_nil hes
  refine ⟨_, rfl, ?_, ?_, ?_⟩
  · intro hfits v env' out
    rw [hfits.behaviour_eq_plain]
    exact behaviour_arguments_iff ctx.quiet_plain rfl
  · intro name params tree ret hf hlen hdepth hfits v env' out
    rw [hfits.behaviour_eq_plain]
    exact behaviour_call_iff ctx.quiet_plain hf hlen hdepth
  · intro r r' out out' hr hr'
    exact hr.unique (behaviour_determined ctx.plain) hr'

/-- Two subroutines: `g` makes `x` false, puts it out and returns it, and `second` returns its
second parameter. -/
def loweringEnv : Env :=
  ((∅ : Env).insert "x" (.variable (.bool true) false)).insert "g"
    (.subroutine [] (some (.sequence (.assignment "x" false (.boolean "False"))
      (.output (.reference "x")))) (some (.reference "x")))
  |>.insert "second" (.subroutine ["p", "q"] none (some (.reference "q")))

/-- The second argument is evaluated in the environment of the list, whatever the first one does. -/
theorem arguments_displayed_and_passed_lowering :
    (∃ list, Node.arguments? [.call "g" [], .reference "x"] = some list
      ∧ behaviour eval ⟨true, 50, 0, none⟩ list loweringEnv (.string "False, True") loweringEnv
        [.bool false])
    ∧ ∃ env', behaviour eval ⟨true, 50, 0, none⟩
        (.call "second" [.call "g" [], .reference "x"]) loweringEnv (.bool true) env' [.bool false]
      ∧ env'["x"]? = some (.variable (.bool true) false) := by
  let ctx : Context := ⟨true, 50, 0, none⟩
  have hes : [Node.call "g" [], .reference "x"] ≠ [] := List.cons_ne_nil _ _
  obtain ⟨list, hlist, hshown, hpassed, -⟩ := arguments_displayed_and_passed hes ctx loweringEnv
  have hfirst : ∃ left, behaviour eval ctx.plain (.call "g" []) loweringEnv (.bool false) left
      [.bool false] := ⟨_, _, ⟨5, rfl⟩, rfl, rfl⟩
  have hsecond : ∃ left, behaviour eval ctx.plain (.reference "x") loweringEnv (.bool true) left
      [] := ⟨_, _, ⟨5, rfl⟩, rfl, rfl⟩
  obtain ⟨left, hfirst⟩ := hfirst
  obtain ⟨left', hsecond⟩ := hsecond
  -- the call makes `x` false, and the reference behind it still reads what it was
  have hends : ArgumentsEnd (behaviour eval ctx.plain) loweringEnv [.call "g" [], .reference "x"]
      (.ok [.bool false, .bool true]) [.bool false] :=
    .cons hfirst rfl (.cons hsecond rfl .nil)
  constructor
  · refine ⟨list, hlist, (hshown (fits_of_room rfl _ _) _ _ _).mpr ⟨rfl, _, hends, ?_⟩⟩
    decide
  · let frame : Env := loweringEnv.bindAll ["p", "q"] [.bool false, .bool true]
    have hret : behaviour eval ctx.plain.inCall (.reference "q") frame (.bool true) frame [] :=
      ⟨⟨frame, []⟩, ⟨1, rfl⟩, rfl, rfl⟩
    have hframe : frameBehaviour ctx.plain none (some (.reference "q")) frame (.bool true) frame
        [] := .inr ⟨.void, frame, [], [], ⟨rfl, rfl, rfl⟩, rfl, hret, rfl⟩
    have hcall := hpassed "second" ["p", "q"] none (some (.reference "q")) rfl rfl (by decide)
      (fits_of_room rfl _ _) (.bool true) loweringEnv [.bool false]
    refine ⟨loweringEnv, hcall.mpr (.inr ⟨_, frame, _, [], hends, hframe, ?_, ?_, rfl⟩), rfl⟩
    · exact fun x _ => rfl
    · intro x hx
      exact (Env.getElem?_bindAll_of_not_mem hx loweringEnv _).symm

end Pseudocode
