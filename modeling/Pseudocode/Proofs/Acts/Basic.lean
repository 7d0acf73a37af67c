import Pseudocode.Proofs.Plan

/-!
What a plan does on its way.

`Plan.acts` lists the parts that a plan has evaluated, each with the point where that starts, and
the values that it puts out, in order. With a part comes its exit: what becomes of the environment
if the part ends with an error. It is left as the part leaves it, unless the part is an argument or
belongs to a frame.

Main results: an error of a part is the last act and the end of the plan (`acts_failed`), and a plan
that does not end has come to a part that does not (`acts_of_run_eq_unfinished`).
-/

namespace Pseudocode

open Eval

/-- The evaluation at a point. -/
def Eval.Point.answer (q : Point) (ev : Evaluator) : Outcome := ev q.ctx q.node q.state

/-- Something that a plan does. -/
inductive Act where
  /-- A part is evaluated; if it ends with an error, `exit` gives the environment that is left. -/
  | part (q : Point) (exit : Env → Env)
  | emission (v : Value)
  /-- The rounds of a loop are used up. -/
  | exhausted

namespace Act

/-- The act, done in a frame that is left in the given way. -/
def leaving (leave : Env → Env) : Act → Act
  | part q exit => part q fun env => leave (exit env)
  | emission v => emission v
  | exhausted => exhausted

/-- A part that leaves a frame is a part that was inside it. -/
theorem leaving_eq_part {leave : Env → Env} {a : Act} {q : Point} {exit : Env → Env}
    (h : a.leaving leave = part q exit) :
    ∃ exit', a = part q exit' ∧ exit = fun env => leave (exit' env) := by
  cases a with
  | part q' exit' =>
    cases h
    exact ⟨exit', rfl, rfl⟩
  | emission v => cases h
  | exhausted => cases h

end Act

namespace Outcome

/-- What follows a value that is no error; nothing follows any other end. -/
def onward {α : Type} (o : Outcome) (f : Value → State → List α) : List α :=
  match o with
  | .done v s => if v.isError then [] else f v s
  | _ => []

variable {α : Type} {f : Value → State → List α}

theorem onward_done_of_not_isError {v : Value} (h : v.isError = false) (s : State) :
    (done v s).onward f = f v s := by
  simp [onward, h]

/-- What happens behind an outcome needs a value that is no error. -/
theorem mem_onward {o : Outcome} {a : α} :
    a ∈ o.onward f ↔ ∃ v s, o = .done v s ∧ v.isError = false ∧ a ∈ f v s := by
  constructor
  · intro h
    rcases o with ⟨v, s⟩ | log | -
    · rcases hv : v.isError with - | -
      · rw [onward_done_of_not_isError hv] at h
        exact ⟨v, s, rfl, hv, h⟩
      · simp [onward, hv] at h
    · cases h
    · cases h
  · rintro ⟨v, s, rfl, hv, h⟩
    rwa [onward_done_of_not_isError hv]

/-- If something follows, it follows a value. -/
theorem onward_eq_append_cons {o : Outcome} {before after : List α} {a : α}
    (h : o.onward f = before ++ a :: after) :
    ∃ v s, o = .done v s ∧ v.isError = false ∧ f v s = before ++ a :: after := by
  have hmem : a ∈ o.onward f := by
    rw [h]
    exact List.mem_append_right before List.mem_cons_self
  obtain ⟨v, s, rfl, hv, -⟩ := mem_onward.mp hmem
  rw [onward_done_of_not_isError hv] at h
  exact ⟨v, s, rfl, hv, h⟩

/-- Changing the environment keeps the value and the log. -/
theorem mapEnv_eq_done_iff {o : Outcome} {g : Env → Env} {v : Value} {s : State} :
    o.mapEnv g = .done v s ↔ ∃ t, o = .done v t ∧ s = ⟨g t.env, t.log⟩ := by
  rcases o with ⟨w, t⟩ | log | -
  · constructor
    · intro h
      cases h
      exact ⟨t, rfl, rfl⟩
    · rintro ⟨t', h, rfl⟩
      cases h
      rfl
  · simp [mapEnv]
  · simp [mapEnv]

/-! ### Outcomes that do not end -/

theorem noted_eq_unfinished_iff {o : Outcome} {ctx : Context} {e : Value → Event} :
    o.noted ctx e = .unfinished ↔ o = .unfinished := by
  rcases o with ⟨v, s⟩ | log | - <;> simp [noted]

theorem mapEnv_eq_unfinished_iff {o : Outcome} {g : Env → Env} :
    o.mapEnv g = .unfinished ↔ o = .unfinished := by
  rcases o with ⟨v, s⟩ | log | - <;> simp [mapEnv]

theorem caught_eq_unfinished_iff {o : Outcome} {fault : Fault} {env : Env} :
    o.caught fault env = .unfinished ↔ o = .unfinished := by
  rcases o with ⟨v, s⟩ | log | - <;> simp [caught, fail]

/-- A continuation that does not end has been reached. -/
theorem andThen_done_eq_unfinished {v : Value} {s : State} {k : Value → State → Outcome}
    (h : (done v s).andThen k = .unfinished) : v.isError = false ∧ k v s = .unfinished := by
  rcases hv : v.isError with - | -
  · rw [andThen_done_of_not_isError hv] at h
    exact ⟨rfl, h⟩
  · simp [andThen, hv] at h

/-! ### Outcomes that succeed -/

/-- The evaluation ends with a value that is no error. -/
def Succeeds (o : Outcome) : Prop := ∃ v s, o = .done v s ∧ v.isError = false

theorem succeeds_noted_iff {o : Outcome} {ctx : Context} {e : Value → Event} :
    (o.noted ctx e).Succeeds ↔ o.Succeeds := by
  rcases o with ⟨v, s⟩ | log | - <;> simp [noted, Succeeds]

theorem succeeds_mapEnv_iff {o : Outcome} {g : Env → Env} :
    (o.mapEnv g).Succeeds ↔ o.Succeeds := by
  rcases o with ⟨v, s⟩ | log | - <;> simp [mapEnv, Succeeds]

theorem succeeds_caught_iff {o : Outcome} {fault : Fault} {env : Env} :
    (o.caught fault env).Succeeds ↔ o.Succeeds := by
  rcases o with ⟨v, s⟩ | log | - <;> simp [caught, fail, Succeeds]

/-- What goes on after something that does not succeed does not succeed. -/
theorem not_succeeds_andThen {o : Outcome} (h : ¬ o.Succeeds) (k : Value → State → Outcome) :
    ¬ (o.andThen k).Succeeds := by
  rcases o with ⟨v, s⟩ | log | -
  · rcases hv : v.isError with - | -
    · exact absurd ⟨v, s, rfl, hv⟩ h
    · simp [andThen, hv, Succeeds]
  · simp [Succeeds]
  · simp [Succeeds]

theorem onward_eq_nil {o : Outcome} (h : ¬ o.Succeeds) : o.onward f = [] := by
  refine List.eq_nil_iff_forall_not_mem.mpr fun a ha => h ?_
  obtain ⟨v, s, ho, hv, -⟩ := mem_onward.mp ha
  exact ⟨v, s, ho, hv⟩

end Outcome

/-- The act is done and its plan may go on. -/
def Act.Succeeds (ev : Evaluator) : Act → Prop
  | part q _ => (q.answer ev).Succeeds
  | emission _ => True
  | exhausted => False

namespace Plan

/-- What a plan does, in order. -/
def acts (ev : Evaluator) : Plan → Context → State → List Act
  | .finish _, _, _ => []
  | .unfinished, _, _ => [.exhausted]
  | .look k, ctx, s => (k s.env).acts ev ctx s
  | .note e _ next, ctx, s => next.acts ev ctx (s.note ctx e)
  | .emit v next, ctx, s => .emission v :: next.acts ev ctx (s.emit v)
  | .bind name b next, ctx, s => next.acts ev ctx (s.bind name b)
  | .ask effects m k, ctx, s =>
    .part ⟨ctx, m, s⟩ (effects.after s.env)
      :: ((ev ctx m s).mapEnv (effects.after s.env)).onward fun v t => (k v).acts ev ctx t
  | .askReturn _ m, ctx, s => [.part ⟨ctx, m, s⟩ id]
  | .guarded _ inner, ctx, s => if ctx.limit ≤ ctx.depth then [] else inner.acts ev ctx s
  | .framed name params vs inner, ctx, s =>
    (inner.acts ev ctx.inCall (State.note ⟨s.env.bindAll params vs, s.log⟩ ctx
      (.entered name ctx.inCall.depth))).map
        (Act.leaving fun env => Env.restore s.env env params)

variable {ev : Evaluator} {plan : Plan} {ctx : Context} {s : State}

theorem acts_look (k : Env → Plan) : (look k).acts ev ctx s = (k s.env).acts ev ctx s := rfl

theorem acts_emit (v : Value) (next : Plan) :
    (emit v next).acts ev ctx s = .emission v :: next.acts ev ctx (s.emit v) := rfl

/-- The part comes first, and the rest only if its value is no error. -/
theorem acts_ask (effects : Effects) (m : Node) (k : Value → Plan) :
    (ask effects m k).acts ev ctx s
      = .part ⟨ctx, m, s⟩ (effects.after s.env)
        :: ((ev ctx m s).mapEnv (effects.after s.env)).onward fun v t => (k v).acts ev ctx t := rfl

theorem acts_askReturn (name : String) (m : Node) :
    (askReturn name m).acts ev ctx s = [.part ⟨ctx, m, s⟩ id] := rfl

theorem acts_guarded_of_le (name : String) (inner : Plan) (h : ctx.limit ≤ ctx.depth) :
    (guarded name inner).acts ev ctx s = [] :=
  if_pos h

theorem acts_guarded_of_not_le (name : String) (inner : Plan) (h : ¬ ctx.limit ≤ ctx.depth) :
    (guarded name inner).acts ev ctx s = inner.acts ev ctx s :=
  if_neg h

/-- Inside a frame the acts are those of its plan, and each of them leaves the frame. -/
theorem acts_framed (name : String) (params : List String) (vs : List Value) (inner : Plan) :
    (framed name params vs inner).acts ev ctx s
      = (inner.acts ev ctx.inCall (State.note ⟨s.env.bindAll params vs, s.log⟩ ctx
          (.entered name ctx.inCall.depth))).map
            (Act.leaving fun env => Env.restore s.env env params) := rfl

/-! ### Errors of parts -/

/-- If a part ends with an error, nothing is done after it, and the plan ends with that error in
the environment that the exit of the part gives. -/
theorem acts_failed {before after : List Act} {q : Point} {exit : Env → Env} {fault : Fault}
    {t : State} (h : plan.acts ev ctx s = before ++ .part q exit :: after)
    (hq : q.answer ev = .done (.error fault) t) :
    after = [] ∧ ∃ u, plan.run ev ctx s = .done (.error fault) u ∧ u.env = exit t.env := by
  induction plan generalizing ctx s before exit after with
  | finish v =>
    rcases before with - | ⟨a, before⟩ <;> cases h
  | unfinished =>
    rcases before with - | ⟨a, before⟩
    · cases h
    · exact absurd (List.cons.inj h).2 (by simp)
  | look k ih => exact ih s.env h
  | note e remark next ih => exact ih h
  | emit v next ih =>
    rcases before with - | ⟨a, before⟩
    · cases h
    · exact ih (List.cons.inj h).2
  | bind name b next ih => exact ih h
  | ask effects m k ih =>
    rcases before with - | ⟨a, before⟩
    · -- this part is the one that fails
      obtain ⟨hpart, hafter⟩ := List.cons.inj h
      cases hpart
      have hev : ev ctx m s = .done (.error fault) t := hq
      rw [hev] at hafter
      refine ⟨hafter.symm, ⟨effects.after s.env t.env, t.log⟩, ?_, rfl⟩
      rw [run_ask, hev]
      rfl
    · obtain ⟨v, u, hev, hv, hacts⟩ := Outcome.onward_eq_append_cons (List.cons.inj h).2
      rw [run_ask, hev, Outcome.andThen_done_of_not_isError hv]
      exact ih v hacts
  | askReturn name m =>
    rcases before with - | ⟨a, before⟩
    · obtain ⟨hpart, hafter⟩ := List.cons.inj h
      cases hpart
      have hev : ev ctx m s = .done (.error fault) t := hq
      refine ⟨hafter.symm, t.note ctx (.returned name (.error fault)), ?_, State.env_note ..⟩
      rw [run_askReturn, hev]
      rfl
    · exact absurd (List.cons.inj h).2 (by simp)
  | guarded name inner ih =>
    by_cases hdepth : ctx.limit ≤ ctx.depth
    · rw [acts_guarded_of_le _ _ hdepth] at h
      exact absurd h (by simp)
    · rw [acts_guarded_of_not_le _ _ hdepth] at h
      obtain ⟨hafter, u, hrun, henv⟩ := ih h
      refine ⟨hafter, u, ?_, henv⟩
      rw [run_guarded_of_not_le _ _ hdepth, hrun]
      rfl
  -- the part inside leaves through the frame, so its exit goes on to restore the caller
  | framed name params vs inner ih =>
    obtain ⟨before', rest, hsplit, -, hrest⟩ := List.map_eq_append_iff.mp h
    obtain ⟨a, after', rfl, ha, rfl⟩ := List.map_eq_cons_iff.mp hrest
    obtain ⟨exit', rfl, rfl⟩ := Act.leaving_eq_part ha
    obtain ⟨rfl, u, hrun, henv⟩ := ih hsplit
    refine ⟨rfl, ⟨Env.restore s.env u.env params, u.log⟩, ?_, ?_⟩
    · rw [run_framed, hrun]
      rfl
    · rw [henv]

/-- A row of acts all of which succeed, except that the last one need not if the whole does not. -/
inductive Settled (ev : Evaluator) (whole : Prop) : List Act → Prop
  | nil : Settled ev whole []
  | cons {a as} : a.Succeeds ev → Settled ev whole as → Settled ev whole (a :: as)
  | last {a} : ¬ whole → Settled ev whole [a]

variable {whole : Prop} {as : List Act}

theorem Settled.all_succeed (h : Settled ev whole as) (hwhole : whole) :
    ∀ a ∈ as, a.Succeeds ev := by
  induction h with
  | nil => exact nofun
  | cons ha _ ih => exact List.forall_mem_cons.mpr ⟨ha, ih⟩
  | last hnot => exact absurd hwhole hnot

/-- Whatever comes before another act has succeeded. -/
theorem Settled.succeed_before {before after : List Act} {b : Act}
    (h : Settled ev whole (before ++ b :: after)) : ∀ a ∈ before, a.Succeeds ev := by
  induction before with
  | nil => exact nofun
  | cons a before ih =>
    generalize hrest : before ++ b :: after = rest at ih
    rw [List.cons_append, hrest] at h
    cases h with
    | cons ha h => exact List.forall_mem_cons.mpr ⟨ha, ih h⟩
    | last _ => simp at hrest

/-- Leaving a frame changes no success. -/
theorem Settled.leaving (leave : Env → Env) (h : Settled ev whole as) :
    Settled ev whole (as.map (Act.leaving leave)) := by
  induction h with
  | nil => exact .nil
  | @cons a as ha _ ih =>
    refine .cons ?_ ih
    rcases a with ⟨q, exit⟩ | v | - <;> exact ha
  | last hnot => exact .last hnot

/-- Where a plan goes on, what it has done has succeeded. -/
theorem settled_acts : Settled ev (plan.run ev ctx s).Succeeds (plan.acts ev ctx s) := by
  induction plan generalizing ctx s with
  | finish v => exact .nil
  | unfinished => exact .last fun ⟨v, t, h, _⟩ => nomatch h
  | look k ih => exact ih s.env
  | note e remark next ih => exact ih
  | emit v next ih => exact .cons trivial ih
  | bind name b next ih => exact ih
  | ask effects m k ih =>
    rw [acts_ask, run_ask]
    -- if the part succeeds, the rest decides; if not, it is the last act and decides itself
    by_cases hpart : (ev ctx m s).Succeeds
    · obtain ⟨v, t, hev, hv⟩ := hpart
      refine .cons ⟨v, t, hev, hv⟩ ?_
      rw [hev, Outcome.mapEnv, Outcome.onward_done_of_not_isError hv,
        Outcome.andThen_done_of_not_isError hv]
      exact ih v
    · have hend : ¬ ((ev ctx m s).mapEnv (effects.after s.env)).Succeeds :=
        fun h => hpart (Outcome.succeeds_mapEnv_iff.mp h)
      rw [Outcome.onward_eq_nil hend]
      exact .last (Outcome.not_succeeds_andThen hend _)
  | askReturn name m =>
    rw [acts_askReturn, run_askReturn, Outcome.succeeds_noted_iff]
    by_cases hpart : (ev ctx m s).Succeeds
    · exact .cons hpart .nil
    · exact .last hpart
  | guarded name inner ih =>
    by_cases hdepth : ctx.limit ≤ ctx.depth
    · rw [acts_guarded_of_le _ _ hdepth]
      exact .nil
    · rw [acts_guarded_of_not_le _ _ hdepth, run_guarded_of_not_le _ _ hdepth,
        Outcome.succeeds_caught_iff]
      exact ih
  | framed name params vs inner ih =>
    rw [acts_framed, run_framed, Outcome.succeeds_mapEnv_iff]
    exact ih.leaving _

/-- A plan does not end only if a part of it does not, or if a loop has used up its rounds. -/
theorem acts_of_run_eq_unfinished (h : plan.run ev ctx s = .unfinished) :
    ∃ a ∈ plan.acts ev ctx s,
      a = .exhausted ∨ ∃ q exit, a = .part q exit ∧ q.answer ev = .unfinished := by
  induction plan generalizing ctx s with
  | finish v => cases h
  | unfinished => exact ⟨_, List.mem_cons_self, .inl rfl⟩
  | look k ih => exact ih s.env h
  | note e remark next ih => exact ih h
  | emit v next ih =>
    obtain ⟨a, ha, hcause⟩ := ih h
    exact ⟨a, List.mem_cons_of_mem _ ha, hcause⟩
  | bind name b next ih => exact ih h
  | ask effects m k ih =>
    rw [run_ask] at h
    -- either the part ends and the rest does not, or the part itself does not end
    rcases hev : ev ctx m s with ⟨v, t⟩ | log | -
    · obtain ⟨hv, hrun⟩ := Outcome.andThen_done_eq_unfinished (hev ▸ h)
      obtain ⟨a, ha, hcause⟩ := ih v hrun
      refine ⟨a, List.mem_cons_of_mem _ (Outcome.mem_onward.mpr ?_), hcause⟩
      exact ⟨v, _, by rw [hev]; rfl, hv, ha⟩
    · rw [hev] at h
      cases h
    · exact ⟨_, List.mem_cons_self, .inr ⟨⟨ctx, m, s⟩, _, rfl, hev⟩⟩
  | askReturn name m =>
    rw [run_askReturn, Outcome.noted_eq_unfinished_iff] at h
    exact ⟨_, List.mem_cons_self, .inr ⟨⟨ctx, m, s⟩, id, rfl, h⟩⟩
  | guarded name inner ih =>
    by_cases hdepth : ctx.limit ≤ ctx.depth
    · rw [run_guarded_of_le _ _ hdepth] at h
      cases h
    · rw [run_guarded_of_not_le _ _ hdepth, Outcome.caught_eq_unfinished_iff] at h
      rw [acts_guarded_of_not_le _ _ hdepth]
      exact ih h
  | framed name params vs inner ih =>
    rw [run_framed, Outcome.mapEnv_eq_unfinished_iff] at h
    obtain ⟨a, ha, hcause⟩ := ih h
    refine ⟨_, List.mem_map_of_mem ha, ?_⟩
    obtain rfl | ⟨q, exit, rfl, hq⟩ := hcause
    · exact .inl rfl
    · exact .inr ⟨q, _, rfl, hq⟩

end Plan

end Pseudocode
