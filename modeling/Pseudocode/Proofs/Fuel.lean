import Pseudocode.Proofs.Plan

/-!
The number of steps does not matter.

An evaluation that is not finished within its steps says nothing about how it would go on. If it is
finished, more steps make no difference. `Precedes` is this order between outcomes; everything that
outcomes are put together with respects it, and so do plans.

The number of steps also bounds the rounds of a loop. The plan of a loop with more rounds goes on
where the shorter one gives up.

Main results: `precedes_eval`, and `eval_eq_of_done` for evaluations that end.
-/

namespace Pseudocode

namespace Outcome

/-- The second outcome is the first one, if that is finished. -/
def Precedes (o o' : Outcome) : Prop := o ≠ .unfinished → o' = o

variable {o o' : Outcome}

theorem Precedes.refl (o : Outcome) : o.Precedes o := fun _ => rfl

/-- What is once settled stays settled. -/
theorem Precedes.trans {o'' : Outcome} (h : o.Precedes o') (h' : o'.Precedes o'') :
    o.Precedes o'' := by
  intro ho
  have heq : o' = o := h ho
  rw [← heq]
  exact h' (heq ▸ ho)

/-- An evaluation that has not ended may still do anything. -/
theorem precedes_of_unfinished (o : Outcome) : unfinished.Precedes o := fun h => absurd rfl h

/-- A continuation settles more where more is settled. -/
theorem Precedes.andThen (h : o.Precedes o') {k k' : Value → State → Outcome}
    (hk : ∀ v s, (k v s).Precedes (k' v s)) : (o.andThen k).Precedes (o'.andThen k') := by
  rcases o with ⟨v, s⟩ | log | -
  · rw [h (by simp)]
    rcases hv : v.isError with - | -
    · rw [andThen_done_of_not_isError hv, andThen_done_of_not_isError hv]
      exact hk v s
    · simpa [Outcome.andThen, hv] using Precedes.refl _
  · rw [h (by simp)]
    exact .refl _
  · exact precedes_of_unfinished _

/-- Outcomes stay in order under everything that leaves the unfinished one as it is. -/
theorem Precedes.map (h : o.Precedes o') {g : Outcome → Outcome}
    (hg : g .unfinished = .unfinished) : (g o).Precedes (g o') := by
  intro hne
  have ho : o ≠ .unfinished := by
    rintro rfl
    exact hne hg
  rw [h ho]

end Outcome

/-! ### Plans -/

namespace Plan

variable {ev ev' : Evaluator} {plan : Plan} {ctx : Context} {n : Node} {s : State}

/-- A plan whose parts are evaluated in more steps. -/
theorem precedes_run (hev : ∀ ctx n s, (ev ctx n s).Precedes (ev' ctx n s)) :
    (plan.run ev ctx s).Precedes (plan.run ev' ctx s) := by
  induction plan generalizing ctx s with
  | finish v => exact .refl _
  | unfinished => exact .refl _
  | look k ih => exact ih s.env
  | note e remark next ih => exact ih
  | emit v next ih => exact ih
  | bind name b next ih => exact ih
  -- the parts settle more, and so does what follows them
  | ask effects m k ih =>
    rw [run_ask, run_ask]
    exact ((hev ctx m s).map (g := Outcome.mapEnv (effects.after s.env)) rfl).andThen
      fun v t => ih v
  | askReturn name m => exact (hev ctx m s).map (g := Outcome.noted ctx (.returned name)) rfl
  | guarded name inner ih =>
    by_cases hdepth : ctx.limit ≤ ctx.depth
    · rw [run_guarded_of_le _ _ hdepth, run_guarded_of_le _ _ hdepth]
      exact .refl _
    · rw [run_guarded_of_not_le _ _ hdepth, run_guarded_of_not_le _ _ hdepth]
      exact ih.map (g := Outcome.caught (.callTooDeep name ctx.inCall.depth) s.env) rfl
  | framed name params vs inner ih =>
    exact ih.map (g := Outcome.mapEnv fun env => Env.restore s.env env params) rfl

/-- A test goes on further if its choices do. -/
theorem precedes_test {condition : Node} {statement : String} {k k' : Bool → Plan}
    (hk : ∀ b t, ((k b).run ev ctx t).Precedes ((k' b).run ev ctx t)) :
    ((test condition statement k).run ev ctx s).Precedes
      ((test condition statement k').run ev ctx s) := by
  refine (Outcome.Precedes.refl (ev ctx condition s)).andThen fun v t => ?_
  rcases v with x | b | text | - | fault
  · exact .refl _
  · exact hk b t
  all_goals exact .refl _

/-- One round more settles no less. -/
theorem precedes_whileLoop (condition tree : Node) (rounds count : Nat) (value : Value) :
    ((whileLoop condition tree rounds count value).run ev ctx s).Precedes
      ((whileLoop condition tree (rounds + 1) count value).run ev ctx s) := by
  induction rounds generalizing count value s with
  | zero => exact Outcome.precedes_of_unfinished _
  | succ rounds ih =>
    refine precedes_test fun b t => ?_
    rcases b with - | -
    · exact .refl _
    · exact (Outcome.Precedes.refl (ev ctx tree _)).andThen fun v u => ih (count + 1) v

theorem precedes_repeatLoop (condition tree : Node) (rounds count : Nat) :
    ((repeatLoop condition tree rounds count).run ev ctx s).Precedes
      ((repeatLoop condition tree (rounds + 1) count).run ev ctx s) := by
  induction rounds generalizing count s with
  | zero => exact Outcome.precedes_of_unfinished _
  | succ rounds ih =>
    refine (Outcome.Precedes.refl (ev ctx tree _)).andThen fun v t => ?_
    refine precedes_test fun b u => ?_
    rcases b with - | -
    · exact ih (count + 1)
    · exact .refl _

/-- With a round more, a loop of any style settles no less. -/
theorem precedes_loop (rounds : Nat) :
    ((loop rounds n).run ev ctx s).Precedes ((loop (rounds + 1) n).run ev ctx s) := by
  unfold loop
  rcases n.text? "style" with - | style
  · exact .refl _
  rcases n.child? .argument with - | condition
  · exact .refl _
  rcases n.child? .left with - | tree
  · exact .refl _
  dsimp only
  -- the style says which of the two loops it is
  split
  · exact precedes_whileLoop condition tree rounds 0 .unit
  split
  · exact precedes_repeatLoop condition tree rounds 0
  · exact .refl _

/-- The plan of a node with more rounds. -/
theorem precedes_ofNode (rounds : Nat) :
    ((ofNode rounds n).run ev ctx s).Precedes ((ofNode (rounds + 1) n).run ev ctx s) := by
  by_cases hloop : n.kind = .loop
  · rw [ofNode, ofNode, hloop]
    exact precedes_loop rounds
  · have hsame : ofNode (rounds + 1) n = ofNode rounds n := by
      unfold ofNode
      split
      case h_6 hk => exact absurd hk hloop
      all_goals rfl
    rw [hsame]
    exact .refl _

end Plan

/-! ### Evaluations -/

variable {fuel fuel' : Nat} {ctx : Context} {n : Node} {s s' : State} {v : Value}

/-- One step more settles no less. -/
theorem precedes_eval_succ (fuel : Nat) (ctx : Context) (n : Node) (s : State) :
    (eval fuel ctx n s).Precedes (eval (fuel + 1) ctx n s) := by
  induction fuel generalizing ctx n s with
  | zero => exact Outcome.precedes_of_unfinished _
  | succ fuel ih =>
    rcases hroom : ctx.descend? with - | inner
    · rw [eval_of_no_room hroom, eval_of_no_room hroom]
      exact .refl _
    · rw [eval_of_descend hroom, eval_of_descend hroom]
      have hplan : ((Plan.ofNode fuel n).run (eval fuel) inner _).Precedes
          ((Plan.ofNode (fuel + 1) n).run (eval (fuel + 1)) inner (s.note ctx (.started n.kind))) :=
        (Plan.precedes_run ih).trans (Plan.precedes_ofNode fuel)
      exact hplan.map (g := Outcome.noted ctx .completed) rfl

/-- A finished evaluation is not changed by more steps. -/
theorem precedes_eval (h : fuel ≤ fuel') : (eval fuel ctx n s).Precedes (eval fuel' ctx n s) := by
  induction h with
  | refl => exact .refl _
  | step _ ih => exact ih.trans (precedes_eval_succ _ ctx n s)

/-- An evaluation that has ended has ended for good. -/
theorem eval_eq_of_done (h : eval fuel ctx n s = .done v s') (hle : fuel ≤ fuel') :
    eval fuel' ctx n s = .done v s' := by
  have hne : eval fuel ctx n s ≠ .unfinished := by
    rw [h]
    nofun
  rw [precedes_eval hle hne, h]

end Pseudocode
