import Mathlib.Data.List.Chain
import Pseudocode.Proofs.Acts.Rules
import Pseudocode.Proofs.Moments

/-!
The first error is final.

Errors are values, so nothing but the rules themselves keeps a program from going on after one. Each
rule stops at the first part that fails (`Plan.acts_failed`); this module puts the rules together.
After the first completion with an error only completions follow: those of the nodes that are open
at that point, from the inside to the outside, all with the same error.

The environment changes in two ways on the way out. A call puts back what its parameters masked,
and the effects of an argument are undone. `Unwinds` says which node does what.

Main result: `first_error_final`.
-/

namespace Pseudocode

open Eval

/-! ### The way out -/

/-- The evaluation at a point has failed in some environment, and the evaluation that it is a part
of fails in its turn, in an environment that depends on what the part was. -/
inductive Eval.Unwinds : Point × Env → Point × Env → Prop
  /-- Most nodes leave the environment as their part has left it. -/
  | part {p q : Point} {env} : p.node.kind ≠ .call → p.node.kind ≠ .arguments →
      p.node.Performs q.node → Unwinds (q, env) (p, env)
  /-- The effects of an argument are undone. -/
  | argument {p q : Point} {env} : p.node.kind = .call ∨ p.node.kind = .arguments →
      Part p.node q.node → Unwinds (q, env) (p, p.state.env)
  /-- The frame of a call is reconciled with the environment of the caller. -/
  | frame {p q : Point} {env name params tree ret} : p.node.kind = .call →
      p.node.text? "name" = some name →
      p.state.env[name]? = some (.subroutine params tree ret) →
      tree = some q.node ∨ ret = some q.node →
      Unwinds (q, env) (p, Env.restore p.state.env env params)

/-- The completion of a node with an error, in an environment. -/
def Eval.Moment.failed (fault : Fault) (r : Point × Env) : Moment :=
  .completed r.1 (.error fault) r.2

/-- A part leaves to its node. -/
theorem unwinds_of_mem_acts {fuel : Nat} {inner : Context} {p q : Point} {exit : Env → Env}
    (h : .part q exit ∈ p.acts fuel inner) (env : Env) : Unwinds (q, env) (p, exit env) := by
  have hdoes : Does inner p.node p.entry (.part q exit) := does_of_mem_acts h
  cases hdoes with
  | part hcall hargs hm => exact .part hcall hargs hm
  | argument hk hm _ =>
    rw [p.env_entry]
    exact .argument hk hm
  | frame hk hname hbind hm _ =>
    rw [p.env_entry] at hbind ⊢
    exact .frame hk hname hbind hm

/-! ### Open nodes -/

/-- Acts close no node that was open before. -/
theorem Eval.suffix_opened_flatMap {inside : Point → List Moment}
    (hinside : ∀ q stack, stack <:+ opened stack (inside q)) (as : List Act) (stack : List Point) :
    stack <:+ opened stack (as.flatMap (Act.moments inside)) := by
  induction as generalizing stack with
  | nil => exact List.suffix_rfl
  | cons a as ih =>
    rw [List.flatMap_cons, opened_append]
    rcases a with ⟨q, exit⟩ | v | -
    · exact (hinside q stack).trans (ih _)
    · exact ih stack
    · exact ih stack

/-- An evaluation closes no node that was open before. -/
theorem Eval.suffix_opened_moments (fuel : Nat) (p : Point) (stack : List Point) :
    stack <:+ opened stack (moments fuel p) := by
  induction fuel generalizing p stack with
  | zero => exact List.suffix_rfl
  | succ fuel ih =>
    rcases hroom : p.ctx.descend? with - | inner
    · rw [moments_of_no_room hroom]
      exact List.suffix_rfl
    rw [moments_of_descend hroom, opened, opened_append]
    obtain ⟨above, habove⟩ := suffix_opened_flatMap ih (p.acts fuel inner) (p :: stack)
    rw [← habove]
    -- only an outcome closes the node itself, and it was opened here
    rcases p.answer (eval (fuel + 1)) with ⟨v, s⟩ | log | -
    · rcases above with - | ⟨r, above⟩
      · exact List.suffix_rfl
      · exact ⟨above ++ [p], by simp [Point.completion, opened]⟩
    · exact ⟨above ++ [p], by simp [Point.completion, opened]⟩
    · exact ⟨above ++ [p], by simp [Point.completion, opened]⟩

/-- A moment of two rows is a moment of the first one or of the second one. -/
theorem Eval.append_eq_append_cons {l l' before after : List Moment} {m : Moment}
    (h : l ++ l' = before ++ m :: after) :
    (∃ after', l = before ++ m :: after' ∧ after = after' ++ l')
      ∨ ∃ before', before = l ++ before' ∧ l' = before' ++ m :: after := by
  obtain ⟨before', rfl, hl'⟩ | ⟨mid, hl, hrest⟩ := List.append_eq_append_iff.mp h
  · exact .inr ⟨before', rfl, hl'⟩
  · rcases mid with - | ⟨m', mid⟩
    · rw [List.append_nil] at hl
      exact .inr ⟨[], by rw [List.append_nil, hl], hrest.symm⟩
    · obtain ⟨rfl, rfl⟩ := List.cons.inj hrest
      exact .inl ⟨mid, hl, rfl⟩

/-- A moment of a row of acts is a moment of one of them. -/
theorem Act.exists_of_flatMap_moments {inside : Point → List Moment} {as : List Act}
    {before after : List Moment} {m : Moment}
    (h : as.flatMap (Act.moments inside) = before ++ m :: after) :
    ∃ as₁ a as₂ before' after', as = as₁ ++ a :: as₂
      ∧ a.moments inside = before' ++ m :: after'
      ∧ before = as₁.flatMap (Act.moments inside) ++ before'
      ∧ after = after' ++ as₂.flatMap (Act.moments inside) := by
  induction as generalizing before with
  | nil => simp at h
  | cons a as ih =>
    rw [List.flatMap_cons] at h
    obtain ⟨after', ha, rfl⟩ | ⟨before', rfl, has⟩ := append_eq_append_cons h
    · exact ⟨[], a, as, before, after', rfl, ha, rfl, rfl⟩
    · obtain ⟨as₁, b, as₂, before', after', rfl, hb, rfl, rfl⟩ := ih has
      exact ⟨a :: as₁, b, as₂, before', after', rfl, hb, by simp, rfl⟩

/-! ### Errors -/

/-- The end of a node is a single moment. -/
theorem Eval.Point.completion_eq_append_cons {p q : Point} {o : Outcome} {v : Value} {env : Env}
    {before after : List Moment} (h : p.completion o = before ++ .completed q v env :: after) :
    before = [] ∧ after = [] ∧ q = p ∧ ∃ s', o = .done v s' ∧ env = s'.env := by
  rcases o with ⟨w, s'⟩ | log | -
  · rcases before with - | ⟨m, before⟩
    · cases h
      exact ⟨rfl, rfl, rfl, s', rfl, rfl⟩
    · simp [completion] at h
  · simp [completion] at h
  · simp [completion] at h

variable {fuel : Nat} {inner : Context} {p q : Point} {fault : Fault}

/-- Before each of the acts of a node, no part of it is open. -/
theorem opened_before {before after : List Act} {a : Act}
    (h : p.acts fuel inner = before ++ a :: after) (stack : List Point) :
    opened stack (before.flatMap (Act.moments (moments fuel))) = stack := by
  have hsettled : Plan.Settled (eval fuel)
      ((Plan.ofNode fuel p.node).run (eval fuel) inner p.entry).Succeeds (p.acts fuel inner) :=
    Plan.settled_acts
  rw [h] at hsettled
  exact opened_flatMap (fun q stack hq => opened_moments stack hq) hsettled.succeed_before stack

/-- An error of a part is the last act of a node, and its value. -/
theorem answer_of_part_failed (hroom : p.ctx.descend? = some inner) {before after : List Act}
    {exit : Env → Env} {t : State} (h : p.acts fuel inner = before ++ .part q exit :: after)
    (hq : q.answer (eval fuel) = .done (.error fault) t) :
    after = [] ∧ ∃ s', p.answer (eval (fuel + 1)) = .done (.error fault) s'
      ∧ s'.env = exit t.env := by
  obtain ⟨hafter, u, hrun, henv⟩ := Plan.acts_failed h hq
  refine ⟨hafter, u.note p.ctx (.completed (.error fault)), ?_, by rw [State.env_note, henv]⟩
  rw [Point.answer_of_descend hroom, hrun]
  rfl

/-- After an error only completions follow: those of the nodes open at that point, with the same
error, up to the evaluation as a whole. -/
theorem exists_unwinding {env : Env} {before after : List Moment} (stack : List Point)
    (h : moments fuel p = before ++ .completed q (.error fault) env :: after) :
    ∃ s' path, p.answer (eval fuel) = .done (.error fault) s'
      ∧ after = path.map (Moment.failed fault)
      ∧ List.IsChain Unwinds ((q, env) :: path)
      ∧ ((q, env) :: path).getLast? = some (p, s'.env)
      ∧ q :: path.map Prod.fst ++ stack <:+ opened stack before := by
  induction fuel generalizing p before after stack with
  | zero => simp [moments] at h
  | succ fuel ih =>
    rcases hroom : p.ctx.descend? with - | inner
    · simp [moments_of_no_room hroom] at h
    rw [moments_of_descend hroom] at h
    rcases before with - | ⟨m, before⟩
    · cases h
    obtain ⟨rfl, hrest⟩ := List.cons.inj h
    rw [opened]
    obtain ⟨mid, hacts, rfl⟩ | ⟨before', rfl, hlast⟩ := append_eq_append_cons hrest
    · obtain ⟨as₁, a, as₂, before', after', has, ha, rfl, rfl⟩ :=
        Act.exists_of_flatMap_moments hacts
      rcases a with ⟨q', exit⟩ | v | -
      · -- a part fails, or something inside it
        obtain ⟨t, path, hpart, rfl, hchain, hlast, hstack⟩ := ih (p :: stack) ha
        obtain ⟨rfl, s', hanswer, henv⟩ := answer_of_part_failed hroom has hpart
        have hunwinds : Unwinds (q', t.env) (p, s'.env) := by
          rw [henv]
          exact unwinds_of_mem_acts (has ▸ List.mem_append_right as₁ List.mem_cons_self) t.env
        refine ⟨s', path ++ [(p, s'.env)], hanswer, ?_, ?_, ?_, ?_⟩
        · rw [hanswer]
          simp [Point.completion, Moment.failed]
        · rw [← List.cons_append, List.isChain_append]
          refine ⟨hchain, List.isChain_singleton _, ?_⟩
          rw [hlast]
          simpa using hunwinds
        · rw [← List.cons_append, List.getLast?_append]
          rfl
        · rw [opened_append, opened_before has]
          simpa using hstack
      · rcases before' with - | ⟨m, before'⟩ <;> simp [Act.moments] at ha
      · simp [Act.moments] at ha
    · -- the node itself is completed with the error
      obtain ⟨rfl, rfl, rfl, s', hanswer, rfl⟩ := Point.completion_eq_append_cons hlast
      refine ⟨s', [], hanswer, rfl, List.isChain_singleton _, rfl, ?_⟩
      rw [List.append_nil]
      exact suffix_opened_flatMap (suffix_opened_moments fuel) _ _

/-- The last moment of an evaluation is its own end. -/
theorem getLast?_moments {v : Value} {s' : State}
    (h : p.answer (eval fuel) = .done v s') :
    (moments fuel p).getLast? = some (.completed p v s'.env) := by
  cases fuel with
  | zero => cases h
  | succ fuel =>
    rcases hroom : p.ctx.descend? with - | inner
    · rw [Point.answer_of_no_room hroom] at h
      cases h
    · rw [moments_of_descend hroom, h, ← List.cons_append, List.getLast?_append]
      rfl

/-- **The first error is final.** Consider an evaluation that ends, and its moments, which are what
the log records of it. Once a node is completed with an error, nothing is started and nothing is put
out. What follows are the completions, with the same error, of nodes that are open at that point,
each one being a part of the next, up to the evaluation as a whole, whose value the error is.
The environment changes on the way only where the effects of arguments are undone and where calls
are left. -/
theorem first_error_final {ctx : Context} {n : Node} {s s' : State} {v : Value}
    (h : eval fuel ctx n s = .done v s') :
    landmarks s'.log
        = (recorded ctx.tracing (moments fuel ⟨ctx, n, s⟩)).reverse ++ landmarks s.log
      ∧ (moments fuel ⟨ctx, n, s⟩).getLast? = some (.completed ⟨ctx, n, s⟩ v s'.env)
      ∧ ∀ before q fault env after,
        moments fuel ⟨ctx, n, s⟩ = before ++ .completed q (.error fault) env :: after →
        v = .error fault
          ∧ ∃ path : List (Point × Env), after = path.map (Moment.failed fault)
            ∧ q :: path.map Prod.fst <:+ opened [] before
            ∧ List.IsChain Unwinds ((q, env) :: path)
            ∧ ((q, env) :: path).getLast? = some (⟨ctx, n, s⟩, s'.env) := by
  refine ⟨landmarks_of_eval fuel ⟨ctx, n, s⟩ s'.log ?_, getLast?_moments h, ?_⟩
  · rw [Point.answer, h]
    rfl
  · intro before q fault env after hmoments
    -- nothing follows an error but the ends of the nodes around it
    obtain ⟨t, path, hanswer, hafter, hchain, hlast, hopen⟩ := exists_unwinding [] hmoments
    obtain ⟨rfl, rfl⟩ := Outcome.done.inj (h.symm.trans hanswer)
    exact ⟨rfl, path, hafter, by simpa using hopen, hchain, hlast⟩

/-- A variable `x`, and a subroutine with a parameter `x`, whose body assigns to `y` and reads a
variable that does not exist. -/
def failingEnv : Env :=
  (∅ : Env).insert "x" (.variable (.bool false) false)
    |>.insert "f" (.subroutine ["x"]
      (some (.sequence (.assignment "y" false (.boolean "True"))
        (.assignment "x" false (.reference "z")))) none)

/-- A call of that subroutine, and an output behind it. -/
def failingBlock : Node :=
  .sequence (.output (.call "f" [.boolean "True"])) (.output (.boolean "True"))

/-- The error of the body is the value of the block. Five nodes are open when the variable is read:
an assignment and the body, the call, an output and the block. The second output is not started, `x`
is as it was, and `y` has its value from the body. -/
theorem first_error_final_in_call :
    ∃ s' before q env after, eval 12 ⟨true, 50, 0, none⟩ failingBlock ⟨failingEnv, []⟩
        = .done (.error (.unresolved "Variable" "z")) s'
      ∧ moments 12 ⟨⟨true, 50, 0, none⟩, failingBlock, ⟨failingEnv, []⟩⟩
        = before ++ .completed q (.error (.unresolved "Variable" "z")) env :: after
      ∧ q.node = .reference "z" ∧ after.length = 5
      ∧ (∃ path : List (Point × Env), after = path.map (Moment.failed (.unresolved "Variable" "z"))
        ∧ List.IsChain Unwinds ((q, env) :: path)
        ∧ ((q, env) :: path).getLast?
          = some (⟨⟨true, 50, 0, none⟩, failingBlock, ⟨failingEnv, []⟩⟩, s'.env))
      ∧ s'.env["x"]? = some (.variable (.bool false) false)
      ∧ s'.env["y"]? = some (.variable (.bool true) false) := by
  obtain ⟨s', hrun, hx, hy⟩ : ∃ s', eval 12 ⟨true, 50, 0, none⟩ failingBlock ⟨failingEnv, []⟩
        = .done (.error (.unresolved "Variable" "z")) s'
      ∧ s'.env["x"]? = some (.variable (.bool false) false)
      ∧ s'.env["y"]? = some (.variable (.bool true) false) := ⟨_, rfl, rfl, rfl⟩
  -- the moments are computed up to the name that is not bound
  obtain ⟨before, q, env, after, hmoments, hq, hlength⟩ : ∃ before q env after,
      moments 12 ⟨⟨true, 50, 0, none⟩, failingBlock, ⟨failingEnv, []⟩⟩
        = before ++ .completed q (.error (.unresolved "Variable" "z")) env :: after
      ∧ q.node = .reference "z" ∧ after.length = 5 :=
    ⟨[_, _, _, _, _, _, _, _, _, _, _, _], _, _, _, rfl, rfl, rfl⟩
  obtain ⟨-, path, hafter, -, hchain, hlast⟩ := (first_error_final hrun).2.2 _ _ _ _ _ hmoments
  exact ⟨s', before, q, env, after, hrun, hmoments, hq, hlength, ⟨path, hafter, hchain, hlast⟩, hx, hy⟩

end Pseudocode
