import Pseudocode.Eval.Basic
import Pseudocode.Proofs.Contract.Rules

/-!
Runs under a contract.

From the rules to whole evaluations, by induction on the steps; and from the end of an evaluation to
the points on its way. A point of a run is a node about to be evaluated, in some call or outside all
calls. `Visits` collects them without a second copy of the rules: one evaluation asks for another
one when it ends differently without that answer.

Main results: a sound contract holds at the end of every evaluation (`Sound.eval`,
`Sound.evalGuarded`) and at every point on the way (`Sound.visits`).
-/

namespace Pseudocode

/-! ### Whole evaluations -/

/-- One node, with an evaluator for its parts. -/
def Eval.node (rounds : Nat) (ev : Evaluator) : Evaluator := fun ctx n s =>
  match ctx.descend? with
  | none => .overflow s.log
  | some inner =>
    (Eval.step rounds ev inner n (s.note ctx (.started n.kind))).noted ctx .completed

theorem eval_succ (fuel : Nat) : eval (fuel + 1) = Eval.node fuel (eval fuel) := rfl

namespace Contract

variable {c : Contract} {ctx : Context} {n : Node} {s : State}

/-- A node does one step, below what the stack can hold. -/
theorem Sound.agree_node (hc : c.Sound) {ev ev' : Evaluator} (hev : c.Binds ev ev')
    (rounds : Nat) (hn : c.admits ctx n) (hs : c.keeps s.env) :
    c.Agree s.env (Eval.node rounds ev ctx n s) (Eval.node rounds ev' ctx n s) := by
  unfold Eval.node
  rcases hroom : ctx.descend? with - | inner
  · exact ⟨rfl, nofun⟩
  · have hnote : (s.note ctx (.started n.kind)).env = s.env := State.env_note ..
    have hstep := hc.agree_step hev rounds (hc.descend hn hroom) (s := s.note ctx (.started n.kind))
      (hnote ▸ hs)
    rw [hnote] at hstep
    exact hstep.noted

/-- Evaluations with the same number of steps agree with themselves, which is the contract along a
run. -/
theorem Sound.binds_eval (hc : c.Sound) (fuel : Nat) : c.Binds (eval fuel) (eval fuel) := by
  induction fuel with
  | zero => exact fun _ _ => ⟨rfl, nofun⟩
  | succ fuel ih =>
    intro ctx n s hn hs
    rw [eval_succ]
    exact hc.agree_node ih fuel hn hs

/-- A sound contract holds at the end of every evaluation that it admits. -/
theorem Sound.eval (hc : c.Sound) {fuel : Nat} {v : Value} {s' : State} (hn : c.admits ctx n)
    (hs : c.keeps s.env) (h : Pseudocode.eval fuel ctx n s = .done v s') :
    c.Leaves s.env v s'.env :=
  (hc.binds_eval fuel hn hs).leaves h

/-- A sound contract holds at the end of every evaluation for a host. -/
theorem Sound.evalGuarded (hc : c.Sound) {fuel : Nat} {v : Value} {s' : State}
    (hn : c.admits ctx n) (hs : c.keeps s.env)
    (h : Pseudocode.evalGuarded fuel ctx n s = .done v s') : c.Leaves s.env v s'.env :=
  ((hc.binds_eval fuel hn hs).caught hc .programTooDeep hs).leaves h

end Contract

/-! ### Points on the way -/

namespace Eval

/-- A point of a run: a node that is about to be evaluated. -/
structure Point where
  ctx : Context
  node : Node
  state : State

open Classical in
/-- An evaluator from which the answer at one point is withheld. -/
noncomputable def withhold (q : Point) (ev : Evaluator) : Evaluator := fun ctx n s =>
  if q = ⟨ctx, n, s⟩ then .unfinished else ev ctx n s

/-- The evaluation at one point asks for the one at another: it ends differently without that
answer. -/
def Asks (fuel : Nat) (p q : Point) : Prop :=
  node fuel (withhold q (eval fuel)) p.ctx p.node p.state
    ≠ node fuel (eval fuel) p.ctx p.node p.state

/-- The points that a run comes to, from the one where it starts. -/
inductive Visits : Nat → Point → Point → Prop
  | start {fuel p} : Visits fuel p p
  | inside {fuel p q r} : Asks fuel p q → Visits fuel q r → Visits (fuel + 1) p r

end Eval

namespace Contract

open Eval

variable {c : Contract}

/-- The rules ask for admitted evaluations only. -/
theorem Sound.asks (hc : c.Sound) {fuel : Nat} {p q : Point} (h : Asks fuel p q)
    (hn : c.admits p.ctx p.node) (hs : c.keeps p.state.env) :
    c.admits q.ctx q.node ∧ c.keeps q.state.env := by
  refine Classical.byContradiction fun hq => ?_
  -- the two evaluators differ only at `q`, which the contract does not reach
  have hbinds : c.Binds (withhold q (Pseudocode.eval fuel)) (Pseudocode.eval fuel) := by
    intro ctx n s hn' hs'
    have hne : q ≠ ⟨ctx, n, s⟩ := by
      rintro rfl
      exact hq ⟨hn', hs'⟩
    rw [withhold, if_neg hne]
    exact hc.binds_eval fuel hn' hs'
  exact h (hc.agree_node hbinds fuel hn hs).same

/-- A sound contract holds at every point that a run comes to. -/
theorem Sound.visits (hc : c.Sound) {fuel : Nat} {p q : Point} (h : Visits fuel p q)
    (hn : c.admits p.ctx p.node) (hs : c.keeps p.state.env) :
    c.admits q.ctx q.node ∧ c.keeps q.state.env := by
  induction h with
  | start => exact ⟨hn, hs⟩
  | inside hasks _ ih =>
    obtain ⟨hn', hs'⟩ := hc.asks hasks hn hs
    exact ih hn' hs'

end Contract

end Pseudocode
