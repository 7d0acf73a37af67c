import Pseudocode.Proofs.Brackets.Rules
import Pseudocode.Proofs.Tracing

/-!
Brackets have no meaning for a run.

A bracket costs a step and a place of the stack, and changes nothing else. `evalInside` evaluates
the core of a node, as if the brackets around it were not there, and takes no steps for them. It
gets to the same ends as the evaluator. With the same steps, what it does with a tree is what the
recursive evaluator does with the bare form of the tree.

Main result: `brackets_inert`.
-/

namespace Pseudocode

open Eval Node

/-- Evaluate the core of a node, and every block by its two slots, in at most `fuel` nested steps.
-/
def evalInside : Nat → Evaluator
  | 0, _, _, _ => .unfinished
  | fuel + 1, ctx, n, s => Eval.stepByParts fuel (evalInside fuel) ctx n.core s

/-! ### The two evaluators -/

/-- More steps change no outcome. -/
theorem growing_evalInside : Growing evalInside := by
  -- one step more first, and then any number of them
  have hsucc : ∀ fuel ctx n s,
      (evalInside fuel ctx n s).Precedes (evalInside (fuel + 1) ctx n s) := by
    intro fuel
    induction fuel with
    | zero =>
      intro ctx n s
      exact Outcome.precedes_of_unfinished _
    | succ fuel ih =>
      intro ctx n s
      exact precedes_stepByParts ih
  intro fuel fuel' hle ctx n s
  induction hle with
  | refl => exact .refl _
  | step _ ih => exact ih.trans (hsucc _ ctx n s)

/-- A stack without bound is not exhausted. -/
theorem evalInside_ne_overflow {fuel : Nat} {ctx : Context} (hroom : ctx.room = none) (n : Node)
    (s : State) (log : List Event) : evalInside fuel ctx n s ≠ .overflow log := by
  induction fuel generalizing ctx n s with
  | zero => nofun
  | succ fuel ih =>
    rw [evalInside, stepByParts_eq_run]
    exact Plan.run_ne_overflow (fun ctx n s h => ih h n s) hroom _

section
variable {ctx : Context} {n m : Node} {s t : State} {v : Value} {fuel : Nat}

/-- The rule of a node, blocks by their slots, with enough rounds for its loops. -/
theorem exists_stepByParts {ev : Evaluator} {ev' : Nat → Evaluator} (hgrow : Growing ev')
    (hroom : ∀ log ctx n s, ctx.room = none → ev ctx n s ≠ .overflow log) (hev : Reaches ev ev')
    (hctx : ctx.Quiet) {rounds : Nat} (h : stepByParts rounds ev ctx n s = .done v t) :
    ∃ fuel, stepByParts fuel (ev' fuel) ctx n s = .done v t := by
  by_cases hk : n.kind = .sequence
  · simp only [stepByParts_eq_run, Plan.byParts, if_pos hk] at h ⊢
    exact Plan.exists_run hgrow hroom hev hctx h
  · simp only [stepByParts, if_neg hk] at h ⊢
    exact exists_step hgrow hroom hev hctx h

/-- A bracket is its argument, one step later. -/
theorem evalRecursive_bracket (hctx : ctx.Quiet) (hk : n.kind = .bracket)
    (hm : n.child? .argument = some m) :
    evalRecursive (fuel + 1) ctx n s = evalRecursive fuel ctx m s := by
  rw [hctx.evalRecursive_succ, stepByParts, if_neg (by rw [hk]; decide), step, hk]
  show Eval.bracket (evalRecursive fuel) ctx n s = _
  rw [Eval.bracket, hm]

/-- For the other evaluator a bracket is its argument. -/
theorem evalInside_bracket (hk : n.kind = .bracket) (hm : n.child? .argument = some m) :
    evalInside fuel ctx n s = evalInside fuel ctx m s := by
  cases fuel with
  | zero => rfl
  | succ fuel => rw [evalInside, evalInside, core_of_bracket hk hm]

/-- A node without a bracket around it, or an empty bracket, is its own core. -/
theorem core_eq_self (h : ∀ m, n.kind = .bracket → n.child? .argument ≠ some m) : n.core = n := by
  by_cases hk : n.kind = .bracket
  · rcases hm : n.child? .argument with - | m
    · exact core_of_empty hk hm
    · exact absurd hm (h m hk)
  · exact core_of_kind_ne hk

/-- What is reached with brackets as steps is reached without. -/
theorem reaches_evalInside (fuel : Nat) : Reaches (evalRecursive fuel) evalInside := by
  induction fuel with
  | zero =>
    intro ctx hctx n s v t h
    cases h
  | succ fuel ih =>
    intro ctx hctx n s v t h
    -- a bracket takes a step of its own on one side and none on the other
    by_cases hbracket : ∃ m, n.kind = .bracket ∧ n.child? .argument = some m
    · obtain ⟨m, hk, hm⟩ := hbracket
      rw [evalRecursive_bracket hctx hk hm] at h
      obtain ⟨fuel', hfuel'⟩ := ih ctx hctx m s v t h
      refine ⟨fuel', ?_⟩
      rw [evalInside_bracket hk hm]
      exact hfuel'
    · rw [hctx.evalRecursive_succ] at h
      obtain ⟨fuel', hfuel'⟩ := exists_stepByParts growing_evalInside
        (fun log ctx n s hroom => evalRecursive_ne_overflow hroom n s log) ih hctx h
      refine ⟨fuel' + 1, ?_⟩
      rw [evalInside, core_eq_self fun m hk hm => hbracket ⟨m, hk, hm⟩]
      exact hfuel'

/-- What is reached without steps for brackets is reached with them. -/
theorem reaches_evalRecursive_of_inside (fuel : Nat) : Reaches (evalInside fuel) evalRecursive := by
  induction fuel with
  | zero =>
    intro ctx hctx n s v t h
    cases h
  | succ fuel ih =>
    intro ctx hctx n s v t h
    -- the brackets around the node cost one step each
    induction n using child_induction with
    | step n inside =>
      by_cases hbracket : ∃ m, n.kind = .bracket ∧ n.child? .argument = some m
      · obtain ⟨m, hk, hm⟩ := hbracket
        rw [evalInside_bracket hk hm] at h
        obtain ⟨fuel', hfuel'⟩ := inside .argument m hm h
        refine ⟨fuel' + 1, ?_⟩
        rw [evalRecursive_bracket hctx hk hm]
        exact hfuel'
      · rw [evalInside, core_eq_self fun m hk hm => hbracket ⟨m, hk, hm⟩] at h
        obtain ⟨fuel', hfuel'⟩ := exists_stepByParts growing_evalRecursive
          (fun log ctx n s hroom => evalInside_ne_overflow hroom n s log) ih hctx h
        refine ⟨fuel' + 1, ?_⟩
        rw [hctx.evalRecursive_succ]
        exact hfuel'

/-- What a node does can be found out from the inside of its brackets. -/
theorem behaviour_evalInside (hctx : ctx.Quiet) (n : Node) :
    behaviour evalInside ctx n = behaviour eval ctx n := by
  have hends : ∀ s v t, (∃ fuel, evalInside fuel ctx n s = .done v t)
      ↔ ∃ fuel, evalRecursive fuel ctx n s = .done v t := by
    intro s v t
    constructor
    · rintro ⟨fuel, h⟩
      exact reaches_evalRecursive_of_inside fuel ctx hctx n s v t h
    · rintro ⟨fuel, h⟩
      exact reaches_evalInside fuel ctx hctx n s v t h
  rw [← behaviour_evalRecursive hctx]
  unfold behaviour
  simp only [hends]

end

/-! ### Bare trees -/

/-- In an evaluation of regular trees, the trees in store stay regular. -/
theorem Env.Stores.regular_of_eval {fuel : Nat} {ctx : Context} {n : Node} {s t : State} {v : Value}
    (hs : s.env.Stores Regular) (hn : n.Regular) (h : eval fuel ctx n s = .done v t) :
    t.env.Stores Regular :=
  ((Contract.hereditary_sound hereditary_regular).eval hn hs h).keeps

theorem Env.Stores.regular_of_evalInside {fuel : Nat} {ctx : Context} (hctx : ctx.Quiet) {n : Node}
    {s t : State} {v : Value} (hs : s.env.Stores Regular) (hn : n.Regular)
    (h : evalInside fuel ctx n s = .done v t) : t.env.Stores Regular := by
  obtain ⟨fuel', h'⟩ := reaches_evalRecursive_of_inside fuel ctx hctx n s v t h
  obtain ⟨fuel'', h''⟩ := reaches_eval fuel' ctx hctx n s v t h'
  exact hs.regular_of_eval hn h''

/-- The evaluation of the bare form of a regular tree is that of the tree, seen from inside its
brackets. -/
theorem evalRecursive_bare {fuel : Nat} {ctx : Context} (hctx : ctx.Quiet) {n : Node}
    (hn : n.Regular) {s : State} (hs : s.env.Stores Regular) :
    evalRecursive fuel ctx n.bare s.bare = (evalInside fuel ctx n s).mapEnv Env.bare := by
  induction fuel generalizing ctx n s with
  | zero => rfl
  | succ fuel ih =>
    -- the parts are evaluated alike, and leave regular trees in the environment
    have hparts : Plan.BaresParts (evalInside fuel) (evalRecursive fuel) := by
      intro ctx m s hctx hm hs
      refine ⟨ih hctx hm hs, ?_⟩
      intro v t h
      exact hs.regular_of_evalInside hctx hm h
    rw [hctx.evalRecursive_succ, evalInside, stepByParts_eq_run, stepByParts_eq_run, ← bare_core]
    have hplans := Plan.bares_byParts hn.core hn.kind_core_ne fuel
    exact hplans.run hparts hctx hs

/-- What a bare tree does is what the tree does, in the environment without brackets. -/
theorem behaviour_bare {ctx : Context} (hctx : ctx.Quiet) {n : Node} (hn : n.Regular) {env : Env}
    (henv : env.Stores Regular) {v : Value} {left : Env} {out : List Value} :
    behaviour eval ctx n.bare env.bare v left out
      ↔ ∃ env', left = env'.bare ∧ behaviour eval ctx n env v env' out := by
  rw [← behaviour_evalRecursive hctx n.bare, ← behaviour_evalInside hctx n]
  -- step by step, the one evaluation is the image of the other
  have himage : ∀ fuel, evalRecursive fuel ctx n.bare ⟨env.bare, []⟩
      = (evalInside fuel ctx n ⟨env, []⟩).mapEnv Env.bare :=
    fun fuel => evalRecursive_bare hctx hn (s := ⟨env, []⟩) henv
  constructor
  · rintro ⟨t, ⟨fuel, h⟩, rfl, rfl⟩
    rw [himage] at h
    obtain ⟨u, hu, rfl⟩ := Outcome.mapEnv_eq_done_iff.mp h
    exact ⟨u.env, rfl, u, ⟨fuel, hu⟩, rfl, rfl⟩
  · rintro ⟨env', rfl, u, ⟨fuel, hu⟩, rfl, rfl⟩
    refine ⟨⟨u.env.bare, u.log⟩, ⟨fuel, ?_⟩, rfl, rfl⟩
    rw [himage, hu]
    rfl

/-- **Brackets have no meaning for a run.** Let a tree, and the trees that an environment has in
store, be read from texts, or be parts of such trees. Where the stack is not exhausted, the bare
form of the tree, in the environment with the bare forms of the trees, comes to an end exactly if
the tree as it is written does so in the environment as it is: with the same value, error or not,
with the same values put out, and in the same environment but for the brackets of the trees in
store. -/
theorem brackets_inert (ctx : Context) {n : Node} (hn : n.FromText) {env : Env}
    (henv : env.Stores FromText) (hfits : Fits ctx n env) (hbare : Fits ctx n.bare env.bare) :
    (∀ v env' out, behaviour eval ctx n env v env' out →
      behaviour eval ctx n.bare env.bare v env'.bare out)
    ∧ ∀ v left out, behaviour eval ctx n.bare env.bare v left out →
      ∃ env', left = env'.bare ∧ behaviour eval ctx n env v env' out := by
  have hregular : env.Stores Regular :=
    fun x params tree ret m hx hm => (henv x params tree ret m hx hm).regular
  rw [hfits.behaviour_eq_plain, hbare.behaviour_eq_plain]
  -- from left to right the environment is given, from right to left it is found
  constructor
  · intro v env' out h
    exact (behaviour_bare ctx.quiet_plain hn.regular hregular).mpr ⟨env', rfl, h⟩
  · intro v left out h
    exact (behaviour_bare ctx.quiet_plain hn.regular hregular).mp h

/-- A subroutine `f` that returns its argument, written in brackets. -/
def bracketedEnv : Env :=
  (∅ : Env).insert "f" (.subroutine ["x"] none (some (.bracket (.reference "x"))))

/-- A call of `f`, with and in brackets, does what it does where nothing is in brackets. -/
theorem brackets_inert_call :
    ∃ n, ReadAs "(f((True)))".toList n ∧ n.bare = .call "f" [.boolean "True"]
      ∧ ∃ left, behaviour eval ⟨false, 50, 0, none⟩ n.bare bracketedEnv.bare (.bool true) left []
        ∧ left["f"]? = some (.subroutine ["x"] none (some (.reference "x"))) := by
  have hread : ReadAs "(f((True)))".toList (.bracket (.call "f" [.bracket (.boolean "True")])) :=
    .expression (e := .bracket (.call "f" [.bracket (.boolean true)])) rfl
  have hret : ReadAs "(x)".toList (.bracket (.reference "x")) :=
    .expression (e := .bracket (.reference "x")) rfl
  have henv : bracketedEnv.Stores FromText := by
    apply Env.Stores.insert_subroutine
    · intro x params tree ret m hx
      cases hx
    · rintro m (hm | hm)
      · cases hm
      · obtain rfl := Option.some.inj hm
        exact ⟨_, _, hret, .inl rfl⟩
  -- the run with brackets is computed; the one without is what the theorem gives
  obtain ⟨t, hrun, hf, hout⟩ : ∃ t, eval 9 ⟨false, 50, 0, none⟩
      (.bracket (.call "f" [.bracket (.boolean "True")])) ⟨bracketedEnv, []⟩ = .done (.bool true) t
        ∧ t.env["f"]? = some (.subroutine ["x"] none (some (.bracket (.reference "x"))))
        ∧ emissions t.log = [] :=
    ⟨_, rfl, rfl, rfl⟩
  obtain ⟨hsame, -⟩ := brackets_inert ⟨false, 50, 0, none⟩ ⟨_, _, hread, .inl rfl⟩ henv
    (fits_of_room rfl _ _) (fits_of_room rfl _ _)
  refine ⟨_, hread, rfl, t.env.bare, hsame _ _ _ ⟨t, ⟨9, hrun⟩, rfl, hout⟩, ?_⟩
  rw [Env.getElem?_bare, hf]
  rfl

end Pseudocode
