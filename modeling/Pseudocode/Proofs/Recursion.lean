import Pseudocode.Proofs.LoopFree

/-!
Blocks by recursion.

The rule of a block follows the right slots in a loop, so that a long program needs no deep stack.
The plain reading of a block is a recursion: evaluate the left slot and then, unless that is an
error, the right one, whatever they hold. `evalRecursive` is the evaluator with this reading in place
of the loop, in every block that it comes to.

Design. The recursion takes a step for each statement of a block, and how long the blocks are that a
run comes to depends on the run. So the two evaluators are not compared step by step. Both get to an
end if they are given enough steps, and `Reaches` says of an end of the one that the other one gets
to it. Plans respect this order as long as the stack is not exhausted (`Plan.exists_run`).

Main result: `exists_evalRecursive_iff`.
-/

namespace Pseudocode

namespace Eval

/-- Run a block by its two slots: the left one and then, unless that is an error, the right one. -/
def sequenceByParts (ev : Evaluator) (ctx : Context) (n : Node) (s : State) : Outcome :=
  match n.child? .left, n.child? .right with
  | none, _ => malformed .sequence "left" s
  | some _, none => malformed .sequence "right" s
  | some left, some right => (ev ctx left s).andThen fun _ s => ev ctx right s

/-- Evaluate a block by its two slots and any other node by the rule of its kind. -/
def stepByParts (rounds : Nat) (ev : Evaluator) (ctx : Context) (n : Node) (s : State) : Outcome :=
  if n.kind = .sequence then sequenceByParts ev ctx n s else step rounds ev ctx n s

end Eval

/-- Evaluate a node, and every block by its two slots, in at most `fuel` nested steps. -/
def evalRecursive : Nat → Evaluator
  | 0, _, _, _ => .unfinished
  | fuel + 1, ctx, n, s =>
    match ctx.descend? with
    | none => .overflow s.log
    | some inner =>
      (Eval.stepByParts fuel (evalRecursive fuel) inner n (s.note ctx (.started n.kind))).noted ctx
        .completed

/-! ### Contexts in which nodes leave no traces -/

/-- Only emissions are recorded, and the stack holds any number of nodes. -/
structure Context.Quiet (ctx : Context) : Prop where
  tracing : ctx.tracing = false
  room : ctx.room = none

namespace Context.Quiet

variable {ctx : Context}

theorem descend? (h : ctx.Quiet) : ctx.descend? = some ctx := descend?_of_room_eq_none h.room

theorem inCall (h : ctx.Quiet) : ctx.inCall.Quiet := ⟨h.tracing, h.room⟩

theorem note (h : ctx.Quiet) (s : State) (e : Event) : s.note ctx e = s := by
  simp [State.note, h.tracing]

theorem noted (h : ctx.Quiet) (o : Outcome) (e : Value → Event) : o.noted ctx e = o := by
  rcases o with ⟨v, s⟩ | log | -
  · simp [Outcome.noted, h.note]
  · rfl
  · rfl

theorem eval_succ (h : ctx.Quiet) (fuel : Nat) (n : Node) (s : State) :
    eval (fuel + 1) ctx n s = Eval.step fuel (eval fuel) ctx n s := by
  simp only [eval, h.descend?, h.note, h.noted]

theorem evalRecursive_succ (h : ctx.Quiet) (fuel : Nat) (n : Node) (s : State) :
    evalRecursive (fuel + 1) ctx n s = Eval.stepByParts fuel (evalRecursive fuel) ctx n s := by
  simp only [evalRecursive, h.descend?, h.note, h.noted]

end Context.Quiet

/-! ### Ends of outcomes -/

namespace Outcome

variable {o o' : Outcome} {v : Value} {t : State}

/-- An outcome that is done stays so with more steps. -/
theorem Precedes.done (h : o.Precedes o') (ho : o = .done v t) : o' = .done v t := by
  rw [← ho]
  apply h
  rw [ho]
  nofun

/-- Two outcomes in a row end with the error of the first one or with the end of the second one. -/
theorem andThen_eq_done_iff {k : Value → State → Outcome} :
    o.andThen k = .done v t
      ↔ o = .done v t ∧ v.isError = true
        ∨ ∃ w u, o = .done w u ∧ w.isError = false ∧ k w u = .done v t := by
  -- only an outcome that is done goes on, and only if its value is no error
  rcases o with ⟨w, u⟩ | log | -
  · rcases hw : w.isError with - | -
    · rw [andThen_done_of_not_isError hw]
      constructor
      · intro h
        exact .inr ⟨w, u, rfl, hw, h⟩
      · rintro (⟨h, hv⟩ | ⟨w', u', h, -, hk⟩)
        · cases h
          simp [hw] at hv
        · cases h
          exact hk
    · obtain ⟨fault, rfl⟩ := Value.isError_iff.mp hw
      rw [andThen_done_error]
      constructor
      · intro h
        cases h
        exact .inl ⟨rfl, rfl⟩
      · rintro (⟨h, -⟩ | ⟨w', u', h, hw', -⟩)
        · exact h
        · cases h
          cases hw'
  · simp
  · simp

/-- Two outcomes in a row, both of which are given more and more steps. -/
theorem exists_andThen_iff {o : Nat → Outcome} {k : Nat → Value → State → Outcome}
    (ho : ∀ fuel fuel', fuel ≤ fuel' → (o fuel).Precedes (o fuel'))
    (hk : ∀ fuel fuel', fuel ≤ fuel' → ∀ v t, (k fuel v t).Precedes (k fuel' v t)) :
    (∃ fuel, (o fuel).andThen (k fuel) = .done v t)
      ↔ (∃ fuel, o fuel = .done v t) ∧ v.isError = true
        ∨ ∃ w u, (∃ fuel, o fuel = .done w u) ∧ w.isError = false
          ∧ ∃ fuel, k fuel w u = .done v t := by
  simp only [andThen_eq_done_iff]
  constructor
  · rintro ⟨fuel, ⟨h, hv⟩ | ⟨w, u, h, hw, hrest⟩⟩
    · exact .inl ⟨⟨fuel, h⟩, hv⟩
    · exact .inr ⟨w, u, ⟨fuel, h⟩, hw, fuel, hrest⟩
  · rintro (⟨⟨fuel, h⟩, hv⟩ | ⟨w, u, ⟨first, hfirst⟩, hw, second, hsecond⟩)
    · exact ⟨fuel, .inl ⟨h, hv⟩⟩
    · -- both halves keep their ends with the greater number of steps
      refine ⟨max first second, .inr ⟨w, u, ?_, hw, ?_⟩⟩
      · exact (ho _ _ (Nat.le_max_left ..)).done hfirst
      · exact (hk _ _ (Nat.le_max_right ..) w u).done hsecond

/-- Without an overflow there is nothing to catch. -/
theorem caught_eq_done_of_ne_overflow {fault : Fault} {env : Env}
    (ho : ∀ log, o ≠ .overflow log) (h : o.caught fault env = .done v t) : o = .done v t := by
  rcases o with ⟨w, u⟩ | log | -
  · exact h
  · exact absurd rfl (ho log)
  · cases h

end Outcome

/-! ### More steps -/

section
variable {ev ev' : Evaluator} {rounds : Nat} {ctx : Context} {n : Node} {s : State}

/-- More steps for the parts give more for a block. -/
theorem Eval.precedes_sequence (hev : ∀ ctx n s, (ev ctx n s).Precedes (ev' ctx n s)) :
    (sequence ev ctx n s).Precedes (sequence ev' ctx n s) := by
  rw [sequence, sequence, ← Plan.run_statements, ← Plan.run_statements]
  exact Plan.precedes_run hev

/-- Likewise for a rule that takes a block apart. -/
theorem Eval.precedes_stepByParts (hev : ∀ ctx n s, (ev ctx n s).Precedes (ev' ctx n s)) :
    (stepByParts rounds ev ctx n s).Precedes (stepByParts (rounds + 1) ev' ctx n s) := by
  unfold stepByParts
  by_cases hk : n.kind = .sequence
  · rw [if_pos hk, if_pos hk]
    unfold sequenceByParts
    rcases n.child? .left with - | l
    · exact .refl _
    rcases n.child? .right with - | r
    · exact .refl _
    · exact (hev ctx l s).andThen fun _ t => hev ctx r t
  · rw [if_neg hk, if_neg hk, step_eq_run, step_eq_run]
    exact (Plan.precedes_run hev).trans (Plan.precedes_ofNode rounds)

end

/-- A family of evaluators, each of which is given more steps than the one before. -/
def Eval.Growing (ev : Nat → Evaluator) : Prop :=
  ∀ fuel fuel', fuel ≤ fuel' → ∀ ctx n s, (ev fuel ctx n s).Precedes (ev fuel' ctx n s)

open Eval

theorem growing_eval : Growing eval := fun _ _ hle _ _ _ => precedes_eval hle

/-- With more steps, the evaluator that takes blocks apart keeps its ends. -/
theorem growing_evalRecursive : Growing evalRecursive := by
  have hsucc : ∀ fuel ctx n s,
      (evalRecursive fuel ctx n s).Precedes (evalRecursive (fuel + 1) ctx n s) := by
    intro fuel
    induction fuel with
    | zero => exact fun ctx n s => Outcome.precedes_of_unfinished _
    | succ fuel ih =>
      intro ctx n s
      unfold evalRecursive
      rcases ctx.descend? with - | inner
      · exact .refl _
      · exact (precedes_stepByParts ih).map (g := Outcome.noted ctx .completed) rfl
  intro fuel fuel' hle ctx n s
  induction hle with
  | refl => exact .refl _
  | step _ ih => exact ih.trans (hsucc _ ctx n s)

/-- Without a bound there is no overflow in it. -/
theorem evalRecursive_ne_overflow {fuel : Nat} {ctx : Context} (hroom : ctx.room = none) (n : Node)
    (s : State) (log : List Event) : evalRecursive fuel ctx n s ≠ .overflow log := by
  induction fuel generalizing ctx n s with
  | zero => nofun
  | succ fuel ih =>
    simp only [evalRecursive, Context.descend?_of_room_eq_none hroom]
    rw [Ne, Outcome.noted_eq_overflow_iff, stepByParts]
    split
    · unfold sequenceByParts
      rcases n.child? .left with - | l
      · nofun
      rcases n.child? .right with - | r
      · nofun
      · exact Outcome.andThen_ne_overflow (ih hroom l _) fun _ t => ih hroom r t
    · rw [step_eq_run]
      exact Plan.run_ne_overflow (fun ctx n s h => ih h n s) hroom _

/-! ### Reaching the same end -/

/-- To every end that the first evaluator gets to, some evaluator of the family gets as well. -/
def Eval.Reaches (ev : Evaluator) (ev' : Nat → Evaluator) : Prop :=
  ∀ ctx, ctx.Quiet → ∀ n s v t, ev ctx n s = .done v t → ∃ fuel, ev' fuel ctx n s = .done v t

section
variable {ev : Evaluator} {ev' : Nat → Evaluator} {ctx : Context} {s : State} {v : Value} {t : State}

/-- What a plan gets to with the first evaluator, it gets to with some evaluator of the family. -/
theorem Plan.exists_run (hgrow : Growing ev')
    (hroom : ∀ log ctx n s, ctx.room = none → ev ctx n s ≠ .overflow log) (hev : Reaches ev ev')
    {plan : Plan} (hctx : ctx.Quiet) (h : plan.run ev ctx s = .done v t) :
    ∃ fuel, plan.run (ev' fuel) ctx s = .done v t := by
  -- induction on the plan; each part asked for brings its own number of steps
  induction plan generalizing ctx s v t with
  | finish w => exact ⟨0, h⟩
  | unfinished => cases h
  | look k ih => exact ih s.env hctx h
  | note e remark next ih => exact ih hctx h
  | emit w next ih => exact ih hctx h
  | bind name b next ih => exact ih hctx h
  | ask effects m k ih =>
    simp only [run_ask] at h ⊢
    have hpart : ∀ w u, (ev ctx m s).mapEnv (effects.after s.env) = .done w u →
        ∃ fuel, (ev' fuel ctx m s).mapEnv (effects.after s.env) = .done w u := by
      intro w u hw
      obtain ⟨u, hm, rfl⟩ := Outcome.mapEnv_eq_done_iff.mp hw
      obtain ⟨fuel, hfuel⟩ := hev ctx hctx m s w u hm
      exact ⟨fuel, Outcome.mapEnv_eq_done_iff.mpr ⟨u, hfuel, rfl⟩⟩
    refine (Outcome.exists_andThen_iff (k := fun fuel v t => (k v).run (ev' fuel) ctx t)
      (fun _ _ hle => (hgrow _ _ hle ctx m s).map (g := Outcome.mapEnv (effects.after s.env)) rfl)
      fun _ _ hle _ _ => precedes_run (hgrow _ _ hle)).mpr ?_
    obtain ⟨h, hv⟩ | ⟨w, u, h, hw, hk⟩ := Outcome.andThen_eq_done_iff.mp h
    · exact .inl ⟨hpart v t h, hv⟩
    · exact .inr ⟨w, u, hpart w u h, hw, ih w hctx hk⟩
  | askReturn name m =>
    simp only [run_askReturn, hctx.noted] at h ⊢
    exact hev ctx hctx m s v t h
  | guarded name inner ih =>
    by_cases hdepth : ctx.limit ≤ ctx.depth
    · simp only [run_guarded_of_le _ _ hdepth] at h ⊢
      exact ⟨0, h⟩
    · simp only [run_guarded_of_not_le _ _ hdepth] at h ⊢
      have hinner : inner.run ev ctx s = .done v t :=
        Outcome.caught_eq_done_of_ne_overflow
          (fun log => run_ne_overflow (hroom log) hctx.room s) h
      obtain ⟨fuel, hfuel⟩ := ih hctx hinner
      refine ⟨fuel, ?_⟩
      rw [hfuel]
      rfl
  | framed name params vs inner ih =>
    simp only [run_framed] at h ⊢
    obtain ⟨u, hinner, rfl⟩ := Outcome.mapEnv_eq_done_iff.mp h
    obtain ⟨fuel, hfuel⟩ := ih hctx.inCall hinner
    refine ⟨fuel, ?_⟩
    rw [hfuel]
    rfl

end

/-! ### The recursion and the loop -/

variable {fuel : Nat} {ctx : Context} {n l r : Node} {s t : State} {v : Value}

/-- By recursion, a block ends with the error of its left slot or with the end of its right one. -/
theorem exists_evalRecursive_block_iff (hctx : ctx.Quiet) (hk : n.kind = .sequence)
    (hl : n.child? .left = some l) (hr : n.child? .right = some r) :
    (∃ fuel, evalRecursive fuel ctx n s = .done v t)
      ↔ (∃ fuel, evalRecursive fuel ctx l s = .done v t) ∧ v.isError = true
        ∨ ∃ w u, (∃ fuel, evalRecursive fuel ctx l s = .done w u) ∧ w.isError = false
          ∧ ∃ fuel, evalRecursive fuel ctx r u = .done v t := by
  -- with one more step the block is its two parts
  have hblock : ∀ fuel, evalRecursive (fuel + 1) ctx n s
      = (evalRecursive fuel ctx l s).andThen fun _ t => evalRecursive fuel ctx r t := by
    intro fuel
    rw [hctx.evalRecursive_succ, stepByParts, if_pos hk, sequenceByParts, hl, hr]
  have hgrow := growing_evalRecursive
  rw [← Outcome.exists_andThen_iff (k := fun fuel _ t => evalRecursive fuel ctx r t)
    (fun _ _ hle => hgrow _ _ hle ctx l s) (fun _ _ hle _ u => hgrow _ _ hle ctx r u)]
  constructor
  · rintro ⟨fuel, h⟩
    rcases fuel with - | fuel
    · cases h
    · exact ⟨fuel, hblock fuel ▸ h⟩
  · rintro ⟨fuel, h⟩
    exact ⟨fuel + 1, hblock fuel ▸ h⟩

/-- The rule of a node, with enough rounds for its loops. -/
theorem exists_step {ev : Evaluator} {ev' : Nat → Evaluator} (hgrow : Growing ev')
    (hroom : ∀ log ctx n s, ctx.room = none → ev ctx n s ≠ .overflow log) (hev : Reaches ev ev')
    (hctx : ctx.Quiet) {rounds : Nat} (h : step rounds ev ctx n s = .done v t) :
    ∃ fuel, step fuel (ev' fuel) ctx n s = .done v t := by
  simp only [step_eq_run] at h ⊢
  obtain ⟨fuel, hfuel⟩ := Plan.exists_run hgrow hroom hev hctx h
  refine ⟨max rounds fuel, ?_⟩
  -- the loops of the plan end as before if they have more rounds
  have hrounds : ∀ more, (Plan.ofNode (rounds + more) n).run (ev' fuel) ctx s = .done v t := by
    intro more
    induction more with
    | zero => exact hfuel
    | succ more ih => exact (Plan.precedes_ofNode _).done ih
  obtain ⟨more, hmore⟩ := Nat.exists_eq_add_of_le (Nat.le_max_left rounds fuel)
  have hrun := hrounds more
  rw [← hmore] at hrun
  exact (Plan.precedes_run (hgrow _ _ (Nat.le_max_right ..))).done hrun

/-- The recursion gets to where the loop along the right spine gets. -/
theorem exists_evalRecursive_of_sequence (hev : Reaches (eval fuel) evalRecursive) (hctx : ctx.Quiet)
    (h : sequence (eval fuel) ctx n s = .done v t) :
    ∃ fuel, evalRecursive fuel ctx n s = .done v t := by
  -- induction along the spine, whose right child is the rest of the block
  induction n using Node.child_induction generalizing s v t with
  | step n ih =>
    by_cases hk : n.kind = .sequence
    · rcases hl : n.child? .left with - | l
      · rw [sequence_of_no_left hk hl] at h
        refine ⟨1, ?_⟩
        rw [hctx.evalRecursive_succ, stepByParts, if_pos hk, sequenceByParts, hl]
        exact h
      rcases hr : n.child? .right with - | r
      · rw [sequence_of_no_right hk hl hr] at h
        refine ⟨1, ?_⟩
        rw [hctx.evalRecursive_succ, stepByParts, if_pos hk, sequenceByParts, hl, hr]
        exact h
      rw [sequence_of_parts hk hl hr] at h
      refine (exists_evalRecursive_block_iff hctx hk hl hr).mpr ?_
      obtain ⟨h, hv⟩ | ⟨w, u, h, hw, hrest⟩ := Outcome.andThen_eq_done_iff.mp h
      · exact .inl ⟨hev ctx hctx l s v t h, hv⟩
      · exact .inr ⟨w, u, hev ctx hctx l s w u h, hw, ih .right r hr hrest⟩
    · rw [sequence_of_kind_ne hk] at h
      exact hev ctx hctx n s v t h

/-- What ends statement by statement ends alike when blocks are taken apart. -/
theorem reaches_evalRecursive (fuel : Nat) : Reaches (eval fuel) evalRecursive := by
  induction fuel with
  | zero => exact fun ctx hctx n s v t h => nomatch h
  | succ fuel ih =>
    intro ctx hctx n s v t h
    rw [hctx.eval_succ] at h
    -- the two evaluators have the same rules for all other kinds
    by_cases hk : n.kind = .sequence
    · rw [step, hk] at h
      exact exists_evalRecursive_of_sequence ih hctx h
    · obtain ⟨fuel', hfuel'⟩ := exists_step growing_evalRecursive
        (fun log ctx n s hroom => eval_ne_overflow hroom n s log) ih hctx h
      refine ⟨fuel' + 1, ?_⟩
      rw [hctx.evalRecursive_succ, stepByParts, if_neg hk]
      exact hfuel'

/-- A node that ends, as the last one on a spine. -/
theorem sequence_of_eval (hctx : ctx.Quiet) (h : eval fuel ctx n s = .done v t) :
    sequence (eval fuel) ctx n s = .done v t := by
  by_cases hk : n.kind = .sequence
  · -- the block is run with one step less
    rcases fuel with - | fuel
    · cases h
    · rw [hctx.eval_succ, step, hk] at h
      exact (precedes_sequence (precedes_eval_succ fuel)).done h
  · rw [sequence_of_kind_ne hk]
    exact h

/-- What ends when blocks are taken apart ends alike statement by statement. -/
theorem reaches_eval (fuel : Nat) : Reaches (evalRecursive fuel) eval := by
  induction fuel with
  | zero => exact fun ctx hctx n s v t h => nomatch h
  | succ fuel ih =>
    intro ctx hctx n s v t h
    rw [hctx.evalRecursive_succ] at h
    by_cases hk : n.kind = .sequence
    · have hblock : ∀ fuel, eval (fuel + 1) ctx n s = sequence (eval fuel) ctx n s := by
        intro fuel
        rw [hctx.eval_succ, step, hk]
      -- a block that lacks a part is refused by both, at the same place
      rcases hl : n.child? .left with - | l
      · rw [stepByParts, if_pos hk, sequenceByParts, hl] at h
        refine ⟨1, ?_⟩
        rw [hblock, sequence_of_no_left hk hl]
        exact h
      rcases hr : n.child? .right with - | r
      · rw [stepByParts, if_pos hk, sequenceByParts, hl, hr] at h
        refine ⟨1, ?_⟩
        rw [hblock, sequence_of_no_right hk hl hr]
        exact h
      rw [stepByParts, if_pos hk, sequenceByParts, hl, hr] at h
      -- the rest of the block is taken apart inside one evaluation of it, and is one more row here
      have hparts : ∃ fuel, (eval fuel ctx l s).andThen (fun _ t => sequence (eval fuel) ctx r t)
          = .done v t := by
        refine (Outcome.exists_andThen_iff (k := fun fuel _ t => sequence (eval fuel) ctx r t)
          (fun _ _ hle => growing_eval _ _ hle ctx l s)
          fun _ _ hle _ _ => precedes_sequence (growing_eval _ _ hle)).mpr ?_
        obtain ⟨h, hv⟩ | ⟨w, u, h, hw, hrest⟩ := Outcome.andThen_eq_done_iff.mp h
        · exact .inl ⟨ih ctx hctx l s v t h, hv⟩
        · obtain ⟨fuel', hfuel'⟩ := ih ctx hctx r u v t hrest
          exact .inr ⟨w, u, ih ctx hctx l s w u h, hw, fuel', sequence_of_eval hctx hfuel'⟩
      obtain ⟨fuel', hfuel'⟩ := hparts
      refine ⟨fuel' + 1, ?_⟩
      rw [hblock, sequence_of_parts hk hl hr]
      exact hfuel'
    · rw [stepByParts, if_neg hk] at h
      obtain ⟨fuel', hfuel'⟩ := exists_step growing_eval
        (fun log ctx n s hroom => evalRecursive_ne_overflow hroom n s log) ih hctx h
      refine ⟨fuel' + 1, ?_⟩
      rw [hctx.eval_succ]
      exact hfuel'

/-- The loop along the right spine and the recursion through both slots get to the same ends. -/
theorem exists_evalRecursive_iff (hctx : ctx.Quiet) :
    (∃ fuel, evalRecursive fuel ctx n s = .done v t) ↔ ∃ fuel, eval fuel ctx n s = .done v t := by
  constructor
  · rintro ⟨fuel, h⟩
    exact reaches_eval fuel ctx hctx n s v t h
  · rintro ⟨fuel, h⟩
    exact reaches_evalRecursive fuel ctx hctx n s v t h

/-- A block ends with the error of its left slot or with the end of its right one. -/
theorem exists_eval_block_iff (hctx : ctx.Quiet) (hk : n.kind = .sequence)
    (hl : n.child? .left = some l) (hr : n.child? .right = some r) :
    (∃ fuel, eval fuel ctx n s = .done v t)
      ↔ (∃ fuel, eval fuel ctx l s = .done v t) ∧ v.isError = true
        ∨ ∃ w u, (∃ fuel, eval fuel ctx l s = .done w u) ∧ w.isError = false
          ∧ ∃ fuel, eval fuel ctx r u = .done v t := by
  simp only [← exists_evalRecursive_iff hctx]
  exact exists_evalRecursive_block_iff hctx hk hl hr

end Pseudocode
