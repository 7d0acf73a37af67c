import Pseudocode.Proofs.Acts.Basic

/-!
What the rule of a node does.

`Does` lists the acts that the rule of a node can take. Most rules only have parts of the node
evaluated, in the environment that they have come to, and their plans are `Plain`. The rules of
calls and of argument lists undo what an argument did to the environment, and a call goes on one
call deeper, in a frame.

Main results: the acts of a node are among these (`does_of_mem_acts`), and a sound contract holds
at every point that the rule of an admitted node comes to (`Sound.part_of_mem_acts`).
-/

namespace Pseudocode

open Eval

namespace Plan

variable {ev : Evaluator} {plan : Plan} {ctx : Context} {s : State}

/-! ### Plain plans -/

/-- The plan has nothing evaluated but nodes with the property, in the environment that it has come
to, puts out no errors, and runs out of rounds only if it may be endless. -/
def Plain (P : Node → Prop) (endless : Prop) : Plan → Prop
  | .finish _ => True
  | .unfinished => endless
  | .look k => ∀ env, (k env).Plain P endless
  | .note _ _ next => next.Plain P endless
  | .emit v next => v.isError = false ∧ next.Plain P endless
  | .bind _ _ next => next.Plain P endless
  | .ask .kept m k => P m ∧ ∀ v, v.isError = false → (k v).Plain P endless
  | .ask .undone _ _ => False
  | .askReturn _ _ => False
  | .guarded _ _ => False
  | .framed _ _ _ _ => False

variable {P : Node → Prop} {endless : Prop}

/-- In a plain plan every part works on the environment of the plan itself, since no frame and no
call stands in between. -/
theorem Plain.mem_acts (h : plan.Plain P endless) {a : Act} (ha : a ∈ plan.acts ev ctx s) :
    (∃ m t, a = .part ⟨ctx, m, t⟩ id ∧ P m) ∨ (∃ v, a = .emission v ∧ v.isError = false)
      ∨ a = .exhausted ∧ endless := by
  induction plan generalizing s with
  | finish v => cases ha
  | unfinished =>
    cases List.mem_singleton.mp ha
    exact .inr (.inr ⟨rfl, h⟩)
  | look k ih => exact ih s.env (h s.env) ha
  | note e remark next ih => exact ih h ha
  | emit v next ih =>
    rcases List.mem_cons.mp ha with rfl | ha
    · exact .inr (.inl ⟨v, rfl, h.1⟩)
    · exact ih h.2 ha
  | bind name b next ih => exact ih h ha
  | ask effects m k ih =>
    -- plain plans keep the effects of their parts and open no frame
    cases effects with
    | kept =>
      rcases List.mem_cons.mp ha with rfl | ha
      · exact .inl ⟨m, s, rfl, h.1⟩
      · obtain ⟨v, t, -, hv, ha⟩ := Outcome.mem_onward.mp ha
        exact ih v (h.2 v hv) ha
    | undone => exact h.elim
  | askReturn name m => exact h.elim
  | guarded name inner => exact h.elim
  | framed name params vs inner => exact h.elim

/-- Statements are parts, and so is the last thing on a spine. -/
theorem plain_statements {stop : Node.SpineEnd} {ns : List Node} (hns : ∀ m ∈ ns, P m)
    (hstop : ∀ m, stop = .last m → P m) : (statements stop ns).Plain P endless := by
  induction ns with
  | nil =>
    rcases stop with m | slot
    · exact ⟨hstop m rfl, fun _ _ => trivial⟩
    · trivial
  | cons m ns ih =>
    refine ⟨hns m List.mem_cons_self, fun _ _ => ih fun m' hm' => ?_⟩
    exact hns m' (List.mem_cons_of_mem _ hm')

theorem plain_store (name : String) (constant : Bool) (v : Value) :
    (store name constant v).Plain P endless := by
  intro env
  dsimp only
  rcases env[name]? with - | (⟨w, - | -⟩ | ⟨params, tree, ret⟩) <;> trivial

/-- A definition has no parts: a body waits for its calls. -/
theorem plain_definition (n : Node) : (definition n).Plain P endless := by
  unfold definition
  rcases n.text? "name" with - | name
  · trivial
  dsimp only
  rcases Node.parameterNames? (n.child? .params) with - | params
  · trivial
  dsimp only
  split
  · trivial
  · intro env
    dsimp only
    rcases env[name]? with - | (⟨w, - | -⟩ | ⟨params', tree, ret⟩) <;> trivial

theorem plain_reference (n : Node) : (reference n).Plain P endless := by
  unfold reference
  rcases n.text? "name" with - | name
  · trivial
  · intro env
    dsimp only
    rcases env[name]? with - | (⟨v, constant⟩ | ⟨params, tree, ret⟩) <;> trivial

theorem plain_test {condition : Node} {statement : String} {k : Bool → Plan}
    (hcondition : P condition) (hk : ∀ b, (k b).Plain P endless) :
    (test condition statement k).Plain P endless := by
  refine ⟨hcondition, fun v _ => ?_⟩
  rcases v with x | b | text | - | fault
  · trivial
  · exact hk b
  all_goals trivial

/-- Only a loop may run out of rounds. -/
theorem plain_whileLoop {condition tree : Node} (hcondition : P condition) (htree : P tree)
    (hendless : endless) (rounds count : Nat) (value : Value) :
    (whileLoop condition tree rounds count value).Plain P endless := by
  induction rounds generalizing count value with
  | zero => exact hendless
  | succ rounds ih =>
    refine plain_test hcondition fun b => ?_
    rcases b with - | -
    · trivial
    · exact ⟨htree, fun v _ => ih (count + 1) v⟩

theorem plain_repeatLoop {condition tree : Node} (hcondition : P condition) (htree : P tree)
    (hendless : endless) (rounds count : Nat) :
    (repeatLoop condition tree rounds count).Plain P endless := by
  induction rounds generalizing count with
  | zero => exact hendless
  | succ rounds ih =>
    refine ⟨htree, fun v _ => plain_test hcondition fun b => ?_⟩
    rcases b with - | -
    · exact ih (count + 1)
    · trivial

end Plan

/-! ### What the rule of a node does -/

/-- The rule of the first node evaluates the second one: a statement of a block, or a part. -/
inductive Node.Performs (n : Node) : Node → Prop
  | statement {m} : n.kind = .sequence → m ∈ n.spine.1 ∨ n.spine.2 = .last m → Performs n m
  | part {m} : n.kind ≠ .sequence → Part n m → Performs n m

/-- What stands in an evaluated slot is a part, unless the node is a sequence. -/
theorem Node.performs_child {n m : Node} {kind : Kind} {slot : Slot} (hk : n.kind = kind)
    (hkind : kind ≠ .sequence) (hslot : slot ∈ kind.evaluatedSlots)
    (hm : n.child? slot = some m) : n.Performs m := by
  subst hk
  exact .part hkind (.child hslot hm)

namespace Plan

variable {n : Node} {P : Node → Prop} {endless : Prop}

theorem plain_assignment (hk : n.kind = .assignment) :
    (assignment n).Plain n.Performs endless := by
  unfold assignment
  rcases n.text? "name" with - | name
  · trivial
  rcases n.property? "constant" with - | constant
  · trivial
  rcases harg : n.child? .argument with - | argument
  · trivial
  · refine ⟨Node.performs_child hk (by decide) (by decide) harg, fun v _ => ?_⟩
    exact plain_store name constant.isSet v

/-- The parts of a conditional are its condition and the branch that is chosen. -/
theorem plain_conditional (hk : n.kind = .conditional) :
    (conditional n).Plain n.Performs endless := by
  unfold conditional
  rcases n.text? "style" with - | style
  · trivial
  rcases hcond : n.child? .argument with - | condition
  · trivial
  rcases hthen : n.child? .left with - | thenBranch
  · trivial
  -- without one of the parts there is only an error
  have hc : n.Performs condition := Node.performs_child hk (by decide) (by decide) hcond
  have ht : n.Performs thenBranch := Node.performs_child hk (by decide) (by decide) hthen
  dsimp only
  split
  · refine plain_test hc fun b => ?_
    rcases b with - | -
    · trivial
    · exact ⟨ht, fun _ _ => trivial⟩
  split
  · rcases helse : n.child? .right with - | elseBranch
    · trivial
    · have he : n.Performs elseBranch := Node.performs_child hk (by decide) (by decide) helse
      refine plain_test hc fun b => ?_
      rcases b with - | -
      · exact ⟨he, fun _ _ => trivial⟩
      · exact ⟨ht, fun _ _ => trivial⟩
  · trivial

/-- The parts of a loop are its condition and its body. -/
theorem plain_loop (rounds : Nat) (hk : n.kind = .loop) :
    (loop rounds n).Plain n.Performs (n.kind = .loop) := by
  unfold loop
  rcases n.text? "style" with - | style
  · trivial
  rcases hcond : n.child? .argument with - | condition
  · trivial
  rcases htree : n.child? .left with - | tree
  · trivial
  have hc : n.Performs condition := Node.performs_child hk (by decide) (by decide) hcond
  have ht : n.Performs tree := Node.performs_child hk (by decide) (by decide) htree
  dsimp only
  split
  · exact plain_whileLoop hc ht hk rounds 0 .unit
  split
  · exact plain_repeatLoop hc ht hk rounds 0
  · trivial

theorem plain_operands {left right : Node} (hleft : P left) (hright : P right)
    (combine : Value → Value → Value) : (operands left right combine).Plain P endless :=
  ⟨hleft, fun _ _ => ⟨hright, fun _ _ => trivial⟩⟩

theorem plain_relation (hk : n.kind = .relation) : (relation n).Plain n.Performs endless := by
  unfold relation
  rcases n.text? "relation" with - | name
  · trivial
  rcases hleft : n.child? .left with - | left
  · trivial
  rcases hright : n.child? .right with - | right
  · trivial
  exact plain_operands (Node.performs_child hk (by decide) (by decide) hleft)
    (Node.performs_child hk (by decide) (by decide) hright) _

theorem plain_binary (hk : n.kind = .binary) : (binary n).Plain n.Performs endless := by
  unfold binary
  rcases n.text? "operation" with - | name
  · trivial
  rcases hleft : n.child? .left with - | left
  · trivial
  rcases hright : n.child? .right with - | right
  · trivial
  exact plain_operands (Node.performs_child hk (by decide) (by decide) hleft)
    (Node.performs_child hk (by decide) (by decide) hright) _

theorem plain_unary (hk : n.kind = .unary) : (unary n).Plain n.Performs endless := by
  unfold unary
  rcases n.text? "operation" with - | name
  · trivial
  rcases harg : n.child? .argument with - | argument
  · trivial
  · exact ⟨Node.performs_child hk (by decide) (by decide) harg, fun _ _ => trivial⟩

theorem plain_output (hk : n.kind = .output) : (output n).Plain n.Performs endless := by
  unfold output
  rcases harg : n.child? .argument with - | argument
  · trivial
  · exact ⟨Node.performs_child hk (by decide) (by decide) harg, fun _ hv => ⟨hv, trivial⟩⟩

theorem plain_bracket (hk : n.kind = .bracket) : (bracket n).Plain n.Performs endless := by
  unfold bracket
  rcases harg : n.child? .argument with - | argument
  · trivial
  · exact ⟨Node.performs_child hk (by decide) (by decide) harg, fun _ _ => trivial⟩

/-- All rules but those of calls and of argument lists have plain plans. -/
theorem plain_ofNode (rounds : Nat) (hcall : n.kind ≠ .call) (hargs : n.kind ≠ .arguments) :
    (ofNode rounds n).Plain n.Performs (n.kind = .loop) := by
  unfold ofNode
  -- one case for each kind of node, in the order of the evaluator
  split
  · rename_i hk
    exact plain_statements (fun m hm => .statement hk (.inl hm)) fun m hm => .statement hk (.inr hm)
  · exact plain_assignment ‹_›
  · exact plain_definition n
  · exact absurd ‹_› hcall
  · exact plain_conditional ‹_›
  · exact plain_loop rounds ‹_›
  · exact plain_relation ‹_›
  · exact plain_binary ‹_›
  · exact plain_unary ‹_›
  · exact plain_output ‹_›
  · exact absurd ‹_› hargs
  · trivial
  · exact plain_bracket ‹_›
  · exact plain_reference n
  all_goals trivial

/-! ### Arguments, calls and frames -/

variable {ev : Evaluator} {ctx : Context} {s : State}

/-- Arguments are evaluated in the environment of the caller, one after the other, before anything
else happens. -/
theorem mem_acts_passing {k : List Value → Plan} {es : List Node} {caller : Env}
    {log : List Event} {a : Act} (ha : a ∈ (passing k es).acts ev ctx ⟨caller, log⟩) :
    (∃ e ∈ es, ∃ t, t.env = caller ∧ a = .part ⟨ctx, e, t⟩ fun _ => caller)
      ∨ ∃ vs log', a ∈ (k vs).acts ev ctx ⟨caller, log'⟩ := by
  induction es generalizing k log with
  | nil => exact .inr ⟨[], log, ha⟩
  | cons e es ih =>
    rcases List.mem_cons.mp ha with rfl | ha
    · exact .inl ⟨e, List.mem_cons_self, ⟨caller, log⟩, rfl, rfl⟩
    · -- whatever the argument did to its environment is dropped before the next one
      obtain ⟨v, t, hev, -, ha⟩ := Outcome.mem_onward.mp ha
      obtain ⟨u, -, rfl⟩ := Outcome.mapEnv_eq_done_iff.mp hev
      obtain ⟨e', he', hact⟩ | ⟨vs, log', ha⟩ := ih ha
      · exact .inl ⟨e', List.mem_cons_of_mem _ he', hact⟩
      · exact .inr ⟨v :: vs, log', ha⟩

/-- The parts of a call, once it is inside, are the body and what is returned. -/
theorem mem_acts_body {name : String} {tree ret : Option Node} {a : Act}
    (ha : a ∈ (body name tree ret).acts ev ctx s) :
    ∃ m t, a = .part ⟨ctx, m, t⟩ id ∧ (tree = some m ∨ ret = some m) := by
  -- what is returned is asked for in any state that the body leaves
  have hreturning : ∀ t, a ∈ (returning name ret).acts ev ctx t →
      ∃ m t, a = .part ⟨ctx, m, t⟩ id ∧ (tree = some m ∨ ret = some m) := by
    intro t ha
    rcases ret with - | m
    · cases ha
    · cases List.mem_singleton.mp ha
      exact ⟨m, t, rfl, .inr rfl⟩
  rcases tree with - | m
  · exact hreturning s ha
  · rcases List.mem_cons.mp ha with rfl | ha
    · exact ⟨m, s, rfl, .inl rfl⟩
    · obtain ⟨v, t, -, -, ha⟩ := Outcome.mem_onward.mp ha
      exact hreturning t ha

end Plan

/-- What the rule of a node may do, at a point. -/
inductive Eval.Does (ctx : Context) (n : Node) (s : State) : Act → Prop
  /-- A value is put out, and it is no error. -/
  | emission {v} : v.isError = false → Does ctx n s (.emission v)
  | exhausted : n.kind = .loop → Does ctx n s .exhausted
  /-- A part, in the environment that the rule has come to. -/
  | part {m t} : n.kind ≠ .call → n.kind ≠ .arguments → n.Performs m →
      Does ctx n s (.part ⟨ctx, m, t⟩ id)
  /-- An argument, in the environment at the start, which an error leaves as it was. -/
  | argument {m t} : n.kind = .call ∨ n.kind = .arguments → Part n m → t.env = s.env →
      Does ctx n s (.part ⟨ctx, m, t⟩ fun _ => s.env)
  /-- The body or the return expression of the subroutine that is called, one call deeper. -/
  | frame {name params tree ret m t} : n.kind = .call → n.text? "name" = some name →
      s.env[name]? = some (.subroutine params tree ret) → tree = some m ∨ ret = some m →
      ctx.depth < ctx.limit →
      Does ctx n s (.part ⟨ctx.inCall, m, t⟩ fun env => Env.restore s.env env params)

section

variable {ev : Evaluator} {ctx : Context} {n : Node} {s : State} {a : Act}

/-- A list of arguments does what its first argument and its rest do. -/
theorem does_of_mem_acts_arguments (hk : n.kind = .arguments)
    (ha : a ∈ (Plan.arguments n).acts ev ctx s) : Does ctx n s a := by
  unfold Plan.arguments at ha
  rcases hleft : n.child? .left with - | first
  · rw [hleft] at ha
    cases ha
  rw [hleft] at ha
  have hpart : ∀ slot m, slot ∈ Kind.arguments.evaluatedSlots → n.child? slot = some m →
      Part n m := fun slot m hslot hm => .child (hk ▸ hslot) hm
  rcases List.mem_cons.mp ha with rfl | ha
  · exact .argument (.inr hk) (hpart .left first (by decide) hleft) rfl
  obtain ⟨v, t, hev, -, ha⟩ := Outcome.mem_onward.mp ha
  obtain ⟨u, -, rfl⟩ := Outcome.mapEnv_eq_done_iff.mp hev
  rcases hright : n.child? .right with - | rest
  · rw [hright] at ha
    cases ha
  rw [hright] at ha
  rcases List.mem_cons.mp ha with rfl | ha
  · exact .argument (.inr hk) (hpart .right rest (by decide) hright) rfl
  · obtain ⟨w, t, -, -, ha⟩ := Outcome.mem_onward.mp ha
    cases ha

/-- A call evaluates its arguments, and then its body and what it returns inside a frame. -/
theorem does_of_mem_acts_call (hk : n.kind = .call) (ha : a ∈ (Plan.call n).acts ev ctx s) :
    Does ctx n s a := by
  unfold Plan.call at ha
  rcases hname : n.text? "name" with - | name
  · rw [hname] at ha
    cases ha
  rw [hname] at ha
  dsimp only at ha
  rw [Plan.acts_look] at ha
  rcases hbind : s.env[name]? with - | (⟨v, constant⟩ | ⟨params, tree, ret⟩)
  · rw [hbind] at ha
    cases ha
  · rw [hbind] at ha
    cases ha
  simp only [hbind] at ha
  rcases hes : Node.argumentExpressions? (n.child? .argument) with - | es
  · rw [hes] at ha
    cases ha
  simp only [hes] at ha
  split at ha
  · cases ha
  by_cases hdepth : ctx.limit ≤ ctx.depth
  · rw [Plan.acts_guarded_of_le _ _ hdepth] at ha
    cases ha
  rw [Plan.acts_guarded_of_not_le _ _ hdepth] at ha
  -- an argument, or a part of the frame
  obtain ⟨e, he, t, ht, rfl⟩ | ⟨vs, log, ha⟩ := Plan.mem_acts_passing ha
  · exact .argument (.inl hk) (.argument hk hes he) ht
  · obtain ⟨a', ha', rfl⟩ := List.mem_map.mp ha
    obtain ⟨m, t, rfl, hm⟩ := Plan.mem_acts_body ha'
    exact .frame hk hname hbind hm (by omega)

/-- The acts of a node are those that its rule may take. -/
theorem does_of_mem_acts {rounds : Nat} (ha : a ∈ (Plan.ofNode rounds n).acts ev ctx s) :
    Does ctx n s a := by
  by_cases hcall : n.kind = .call
  · rw [Plan.ofNode, hcall] at ha
    exact does_of_mem_acts_call hcall ha
  by_cases hargs : n.kind = .arguments
  · rw [Plan.ofNode, hargs] at ha
    exact does_of_mem_acts_arguments hargs ha
  · obtain ⟨m, t, rfl, hm⟩ | ⟨v, rfl, hv⟩ | ⟨rfl, hloop⟩ :=
      (Plan.plain_ofNode rounds hcall hargs).mem_acts ha
    · exact .part hcall hargs hm
    · exact .emission hv
    · exact .exhausted hloop

end

/-! ### Contracts at the points of a plan -/

open Classical in
/-- An evaluator with another answer at one point. -/
noncomputable def Eval.replace (q : Point) (o : Outcome) (ev : Evaluator) : Evaluator :=
  fun ctx n s => if q = ⟨ctx, n, s⟩ then o else ev ctx n s

/-- A plan that comes to a point comes to it whatever the answer there is. -/
theorem Plan.exists_part_replace {ev : Evaluator} {plan : Plan} {ctx : Context} {s : State}
    {q : Point} {exit : Env → Env} (o : Outcome) (h : .part q exit ∈ plan.acts ev ctx s) :
    ∃ exit', .part q exit' ∈ plan.acts (replace q o ev) ctx s := by
  induction plan generalizing ctx s exit with
  | finish v => cases h
  | unfinished => cases List.mem_singleton.mp h
  | look k ih => exact ih s.env h
  | note e remark next ih => exact ih h
  | emit v next ih =>
    rcases List.mem_cons.mp h with h | h
    · cases h
    · obtain ⟨exit', h'⟩ := ih h
      exact ⟨exit', List.mem_cons_of_mem _ h'⟩
  | bind name b next ih => exact ih h
  | ask effects m k ih =>
    by_cases hq : q = ⟨ctx, m, s⟩
    · subst hq
      exact ⟨_, List.mem_cons_self⟩
    · rcases List.mem_cons.mp h with h | h
      · exact absurd (Act.part.inj h).1 hq
      · -- the answer to this question is not the replaced one
        obtain ⟨v, t, hev, hv, h⟩ := Outcome.mem_onward.mp h
        obtain ⟨exit', h'⟩ := ih v h
        refine ⟨exit', List.mem_cons_of_mem _ (Outcome.mem_onward.mpr ⟨v, t, ?_, hv, h'⟩)⟩
        rw [replace, if_neg hq, hev]
  | askReturn name m =>
    cases List.mem_singleton.mp h
    exact ⟨_, List.mem_cons_self⟩
  | guarded name inner ih =>
    by_cases hdepth : ctx.limit ≤ ctx.depth
    · rw [acts_guarded_of_le _ _ hdepth] at h
      cases h
    · rw [acts_guarded_of_not_le _ _ hdepth] at h ⊢
      exact ih h
  | framed name params vs inner ih =>
    obtain ⟨a, ha, heq⟩ := List.mem_map.mp h
    obtain ⟨exit', rfl, -⟩ := Act.leaving_eq_part heq
    obtain ⟨exit'', h'⟩ := ih ha
    exact ⟨_, List.mem_map_of_mem h'⟩

/-- A sound contract holds at every point that the rule of an admitted node comes to. -/
theorem Contract.Sound.part_of_mem_acts {c : Contract} (hc : c.Sound) {ev : Evaluator}
    (hev : c.Binds ev ev) {rounds : Nat} {ctx : Context} {n : Node} {s : State}
    (hn : c.admits ctx n) (hs : c.keeps s.env) {q : Point} {exit : Env → Env}
    (h : .part q exit ∈ (Plan.ofNode rounds n).acts ev ctx s) :
    c.admits q.ctx q.node ∧ c.keeps q.state.env := by
  refine Classical.byContradiction fun hq => ?_
  -- otherwise the answer at the point would not matter, but an error there is the end
  have hany : ∀ fault, ∃ u, Eval.step rounds ev ctx n s = .done (.error fault) u := by
    intro fault
    have hbinds : c.Binds (replace q (.done (.error fault) q.state) ev) ev := by
      intro ctx' n' s' hn' hs'
      have hne : q ≠ ⟨ctx', n', s'⟩ := by
        rintro rfl
        exact hq ⟨hn', hs'⟩
      rw [replace, if_neg hne]
      exact hev hn' hs'
    obtain ⟨exit', h'⟩ := Plan.exists_part_replace (.done (.error fault) q.state) h
    obtain ⟨before, after, hsplit⟩ := List.append_of_mem h'
    have hanswer : q.answer (replace q (.done (.error fault) q.state) ev)
        = .done (.error fault) q.state := if_pos rfl
    obtain ⟨-, u, hrun, -⟩ := Plan.acts_failed hsplit hanswer
    refine ⟨u, ?_⟩
    rw [← (hc.agree_step hbinds rounds hn hs).same, step_eq_run, hrun]
  obtain ⟨u, hu⟩ := hany .divisionByZero
  obtain ⟨u', hu'⟩ := hany .programTooDeep
  rw [hu] at hu'
  cases hu'

end Pseudocode
