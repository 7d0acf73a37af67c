import Pseudocode.Proofs.Brackets.Basic
import Pseudocode.Proofs.Recursion
import Pseudocode.Proofs.Unmentioned.Basic

/-!
The rules do not see brackets.

`Plan.Bares` relates two plans that do the same, one with trees as they are written and one with the
same trees without brackets. If the evaluators of the parts are related like this, so are the runs
of the plans: what the second one leaves is what the first one leaves, without brackets.

Design. The relation is inductive, with one constructor for each action. A plan that looks at the
environment goes on with what it finds there, so the plans that it may go on with are related for
every environment that has only regular trees in store. There is one lemma for each rule, and none
for brackets: the rule of a bracket is the only one that is not the rule of its bare form.

Main results: `Plan.Bares.run` for all related plans, and `Plan.bares_byParts` for the plans of all
nodes but brackets.
-/

namespace Pseudocode

open Node

/-! ### Blocks by their parts -/

namespace Plan

/-- The plan of a block by its two slots. -/
def blockByParts (n : Node) : Plan :=
  match n.child? .left, n.child? .right with
  | none, _ => malformed .sequence "left"
  | some _, none => malformed .sequence "right"
  | some left, some right => .ask .kept left fun _ => .ask .kept right .finish

/-- The plan of a node in which a block is taken by its two slots. -/
def byParts (rounds : Nat) (n : Node) : Plan :=
  if n.kind = .sequence then blockByParts n else ofNode rounds n

end Plan

/-- A step that walks blocks part by part is the run of its plan. -/
theorem stepByParts_eq_run (rounds : Nat) (ev : Evaluator) (ctx : Context) (n : Node) (s : State) :
    Eval.stepByParts rounds ev ctx n s = (Plan.byParts rounds n).run ev ctx s := by
  unfold Eval.stepByParts Plan.byParts
  by_cases hk : n.kind = .sequence
  · rw [if_pos hk, if_pos hk, Eval.sequenceByParts, Plan.blockByParts]
    rcases n.child? .left with - | l
    · rfl
    rcases n.child? .right with - | r
    · rfl
    · show _ = (ev ctx l s).andThen fun _ t => (Plan.ask .kept r .finish).run ev ctx t
      simp only [Plan.run_ask_finish]
  · rw [if_neg hk, if_neg hk, step_eq_run]

namespace Plan

/-! ### Related plans -/

/-- The second plan does the same as the first one, with trees that have lost their brackets. -/
inductive Bares : Plan → Plan → Prop
  | finish (v : Value) : Bares (.finish v) (.finish v)
  | unfinished : Bares .unfinished .unfinished
  | look {k k' : Env → Plan} : (∀ env : Env, env.Stores Regular → Bares (k env) (k' env.bare)) →
      Bares (.look k) (.look k')
  | note {e remark next next'} : Bares next next' →
    Bares (.note e remark next) (.note e remark next')
  | emit {v next next'} : Bares next next' → Bares (.emit v next) (.emit v next')
  | bind {name b next next'} :
    (∀ env : Env, env.Stores Regular → Env.Stores Regular (env.insert name b)) →
      Bares next next' → Bares (.bind name b next) (.bind name b.bare next')
  | ask {effects m k k'} : m.Regular → (∀ v, Bares (k v) (k' v)) →
      Bares (.ask effects m k) (.ask effects m.bare k')
  | askReturn {name m} : m.Regular → Bares (.askReturn name m) (.askReturn name m.bare)
  | guarded {name inner inner'} : Bares inner inner' →
      Bares (.guarded name inner) (.guarded name inner')
  | framed {name params vs inner inner'} : Bares inner inner' →
      Bares (.framed name params vs inner) (.framed name params vs inner')

/-- The second evaluator does with regular trees that have lost their brackets what the first one
does with the trees as they are, and the trees in store stay regular. -/
def BaresParts (ev ev' : Evaluator) : Prop :=
  ∀ ctx m (s : State), ctx.Quiet → m.Regular → s.env.Stores Regular →
    ev' ctx m.bare s.bare = (ev ctx m s).mapEnv Env.bare
      ∧ ∀ v t, ev ctx m s = .done v t → t.env.Stores Regular

variable {ev ev' : Evaluator} {p p' : Plan}

/-- Related plans have related runs. -/
theorem Bares.run (hev : BaresParts ev ev') (h : Bares p p') {ctx : Context} (hctx : ctx.Quiet)
    {s : State} (hs : s.env.Stores Regular) :
    p'.run ev' ctx s.bare = (p.run ev ctx s).mapEnv Env.bare := by
  induction h generalizing ctx s with
  | finish v => rfl
  | unfinished => rfl
  | look _ ih => exact ih s.env hs hctx hs
  | @note e remark next next' _ ih =>
    show next'.run ev' ctx (s.bare.note ctx e) = _
    rw [← State.bare_note]
    apply ih hctx
    rwa [State.env_note]
  | emit _ ih => exact ih hctx (s := s.emit _) hs
  | @bind name b next next' hstores _ ih =>
    have hbind : s.bare.bind name b.bare = (s.bind name b).bare := by
      simp only [State.bind, State.bare, Env.bare_insert]
    show next'.run ev' ctx (s.bare.bind name b.bare) = _
    rw [hbind]
    exact ih hctx (s := s.bind name b) (hstores s.env hs)
  | @ask effects m k k' hm _ ih =>
    obtain ⟨hanswer, hleft⟩ := hev ctx m s hctx hm hs
    -- what a part leaves is kept or dropped on both sides alike
    have hafter : ∀ env, (effects.after s.env env).bare = effects.after s.env.bare env.bare := by
      intro env
      cases effects <;> rfl
    rw [run_ask, run_ask, hanswer]
    show ((_ : Outcome).mapEnv (effects.after s.env.bare)).andThen _ = _
    rw [← Outcome.mapEnv_mapEnv_comm hafter]
    symm
    apply Outcome.mapEnv_andThen
    intro v t ht
    obtain ⟨u, hu, rfl⟩ := Outcome.mapEnv_eq_done_iff.mp ht
    apply ih v hctx
    cases effects with
    | kept => exact hleft v u hu
    | undone => exact hs
  | askReturn hm =>
    rw [run_askReturn, run_askReturn, (hev ctx _ s hctx hm hs).1, Outcome.mapEnv_noted]
  | guarded _ ih =>
    by_cases hdepth : ctx.limit ≤ ctx.depth
    · rw [run_guarded_of_le _ _ hdepth, run_guarded_of_le _ _ hdepth]
      rfl
    · rw [run_guarded_of_not_le _ _ hdepth, run_guarded_of_not_le _ _ hdepth, ih hctx hs,
        Outcome.mapEnv_caught]
      rfl
  | @framed name params vs inner inner' _ ih =>
    let frame := State.note ⟨s.env.bindAll params vs, s.log⟩ ctx (.entered name ctx.inCall.depth)
    have hframe : frame.env.Stores Regular := by
      rw [State.env_note]
      exact hs.bindAll params vs
    -- the frame without brackets is the frame of the environment without brackets
    have hbare : frame.bare = State.note ⟨s.env.bare.bindAll params vs, s.log⟩ ctx
        (.entered name ctx.inCall.depth) := by
      rw [State.bare_note, ← Env.bare_bindAll]
      rfl
    calc (Plan.framed name params vs inner').run ev' ctx s.bare
        = (inner'.run ev' ctx.inCall frame.bare).mapEnv
            fun left => Env.restore s.env.bare left params := by
          rw [run_framed, hbare]
          rfl
      _ = ((inner.run ev ctx.inCall frame).mapEnv Env.bare).mapEnv
            fun left => Env.restore s.env.bare left params := by
          rw [ih hctx.inCall hframe]
      _ = ((Plan.framed name params vs inner).run ev ctx s).mapEnv Env.bare :=
          (Outcome.mapEnv_mapEnv_comm fun left => Env.bare_restore s.env left params).symm

/-! ### The rules -/

theorem bares_refuse (fault : Fault) : Bares (refuse fault) (refuse fault) := .finish _

theorem bares_malformed (kind : Kind) (part : String) :
    Bares (malformed kind part) (malformed kind part) := .finish _

/-- An assignment stores a value, which has no brackets. -/
theorem bares_store (name : String) (constant : Bool) (v : Value) :
    Bares (store name constant v) (store name constant v) := by
  apply Bares.look
  intro env _
  rw [Env.getElem?_bare]
  have hbind : Bares
      (.note (.assigned name v) rfl (.bind name (.variable v constant) (.finish .unit)))
      (.note (.assigned name v) rfl (.bind name (.variable v constant) (.finish .unit))) :=
    .note (.bind (fun env henv => henv.insert_variable name v constant) (.finish .unit))
  -- both sides see the same kind of binding: free, a variable, a constant or a subroutine
  rcases env[name]? with - | (⟨w, - | -⟩ | ⟨params, tree, ret⟩)
  · exact hbind
  · exact hbind
  · exact bares_refuse _
  · exact bares_refuse _

/-- Arguments are passed without their brackets. -/
theorem bares_passing {k k' : List Value → Plan} (hk : ∀ vs, Bares (k vs) (k' vs)) {es : List Node}
    (hes : ∀ e ∈ es, e.Regular) : Bares (passing k es) (passing k' (es.map bare)) := by
  induction es generalizing k k' with
  | nil => exact hk []
  | cons e es ih =>
    obtain ⟨he, hes⟩ := List.forall_mem_cons.mp hes
    apply Bares.ask he
    intro v
    exact ih (fun vs => hk (v :: vs)) hes

/-- A body and what is returned are run without their brackets. -/
theorem bares_body (name : String) {tree ret : Option Node}
    (h : ∀ m, tree = some m ∨ ret = some m → m.Regular) :
    Bares (body name tree ret) (body name (tree.map bare) (ret.map bare)) := by
  have hreturning : Bares (returning name ret) (returning name (ret.map bare)) := by
    rcases ret with - | m
    · exact .note (.finish .void)
    · exact .askReturn (h m (.inr rfl))
  rcases tree with - | m
  · exact hreturning
  · exact .ask (h m (.inl rfl)) fun _ => hreturning

/-- A condition has the same value without its brackets. -/
theorem bares_test {condition : Node} (hcondition : condition.Regular) (statement : String)
    {k k' : Bool → Plan} (hk : ∀ b, Bares (k b) (k' b)) :
    Bares (test condition statement k) (test condition.bare statement k') := by
  apply Bares.ask hcondition
  intro v
  rcases v with x | b | text | - | fault
  · exact bares_refuse _
  · exact hk b
  all_goals exact bares_refuse _

theorem bares_part {m : Node} (hm : m.Regular) :
    Bares (.ask .kept m .finish) (.ask .kept m.bare .finish) :=
  .ask hm fun v => .finish v

/-- Every round of a loop is that of the loop without brackets. -/
theorem bares_whileLoop {condition tree : Node} (hcondition : condition.Regular)
    (htree : tree.Regular) (rounds count : Nat) (value : Value) :
    Bares (whileLoop condition tree rounds count value)
      (whileLoop condition.bare tree.bare rounds count value) := by
  induction rounds generalizing count value with
  | zero => exact .unfinished
  | succ rounds ih =>
    apply bares_test hcondition
    intro b
    rcases b with - | -
    · exact .finish value
    · exact .note (.ask htree fun v => ih (count + 1) v)

/-- The same of a loop with the test behind its body. -/
theorem bares_repeatLoop {condition tree : Node} (hcondition : condition.Regular)
    (htree : tree.Regular) (rounds count : Nat) :
    Bares (repeatLoop condition tree rounds count)
      (repeatLoop condition.bare tree.bare rounds count) := by
  induction rounds generalizing count with
  | zero => exact .unfinished
  | succ rounds ih =>
    refine .note (.ask htree fun v => ?_)
    apply bares_test hcondition
    intro b
    rcases b with - | -
    · exact ih (count + 1)
    · exact .finish v

theorem bares_operands {left right : Node} (hleft : left.Regular) (hright : right.Regular)
    (combine : Value → Value → Value) :
    Bares (operands left right combine) (operands left.bare right.bare combine) :=
  .ask hleft fun _ => .ask hright fun _ => .finish _

section
variable {n : Node} (hn : n.Regular) (hk : n.kind ≠ .bracket)
include hn hk

theorem bares_assignment : Bares (assignment n) (assignment n.bare) := by
  unfold assignment
  rw [text?_bare hk, property?_bare hk, child?_bare hk]
  rcases n.text? "name" with - | name
  · exact bares_malformed ..
  rcases n.property? "constant" with - | constant
  · exact bares_malformed ..
  rcases harg : n.child? .argument with - | argument
  · exact bares_malformed ..
  · exact .ask (hereditary_regular hn harg) fun v => bares_store name constant.isSet v

/-- A definition stores the trees without their brackets. -/
theorem bares_definition (hkind : n.kind = .subroutine) :
    Bares (definition n) (definition n.bare) := by
  unfold definition
  rw [text?_bare hk, parameterNames?_bare hn hkind, child?_bare hk, child?_bare hk]
  rcases n.text? "name" with - | name
  · exact bares_malformed ..
  dsimp only
  rcases parameterNames? (n.child? .params) with - | params
  · exact bares_malformed ..
  dsimp only
  split
  · exact bares_refuse _
  apply Bares.look
  intro env _
  rw [Env.getElem?_bare]
  have htrees : ∀ m, n.child? .left = some m ∨ n.child? .ret = some m → m.Regular := by
    rintro m (hm | hm)
    · exact hereditary_regular hn hm
    · exact hereditary_regular hn hm
  -- the trees that are stored are regular again
  have hstores : ∀ env : Env, env.Stores Regular → Env.Stores Regular
      (env.insert name (.subroutine params (n.child? .left) (n.child? .ret))) := by
    intro env henv
    exact henv.insert_subroutine name params htrees
  -- a constant is not redefined, anything else is
  rcases env[name]? with - | (⟨w, - | -⟩ | ⟨params', tree, ret⟩)
  case some.variable.true => exact bares_refuse _
  all_goals exact .note (.bind hstores (.finish .unit))

/-- The trees of the subroutine that is called come from the environment, where they have lost their
brackets, too. -/
theorem bares_call (hkind : n.kind = .call) : Bares (call n) (call n.bare) := by
  unfold call
  rw [text?_bare hk]
  rcases n.text? "name" with - | name
  · exact bares_malformed ..
  apply Bares.look
  intro env henv
  rw [Env.getElem?_bare, argumentExpressions?_bare hn hkind]
  rcases hbind : env[name]? with - | (⟨v, constant⟩ | ⟨params, tree, ret⟩)
  · exact bares_refuse _
  · exact bares_refuse _
  dsimp only [Option.map, Binding.bare]
  rcases hes : argumentExpressions? (n.child? .argument) with - | es
  · exact bares_malformed ..
  dsimp only
  rw [List.length_map]
  split
  · exact bares_refuse _
  have hargs : ∀ e ∈ es, e.Regular := by
    intro e he
    exact hereditary_regular.below hn (Part.argument hkind hes he).below
  -- the stored trees are regular, so the frame is run without their brackets
  have hframe : ∀ vs, Bares (.framed name params vs (body name tree ret))
      (.framed name params vs (body name (tree.map bare) (ret.map bare))) := by
    intro vs
    exact .framed (bares_body name fun m hm => henv _ _ _ _ _ hbind hm)
  exact .guarded (bares_passing hframe hargs)

/-- A conditional and its choice. -/
theorem bares_conditional : Bares (conditional n) (conditional n.bare) := by
  unfold conditional
  rw [text?_bare hk, child?_bare hk, child?_bare hk, child?_bare hk]
  rcases n.text? "style" with - | style
  · exact bares_malformed ..
  rcases hcond : n.child? .argument with - | condition
  · exact bares_malformed ..
  rcases hthen : n.child? .left with - | thenBranch
  · exact bares_malformed ..
  have hc : condition.Regular := hereditary_regular hn hcond
  have ht : thenBranch.Regular := hereditary_regular hn hthen
  dsimp only [Option.map]
  split
  · apply bares_test hc
    intro b
    rcases b with - | -
    · exact .finish .unit
    · exact bares_part ht
  split
  · rcases helse : n.child? .right with - | elseBranch
    · exact bares_malformed ..
    · apply bares_test hc
      intro b
      rcases b with - | -
      · exact bares_part (hereditary_regular hn helse)
      · exact bares_part ht
  · exact bares_refuse _

/-- Both kinds of loops. -/
theorem bares_loop (rounds : Nat) : Bares (loop rounds n) (loop rounds n.bare) := by
  unfold loop
  rw [text?_bare hk, child?_bare hk, child?_bare hk]
  rcases n.text? "style" with - | style
  · exact bares_malformed ..
  rcases hcond : n.child? .argument with - | condition
  · exact bares_malformed ..
  rcases htree : n.child? .left with - | tree
  · exact bares_malformed ..
  have hc : condition.Regular := hereditary_regular hn hcond
  have ht : tree.Regular := hereditary_regular hn htree
  dsimp only [Option.map]
  split
  · exact bares_whileLoop hc ht rounds 0 .unit
  split
  · exact bares_repeatLoop hc ht rounds 0
  · exact bares_refuse _

theorem bares_relation : Bares (relation n) (relation n.bare) := by
  unfold relation
  rw [text?_bare hk, child?_bare hk, child?_bare hk]
  rcases n.text? "relation" with - | name
  · exact bares_malformed ..
  rcases hleft : n.child? .left with - | left
  · exact bares_malformed ..
  rcases hright : n.child? .right with - | right
  · exact bares_malformed ..
  · exact bares_operands (hereditary_regular hn hleft) (hereditary_regular hn hright) _

theorem bares_binary : Bares (binary n) (binary n.bare) := by
  unfold binary
  rw [text?_bare hk, child?_bare hk, child?_bare hk]
  rcases n.text? "operation" with - | name
  · exact bares_malformed ..
  rcases hleft : n.child? .left with - | left
  · exact bares_malformed ..
  rcases hright : n.child? .right with - | right
  · exact bares_malformed ..
  · exact bares_operands (hereditary_regular hn hleft) (hereditary_regular hn hright) _

theorem bares_unary : Bares (unary n) (unary n.bare) := by
  unfold unary
  rw [text?_bare hk, child?_bare hk]
  rcases n.text? "operation" with - | name
  · exact bares_malformed ..
  rcases harg : n.child? .argument with - | argument
  · exact bares_malformed ..
  · exact .ask (hereditary_regular hn harg) fun v => .finish _

theorem bares_output : Bares (output n) (output n.bare) := by
  unfold output
  rw [child?_bare hk]
  rcases harg : n.child? .argument with - | argument
  · exact bares_malformed ..
  · exact .ask (hereditary_regular hn harg) fun v => .emit (.finish v)

theorem bares_arguments : Bares (arguments n) (arguments n.bare) := by
  unfold arguments
  rw [child?_bare hk, child?_bare hk]
  rcases hleft : n.child? .left with - | first
  · exact bares_malformed ..
  apply Bares.ask (hereditary_regular hn hleft)
  intro v
  rcases hright : n.child? .right with - | rest
  · exact .finish _
  · exact .ask (hereditary_regular hn hright) fun w => .finish _

omit hn in
theorem bares_reference : Bares (reference n) (reference n.bare) := by
  unfold reference
  rw [text?_bare hk]
  rcases n.text? "name" with - | name
  · exact bares_malformed ..
  apply Bares.look
  intro env _
  rw [Env.getElem?_bare]
  rcases env[name]? with - | (⟨v, constant⟩ | ⟨params, tree, ret⟩)
  · exact bares_refuse _
  · exact .finish v
  · exact bares_refuse _

/-- A block has the same statements on its spine, without their brackets. -/
theorem bares_blockByParts : Bares (blockByParts n) (blockByParts n.bare) := by
  unfold blockByParts
  rw [child?_bare hk, child?_bare hk]
  rcases hleft : n.child? .left with - | left
  · exact bares_malformed ..
  rcases hright : n.child? .right with - | right
  · exact bares_malformed ..
  · exact .ask (hereditary_regular hn hleft) fun _ => bares_part (hereditary_regular hn hright)

/-- All rules but that of brackets do the same with the bare form of their node. -/
theorem bares_byParts (rounds : Nat) : Bares (byParts rounds n) (byParts rounds n.bare) := by
  unfold byParts
  rw [kind_bare hk]
  by_cases hsequence : n.kind = .sequence
  · rw [if_pos hsequence, if_pos hsequence]
    exact bares_blockByParts hn hk
  rw [if_neg hsequence, if_neg hsequence]
  unfold ofNode
  rw [kind_bare hk]
  split
  · exact absurd ‹_› hsequence
  · exact bares_assignment hn hk
  · exact bares_definition hn hk ‹_›
  · exact bares_call hn hk ‹_›
  · exact bares_conditional hn hk
  · exact bares_loop hn hk rounds
  · exact bares_relation hn hk
  · exact bares_binary hn hk
  · exact bares_unary hn hk
  · exact bares_output hn hk
  · exact bares_arguments hn hk
  · exact bares_refuse _
  · exact absurd ‹_› hk
  · exact bares_reference hk
  · rw [text?_bare hk]
    exact .finish _
  · rw [property?_bare hk]
    exact .finish _
  all_goals exact .note (bares_refuse _)

end

end Plan

end Pseudocode
