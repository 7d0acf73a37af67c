import Pseudocode.Proofs.Contract.Basic

/-!
The rules of evaluation respect every sound contract.

One lemma for each rule: if two evaluators agree on the parts, as the contract asks, then the rule
gives the same outcome with either of them, and the outcome is according to the contract. The
lemmas follow the rules branch by branch, so a change to a rule is a change to its lemma alone.

Main result: `Sound.agree_step`, the rules of all kinds together.
-/

namespace Pseudocode.Contract

variable {c : Contract} {start : Env}

open Eval

variable {ev ev' : Evaluator} {ctx : Context} {n : Node} {s : State}
variable (hc : c.Sound) (hev : c.Binds ev ev')

include hc

/-- Nothing has happened but a change of the environment. -/
theorem Sound.agree_unit (hs : c.keeps s.env) (hl : c.leads start s.env) :
    c.Agree start (.done .unit s) (.done .unit s) :=
  .done ⟨hc.unit, hs, hl⟩

/-- The errors of a run are allowed in any environment. -/
theorem Sound.agree_trouble {fault : Fault} (hfault : fault.AtRunTime) (hs : c.keeps s.env)
    (hl : c.leads start s.env) :
    c.Agree start (Outcome.fail fault s) (Outcome.fail fault s) :=
  .done ⟨hc.trouble hfault, hs, hl⟩

theorem Sound.agree_defect {fault : Fault} (hn : c.admits ctx n) (hd : Defect n fault)
    (hs : c.keeps s.env) : c.Agree s.env (Outcome.fail fault s) (Outcome.fail fault s) :=
  .done ⟨hc.defect hn hd, hs, hc.refl s.env⟩

/-- A node without a required property is malformed. -/
theorem Sound.agree_no_property {kind : Kind} {key : String} (hn : c.admits ctx n)
    (hk : n.kind = kind) (hkey : key ∈ kind.requiredProperties) (hp : n.text? key = none)
    (hs : c.keeps s.env) : c.Agree s.env (malformed kind key s) (malformed kind key s) := by
  subst hk
  exact hc.agree_defect hn (.property hkey (Node.text?_eq_none_iff.mp hp)) hs

theorem Sound.agree_no_slot {kind : Kind} (slot : Slot) (hn : c.admits ctx n)
    (hk : n.kind = kind) (hslot : slot ∈ kind.requiredSlots) (hp : n.child? slot = none)
    (hs : c.keeps s.env) :
    c.Agree s.env (malformed kind slot.name s) (malformed kind slot.name s) := by
  subst hk
  exact hc.agree_defect hn (.slot hslot hp) hs

theorem Sound.admits_child {kind : Kind} {slot : Slot} {m : Node} (hn : c.admits ctx n)
    (hk : n.kind = kind) (hslot : slot ∈ kind.evaluatedSlots) (hm : n.child? slot = some m) :
    c.admits ctx m := by
  subst hk
  exact hc.part hn (.child hslot hm)

include hev

/-- A part that is evaluated in the course of a rule, in an environment that the rule came to. -/
theorem Sound.agree_part {m : Node} (hm : c.admits ctx m) (hs : c.keeps s.env)
    (hl : c.leads start s.env) : c.Agree start (ev ctx m s) (ev' ctx m s) :=
  (hev hm hs).from hc hl

/-- A block, by recursion along its spine. -/
theorem Sound.agree_sequence (hn : c.admits ctx n) (hk : n.kind = .sequence)
    (hs : c.keeps s.env) (hl : c.leads start s.env) :
    c.Agree start (sequence ev ctx n s) (sequence ev' ctx n s) := by
  induction n using Node.child_induction generalizing s with
  | step n ih =>
    rcases hleft : n.child? .left with - | l
    · rw [sequence_of_no_left hk hleft, sequence_of_no_left hk hleft]
      exact (hc.agree_no_slot .left hn hk (by decide) hleft hs).from hc hl
    rcases hright : n.child? .right with - | r
    · rw [sequence_of_no_right hk hleft hright, sequence_of_no_right hk hleft hright]
      exact (hc.agree_no_slot .right hn hk (by decide) hright hs).from hc hl
    rw [sequence_of_parts hk hleft hright, sequence_of_parts hk hleft hright]
    have hadl : c.admits ctx l := hc.admits_child hn hk (by decide) hleft
    have hadr : c.admits ctx r := hc.admits_child hn hk (by decide) hright
    refine (hc.agree_part hev hadl hs hl).andThen fun v s' _ hl' => ?_
    -- the spine goes on, or ends here with a node that is no sequence
    by_cases hkr : r.kind = .sequence
    · exact ih .right r hright hadr hkr hl'.keeps hl'.leads
    · rw [sequence_of_kind_ne hkr, sequence_of_kind_ne hkr]
      exact hc.agree_part hev hadr hl'.keeps hl'.leads

omit hev in
/-- What may be stored leads to what is stored. -/
theorem Sound.agree_store {name : String} {constant : Bool} {v : Value} (hn : c.admits ctx n)
    (hk : n.kind = .assignment) (hname : n.text? "name" = some name) (hv : v.isError = false)
    (hl : c.Leaves start v s.env) :
    c.Agree start (store ctx name constant v s) (store ctx name constant v s) := by
  unfold store
  split
  · exact hc.agree_trouble (.wrongKind ..) hl.keeps hl.leads
  · exact hc.agree_trouble (.constantReassigned ..) hl.keeps hl.leads
  · rename_i hsub hconst
    -- the first two branches have dealt with subroutines and constants
    have hfree : ∀ b, s.env[name]? = some b → b.isSubroutine = false ∧ b.isConstant = false := by
      rintro (⟨w, k⟩ | ⟨params, tree, ret⟩) hb
      · refine ⟨rfl, ?_⟩
        rcases k with - | -
        · rfl
        · exact absurd hb (hconst w)
      · exact absurd hb (hsub params tree ret)
    have hbound := @hc.assign ctx n v constant name s.env hn hk hname hl.keeps hl.yields hv hfree
    obtain ⟨hkeeps, hleads⟩ := hbound
    refine hc.agree_unit ?_ ?_ <;> rw [State.env_bind, State.env_note]
    · exact hkeeps
    · exact hc.trans hl.leads hleads

theorem Sound.agree_assignment (hn : c.admits ctx n) (hk : n.kind = .assignment)
    (hs : c.keeps s.env) :
    c.Agree s.env (assignment ev ctx n s) (assignment ev' ctx n s) := by
  unfold assignment
  rcases hname : n.text? "name" with - | name
  · exact hc.agree_no_property hn hk (by decide) hname hs
  rcases hconst : n.property? "constant" with - | constant
  · exact hc.agree_no_property hn hk (by decide) (Node.text?_eq_none_iff.mpr hconst) hs
  rcases harg : n.child? .argument with - | argument
  · exact hc.agree_no_slot .argument hn hk (by decide) harg hs
  have hadm : c.admits ctx argument := hc.admits_child hn hk (by decide) harg
  exact (hev hadm hs).andThen fun v s' hv hl => hc.agree_store hn hk hname hv hl

omit hev in
/-- A definition stores its body and checks nothing but names. -/
theorem Sound.agree_definition (hn : c.admits ctx n) (hk : n.kind = .subroutine)
    (hs : c.keeps s.env) : c.Agree s.env (definition ctx n s) (definition ctx n s) := by
  unfold definition
  rcases hname : n.text? "name" with - | name
  · exact hc.agree_no_property hn hk (by decide) hname hs
  dsimp only
  rcases hparams : Node.parameterNames? (n.child? .params) with - | params
  · exact hc.agree_defect hn (.parameters hk hparams) hs
  dsimp only
  by_cases hnodup : params.Nodup
  · rw [if_neg (not_not_intro hnodup)]
    split
    · exact hc.agree_trouble (.constantReassigned ..) hs (hc.refl s.env)
    · rename_i hconst
      -- only a constant keeps its name from being defined again
      have hfree : ∀ b, s.env[name]? = some b → b.isConstant = false := by
        rintro (⟨w, k⟩ | ⟨params, tree, ret⟩) hb
        · rcases k with - | -
          · rfl
          · exact absurd hb (hconst w)
        · rfl
      obtain ⟨hkeeps, hleads⟩ := hc.define hn hk hname hparams hnodup hs hfree
      refine hc.agree_unit ?_ ?_ <;> rw [State.env_bind, State.env_note]
      · exact hkeeps
      · exact hleads
  · rw [if_pos hnodup]
    exact hc.agree_trouble (.repeatedParameter ..) hs (hc.refl s.env)

/-! ### Calls -/

/-- Arguments are passed into a frame that differs from the caller's environment at parameters
only, and what the call goes on with sees such a frame. -/
theorem Sound.agree_passArguments {caller : Env} (params : List String)
    {k k' : State → Outcome} (hcaller : c.keeps caller)
    (hk : ∀ frame : State, c.keeps frame.env →
      (∀ x, x ∉ params → frame.env[x]? = caller[x]?) → c.Agree caller (k frame) (k' frame))
    (pairs : List (String × Node)) (hpairs : ∀ p ∈ pairs, p.1 ∈ params ∧ c.admits ctx p.2)
    {frame : State} (hframe : c.keeps frame.env)
    (hout : ∀ x, x ∉ params → frame.env[x]? = caller[x]?) :
    c.Agree caller (passArguments ev ctx caller k pairs frame)
      (passArguments ev' ctx caller k' pairs frame) := by
  induction pairs generalizing frame with
  | nil => exact hk frame hframe hout
  | cons pair rest ih =>
    obtain ⟨param, argument⟩ := pair
    obtain ⟨hparam, hadm⟩ := hpairs _ List.mem_cons_self
    have hrest : ∀ p ∈ rest, p.1 ∈ params ∧ c.admits ctx p.2 :=
      fun p hp => hpairs p (List.mem_cons_of_mem _ hp)
    refine ((hev (s := ⟨caller, frame.log⟩) hadm hcaller).inEnv hc hcaller).andThen
      fun v s' hv hl => ?_
    -- the frame moves away from the caller's environment at a parameter only
    refine ih hrest (hc.pass hframe hl.yields hv) fun x hx => ?_
    have hne : param ≠ x := fun h => hx (h ▸ hparam)
    rw [Std.ExtTreeMap.getElem?_insert, if_neg (by simpa using hne)]
    exact hout x hx

theorem Sound.agree_returned {name : String} {ret : Option Node}
    (hret : ∀ m, ret = some m → c.admits ctx.inCall m) (hs : c.keeps s.env)
    (hl : c.leads start s.env) :
    c.Agree start (returned ev ctx name ret s) (returned ev' ctx name ret s) := by
  rcases ret with - | m
  · exact Agree.noted (.done ⟨hc.void, hs, hl⟩)
  · exact Agree.noted (hc.agree_part hev (hret m rfl) hs hl)

/-- A body, with what is returned behind it. -/
theorem Sound.agree_body (name : String) {tree ret : Option Node}
    (htree : ∀ m, tree = some m ∨ ret = some m → c.admits ctx.inCall m) {frame : State}
    (hframe : c.keeps frame.env) :
    c.Agree frame.env (body ev ctx name tree ret frame) (body ev' ctx name tree ret frame) := by
  have hret : ∀ m, ret = some m → c.admits ctx.inCall m := fun m h => htree m (.inr h)
  -- the event at the entry changes no environment
  have hkeeps : c.keeps (frame.note ctx (.entered name ctx.inCall.depth)).env := by
    rw [State.env_note]
    exact hframe
  have hleads : c.leads frame.env (frame.note ctx (.entered name ctx.inCall.depth)).env := by
    rw [State.env_note]
    exact hc.refl frame.env
  rcases tree with - | m
  · exact hc.agree_returned hev hret hkeeps hleads
  · refine (hc.agree_part hev (htree m (.inl rfl)) hkeeps hleads).andThen fun _ s' _ hl => ?_
    exact hc.agree_returned hev hret hl.keeps hl.leads

/-- A frame is good before its body runs, and the caller is good again behind it. -/
theorem Sound.agree_invoke {name : String} {params : List String} {tree ret : Option Node}
    {arguments : List Node} (htree : ∀ m, tree = some m ∨ ret = some m → c.admits ctx.inCall m)
    (hargs : ∀ m ∈ arguments, c.admits ctx m) (hs : c.keeps s.env) :
    c.Agree s.env (invoke ev ctx name params tree ret arguments s)
      (invoke ev' ctx name params tree ret arguments s) := by
  refine hc.agree_passArguments hev params hs ?_ _ ?_ hs fun _ _ => rfl
  · intro frame hframe hout
    -- what the contract says of the frame at its end is carried over to the caller by `restore`
    obtain ⟨hsame, hleaves⟩ := hc.agree_body hev name htree hframe
    rw [← hsame]
    rcases hbody : body ev ctx name tree ret frame with ⟨v, left⟩ | log | -
    · have hl := hleaves hbody
      obtain ⟨hkeeps, hleads⟩ := hc.restore hs hl.keeps hout hl.leads
      exact .done ⟨hl.yields, hkeeps, hleads⟩
    · exact ⟨rfl, nofun⟩
    · exact ⟨rfl, nofun⟩
  · rintro ⟨param, argument⟩ hmem
    exact ⟨(List.of_mem_zip hmem).1, hargs argument (List.of_mem_zip hmem).2⟩

/-- A call is refused, or passes its arguments and runs the body. -/
theorem Sound.agree_call (hn : c.admits ctx n) (hk : n.kind = .call) (hs : c.keeps s.env) :
    c.Agree s.env (call ev ctx n s) (call ev' ctx n s) := by
  unfold call
  rcases hname : n.text? "name" with - | name
  · exact hc.agree_no_property hn hk (by decide) hname hs
  dsimp only
  rcases hbind : s.env[name]? with - | (⟨w, k⟩ | ⟨params, tree, ret⟩)
  · exact hc.agree_trouble (.noSubroutine ..) hs (hc.refl s.env)
  · exact hc.agree_trouble (.wrongKind ..) hs (hc.refl s.env)
  dsimp only
  rcases hargs : Node.argumentExpressions? (n.child? .argument) with - | arguments
  · exact hc.agree_defect hn (.arguments hk hargs) hs
  dsimp only
  split
  · exact hc.agree_trouble (.wrongArity ..) hs (hc.refl s.env)
  split
  · exact hc.agree_trouble (.depthExceeded ..) hs (hc.refl s.env)
  · -- below the limit, the trees of the subroutine are admitted one call further down
    rename_i hdepth
    have htree : ∀ m, tree = some m ∨ ret = some m → c.admits ctx.inCall m :=
      fun m => hc.enter hn hk hs (by omega) hbind
    have hparts : ∀ m ∈ arguments, c.admits ctx m :=
      fun m hm => hc.part hn (.argument hk hargs hm)
    exact (hc.agree_invoke hev htree hparts hs).caught hc (.callTooDeep ..) hs

/-! ### Conditionals and loops -/

/-- A condition that is no truth value is an error; otherwise its value decides. -/
theorem Sound.agree_test {condition : Node} {statement : String} {k k' : Bool → State → Outcome}
    (hn : c.admits ctx condition) (hs : c.keeps s.env) (hl : c.leads start s.env)
    (hk : ∀ b s', c.keeps s'.env → c.leads start s'.env → c.Agree start (k b s') (k' b s')) :
    c.Agree start (test ev ctx condition statement s k)
      (test ev' ctx condition statement s k') := by
  refine (hc.agree_part hev hn hs hl).andThen fun v s' _ hl' => ?_
  -- only a truth value is gone on with
  rcases v with x | b | t | - | f
  · exact hc.agree_trouble (.conditionNotBoolean ..) hl'.keeps hl'.leads
  · exact hk b s' hl'.keeps hl'.leads
  all_goals exact hc.agree_trouble (.conditionNotBoolean ..) hl'.keeps hl'.leads

/-- A conditional runs one of its branches. -/
theorem Sound.agree_conditional (hn : c.admits ctx n) (hk : n.kind = .conditional)
    (hs : c.keeps s.env) :
    c.Agree s.env (conditional ev ctx n s) (conditional ev' ctx n s) := by
  unfold conditional
  rcases hstyle : n.text? "style" with - | style
  · exact hc.agree_no_property hn hk (by decide) hstyle hs
  rcases hcond : n.child? .argument with - | condition
  · exact hc.agree_no_slot .argument hn hk (by decide) hcond hs
  rcases hthen : n.child? .left with - | thenBranch
  · exact hc.agree_no_slot .left hn hk (by decide) hthen hs
  have hadc : c.admits ctx condition := hc.admits_child hn hk (by decide) hcond
  have hadt : c.admits ctx thenBranch := hc.admits_child hn hk (by decide) hthen
  dsimp only
  split
  · refine hc.agree_test hev hadc hs (hc.refl s.env) fun b s' hkeeps hleads => ?_
    rcases b with - | -
    · exact hc.agree_unit hkeeps hleads
    · exact hc.agree_part hev hadt hkeeps hleads
  split
  · rename_i heq
    rcases helse : n.child? .right with - | elseBranch
    · have hd : Defect n (.malformed n.kind.name (some "right")) :=
        .alternative hk (hstyle.trans (congrArg some heq)) helse
      rw [hk] at hd
      exact hc.agree_defect hn hd hs
    · have hade : c.admits ctx elseBranch := hc.admits_child hn hk (by decide) helse
      refine hc.agree_test hev hadc hs (hc.refl s.env) fun b s' hkeeps hleads => ?_
      rcases b with - | -
      · exact hc.agree_part hev hade hkeeps hleads
      · exact hc.agree_part hev hadt hkeeps hleads
  · rename_i hthenStyle helseStyle
    exact hc.agree_defect hn (.conditionalStyle hk hstyle hthenStyle helseStyle) hs

/-- By induction on the rounds, with the value of the last one. -/
theorem Sound.agree_whileLoop {condition tree : Node} (hcond : c.admits ctx condition)
    (htree : c.admits ctx tree) (rounds count : Nat) {value : Value} (hvalue : c.yields value)
    (hs : c.keeps s.env) (hl : c.leads start s.env) :
    c.Agree start (whileLoop ev ctx condition tree rounds count value s)
      (whileLoop ev' ctx condition tree rounds count value s) := by
  induction rounds generalizing count value s with
  -- without a round left neither side ends
  | zero => exact ⟨rfl, nofun⟩
  | succ rounds ih =>
    refine hc.agree_test hev hcond hs hl fun b s₁ hkeeps hleads => ?_
    rcases b with - | -
    · exact .done ⟨hvalue, hkeeps, hleads⟩
    · rw [if_pos rfl, if_pos rfl]
      have hnote : (s₁.note ctx (.iterated Node.whileStyle (count + 1))).env = s₁.env :=
        State.env_note ..
      refine (hc.agree_part hev htree (hnote ▸ hkeeps) (hnote ▸ hleads)).andThen
        fun v s₂ _ hl₂ => ?_
      exact ih (count + 1) hl₂.yields hl₂.keeps hl₂.leads

/-- The same of a loop with the test behind its body. -/
theorem Sound.agree_repeatLoop {condition tree : Node} (hcond : c.admits ctx condition)
    (htree : c.admits ctx tree) (rounds count : Nat) (hs : c.keeps s.env)
    (hl : c.leads start s.env) :
    c.Agree start (repeatLoop ev ctx condition tree rounds count s)
      (repeatLoop ev' ctx condition tree rounds count s) := by
  induction rounds generalizing count s with
  | zero => exact ⟨rfl, nofun⟩
  | succ rounds ih =>
    have hnote : (s.note ctx (.iterated Node.repeatStyle (count + 1))).env = s.env :=
      State.env_note ..
    refine (hc.agree_part hev htree (hnote ▸ hs) (hnote ▸ hl)).andThen fun v s₁ _ hl₁ => ?_
    refine hc.agree_test hev hcond hl₁.keeps hl₁.leads fun b s₂ hkeeps hleads => ?_
    rcases b with - | -
    · exact ih (count + 1) hkeeps hleads
    · exact .done ⟨hl₁.yields, hkeeps, hleads⟩

/-- The style of a loop says which of the two it is. -/
theorem Sound.agree_loop (rounds : Nat) (hn : c.admits ctx n) (hk : n.kind = .loop)
    (hs : c.keeps s.env) :
    c.Agree s.env (loop rounds ev ctx n s) (loop rounds ev' ctx n s) := by
  unfold loop
  rcases hstyle : n.text? "style" with - | style
  · exact hc.agree_no_property hn hk (by decide) hstyle hs
  rcases hcond : n.child? .argument with - | condition
  · exact hc.agree_no_slot .argument hn hk (by decide) hcond hs
  rcases htree : n.child? .left with - | tree
  · exact hc.agree_no_slot .left hn hk (by decide) htree hs
  have hadc : c.admits ctx condition := hc.admits_child hn hk (by decide) hcond
  have hadt : c.admits ctx tree := hc.admits_child hn hk (by decide) htree
  dsimp only
  split
  · exact hc.agree_whileLoop hev hadc hadt rounds 0 hc.unit hs (hc.refl s.env)
  split
  · exact hc.agree_repeatLoop hev hadc hadt rounds 0 hs (hc.refl s.env)
  · rename_i hwhile hrepeat
    exact hc.agree_defect hn (.loopStyle hk hstyle hwhile hrepeat) hs

/-! ### Expressions -/

/-- Both operands are evaluated, and their values combined. -/
theorem Sound.agree_operands {left right : Node} {combine : Value → Value → Value}
    (hleft : c.admits ctx left) (hright : c.admits ctx right)
    (hcombine : ∀ v w, c.yields v → c.yields w → c.yields (combine v w)) (hs : c.keeps s.env) :
    c.Agree s.env (operands ev ctx left right combine s)
      (operands ev' ctx left right combine s) := by
  refine (hev hleft hs).andThen fun v s₁ _ hl₁ => ?_
  refine (hc.agree_part hev hright hl₁.keeps hl₁.leads).andThen fun w s₂ _ hl₂ => ?_
  exact .done ⟨hcombine v w hl₁.yields hl₂.yields, hl₂.keeps, hl₂.leads⟩

theorem Sound.agree_relation (hn : c.admits ctx n) (hk : n.kind = .relation)
    (hs : c.keeps s.env) : c.Agree s.env (relation ev ctx n s) (relation ev' ctx n s) := by
  unfold relation
  rcases hname : n.text? "relation" with - | name
  · exact hc.agree_no_property hn hk (by decide) hname hs
  rcases hleft : n.child? .left with - | left
  · exact hc.agree_no_slot .left hn hk (by decide) hleft hs
  rcases hright : n.child? .right with - | right
  · exact hc.agree_no_slot .right hn hk (by decide) hright hs
  exact hc.agree_operands hev (hc.admits_child hn hk (by decide) hleft)
    (hc.admits_child hn hk (by decide) hright) (fun _ _ => hc.relate hn hk hname) hs

theorem Sound.agree_binary (hn : c.admits ctx n) (hk : n.kind = .binary)
    (hs : c.keeps s.env) : c.Agree s.env (Eval.binary ev ctx n s) (Eval.binary ev' ctx n s) := by
  unfold Eval.binary
  rcases hname : n.text? "operation" with - | name
  · exact hc.agree_no_property hn hk (by decide) hname hs
  rcases hleft : n.child? .left with - | left
  · exact hc.agree_no_slot .left hn hk (by decide) hleft hs
  rcases hright : n.child? .right with - | right
  · exact hc.agree_no_slot .right hn hk (by decide) hright hs
  exact hc.agree_operands hev (hc.admits_child hn hk (by decide) hleft)
    (hc.admits_child hn hk (by decide) hright) (fun _ _ => hc.binary hn hk hname) hs

theorem Sound.agree_unary (hn : c.admits ctx n) (hk : n.kind = .unary)
    (hs : c.keeps s.env) : c.Agree s.env (Eval.unary ev ctx n s) (Eval.unary ev' ctx n s) := by
  unfold Eval.unary
  rcases hname : n.text? "operation" with - | name
  · exact hc.agree_no_property hn hk (by decide) hname hs
  rcases harg : n.child? .argument with - | argument
  · exact hc.agree_no_slot .argument hn hk (by decide) harg hs
  refine (hev (hc.admits_child hn hk (by decide) harg) hs).andThen fun v s' _ hl => ?_
  exact .done ⟨hc.unary hn hk hname hl.yields, hl.keeps, hl.leads⟩

theorem Sound.agree_output (hn : c.admits ctx n) (hk : n.kind = .output)
    (hs : c.keeps s.env) : c.Agree s.env (output ev ctx n s) (output ev' ctx n s) := by
  unfold output
  rcases harg : n.child? .argument with - | argument
  · exact hc.agree_no_slot .argument hn hk (by decide) harg hs
  refine (hev (hc.admits_child hn hk (by decide) harg) hs).andThen fun v s' _ hl => ?_
  exact .done hl

theorem Sound.agree_arguments (hn : c.admits ctx n) (hk : n.kind = .arguments)
    (hs : c.keeps s.env) : c.Agree s.env (arguments ev ctx n s) (arguments ev' ctx n s) := by
  unfold arguments
  rcases hleft : n.child? .left with - | first
  · exact hc.agree_no_slot .left hn hk (by decide) hleft hs
  have hadl : c.admits ctx first := hc.admits_child hn hk (by decide) hleft
  refine ((hev hadl hs).inEnv hc hs).andThen fun v s₁ _ hl₁ => ?_
  rcases hright : n.child? .right with - | rest
  · exact .done ⟨hc.display hn hk, hl₁.keeps, hl₁.leads⟩
  have hadr : c.admits ctx rest := hc.admits_child hn hk (by decide) hright
  refine (((hev hadr hl₁.keeps).inEnv hc hl₁.keeps).from hc hl₁.leads).andThen
    fun w s₂ _ hl₂ => ?_
  exact .done ⟨hc.display hn hk, hl₂.keeps, hl₂.leads⟩

theorem Sound.agree_bracket (hn : c.admits ctx n) (hk : n.kind = .bracket)
    (hs : c.keeps s.env) : c.Agree s.env (bracket ev ctx n s) (bracket ev' ctx n s) := by
  unfold bracket
  rcases harg : n.child? .argument with - | argument
  · exact hc.agree_no_slot .argument hn hk (by decide) harg hs
  · exact hev (hc.admits_child hn hk (by decide) harg) hs

omit hev in
theorem Sound.agree_reference (hn : c.admits ctx n) (hk : n.kind = .variable)
    (hs : c.keeps s.env) : c.Agree s.env (reference n s) (reference n s) := by
  unfold reference
  rcases hname : n.text? "name" with - | name
  · exact hc.agree_no_property hn hk (by decide) hname hs
  dsimp only
  rcases hbind : s.env[name]? with - | (⟨v, k⟩ | ⟨params, tree, ret⟩)
  · exact hc.agree_trouble (.noVariable ..) hs (hc.refl s.env)
  · exact .done ⟨hc.read hs hbind, hs, hc.refl s.env⟩
  · exact hc.agree_trouble (.wrongKind ..) hs (hc.refl s.env)

/-! ### All kinds -/

/-- One step of the evaluator, by the kind of the node. -/
theorem Sound.agree_step (rounds : Nat) (hn : c.admits ctx n) (hs : c.keeps s.env) :
    c.Agree s.env (step rounds ev ctx n s) (step rounds ev' ctx n s) := by
  unfold step
  -- one rule for each kind; the last two are no kinds of their own
  rcases hk : n.kind with _ | _ | _ | _ | _ | _ | _ | _ | _ | _ | _ | _ | _ | _ | _ | _ | _ | name
  · exact hc.agree_sequence hev hn hk hs (hc.refl s.env)
  · exact hc.agree_assignment hev hn hk hs
  · exact hc.agree_definition hn hk hs
  · exact hc.agree_call hev hn hk hs
  · exact hc.agree_conditional hev hn hk hs
  · exact hc.agree_loop hev rounds hn hk hs
  · exact hc.agree_relation hev hn hk hs
  · exact hc.agree_binary hev hn hk hs
  · exact hc.agree_unary hev hn hk hs
  · exact hc.agree_output hev hn hk hs
  · exact hc.agree_arguments hev hn hk hs
  · exact hc.agree_defect hn (.parameterList hk) hs
  · exact hc.agree_bracket hev hn hk hs
  · exact hc.agree_reference hn hk hs
  · exact .done ⟨hc.number hn hk, hs, hc.refl s.env⟩
  · exact .done ⟨hc.boolean hn hk, hs, hc.refl s.env⟩
  · refine .done ⟨hc.defect hn (.unclassified (.inl hk)), ?_, ?_⟩ <;> rw [State.env_note]
    · exact hs
    · exact hc.refl s.env
  · refine .done ⟨hc.defect hn (.unclassified (.inr ⟨name, hk⟩)), ?_, ?_⟩ <;> rw [State.env_note]
    · exact hs
    · exact hc.refl s.env

end Pseudocode.Contract
