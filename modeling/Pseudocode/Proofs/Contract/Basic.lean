import Pseudocode.Proofs.Tree

/-!
Contracts of the evaluator.

A contract says which nodes may be evaluated, what every environment satisfies, which values arise,
and how the environment at the end is related to the one at the start. `Sound` collects what has to
be checked of a contract, one field for each thing that a rule can do: read or bind a name, enter a
subroutine, leave it, compute a value, report a fault.

Design. The rules take the evaluator of the parts as an argument, so a contract is checked for a
pair of evaluators that agree wherever the contract admits a node (`Binds`). With the same evaluator
twice this is the usual invariant. With an evaluator from which one answer is withheld it says that
the rules never ask for a node that the contract does not admit.

`Agree` is the relation between the two outcomes; this module shows how it passes through the ways
in which outcomes are put together.
-/

namespace Pseudocode

/-- The faults that depend on the state of the run and not on the node alone. -/
inductive Fault.AtRunTime : Fault → Prop
  | wrongArity (name : String) (expected received : Int) :
      AtRunTime (.wrongArity name expected received)
  | noSubroutine (name : String) : AtRunTime (.unresolved "Subroutine" name)
  | noVariable (name : String) : AtRunTime (.unresolved "Variable" name)
  | wrongKind (name expected actual : String) : AtRunTime (.wrongKind name expected actual)
  | constantReassigned (name : String) : AtRunTime (.constantReassigned name)
  | repeatedParameter (name : String) : AtRunTime (.repeatedParameter name)
  | depthExceeded (limit : Int) (name : String) : AtRunTime (.depthExceeded limit name)
  | callTooDeep (name : String) (depth : Int) : AtRunTime (.callTooDeep name depth)
  | programTooDeep : AtRunTime .programTooDeep
  | conditionNotBoolean (statement actual : String) :
      AtRunTime (.conditionNotBoolean statement actual)

/-- A contract between the evaluator and what it works on. -/
structure Contract where
  /-- The nodes that may be evaluated, and where. -/
  admits : Context → Node → Prop
  /-- What every environment satisfies. -/
  keeps : Env → Prop
  /-- The values that arise. -/
  yields : Value → Prop
  /-- How an evaluation may change the environment. -/
  leads : Env → Env → Prop

namespace Contract

/-! ### Sound contracts -/

/-- The values that the rules compute are among those of the contract. -/
structure SoundValues (c : Contract) : Prop where
  unit : c.yields .unit
  void : c.yields .void
  read : ∀ {env : Env} {name : String} {v constant}, c.keeps env →
    env[name]? = some (.variable v constant) → c.yields v
  number : ∀ {ctx n}, c.admits ctx n → n.kind = .number →
    c.yields (Literal.number (n.text? "significand"))
  boolean : ∀ {ctx n}, c.admits ctx n → n.kind = .boolean →
    c.yields (Literal.boolean (n.property? "significand"))
  relate : ∀ {ctx n name v w}, c.admits ctx n → n.kind = .relation →
    n.text? "relation" = some name → c.yields v → c.yields w → c.yields (relate name v w)
  binary : ∀ {ctx n name v w}, c.admits ctx n → n.kind = .binary →
    n.text? "operation" = some name → c.yields v → c.yields w → c.yields (binary name v w)
  unary : ∀ {ctx n name v}, c.admits ctx n → n.kind = .unary →
    n.text? "operation" = some name → c.yields v → c.yields (unary name v)
  display : ∀ {ctx n text}, c.admits ctx n → n.kind = .arguments → c.yields (.string text)
  defect : ∀ {ctx n fault}, c.admits ctx n → Defect n fault → c.yields (.error fault)
  trouble : ∀ {fault : Fault}, fault.AtRunTime → c.yields (.error fault)

/-- A contract that allows every value allows those that the rules compute. -/
theorem soundValues_of_forall {c : Contract} (h : ∀ v, c.yields v) : c.SoundValues where
  unit := h _
  void := h _
  read _ _ := h _
  number _ _ := h _
  boolean _ _ := h _
  relate _ _ _ _ _ := h _
  binary _ _ _ _ _ := h _
  unary _ _ _ _ := h _
  display _ _ := h _
  defect _ _ := h _
  trouble _ := h _

/-- The changes that the rules make to an environment are among those of the contract. -/
structure SoundChanges (c : Contract) : Prop where
  refl : ∀ env, c.leads env env
  trans : ∀ {env₁ env₂ env₃}, c.leads env₁ env₂ → c.leads env₂ env₃ → c.leads env₁ env₃
  assign : ∀ {ctx n v constant} {name : String} {env : Env}, c.admits ctx n → n.kind = .assignment →
    n.text? "name" = some name → c.keeps env → c.yields v → v.isError = false →
    (∀ b, env[name]? = some b → b.isSubroutine = false ∧ b.isConstant = false) →
    c.keeps (env.insert name (.variable v constant))
      ∧ c.leads env (env.insert name (.variable v constant))
  define : ∀ {ctx n params} {name : String} {env : Env}, c.admits ctx n → n.kind = .subroutine →
    n.text? "name" = some name → Node.parameterNames? (n.child? .params) = some params →
    params.Nodup → c.keeps env → (∀ b, env[name]? = some b → b.isConstant = false) →
    c.keeps (env.insert name (.subroutine params (n.child? .left) (n.child? .ret)))
      ∧ c.leads env (env.insert name (.subroutine params (n.child? .left) (n.child? .ret)))
  pass : ∀ {env : Env} {param : String} {v}, c.keeps env → c.yields v → v.isError = false →
    c.keeps (env.insert param (.variable v false))
  restore : ∀ {caller frame left : Env} {params : List String}, c.keeps caller → c.keeps left →
    (∀ x, x ∉ params → frame[x]? = caller[x]?) → c.leads frame left →
    c.keeps (Env.restore caller left params) ∧ c.leads caller (Env.restore caller left params)

/-- A contract that the rules respect, provided that the evaluation of the parts does. -/
structure Sound (c : Contract) : Prop extends c.SoundValues, c.SoundChanges where
  descend : ∀ {ctx inner n}, c.admits ctx n → ctx.descend? = some inner → c.admits inner n
  part : ∀ {ctx n m}, c.admits ctx n → Part n m → c.admits ctx m
  enter : ∀ {ctx n m params tree ret} {f : String} {env : Env}, c.admits ctx n → n.kind = .call →
    c.keeps env → ctx.depth < ctx.limit → env[f]? = some (.subroutine params tree ret) →
    tree = some m ∨ ret = some m → c.admits ctx.inCall m

/-- What an evaluation that starts in an environment may leave. -/
structure Leaves (c : Contract) (start : Env) (v : Value) (env : Env) : Prop where
  yields : c.yields v
  keeps : c.keeps env
  leads : c.leads start env

/-- Two outcomes are the same, and what they leave is according to the contract. -/
structure Agree (c : Contract) (start : Env) (o o' : Outcome) : Prop where
  same : o = o'
  leaves : ∀ {v s}, o = .done v s → c.Leaves start v s.env

/-- Two evaluators agree, according to the contract, wherever it admits an evaluation. -/
def Binds (c : Contract) (ev ev' : Evaluator) : Prop :=
  ∀ {ctx n s}, c.admits ctx n → c.keeps s.env → c.Agree s.env (ev ctx n s) (ev' ctx n s)

variable {c : Contract} {start : Env} {o o' : Outcome}

/-! ### Outcomes -/

/-- One outcome agrees with itself if it is as the contract says. -/
theorem Agree.done {v : Value} {s : State} (h : c.Leaves start v s.env) :
    c.Agree start (.done v s) (.done v s) := by
  refine ⟨rfl, ?_⟩
  rintro v' s' heq
  cases heq
  exact h

/-- Outcomes that agree go on alike. -/
theorem Agree.andThen {f f' : Value → State → Outcome} (h : c.Agree start o o')
    (hf : ∀ v s, v.isError = false → c.Leaves start v s.env →
      c.Agree start (f v s) (f' v s)) :
    c.Agree start (o.andThen f) (o'.andThen f') := by
  obtain ⟨rfl, hleaves⟩ := h
  rcases o with ⟨v, s⟩ | log | -
  · rcases hv : v.isError with - | -
    · rw [Outcome.andThen_done_of_not_isError hv, Outcome.andThen_done_of_not_isError hv]
      exact hf v s hv (hleaves rfl)
    · obtain ⟨fault, rfl⟩ := Value.isError_iff.mp hv
      exact .done (hleaves rfl)
  · exact ⟨rfl, nofun⟩
  · exact ⟨rfl, nofun⟩

/-- The environment at the start may be exchanged for an earlier one. -/
theorem Agree.from (hc : c.Sound) {mid : Env} (hmid : c.leads start mid)
    (h : c.Agree mid o o') : c.Agree start o o' := by
  refine ⟨h.same, fun heq => ?_⟩
  have hl := h.leaves heq
  exact ⟨hl.yields, hl.keeps, hc.trans hmid hl.leads⟩

/-- Dropping the effects on the environment is allowed, as the start was good. -/
theorem Agree.inEnv (hc : c.Sound) (hkeeps : c.keeps start) (h : c.Agree start o o') :
    c.Agree start (o.inEnv start) (o'.inEnv start) := by
  obtain ⟨rfl, hleaves⟩ := h
  rcases o with ⟨v, s⟩ | log | -
  · exact .done ⟨(hleaves rfl).yields, hkeeps, hc.refl start⟩
  · exact ⟨rfl, nofun⟩
  · exact ⟨rfl, nofun⟩

/-- An event changes no environment. -/
theorem Agree.noted {ctx : Context} {e : Value → Event} (h : c.Agree start o o') :
    c.Agree start (o.noted ctx e) (o'.noted ctx e) := by
  obtain ⟨rfl, hleaves⟩ := h
  rcases o with ⟨v, s⟩ | log | -
  · refine .done ?_
    rw [State.env_note]
    exact hleaves rfl
  · exact ⟨rfl, nofun⟩
  · exact ⟨rfl, nofun⟩

/-- The error about an exhausted stack is one that every contract allows. -/
theorem Agree.caught (hc : c.Sound) {fault : Fault} (hfault : fault.AtRunTime)
    (hkeeps : c.keeps start) (h : c.Agree start o o') :
    c.Agree start (o.caught fault start) (o'.caught fault start) := by
  obtain ⟨rfl, hleaves⟩ := h
  rcases o with ⟨v, s⟩ | log | -
  · exact .done (hleaves rfl)
  · exact .done ⟨hc.trouble hfault, hkeeps, hc.refl start⟩
  · exact ⟨rfl, nofun⟩

end Contract

end Pseudocode
