import Pseudocode.Proofs.CallProtocol
import Pseudocode.Proofs.ParsedTrees

/-!
What running a program that was read from a text can lead to.

Such a program only computes numbers, truth values and `void`, and the errors that it meets are its
own: none of them is about the shape of a tree. The tree that was read satisfies the table of
properties and slots, but the bodies that run later come from the environment. So the table is part
of what holds of every environment (`Env.Ordinary`), together with the values of the variables.

Main results: the three conditions form a sound contract (`Contract.ordinary_sound`), and hence hold
at the end of every run, at every point on the way and in every call frame
(`run_of_parseProgram`).
-/

namespace Pseudocode

/-! ### Faults -/

/-- How the messages start that are about the shape of a tree. -/
def treeOpenings : List String :=
  ["ERROR! Malformed ", "ERROR! Unknown ", "ERROR! Parameter list"]

/-- The message is not about the shape of a tree. -/
def Fault.Ordinary (fault : Fault) : Prop :=
  ∀ opening ∈ treeOpenings, ¬ opening.toList <+: fault.message.toList

/-- How the other messages start, after the mark. -/
def ownOpenings : List String :=
  ["Subroutine", "Variable", "'", "Cannot ", "Maximum ", "Call to ", "Program ", "Non-boolean ",
    "Division ", "SUB", "ADD", "NOT", "NOP"]

/-- The text starts with the words. -/
def Opens (words text : String) : Prop := words.toList <+: text.toList

instance (words text : String) : Decidable (Opens words text) :=
  inferInstanceAs (Decidable (_ <+: _))

/-- More text behind does not change how a text starts. -/
theorem Opens.append {words text : String} (h : Opens words text) (more : String) :
    Opens words (text ++ more) := by
  rw [Opens, String.toList_append]
  exact h.trans (List.prefix_append _ _)

namespace Fault

/-- An error whose message starts in one of the other ways is not about the shape of a tree. -/
theorem ordinary_of_opens {fault : Fault} (words : String) (hwords : words ∈ ownOpenings)
    (hmessage : fault.message = mark ++ fault.description) (h : Opens words fault.description) :
    fault.Ordinary := by
  intro opening hmem hopening
  have hopens : (mark ++ words).toList <+: fault.message.toList := by
    rw [hmessage, String.toList_append, String.toList_append]
    exact List.prefix_append_right_inj _ |>.mpr h
  -- two words that start one text would have to start each other
  have hapart : ∀ opening ∈ treeOpenings, ∀ words ∈ ownOpenings,
      ¬ opening.toList <+: (mark ++ words).toList
        ∧ ¬ (mark ++ words).toList <+: opening.toList := by decide
  obtain ⟨hshort, hlong⟩ := hapart opening hmem words hwords
  rcases List.prefix_or_prefix_of_prefix hopening hopens with h | h
  · exact hshort h
  · exact hlong h

/-- The errors of running code are not about the shape of a tree, by the first words of each
message. -/
theorem AtRunTime.ordinary {fault : Fault} (h : fault.AtRunTime) : fault.Ordinary := by
  cases h
  case' wrongArity => refine ordinary_of_opens "Subroutine" (by decide) rfl ?_
  case' noSubroutine => refine ordinary_of_opens "Subroutine" (by decide) rfl ?_
  case' noVariable => refine ordinary_of_opens "Variable" (by decide) rfl ?_
  case' wrongKind => refine ordinary_of_opens "'" (by decide) rfl ?_
  case' constantReassigned => refine ordinary_of_opens "Cannot " (by decide) rfl ?_
  case' repeatedParameter => refine ordinary_of_opens "Subroutine" (by decide) rfl ?_
  case' depthExceeded => refine ordinary_of_opens "Maximum " (by decide) rfl ?_
  case' callTooDeep => refine ordinary_of_opens "Call to " (by decide) rfl ?_
  case' programTooDeep => refine ordinary_of_opens "Program " (by decide) rfl ?_
  case' conditionNotBoolean => refine ordinary_of_opens "Non-boolean " (by decide) rfl ?_
  -- each message is a row of texts of which the first one is fixed
  all_goals repeat apply Opens.append
  all_goals decide

theorem ordinary_wrongOperands (operation left right : String) :
    (wrongOperands operation left right).Ordinary := by
  refine ordinary_of_opens "Cannot " (by decide) rfl ?_
  repeat apply Opens.append
  decide

theorem ordinary_divisionByZero : divisionByZero.Ordinary :=
  ordinary_of_opens "Division " (by decide) rfl (by decide)

theorem ordinary_wrongOperand (op : UnaryOp) (expected actual : String) :
    (wrongOperand op.name expected actual).Ordinary := by
  refine ordinary_of_opens op.name (by cases op <;> decide) rfl ?_
  repeat apply Opens.append
  exact List.prefix_rfl

end Fault

/-! ### Values and environments -/

/-- The values that a variable can hold. -/
def Value.Plain (v : Value) : Prop := (∃ x, v = .num x) ∨ (∃ b, v = .bool b) ∨ v = .void

/-- The values of a running program: those of variables, and errors that are not about trees. -/
def Value.Ordinary (v : Value) : Prop := v.Plain ∨ ∃ fault, v = .error fault ∧ fault.Ordinary

/-- What a name can stand for: a variable with a plain value, or a subroutine with different,
non-empty parameter names and trees that are as the table asks. -/
def Binding.Ordinary : Binding → Prop
  | .variable v _ => v.Plain
  | .subroutine params body ret =>
    params.Nodup ∧ (∀ x ∈ params, x ≠ "") ∧ ∀ m, body = some m ∨ ret = some m → Conforms .code m

/-- Every binding is an ordinary one. -/
def Env.Ordinary (env : Env) : Prop := ∀ (x : String) (b : Binding), env[x]? = some b → b.Ordinary

namespace Value

theorem Ordinary.plain {v : Value} (h : v.Ordinary) (hv : v.isError = false) : v.Plain := by
  rcases h with h | ⟨fault, rfl, -⟩
  · exact h
  · cases hv

theorem ordinary_num (x : Float) : (num x).Ordinary := .inl (.inl ⟨x, rfl⟩)

theorem ordinary_bool (b : Bool) : (bool b).Ordinary := .inl (.inr (.inl ⟨b, rfl⟩))

theorem ordinary_void : void.Ordinary := .inl (.inr (.inr rfl))

theorem ordinary_error {fault : Fault} (h : fault.Ordinary) : (error fault).Ordinary :=
  .inr ⟨fault, rfl, h⟩

end Value

open Value

/-- An operator gives a number, a truth value or an ordinary error, whatever its operands are. -/
theorem BinaryOp.ordinary_apply (op : BinaryOp) (v w : Value) : (op.apply v w).Ordinary := by
  -- one case for each operator and kind of operands, the refusal of all others last
  unfold BinaryOp.apply
  split
  · exact ordinary_num _
  · exact ordinary_num _
  · exact ordinary_num _
  · split
    · exact ordinary_error Fault.ordinary_divisionByZero
    · exact ordinary_num _
  · exact ordinary_bool _
  · exact ordinary_bool _
  · exact ordinary_num _
  · exact ordinary_bool _
  · exact ordinary_error (Fault.ordinary_wrongOperands _ _ _)

theorem Relation.ordinary_apply (r : Relation) (v w : Value) : (r.apply v w).Ordinary := by
  unfold Relation.apply
  split
  · exact ordinary_bool _
  · exact ordinary_error (Fault.ordinary_wrongOperands _ _ _)

theorem UnaryOp.ordinary_apply (op : UnaryOp) (v : Value) : (op.apply v).Ordinary := by
  unfold UnaryOp.apply
  split
  · exact ordinary_num _
  · exact ordinary_num _
  · exact ordinary_bool _
  · exact ordinary_num _
  · exact ordinary_bool _
  · exact ordinary_error (Fault.ordinary_wrongOperand _ _ _)

/-- With errors of the operands passed on, the result of an operator is still ordinary. -/
theorem ordinary_binary (op : BinaryOp) {v w : Value} (hv : v.Ordinary) (hw : w.Ordinary) :
    (binary op.name v w).Ordinary := by
  rw [binary, BinaryOp.ofName?_name]
  split
  · exact hv
  split
  · exact hw
  · exact op.ordinary_apply v w

theorem ordinary_relate (r : Relation) {v w : Value} (hv : v.Ordinary) (hw : w.Ordinary) :
    (relate r.name v w).Ordinary := by
  rw [relate, Relation.ofName?_name]
  split
  · exact hv
  split
  · exact hw
  · exact r.ordinary_apply v w

theorem ordinary_unary (op : UnaryOp) {v : Value} (hv : v.Ordinary) :
    (unary op.name v).Ordinary := by
  rw [unary, UnaryOp.ofName?_name]
  split
  · exact hv
  · exact op.ordinary_apply v

namespace Env.Ordinary

theorem empty : (∅ : Env).Ordinary := by
  intro x b hb
  rw [Std.ExtTreeMap.getElem?_empty] at hb
  cases hb

theorem insert {env : Env} (h : env.Ordinary) {name : String} {b : Binding} (hb : b.Ordinary) :
    Env.Ordinary (env.insert name b) := by
  intro x b' hb'
  rw [Std.ExtTreeMap.getElem?_insert] at hb'
  split at hb'
  · cases hb'
    exact hb
  · exact h x b' hb'

/-- Leaving a call gives an ordinary environment, as each name is bound as in one of two such
environments. -/
theorem restore {caller left : Env} (hcaller : caller.Ordinary) (hleft : left.Ordinary)
    (params : List String) : (Env.restore caller left params).Ordinary := by
  intro x b hb
  rw [Env.getElem?_restore] at hb
  split at hb
  · exact hcaller x b hb
  · rcases Option.or_eq_some_iff.mp hb with hb | ⟨-, hb⟩
    · exact hleft x b hb
    · exact hcaller x b hb

end Env.Ordinary

/-! ### The contract -/

namespace Contract

/-- Trees that are as the table asks, and ordinary environments and values. -/
def ordinary : Contract where
  admits _ n := Conforms .code n
  keeps := Env.Ordinary
  yields := Value.Ordinary
  leads _ _ := True

/-- The contract of running code holds for all that a rule makes of values; the table of kinds says
which operator a node names. -/
theorem ordinary_values : ordinary.SoundValues where
  unit := ordinary_num 0
  void := ordinary_void
  read hkeeps hbind := .inl (hkeeps _ _ hbind)
  number {ctx n} hn hk := by
    have hmeaning := hn.fits.meaning
    rw [Node.Meaningful, hk] at hmeaning
    obtain ⟨x, hx⟩ := hmeaning
    rw [hx]
    exact ordinary_num x
  boolean {ctx n} hn hk := by
    have hproperty := hn.fits.property "significand" (by rw [hk]; decide)
    obtain ⟨p, hp⟩ := Option.isSome_iff_exists.mp hproperty
    rw [hp]
    exact ordinary_bool _
  relate {ctx n name v w} hn hk hname hv hw := by
    have hmeaning := hn.fits.meaning
    rw [Node.Meaningful, hk] at hmeaning
    obtain ⟨r, hr⟩ := hmeaning
    rw [hname] at hr
    cases hr
    exact ordinary_relate r hv hw
  binary {ctx n name v w} hn hk hname hv hw := by
    have hmeaning := hn.fits.meaning
    rw [Node.Meaningful, hk] at hmeaning
    obtain ⟨op, hop⟩ := hmeaning
    rw [hname] at hop
    cases hop
    exact ordinary_binary op hv hw
  unary {ctx n name v} hn hk hname hv := by
    have hmeaning := hn.fits.meaning
    rw [Node.Meaningful, hk] at hmeaning
    obtain ⟨op, hop⟩ := hmeaning
    rw [hname] at hop
    cases hop
    exact ordinary_unary op hv
  -- the only values that are strings are displays of argument lists, which are no code
  display {ctx n text} hn hk := by
    have hcode := hn.fits.kind
    rw [hk] at hcode
    cases hcode
  defect hn hdefect := absurd hdefect (hn.not_defect _)
  trouble hfault := ordinary_error hfault.ordinary

/-- It holds for all that a rule makes of environments, the frame of a call included. -/
theorem ordinary_changes : ordinary.SoundChanges where
  refl _ := trivial
  trans _ _ := trivial
  assign _ _ _ hkeeps hv herror _ := ⟨Env.Ordinary.insert hkeeps (hv.plain herror), trivial⟩
  define {ctx n params name env} hn hk _ hparams hnodup hkeeps _ := by
    -- the parameters that were read off the node are those that the table speaks of
    obtain ⟨params', hparams', hne⟩ := Conforms.parameterNames? (hn.child_of_kind hk .params rfl)
    rw [hparams] at hparams'
    cases hparams'
    refine ⟨Env.Ordinary.insert hkeeps ⟨hnodup, hne, ?_⟩, trivial⟩
    rintro m (hm | hm)
    · exact hn.child_of_kind hk .left rfl m hm
    · exact hn.child_of_kind hk .ret rfl m hm
  pass hkeeps hv herror := Env.Ordinary.insert hkeeps (hv.plain herror)
  restore hcaller hleft _ _ := ⟨Env.Ordinary.restore hcaller hleft _, trivial⟩

/-- So every evaluation of code keeps the contract. -/
theorem ordinary_sound : ordinary.Sound where
  toSoundValues := ordinary_values
  toSoundChanges := ordinary_changes
  descend hn _ := hn
  part hn hpart := hn.part hpart
  enter _ _ hkeeps _ hbind hm := (hkeeps _ _ hbind).2.2 _ hm

end Contract

/-! ### Programs -/

open Eval

/-- **Running what was read.** For every text that is accepted as a program, and for all settings:
if the run ends, its value and its environment are ordinary; so are the environment at every point
on the way and what the evaluation there leaves, and the environment of every call frame and what is
left when the frame has run. -/
theorem run_of_parseProgram {text : List Char} {statements : List Stmt}
    (h : parseProgram text = .ok statements) (settings : Settings) :
    (∀ v s, Interpreter.run settings (Stmt.program? statements) = .done v s →
      v.Ordinary ∧ s.env.Ordinary)
    ∧ ∀ root, Stmt.program? statements = some root →
      (∀ fuel q, Visits fuel ⟨settings.context 0, root, ⟨∅, []⟩⟩ q →
        q.state.env.Ordinary
          ∧ ∀ steps v s, eval steps q.ctx q.node q.state = .done v s →
            v.Ordinary ∧ s.env.Ordinary)
      ∧ ∀ fuel ctx name tree ret frame,
        Enters fuel ⟨settings.context 0, root, ⟨∅, []⟩⟩ ctx name tree ret frame →
        frame.env.Ordinary
          ∧ ∀ steps v left, runFrame (eval steps) ctx name tree ret frame = .done v left →
            v.Ordinary ∧ left.env.Ordinary := by
  have hc := Contract.ordinary_sound
  have hroot : ∀ root, Stmt.program? statements = some root → Conforms .code root :=
    fun root hroot => conforms_of_readAs (.program h hroot)
  -- the whole run, the nodes it visits and the frames it enters, each by the contract of code
  refine ⟨?_, fun root heq => ⟨?_, ?_⟩⟩
  · intro v s hrun
    rcases heq : Stmt.program? statements with - | root
    · rw [heq] at hrun
      cases hrun
      exact ⟨ordinary_void, .empty⟩
    · rw [heq] at hrun
      have hleaves := hc.evalGuarded (s := ⟨∅, []⟩) (hroot root heq) Env.Ordinary.empty hrun
      exact ⟨hleaves.yields, hleaves.keeps⟩
  · intro fuel q hq
    obtain ⟨hadmits, hkeeps⟩ := hc.visits hq (hroot root heq) Env.Ordinary.empty
    refine ⟨hkeeps, fun steps v s hrun => ?_⟩
    have hleaves := hc.eval hadmits hkeeps hrun
    exact ⟨hleaves.yields, hleaves.keeps⟩
  · intro fuel ctx name tree ret frame hframe
    obtain ⟨hkeeps, hends⟩ := hc.enters hframe (hroot root heq) Env.Ordinary.empty
    refine ⟨hkeeps, fun steps v left hrun => ?_⟩
    have hleaves := hends steps v left hrun
    exact ⟨hleaves.yields, hleaves.keeps⟩

/-- A program that defines a subroutine and calls it. -/
def callingTree : Node :=
  .sequence (.subroutine "f" [] none (some (.boolean "True"))) (.call "f" [])

/-- The state when the definition has been run. -/
def calledState : State :=
  ⟨(∅ : Env).insert "f" (.subroutine [] none (some (.boolean "True"))), []⟩

/-- The run of the example comes to the call behind the definition, in the environment with the
subroutine. -/
theorem visits_callingTree :
    Visits 8 ⟨⟨false, 50, 0, none⟩, callingTree, ⟨∅, []⟩⟩
      ⟨⟨false, 50, 0, none⟩, .call "f" [], calledState⟩ := by
  refine .inside ?_ .start
  -- without the answer to the call the block does not end
  generalize hev : withhold ⟨⟨false, 50, 0, none⟩, .call "f" [], calledState⟩ (eval 7) = ev
  have hfirst : ev ⟨false, 50, 0, none⟩ (.subroutine "f" [] none (some (.boolean "True"))) ⟨∅, []⟩
      = .done .unit calledState := by
    rw [← hev]
    exact if_neg fun h => by cases h
  have hsecond : ev ⟨false, 50, 0, none⟩ (.call "f" []) calledState = .unfinished := by
    rw [← hev]
    exact if_pos rfl
  have hsequence : sequence ev ⟨false, 50, 0, none⟩ callingTree ⟨∅, []⟩ = .unfinished := by
    have hkind : (Node.call "f" []).kind ≠ .sequence := by decide
    rw [sequence_of_parts rfl rfl rfl, hfirst]
    exact (sequence_of_kind_ne hkind).trans hsecond
  have hnode : node 7 ev ⟨false, 50, 0, none⟩ callingTree ⟨∅, []⟩ = .unfinished :=
    congrArg (Outcome.noted ⟨false, 50, 0, none⟩ .completed) hsequence
  rw [Asks, hev]
  intro heq
  cases hnode.symm.trans heq

theorem run_of_parseProgram_call :
    ∃ statements s,
      parseProgram "SUBROUTINE f() RETURN True ENDSUBROUTINE f()".toList = .ok statements
        ∧ Interpreter.run ⟨50, false, none, 8⟩ (Stmt.program? statements) = .done (.bool true) s
        ∧ s.env.Ordinary
        ∧ Enters 8 ⟨⟨false, 50, 0, none⟩, callingTree, ⟨∅, []⟩⟩ ⟨false, 50, 0, none⟩ "f" none
          (some (.boolean "True")) calledState
        ∧ calledState.env.Ordinary := by
  have hparse : parseProgram "SUBROUTINE f() RETURN True ENDSUBROUTINE f()".toList
      = .ok [.subroutine "f" [] none (some (.boolean true)), .call "f" []] := rfl
  obtain ⟨s, hrun⟩ : ∃ s, Interpreter.run ⟨50, false, none, 8⟩
      (Stmt.program? [.subroutine "f" [] none (some (.boolean true)), .call "f" []])
        = .done (.bool true) s := ⟨_, rfl⟩
  -- the subroutine has no parameters, so the frame is the environment of the caller
  have hpassing : Passing (eval 0) ⟨false, 50, 0, none⟩ calledState.env [] [] (.values []) [] :=
    .nil
  have henters : Enters 8 ⟨⟨false, 50, 0, none⟩, callingTree, ⟨∅, []⟩⟩ ⟨false, 50, 0, none⟩ "f"
      none (some (.boolean "True")) calledState :=
    .call visits_callingTree rfl rfl (by decide) rfl rfl rfl rfl hpassing
  obtain ⟨hend, hway⟩ := run_of_parseProgram hparse ⟨50, false, none, 8⟩
  exact ⟨_, s, hparse, hrun, (hend _ _ hrun).2, henters,
    ((hway callingTree rfl).2 _ _ _ _ _ _ henters).1⟩

end Pseudocode
