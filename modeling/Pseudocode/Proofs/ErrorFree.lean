import Pseudocode.Proofs.DepthLimit

/-!
Errors are neither stored nor put out.

An error is a value, and the only thing that keeps it out of the environment and out of the output
is that every rule looks at a value before it uses it. So if no variable holds an error at the start,
none does at the end, and an error is only ever the value of an evaluation.

Such an error arises in the evaluation itself. Errors that come from outside can have any text, but
they would have to be read from a variable. So the message starts with the mark.

Main result: `errors_contained`.
-/

namespace Pseudocode

open Eval

/-! ### Messages -/

/-- The message of the error starts with the mark. -/
def Fault.Marked (fault : Fault) : Prop := ∃ text, fault.message = "ERROR! " ++ text

/-- The value is not an error from outside. -/
def Value.IsOwn (v : Value) : Prop := ∀ message, v ≠ .error (.given message)

/-- The message of an error that is a value starts with the mark of an error. -/
theorem Fault.marked_of_isOwn {fault : Fault} (h : (Value.error fault).IsOwn) : fault.Marked := by
  cases fault with
  | given message => exact absurd rfl (h message)
  | _ => exact ⟨_, rfl⟩

namespace Value

theorem isOwn_of_not_isError {v : Value} (h : v.isError = false) : v.IsOwn := by
  rintro message rfl
  cases h

/-- Comparing two values makes no unmarked error. -/
theorem isOwn_relate (name : String) {v w : Value} (hv : v.IsOwn) (hw : w.IsOwn) :
    (relate name v w).IsOwn := by
  unfold relate
  split
  · exact hv
  split
  · exact hw
  split
  · unfold Relation.apply
    split <;> nofun
  · nofun

/-- Nor does combining them. -/
theorem isOwn_binary (name : String) {v w : Value} (hv : v.IsOwn) (hw : w.IsOwn) :
    (binary name v w).IsOwn := by
  unfold binary
  split
  · exact hv
  split
  · exact hw
  split
  · unfold BinaryOp.apply
    split
    case h_4 => split <;> nofun
    all_goals nofun
  · nofun

theorem isOwn_unary (name : String) {v : Value} (hv : v.IsOwn) : (unary name v).IsOwn := by
  unfold unary
  split
  · exact hv
  split
  · unfold UnaryOp.apply
    split <;> nofun
  · nofun

end Value

/-- Reading a number makes no unmarked error either, written badly as it may be. -/
theorem Literal.isOwn_number (significand : Option String) : (Literal.number significand).IsOwn := by
  unfold Literal.number
  split
  · nofun
  split
  · nofun
  split <;> nofun

theorem Literal.isOwn_boolean (p : Option Property) : (Literal.boolean p).IsOwn := by
  unfold Literal.boolean
  split <;> nofun

/-- The errors about malformed nodes are marked. -/
theorem Defect.isOwn {n : Node} {fault : Fault} (h : Defect n fault) :
    (Value.error fault).IsOwn := by
  cases h <;> nofun

theorem Fault.AtRunTime.isOwn {fault : Fault} (h : fault.AtRunTime) :
    (Value.error fault).IsOwn := by
  cases h <;> nofun

/-! ### Environments -/

/-- No variable holds an error. -/
def Env.ErrorFree (env : Env) : Prop :=
  ∀ (x : String) (v : Value) (constant : Bool),
    env[x]? = some (.variable v constant) → v.isError = false

namespace Env.ErrorFree

theorem empty : ErrorFree ∅ := by
  intro x v constant hx
  cases hx

variable {env : Env}

theorem insert_variable (h : env.ErrorFree) (name : String) {v : Value} (hv : v.isError = false)
    (constant : Bool) : ErrorFree (env.insert name (.variable v constant)) := by
  intro x w constant' hx
  rw [Std.ExtTreeMap.getElem?_insert] at hx
  split at hx
  · cases hx
    exact hv
  · exact h x w constant' hx

theorem insert_subroutine (h : env.ErrorFree) (name : String) (params : List String)
    (tree ret : Option Node) : ErrorFree (env.insert name (.subroutine params tree ret)) := by
  intro x w constant hx
  rw [Std.ExtTreeMap.getElem?_insert] at hx
  split at hx
  · cases hx
  · exact h x w constant hx

theorem restore {left : Env} (h : env.ErrorFree) (hleft : left.ErrorFree) (params : List String) :
    ErrorFree (Env.restore env left params) := by
  intro x v constant hx
  rw [Env.getElem?_restore] at hx
  split at hx
  · exact h x v constant hx
  · rcases Option.or_eq_some_iff.mp hx with hx | ⟨-, hx⟩
    · exact hleft x v constant hx
    · exact h x v constant hx

end Env.ErrorFree

namespace Contract

/-- No errors in the environment, and none from outside as a value. -/
def errorFree : Contract where
  admits _ _ := True
  keeps := Env.ErrorFree
  yields := Value.IsOwn
  leads _ _ := True

theorem errorFree_sound : errorFree.Sound where
  -- only the rules that store or combine values have something to show
  unit := nofun
  void := nofun
  read hkeeps hx := Value.isOwn_of_not_isError (hkeeps _ _ _ hx)
  number _ _ := Literal.isOwn_number _
  boolean _ _ := Literal.isOwn_boolean _
  relate _ _ _ hv hw := Value.isOwn_relate _ hv hw
  binary _ _ _ hv hw := Value.isOwn_binary _ hv hw
  unary _ _ _ hv := Value.isOwn_unary _ hv
  display _ _ := nofun
  defect _ hd := hd.isOwn
  trouble hfault := hfault.isOwn
  refl _ := trivial
  trans _ _ := trivial
  assign _ _ _ hkeeps _ hv _ := ⟨Env.ErrorFree.insert_variable hkeeps _ hv _, trivial⟩
  define _ _ _ _ _ hkeeps _ := ⟨Env.ErrorFree.insert_subroutine hkeeps _ _ _ _, trivial⟩
  pass hkeeps _ hv := Env.ErrorFree.insert_variable hkeeps _ hv _
  restore hcaller hleft _ _ := ⟨Env.ErrorFree.restore hcaller hleft _, trivial⟩
  descend _ _ := trivial
  part _ _ := trivial
  enter _ _ _ _ _ _ := trivial

end Contract

/-! ### What is put out -/

variable {fuel : Nat} {p : Point}

theorem Eval.Point.emitted_notMem_completion (p : Point) (w : Value) (o : Outcome) :
    .emitted w ∉ p.completion o := by
  rcases o with ⟨v, s⟩ | log | - <;> simp [completion]

/-- Whatever is put out, and wherever in an evaluation, is no error. -/
theorem not_isError_of_emitted {w : Value} (h : .emitted w ∈ moments fuel p) :
    w.isError = false := by
  induction fuel generalizing p with
  | zero => cases h
  | succ fuel ih =>
    rcases hroom : p.ctx.descend? with - | inner
    · rw [moments_of_no_room hroom] at h
      cases h
    rw [moments_of_descend hroom] at h
    obtain h | h := List.mem_cons.mp h
    · cases h
    -- an output comes from an act of the node, or of a part further in
    obtain h | h := List.mem_append.mp h
    · obtain ⟨a, ha, h⟩ := List.mem_flatMap.mp h
      rcases a with ⟨q, exit⟩ | v | -
      · exact ih h
      · cases List.mem_singleton.mp h
        cases does_of_mem_acts ha with
        | emission hv => exact hv
      · cases h
    · exact absurd h (p.emitted_notMem_completion w _)

/-- What is put out is one of the moments of the run. -/
theorem emitted_mem_of_recorded {tracing : Bool} {ms : List Moment} {w : Value}
    (h : w ∈ (recorded tracing ms).filterMap Event.emission?) : .emitted w ∈ ms := by
  obtain ⟨e, he, hw⟩ := List.mem_filterMap.mp h
  obtain ⟨m, hm, rfl⟩ := List.mem_map.mp (List.mem_filter.mp he).1
  rcases m with q | ⟨q, v, env⟩ | v
  · cases hw
  · cases hw
  · cases hw
    exact hm

/-- An evaluation that ends or exhausts the stack has put out values that are no errors, behind what
was put out before it. -/
theorem emissions_of_answer {log : List Event} (h : (p.answer (eval fuel)).log? = some log) :
    ∃ out, emissions log = emissions p.state.log ++ out ∧ ∀ w ∈ out, w.isError = false := by
  refine ⟨(recorded p.ctx.tracing (moments fuel p)).filterMap Event.emission?, ?_, fun w hw => ?_⟩
  · rw [← emissions_landmarks log, landmarks_of_eval fuel p log h,
      ← emissions_landmarks p.state.log]
    simp [emissions]
  · exact not_isError_of_emitted (emitted_mem_of_recorded hw)

/-! ### Evaluations -/

/-- An evaluation from the first state leaves no errors but its value, and that one is marked. -/
structure Eval.Clean (s : State) (v : Value) (s' : State) : Prop where
  env : s'.env.ErrorFree
  outputs : ∃ out, emissions s'.log = emissions s.log ++ out ∧ ∀ w ∈ out, w.isError = false
  message : ∀ fault, v = .error fault → fault.Marked

/-- The contract and the outputs together are what a clean end is. -/
theorem Contract.Leaves.clean {s s' : State} {v : Value}
    (h : Contract.errorFree.Leaves s.env v s'.env)
    (hout : ∃ out, emissions s'.log = emissions s.log ++ out ∧ ∀ w ∈ out, w.isError = false) :
    Clean s v s' := by
  refine ⟨h.keeps, hout, ?_⟩
  rintro fault rfl
  exact Fault.marked_of_isOwn h.yields

/-- **Errors are contained.** If no variable holds an error at the start, as in the empty
environment, then whatever is evaluated, and however the evaluation ends, no variable holds an error
at the end, no error has been put out, and if the value is an error, its message starts with the
mark. -/
theorem errors_contained {s : State} (hs : s.env.ErrorFree) {ctx : Context} {n : Node}
    {v : Value} {s' : State}
    (h : eval fuel ctx n s = .done v s' ∨ evalGuarded fuel ctx n s = .done v s') :
    Clean s v s' := by
  have hc := Contract.errorFree_sound
  have hlog : ((⟨ctx, n, s⟩ : Point).answer (eval fuel)).log? = some s'.log := by
    obtain h | h := h
    · exact congrArg Outcome.log? h
    · rw [← Outcome.log?_caught _ .programTooDeep s.env]
      exact congrArg Outcome.log? h
  obtain h | h := h
  · exact (hc.eval trivial hs h).clean (emissions_of_answer hlog)
  · exact (hc.evalGuarded trivial hs h).clean (emissions_of_answer hlog)

/-- A subroutine that puts out its argument, assigns it to `y` and returns a variable that does not
exist. -/
def emittingEnv : Env :=
  (∅ : Env).insert "f" (.subroutine ["x"]
    (some (.sequence (.output (.reference "x")) (.assignment "y" false (.reference "x"))))
    (some (.reference "z")))

/-- The value is put out and stored, the error is not. -/
theorem errors_contained_failing :
    emittingEnv.ErrorFree
      ∧ ∃ s', eval 8 ⟨false, 50, 0, none⟩ (.output (.call "f" [.boolean "True"])) ⟨emittingEnv, []⟩
          = .done (.error (.unresolved "Variable" "z")) s'
        ∧ emissions s'.log = [.bool true]
        ∧ s'.env["y"]? = some (.variable (.bool true) false)
        ∧ Clean ⟨emittingEnv, []⟩ (.error (.unresolved "Variable" "z")) s' := by
  have hs : emittingEnv.ErrorFree := Env.ErrorFree.empty.insert_subroutine _ _ _ _
  -- the first statement stores and puts out, and the second one fails
  obtain ⟨s', hrun, hout, hy⟩ : ∃ s', eval 8 ⟨false, 50, 0, none⟩
      (.output (.call "f" [.boolean "True"])) ⟨emittingEnv, []⟩
        = .done (.error (.unresolved "Variable" "z")) s'
      ∧ emissions s'.log = [.bool true]
      ∧ s'.env["y"]? = some (.variable (.bool true) false) := ⟨_, rfl, rfl, rfl⟩
  exact ⟨hs, s', hrun, hout, hy, errors_contained (s := ⟨emittingEnv, []⟩) hs (.inl hrun)⟩

end Pseudocode
