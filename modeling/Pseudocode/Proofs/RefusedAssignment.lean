import Pseudocode.Proofs.Blocks
import Pseudocode.Proofs.Evolution
import Pseudocode.Proofs.WriteSet

/-!
Assignments that are refused.

An assignment to a constant or to a subroutine is refused, but only when its right-hand side has
been evaluated, and there is no way back from what that has done. So a refused assignment adds
nothing to the effects of its right-hand side, and takes none of them away. Whether the environment
is as it was before depends on the right-hand side: if it binds no name and calls nothing, nothing
is changed.

Design. The error of the assignment may also come out of the right-hand side, which may itself run
into an assignment to the same name. Both cases are told by the message, as a host does, and they
leave the same environment.

Main results: `refused_assignment_is_no_rollback` shows that the effects stay, and
`refused_assignment` says which environment is left.
-/

namespace Pseudocode

open Eval

/-! ### Trees that leave the environment as it is -/

namespace Node

/-- No node of the tree binds a name, and none calls a subroutine, which might bind one. -/
def Inert (n : Node) : Prop :=
  ∀ m ∈ n.nodes, m.kind ≠ .assignment ∧ m.kind ≠ .subroutine ∧ m.kind ≠ .call

instance (n : Node) : Decidable n.Inert :=
  inferInstanceAs (Decidable (∀ m ∈ n.nodes, m.kind ≠ .assignment ∧ m.kind ≠ .subroutine
    ∧ m.kind ≠ .call))

theorem hereditary_inert : Hereditary Inert := by
  intro n c slot hn h m hm
  exact hn m (nodes_subset_of_child? h hm)

end Node

namespace Contract

/-- Trees that neither bind names nor call anything; the environment stays as it is. -/
def inert : Contract where
  admits _ n := n.Inert
  keeps _ := True
  yields _ := True
  leads env env' := env' = env

/-- An inert tree keeps the contract that the environment stays as it is. -/
theorem inert_sound : inert.Sound where
  toSoundValues := soundValues_of_forall fun _ => trivial
  refl _ := rfl
  trans h₁ h₂ := Eq.trans h₂ h₁
  assign hn hk _ _ _ _ _ := absurd hk (hn _ (Node.self_mem_nodes _)).1
  define hn hk _ _ _ _ _ := absurd hk (hn _ (Node.self_mem_nodes _)).2.1
  pass _ _ _ := trivial
  -- the frame of a call would be left for the environment of the caller, which is no change
  restore {caller frame left params} _ _ hout hleads := by
    refine ⟨trivial, ?_⟩
    apply Std.ExtTreeMap.ext_getElem?
    intro x
    exact Env.getElem?_restore_of_kept hout (by rw [hleads])
  descend hn _ := hn
  part hn hpart := Node.hereditary_inert.below hn hpart.below
  enter hn hk _ _ _ _ := absurd hk (hn _ (Node.self_mem_nodes _)).2.2

end Contract

/-- An evaluation that neither binds a name nor calls anything leaves the environment as it is. -/
theorem env_of_inert {n : Node} (hn : n.Inert) {fuel : Nat} {ctx : Context} {s s' : State}
    {v : Value} (h : eval fuel ctx n s = .done v s') : s'.env = s.env :=
  (Contract.inert_sound.eval hn trivial h).leads

/-- If neither the tree nor the trees in store bind a name, no binding is changed. -/
theorem env_of_no_targets {n : Node} (hn : n.targets = []) {s : State}
    (hs : s.env.Stores fun m => m.targets = []) {fuel : Nat} {ctx : Context} {s' : State}
    {v : Value} (h : eval fuel ctx n s = .done v s') : s'.env = s.env := by
  apply Std.ExtTreeMap.ext_getElem?
  intro z
  have hcode : z ∉ n.targets := by simp [hn]
  have hstore : s.env.Stores fun m => z ∉ m.targets := by
    intro x params tree ret m hx hm
    simp [hs x params tree ret m hx hm]
  exact ((Contract.unwritten_sound z).eval hcode hstore h).leads

/-! ### The rule of an assignment -/

section
variable {n rhs : Node} {name : String} {constant : Property}

/-- An assignment has its right-hand side evaluated and stores the value. -/
theorem Plan.ofNode_assignment (hk : n.kind = .assignment) (hname : n.text? "name" = some name)
    (hconstant : n.property? "constant" = some constant)
    (hrhs : n.child? .argument = some rhs) (rounds : Nat) :
    ofNode rounds n = .ask .kept rhs (store name constant.isSet) := by
  rw [ofNode, hk]
  show assignment n = _
  rw [assignment, hname, hconstant, hrhs]

/-- Where a value is not stored, nothing is changed. -/
theorem Plan.state_of_store_error {ev : Evaluator} {ctx : Context} {b : Bool} {v : Value}
    {s t : State} {f : Fault} (h : (store name b v).run ev ctx s = .done (.error f) t) :
    t = s := by
  rw [store, run_look] at h
  rcases hb : s.env[name]? with - | (⟨w, - | -⟩ | ⟨params, tree, ret⟩) <;> rw [hb] at h
  · cases h
  · cases h
  · cases h
    rfl
  · cases h
    rfl

/-- An assignment that ends with an error leaves what its right-hand side has left. -/
theorem exists_eval_of_assignment_error (hk : n.kind = .assignment)
    (hname : n.text? "name" = some name) (hconstant : n.property? "constant" = some constant)
    (hrhs : n.child? .argument = some rhs) {fuel : Nat} {ctx : Context} {s s' : State} {f : Fault}
    (h : eval fuel ctx n s = .done (.error f) s') :
    ∃ inner steps v t, ctx.descend? = some inner ∧ eval steps inner rhs ⟨s.env, []⟩ = .done v t
      ∧ (v.isError = true → v = .error f) ∧ s'.env = t.env := by
  rcases fuel with - | steps
  · cases h
  rcases hroom : ctx.descend? with - | inner
  · rw [eval_of_no_room hroom] at h
    cases h
  rw [eval_of_descend hroom, Plan.ofNode_assignment hk hname hconstant hrhs,
    Outcome.noted_eq_done_iff] at h
  obtain ⟨u, hrun, rfl⟩ := h
  have honto : s.note ctx (.started n.kind)
      = State.onto (s.note ctx (.started n.kind)).log ⟨s.env, []⟩ := by
    rw [State.onto, List.nil_append, ← State.env_note s ctx (.started n.kind)]
  rw [Plan.run_ask_kept, honto, eval_onto, Outcome.andThen_eq_done_iff] at hrun
  obtain ⟨hpart, -⟩ | ⟨v, w, hpart, hv, hstore⟩ := hrun
  · -- the error comes out of the right-hand side
    obtain ⟨t, ht, rfl⟩ := Outcome.onto_eq_done_iff.mp hpart
    exact ⟨inner, steps, .error f, t, rfl, ht, fun _ => rfl, State.env_note ..⟩
  · obtain ⟨t, ht, rfl⟩ := Outcome.onto_eq_done_iff.mp hpart
    obtain rfl := Plan.state_of_store_error hstore
    refine ⟨inner, steps, v, t, rfl, ht, ?_, State.env_note ..⟩
    intro herror
    rw [hv] at herror
    cases herror

end

/-! ### Refusals -/

/-- The error says that the name cannot be assigned to. -/
def Fault.Refuses (f : Fault) (name : String) : Prop :=
  f.message = (constantReassigned name).message
    ∨ f.message = (wrongKind name "variable" "subroutine").message

theorem Fault.not_refuses_programTooDeep (name : String) : ¬ programTooDeep.Refuses name := by
  -- behind the mark the messages begin with different letters
  have hletter : ∀ text, programTooDeep.message = mark ++ text → some 'P' = text.toList.head? := by
    intro text h
    have hrest : mark ++ programTooDeep.description = mark ++ text := h
    rw [String.append_right_inj] at hrest
    exact congrArg (fun t => t.toList.head?) hrest
  rintro (h | h)
  · have hc := hletter ("Cannot reassign constant " ++ inQuotes name ++ ".") h
    simp only [String.toList_append, List.append_assoc] at hc
    cases hc
  · have hc := hletter
      (inQuotes name ++ " is a " ++ "subroutine" ++ ", not a " ++ "variable" ++ ".") h
    simp only [inQuotes, String.toList_append, List.append_assoc] at hc
    cases hc

/-- For a host, too, a refusal is the end of the evaluation itself. -/
theorem Fault.Refuses.eval {f : Fault} {name : String} (hf : f.Refuses name) {fuel : Nat}
    {ctx : Context} {n : Node} {s s' : State}
    (h : eval fuel ctx n s = .done (.error f) s' ∨ evalGuarded fuel ctx n s = .done (.error f) s') :
    Pseudocode.eval fuel ctx n s = .done (.error f) s' := by
  obtain h | h := h
  · exact h
  · rw [evalGuarded] at h
    rcases ho : Pseudocode.eval fuel ctx n s with ⟨v, t⟩ | log | - <;> rw [ho] at h
    · exact h
    · cases h
      exact absurd hf (not_refuses_programTooDeep name)
    · cases h

/-- A subroutine `f` that binds `y`, and a constant `x`. -/
def bindingEnv : Env :=
  (∅ : Env).insert "f" (.subroutine [] (some (.assignment "y" false (.boolean "True"))) none)
    |>.insert "x" (.variable (.bool true) true)

/-- **A refused assignment takes nothing back.** It is not true that every assignment to a constant
or to a subroutine that is refused leaves the environment as it was: the right-hand side may call a
subroutine that binds another name. -/
theorem refused_assignment_is_no_rollback :
    ¬ ∀ (n rhs : Node) (name : String) (constant : Property), n.kind = .assignment →
      n.text? "name" = some name → n.property? "constant" = some constant →
      n.child? .argument = some rhs →
      ∀ (s : State) (b : Binding), s.env[name]? = some b →
        b.isConstant = true ∨ b.isSubroutine = true →
        ∀ (fuel : Nat) (ctx : Context) (f : Fault) (s' : State), f.Refuses name →
          eval fuel ctx n s = .done (.error f) s' → s'.env = s.env := by
  intro h
  -- the subroutine binds another name before the constant is found to be one
  obtain ⟨s', hrun, hy⟩ : ∃ s', eval 8 ⟨false, 50, 0, none⟩ (.assignment "x" false (.call "f" []))
      ⟨bindingEnv, []⟩ = .done (.error (.constantReassigned "x")) s'
        ∧ s'.env["y"]? = some (.variable (.bool true) false) := ⟨_, rfl, rfl⟩
  have hsame := h (.assignment "x" false (.call "f" [])) (.call "f" []) "x" (.flag false) rfl rfl
    rfl
    rfl ⟨bindingEnv, []⟩ (.variable (.bool true) true) rfl (.inl rfl) 8 ⟨false, 50, 0, none⟩
    (.constantReassigned "x") s' (.inl rfl) hrun
  have hunbound : bindingEnv["y"]? = none := rfl
  rw [hsame, hunbound] at hy
  cases hy

/-- **What a refused assignment leaves.** Let the target of an assignment be bound to a constant or
to a subroutine, and let the evaluation end with the error that says so. Then the right-hand side
has been evaluated to its end, and the environment is exactly the one that this has left: nothing is
added, nothing is taken back, and an error of the right-hand side is passed on. The target is still
the same constant, or still a subroutine. A name that neither the right-hand side nor a tree in
store binds has the binding that it had. In particular nothing at all is changed if the right-hand
side neither binds a name nor calls anything, or if no tree in store binds a name either. -/
theorem refused_assignment {n rhs : Node} {name : String} {constant : Property}
    (hk : n.kind = .assignment) (hname : n.text? "name" = some name)
    (hconstant : n.property? "constant" = some constant) (hrhs : n.child? .argument = some rhs)
    {s : State} {b : Binding} (hb : s.env[name]? = some b)
    (hfixed : b.isConstant = true ∨ b.isSubroutine = true) {fuel : Nat} {ctx : Context} {f : Fault}
    {s' : State} (hf : f.Refuses name)
    (h : eval fuel ctx n s = .done (.error f) s' ∨ evalGuarded fuel ctx n s = .done (.error f) s') :
    (∃ inner steps v t, ctx.descend? = some inner ∧ eval steps inner rhs ⟨s.env, []⟩ = .done v t
      ∧ (v.isError = true → v = .error f) ∧ s'.env = t.env)
    ∧ (s'.env[name]? = some b
      ∨ ∃ b', s'.env[name]? = some b' ∧ b.isSubroutine = true ∧ b'.isSubroutine = true)
    ∧ (∀ z : String, z ∉ rhs.targets → (s.env.Stores fun m => z ∉ m.targets) →
      s'.env[z]? = s.env[z]?)
    ∧ (rhs.Inert → s'.env = s.env)
    ∧ (rhs.targets = [] → (s.env.Stores fun m => m.targets = []) → s'.env = s.env) := by
  have hrun : eval fuel ctx n s = .done (.error f) s' := hf.eval h
  obtain ⟨inner, steps, v, t, hroom, ht, hv, henv⟩ :=
    exists_eval_of_assignment_error hk hname hconstant hrhs hrun
  refine ⟨⟨inner, steps, v, t, hroom, ht, hv, henv⟩, ?_, ?_, ?_, ?_⟩
  · obtain ⟨b', hb', hbecomes⟩ := evolves_of_eval hrun name b hb
    obtain hconst | hsub := hfixed
    · rw [hb', hbecomes.constant hconst]
      exact .inl rfl
    · exact .inr ⟨b', hb', hsub, hbecomes.subroutine hsub⟩
  · intro z hz hstore
    rw [henv]
    exact ((Contract.unwritten_sound z).eval (s := ⟨s.env, []⟩) hz hstore ht).leads
  · intro hinert
    rw [henv]
    exact env_of_inert (s := ⟨s.env, []⟩) hinert ht
  · intro hcode hstore
    rw [henv]
    exact env_of_no_targets (s := ⟨s.env, []⟩) hcode hstore ht

/-- An assignment to the subroutine `f`, which its own right-hand side calls: `y` is bound, `f` is
still a subroutine, and the constant `x` is what it was. -/
theorem refused_assignment_calling :
    ∃ s', eval 8 ⟨false, 50, 0, none⟩ (.assignment "f" false (.call "f" [])) ⟨bindingEnv, []⟩
        = .done (.error (.wrongKind "f" "variable" "subroutine")) s'
      ∧ (∃ inner steps v t, eval steps inner (.call "f" []) ⟨bindingEnv, []⟩ = .done v t
        ∧ s'.env = t.env)
      ∧ s'.env["y"]? = some (.variable (.bool true) false)
      ∧ s'.env["x"]? = some (.variable (.bool true) true) := by
  obtain ⟨s', hrun, hy⟩ : ∃ s', eval 8 ⟨false, 50, 0, none⟩ (.assignment "f" false (.call "f" []))
      ⟨bindingEnv, []⟩ = .done (.error (.wrongKind "f" "variable" "subroutine")) s'
        ∧ s'.env["y"]? = some (.variable (.bool true) false) := ⟨_, rfl, rfl⟩
  have hstore : bindingEnv.Stores fun m => "x" ∉ m.targets := by
    refine Env.Stores.insert_variable (Env.Stores.insert_subroutine ?_ _ _ ?_) _ _ _
    · intro x params tree ret m hx
      cases hx
    · rintro m (hm | hm)
      · obtain rfl := Option.some.inj hm
        decide
      · cases hm
  obtain ⟨⟨inner, steps, v, t, -, ht, -, henv⟩, -, hkept, -⟩ := refused_assignment
    (n := .assignment "f" false (.call "f" [])) rfl rfl rfl rfl (s := ⟨bindingEnv, []⟩) rfl
    (.inr rfl) (f := .wrongKind "f" "variable" "subroutine") (.inr rfl) (.inl hrun)
  exact ⟨s', hrun, ⟨inner, steps, v, t, ht, henv⟩, hy, hkept "x" (by decide) hstore⟩

end Pseudocode
