import Pseudocode.Proofs.LoopFree

/-!
What an evaluation can write.

Only assignments and definitions bind names for good, and each of them binds the name that it bears.
A call binds its parameters too, but these belong to the frame: when the call is left, a parameter
has the binding of the caller again. So the names that an evaluation can give another binding are
read off the trees, the one that is evaluated and those that the environment has in store. Trees
that a definition puts into store on the way lie below one of these.

Main result: `unwritten_name_kept`.
-/

namespace Pseudocode

namespace Node

/-- The names that the assignments and definitions of the tree bind. -/
def targets (n : Node) : List String :=
  (n.nodes.filter fun m => m.kind = .assignment ∨ m.kind = .subroutine).filterMap
    fun m => m.text? "name"

variable {n : Node} {z : String}

theorem mem_targets : z ∈ n.targets ↔
    ∃ m ∈ n.nodes, (m.kind = .assignment ∨ m.kind = .subroutine) ∧ m.text? "name" = some z := by
  simp [targets, and_assoc]

/-- The name that an assignment or a definition bears is one of its targets. -/
theorem mem_targets_of_text? (hk : n.kind = .assignment ∨ n.kind = .subroutine)
    (h : n.text? "name" = some z) : z ∈ n.targets :=
  mem_targets.mpr ⟨n, n.self_mem_nodes, hk, h⟩

/-- What stands below has no more targets than the tree. -/
theorem hereditary_not_mem_targets (z : String) : Hereditary fun n => z ∉ n.targets := by
  intro n c slot hn h hz
  obtain ⟨m, hm, hk, hname⟩ := mem_targets.mp hz
  exact hn (mem_targets.mpr ⟨m, nodes_subset_of_child? h hm, hk, hname⟩)

end Node

theorem Env.getElem?_insert_of_ne {name z : String} (h : name ≠ z) (env : Env) (b : Binding) :
    (env.insert name b)[z]? = env[z]? := by
  rw [Std.ExtTreeMap.getElem?_insert, if_neg (by simpa using h)]

/-- What keeps its binding in a frame keeps it for the caller, parameter or not. -/
theorem Env.getElem?_restore_of_kept {caller frame left : Env} {params : List String} {z : String}
    (hout : ∀ x, x ∉ params → frame[x]? = caller[x]?) (hkept : left[z]? = frame[z]?) :
    (Env.restore caller left params)[z]? = caller[z]? := by
  rw [Env.getElem?_restore]
  by_cases hz : z ∈ params
  · rw [if_pos hz]
  · rw [if_neg hz, hkept, hout z hz, Option.or_self]

namespace Contract

/-- The name is no target, neither in the code nor in store, and keeps its binding. -/
def unwritten (z : String) : Contract where
  admits _ n := z ∉ n.targets
  keeps env := env.Stores fun m => z ∉ m.targets
  yields _ := True
  leads env env' := env'[z]? = env[z]?

/-- A name that is no target in the code or in stored trees keeps its binding in every
evaluation. -/
theorem unwritten_sound (z : String) : (unwritten z).Sound where
  toSoundValues := soundValues_of_forall fun _ => trivial
  refl _ := rfl
  trans h₁ h₂ := Eq.trans h₂ h₁
  assign hn hk hname hkeeps _ _ _ := by
    refine ⟨Env.Stores.insert_variable hkeeps _ _ _, Env.getElem?_insert_of_ne ?_ _ _⟩
    rintro rfl
    exact hn (Node.mem_targets_of_text? (.inl hk) hname)
  define hn hk hname _ _ hkeeps _ := by
    refine ⟨Env.Stores.insert_subroutine hkeeps _ _ ?_, Env.getElem?_insert_of_ne ?_ _ _⟩
    · rintro m (hm | hm)
      · exact Node.hereditary_not_mem_targets z hn hm
      · exact Node.hereditary_not_mem_targets z hn hm
    · rintro rfl
      exact hn (Node.mem_targets_of_text? (.inr hk) hname)
  pass hkeeps _ _ := Env.Stores.insert_variable hkeeps _ _ _
  -- a parameter of that name is a binding of the frame only
  restore hcaller hleft hout hleads :=
    ⟨Env.Stores.restore hcaller hleft _, Env.getElem?_restore_of_kept hout hleads⟩
  descend hn _ := hn
  part hn hpart := (Node.hereditary_not_mem_targets z).below hn hpart.below
  enter _ _ hkeeps _ hbind hm := hkeeps _ _ _ _ _ hbind hm

end Contract

/-- **What is not written is kept.** If a name is the target of no assignment and of no definition,
neither in the tree nor in the body or the return expression of a subroutine that is bound at the
start, then it has the same binding at the end, or is still unbound, however the evaluation ends and
whatever calls use the name as a parameter. -/
theorem unwritten_name_kept {z : String} {n : Node} {s : State} (hn : z ∉ n.targets)
    (hs : s.env.Stores fun m => z ∉ m.targets) {fuel : Nat} {ctx : Context} {v : Value} {s' : State}
    (h : eval fuel ctx n s = .done v s' ∨ evalGuarded fuel ctx n s = .done v s') :
    s'.env[z]? = s.env[z]? := by
  have hc := Contract.unwritten_sound z
  obtain h | h := h
  · exact (hc.eval hn hs h).leads
  · exact (hc.evalGuarded hn hs h).leads

/-- A variable `z`, and a subroutine `f` with a parameter `z`. It defines a subroutine `h` that has a
parameter `z` as well, calls it, and returns a variable that does not exist. -/
def passingEnv : Env :=
  (∅ : Env).insert "z" (.variable (.bool true) false)
    |>.insert "f" (.subroutine ["z"]
      (some (.sequence
        (.subroutine "h" ["z"] (some (.assignment "y" false (.reference "z"))) none)
        (.call "h" [.reference "z"])))
      (some (.reference "x")))

/-- The frames of `f` and of `h` bind `z`, as the value of `y` shows, and `z` is as it was. -/
theorem unwritten_name_kept_parameter :
    "z" ∉ (Node.call "f" [.boolean "False"]).targets
      ∧ (passingEnv.Stores fun m => "z" ∉ m.targets)
      ∧ ∃ s', eval 8 ⟨false, 50, 0, none⟩ (.call "f" [.boolean "False"]) ⟨passingEnv, []⟩
          = .done (.error (.unresolved "Variable" "x")) s'
        ∧ s'.env["y"]? = some (.variable (.bool false) false)
        ∧ s'.env["z"]? = some (.variable (.bool true) false) := by
  have hn : "z" ∉ (Node.call "f" [.boolean "False"]).targets := by decide
  have hs : passingEnv.Stores fun m => "z" ∉ m.targets := by
    refine Env.Stores.insert_subroutine (Env.Stores.insert_variable ?_ _ _ _) _ _ ?_
    · intro x params tree ret m hx
      cases hx
    · rintro m (hm | hm)
      · obtain rfl := Option.some.inj hm
        decide
      · obtain rfl := Option.some.inj hm
        decide
  obtain ⟨s', hrun, hy⟩ : ∃ s', eval 8 ⟨false, 50, 0, none⟩ (.call "f" [.boolean "False"])
      ⟨passingEnv, []⟩ = .done (.error (.unresolved "Variable" "x")) s'
        ∧ s'.env["y"]? = some (.variable (.bool false) false) := ⟨_, rfl, rfl⟩
  exact ⟨hn, hs, s', hrun, hy, unwritten_name_kept (s := ⟨passingEnv, []⟩) hn hs (.inl hrun)⟩

end Pseudocode
