import Pseudocode.Proofs.Unmentioned.Basic

/-!
The names that a rule mentions occur in its node.

One lemma for each rule: the plan of a node does not mention a name that does not occur in the node.
Only four rules look at the environment or bind a name, and the name that they look up or bind is
the one of the node. A call goes on with trees from the environment, which do not mention the name
either.

Main result: `Plan.spares_ofNode`, the plans of all kinds together.
-/

namespace Pseudocode.Plan

variable {z : String}

theorem spares_statements {stop : Node.SpineEnd} {ns : List Node} (hns : ∀ m ∈ ns, z ∉ m.names)
    (hstop : ∀ m, stop = .last m → z ∉ m.names) : (statements stop ns).Spares z := by
  induction ns with
  | nil =>
    rcases stop with m | slot
    · exact ⟨hstop m rfl, fun _ => trivial⟩
    · trivial
  | cons statement rest ih =>
    obtain ⟨hstatement, hrest⟩ := List.forall_mem_cons.mp hns
    exact ⟨hstatement, fun _ => ih hrest⟩

theorem spares_store {name : String} (hname : name ≠ z) (constant : Bool) (v : Value) :
    (store name constant v).Spares z := by
  intro env _
  refine ⟨fun b => ?_, ?_⟩
  · simp only [Env.getElem?_put_of_ne hname]
  · dsimp only
    rcases env[name]? with - | (⟨w, - | -⟩ | ⟨params, tree, ret⟩)
    · exact ⟨hname, trivial, trivial⟩
    · exact ⟨hname, trivial, trivial⟩
    all_goals trivial

theorem spares_passing {k : List Value → Plan} (hk : ∀ vs, (k vs).Spares z) {es : List Node}
    (hes : ∀ e ∈ es, z ∉ e.names) : (passing k es).Spares z := by
  induction es generalizing k with
  | nil => exact hk []
  | cons e es ih =>
    obtain ⟨he, hes⟩ := List.forall_mem_cons.mp hes
    exact ⟨he, fun v => ih (fun vs => hk (v :: vs)) hes⟩

theorem spares_body (name : String) {tree ret : Option Node}
    (h : ∀ m, tree = some m ∨ ret = some m → z ∉ m.names) : (body name tree ret).Spares z := by
  have hreturning : (returning name ret).Spares z := by
    rcases ret with - | m
    · trivial
    · exact h m (.inr rfl)
  rcases tree with - | m
  · exact hreturning
  · exact ⟨h m (.inl rfl), fun _ => hreturning⟩

theorem spares_test {condition : Node} (hcondition : z ∉ condition.names) (statement : String)
    {k : Bool → Plan} (hk : ∀ b, (k b).Spares z) : (test condition statement k).Spares z := by
  refine ⟨hcondition, fun v => ?_⟩
  rcases v with x | b | text | - | fault
  · trivial
  · exact hk b
  all_goals trivial

theorem spares_whileLoop {condition tree : Node} (hcondition : z ∉ condition.names)
    (htree : z ∉ tree.names) (rounds count : Nat) (value : Value) :
    (whileLoop condition tree rounds count value).Spares z := by
  induction rounds generalizing count value with
  | zero => trivial
  | succ rounds ih =>
    refine spares_test hcondition _ fun b => ?_
    rcases b with - | -
    · trivial
    · exact ⟨htree, fun v => ih (count + 1) v⟩

theorem spares_repeatLoop {condition tree : Node} (hcondition : z ∉ condition.names)
    (htree : z ∉ tree.names) (rounds count : Nat) :
    (repeatLoop condition tree rounds count).Spares z := by
  induction rounds generalizing count with
  | zero => trivial
  | succ rounds ih =>
    refine ⟨htree, fun v => spares_test hcondition _ fun b => ?_⟩
    rcases b with - | -
    · exact ih (count + 1)
    · trivial

theorem spares_operands {left right : Node} (hleft : z ∉ left.names) (hright : z ∉ right.names)
    (combine : Value → Value → Value) : (operands left right combine).Spares z :=
  ⟨hleft, fun _ => ⟨hright, fun _ => trivial⟩⟩

section

variable {n : Node} (hn : z ∉ n.names)
include hn

theorem child_spared {slot : Slot} {m : Node} (h : n.child? slot = some m) : z ∉ m.names :=
  Node.hereditary_not_mem_names z hn h

theorem name_spared {name : String} (h : n.text? "name" = some name) : name ≠ z := by
  rintro rfl
  exact hn (Node.mem_names_of_text? h)

/-- An assignment that does not mention a name spares it. -/
theorem spares_assignment : (assignment n).Spares z := by
  unfold assignment
  split
  case h_4 name constant argument hname _ harg =>
    exact ⟨child_spared hn harg, spares_store (name_spared hn hname) constant.isSet⟩
  all_goals trivial

/-- So does a definition. -/
theorem spares_definition : (definition n).Spares z := by
  unfold definition
  rcases hname : n.text? "name" with - | name
  · trivial
  dsimp only
  rcases hparams : Node.parameterNames? (n.child? .params) with - | params
  · trivial
  dsimp only
  split
  · trivial
  -- what the name is bound to may be looked at, as it is another name
  intro env _
  have hne := name_spared hn hname
  have hnew : (Binding.subroutine params (n.child? .left) (n.child? .ret)).Spares z := by
    refine ⟨Node.not_mem_parameterNames? hn hparams, ?_⟩
    rintro m (hm | hm)
    · exact child_spared hn hm
    · exact child_spared hn hm
  refine ⟨fun b => ?_, ?_⟩
  · simp only [Env.getElem?_put_of_ne hne]
  · dsimp only
    rcases env[name]? with - | (⟨w, - | -⟩ | ⟨params', tree, ret⟩)
    case some.variable.true => trivial
    all_goals exact ⟨hne, hnew, trivial⟩

/-- The trees of the subroutine that is called come from the environment. -/
theorem spares_call (hk : n.kind = .call) : (call n).Spares z := by
  unfold call
  rcases hname : n.text? "name" with - | name
  · trivial
  intro env henv
  refine ⟨fun b => ?_, ?_⟩
  · simp only [Env.getElem?_put_of_ne (name_spared hn hname)]
  dsimp only
  rcases hbind : env[name]? with - | (⟨v, constant⟩ | ⟨params, tree, ret⟩)
  · trivial
  · trivial
  dsimp only
  rcases hes : Node.argumentExpressions? (n.child? .argument) with - | es
  · trivial
  dsimp only
  split
  · trivial
  -- the arguments lie below the node, the frame is made of what the environment has in store
  obtain ⟨hparams, htrees⟩ := henv name _ hbind
  have hargs : ∀ e ∈ es, z ∉ e.names := fun e he =>
    (Node.hereditary_not_mem_names z).below hn (Part.argument hk hes he).below
  have hframe : ∀ vs, (framed name params vs (body name tree ret)).Spares z := fun vs =>
    ⟨hparams, spares_body name htrees⟩
  exact spares_passing hframe hargs

/-- A conditional statement that does not mention a name spares it. -/
theorem spares_conditional : (conditional n).Spares z := by
  unfold conditional
  split
  -- only a node with a style, a condition and a branch is a proper one
  case h_4 style condition thenBranch _ hcondition hthen =>
    have hc := child_spared hn hcondition
    have ht := child_spared hn hthen
    split
    · refine spares_test hc _ fun b => ?_
      rcases b with - | -
      · trivial
      · exact ⟨ht, fun _ => trivial⟩
    split
    · rcases helse : n.child? .right with - | elseBranch
      · trivial
      · refine spares_test hc _ fun b => ?_
        rcases b with - | -
        · exact ⟨child_spared hn helse, fun _ => trivial⟩
        · exact ⟨ht, fun _ => trivial⟩
    · trivial
  all_goals trivial

/-- So does a loop of either style. -/
theorem spares_loop (rounds : Nat) : (loop rounds n).Spares z := by
  unfold loop
  split
  case h_4 style condition tree _ hcondition htree =>
    have hc := child_spared hn hcondition
    have ht := child_spared hn htree
    split
    · exact spares_whileLoop hc ht rounds 0 .unit
    split
    · exact spares_repeatLoop hc ht rounds 0
    · trivial
  all_goals trivial

theorem spares_relation : (relation n).Spares z := by
  unfold relation
  split
  case h_4 name left right _ hleft hright =>
    exact spares_operands (child_spared hn hleft) (child_spared hn hright) _
  all_goals trivial

theorem spares_binary : (binary n).Spares z := by
  unfold binary
  split
  case h_4 name left right _ hleft hright =>
    exact spares_operands (child_spared hn hleft) (child_spared hn hright) _
  all_goals trivial

theorem spares_unary : (unary n).Spares z := by
  unfold unary
  split
  case h_3 name argument _ harg => exact ⟨child_spared hn harg, fun _ => trivial⟩
  all_goals trivial

theorem spares_output : (output n).Spares z := by
  unfold output
  rcases harg : n.child? .argument with - | argument
  · trivial
  · exact ⟨child_spared hn harg, fun _ => trivial⟩

theorem spares_arguments : (arguments n).Spares z := by
  unfold arguments
  rcases hleft : n.child? .left with - | first
  · trivial
  refine ⟨child_spared hn hleft, fun v => ?_⟩
  rcases hright : n.child? .right with - | rest
  · trivial
  · exact ⟨child_spared hn hright, fun _ => trivial⟩

theorem spares_bracket : (bracket n).Spares z := by
  unfold bracket
  rcases harg : n.child? .argument with - | argument
  · trivial
  · exact ⟨child_spared hn harg, fun _ => trivial⟩

theorem spares_reference : (reference n).Spares z := by
  unfold reference
  rcases hname : n.text? "name" with - | name
  · trivial
  intro env _
  refine ⟨fun b => ?_, ?_⟩
  · simp only [Env.getElem?_put_of_ne (name_spared hn hname)]
  · dsimp only
    rcases env[name]? with - | (⟨v, constant⟩ | ⟨params, tree, ret⟩) <;> trivial

/-- The plan of a node does not mention a name that does not occur in the node. -/
theorem spares_ofNode (rounds : Nat) : (ofNode rounds n).Spares z := by
  unfold ofNode
  split
  · rename_i hk
    have hbelow : ∀ m, (m ∈ n.spine.1 ∨ n.spine.2 = .last m) → z ∉ m.names := fun m hm =>
      (Node.hereditary_not_mem_names z).below hn (Node.below_of_spine hk hm)
    exact spares_statements (fun m hm => hbelow m (.inl hm)) fun m hm => hbelow m (.inr hm)
  · exact spares_assignment hn
  · exact spares_definition hn
  · exact spares_call hn ‹_›
  · exact spares_conditional hn
  · exact spares_loop hn rounds
  · exact spares_relation hn
  · exact spares_binary hn
  · exact spares_unary hn
  · exact spares_output hn
  · exact spares_arguments hn
  · trivial
  · exact spares_bracket hn
  · exact spares_reference hn
  all_goals trivial

end

end Pseudocode.Plan
