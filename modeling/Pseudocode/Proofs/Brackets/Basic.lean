import Pseudocode.Proofs.LoopFree
import Pseudocode.Proofs.ParsedTrees

/-!
Trees without brackets.

`bare` replaces every bracket of a tree by what it encloses. An environment has trees in store, so
`Env.bare` does the same to them; everything that is done to an environment commutes with it.

Design. A list of parameters or arguments is a chain of nodes, and a bracket among them would hide
the rest of the chain. There is none in a tree that is as the table asks, whatever its place: such
trees are `Regular`. In a regular tree every bracket encloses something, so what is inside all the
brackets around a node, its `core`, is no bracket.

Main results: the lists of a regular node are those of its bare form (`parameterNames?_bare`,
`argumentExpressions?_bare`), and trees that are read from texts are regular
(`FromText.regular`).
-/

namespace Pseudocode

namespace Node

mutual

/-- The tree with every bracket replaced by what it encloses. -/
def bare : Node → Node
  | mk kind properties children =>
    if kind = .bracket then
      ((bareChildren children).lookup .argument).getD (mk kind properties (bareChildren children))
    else mk kind properties (bareChildren children)

/-- The children without brackets, slot by slot. -/
def bareChildren : List (Slot × Node) → List (Slot × Node)
  | [] => []
  | (slot, child) :: rest => (slot, child.bare) :: bareChildren rest

end

mutual

/-- What is inside all the brackets around a node. -/
def core : Node → Node
  | mk kind properties children =>
    if kind = .bracket then (coreOfArgument children).getD (mk kind properties children)
    else mk kind properties children

/-- What is inside all the brackets around the argument. -/
def coreOfArgument : List (Slot × Node) → Option Node
  | [] => none
  | (slot, child) :: rest => if slot = .argument then some child.core else coreOfArgument rest

end

variable {n m : Node}

/-! ### Brackets and other nodes -/

theorem bareChildren_eq (children : List (Slot × Node)) :
    bareChildren children = children.map fun (slot, child) => (slot, child.bare) := by
  induction children with
  | nil => rfl
  | cons entry rest ih => rw [bareChildren, ih, List.map_cons]

/-- Looking up a child comes before or after taking off its brackets. -/
theorem lookup_bareChildren (children : List (Slot × Node)) (slot : Slot) :
    (bareChildren children).lookup slot = (children.lookup slot).map bare := by
  induction children with
  | nil => rfl
  | cons entry rest ih =>
    obtain ⟨slot', child⟩ := entry
    rw [bareChildren, List.lookup_cons, List.lookup_cons]
    rcases slot == slot' with - | -
    · exact ih
    · rfl

/-- What is inside a bracket, if anything is. -/
theorem coreOfArgument_eq (children : List (Slot × Node)) :
    coreOfArgument children = (children.lookup .argument).map core := by
  induction children with
  | nil => rfl
  | cons entry rest ih =>
    obtain ⟨slot, child⟩ := entry
    rw [coreOfArgument, List.lookup_cons]
    by_cases h : slot = .argument
    · subst h
      rfl
    · have hne : (Slot.argument == slot) = false := by simpa using fun e => h e.symm
      rw [if_neg h, hne]
      exact ih

/-- A bracket is replaced by what is inside. -/
theorem bare_of_bracket (hk : n.kind = .bracket) (hm : n.child? .argument = some m) :
    n.bare = m.bare := by
  obtain ⟨kind, properties, children⟩ := n
  obtain rfl : kind = .bracket := hk
  have hm' : children.lookup .argument = some m := hm
  rw [bare, if_pos rfl, lookup_bareChildren, hm']
  rfl

/-- The core of a bracket is that of what is inside. -/
theorem core_of_bracket (hk : n.kind = .bracket) (hm : n.child? .argument = some m) :
    n.core = m.core := by
  obtain ⟨kind, properties, children⟩ := n
  obtain rfl : kind = .bracket := hk
  have hm' : children.lookup .argument = some m := hm
  rw [core, if_pos rfl, coreOfArgument_eq, hm']
  rfl

theorem core_of_kind_ne (hk : n.kind ≠ .bracket) : n.core = n := by
  obtain ⟨kind, properties, children⟩ := n
  have hk' : kind ≠ .bracket := hk
  rw [core, if_neg hk']

/-- A bracket with nothing inside is its own core. -/
theorem core_of_empty (hk : n.kind = .bracket) (hm : n.child? .argument = none) : n.core = n := by
  obtain ⟨kind, properties, children⟩ := n
  obtain rfl : kind = .bracket := hk
  have hm' : children.lookup .argument = none := hm
  rw [core, if_pos rfl, coreOfArgument_eq, hm']
  rfl

/-- Taking off the outer brackets first makes no difference. -/
theorem bare_core (n : Node) : n.core.bare = n.bare := by
  induction n using child_induction with
  | step n ih =>
    by_cases hk : n.kind = .bracket
    · rcases hm : n.child? .argument with - | m
      · rw [core_of_empty hk hm]
      · rw [core_of_bracket hk hm, bare_of_bracket hk hm]
        exact ih .argument m hm
    · rw [core_of_kind_ne hk]

/-! ### The bare form of a node that is no bracket -/

section
variable (hk : n.kind ≠ .bracket)
include hk

theorem bare_of_kind_ne : n.bare = mk n.kind n.properties (bareChildren n.children) := by
  obtain ⟨kind, properties, children⟩ := n
  have hk' : kind ≠ .bracket := hk
  rw [bare, if_neg hk']
  rfl

theorem kind_bare : n.bare.kind = n.kind := by rw [bare_of_kind_ne hk, kind_mk]

theorem property?_bare (key : String) : n.bare.property? key = n.property? key := by
  rw [bare_of_kind_ne hk]
  rfl

theorem text?_bare (key : String) : n.bare.text? key = n.text? key := by
  rw [text?, property?_bare hk, text?]

theorem label?_bare (key : String) : n.bare.label? key = n.label? key := by
  rw [label?, property?_bare hk, label?]

theorem child?_bare (slot : Slot) : n.bare.child? slot = (n.child? slot).map bare := by
  rw [bare_of_kind_ne hk]
  exact lookup_bareChildren n.children slot

end

/-! ### Regular trees -/

/-- The tree is as the table asks of a tree in some place. -/
def Regular (n : Node) : Prop := ∃ role, Conforms role n

/-- What a regular tree is made of is regular. -/
theorem hereditary_regular : Hereditary Regular := by
  rintro n c slot ⟨role, hn⟩ h
  exact ⟨_, hn.child h⟩

theorem Regular.core (h : n.Regular) : n.core.Regular := by
  induction n using child_induction with
  | step n ih =>
    by_cases hk : n.kind = .bracket
    · rcases hm : n.child? .argument with - | m
      · rw [core_of_empty hk hm]
        exact h
      · rw [core_of_bracket hk hm]
        exact ih .argument m hm (hereditary_regular h hm)
    · rw [core_of_kind_ne hk]
      exact h

/-- A regular bracket encloses something. -/
theorem Regular.exists_argument (h : n.Regular) (hk : n.kind = .bracket) :
    ∃ m, n.child? .argument = some m := by
  obtain ⟨role, hn⟩ := h
  apply Option.isSome_iff_exists.mp
  apply hn.fits.slot
  rw [hk]
  decide

/-- A regular tree has something inside its brackets. -/
theorem Regular.kind_core_ne (h : n.Regular) : n.core.kind ≠ .bracket := by
  induction n using child_induction with
  | step n ih =>
    by_cases hk : n.kind = .bracket
    · obtain ⟨m, hm⟩ := h.exists_argument hk
      rw [core_of_bracket hk hm]
      exact ih .argument m hm (hereditary_regular h hm)
    · rw [core_of_kind_ne hk]
      exact hk

/-- Where the table asks for a list, no link of it is a bracket. -/
theorem Regular.kind_link_ne (h : n.Regular) {slot : Slot} {link : Node}
    (hrole : n.kind.childRole slot ≠ .code) (hlink : link ∈ links (n.child? slot)) :
    link.kind ≠ .bracket := by
  obtain ⟨role, hn⟩ := h
  have hlist := Conforms.links hrole (fun c hc => hn.child hc) link hlink
  intro hk
  have hadmits := hlist.fits.kind
  rw [hk] at hadmits
  rcases hr : n.kind.childRole slot with - | - | - <;> rw [hr] at hadmits hrole
  · exact hrole rfl
  · cases hadmits
  · cases hadmits

/-! ### Lists -/

/-- The links of a list stay, if none of them is a bracket. -/
theorem links_bare {list : Option Node} (h : ∀ link ∈ links list, link.kind ≠ .bracket) :
    links (list.map bare) = (links list).map bare := by
  rcases list with - | n
  · rfl
  -- a list is a chain along its right children
  induction n using child_induction with
  | step n ih =>
    rw [links_some, List.forall_mem_cons] at h
    obtain ⟨hk, hrest⟩ := h
    rw [Option.map_some, links_some, links_some, List.map_cons, child?_bare hk]
    congr 1
    rcases hright : n.child? .right with - | next
    · rfl
    · rw [hright] at hrest
      exact ih .right next hright hrest

/-- The elements of a list can be mapped one by one, before or after their brackets are removed. -/
theorem mapM_bare {α β : Type} {f : Node → Option α} {f' : Node → Option β} {g : α → β}
    {ns : List Node} (h : ∀ n ∈ ns, f' n.bare = (f n).map g) :
    (ns.map bare).mapM f' = (ns.mapM f).map (List.map g) := by
  induction ns with
  | nil => rfl
  | cons n ns ih =>
    obtain ⟨hn, hns⟩ := List.forall_mem_cons.mp h
    rw [List.map_cons, List.mapM_cons, List.mapM_cons, hn, ih hns]
    rcases f n with - | a
    · rfl
    · rcases ns.mapM f with - | as <;> rfl

/-- Taking off brackets keeps the names of the parameters. -/
theorem parameterNames?_bare (h : n.Regular) (hk : n.kind = .subroutine) :
    parameterNames? (n.bare.child? .params) = parameterNames? (n.child? .params) := by
  have hlinks : ∀ link ∈ links (n.child? .params), link.kind ≠ .bracket := by
    intro link hlink
    exact h.kind_link_ne (by rw [hk]; decide) hlink
  rw [child?_bare (by rw [hk]; decide), parameterNames?, links_bare hlinks]
  -- each link keeps its name, so the names stay as a list
  have hnames : ((links (n.child? .params)).map bare).mapM (label? · "name")
      = ((links (n.child? .params)).mapM (label? · "name")).map (List.map id) := by
    apply mapM_bare
    intro link hlink
    rw [Option.map_id_apply]
    exact label?_bare (hlinks link hlink) "name"
  rw [hnames, List.map_id_fun, Option.map_id_apply]
  rfl

theorem argumentExpressions?_bare (h : n.Regular) (hk : n.kind = .call) :
    argumentExpressions? (n.bare.child? .argument)
      = (argumentExpressions? (n.child? .argument)).map (List.map bare) := by
  have hlinks : ∀ link ∈ links (n.child? .argument), link.kind ≠ .bracket := by
    intro link hlink
    exact h.kind_link_ne (by rw [hk]; decide) hlink
  rw [child?_bare (by rw [hk]; decide), argumentExpressions?, links_bare hlinks]
  exact mapM_bare fun link hlink => child?_bare (hlinks link hlink) .left

/-! ### Trees from texts -/

/-- The tree is read from a text, or is a part of one that is. -/
def FromText (n : Node) : Prop := ∃ text root, ReadAs text root ∧ (n = root ∨ root.Below n)

/-- What is read from a text is regular. -/
theorem FromText.regular (h : n.FromText) : n.Regular := by
  obtain ⟨text, root, hread, rfl | hbelow⟩ := h
  · exact ⟨.code, conforms_of_readAs hread⟩
  · exact hereditary_regular.below ⟨.code, conforms_of_readAs hread⟩ hbelow

end Node

/-! ### Environments -/

/-- The binding with the trees of a subroutine without brackets. -/
def Binding.bare : Binding → Binding
  | .variable v constant => .variable v constant
  | .subroutine params body ret => .subroutine params (body.map Node.bare) (ret.map Node.bare)

/-- The environment with all trees in store without brackets. -/
def Env.bare (env : Env) : Env := env.map fun _ b => b.bare

/-- The state with all trees in store without brackets. -/
def State.bare (s : State) : State := { s with env := s.env.bare }

namespace Env

@[simp] theorem getElem?_bare (env : Env) (x : String) :
    env.bare[x]? = env[x]?.map Binding.bare := Std.ExtTreeMap.getElem?_map

/-- Binding a name and taking off brackets commute. -/
theorem bare_insert (env : Env) (name : String) (b : Binding) :
    bare (env.insert name b) = env.bare.insert name b.bare := by
  apply Std.ExtTreeMap.ext_getElem?
  intro x
  rw [getElem?_bare, Std.ExtTreeMap.getElem?_insert, Std.ExtTreeMap.getElem?_insert, getElem?_bare]
  split <;> rfl

theorem bare_bindAll (env : Env) (params : List String) (vs : List Value) :
    (env.bindAll params vs).bare = env.bare.bindAll params vs := by
  induction params generalizing env vs with
  | nil => rfl
  | cons param params ih =>
    cases vs with
    | nil => rfl
    | cons v vs =>
      rw [bindAll, bindAll, ih, bare_insert]
      rfl

theorem bare_restore (caller left : Env) (params : List String) :
    (restore caller left params).bare = restore caller.bare left.bare params := by
  apply Std.ExtTreeMap.ext_getElem?
  intro x
  rw [getElem?_bare, getElem?_restore, getElem?_restore, getElem?_bare, getElem?_bare]
  split
  · rfl
  · rcases left[x]? with - | b <;> rfl

end Env

/-- Values of parameters bring no trees into an environment. -/
theorem Env.Stores.bindAll {P : Node → Prop} {env : Env} (h : env.Stores P) (params : List String)
    (vs : List Value) : Env.Stores P (env.bindAll params vs) := by
  induction params generalizing env vs with
  | nil => exact h
  | cons param params ih =>
    cases vs with
    | nil => exact h
    | cons v vs => exact ih (h.insert_variable param v false) vs

theorem State.bare_note (s : State) (ctx : Context) (e : Event) :
    (s.note ctx e).bare = s.bare.note ctx e := by
  unfold note
  split <;> rfl

end Pseudocode
