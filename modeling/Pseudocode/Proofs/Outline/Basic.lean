import Mathlib.Data.List.Basic
import Pseudocode.Node.Outline
import Pseudocode.Proofs.Names

/-!
What the outline shows of a tree.

The outline goes through five slots in a fixed order. It passes over a child in any other slot, and
does not keep the order in which the children stand. So two things have to be true of a node if the
outline is to show all of it: its children are in these slots and in this order, and the names of
its kind and of its properties can be told from what stands around them.

Every constructor of well-formed nodes makes such a node. This is where the order of the slots in
the constructors matters, and nothing else in the trees of programs depends on it.

Main results: in a tree of such nodes the rows of the outline are the nodes in the order of a search
(`map_node_rowsAt`), and every tree that was read from a text is one (`ReadAs.allShown`).
-/

namespace Pseudocode

/-! ### Lists of pairs -/

/-- Looking up all keys in their order finds the entries in their order. -/
theorem flatMap_lookup_of_sublist {α β : Type} [DecidableEq α] {keys : List α}
    {entries : List (α × List β)} (hkeys : keys.Nodup)
    (h : (entries.map Prod.fst).Sublist keys) :
    (keys.flatMap fun k => (entries.lookup k).getD []) = entries.flatMap Prod.snd := by
  induction keys generalizing entries with
  | nil =>
    rw [List.sublist_nil, List.map_eq_nil_iff] at h
    rw [h]
    rfl
  | cons k keys ih =>
    obtain ⟨hk, hnodup⟩ := List.nodup_cons.mp hkeys
    obtain h | ⟨firsts, hfirst, h⟩ := List.sublist_cons_iff.mp h
    · -- no entry has the first key
      have hnone : entries.lookup k = none := by
        rw [List.lookup_eq_none_iff]
        intro entry hentry
        have hmem := h.subset (List.mem_map_of_mem hentry)
        exact bne_iff_ne.mpr fun heq => hk (heq ▸ hmem)
      rw [List.flatMap_cons, hnone, ih hnodup h]
      rfl
    · obtain ⟨⟨k, v⟩, rest, rfl, rfl, rfl⟩ := List.map_eq_cons_iff.mp hfirst
      have hrest : (keys.flatMap fun k' => (((k, v) :: rest).lookup k').getD [])
          = keys.flatMap fun k' => (rest.lookup k').getD [] := by
        refine List.flatMap_congr fun k' hk' => ?_
        have hne : (k' == k) = false := beq_false_of_ne fun heq : k' = k => hk (heq ▸ hk')
        rw [List.lookup_cons, hne]
      rw [List.flatMap_cons, hrest, ih hnodup h, List.lookup_cons_self]
      rfl

namespace Node

/-! ### Nodes that are shown -/

/-- The names of properties. -/
def propertyNames : List String :=
  ["name", "constant", "style", "relation", "operation", "significand"]

/-- The outline shows all of the node. -/
structure Shown (n : Node) : Prop where
  kind : ∀ s, n.kind ≠ .other s
  keys : n.properties.map Prod.fst ⊆ propertyNames
  slots : (n.children.map Prod.fst).Sublist outlineSlots

/-- The outline shows all of every node of the tree. -/
def AllShown (n : Node) : Prop := ∀ m ∈ n.nodes, m.Shown

theorem nodes_eq (n : Node) : n.nodes = n :: n.children.flatMap fun part => part.2.nodes := by
  obtain ⟨kind, ps, cs⟩ := n
  rw [nodes, nodesOfChildren_eq_flatMap]
  rfl

/-- All nodes of a tree are shown if its root is and all nodes of its children are. -/
theorem allShown_iff {n : Node} : n.AllShown ↔ n.Shown ∧ ∀ part ∈ n.children, part.2.AllShown := by
  simp only [AllShown, nodes_eq n, List.forall_mem_cons, List.mem_flatMap]
  refine and_congr_right fun _ => ?_
  constructor
  · intro h part hpart m hm
    exact h m ⟨part, hpart, hm⟩
  · rintro h m ⟨part, hpart, hm⟩
    exact h part hpart m hm

/-- A property that passes from the children of a node to the node holds of all nodes. -/
theorem children_induction {P : Node → Prop}
    (step : ∀ n : Node, (∀ part ∈ n.children, P part.2) → P n) (n : Node) : P n :=
  step n fun part hpart =>
    have : sizeOf part.2 < sizeOf n := by
      obtain ⟨kind, ps, cs⟩ := n
      obtain ⟨slot, child⟩ := part
      have hlt := List.sizeOf_lt_of_mem hpart
      simp only [children_mk, Prod.mk.sizeOf_spec, mk.sizeOf_spec] at hlt ⊢
      omega
    children_induction step part.2
termination_by sizeOf n

/-! ### Rows -/

theorem rowsOfChildren_eq_map (depth : Nat) (cs : List (Slot × Node)) :
    rowsOfChildren depth cs = cs.map fun part => (part.1, rowsAt depth (some part.1) part.2) := by
  induction cs with
  | nil => rfl
  | cons part cs ih =>
    obtain ⟨slot, child⟩ := part
    rw [rowsOfChildren, ih, List.map_cons]

/-- The rows below a node are those of its children, in their order. -/
theorem Shown.rowsAt_eq {n : Node} (h : n.Shown) (depth : Nat) (slot : Option Slot) :
    rowsAt depth slot n
      = ⟨depth, slot, n⟩
        :: n.children.flatMap fun part => rowsAt (depth + 1) (some part.1) part.2 := by
  have hslots := h.slots
  obtain ⟨kind, ps, cs⟩ := n
  have hkeys : ((rowsOfChildren (depth + 1) cs).map Prod.fst).Sublist outlineSlots := by
    rw [rowsOfChildren_eq_map, List.map_map]
    exact hslots
  have hbelow := flatMap_lookup_of_sublist (by decide) hkeys
  rw [rowsAt, hbelow, rowsOfChildren_eq_map, List.flatMap_map]
  rfl

/-- **The order of the outline is that of a search**, in a tree that is shown. -/
theorem map_node_rowsAt {n : Node} (h : n.AllShown) (depth : Nat) (slot : Option Slot) :
    (rowsAt depth slot n).map Row.node = n.nodes := by
  induction n using children_induction generalizing depth slot with
  | step n ih =>
    obtain ⟨hn, hparts⟩ := allShown_iff.mp h
    rw [hn.rowsAt_eq, nodes_eq, List.map_cons, List.map_flatMap]
    congr 1
    exact List.flatMap_congr fun part hpart => ih part hpart (hparts part hpart) _ _

/-! ### Constructors -/

/-- A constructor that has the slots in their order makes a node that is shown, also if some of them
are empty. -/
theorem allShown_ofParts (kind : Kind) (ps : List (String × Property))
    (parts : List (Slot × Option Node)) (hkind : ∀ s, kind ≠ .other s)
    (hkeys : ps.map Prod.fst ⊆ propertyNames)
    (hslots : (parts.map Prod.fst).Sublist outlineSlots)
    (hparts : ∀ part ∈ parts, ∀ n ∈ part.2, n.AllShown) : (ofParts kind ps parts).AllShown := by
  refine allShown_iff.mpr ⟨⟨hkind, hkeys, ?_⟩, ?_⟩
  · refine List.Sublist.trans ?_ hslots
    -- leaving parts out keeps the others in the order of their slots
    rw [ofParts, children_mk]
    clear hparts hslots
    induction parts with
    | nil => exact List.Sublist.slnil
    | cons part parts ih =>
      obtain ⟨slot, child⟩ := part
      cases child with
      | none => exact ih.cons slot
      | some n => exact ih.cons_cons slot
  · rintro ⟨slot, n⟩ hn
    rw [ofParts, children_mk, List.mem_filterMap] at hn
    obtain ⟨⟨slot', child⟩, hmem, hchild⟩ := hn
    obtain ⟨m, rfl, heq⟩ := Option.map_eq_some_iff.mp hchild
    cases heq
    exact hparts _ hmem n rfl

theorem allShown_leaf (kind : Kind) (ps : List (String × Property)) (hkind : ∀ s, kind ≠ .other s)
    (hkeys : ps.map Prod.fst ⊆ propertyNames) : (mk kind ps []).AllShown :=
  allShown_ofParts kind ps [] hkind hkeys (List.nil_sublist _) nofun

section

variable {l r : Node} (hl : l.AllShown) (hr : r.AllShown)
include hl

theorem allShown_single (kind : Kind) (ps : List (String × Property)) (hkind : ∀ s, kind ≠ .other s)
    (hkeys : ps.map Prod.fst ⊆ propertyNames) : (mk kind ps [(.argument, l)]).AllShown :=
  allShown_ofParts kind ps [(.argument, some l)] hkind hkeys
    (by decide : [Slot.argument].Sublist outlineSlots) (by simp [hl])

include hr

theorem allShown_pair (kind : Kind) (ps : List (String × Property)) (hkind : ∀ s, kind ≠ .other s)
    (hkeys : ps.map Prod.fst ⊆ propertyNames) :
    (mk kind ps [(.left, l), (.right, r)]).AllShown :=
  allShown_ofParts kind ps [(.left, some l), (.right, some r)] hkind hkeys
    (by decide : [Slot.left, .right].Sublist outlineSlots) (by simp [hl, hr])

/-- The condition is shown before the body, whatever is tested first when the loop runs. -/
theorem allShown_loop (style : String) : (loop style l r).AllShown :=
  allShown_ofParts .loop [("style", .text style)] [(.argument, some l), (.left, some r)] nofun
    (by simp [propertyNames]) (by decide : [Slot.argument, .left].Sublist outlineSlots)
    (by simp [hl, hr])

theorem allShown_conditional {r? : Option Node} (hr? : ∀ n ∈ r?, n.AllShown) :
    (conditional l r r?).AllShown :=
  allShown_ofParts .conditional [("style", .text (if r?.isSome then ifThenElse else ifThen))]
    [(.argument, some l), (.left, some r), (.right, r?)] nofun
    (by simp [propertyNames]) (by decide : [Slot.argument, .left, .right].Sublist outlineSlots)
    (by simpa [hl, hr] using hr?)

end

/-- The tree of a block is shown if the trees of its statements are. -/
theorem allShown_block? {ns : List Node} (h : ∀ n ∈ ns, n.AllShown) :
    ∀ root ∈ block? ns, root.AllShown := by
  induction ns with
  | nil => nofun
  | cons n ns ih =>
    obtain ⟨hn, hns⟩ := List.forall_mem_cons.mp h
    have hrest := ih hns
    intro root hroot
    rw [block?] at hroot
    rcases hblock : block? ns with - | rest <;> rw [hblock] at hroot hrest <;> cases hroot
    · exact hn
    · exact allShown_pair hn (hrest rest rfl) .sequence [] (by rintro _ ⟨⟩) (List.nil_subset _)

theorem allShown_parameters? (params : List String) : ∀ n ∈ parameters? params, n.AllShown := by
  induction params with
  | nil => nofun
  | cons p params ih =>
    rintro _ ⟨⟩
    exact allShown_ofParts .parameters [("name", .text p)] [(.right, parameters? params)] nofun
      (by simp [propertyNames]) (by decide : [Slot.right].Sublist outlineSlots)
      (by simpa using ih)

theorem allShown_arguments? {ns : List Node} (h : ∀ n ∈ ns, n.AllShown) :
    ∀ n ∈ arguments? ns, n.AllShown := by
  induction ns with
  | nil => nofun
  | cons n ns ih =>
    obtain ⟨hn, hns⟩ := List.forall_mem_cons.mp h
    rintro _ ⟨⟩
    exact allShown_ofParts .arguments [] [(.left, some n), (.right, arguments? ns)] nofun
      (List.nil_subset _) (by decide : [Slot.left, .right].Sublist outlineSlots)
      (by simpa [hn] using ih hns)

theorem allShown_call {ns : List Node} (name : String) (h : ∀ n ∈ ns, n.AllShown) :
    (call name ns).AllShown :=
  allShown_ofParts .call [("name", .text name)] [(.argument, arguments? ns)] nofun
    (by simp [propertyNames]) (by decide : [Slot.argument].Sublist outlineSlots)
    (by simpa using allShown_arguments? h)

theorem allShown_subroutine (name : String) (params : List String) {body ret : Option Node}
    (hbody : ∀ n ∈ body, n.AllShown) (hret : ∀ n ∈ ret, n.AllShown) :
    (subroutine name params body ret).AllShown :=
  allShown_ofParts .subroutine [("name", .text name)]
    [(.params, parameters? params), (.left, body), (.ret, ret)] nofun
    (by simp [propertyNames]) (by decide : [Slot.params, .left, .ret].Sublist outlineSlots)
    (by simpa using ⟨allShown_parameters? params, hbody, hret⟩)

end Node

/-! ### Programs -/

mutual

/-- All nodes of the tree of an expression are shown, by cases on its form. -/
theorem Expr.allShown : (e : Expr) → e.toNode.AllShown
  | .number s => Node.allShown_leaf .number _ nofun (by simp [Node.propertyNames])
  | .boolean b => Node.allShown_leaf .boolean _ nofun (by simp [Node.propertyNames])
  | .reference name => Node.allShown_leaf .variable _ nofun (by simp [Node.propertyNames])
  | .call name args => Node.allShown_call name (allShown_toNodes args)
  | .bracket e => Node.allShown_single e.allShown .bracket _ nofun (List.nil_subset _)
  | .unary op e => Node.allShown_single e.allShown .unary _ nofun (by simp [Node.propertyNames])
  | .binary op l r =>
    Node.allShown_pair l.allShown r.allShown .binary _ nofun (by simp [Node.propertyNames])
  | .relation rel l r =>
    Node.allShown_pair l.allShown r.allShown .relation _ nofun (by simp [Node.propertyNames])

theorem Expr.allShown_toNodes : (es : List Expr) → ∀ n ∈ Expr.toNodes es, n.AllShown
  | [] => nofun
  | e :: es => List.forall_mem_cons.mpr ⟨e.allShown, allShown_toNodes es⟩

end

theorem Expr.allShown_ret (ret : Option Expr) : ∀ n ∈ ret.map Expr.toNode, n.AllShown := by
  intro n hn
  obtain ⟨e, -, rfl⟩ := Option.map_eq_some_iff.mp hn
  exact e.allShown

mutual

/-- All nodes of the tree of a statement are shown, by cases on its form. -/
theorem Stmt.allShown : (s : Stmt) → s.toNode.AllShown
  | .assign name constant value =>
    Node.allShown_single value.allShown .assignment _ nofun (by simp [Node.propertyNames])
  | .subroutine name params none ret =>
    Node.allShown_subroutine name params nofun (Expr.allShown_ret ret)
  | .subroutine name params (some body) ret => by
    refine Node.allShown_subroutine name params ?_ (Expr.allShown_ret ret)
    rintro _ ⟨⟩
    exact body.allShown
  | .conditional condition thenBranch none =>
    Node.allShown_conditional condition.allShown thenBranch.allShown nofun
  | .conditional condition thenBranch (some elseBranch) => by
    refine Node.allShown_conditional condition.allShown thenBranch.allShown ?_
    rintro _ ⟨⟩
    exact elseBranch.allShown
  | .whileLoop condition body => Node.allShown_loop condition.allShown body.allShown _
  | .repeatLoop body condition => Node.allShown_loop condition.allShown body.allShown _
  | .output value => Node.allShown_single value.allShown .output _ nofun (List.nil_subset _)
  | .call name args => Node.allShown_call name (Expr.allShown_toNodes args)

theorem Block.allShown : (b : Block) → b.toNode.AllShown
  | .one statement => statement.allShown
  | .cons statement rest =>
    Node.allShown_pair statement.allShown rest.allShown .sequence _ nofun (List.nil_subset _)

end

/-- The outline shows all of a tree that was read from a text. -/
theorem ReadAs.allShown {text : List Char} {root : Node} (h : ReadAs text root) :
    root.AllShown := by
  cases h with
  | program _ hroot =>
    refine Node.allShown_block? (fun n hn => ?_) root hroot
    obtain ⟨s, -, rfl⟩ := List.mem_map.mp hn
    exact s.allShown
  | expression => exact Expr.allShown _

end Pseudocode
