import Pseudocode.Proofs.Outline.Lines

/-!
The outline loses nothing.

The rows of a tree are its nodes in preorder, each with its depth. A subtree goes on as long as the
rows stand deeper than its root does. So where the labels of two trees start two equal lists, and no
subtree could go on behind them, the trees are equal and so are the remainders.

Design. The remainders are part of the statement, because the induction meets the rows of one child
in front of those of the next one. `Shallow` is all that has to be known of them.

Main result: two trees that were read from texts are equal if their outlines are
(`outline_injective`).
-/

namespace Pseudocode

namespace Node

/-- A node is determined by its kind, its properties and its children. -/
theorem eq_of_parts {n m : Node} (hkind : n.kind = m.kind)
    (hproperties : n.properties = m.properties) (hchildren : n.children = m.children) : n = m := by
  cases n
  cases m
  cases hkind
  cases hproperties
  cases hchildren
  rfl

/-- The labels of rows. -/
abbrev Labels := List (Nat × Option Slot × Kind × List (String × Property))

/-- The labels of the rows of a tree that stands at a depth in a slot. -/
def labelsAt (depth : Nat) (slot : Option Slot) (n : Node) : Labels :=
  (rowsAt depth slot n).map Row.label

/-- The labels of the rows of children. -/
def labelsOf (depth : Nat) (children : List (Slot × Node)) : Labels :=
  children.flatMap fun part => labelsAt depth (some part.1) part.2

/-- The labels of a tree begin with the label of its root and go on one level deeper. -/
theorem labelsAt_eq {n : Node} (h : n.Shown) (depth : Nat) (slot : Option Slot) :
    labelsAt depth slot n
      = (depth, slot, n.kind, n.properties) :: labelsOf (depth + 1) n.children := by
  rw [labelsAt, h.rowsAt_eq, List.map_cons, List.map_flatMap]
  rfl

/-- No subtree at the depth goes on with these labels. -/
def Shallow (depth : Nat) (rest : Labels) : Prop := ∀ label ∈ rest.head?, label.1 ≤ depth

theorem shallow_nil (depth : Nat) : Shallow depth [] := nofun

/-- What stands behind a child is the next child, or what stands behind its parent. -/
theorem shallow_labelsOf {depth : Nat} {children : List (Slot × Node)} {rest : Labels}
    (hparts : ∀ part ∈ children, part.2.AllShown) (h : Shallow depth rest) :
    Shallow (depth + 1) (labelsOf (depth + 1) children ++ rest) := by
  cases children with
  | nil =>
    intro label hlabel
    exact Nat.le_succ_of_le (h label hlabel)
  | cons part children =>
    have hpart := (allShown_iff.mp (hparts part List.mem_cons_self)).1
    rw [labelsOf, List.flatMap_cons, labelsAt_eq hpart]
    rintro _ ⟨⟩
    exact Nat.le_refl _

/-- Children are told apart by their labels, if each of them is. -/
theorem labelsOf_append_inj {depth : Nat} {children children' : List (Slot × Node)}
    {rest rest' : Labels}
    (hinj : ∀ part ∈ children, ∀ {slot slot' : Option Slot} {m : Node} {rest rest' : Labels},
      m.AllShown → Shallow (depth + 1) rest → Shallow (depth + 1) rest' →
      labelsAt (depth + 1) slot part.2 ++ rest = labelsAt (depth + 1) slot' m ++ rest' →
      slot = slot' ∧ part.2 = m ∧ rest = rest')
    (hparts : ∀ part ∈ children, part.2.AllShown) (hparts' : ∀ part ∈ children', part.2.AllShown)
    (hrest : Shallow depth rest) (hrest' : Shallow depth rest')
    (h : labelsOf (depth + 1) children ++ rest = labelsOf (depth + 1) children' ++ rest') :
    children = children' ∧ rest = rest' := by
  -- a child has a first row, and that stands too deep for a remainder
  have hends : ∀ {part : Slot × Node} {parts : List (Slot × Node)} {rest rest' : Labels},
      part.2.AllShown → Shallow depth rest →
      rest ≠ labelsOf (depth + 1) (part :: parts) ++ rest' := by
    rintro part parts rest rest' hpart hrest rfl
    have hfirst := hrest (depth + 1, some part.1, part.2.kind, part.2.properties)
      (by rw [labelsOf, List.flatMap_cons, labelsAt_eq (allShown_iff.mp hpart).1]; rfl)
    exact absurd hfirst (Nat.not_succ_le_self depth)
  induction children generalizing children' with
  | nil =>
    cases children' with
    | nil => exact ⟨rfl, h⟩
    | cons part' children' => exact absurd h (hends (hparts' _ List.mem_cons_self) hrest)
  | cons part children ih =>
    cases children' with
    | nil => exact absurd h.symm (hends (hparts _ List.mem_cons_self) hrest')
    | cons part' children' =>
      obtain ⟨hinj, hinjs⟩ := List.forall_mem_cons.mp hinj
      obtain ⟨hpart, hparts⟩ := List.forall_mem_cons.mp hparts
      obtain ⟨hpart', hparts'⟩ := List.forall_mem_cons.mp hparts'
      rw [labelsOf, labelsOf, List.flatMap_cons, List.flatMap_cons, List.append_assoc,
        List.append_assoc] at h
      obtain ⟨hslot, hnode, hmore⟩ :=
        hinj hpart' (shallow_labelsOf hparts hrest) (shallow_labelsOf hparts' hrest') h
      obtain ⟨rfl, hrests⟩ := ih hinjs hparts hparts' hmore
      exact ⟨congrArg (· :: children) (Prod.ext (Option.some.inj hslot) hnode), hrests⟩

/-- A tree is told by its labels, wherever they end. -/
theorem labelsAt_append_inj {n m : Node} (hn : n.AllShown) (hm : m.AllShown) {depth : Nat}
    {slot slot' : Option Slot} {rest rest' : Labels} (hrest : Shallow depth rest)
    (hrest' : Shallow depth rest')
    (h : labelsAt depth slot n ++ rest = labelsAt depth slot' m ++ rest') :
    slot = slot' ∧ n = m ∧ rest = rest' := by
  induction n using children_induction generalizing m depth slot slot' rest rest' with
  | step n ih =>
    obtain ⟨hshown, hparts⟩ := allShown_iff.mp hn
    obtain ⟨hshown', hparts'⟩ := allShown_iff.mp hm
    rw [labelsAt_eq hshown, labelsAt_eq hshown', List.cons_append, List.cons_append,
      List.cons.injEq, Prod.mk.injEq, Prod.mk.injEq, Prod.mk.injEq] at h
    obtain ⟨⟨-, hslot, hkind, hproperties⟩, hmore⟩ := h
    -- the children are deeper than the root, so what follows them is shallow for them too
    obtain ⟨hchildren, hrests⟩ := labelsOf_append_inj
      (fun part hpart _ _ _ _ _ hm hrest hrest' h =>
        ih part hpart (hparts part hpart) hm hrest hrest' h)
      hparts hparts' hrest hrest' hmore
    exact ⟨hslot, eq_of_parts hkind hproperties hchildren, hrests⟩

/-- Rows with equal lines have equal labels. -/
theorem map_label_inj {rs rs' : List Row} (hrs : ∀ r ∈ rs, r.Shown) (hrs' : ∀ r ∈ rs', r.Shown)
    (h : rs.map (fun r => r.text.toList) = rs'.map (fun r => r.text.toList)) :
    rs.map Row.label = rs'.map Row.label := by
  induction rs generalizing rs' with
  | nil =>
    rw [List.map_nil, eq_comm, List.map_eq_nil_iff] at h
    rw [h]
  | cons r rs ih =>
    obtain ⟨r', rs', rfl, htext, hmore⟩ := List.map_eq_cons_iff.mp h.symm
    obtain ⟨hr, hrs⟩ := List.forall_mem_cons.mp hrs
    obtain ⟨hr', hrs'⟩ := List.forall_mem_cons.mp hrs'
    rw [List.map_cons, List.map_cons, ih hrs hrs' hmore.symm,
      Row.label_inj hr hr' (String.toList_inj.mp htext.symm)]

/-- Trees that are shown have different outlines. -/
theorem eq_of_outline_eq {n m : Node} (hn : n.AllShown) (hm : m.AllShown)
    (h : n.outline = m.outline) : n = m := by
  have hlines := congrArg (fun s => Text.lines s.toList) h
  rw [lines_outline hn, lines_outline hm] at hlines
  have hlabels := map_label_inj (shown_rows hn) (shown_rows hm)
    (List.append_cancel_right hlines)
  have hlabels : labelsAt 0 none n ++ [] = labelsAt 0 none m ++ [] := congrArg (· ++ []) hlabels
  exact (labelsAt_append_inj hn hm (shallow_nil 0) (shallow_nil 0) hlabels).2.1

end Node

/-- **The outline loses nothing.** Two trees that were read from texts, as programs or as
expressions, are equal if their outlines are: in kinds, properties and their order, slots and
brackets. -/
theorem outline_injective {text text' : List Char} {n m : Node} (hn : ReadAs text n)
    (hm : ReadAs text' m) (h : n.outline = m.outline) : n = m :=
  Node.eq_of_outline_eq hn.allShown hm.allShown h

/-- Two layouts of a loop. Its condition is shown before its body, and the bracket is a row of its
own. -/
theorem outline_injective_layouts :
    ∃ n m, ReadAs "REPEAT x <- (1) UNTIL x = 1".toList n
      ∧ ReadAs "REPEAT # once\n  x<-( 1 )\nUNTIL x=1\n".toList m
      ∧ n.outline = "Loop(style='Repeat')\n  argument: Relation(relation='EQ')\n"
        ++ "    left: Variable(name='x')\n    right: Number(significand='1')\n"
        ++ "  left: Assignment(name='x', constant=False)\n    argument: Bracket\n"
        ++ "      argument: Number(significand='1')\n"
      ∧ n.outline = m.outline ∧ n = m := by
  have hn : ReadAs "REPEAT x <- (1) UNTIL x = 1".toList
      (.loop "Repeat" (.relation "EQ" (.reference "x") (.number "1"))
        (.assignment "x" false (.bracket (.number "1")))) :=
    .program rfl rfl
  have hm : ReadAs "REPEAT # once\n  x<-( 1 )\nUNTIL x=1\n".toList
      (.loop "Repeat" (.relation "EQ" (.reference "x") (.number "1"))
        (.assignment "x" false (.bracket (.number "1")))) :=
    .program rfl rfl
  exact ⟨_, _, hn, hm, by decide +kernel, rfl, outline_injective hn hm rfl⟩

end Pseudocode
