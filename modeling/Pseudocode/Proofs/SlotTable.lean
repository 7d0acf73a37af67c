import Pseudocode.Proofs.Tree

/-!
Trees that satisfy the table of properties and slots.

`Fits` is what the table asks of a node alone: its kind is one that may stand there, it has the
properties and fills the slots that the kind requires and no others, and what the properties say
means something. `Conforms` asks it of the whole tree, where the place of a node decides whether it
is code or a link of a parameter or argument list.

Design. The table is the one that `Defect` and `Part` refer to, so a conforming node has no defect
and its parts conform, and both are shown here once for all kinds.

Main results: no rule reports anything about a conforming node (`Conforms.not_defect`), the parts
that are evaluated conform (`Conforms.part`), and so does every node that is put together by a
constructor of its kind (`conforms_sequence` and so on).
-/

namespace Pseudocode

/-- What a node is for. -/
inductive Role where
  /-- It is evaluated. -/
  | code
  /-- It is a link of a parameter list. -/
  | parameters
  /-- It is a link of an argument list. -/
  | arguments
deriving DecidableEq, Repr

/-- The kinds that a node may have. -/
def Role.admits : Role → Kind → Bool
  | .code, .parameters | .code, .arguments | .code, .unknown | .code, .other _ => false
  | .code, _ => true
  | .parameters, kind => kind = .parameters
  | .arguments, kind => kind = .arguments

/-- What the child in a slot is for. -/
def Kind.childRole : Kind → Slot → Role
  | .subroutine, .params | .parameters, .right => .parameters
  | .call, .argument | .arguments, .right => .arguments
  | _, _ => .code

/-- The slots that a node of the kind may fill. -/
def Kind.slots (kind : Kind) : List Slot := kind.requiredSlots ++ kind.optionalSlots

/-- What the properties say means something: parameters have a name, a conditional has the style of
the branches that are there, loops and operations are known ones, and numbers can be read. -/
def Node.Meaningful (n : Node) : Prop :=
  match n.kind with
  | .parameters => ∃ name, n.label? "name" = some name ∧ name ≠ ""
  | .conditional =>
    n.text? "style" = some (if (n.child? .right).isSome then Node.ifThenElse else Node.ifThen)
  | .loop => n.text? "style" = some Node.whileStyle ∨ n.text? "style" = some Node.repeatStyle
  | .relation => ∃ r : Relation, n.text? "relation" = some r.name
  | .binary => ∃ op : BinaryOp, n.text? "operation" = some op.name
  | .unary => ∃ op : UnaryOp, n.text? "operation" = some op.name
  | .number => ∃ x, Literal.number (n.text? "significand") = .num x
  | _ => True

/-- The node, its children apart, is as the table asks. -/
structure Node.Fits (role : Role) (n : Node) : Prop where
  kind : role.admits n.kind = true
  property : ∀ key ∈ n.kind.requiredProperties, (n.property? key).isSome = true
  slot : ∀ slot ∈ n.kind.requiredSlots, (n.child? slot).isSome = true
  filled : ∀ slot c, n.child? slot = some c → slot ∈ n.kind.slots
  meaning : n.Meaningful

/-- The tree is as the table asks. -/
inductive Conforms : Role → Node → Prop
  | intro {role n} : n.Fits role →
    (∀ slot c, n.child? slot = some c → Conforms (n.kind.childRole slot) c) → Conforms role n

/-- If every element can be mapped, then so can the list. -/
theorem exists_mapM {α β : Type} {f : α → Option β} {P : β → Prop} {as : List α}
    (h : ∀ a ∈ as, ∃ b, f a = some b ∧ P b) : ∃ bs, as.mapM f = some bs ∧ ∀ b ∈ bs, P b := by
  induction as with
  | nil => exact ⟨[], rfl, nofun⟩
  | cons a as ih =>
    obtain ⟨b, hb, hPb⟩ := h a List.mem_cons_self
    obtain ⟨bs, hbs, hPbs⟩ := ih fun a' ha' => h a' (List.mem_cons_of_mem _ ha')
    refine ⟨b :: bs, ?_, ?_⟩
    · rw [List.mapM_cons, hb, hbs]
      rfl
    · intro b' hb'
      rcases List.mem_cons.mp hb' with rfl | hb'
      · exact hPb
      · exact hPbs b' hb'

namespace Conforms

variable {role : Role} {n : Node}

theorem fits (h : Conforms role n) : n.Fits role := by
  cases h with
  | intro hfits _ => exact hfits

theorem child (h : Conforms role n) {slot : Slot} {c : Node} (hc : n.child? slot = some c) :
    Conforms (n.kind.childRole slot) c := by
  cases h with
  | intro _ hchild => exact hchild slot c hc

/-! ### Lists -/

/-- All links of a conforming list conform. -/
theorem links (hrole : role ≠ .code) {list : Option Node}
    (h : ∀ n, list = some n → Conforms role n) : ∀ link ∈ Node.links list, Conforms role link := by
  rcases list with - | n
  · exact nofun
  replace h := h n rfl
  induction n using Node.child_induction with
  | step n ih =>
    -- the right slot of a link holds a link of the same list
    have hright : n.kind.childRole .right = role := by
      have hkind := h.fits.kind
      rcases role with - | - | -
      · exact absurd rfl hrole
      · rw [show n.kind = .parameters by simpa [Role.admits] using hkind]
        rfl
      · rw [show n.kind = .arguments by simpa [Role.admits] using hkind]
        rfl
    intro link hlink
    rw [Node.links_some] at hlink
    rcases List.mem_cons.mp hlink with rfl | hlink
    · exact h
    · rcases hnext : n.child? .right with - | next
      · rw [hnext] at hlink
        cases hlink
      · rw [hnext] at hlink
        exact ih .right next hnext (hright ▸ h.child hnext) link hlink

/-- The names in a conforming parameter list can be read, and none of them is empty. -/
theorem parameterNames? {list : Option Node} (h : ∀ n, list = some n → Conforms .parameters n) :
    ∃ params, Node.parameterNames? list = some params ∧ ∀ x ∈ params, x ≠ "" := by
  refine exists_mapM fun link hlink => ?_
  have hfits := (links (by decide) h link hlink).fits
  have hkind : link.kind = .parameters := by simpa [Role.admits] using hfits.kind
  have hmeaning := hfits.meaning
  rw [Node.Meaningful, hkind] at hmeaning
  obtain ⟨name, hname, hne⟩ := hmeaning
  exact ⟨name, hname, hne⟩

/-- The expressions in a conforming argument list can be read, and they are code. -/
theorem argumentExpressions? {list : Option Node}
    (h : ∀ n, list = some n → Conforms .arguments n) :
    ∃ es, Node.argumentExpressions? list = some es ∧ ∀ e ∈ es, Conforms .code e := by
  refine exists_mapM fun link hlink => ?_
  have hlink := links (by decide) h link hlink
  have hkind : link.kind = .arguments := by simpa [Role.admits] using hlink.fits.kind
  have hslot := hlink.fits.slot .left (by rw [hkind]; decide)
  obtain ⟨e, he⟩ := Option.isSome_iff_exists.mp hslot
  have hchild := hlink.child he
  rw [hkind] at hchild
  exact ⟨e, he, hchild⟩

/-! ### What the rules meet -/

theorem child_of_kind (h : Conforms role n) {kind : Kind} (hkind : n.kind = kind) (slot : Slot)
    {list : Role} (hlist : kind.childRole slot = list) :
    ∀ m, n.child? slot = some m → Conforms list m := by
  intro m hm
  have hchild := h.child hm
  rw [hkind, hlist] at hchild
  exact hchild

/-- No rule reports anything about a conforming node. -/
theorem not_defect (h : Conforms .code n) (fault : Fault) : ¬ Defect n fault := by
  intro hdefect
  have hmeaning := h.fits.meaning
  rw [Node.Meaningful] at hmeaning
  cases hdefect with
  | property hkey hnone =>
    have hsome := h.fits.property _ hkey
    rw [hnone] at hsome
    cases hsome
  | slot hslot hnone =>
    have hsome := h.fits.slot _ hslot
    rw [hnone] at hsome
    cases hsome
  -- the style says which branches there are, so it cannot ask for one that is missing
  | alternative hkind hstyle hright =>
    rw [hkind, hstyle, hright] at hmeaning
    dsimp only at hmeaning
    exact absurd hmeaning (by decide)
  | parameters hkind hnone =>
    obtain ⟨params, hsome, -⟩ := parameterNames? (h.child_of_kind hkind .params rfl)
    rw [hnone] at hsome
    cases hsome
  | arguments hkind hnone =>
    obtain ⟨es, hsome, -⟩ := argumentExpressions? (h.child_of_kind hkind .argument rfl)
    rw [hnone] at hsome
    cases hsome
  | conditionalStyle hkind hstyle hthen helse =>
    rw [hkind, hstyle] at hmeaning
    dsimp only at hmeaning
    split at hmeaning
    · exact helse (Option.some.inj hmeaning)
    · exact hthen (Option.some.inj hmeaning)
  | loopStyle hkind hstyle hwhile hrepeat =>
    rw [hkind, hstyle] at hmeaning
    rcases hmeaning with heq | heq
    · exact hwhile (Option.some.inj heq)
    · exact hrepeat (Option.some.inj heq)
  | parameterList hkind =>
    have hadmits := h.fits.kind
    rw [hkind] at hadmits
    cases hadmits
  | unclassified hkind =>
    have hadmits := h.fits.kind
    rcases hkind with hkind | ⟨name, hkind⟩ <;> rw [hkind] at hadmits <;> cases hadmits

/-- What stands in a slot that is evaluated is code. -/
theorem childRole_of_evaluated {kind : Kind} {slot : Slot} (hkind : Role.code.admits kind = true)
    (hslot : slot ∈ kind.evaluatedSlots) : kind.childRole slot = .code := by
  unfold Kind.childRole
  -- the list slots belong to kinds that evaluate no slot, or that are no code
  split
  · cases hslot
  · cases hkind
  · cases hslot
  · cases hkind
  · rfl

/-- What the rule of a conforming node evaluates conforms. -/
theorem part {m : Node} (h : Conforms .code n) (hpart : Part n m) : Conforms .code m := by
  cases hpart with
  | child hslot hm =>
    have hchild := h.child hm
    rw [childRole_of_evaluated h.fits.kind hslot] at hchild
    exact hchild
  | argument hkind hes hm =>
    obtain ⟨es, hsome, hcode⟩ := argumentExpressions? (h.child_of_kind hkind .argument rfl)
    rw [hes] at hsome
    cases hsome
    exact hcode m hm

/-! ### Nodes put together -/

variable {kind : Kind} {ps : List (String × Property)}

/-- A node is as the table asks if its kind, properties, slots and children are. -/
theorem mk {cs : List (Slot × Node)} (hkind : role.admits kind = true)
    (hprops : (kind.requiredProperties.all fun key =>
      ((Node.mk kind ps cs).property? key).isSome) = true)
    (hslots : (kind.requiredSlots.all fun slot =>
      ((Node.mk kind ps cs).child? slot).isSome) = true)
    (hmeaning : (Node.mk kind ps cs).Meaningful)
    (hcs : ∀ s ∈ cs, s.1 ∈ kind.slots ∧ Conforms (kind.childRole s.1) s.2) :
    Conforms role (.mk kind ps cs) := by
  refine .intro ⟨hkind, List.all_eq_true.mp hprops, List.all_eq_true.mp hslots, ?_, hmeaning⟩ ?_
  · intro slot c hc
    exact (hcs _ (Node.mem_children_of_child? hc)).1
  · intro slot c hc
    exact (hcs _ (Node.mem_children_of_child? hc)).2

/-- Likewise a node with optional parts, of which only the present ones matter. -/
theorem ofParts {cs : List (Slot × Option Node)} (hkind : role.admits kind = true)
    (hprops : (kind.requiredProperties.all fun key =>
      ((Node.ofParts kind ps cs).property? key).isSome) = true)
    (hslots : (kind.requiredSlots.all fun slot =>
      ((Node.ofParts kind ps cs).child? slot).isSome) = true)
    (hmeaning : (Node.ofParts kind ps cs).Meaningful)
    (hcs : ∀ s ∈ cs, ∀ c, s.2 = some c → s.1 ∈ kind.slots ∧ Conforms (kind.childRole s.1) c) :
    Conforms role (.ofParts kind ps cs) := by
  refine .mk hkind hprops hslots hmeaning fun s hs => ?_
  obtain ⟨⟨slot, child⟩, hmem, hmap⟩ := List.mem_filterMap.mp hs
  obtain ⟨c, rfl, rfl⟩ := Option.map_eq_some_iff.mp hmap
  exact hcs _ hmem c rfl

end Conforms

variable {e l r : Node}

theorem conforms_sequence (hl : Conforms .code l) (hr : Conforms .code r) :
    Conforms .code (.sequence l r) := by
  refine .mk rfl rfl rfl trivial ?_
  simp [Kind.slots, Kind.requiredSlots, Kind.childRole, hl, hr]

theorem conforms_assignment (name : String) (constant : Bool) (he : Conforms .code e) :
    Conforms .code (.assignment name constant e) := by
  refine .mk rfl rfl rfl trivial ?_
  simp [Kind.slots, Kind.requiredSlots, Kind.childRole, he]

theorem conforms_parameters? {params : List String} (h : ∀ x ∈ params, x ≠ "") :
    ∀ list, Node.parameters? params = some list → Conforms .parameters list := by
  induction params with
  | nil => exact nofun
  | cons name rest ih =>
    have hrest := ih fun x hx => h x (List.mem_cons_of_mem _ hx)
    have hname : name ≠ "" := h name List.mem_cons_self
    rintro list heq
    cases heq
    refine .ofParts rfl rfl rfl ⟨name, ?_, hname⟩ ?_
    · simp [Node.label?, Node.property?, Node.ofParts, Property.isSet, Property.display, hname]
    · simpa [Kind.slots, Kind.optionalSlots, Kind.childRole] using hrest

theorem conforms_arguments? {es : List Node} (h : ∀ e ∈ es, Conforms .code e) :
    ∀ list, Node.arguments? es = some list → Conforms .arguments list := by
  induction es with
  | nil => exact nofun
  | cons e rest ih =>
    have hrest := ih fun m hm => h m (List.mem_cons_of_mem _ hm)
    have he : Conforms .code e := h e List.mem_cons_self
    rintro list heq
    cases heq
    refine .ofParts rfl rfl rfl trivial ?_
    simpa [Kind.slots, Kind.requiredSlots, Kind.optionalSlots, Kind.childRole, he] using hrest

theorem conforms_subroutine (name : String) {params : List String} {body ret : Option Node}
    (hparams : ∀ x ∈ params, x ≠ "") (hbody : ∀ m, body = some m → Conforms .code m)
    (hret : ∀ m, ret = some m → Conforms .code m) :
    Conforms .code (.subroutine name params body ret) := by
  refine .ofParts rfl rfl rfl trivial ?_
  simpa [Kind.slots, Kind.optionalSlots, Kind.childRole]
    using ⟨conforms_parameters? hparams, hbody, hret⟩

theorem conforms_call (name : String) {args : List Node} (h : ∀ e ∈ args, Conforms .code e) :
    Conforms .code (.call name args) := by
  refine .ofParts rfl rfl rfl trivial ?_
  simpa [Kind.slots, Kind.optionalSlots, Kind.childRole] using conforms_arguments? h

theorem conforms_conditional {other : Option Node} (he : Conforms .code e) (hl : Conforms .code l)
    (hother : ∀ m, other = some m → Conforms .code m) :
    Conforms .code (.conditional e l other) := by
  refine .ofParts rfl rfl rfl ?_ ?_
  · cases other <;> rfl
  · simpa [Kind.slots, Kind.requiredSlots, Kind.optionalSlots, Kind.childRole, he, hl] using hother

theorem conforms_loop {style : String}
    (hstyle : style = Node.whileStyle ∨ style = Node.repeatStyle) (he : Conforms .code e)
    (hl : Conforms .code l) : Conforms .code (.loop style e l) := by
  refine .mk rfl rfl rfl (hstyle.imp (congrArg some) (congrArg some)) ?_
  simp [Kind.slots, Kind.requiredSlots, Kind.childRole, he, hl]

theorem conforms_relation (rel : Relation) (hl : Conforms .code l) (hr : Conforms .code r) :
    Conforms .code (.relation rel.name l r) := by
  refine .mk rfl rfl rfl ⟨rel, rfl⟩ ?_
  simp [Kind.slots, Kind.requiredSlots, Kind.childRole, hl, hr]

theorem conforms_binary (op : BinaryOp) (hl : Conforms .code l) (hr : Conforms .code r) :
    Conforms .code (.binary op.name l r) := by
  refine .mk rfl rfl rfl ⟨op, rfl⟩ ?_
  simp [Kind.slots, Kind.requiredSlots, Kind.childRole, hl, hr]

theorem conforms_unary (op : UnaryOp) (he : Conforms .code e) :
    Conforms .code (.unary op.name e) := by
  refine .mk rfl rfl rfl ⟨op, rfl⟩ ?_
  simp [Kind.slots, Kind.requiredSlots, Kind.childRole, he]

theorem conforms_output (he : Conforms .code e) : Conforms .code (.output e) := by
  refine .mk rfl rfl rfl trivial ?_
  simp [Kind.slots, Kind.requiredSlots, Kind.childRole, he]

theorem conforms_bracket (he : Conforms .code e) : Conforms .code (.bracket e) := by
  refine .mk rfl rfl rfl trivial ?_
  simp [Kind.slots, Kind.requiredSlots, Kind.childRole, he]

theorem conforms_reference (name : String) : Conforms .code (.reference name) :=
  .mk rfl rfl rfl trivial nofun

theorem conforms_number {significand : String}
    (h : ∃ x, Literal.number (some significand) = .num x) : Conforms .code (.number significand) :=
  .mk rfl rfl rfl h nofun

theorem conforms_boolean (significand : String) : Conforms .code (.boolean significand) :=
  .mk rfl rfl rfl trivial nofun

/-- The tree of a block is code if the trees of its statements are. -/
theorem conforms_block? {ns : List Node} (h : ∀ n ∈ ns, Conforms .code n) :
    ∀ root, Node.block? ns = some root → Conforms .code root := by
  induction ns with
  | nil => exact nofun
  | cons n rest ih =>
    have hrest := ih fun m hm => h m (List.mem_cons_of_mem _ hm)
    have hn : Conforms .code n := h n List.mem_cons_self
    intro root heq
    rw [Node.block?] at heq
    rcases hblock : Node.block? rest with - | block
    · rw [hblock] at heq
      cases heq
      exact hn
    · rw [hblock] at heq
      cases heq
      exact conforms_sequence hn (hrest block hblock)

end Pseudocode
