import Mathlib.Logic.Relation
import Pseudocode.Proofs.Acts.Rules

/-!
What is evaluated lies below.

A rule of evaluation only ever has nodes evaluated that lie below its own node, or below the node of
a definition that was made before. So a property of trees that passes to the children holds of
everything that is evaluated, if it holds of the tree at the start and of the trees that the
environment has in store at the start. New definitions put into the environment what lies below the
node that makes them.

Main results: `Performs.below`, `Part.below` for the rules, and `hereditary_sound` for runs.
-/

namespace Pseudocode

/-- What a list is mapped to comes from its elements. -/
theorem exists_of_mem_mapM {α β : Type} {f : α → Option β} {as : List α} {bs : List β} {b : β}
    (h : as.mapM f = some bs) (hb : b ∈ bs) : ∃ a ∈ as, f a = some b := by
  induction as generalizing bs with
  | nil =>
    cases h
    cases hb
  | cons a as ih =>
    rw [List.mapM_cons] at h
    rcases ha : f a with - | b'
    · rw [ha] at h
      cases h
    rcases has : as.mapM f with - | bs'
    · rw [ha, has] at h
      cases h
    rw [ha, has] at h
    obtain rfl := Option.some.inj h
    obtain rfl | hb := List.mem_cons.mp hb
    · exact ⟨a, List.mem_cons_self, ha⟩
    · obtain ⟨a', hmem, hmap⟩ := ih has hb
      exact ⟨a', List.mem_cons_of_mem _ hmem, hmap⟩

namespace Node

/-- The second node is a child of the first one, or a child of a child, and so on. -/
def Below : Node → Node → Prop := Relation.TransGen fun n m => ∃ slot, n.child? slot = some m

variable {n m : Node}

theorem below_of_child? {slot : Slot} (h : n.child? slot = some m) : n.Below m :=
  .single ⟨slot, h⟩

theorem Below.sizeOf_lt (h : n.Below m) : sizeOf m < sizeOf n := by
  induction h with
  | single h =>
    obtain ⟨slot, h⟩ := h
    exact sizeOf_lt_of_child? h
  | tail _ h ih =>
    obtain ⟨slot, h⟩ := h
    exact Nat.lt_trans (sizeOf_lt_of_child? h) ih

/-- A property of trees that passes to the children. -/
def Hereditary (P : Node → Prop) : Prop :=
  ∀ ⦃n m : Node⦄ ⦃slot : Slot⦄, P n → n.child? slot = some m → P m

/-- A hereditary property is passed on to everything below. -/
theorem Hereditary.below {P : Node → Prop} (hP : Hereditary P) (hn : P n) (h : n.Below m) :
    P m := by
  induction h with
  | single h =>
    obtain ⟨slot, h⟩ := h
    exact hP hn h
  | tail _ h ih =>
    obtain ⟨slot, h⟩ := h
    exact hP ih h

/-! ### The rules -/

/-- The links of a chain stand below the node at which it starts. -/
theorem below_of_mem_links {slot : Slot} {link : Node} (h : link ∈ links (n.child? slot)) :
    n.Below link := by
  rcases hc : n.child? slot with - | c
  · rw [hc] at h
    cases h
  · rw [hc] at h
    have hbelow : n.Below c := below_of_child? hc
    clear hc
    -- along the chain, every link is below the one before
    induction c using child_induction with
    | step c ih =>
      rw [links_some] at h
      obtain rfl | h := List.mem_cons.mp h
      · exact hbelow
      · rcases hright : c.child? .right with - | r
        · rw [hright] at h
          cases h
        · rw [hright] at h
          exact ih .right r hright h (hbelow.tail ⟨.right, hright⟩)

/-- So do the statements of a block, and the node at the end of its spine. -/
theorem below_of_spine (hk : n.kind = .sequence) (h : m ∈ n.spine.1 ∨ n.spine.2 = .last m) :
    n.Below m := by
  induction n using child_induction with
  | step n ih =>
    rcases hl : n.child? .left with - | l
    · rw [spine_of_no_left hk hl] at h
      simp at h
    rcases hr : n.child? .right with - | r
    · rw [spine_of_no_right hk hl hr] at h
      simp at h
    rw [spine_of_parts hk hl hr] at h
    -- the first statement, or something on the spine of the right child
    have hrest : (m ∈ r.spine.1 ∨ r.spine.2 = .last m) → n.Below m := by
      intro h
      by_cases hkr : r.kind = .sequence
      · exact (below_of_child? hr).trans (ih .right r hr hkr h)
      · rw [spine_of_kind_ne hkr] at h
        obtain h | h := h
        · cases h
        · cases h
          exact below_of_child? hr
    obtain h | h := h
    · obtain rfl | h := List.mem_cons.mp h
      · exact below_of_child? hl
      · exact hrest (.inl h)
    · exact hrest (.inr h)

end Node

/-- The parts that a rule has evaluated stand below the node. -/
theorem Part.below {n m : Node} (h : Part n m) : n.Below m := by
  cases h with
  | child _ hm => exact Node.below_of_child? hm
  | argument _ hes hm =>
    obtain ⟨link, hlink, hchild⟩ := exists_of_mem_mapM hes hm
    exact (Node.below_of_mem_links hlink).tail ⟨.left, hchild⟩

/-- So does everything that a rule performs, the statements of a block included. -/
theorem Node.Performs.below {n m : Node} (h : n.Performs m) : n.Below m := by
  cases h with
  | statement hk hm => exact Node.below_of_spine hk hm
  | part _ hm => exact hm.below

/-! ### Runs -/

/-- All trees that the environment has in store for calls have the property. -/
def Env.Stores (P : Node → Prop) (env : Env) : Prop :=
  ∀ (x : String) (params : List String) (tree ret : Option Node) (m : Node),
    env[x]? = some (.subroutine params tree ret) → tree = some m ∨ ret = some m → P m

namespace Env.Stores

variable {P : Node → Prop} {env : Env}

theorem insert_variable (h : env.Stores P) (name : String) (v : Value) (constant : Bool) :
    Stores P (env.insert name (.variable v constant)) := by
  intro x params tree ret m hx hm
  rw [Std.ExtTreeMap.getElem?_insert] at hx
  split at hx
  · cases hx
  · exact h x params tree ret m hx hm

theorem insert_subroutine (h : env.Stores P) (name : String) (params : List String)
    {tree ret : Option Node} (hnew : ∀ m, tree = some m ∨ ret = some m → P m) :
    Stores P (env.insert name (.subroutine params tree ret)) := by
  intro x params' tree' ret' m hx hm
  rw [Std.ExtTreeMap.getElem?_insert] at hx
  split at hx
  · cases hx
    exact hnew m hm
  · exact h x params' tree' ret' m hx hm

/-- Leaving a call stores only trees that the caller or the frame has stored. -/
theorem restore {caller left : Env} (hcaller : caller.Stores P) (hleft : left.Stores P)
    (params : List String) : Stores P (Env.restore caller left params) := by
  intro x params' tree ret m hx hm
  rw [Env.getElem?_restore] at hx
  split at hx
  · exact hcaller x params' tree ret m hx hm
  · rcases hl : left[x]? with - | b
    · rw [hl] at hx
      exact hcaller x params' tree ret m hx hm
    · rw [hl] at hx
      exact hleft x params' tree ret m (hl.trans hx) hm

end Env.Stores

namespace Contract

/-- Trees with a property, in the code and in store. -/
def hereditary (P : Node → Prop) : Contract where
  admits _ n := P n
  keeps env := env.Stores P
  yields _ := True
  leads _ _ := True

/-- A property that all trees of an evaluation inherit is kept, as trees come only from the code and
from the environment. -/
theorem hereditary_sound {P : Node → Prop} (hP : Node.Hereditary P) : (hereditary P).Sound where
  toSoundValues := soundValues_of_forall fun _ => trivial
  refl _ := trivial
  trans _ _ := trivial
  assign _ _ _ hkeeps _ _ _ := ⟨Env.Stores.insert_variable hkeeps _ _ _, trivial⟩
  -- the trees that are stored are children of the definition
  define hn _ _ _ _ hkeeps _ := by
    refine ⟨Env.Stores.insert_subroutine hkeeps _ _ ?_, trivial⟩
    rintro m (hm | hm)
    · exact hP hn hm
    · exact hP hn hm
  pass hkeeps _ _ := Env.Stores.insert_variable hkeeps _ _ _
  restore hcaller hleft _ _ := ⟨Env.Stores.restore hcaller hleft _, trivial⟩
  descend hn _ := hn
  part hn hpart := hP.below hn hpart.below
  enter _ _ hkeeps _ hbind hm := hkeeps _ _ _ _ _ hbind hm

end Contract

end Pseudocode
