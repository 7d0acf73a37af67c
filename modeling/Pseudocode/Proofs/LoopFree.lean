import Pseudocode.Node.Search
import Pseudocode.Proofs.DepthLimit
import Pseudocode.Proofs.Subtrees

/-!
Programs without loops end.

A call goes on with a tree from the environment, which may be larger than the one with the call, and
which a definition may have replaced a moment ago. But all trees that ever come up lie below the tree
at the start or below a tree in the environment at the start, so they are no larger than those. And
a call goes one deeper, which the limit allows only so often. The remaining depth and the size of the
tree, taken together in `weight`, get less with each step from a node to something that its rule has
evaluated.

Main result: `loop_free_ends`.
-/

namespace Pseudocode

open Eval

/-! ### Trees without loops -/

/-- No node of the tree is a loop. -/
def Node.LoopFree (n : Node) : Prop := ∀ m ∈ n.nodes, m.kind ≠ .loop

instance (n : Node) : Decidable n.LoopFree :=
  inferInstanceAs (Decidable (∀ m ∈ n.nodes, m.kind ≠ .loop))

/-- No subroutine of the environment has a loop in its body or in its return expression. -/
def Env.LoopFree (env : Env) : Prop := env.Stores Node.LoopFree

namespace Node

theorem self_mem_nodes (n : Node) : n ∈ n.nodes := by
  obtain ⟨kind, properties, children⟩ := n
  exact List.mem_cons_self

theorem nodes_subset_of_mem {children : List (Slot × Node)} {slot : Slot} {c : Node}
    (h : (slot, c) ∈ children) : c.nodes ⊆ nodesOfChildren children := by
  induction children with
  | nil => cases h
  | cons entry rest ih =>
    obtain ⟨slot', child⟩ := entry
    rw [nodesOfChildren]
    obtain h | h := List.mem_cons.mp h
    · cases h
      exact List.subset_append_left _ _
    · exact List.Subset.trans (ih h) (List.subset_append_right _ _)

theorem nodes_subset_of_child? {n c : Node} {slot : Slot} (h : n.child? slot = some c) :
    c.nodes ⊆ n.nodes := by
  obtain ⟨kind, properties, children⟩ := n
  exact fun m hm => List.mem_cons_of_mem _ (nodes_subset_of_mem (mem_children_of_child? h) hm)

/-- No part of a tree without loops has a loop. -/
theorem hereditary_loopFree : Hereditary LoopFree := by
  intro n c slot hn h m hm
  exact hn m (nodes_subset_of_child? h hm)

theorem LoopFree.kind_ne {n : Node} (h : n.LoopFree) : n.kind ≠ .loop := h n n.self_mem_nodes

/-- A tree without loops that is not larger than a bound. -/
def Bounded (bound : Nat) (n : Node) : Prop := n.LoopFree ∧ sizeOf n ≤ bound

/-- Parts are no larger than their tree. -/
theorem hereditary_bounded (bound : Nat) : Hereditary (Bounded bound) := by
  intro n c slot hn h
  have hlt := sizeOf_lt_of_child? h
  exact ⟨hereditary_loopFree hn.1 h, by have := hn.2; omega⟩

end Node

/-- The trees that an environment has in store are bounded in size. -/
theorem Env.stores_sizeOf_le (env : Env) : env.Stores fun m => sizeOf m ≤ sizeOf env.toList := by
  intro x params tree ret m hx hm
  have hmem : (x, Binding.subroutine params tree ret) ∈ env.toList :=
    Std.ExtTreeMap.mem_toList_iff_getElem?_eq_some.mpr hx
  have hlt := List.sizeOf_lt_of_mem hmem
  rw [Prod.mk.sizeOf_spec, Binding.subroutine.sizeOf_spec] at hlt
  obtain rfl | rfl := hm <;>
    rw [Option.some.sizeOf_spec] at hlt <;>
    omega

/-! ### The weight of a point -/

variable {fuel bound : Nat} {p q : Point}

/-- How much can come up below a point: the remaining depth counts more than any tree. -/
noncomputable def Eval.Point.weight (bound : Nat) (p : Point) : Nat :=
  (p.ctx.limit - p.ctx.depth).toNat * (bound + 1) + sizeOf p.node

/-- Going to a part lowers the weight. -/
theorem weight_lt_of_consults (h : Consults fuel p q) (hq : sizeOf q.node ≤ bound) :
    q.weight bound < p.weight bound := by
  obtain ⟨hdepth, hlimit⟩ := depth_of_consults h
  unfold Point.weight
  rw [hlimit]
  -- a part is smaller at the same depth; a body may be larger, but is one call further down
  cases hdepth with
  | part hm hsame =>
    have hbelow : p.node.Below q.node := hm.elim Node.Performs.below Part.below
    have hlt := hbelow.sizeOf_lt
    rw [hsame]
    omega
  | frame _ _ _ _ hlt hdeeper =>
    have hone : (p.ctx.limit - p.ctx.depth).toNat = (p.ctx.limit - q.ctx.depth).toNat + 1 := by
      omega
    rw [hone, Nat.succ_mul]
    omega

/-! ### Ends of evaluations -/

open Contract in
/-- With as many steps as its weight, an evaluation without loops is finished. -/
theorem answer_ne_unfinished (hn : p.node.Bounded bound) (hs : p.state.env.Stores (Node.Bounded bound))
    (hfuel : p.weight bound < fuel) : p.answer (eval fuel) ≠ .unfinished := by
  induction fuel generalizing p with
  | zero => omega
  | succ fuel ih =>
    have hc := hereditary_sound (Node.hereditary_bounded bound)
    rcases hroom : p.ctx.descend? with - | inner
    · rw [Point.answer_of_no_room hroom]
      nofun
    · rw [Point.answer_of_descend hroom, Ne, Outcome.noted_eq_unfinished_iff]
      intro hrun
      obtain ⟨a, ha, rfl | ⟨q, exit, rfl, hq⟩⟩ := Plan.acts_of_run_eq_unfinished hrun
      · -- only loops use up rounds
        cases does_of_mem_acts ha with
        | exhausted hloop => exact hn.1.kind_ne hloop
      · have hentry : p.entry.env.Stores (Node.Bounded bound) := by rwa [p.env_entry]
        obtain ⟨hnode, henv⟩ := hc.part_of_mem_acts (hc.binds_eval fuel) hn hentry ha
        have hconsults : Consults fuel p q := ⟨inner, exit, hroom, ha⟩
        have hlt := weight_lt_of_consults hconsults hnode.2
        exact ih hnode henv (by omega) hq

/-! ### The stack -/

namespace Outcome

variable {o : Outcome} {log : List Event}

theorem noted_eq_overflow_iff {ctx : Context} {e : Value → Event} :
    o.noted ctx e = .overflow log ↔ o = .overflow log := by
  rcases o with ⟨v, s⟩ | log' | - <;> simp [noted]

theorem mapEnv_eq_overflow_iff {g : Env → Env} :
    o.mapEnv g = .overflow log ↔ o = .overflow log := by
  rcases o with ⟨v, s⟩ | log' | - <;> simp [mapEnv]

theorem caught_ne_overflow (o : Outcome) (fault : Fault) (env : Env) :
    o.caught fault env ≠ .overflow log := by
  rcases o with ⟨v, s⟩ | log' | - <;> nofun

/-- An exhausted stack comes from the first part or from what follows it. -/
theorem andThen_ne_overflow {k : Value → State → Outcome} (ho : o ≠ .overflow log)
    (hk : ∀ v s, k v s ≠ .overflow log) : o.andThen k ≠ .overflow log := by
  rcases o with ⟨v, s⟩ | log' | -
  · rcases hv : v.isError with - | -
    · rw [andThen_done_of_not_isError hv]
      exact hk v s
    · obtain ⟨fault, rfl⟩ := Value.isError_iff.mp hv
      nofun
  · exact ho
  · nofun

end Outcome

/-- A plan does not exhaust a stack without bound, if its parts do not. -/
theorem Plan.run_ne_overflow {ev : Evaluator} {log : List Event}
    (hev : ∀ ctx n s, ctx.room = none → ev ctx n s ≠ .overflow log) {plan : Plan}
    {ctx : Context} (hroom : ctx.room = none) (s : State) :
    plan.run ev ctx s ≠ .overflow log := by
  induction plan generalizing ctx s with
  | finish v => nofun
  | unfinished => nofun
  | look k ih => exact ih s.env hroom s
  | note e remark next ih => exact ih hroom _
  | emit v next ih => exact ih hroom _
  | bind name b next ih => exact ih hroom _
  | ask effects m k ih =>
    rw [run_ask]
    refine Outcome.andThen_ne_overflow ?_ fun v t => ih v hroom t
    rw [Ne, Outcome.mapEnv_eq_overflow_iff]
    exact hev ctx m s hroom
  | askReturn name m =>
    rw [run_askReturn, Ne, Outcome.noted_eq_overflow_iff]
    exact hev ctx m s hroom
  | guarded name inner ih =>
    -- a guard turns an exhausted stack into an error
    by_cases hdepth : ctx.limit ≤ ctx.depth
    · rw [run_guarded_of_le _ _ hdepth]
      nofun
    · rw [run_guarded_of_not_le _ _ hdepth]
      exact Outcome.caught_ne_overflow _ _ _
  | framed name params vs inner ih =>
    rw [run_framed, Ne, Outcome.mapEnv_eq_overflow_iff]
    have hinner : ctx.inCall.room = none := hroom
    exact ih hinner _

/-- A stack without bound is never exhausted. -/
theorem eval_ne_overflow {ctx : Context} (hroom : ctx.room = none) (n : Node) (s : State)
    (log : List Event) : eval fuel ctx n s ≠ .overflow log := by
  induction fuel generalizing ctx n s with
  | zero => nofun
  | succ fuel ih =>
    rw [eval_of_descend (Context.descend?_of_room_eq_none hroom), Ne, Outcome.noted_eq_overflow_iff]
    exact Plan.run_ne_overflow (fun ctx n s h => ih h n s) hroom _

/-! ### Programs without loops -/

/-- There is a number of steps from which on the evaluation has one outcome, a finished one. -/
theorem exists_steps (ctx : Context) {n : Node} {s : State} (hn : n.LoopFree)
    (hs : s.env.LoopFree) :
    ∃ steps o, o ≠ .unfinished ∧ ∀ fuel, steps ≤ fuel → eval fuel ctx n s = o := by
  let bound := max (sizeOf n) (sizeOf s.env.toList)
  have hnode : n.Bounded bound := ⟨hn, Nat.le_max_left ..⟩
  have henv : s.env.Stores (Node.Bounded bound) := by
    intro x params tree ret m hx hm
    have hle := s.env.stores_sizeOf_le x params tree ret m hx hm
    exact ⟨hs x params tree ret m hx hm, Nat.le_trans hle (Nat.le_max_right ..)⟩
  let p : Point := ⟨ctx, n, s⟩
  refine ⟨p.weight bound + 1, eval (p.weight bound + 1) ctx n s, ?_, fun fuel hle => ?_⟩
  · exact answer_ne_unfinished (p := p) hnode henv (Nat.lt_succ_self _)
  · exact precedes_eval hle (answer_ne_unfinished (p := p) hnode henv (Nat.lt_succ_self _))

/-- A subroutine `f` that defines `g` as a call of `f`, and then calls `g` on the result of `f`. -/
def redefiningEnv : Env :=
  (∅ : Env).insert "f" (.subroutine ["x"]
    (some (.sequence (.subroutine "g" ["x"] (some (.call "f" [.reference "x"])) none)
      (.call "g" [.call "f" [.reference "x"]]))) none)

end Pseudocode
