import Pseudocode.Proofs.Exhaustion
import Pseudocode.Proofs.Recursion

/-!
Blocks compose.

What a part of a program does can be said without looking inside: from an environment it leads to a
value and an environment, and puts out some values on the way. `Behaviour` is the type of such
relations, and `Behaviour.andThen` composes them as a block composes its statements: an error is the
end, and otherwise the second part starts where the first one has ended.

Design. A block may run in the middle of a program, with a log that has been kept before it. What has
been put out has no influence on an evaluation (`eval_onto`), so the behaviour of a node is that of
an evaluation with an empty log. Behaviours compose on a stack without bound; where a bounded stack
is not exhausted, it makes no difference.

Main result: `blocks_compose`.
-/

namespace Pseudocode

open Eval

/-! ### What has been recorded before -/

/-- The state with something recorded before everything else. -/
def State.onto (earlier : List Event) (s : State) : State := ⟨s.env, s.log ++ earlier⟩

/-- What happened earlier does not change what is recorded next. -/
theorem State.note_onto (earlier : List Event) (s : State) (ctx : Context) (e : Event) :
    (s.onto earlier).note ctx e = (s.note ctx e).onto earlier := by
  unfold State.note
  split <;> rfl

namespace Outcome

/-- The outcome with something recorded before everything else. -/
def onto (earlier : List Event) : Outcome → Outcome
  | .done v s => .done v (s.onto earlier)
  | .overflow log => .overflow (log ++ earlier)
  | .unfinished => .unfinished

variable {earlier : List Event} {o : Outcome}

/-- Earlier events stay earlier through a continuation. -/
theorem onto_andThen {k k' : Value → State → Outcome}
    (hk : ∀ v s, k' v (s.onto earlier) = (k v s).onto earlier) :
    (o.onto earlier).andThen k' = (o.andThen k).onto earlier := by
  rcases o with ⟨v, s⟩ | log | -
  · rcases hv : v.isError with - | -
    · rw [andThen_done_of_not_isError hv, onto, andThen_done_of_not_isError hv]
      exact hk v s
    · simp [onto, andThen, hv]
  · rfl
  · rfl

theorem onto_mapEnv (g : Env → Env) :
    (o.onto earlier).mapEnv g = (o.mapEnv g).onto earlier := by
  rcases o with ⟨v, s⟩ | log | - <;> rfl

theorem onto_caught (fault : Fault) (env : Env) :
    (o.onto earlier).caught fault env = (o.caught fault env).onto earlier := by
  rcases o with ⟨v, s⟩ | log | - <;> rfl

theorem onto_noted (ctx : Context) (e : Value → Event) :
    (o.onto earlier).noted ctx e = (o.noted ctx e).onto earlier := by
  rcases o with ⟨v, s⟩ | log | -
  · exact congrArg (done v) (State.note_onto earlier s ctx (e v))
  · rfl
  · rfl

/-- An outcome with earlier events ends as the outcome without them. -/
theorem onto_eq_done_iff {v : Value} {t : State} :
    o.onto earlier = .done v t ↔ ∃ u, o = .done v u ∧ t = u.onto earlier := by
  rcases o with ⟨w, u⟩ | log | -
  · constructor
    · intro h
      cases h
      exact ⟨u, rfl, rfl⟩
    · rintro ⟨u', h, rfl⟩
      cases h
      rfl
  · simp [onto]
  · simp [onto]

end Outcome

/-- A plan does the same behind earlier events, if its parts do. -/
theorem Plan.run_onto {ev : Evaluator} {earlier : List Event}
    (hev : ∀ ctx n s, ev ctx n (s.onto earlier) = (ev ctx n s).onto earlier) {plan : Plan}
    {ctx : Context} {s : State} :
    plan.run ev ctx (s.onto earlier) = (plan.run ev ctx s).onto earlier := by
  induction plan generalizing ctx s with
  | finish v => rfl
  | unfinished => rfl
  | look k ih => exact ih s.env
  | note e remark next ih =>
    show next.run ev ctx ((s.onto earlier).note ctx e) = _
    rw [State.note_onto]
    exact ih
  | emit v next ih => exact ih (s := s.emit v)
  | bind name b next ih => exact ih (s := s.bind name b)
  | ask effects m k ih =>
    rw [run_ask, run_ask, hev]
    show ((ev ctx m s).onto earlier |>.mapEnv (effects.after s.env)).andThen _ = _
    rw [Outcome.onto_mapEnv]
    exact Outcome.onto_andThen fun v t => ih v
  | askReturn name m =>
    rw [run_askReturn, run_askReturn, hev]
    exact Outcome.onto_noted ctx _
  | guarded name inner ih =>
    by_cases hdepth : ctx.limit ≤ ctx.depth
    · rw [run_guarded_of_le _ _ hdepth, run_guarded_of_le _ _ hdepth]
      rfl
    · rw [run_guarded_of_not_le _ _ hdepth, run_guarded_of_not_le _ _ hdepth, ih]
      exact Outcome.onto_caught _ _
  | framed name params vs inner ih =>
    -- the frame is entered behind the earlier events as well
    let frame : State := ⟨s.env.bindAll params vs, s.log⟩
    have hframe := State.note_onto earlier frame ctx (.entered name ctx.inCall.depth)
    rw [run_framed, run_framed]
    show (inner.run ev ctx.inCall ((frame.onto earlier).note ctx _)).mapEnv _ = _
    rw [hframe, ih]
    exact Outcome.onto_mapEnv _

/-- What has been recorded before an evaluation has no influence on it. -/
theorem eval_onto (earlier : List Event) (fuel : Nat) (ctx : Context) (n : Node) (s : State) :
    eval fuel ctx n (s.onto earlier) = (eval fuel ctx n s).onto earlier := by
  induction fuel generalizing ctx n s with
  | zero => rfl
  | succ fuel ih =>
    rcases hroom : ctx.descend? with - | inner
    · rw [eval_of_no_room hroom, eval_of_no_room hroom]
      rfl
    · rw [eval_of_descend hroom, eval_of_descend hroom, State.note_onto, Plan.run_onto ih]
      exact Outcome.onto_noted ctx _

theorem emissions_append (log earlier : List Event) :
    emissions (log ++ earlier) = emissions earlier ++ emissions log := by
  simp [emissions]

/-! ### Behaviours -/

/-- What a part of a program does: from which environment it leads to which value and environment,
and what it puts out. -/
abbrev Behaviour := Env → Value → Env → List Value → Prop

/-- One part and then, unless that is an error, another one where the first has ended. -/
def Behaviour.andThen (b b' : Behaviour) : Behaviour := fun env v env' out =>
  b env v env' out ∧ v.isError = true
    ∨ ∃ w mid first second, b env w mid first ∧ w.isError = false ∧ b' mid v env' second
      ∧ out = first ++ second

theorem Behaviour.andThen_assoc (a b c : Behaviour) :
    (a.andThen b).andThen c = a.andThen (b.andThen c) := by
  funext env v env' out
  apply propext
  -- which of the three fails first decides the case; the outputs are three lists in both
  constructor
  · rintro (⟨⟨h, -⟩ | ⟨w, mid, first, second, ha, hw, hb, rfl⟩, hv⟩
      | ⟨w, mid, first, second, ⟨-, hw'⟩ | ⟨x, mid', early, late, ha, hx, hb, rfl⟩, hw, hc, rfl⟩)
    · exact .inl ⟨h, hv⟩
    · exact .inr ⟨w, mid, first, second, ha, hw, .inl ⟨hb, hv⟩, rfl⟩
    · simp [hw] at hw'
    · refine .inr ⟨x, mid', early, late ++ second, ha, hx, ?_, List.append_assoc ..⟩
      exact .inr ⟨w, mid, late, second, hb, hw, hc, rfl⟩
  · rintro (⟨h, hv⟩ | ⟨w, mid, first, second, ha, hw, ⟨hb, hv⟩
      | ⟨x, mid', early, late, hb, hx, hc, rfl⟩, rfl⟩)
    · exact .inl ⟨.inl ⟨h, hv⟩, hv⟩
    · exact .inl ⟨.inr ⟨w, mid, first, second, ha, hw, hb, rfl⟩, hv⟩
    · refine .inr ⟨x, mid', first ++ early, late, ?_, hx, hc, (List.append_assoc ..).symm⟩
      exact .inr ⟨w, mid, first, early, ha, hw, hb, rfl⟩

/-- A part that may be missing: without it there is no value, and nothing happens. -/
def Behaviour.optional (b : Node → Behaviour) : Option Node → Behaviour
  | none => fun env v env' out => v = .void ∧ env' = env ∧ out = []
  | some n => b n

/-- The behaviour of a node under an evaluator with enough steps. -/
def Eval.behaviour (ev : Nat → Evaluator) (ctx : Context) (n : Node) : Behaviour :=
  fun env v env' out => ∃ t, (∃ fuel, ev fuel ctx n ⟨env, []⟩ = .done v t)
    ∧ t.env = env' ∧ emissions t.log = out

section
variable {ctx : Context} {n l r : Node}

/-- Blocks walked by the nested recursion behave alike. -/
theorem behaviour_evalRecursive (hctx : ctx.Quiet) (n : Node) :
    behaviour evalRecursive ctx n = behaviour eval ctx n := by
  unfold behaviour
  simp only [exists_evalRecursive_iff hctx]

/-- A node in the middle of a program does what it does at the start of one. -/
theorem exists_eval_iff_behaviour {v : Value} {s : State} {env : Env} {out : List Value} :
    (∃ t, (∃ fuel, eval fuel ctx n s = .done v t) ∧ t.env = env ∧ emissions t.log = out)
      ↔ ∃ later, behaviour eval ctx n s.env v env later ∧ out = emissions s.log ++ later := by
  -- an evaluation behind a log is the evaluation from an empty log, put behind it
  have honto : ∀ fuel, eval fuel ctx n s = (eval fuel ctx n ⟨s.env, []⟩).onto s.log :=
    fun fuel => eval_onto s.log fuel ctx n ⟨s.env, []⟩
  constructor
  · rintro ⟨t, ⟨fuel, h⟩, rfl, rfl⟩
    rw [honto] at h
    obtain ⟨u, hu, rfl⟩ := Outcome.onto_eq_done_iff.mp h
    exact ⟨emissions u.log, ⟨u, ⟨fuel, hu⟩, rfl, rfl⟩, emissions_append ..⟩
  · rintro ⟨later, ⟨u, ⟨fuel, hu⟩, rfl, rfl⟩, rfl⟩
    refine ⟨u.onto s.log, ⟨fuel, ?_⟩, rfl, emissions_append ..⟩
    rw [honto]
    exact Outcome.onto_eq_done_iff.mpr ⟨u, hu, rfl⟩

/-- A part that has been evaluated. -/
theorem behaviour_of_eval {fuel : Nat} {v : Value} {s t : State}
    (h : eval fuel ctx n s = .done v t) :
    ∃ out, behaviour eval ctx n s.env v t.env out ∧ emissions t.log = emissions s.log ++ out :=
  exists_eval_iff_behaviour.mp ⟨t, ⟨fuel, h⟩, rfl, rfl⟩

/-- A part that can be evaluated, from any state with its environment and with steps enough. -/
theorem eval_of_behaviour {v : Value} {env env' : Env} {out : List Value}
    (h : behaviour eval ctx n env v env' out) {s : State} (hs : s.env = env) :
    ∃ t steps, (∀ fuel, steps ≤ fuel → eval fuel ctx n s = .done v t) ∧ t.env = env'
      ∧ emissions t.log = emissions s.log ++ out := by
  subst hs
  obtain ⟨t, ⟨steps, ht⟩, henv, hout⟩ := exists_eval_iff_behaviour.mpr ⟨out, h, rfl⟩
  refine ⟨t, steps, ?_, henv, hout⟩
  intro fuel hle
  exact eval_eq_of_done ht hle

/-- A block does what its two slots do, one after the other. -/
theorem behaviour_sequence (hctx : ctx.Quiet) (l r : Node) :
    behaviour eval ctx (.sequence l r) = (behaviour eval ctx l).andThen (behaviour eval ctx r) := by
  funext env v env' out
  apply propext
  -- a block of two ends with its first part, or goes on with the second
  have hblock : ∀ t, (∃ fuel, eval fuel ctx (.sequence l r) ⟨env, []⟩ = .done v t) ↔ _ :=
    fun t => exists_eval_block_iff hctx (n := .sequence l r) rfl rfl rfl
  constructor
  · rintro ⟨t, h, henv, hout⟩
    obtain ⟨h, hv⟩ | ⟨w, u, h, hw, hr⟩ := (hblock t).mp h
    · exact .inl ⟨⟨t, h, henv, hout⟩, hv⟩
    · obtain ⟨second, hsecond, hout⟩ := exists_eval_iff_behaviour.mp ⟨t, hr, henv, hout⟩
      exact .inr ⟨w, u.env, emissions u.log, second, ⟨u, h, rfl, rfl⟩, hw, hsecond, hout⟩
  · rintro (⟨⟨t, h, henv, hout⟩, hv⟩ | ⟨w, mid, first, second, ⟨u, h, rfl, rfl⟩, hw, hr, hout⟩)
    · exact ⟨t, (hblock t).mpr (.inl ⟨h, hv⟩), henv, hout⟩
    · obtain ⟨t, hr, henv, hout⟩ := exists_eval_iff_behaviour.mpr ⟨second, hr, hout⟩
      exact ⟨t, (hblock t).mpr (.inr ⟨w, u, h, hw, hr⟩), henv, hout⟩

/-- How a block is nested makes no difference. -/
theorem behaviour_sequence_assoc (hctx : ctx.Quiet) (a b c : Node) :
    behaviour eval ctx (.sequence (.sequence a b) c)
      = behaviour eval ctx (.sequence a (.sequence b c)) := by
  simp only [behaviour_sequence hctx, Behaviour.andThen_assoc]

theorem Node.exists_block? {p : List Node} (hp : p ≠ []) : ∃ m, block? p = some m := by
  cases p with
  | nil => exact absurd rfl hp
  | cons a p =>
    rw [block?]
    rcases block? p with - | m
    · exact ⟨a, rfl⟩
    · exact ⟨sequence a m, rfl⟩

/-- The statements of two blocks, as one block, do what the blocks do, one after the other. -/
theorem behaviour_block?_append (hctx : ctx.Quiet) {p q : List Node} {m n : Node}
    (hp : Node.block? p = some m) (hq : Node.block? q = some n) :
    ∃ k, Node.block? (p ++ q) = some k
      ∧ behaviour eval ctx k = (behaviour eval ctx m).andThen (behaviour eval ctx n) := by
  induction p generalizing m with
  | nil => cases hp
  | cons a p ih =>
    rw [List.cons_append, Node.block?]
    rw [Node.block?] at hp
    rcases hrest : Node.block? p with - | m'
    · rw [hrest] at hp
      cases hp
      -- a single statement in front of the others: its block is the sequence of the two
      have hnil : p = [] := by
        by_contra hne
        obtain ⟨m', hm'⟩ := Node.exists_block? hne
        simp [hrest] at hm'
      rw [hnil, List.nil_append, hq]
      exact ⟨_, rfl, behaviour_sequence hctx a n⟩
    · rw [hrest] at hp
      cases hp
      -- otherwise the first statement stays in front, and the rest is joined
      obtain ⟨k, hk, hbehaviour⟩ := ih hrest
      rw [hk]
      refine ⟨_, rfl, ?_⟩
      rw [behaviour_sequence hctx, behaviour_sequence hctx, hbehaviour, Behaviour.andThen_assoc]

end

/-! ### Bounded stacks -/

/-- The stack is not exhausted in the evaluation of a node, however many steps that takes. -/
def Eval.Fits (ctx : Context) (n : Node) (env : Env) : Prop :=
  ∀ fuel stack, ¬ Exhausts fuel ⟨ctx, n, ⟨env, []⟩⟩ stack

section
variable {ctx : Context} {n : Node} {env : Env}

/-- Where the stack is not exhausted, its bound does not matter. -/
theorem Eval.Fits.eval_unbounded (h : Fits ctx n env) (fuel : Nat) :
    eval fuel ctx.unbounded n ⟨env, []⟩ = eval fuel ctx n ⟨env, []⟩ :=
  answer_unbounded (p := ⟨ctx, n, ⟨env, []⟩⟩) (h fuel)

/-- Where the stack is not exhausted, its bound makes no difference. -/
theorem Eval.Fits.behaviour_eq (h : Fits ctx n env) :
    behaviour eval ctx n env = behaviour eval ctx.unbounded n env := by
  unfold behaviour
  simp only [h.eval_unbounded]

/-- On a stack without bound everything fits. -/
theorem Eval.fits_of_room (hroom : ctx.room = none) (n : Node) (env : Env) : Fits ctx n env := by
  intro fuel stack h
  have hroom' : ctx.room = some stack.length := h.room_eq
  rw [hroom] at hroom'
  cases hroom'

/-- A tree in which nothing is called. -/
def Node.CallFree (n : Node) : Prop := ∀ m ∈ n.nodes, m.kind ≠ .call

instance (n : Node) : Decidable n.CallFree :=
  inferInstanceAs (Decidable (∀ m ∈ n.nodes, m.kind ≠ .call))

theorem Node.hereditary_callFree : Hereditary CallFree := by
  intro n c slot hn h m hm
  exact hn m (nodes_subset_of_child? h hm)

theorem Node.length_nodes_le_of_mem {children : List (Slot × Node)} {slot : Slot} {c : Node}
    (h : (slot, c) ∈ children) : c.nodes.length ≤ (nodesOfChildren children).length := by
  induction children with
  | nil => cases h
  | cons child rest ih =>
    rw [nodesOfChildren, List.length_append]
    rcases List.mem_cons.mp h with rfl | h
    · exact Nat.le_add_right _ _
    · exact Nat.le_trans (ih h) (Nat.le_add_left _ _)

/-- What stands below a node has fewer nodes. -/
theorem Node.Below.length_nodes_lt {n m : Node} (h : n.Below m) :
    m.nodes.length < n.nodes.length := by
  have hchild : ∀ {n m : Node} {slot : Slot}, n.child? slot = some m →
      m.nodes.length < n.nodes.length := by
    rintro ⟨kind, properties, children⟩ m slot h
    exact Nat.lt_succ_of_le (length_nodes_le_of_mem (mem_children_of_child? h))
  induction h with
  | single h =>
    obtain ⟨slot, h⟩ := h
    exact hchild h
  | tail _ h ih =>
    obtain ⟨slot, h⟩ := h
    exact Nat.lt_trans (hchild h) ih

/-- Without calls, the evaluations in progress are of nodes one below the other. -/
theorem Eval.Exhausts.length_lt {fuel : Nat} {p : Point} {stack : List Point}
    (h : Exhausts fuel p stack) (hp : p.node.CallFree) :
    stack.length < p.node.nodes.length := by
  induction h with
  | @here _ p => exact List.length_pos_of_mem p.node.self_mem_nodes
  | @inside _ p q stack hq _ ih =>
    obtain ⟨hdepth, -⟩ := depth_of_consults hq
    cases hdepth with
    | part hm _ =>
      have hbelow : p.node.Below q.node := hm.elim Node.Performs.below Part.below
      have hlt := ih (Node.hereditary_callFree.below hp hbelow)
      exact Nat.lt_of_le_of_lt hlt hbelow.length_nodes_lt
    | frame hcall => exact absurd hcall (hp _ p.node.self_mem_nodes)

/-- A stack with room for all nodes of a tree is not exhausted, if nothing is called. -/
theorem Eval.fits_of_callFree (hn : n.CallFree) {room : Nat} (hroom : ctx.room = some room)
    (hlength : n.nodes.length ≤ room) (env : Env) : Fits ctx n env := by
  intro fuel stack h
  have hroom' : ctx.room = some stack.length := h.room_eq
  have hlt : stack.length < n.nodes.length := h.length_lt hn
  rw [hroom] at hroom'
  obtain rfl := Option.some.inj hroom'
  omega

/-- Behaviours that are the same where they are needed compose to the same. -/
theorem Behaviour.andThen_congr {a a' b b' : Behaviour} (ha : a env = a' env)
    (hb : ∀ v mid out, a env v mid out → v.isError = false → b mid = b' mid) :
    a.andThen b env = a'.andThen b' env := by
  unfold Behaviour.andThen
  rw [← ha]
  funext v env' out
  apply propext
  -- only the case in which the second behaviour is reached is at stake
  refine or_congr_right ⟨?_, ?_⟩
  · rintro ⟨w, mid, first, second, h, hw, hsecond, hout⟩
    rw [hb w mid first h hw] at hsecond
    exact ⟨w, mid, first, second, h, hw, hsecond, hout⟩
  · rintro ⟨w, mid, first, second, h, hw, hsecond, hout⟩
    rw [← hb w mid first h hw] at hsecond
    exact ⟨w, mid, first, second, h, hw, hsecond, hout⟩

end

/-! ### Sessions -/

/-- The values that a run puts out. -/
def Run.emitted (r : Run) : List Value := r.events.filterMap Event.emission?

theorem Run.outputs_eq (r : Run) : r.outputs = r.emitted.map Value.display := by
  rw [outputs, emitted, List.map_filterMap]

namespace Interpreter

/-- Evaluate pieces of a program one by one, each in the environment that the piece before has
left. -/
def evaluateAll (settings : Settings) : List (List Node) → Env → Option (List Run)
  | [], _ => some []
  | piece :: rest, env => do
    let n ← Node.block? piece
    let r ← (evaluate settings n env).run?
    let rs ← evaluateAll settings rest r.env
    pure (r :: rs)

variable {settings : Settings} {n : Node} {env : Env}

/-- A run without an error has not exhausted the stack and shows what its node does. -/
theorem behaviour_of_evaluate {r : Run} (h : (evaluate settings n env).run? = some r)
    (hr : r.value.isError = false) :
    behaviour eval (settings.context 0).unbounded n env r.value r.env r.emitted := by
  obtain ⟨t, hdone, henv, hevents⟩ := Outcome.run?_eq_some_iff.mp h
  -- an exhausted stack would have ended the run with an error
  have hfits : ∀ stack, ¬ Exhausts settings.fuel (start settings 0 n env) stack := by
    intro stack hstack
    obtain ⟨fault, s, herror⟩ := exists_error_of_exhausts hstack
    have hsame : Outcome.done r.value t = .done (.error fault) s := hdone.symm.trans herror
    injection hsame with hvalue
    rw [hvalue] at hr
    cases hr
  -- so the bound of the stack may be dropped, and then the guard
  have hguarded : evalGuarded settings.fuel (settings.context 0).unbounded n ⟨env, []⟩
      = .done r.value t := (evaluateAt_unbounded hfits).symm.trans hdone
  have heval : eval settings.fuel (settings.context 0).unbounded n ⟨env, []⟩ = .done r.value t :=
    Outcome.caught_eq_done_of_ne_overflow (fun log => eval_ne_overflow rfl n _ log) hguarded
  refine ⟨t, ⟨settings.fuel, heval⟩, henv, ?_⟩
  rw [emissions, hevents, Run.emitted]

/-- With enough steps and room, an interpreter does what the node does. -/
theorem exists_evaluate_of_behaviour {v : Value} {env' : Env} {out : List Value}
    (hfits : Fits (settings.context 0) n env)
    (h : behaviour eval (settings.context 0).unbounded n env v env' out) :
    ∃ steps, ∀ fuel, steps ≤ fuel →
      ∃ r, (evaluate { settings with fuel := fuel } n env).run? = some r
        ∧ r.value = v ∧ r.env = env' ∧ r.emitted = out := by
  obtain ⟨t, ⟨steps, hsteps⟩, rfl, rfl⟩ := h
  refine ⟨steps, fun fuel hle => ⟨⟨v, t.env, t.log.reverse⟩, ?_, rfl, rfl, rfl⟩⟩
  refine Outcome.run?_eq_some_iff.mpr ⟨t, ?_, rfl, rfl⟩
  -- nothing exhausts the stack, so the bound may be put back
  have heval : eval fuel (settings.context 0) n ⟨env, []⟩ = .done v t := by
    rw [← hfits.eval_unbounded]
    exact eval_eq_of_done hsteps hle
  show (eval fuel (settings.context 0) n ⟨env, []⟩).caught .programTooDeep env = _
  rw [heval]
  rfl

theorem eq_nil_of_evaluateAll {pieces : List (List Node)}
    (h : evaluateAll settings pieces env = some []) : pieces = [] := by
  cases pieces with
  | nil => rfl
  | cons piece rest => simp [evaluateAll, Option.bind_eq_some_iff] at h

/-- A session without errors shows what its pieces do as one block. -/
theorem behaviour_of_evaluateAll (hquiet : settings.tracing = false) {pieces : List (List Node)}
    {runs : List Run} {last : Run} (h : evaluateAll settings pieces env = some runs)
    (hlast : runs.getLast? = some last) (hruns : ∀ r ∈ runs, r.value.isError = false) :
    ∃ n, Node.block? pieces.flatten = some n
      ∧ behaviour eval (settings.context 0).unbounded n env last.value last.env
        (runs.flatMap Run.emitted) := by
  have hctx : (settings.context 0).unbounded.Quiet := ⟨hquiet, rfl⟩
  induction pieces generalizing env runs with
  | nil =>
    cases h
    cases hlast
  | cons piece rest ih =>
    simp only [evaluateAll, Option.bind_eq_bind, Option.bind_eq_some_iff, Option.pure_def] at h
    -- the first piece is run, then the others in the environment it leaves
    obtain ⟨m, hm, r, hr, rs, hrs, heq⟩ := h
    cases heq
    obtain ⟨hvalue, hruns⟩ := List.forall_mem_cons.mp hruns
    have hfirst := behaviour_of_evaluate hr hvalue
    by_cases hlate : rs = []
    · -- this is the last piece
      subst hlate
      obtain rfl := eq_nil_of_evaluateAll hrs
      obtain rfl : r = last := Option.some.inj hlast
      refine ⟨m, ?_, ?_⟩
      · simpa using hm
      · simpa using hfirst
    · rw [List.getLast?_cons_of_ne_nil hlate] at hlast
      obtain ⟨n, hn, hrest⟩ := ih hrs hlast hruns
      obtain ⟨k, hk, hbehaviour⟩ := behaviour_block?_append hctx hm hn
      refine ⟨k, hk, ?_⟩
      rw [hbehaviour]
      exact .inr ⟨r.value, r.env, r.emitted, _, hfirst, hvalue, hrest, List.flatMap_cons⟩

end Interpreter

/-! ### Composition -/

/-- **Blocks compose.** Without a trace, and where the stack is not exhausted: the loop along the
right spine of a block, in a tree of any form, does what the recursion through its two slots does. Two
ways to nest three trees in blocks do the same. The statements of two lists, as one block, do what
the two blocks do, the second one from where the first one ends, unless that is an error. A session
that evaluates pieces one by one without an error ends as their statements do as one block, with the
same value and environment, and with all that the pieces have put out. -/
theorem blocks_compose {ctx : Context} (hctx : ctx.tracing = false) :
    (∀ n env, Fits ctx n env →
      behaviour eval ctx n env = behaviour evalRecursive ctx.unbounded n env)
    ∧ (∀ a b c env, Fits ctx (.sequence (.sequence a b) c) env →
      Fits ctx (.sequence a (.sequence b c)) env →
      behaviour eval ctx (.sequence (.sequence a b) c) env
        = behaviour eval ctx (.sequence a (.sequence b c)) env)
    ∧ (∀ p q, p ≠ [] → q ≠ [] → ∃ m n k, Node.block? p = some m ∧ Node.block? q = some n
      ∧ Node.block? (p ++ q) = some k
      ∧ ∀ env, Fits ctx k env → Fits ctx m env →
        (∀ v mid out, behaviour eval ctx m env v mid out → v.isError = false → Fits ctx n mid) →
        behaviour eval ctx k env = (behaviour eval ctx m).andThen (behaviour eval ctx n) env)
    ∧ ∀ settings pieces env runs last, settings.context 0 = ctx →
      Interpreter.evaluateAll settings pieces env = some runs → runs.getLast? = some last →
      (∀ r ∈ runs, r.value.isError = false) →
      ∃ n, Node.block? pieces.flatten = some n
        ∧ (Fits ctx n env → ∃ steps, ∀ fuel, steps ≤ fuel →
          ∃ r, (Interpreter.evaluate { settings with fuel := fuel } n env).run? = some r
            ∧ r.value = last.value ∧ r.env = last.env ∧ r.outputs = runs.flatMap Run.outputs) := by
  have hquiet : ctx.unbounded.Quiet := ⟨hctx, rfl⟩
  refine ⟨?_, ?_, ?_, ?_⟩
  · intro n env hn
    rw [hn.behaviour_eq, behaviour_evalRecursive hquiet]
  · intro a b c env hleft hright
    rw [hleft.behaviour_eq, hright.behaviour_eq, behaviour_sequence_assoc hquiet]
  · intro p q hp hq
    obtain ⟨m, hm⟩ := Node.exists_block? hp
    obtain ⟨n, hn⟩ := Node.exists_block? hq
    obtain ⟨k, hk, hbehaviour⟩ := behaviour_block?_append hquiet hm hn
    refine ⟨m, n, k, hm, hn, hk, ?_⟩
    intro env hfits hfirst hsecond
    rw [hfits.behaviour_eq, hbehaviour]
    symm
    apply Behaviour.andThen_congr hfirst.behaviour_eq
    intro v mid out h hv
    exact (hsecond v mid out h hv).behaviour_eq
  · rintro settings pieces env runs last rfl hruns hlast herrors
    obtain ⟨n, hn, h⟩ := Interpreter.behaviour_of_evaluateAll hctx hruns hlast herrors
    refine ⟨n, hn, ?_⟩
    intro hfits
    obtain ⟨steps, hsteps⟩ := Interpreter.exists_evaluate_of_behaviour hfits h
    refine ⟨steps, ?_⟩
    intro fuel hle
    obtain ⟨r, hr, hvalue, henv, hout⟩ := hsteps fuel hle
    refine ⟨r, hr, hvalue, henv, ?_⟩
    -- the values that are put out are displayed piece by piece
    calc r.outputs
      _ = (runs.flatMap Run.emitted).map Value.display := by rw [Run.outputs_eq, hout]
      _ = runs.flatMap fun r => r.emitted.map Value.display := List.map_flatMap
      _ = runs.flatMap Run.outputs := by rw [funext Run.outputs_eq]

/-- Settings with steps enough for short programs, without a trace, and with a stack without bound. -/
def plainSettings : Settings := { limit := 50, tracing := false, room := none, fuel := 9 }

/-- Two pieces: the first one sets `x` and puts it out twice, the second one puts out what `x`
is not. -/
def twoPieces : List (List Node) :=
  [[.assignment "x" false (.boolean "True"), .output (.reference "x"), .output (.reference "x")],
    [.output (.unary "NOT" (.reference "x"))]]

theorem blocks_compose_two_pieces :
    ∃ n, Node.block? twoPieces.flatten = some n
      ∧ ∃ steps, ∀ fuel, steps ≤ fuel →
        ∃ r, (Interpreter.evaluate { plainSettings with fuel := fuel } n ∅).run? = some r
          ∧ r.value = .bool false ∧ r.outputs = ["True", "True", "False"] := by
  obtain ⟨first, last, hruns, hvalue, herrors, hout⟩ : ∃ first last,
      Interpreter.evaluateAll plainSettings twoPieces ∅ = some [first, last]
        ∧ last.value = .bool false
        ∧ (∀ r ∈ [first, last], r.value.isError = false)
        ∧ [first, last].flatMap Run.outputs = ["True", "True", "False"] :=
    ⟨_, _, rfl, rfl, by decide, by decide⟩
  -- both runs are computed; the theorem is about their join
  have hctx : (plainSettings.context 0).tracing = false := rfl
  obtain ⟨n, hn, h⟩ :=
    (blocks_compose hctx).2.2.2 plainSettings twoPieces ∅ [first, last] last rfl hruns rfl herrors
  obtain ⟨steps, hsteps⟩ := h (fits_of_room rfl n ∅)
  refine ⟨n, hn, steps, ?_⟩
  intro fuel hle
  obtain ⟨r, hr, hvalue', -, hout'⟩ := hsteps fuel hle
  exact ⟨r, hr, hvalue'.trans hvalue, hout'.trans hout⟩

end Pseudocode
