import Pseudocode.Proofs.Acts.Basic

/-!
The moments of an evaluation.

`moments` lists what happens in an evaluation, in order: nodes are started, nodes are completed with
a value, and values are put out. A start and a completion come with their point, and a completion
with the environment that is left, so the list says more than the log, in which a node is only its
kind. A node that exhausts the stack is not completed.

Design. The list is made of the acts of plans, each part being replaced by its own moments. What is
true of the acts of one plan is so carried to whole evaluations by induction on the steps.

Main results: the log records the moments (`landmarks_of_eval`), and a node that ends without an
error leaves no node open (`opened_moments`).
-/

namespace Pseudocode

open Eval

/-- Something that happens in an evaluation. -/
inductive Eval.Moment where
  | started (p : Point)
  /-- A node is completed with a value and leaves an environment. -/
  | completed (p : Point) (v : Value) (env : Env)
  | emitted (v : Value)

/-- The moments of an act, given those of the parts. -/
def Act.moments (inside : Point → List Moment) : Act → List Moment
  | .part q _ => inside q
  | .emission v => [.emitted v]
  | .exhausted => []

namespace Eval

/-- The completion of the node at a point, if it is completed. -/
def Point.completion (p : Point) : Outcome → List Moment
  | .done v s => [.completed p v s.env]
  | _ => []

/-- The state in which the rule of the node at a point begins. -/
def Point.entry (p : Point) : State := p.state.note p.ctx (.started p.node.kind)

/-- What the rule of the node at a point does, in the context for its parts. -/
def Point.acts (fuel : Nat) (inner : Context) (p : Point) : List Act :=
  (Plan.ofNode fuel p.node).acts (eval fuel) inner p.entry

/-- What happens in the evaluation at a point, in order. -/
def moments : Nat → Point → List Moment
  | 0, _ => []
  | fuel + 1, p =>
    match p.ctx.descend? with
    | none => []
    | some inner =>
      .started p :: ((p.acts fuel inner).flatMap (Act.moments (moments fuel))
        ++ p.completion (p.answer (eval (fuel + 1))))

variable {fuel : Nat} {p : Point} {inner : Context}

/-- Where the stack has no room for a node, nothing happens in its evaluation. -/
theorem moments_of_no_room (h : p.ctx.descend? = none) : moments fuel p = [] := by
  cases fuel with
  | zero => rfl
  | succ fuel => simp only [moments, h]

/-- Otherwise the node is started, its acts follow in order, and its completion comes last, if there
is one. -/
theorem moments_of_descend (h : p.ctx.descend? = some inner) :
    moments (fuel + 1) p
      = .started p :: ((p.acts fuel inner).flatMap (Act.moments (moments fuel))
          ++ p.completion (p.answer (eval (fuel + 1)))) := by
  simp only [moments, h]

/-- Where the stack has no room for a node, its evaluation ends in an overflow with the log
unchanged. -/
theorem Point.answer_of_no_room (h : p.ctx.descend? = none) :
    p.answer (eval (fuel + 1)) = .overflow p.state.log :=
  eval_of_no_room h

/-- Otherwise the evaluation is that of the plan of the node, in the context for its parts, with a
record of the completion. -/
theorem Point.answer_of_descend (h : p.ctx.descend? = some inner) :
    p.answer (eval (fuel + 1))
      = ((Plan.ofNode fuel p.node).run (eval fuel) inner p.entry).noted p.ctx .completed :=
  eval_of_descend h

theorem Point.started_notMem_completion (p q : Point) (o : Outcome) :
    .started q ∉ p.completion o := by
  rcases o with ⟨v, s⟩ | log | - <;> simp [completion]

/-- The rule of the node at the first point has the node at the second one evaluated. -/
def Consults (fuel : Nat) (p q : Point) : Prop :=
  ∃ inner exit, p.ctx.descend? = some inner ∧ .part q exit ∈ p.acts fuel inner

/-- What is started in an evaluation is the node itself, or is started inside something that its
rule has evaluated. -/
theorem eq_or_consults_of_started {q : Point} (h : .started q ∈ moments (fuel + 1) p) :
    q = p ∨ ∃ r, Consults fuel p r ∧ .started q ∈ moments fuel r := by
  rcases hroom : p.ctx.descend? with - | inner
  · rw [moments_of_no_room hroom] at h
    cases h
  rw [moments_of_descend hroom] at h
  obtain h | h := List.mem_cons.mp h
  · cases h
    exact .inl rfl
  obtain h | h := List.mem_append.mp h
  · obtain ⟨a, ha, h⟩ := List.mem_flatMap.mp h
    -- of the acts only a part starts nodes
    rcases a with ⟨r, exit⟩ | v | -
    · exact .inr ⟨r, ⟨inner, exit, hroom, ha⟩, h⟩
    · cases List.mem_singleton.mp h
    · cases h
  · exact absurd h (p.started_notMem_completion q _)

@[simp] theorem Point.env_entry (p : Point) : p.entry.env = p.state.env := State.env_note ..

end Eval

/-- The context for the parts differs from that of the node in its room only. -/
theorem Context.eq_of_descend? {ctx inner : Context} (h : ctx.descend? = some inner) :
    ∃ room, inner = { ctx with room := room } := by
  unfold Context.descend? at h
  split at h
  · obtain rfl := Option.some.inj h
    exact ⟨ctx.room, rfl⟩
  · cases h
  · rename_i r _
    obtain rfl := Option.some.inj h
    exact ⟨some r, rfl⟩

/-! ### Moments and the log -/

/-- The log, if the evaluation ends or exhausts the stack. -/
def Outcome.log? : Outcome → Option (List Event)
  | .done _ s => some s.log
  | .overflow log => some log
  | .unfinished => none

/-- The events of a log that belong to moments. -/
def landmarks (log : List Event) : List Event := log.filter fun e => !e.isRemark

/-- The event of a moment. -/
def Eval.Moment.event : Moment → Event
  | started p => .started p.node.kind
  | completed _ v _ => .completed v
  | emitted v => .emitted v

/-- What a log keeps of moments: all of them if tracing, and the emissions in any case. -/
def recorded (tracing : Bool) (ms : List Moment) : List Event :=
  (ms.map Moment.event).filter fun e => tracing || e.emission?.isSome

theorem recorded_append (tracing : Bool) (ms ms' : List Moment) :
    recorded tracing (ms ++ ms') = recorded tracing ms ++ recorded tracing ms' := by
  simp [recorded]

/-- Events that are mere remarks are no landmarks. -/
theorem landmarks_note_remark {e : Event} (h : e.isRemark = true) (ctx : Context) (s : State) :
    landmarks (s.note ctx e).log = landmarks s.log := by
  unfold State.note
  split
  · simp [landmarks, h]
  · rfl

/-- An emission is the next landmark of the log, with or without tracing. -/
theorem landmarks_emit (s : State) (v : Value) (tracing : Bool) :
    landmarks (s.emit v).log = (recorded tracing [.emitted v]).reverse ++ landmarks s.log := by
  simp [landmarks, recorded, Moment.event, Event.emission?, State.emit, Event.isRemark]

/-- The start of a node is the next landmark of the log if the node is traced. -/
theorem landmarks_note_started (p : Point) :
    landmarks p.entry.log = (recorded p.ctx.tracing [.started p]).reverse ++ landmarks p.state.log := by
  unfold Point.entry State.note
  rcases p.ctx.tracing with - | - <;>
    simp [landmarks, recorded, Moment.event, Event.emission?, Event.isRemark]

/-- Likewise its completion, whatever environment the node leaves. -/
theorem landmarks_note_completed (p : Point) (v : Value) (env : Env) (s : State) :
    landmarks (s.note p.ctx (.completed v)).log
      = (recorded p.ctx.tracing [.completed p v env]).reverse ++ landmarks s.log := by
  unfold State.note
  rcases p.ctx.tracing with - | - <;>
    simp [landmarks, recorded, Moment.event, Event.emission?, Event.isRemark]

@[simp] theorem Outcome.log?_mapEnv (o : Outcome) (g : Env → Env) : (o.mapEnv g).log? = o.log? := by
  rcases o with ⟨v, s⟩ | log | - <;> rfl

@[simp] theorem Outcome.log?_caught (o : Outcome) (fault : Fault) (env : Env) :
    (o.caught fault env).log? = o.log? := by
  rcases o with ⟨v, s⟩ | log | - <;> rfl

/-- What does not go on has its own log. -/
theorem Outcome.log?_andThen_of_not_succeeds {o : Outcome} (h : ¬ o.Succeeds)
    (k : Value → State → Outcome) : (o.andThen k).log? = o.log? := by
  rcases o with ⟨v, s⟩ | log | -
  · rcases hv : v.isError with - | -
    · exact absurd ⟨v, s, rfl, hv⟩ h
    · simp [andThen, hv]
  · rfl
  · rfl

/-- What is done to the environment after a part adds nothing to the moments. -/
theorem Act.moments_leaving (inside : Point → List Moment) (leave : Env → Env) (a : Act) :
    (a.leaving leave).moments inside = a.moments inside := by
  rcases a with ⟨q, exit⟩ | v | - <;> rfl

/-- The log of the evaluation at a point records certain moments. -/
def Eval.Point.Records (p : Point) (ms : List Moment) (o : Outcome) : Prop :=
  ∀ log, o.log? = some log →
    landmarks log = (recorded p.ctx.tracing ms).reverse ++ landmarks p.state.log

/-- A plan records the moments of its acts if the evaluations of its parts do so. -/
theorem Plan.landmarks_run {ev : Evaluator} {inside : Point → List Moment}
    (hev : ∀ q : Point, q.Records (inside q) (q.answer ev)) {plan : Plan} {ctx : Context}
    {s : State} {log : List Event} (h : (plan.run ev ctx s).log? = some log) :
    landmarks log
      = (recorded ctx.tracing ((plan.acts ev ctx s).flatMap (Act.moments inside))).reverse
        ++ landmarks s.log := by
  -- induction on the plan: each step adds to the log what its act adds to the moments
  induction plan generalizing ctx s log with
  | finish v =>
    obtain rfl := Option.some.inj h
    rfl
  | unfinished => cases h
  | look k ih => exact ih s.env h
  | note e remark next ih =>
    rw [ih h, landmarks_note_remark remark]
    rfl
  | emit v next ih =>
    rw [ih h, landmarks_emit s v ctx.tracing, acts_emit, List.flatMap_cons, recorded_append,
      List.reverse_append, List.append_assoc]
    rfl
  | bind name b next ih => exact ih h
  | ask effects m k ih =>
    have hpart := hev ⟨ctx, m, s⟩
    rw [acts_ask, List.flatMap_cons, recorded_append, List.reverse_append, List.append_assoc]
    rw [run_ask] at h
    -- the plan goes on only if the part succeeds; else the log of the part is the whole log
    by_cases hgo : ((ev ctx m s).mapEnv (effects.after s.env)).Succeeds
    · obtain ⟨v, t, ho, hv⟩ := hgo
      obtain ⟨u, hu, rfl⟩ := Outcome.mapEnv_eq_done_iff.mp ho
      rw [ho, Outcome.andThen_done_of_not_isError hv] at h
      have hmid := hpart u.log (by rw [Point.answer, hu]; rfl)
      rw [ih v h, ho, Outcome.onward_done_of_not_isError hv]
      exact congrArg _ hmid
    · rw [Outcome.log?_andThen_of_not_succeeds hgo, Outcome.log?_mapEnv] at h
      rw [Outcome.onward_eq_nil hgo]
      exact hpart log h
  | askReturn name m =>
    rcases ho : ev ctx m s with ⟨v, t⟩ | log' | -
    all_goals rw [run_askReturn, ho] at h
    · obtain rfl := Option.some.inj h
      rw [landmarks_note_remark rfl, hev ⟨ctx, m, s⟩ t.log (by rw [Point.answer, ho]; rfl)]
      simp [acts_askReturn, Act.moments]
    · obtain rfl := Option.some.inj h
      rw [hev ⟨ctx, m, s⟩ log' (by rw [Point.answer, ho]; rfl)]
      simp [acts_askReturn, Act.moments]
    · cases h
  | guarded name inner ih =>
    by_cases hdepth : ctx.limit ≤ ctx.depth
    · rw [run_guarded_of_le _ _ hdepth] at h
      rw [acts_guarded_of_le _ _ hdepth]
      obtain rfl := Option.some.inj h
      rfl
    · rw [run_guarded_of_not_le _ _ hdepth, Outcome.log?_caught] at h
      rw [acts_guarded_of_not_le _ _ hdepth]
      exact ih h
  | framed name params vs inner ih =>
    rw [run_framed, Outcome.log?_mapEnv] at h
    rw [ih h, landmarks_note_remark rfl, acts_framed, List.flatMap_map]
    simp only [Act.moments_leaving, Context.inCall]

/-- The log of an evaluation records its moments. -/
theorem landmarks_of_eval (fuel : Nat) (p : Point) :
    p.Records (moments fuel p) (p.answer (eval fuel)) := by
  induction fuel generalizing p with
  | zero => exact nofun
  | succ fuel ih =>
    intro log h
    rcases hroom : p.ctx.descend? with - | inner
    · rw [Point.answer_of_no_room hroom] at h
      obtain rfl := Option.some.inj h
      rw [moments_of_no_room hroom]
      rfl
    have htracing : inner.tracing = p.ctx.tracing := by
      obtain ⟨room, rfl⟩ := Context.eq_of_descend? hroom
      rfl
    have hrun : ∀ log', ((Plan.ofNode fuel p.node).run (eval fuel) inner p.entry).log? = some log' →
        landmarks log'
          = (recorded p.ctx.tracing
              (.started p :: (p.acts fuel inner).flatMap (Act.moments (moments fuel)))).reverse
            ++ landmarks p.state.log := by
      intro log' hlog'
      rw [Plan.landmarks_run ih hlog', htracing, landmarks_note_started, ← List.append_assoc,
        ← List.reverse_append, ← recorded_append]
      rfl
    rw [moments_of_descend hroom, ← List.cons_append, recorded_append, List.reverse_append,
      List.append_assoc]
    rw [Point.answer_of_descend hroom] at h ⊢
    -- only a node that is done is completed; an overflow leaves it open
    rcases ho : (Plan.ofNode fuel p.node).run (eval fuel) inner p.entry with ⟨v, t⟩ | log' | -
    all_goals rw [ho] at h
    · obtain rfl := Option.some.inj h
      rw [landmarks_note_completed p v (t.note p.ctx (.completed v)).env t,
        hrun t.log (by rw [ho]; rfl)]
      rfl
    · obtain rfl := Option.some.inj h
      exact hrun log' (by rw [ho]; rfl)
    · cases h

/-! ### Open nodes -/

namespace Eval

/-- The nodes that are open after some moments, the innermost first, from those open before. -/
def opened : List Point → List Moment → List Point
  | stack, [] => stack
  | stack, .started p :: ms => opened (p :: stack) ms
  | stack, .completed _ _ _ :: ms => opened stack.tail ms
  | stack, .emitted _ :: ms => opened stack ms

theorem opened_append (stack : List Point) (ms ms' : List Moment) :
    opened stack (ms ++ ms') = opened (opened stack ms) ms' := by
  induction ms generalizing stack with
  | nil => rfl
  | cons m ms ih => rcases m with p | ⟨p, v, env⟩ | v <;> exact ih _

/-- Acts that all succeed open and close the same nodes, if each part that succeeds does. -/
theorem opened_flatMap {inside : Point → List Moment} {ev : Evaluator} {as : List Act}
    (hinside : ∀ q stack, (Point.answer q ev).Succeeds → opened stack (inside q) = stack)
    (has : ∀ a ∈ as, a.Succeeds ev) (stack : List Point) :
    opened stack (as.flatMap (Act.moments inside)) = stack := by
  induction as with
  | nil => rfl
  | cons a as ih =>
    obtain ⟨ha, htail⟩ := List.forall_mem_cons.mp has
    rw [List.flatMap_cons, opened_append]
    rcases a with ⟨q, exit⟩ | v | -
    · rw [Act.moments, hinside q stack ha]
      exact ih htail
    · exact ih htail
    · exact ha.elim

/-- An evaluation that succeeds leaves no node open. -/
theorem opened_moments {fuel : Nat} {p : Point} (stack : List Point)
    (h : (p.answer (eval fuel)).Succeeds) : opened stack (moments fuel p) = stack := by
  induction fuel generalizing p stack with
  | zero =>
    obtain ⟨v, s, hdone, -⟩ := h
    cases hdone
  | succ fuel ih =>
    rcases hroom : p.ctx.descend? with - | inner
    · rw [moments_of_no_room hroom]
      rfl
    have hrun : ((Plan.ofNode fuel p.node).run (eval fuel) inner p.entry).Succeeds := by
      rwa [Point.answer_of_descend hroom, Outcome.succeeds_noted_iff] at h
    -- a plan that succeeds has only acts that do
    have hacts := Plan.settled_acts.all_succeed hrun
    obtain ⟨v, s, hdone, -⟩ := h
    have hparts : opened (p :: stack) ((p.acts fuel inner).flatMap (Act.moments (moments fuel)))
        = p :: stack := opened_flatMap (fun q stack hq => ih stack hq) hacts _
    rw [moments_of_descend hroom, hdone, opened, opened_append, hparts]
    rfl

end Eval

end Pseudocode
