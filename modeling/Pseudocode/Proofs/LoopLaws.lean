import Pseudocode.Proofs.Tracing

/-!
Laws of loops.

What a loop does is said by what its condition and its body do, round after round: `WhileRuns` and
`RepeatRuns` collect the values of the rounds and the error that ends them, if one does. A loop that
tests first is the conditional statement with one round of it and then the loop again. A loop that
tests last is one round of its body and then a loop that tests first for the opposite.

Design. The laws compare behaviours, that is, ends with some number of steps. So the loop of the
evaluator is compared with the rounds once for each of the two forms (`behaviour_while_iff`,
`behaviour_repeat_iff`), by induction on its rounds, and the laws are about rounds. The two sides of
a law differ in the error that tells that a condition is no truth value, and a loop that never runs
its body has another value than its last round: `EndsLike` says how far the ends agree.

Main result: `loop_laws`.
-/

namespace Pseudocode

open Eval

/-! ### Tests -/

/-- The error of a statement whose condition has the value, unless that is a truth value. -/
def Value.testFault? (statement : String) : Value → Option Fault
  | .bool _ => none
  | .error fault => some fault
  | v => some (.conditionNotBoolean statement v.typeName)

/-- A test ends with the error of its condition, or goes on with a truth value. -/
theorem Eval.test_eq_done_iff {ev : Evaluator} {ctx : Context} {c : Node} {statement : String}
    {s t : State} {v : Value} {k : Bool → State → Outcome} :
    test ev ctx c statement s k = .done v t
      ↔ (∃ w f, ev ctx c s = .done w t ∧ w.testFault? statement = some f ∧ v = .error f)
        ∨ ∃ b u, ev ctx c s = .done (.bool b) u ∧ k b u = .done v t := by
  unfold test
  rcases ev ctx c s with ⟨w, u⟩ | log | -
  · rcases w with x | b | text | - | fault
    case bool =>
      constructor
      · intro h
        exact .inr ⟨b, u, rfl, h⟩
      · rintro (⟨w, f, hw, hf, -⟩ | ⟨b', u', hw, h⟩)
        · cases hw
          cases hf
        · cases hw
          exact h
    -- the other values are the end of the test
    all_goals
      constructor
      · intro h
        cases h
        exact .inl ⟨_, _, rfl, rfl, rfl⟩
      · rintro (⟨w, f, hw, hf, rfl⟩ | ⟨b, u', hw, -⟩)
        · cases hw
          cases hf
          rfl
        · cases hw
  · simp
  · simp

/-! ### Rounds -/

/-- The end of a loop: the error that ends it, or the value of its last round. -/
def Eval.loopValue? (vs : List Value) : Option Fault → Option Value
  | none => vs.getLast?
  | some fault => some (.error fault)

/-- The value of a first round is the value of the loop only if what follows has none. -/
theorem Eval.loopValue?_cons (x : Value) (vs : List Value) (f : Option Fault) :
    loopValue? (x :: vs) f = some ((loopValue? vs f).getD x) := by
  cases f with
  | none => exact List.getLast?_cons
  | some fault => rfl

section
variable (c b : Behaviour)

/-- The rounds of a loop that tests first: from an environment, with the values of the rounds and
the error at the end, to an environment and what has been put out. -/
inductive WhileRuns : Env → List Value → Option Fault → Env → List Value → Prop
  | stop {env env' out} : c env (.bool false) env' out → WhileRuns env [] none env' out
  | testFails {env v fault env' out} : c env v env' out → v.testFault? "WHILE" = some fault →
      WhileRuns env [] (some fault) env' out
  | bodyFails {env mid fault env' first second} : c env (.bool true) mid first →
      b mid (.error fault) env' second → WhileRuns env [] (some fault) env' (first ++ second)
  | round {env mid v mid' vs f env' first second rest} : c env (.bool true) mid first →
      b mid v mid' second → v.isError = false → WhileRuns mid' vs f env' rest →
      WhileRuns env (v :: vs) f env' (first ++ (second ++ rest))

/-- The rounds of a loop that tests last. -/
inductive RepeatRuns : Env → List Value → Option Fault → Env → List Value → Prop
  | bodyFails {env fault env' out} : b env (.error fault) env' out →
      RepeatRuns env [] (some fault) env' out
  | stop {env v mid env' first second} : b env v mid first → v.isError = false →
      c mid (.bool true) env' second → RepeatRuns env [v] none env' (first ++ second)
  | testFails {env v mid w fault env' first second} : b env v mid first → v.isError = false →
      c mid w env' second → w.testFault? "UNTIL" = some fault →
      RepeatRuns env [v] (some fault) env' (first ++ second)
  | round {env v mid mid' vs f env' first second rest} : b env v mid first → v.isError = false →
      c mid (.bool false) mid' second → RepeatRuns mid' vs f env' rest →
      RepeatRuns env (v :: vs) f env' (first ++ (second ++ rest))

end

section
variable {c b : Behaviour} {env env' : Env} {vs out : List Value} {f : Option Fault}

/-- Errors are no values of rounds. -/
theorem WhileRuns.not_isError (h : WhileRuns c b env vs f env' out) :
    ∀ v ∈ vs, v.isError = false := by
  induction h with
  | stop => exact nofun
  | testFails => exact nofun
  | bodyFails => exact nofun
  | round _ _ hv _ ih => exact List.forall_mem_cons.mpr ⟨hv, ih⟩

theorem RepeatRuns.not_isError (h : RepeatRuns c b env vs f env' out) :
    ∀ v ∈ vs, v.isError = false := by
  induction h with
  | bodyFails => exact nofun
  | stop _ hv _ => exact List.forall_mem_singleton.mpr hv
  | testFails _ hv _ _ => exact List.forall_mem_singleton.mpr hv
  | round _ hv _ _ ih => exact List.forall_mem_cons.mpr ⟨hv, ih⟩

/-- A loop that tests last always has a value. -/
theorem RepeatRuns.exists_loopValue? (h : RepeatRuns c b env vs f env' out) :
    ∃ v, loopValue? vs f = some v := by
  cases h with
  | bodyFails => exact ⟨_, rfl⟩
  | stop => exact ⟨_, rfl⟩
  | testFails => exact ⟨_, rfl⟩
  | round => exact ⟨_, loopValue?_cons ..⟩

/-- Without an error at its end, a loop has the value of a round, or no value. -/
theorem Eval.not_isError_of_loopValue? {v : Value} (hvs : ∀ v ∈ vs, v.isError = false)
    (h : loopValue? vs none = some v) : v.isError = false :=
  hvs v (List.mem_of_getLast? h)

end

/-! ### Loops and rounds -/

section
variable {ctx : Context} {c b : Node} {s t : State} {v : Value}

/-- An ended run of a loop that tests first is a sequence of rounds; the value it was entered with
is its value if no round ends. -/
theorem whileRuns_of_whileLoop (hctx : ctx.Quiet) {fuel rounds count : Nat} {value : Value}
    (h : whileLoop (eval fuel) ctx c b rounds count value s = .done v t) :
    ∃ vs f out, WhileRuns (behaviour eval ctx c) (behaviour eval ctx b) s.env vs f t.env out
      ∧ v = (loopValue? vs f).getD value ∧ emissions t.log = emissions s.log ++ out := by
  -- one case for each way the first round can end, in the order in which the evaluator meets them
  induction rounds generalizing count value s with
  | zero => cases h
  | succ rounds ih =>
    rw [whileLoop, test_eq_done_iff] at h
    obtain ⟨w, f, hc, hf, rfl⟩ | ⟨truth, u, hc, h⟩ := h
    · obtain ⟨out, hc, hout⟩ := behaviour_of_eval hc
      exact ⟨[], some f, out, .testFails hc hf, rfl, hout⟩
    obtain ⟨first, hc, hfirst⟩ := behaviour_of_eval hc
    rcases truth with - | -
    · cases h
      exact ⟨[], none, first, .stop hc, rfl, hfirst⟩
    · rw [if_pos rfl, hctx.note, Outcome.andThen_eq_done_iff] at h
      obtain ⟨hb, hv⟩ | ⟨x, y, hb, hx, h⟩ := h
      · obtain ⟨fault, rfl⟩ := Value.isError_iff.mp hv
        obtain ⟨second, hb, hsecond⟩ := behaviour_of_eval hb
        refine ⟨[], some fault, first ++ second, .bodyFails hc hb, rfl, ?_⟩
        rw [hsecond, hfirst, List.append_assoc]
      · obtain ⟨second, hb, hsecond⟩ := behaviour_of_eval hb
        obtain ⟨vs, f, rest, hruns, hv, hrest⟩ := ih h
        -- the emissions of the condition, of the body and of the later rounds are concatenated
        refine ⟨x :: vs, f, first ++ (second ++ rest), .round hc hb hx hruns, ?_, ?_⟩
        · rw [loopValue?_cons, hv]
          rfl
        · rw [hrest, hsecond, hfirst, List.append_assoc, List.append_assoc]

/-- Conversely, a sequence of rounds is run by the loop whenever it has steps enough, whatever the
count and the value it is entered with. -/
theorem whileLoop_of_whileRuns (hctx : ctx.Quiet) {env env' : Env} {vs out : List Value}
    {f : Option Fault}
    (h : WhileRuns (behaviour eval ctx c) (behaviour eval ctx b) env vs f env' out)
    (count : Nat) (value : Value) (hs : s.env = env) :
    ∃ t steps, (∀ fuel rounds, steps ≤ fuel → steps ≤ rounds →
        whileLoop (eval fuel) ctx c b rounds count value s
          = .done ((loopValue? vs f).getD value) t)
      ∧ t.env = env' ∧ emissions t.log = emissions s.log ++ out := by
  induction h generalizing s count value with
  -- each part brings its own number of steps; the loop needs the greatest of them and one more
  | stop hc =>
    obtain ⟨t, steps, hc, henv, hout⟩ := eval_of_behaviour hc hs
    refine ⟨t, steps + 1, ?_, henv, hout⟩
    rintro fuel (- | rounds) hfuel hrounds
    · omega
    · exact test_eq_done_iff.mpr (.inr ⟨false, t, hc fuel (by omega), rfl⟩)
  | testFails hc hfault =>
    obtain ⟨t, steps, hc, henv, hout⟩ := eval_of_behaviour hc hs
    refine ⟨t, steps + 1, ?_, henv, hout⟩
    rintro fuel (- | rounds) hfuel hrounds
    · omega
    · exact test_eq_done_iff.mpr (.inl ⟨_, _, hc fuel (by omega), hfault, rfl⟩)
  | bodyFails hc hb =>
    obtain ⟨u, steps, hc, hmid, hfirst⟩ := eval_of_behaviour hc hs
    obtain ⟨t, steps', hb, henv, hsecond⟩ := eval_of_behaviour hb hmid
    refine ⟨t, max steps steps' + 1, ?_, henv, ?_⟩
    · rintro fuel (- | rounds) hfuel hrounds
      · omega
      · refine test_eq_done_iff.mpr (.inr ⟨true, u, hc fuel (by omega), ?_⟩)
        rw [if_pos rfl, hctx.note, hb fuel (by omega)]
        rfl
    · rw [hsecond, hfirst, List.append_assoc]
  | @round _ _ x _ vs f _ _ _ _ hc hb hx _ ih =>
    obtain ⟨u, steps, hc, hmid, hfirst⟩ := eval_of_behaviour hc hs
    obtain ⟨y, steps', hb, hmid', hsecond⟩ := eval_of_behaviour hb hmid
    -- the later rounds are entered with the value of this one
    obtain ⟨t, steps'', hrest, henv, hout⟩ := ih (count + 1) x hmid'
    refine ⟨t, max steps (max steps' steps'') + 1, ?_, henv, ?_⟩
    · rintro fuel (- | rounds) hfuel hrounds
      · omega
      · refine test_eq_done_iff.mpr (.inr ⟨true, u, hc fuel (by omega), ?_⟩)
        rw [if_pos rfl, hctx.note, hb fuel (by omega), Outcome.andThen_done_of_not_isError hx,
          hrest fuel rounds (by omega) (by omega), loopValue?_cons]
        rfl
    · rw [hout, hsecond, hfirst, List.append_assoc, List.append_assoc]

/-- What a loop that tests first does: its rounds, and the value of the last one, if there is one.
-/
theorem behaviour_while_iff (hctx : ctx.Quiet) {env env' : Env} {out : List Value} :
    behaviour eval ctx (.loop Node.whileStyle c b) env v env' out
      ↔ ∃ vs f, WhileRuns (behaviour eval ctx c) (behaviour eval ctx b) env vs f env' out
        ∧ v = (loopValue? vs f).getD .unit := by
  have hloop : ∀ fuel s, eval (fuel + 1) ctx (.loop Node.whileStyle c b) s
      = whileLoop (eval fuel) ctx c b fuel 0 .unit s := by
    intro fuel s
    rw [hctx.eval_succ]
    rfl
  constructor
  · rintro ⟨t, ⟨- | fuel, h⟩, rfl, rfl⟩
    · cases h
    · rw [hloop] at h
      obtain ⟨vs, f, out, hruns, hv, hout⟩ := whileRuns_of_whileLoop hctx h
      refine ⟨vs, f, ?_, hv⟩
      rw [hout]
      exact hruns
  · rintro ⟨vs, f, hruns, rfl⟩
    obtain ⟨t, steps, hrun, henv, hout⟩ :=
      whileLoop_of_whileRuns hctx hruns (s := ⟨env, []⟩) 0 .unit rfl
    refine ⟨t, ⟨steps + 1, ?_⟩, henv, hout⟩
    rw [hloop]
    exact hrun steps steps (Nat.le_refl _) (Nat.le_refl _)

/-- An ended run of a loop that tests last is a sequence of rounds with the value of the loop. -/
theorem repeatRuns_of_repeatLoop (hctx : ctx.Quiet) {fuel rounds count : Nat}
    (h : repeatLoop (eval fuel) ctx c b rounds count s = .done v t) :
    ∃ vs f out, RepeatRuns (behaviour eval ctx c) (behaviour eval ctx b) s.env vs f t.env out
      ∧ loopValue? vs f = some v ∧ emissions t.log = emissions s.log ++ out := by
  induction rounds generalizing count s with
  | zero => cases h
  | succ rounds ih =>
    rw [repeatLoop, hctx.note, Outcome.andThen_eq_done_iff] at h
    obtain ⟨hb, hv⟩ | ⟨x, y, hb, hx, h⟩ := h
    · obtain ⟨fault, rfl⟩ := Value.isError_iff.mp hv
      obtain ⟨out, hb, hout⟩ := behaviour_of_eval hb
      exact ⟨[], some fault, out, .bodyFails hb, rfl, hout⟩
    obtain ⟨first, hb, hfirst⟩ := behaviour_of_eval hb
    -- the body has ended without an error, so the condition is evaluated after it
    obtain ⟨w, f, hc, hf, rfl⟩ | ⟨truth, u, hc, h⟩ := test_eq_done_iff.mp h
    · obtain ⟨second, hc, hsecond⟩ := behaviour_of_eval hc
      refine ⟨[x], some f, first ++ second, .testFails hb hx hc hf, rfl, ?_⟩
      rw [hsecond, hfirst, List.append_assoc]
    obtain ⟨second, hc, hsecond⟩ := behaviour_of_eval hc
    -- false goes on with the next round, true ends the loop with the value of this one
    rcases truth with - | -
    · obtain ⟨vs, f, rest, hruns, hv, hrest⟩ := ih h
      refine ⟨x :: vs, f, first ++ (second ++ rest), .round hb hx hc hruns, ?_, ?_⟩
      · rw [loopValue?_cons, hv]
        rfl
      · rw [hrest, hsecond, hfirst, List.append_assoc, List.append_assoc]
    · cases h
      refine ⟨[v], none, first ++ second, .stop hb hx hc, rfl, ?_⟩
      rw [hsecond, hfirst, List.append_assoc]

/-- Conversely, a sequence of rounds with a value is run by the loop whenever it has steps enough,
whatever the count it is entered with. -/
theorem repeatLoop_of_repeatRuns (hctx : ctx.Quiet) {env env' : Env} {vs out : List Value}
    {f : Option Fault}
    (h : RepeatRuns (behaviour eval ctx c) (behaviour eval ctx b) env vs f env' out)
    (hv : loopValue? vs f = some v) (count : Nat) (hs : s.env = env) :
    ∃ t steps, (∀ fuel rounds, steps ≤ fuel → steps ≤ rounds →
        repeatLoop (eval fuel) ctx c b rounds count s = .done v t)
      ∧ t.env = env' ∧ emissions t.log = emissions s.log ++ out := by
  induction h generalizing s count with
  -- as for the loop that tests first: the loop needs the most steps any part needs and one more
  | bodyFails hb =>
    obtain ⟨t, steps, hb, henv, hout⟩ := eval_of_behaviour hb hs
    refine ⟨t, steps + 1, ?_, henv, hout⟩
    rintro fuel (- | rounds) hfuel hrounds
    · omega
    · obtain rfl := Option.some.inj hv
      rw [repeatLoop, hctx.note, hb fuel (by omega)]
      rfl
  | stop hb hx hc =>
    obtain ⟨u, steps, hb, hmid, hfirst⟩ := eval_of_behaviour hb hs
    obtain ⟨t, steps', hc, henv, hsecond⟩ := eval_of_behaviour hc hmid
    refine ⟨t, max steps steps' + 1, ?_, henv, ?_⟩
    · rintro fuel (- | rounds) hfuel hrounds
      · omega
      · obtain rfl := Option.some.inj hv
        rw [repeatLoop, hctx.note, hb fuel (by omega), Outcome.andThen_done_of_not_isError hx]
        exact test_eq_done_iff.mpr (.inr ⟨true, t, hc fuel (by omega), rfl⟩)
    · rw [hsecond, hfirst, List.append_assoc]
  | testFails hb hx hc hfault =>
    obtain ⟨u, steps, hb, hmid, hfirst⟩ := eval_of_behaviour hb hs
    obtain ⟨t, steps', hc, henv, hsecond⟩ := eval_of_behaviour hc hmid
    refine ⟨t, max steps steps' + 1, ?_, henv, ?_⟩
    · rintro fuel (- | rounds) hfuel hrounds
      · omega
      · obtain rfl := Option.some.inj hv
        rw [repeatLoop, hctx.note, hb fuel (by omega), Outcome.andThen_done_of_not_isError hx]
        exact test_eq_done_iff.mpr (.inl ⟨_, _, hc fuel (by omega), hfault, rfl⟩)
    · rw [hsecond, hfirst, List.append_assoc]
  | round hb hx hc hruns ih =>
    -- the value of this round is dropped, since the later rounds have one
    obtain ⟨w, hw⟩ := hruns.exists_loopValue?
    rw [loopValue?_cons, hw] at hv
    obtain rfl := Option.some.inj hv
    obtain ⟨u, steps, hb, hmid, hfirst⟩ := eval_of_behaviour hb hs
    obtain ⟨y, steps', hc, hmid', hsecond⟩ := eval_of_behaviour hc hmid
    obtain ⟨t, steps'', hrest, henv, hout⟩ := ih hw (count + 1) hmid'
    refine ⟨t, max steps (max steps' steps'') + 1, ?_, henv, ?_⟩
    · rintro fuel (- | rounds) hfuel hrounds
      · omega
      · rw [repeatLoop, hctx.note, hb fuel (by omega), Outcome.andThen_done_of_not_isError hx]
        refine test_eq_done_iff.mpr (.inr ⟨false, y, hc fuel (by omega), ?_⟩)
        exact hrest fuel rounds (by omega) (by omega)
    · rw [hout, hsecond, hfirst, List.append_assoc, List.append_assoc]

/-- What a loop that tests last does: its rounds, and the value of the last one. -/
theorem behaviour_repeat_iff (hctx : ctx.Quiet) {env env' : Env} {out : List Value} :
    behaviour eval ctx (.loop Node.repeatStyle c b) env v env' out
      ↔ ∃ vs f, RepeatRuns (behaviour eval ctx c) (behaviour eval ctx b) env vs f env' out
        ∧ loopValue? vs f = some v := by
  have hloop : ∀ fuel s, eval (fuel + 1) ctx (.loop Node.repeatStyle c b) s
      = repeatLoop (eval fuel) ctx c b fuel 0 s := by
    intro fuel s
    rw [hctx.eval_succ]
    rfl
  constructor
  · rintro ⟨t, ⟨- | fuel, h⟩, rfl, rfl⟩
    · cases h
    · rw [hloop] at h
      obtain ⟨vs, f, out, hruns, hv, hout⟩ := repeatRuns_of_repeatLoop hctx h
      refine ⟨vs, f, ?_, hv⟩
      rw [hout]
      exact hruns
  · rintro ⟨vs, f, hruns, hv⟩
    obtain ⟨t, steps, hrun, henv, hout⟩ :=
      repeatLoop_of_repeatRuns hctx hruns hv (s := ⟨env, []⟩) 0 rfl
    refine ⟨t, ⟨steps + 1, ?_⟩, henv, hout⟩
    rw [hloop]
    exact hrun steps steps (Nat.le_refl _) (Nat.le_refl _)

/-! ### Conditional statements and negations -/

/-- What a conditional statement without an alternative does. -/
theorem behaviour_conditional_iff (hctx : ctx.Quiet) {env env' : Env} {out : List Value} :
    behaviour eval ctx (.conditional c b none) env v env' out
      ↔ (∃ w f, behaviour eval ctx c env w env' out ∧ w.testFault? "IF" = some f ∧ v = .error f)
        ∨ (behaviour eval ctx c env (.bool false) env' out ∧ v = .unit)
        ∨ ∃ mid first second, behaviour eval ctx c env (.bool true) mid first
          ∧ behaviour eval ctx b mid v env' second ∧ out = first ++ second := by
  have hstep : ∀ fuel s, eval (fuel + 1) ctx (.conditional c b none) s
      = test (eval fuel) ctx c "IF" s fun b' s =>
        if b' then eval fuel ctx b s else .done .unit s := by
    intro fuel s
    rw [hctx.eval_succ]
    rfl
  constructor
  · rintro ⟨t, ⟨- | fuel, h⟩, rfl, rfl⟩
    · cases h
    rw [hstep] at h
    obtain ⟨w, f, hc, hf, rfl⟩ | ⟨truth, u, hc, h⟩ := test_eq_done_iff.mp h
    · exact .inl ⟨w, f, ⟨t, ⟨fuel, hc⟩, rfl, rfl⟩, hf, rfl⟩
    rcases truth with - | -
    · cases h
      exact .inr (.inl ⟨⟨t, ⟨fuel, hc⟩, rfl, rfl⟩, rfl⟩)
    · obtain ⟨second, hb, hout⟩ := behaviour_of_eval (s := u) h
      exact .inr (.inr ⟨u.env, emissions u.log, second, ⟨u, ⟨fuel, hc⟩, rfl, rfl⟩, hb, hout⟩)
  · rintro (⟨w, f, ⟨t, ⟨fuel, hc⟩, henv, hout⟩, hf, rfl⟩ | ⟨⟨t, ⟨fuel, hc⟩, henv, hout⟩, rfl⟩
      | ⟨mid, first, second, ⟨u, ⟨fuel, hc⟩, rfl, rfl⟩, hb, rfl⟩)
    · refine ⟨t, ⟨fuel + 1, ?_⟩, henv, hout⟩
      rw [hstep]
      exact test_eq_done_iff.mpr (.inl ⟨w, f, hc, hf, rfl⟩)
    · refine ⟨t, ⟨fuel + 1, ?_⟩, henv, hout⟩
      rw [hstep]
      exact test_eq_done_iff.mpr (.inr ⟨false, t, hc, rfl⟩)
    · obtain ⟨t, steps, hb, henv, hout⟩ := eval_of_behaviour (s := u) hb rfl
      refine ⟨t, ⟨max fuel steps + 1, ?_⟩, henv, hout⟩
      rw [hstep]
      refine test_eq_done_iff.mpr (.inr ⟨true, u, ?_, hb _ (Nat.le_max_right ..)⟩)
      exact eval_eq_of_done hc (Nat.le_max_left ..)

end

/-- The behaviour with the opposite truth value at the end. -/
def Behaviour.negated (c : Behaviour) : Behaviour := fun env v env' out =>
  ∃ w, c env w env' out ∧ v = unary "NOT" w

/-- The negation of a condition behaves as the condition with the opposite value, errors of it
passed on. -/
theorem behaviour_not {ctx : Context} (hctx : ctx.Quiet) (c : Node) :
    behaviour eval ctx (.unary "NOT" c) = (behaviour eval ctx c).negated := by
  have hstep : ∀ fuel s, eval (fuel + 1) ctx (.unary "NOT" c) s
      = (eval fuel ctx c s).andThen fun v s => .done (unary "NOT" v) s := by
    intro fuel s
    rw [hctx.eval_succ]
    rfl
  funext env v env' out
  apply propext
  constructor
  · rintro ⟨t, ⟨- | fuel, h⟩, rfl, rfl⟩
    · cases h
    rw [hstep, Outcome.andThen_eq_done_iff] at h
    -- an error of the operand is passed on unchanged, which is what negating an error gives
    obtain ⟨h, hv⟩ | ⟨w, u, h, -, hend⟩ := h
    · obtain ⟨fault, rfl⟩ := Value.isError_iff.mp hv
      exact ⟨.error fault, ⟨t, ⟨fuel, h⟩, rfl, rfl⟩, rfl⟩
    · cases hend
      exact ⟨w, ⟨t, ⟨fuel, h⟩, rfl, rfl⟩, rfl⟩
  · rintro ⟨w, ⟨t, ⟨fuel, h⟩, henv, hout⟩, rfl⟩
    refine ⟨t, ⟨fuel + 1, ?_⟩, henv, hout⟩
    rw [hstep, h]
    rcases w with x | truth | text | - | fault <;> rfl

/-! ### Behaviours that match -/

/-- Two ends without an error, or with errors that are the same or belong together. -/
def Value.EndsLike (r : Fault → Fault → Prop) (v w : Value) : Prop :=
  v.isError = false ∧ w.isError = false ∨ ∃ f g, v = .error f ∧ w = .error g ∧ (f = g ∨ r f g)

theorem Value.EndsLike.refl (r : Fault → Fault → Prop) (v : Value) : v.EndsLike r v := by
  rcases hv : v.isError with - | -
  · exact .inl ⟨hv, hv⟩
  · obtain ⟨fault, rfl⟩ := isError_iff.mp hv
    exact .inr ⟨fault, fault, rfl, rfl, .inl rfl⟩

/-- From the environment, each of the two behaviours comes to an end exactly if the other one does,
in the same environment, with the same values put out, and with an end that is like the other one.
-/
def Behaviour.Matches (r : Fault → Fault → Prop) (a b : Behaviour) (env : Env) : Prop :=
  (∀ v env' out, a env v env' out → ∃ w, b env w env' out ∧ v.EndsLike r w)
    ∧ ∀ w env' out, b env w env' out → ∃ v, a env v env' out ∧ v.EndsLike r w

/-- Only what the two behaviours do in the environment matters for their agreement there. -/
theorem Behaviour.Matches.congr {r : Fault → Fault → Prop} {a a' b b' : Behaviour} {env : Env}
    (h : a.Matches r b env) (ha : a' env = a env) (hb : b' env = b env) : a'.Matches r b' env := by
  unfold Matches
  rw [ha, hb]
  exact h

/-- The two errors tell a condition that is no truth value, one in a loop that tests first and one
in a conditional statement. -/
def Fault.SameTest (f g : Fault) : Prop :=
  ∃ type, f = .conditionNotBoolean "WHILE" type ∧ g = .conditionNotBoolean "IF" type

/-- The two errors tell a condition that is no truth value, one in a loop that tests last and one in
a negation. -/
def Fault.OppositeTest (f g : Fault) : Prop :=
  ∃ type, f = .conditionNotBoolean "UNTIL" type ∧ g = .wrongOperand "NOT" "Bool" type

/-- Where a loop refuses a value as its condition, the conditional statement refuses it too, with an
error that differs at most in the name of the statement. -/
theorem Value.testFault?_if {v : Value} {f : Fault} (h : v.testFault? "WHILE" = some f) :
    ∃ g, v.testFault? "IF" = some g ∧ (f = g ∨ f.SameTest g) := by
  rcases v with x | b | text | - | fault <;> cases h
  case error => exact ⟨f, rfl, .inl rfl⟩
  all_goals exact ⟨_, rfl, .inr ⟨_, rfl, rfl⟩⟩

theorem Value.testFault?_while {v : Value} {g : Fault} (h : v.testFault? "IF" = some g) :
    ∃ f, v.testFault? "WHILE" = some f ∧ (f = g ∨ f.SameTest g) := by
  rcases v with x | b | text | - | fault <;> cases h
  case error => exact ⟨g, rfl, .inl rfl⟩
  all_goals exact ⟨_, rfl, .inr ⟨_, rfl, rfl⟩⟩

/-- A value that the loop that tests last refuses is, negated, refused by the one that tests
first. -/
theorem Value.testFault?_not {v : Value} {f : Fault} (h : v.testFault? "UNTIL" = some f) :
    ∃ g, (unary "NOT" v).testFault? "WHILE" = some g ∧ (f = g ∨ f.OppositeTest g) := by
  rcases v with x | b | text | - | fault <;> cases h
  case error => exact ⟨f, rfl, .inl rfl⟩
  all_goals exact ⟨_, rfl, .inr ⟨_, rfl, rfl⟩⟩

theorem Value.testFault?_of_not {v : Value} {g : Fault}
    (h : (unary "NOT" v).testFault? "WHILE" = some g) :
    ∃ f, v.testFault? "UNTIL" = some f ∧ (f = g ∨ f.OppositeTest g) := by
  rcases v with x | b | text | - | fault <;> cases h
  case error => exact ⟨g, rfl, .inl rfl⟩
  all_goals exact ⟨_, rfl, .inr ⟨_, rfl, rfl⟩⟩

theorem eq_bool_of_unary_not {v : Value} {b : Bool} (h : .bool b = unary "NOT" v) :
    v = .bool !b := by
  rcases v with x | b' | text | - | fault <;> cases h
  rw [Bool.not_not]

/-! ### The loop that tests first -/

/-- A loop with one round more in front ends like the loop without it: with the value of the last
round if there is one behind it, and with that of the round itself or with none if not. -/
theorem Eval.endsLike_loopValue (r : Fault → Fault → Prop) {x : Value} (hx : x.isError = false)
    (vs : List Value) (f : Option Fault) :
    ((loopValue? (x :: vs) f).getD .unit).EndsLike r ((loopValue? vs f).getD .unit) := by
  rw [loopValue?_cons]
  rcases hlast : loopValue? vs f with - | w
  · exact .inl ⟨hx, rfl⟩
  · exact .refl r w

/-- A loop that tests first does what a conditional statement with one round of it does. -/
theorem matches_unrolled {ctx : Context} (hctx : ctx.Quiet) (c b : Node) (env : Env) :
    (behaviour eval ctx (.loop Node.whileStyle c b)).Matches Fault.SameTest
      (behaviour eval ctx
        (.conditional c (.sequence b (.loop Node.whileStyle c b)) none)) env := by
  constructor
  · intro v env' out h
    obtain ⟨vs, f, hruns, rfl⟩ := (behaviour_while_iff hctx).mp h
    simp only [behaviour_conditional_iff hctx, behaviour_sequence hctx]
    -- the first round of the loop decides which branch the conditional statement takes
    cases hruns with
    | stop hc => exact ⟨.unit, .inr (.inl ⟨hc, rfl⟩), .refl _ _⟩
    | @testFails _ _ fault _ _ hc hfault =>
      obtain ⟨g, hg, hlike⟩ := Value.testFault?_if hfault
      exact ⟨.error g, .inl ⟨_, g, hc, hg, rfl⟩, .inr ⟨fault, g, rfl, rfl, hlike⟩⟩
    | @bodyFails _ _ fault _ _ _ hc hb =>
      exact ⟨.error fault, .inr (.inr ⟨_, _, _, hc, .inl ⟨hb, rfl⟩, rfl⟩), .refl _ _⟩
    | @round _ _ x _ vs _ _ _ _ _ hc hb hx hruns =>
      have hrest := (behaviour_while_iff hctx).mpr ⟨vs, f, hruns, rfl⟩
      exact ⟨_, .inr (.inr ⟨_, _, _, hc, .inr ⟨_, _, _, _, hb, hx, hrest, rfl⟩, rfl⟩),
        endsLike_loopValue _ hx vs f⟩
  · intro w env' out h
    obtain ⟨x, g, hc, hg, rfl⟩ | ⟨hc, rfl⟩ | ⟨mid, first, second, hc, hblock, rfl⟩ :=
      (behaviour_conditional_iff hctx).mp h
    · obtain ⟨f, hf, hlike⟩ := Value.testFault?_while hg
      refine ⟨.error f, ?_, .inr ⟨f, g, rfl, rfl, hlike⟩⟩
      exact (behaviour_while_iff hctx).mpr ⟨[], some f, .testFails hc hf, rfl⟩
    · refine ⟨.unit, ?_, .refl _ _⟩
      exact (behaviour_while_iff hctx).mpr ⟨[], none, .stop hc, rfl⟩
    -- the body is run and the loop after it, unless the body ends in an error
    rw [behaviour_sequence hctx] at hblock
    obtain ⟨hb, hw⟩ | ⟨x, mid', early, late, hb, hx, hloop, rfl⟩ := hblock
    · obtain ⟨fault, rfl⟩ := Value.isError_iff.mp hw
      refine ⟨.error fault, ?_, .refl _ _⟩
      exact (behaviour_while_iff hctx).mpr ⟨[], some fault, .bodyFails hc hb, rfl⟩
    · obtain ⟨vs, f, hruns, rfl⟩ := (behaviour_while_iff hctx).mp hloop
      exact ⟨_, (behaviour_while_iff hctx).mpr ⟨x :: vs, f, .round hc hb hx hruns, rfl⟩,
        endsLike_loopValue _ hx vs f⟩

/-! ### The loop that tests last -/

section
variable {c b : Behaviour} {env env' : Env} {vs out : List Value} {f g : Option Fault}

/-- Two ends of rounds without an error, or with errors that are the same or belong together. -/
def Eval.LikeFaults (f g : Option Fault) : Prop :=
  f = g ∨ ∃ fault fault', f = some fault ∧ g = some fault' ∧ fault.OppositeTest fault'

/-- Errors that are equal or tell of opposite tests may stand for each other as the end of a
loop. -/
theorem Eval.likeFaults_some {fault fault' : Fault}
    (h : fault = fault' ∨ fault.OppositeTest fault') :
    LikeFaults (some fault) (some fault') := by
  obtain rfl | h := h
  · exact .inl rfl
  · exact .inr ⟨fault, fault', rfl, rfl, h⟩

/-- The rounds of a loop that tests last: the first round, and then those of a loop that tests first
for the opposite. -/
theorem RepeatRuns.whileRuns (h : RepeatRuns c b env vs f env' out) :
    (∃ fault, f = some fault ∧ b env (.error fault) env' out)
      ∨ ∃ x mid first rest ws g, b env x mid first ∧ x.isError = false
        ∧ WhileRuns c.negated b mid ws g env' rest ∧ out = first ++ rest ∧ LikeFaults f g := by
  -- the tests stay where they are; only the first body moves out of the loop in front of them
  induction h with
  | @bodyFails _ fault _ _ hb => exact .inl ⟨fault, rfl, hb⟩
  | stop hb hx hc =>
    exact .inr ⟨_, _, _, _, [], none, hb, hx, .stop ⟨_, hc, rfl⟩, rfl, .inl rfl⟩
  | testFails hb hx hc hfault =>
    obtain ⟨g, hg, hlike⟩ := Value.testFault?_not hfault
    exact .inr ⟨_, _, _, _, [], some g, hb, hx, .testFails ⟨_, hc, rfl⟩ hg, rfl,
      likeFaults_some hlike⟩
  | round hb hx hc _ ih =>
    have htest : c.negated _ (.bool true) _ _ := ⟨.bool false, hc, rfl⟩
    obtain ⟨fault, rfl, hb'⟩ | ⟨y, _, _, _, ws, g, hb', hy, hruns, rfl, hlike⟩ := ih
    · exact .inr ⟨_, _, _, _, [], some fault, hb, hx, .bodyFails htest hb', rfl, .inl rfl⟩
    · exact .inr ⟨_, _, _, _, y :: ws, g, hb, hx, .round htest hb' hy hruns, rfl, hlike⟩

/-- A round, and then those of a loop that tests first for the opposite, are the rounds of a loop
that tests last. -/
theorem WhileRuns.repeatRuns {mid : Env} {x : Value} {first rest ws : List Value}
    (h : WhileRuns c.negated b mid ws g env' rest) (hb : b env x mid first)
    (hx : x.isError = false) :
    ∃ vs f, RepeatRuns c b env vs f env' (first ++ rest) ∧ LikeFaults f g := by
  -- the body before the loop becomes the first round, and each later body the next one
  induction h generalizing env x first with
  | stop hc =>
    obtain ⟨w, hc, hw⟩ := hc
    obtain rfl := eq_bool_of_unary_not hw
    exact ⟨[x], none, .stop hb hx hc, .inl rfl⟩
  | testFails hc hfault =>
    obtain ⟨w, hc, rfl⟩ := hc
    obtain ⟨f, hf, hlike⟩ := Value.testFault?_of_not hfault
    exact ⟨[x], some f, .testFails hb hx hc hf, likeFaults_some hlike⟩
  | @bodyFails _ _ fault _ _ _ hc hb' =>
    obtain ⟨w, hc, hw⟩ := hc
    obtain rfl := eq_bool_of_unary_not hw
    exact ⟨[x], some fault, .round hb hx hc (.bodyFails hb'), .inl rfl⟩
  | round hc hb' hy _ ih =>
    obtain ⟨w, hc, hw⟩ := hc
    obtain rfl := eq_bool_of_unary_not hw
    obtain ⟨vs, f, hruns, hlike⟩ := ih hb' hy
    exact ⟨x :: vs, f, .round hb hx hc hruns, hlike⟩

end

/-- Sequences of rounds that end alike give values that end alike; if neither ends in an error,
neither value is one. -/
theorem Eval.endsLike_of_likeFaults {vs ws : List Value} {f g : Option Fault} {v : Value}
    (hlike : LikeFaults f g) (hvs : ∀ v ∈ vs, v.isError = false)
    (hws : ∀ v ∈ ws, v.isError = false) (hv : loopValue? vs f = some v) :
    v.EndsLike Fault.OppositeTest ((loopValue? ws g).getD .unit) := by
  obtain rfl | ⟨fault, fault', rfl, rfl, hopposite⟩ := hlike
  · cases f with
    | none =>
      refine .inl ⟨not_isError_of_loopValue? hvs hv, ?_⟩
      rcases hw : loopValue? ws none with - | w
      · rfl
      · exact not_isError_of_loopValue? hws hw
    | some fault =>
      obtain rfl := Option.some.inj hv
      exact .refl _ _
  · obtain rfl := Option.some.inj hv
    exact .inr ⟨fault, fault', rfl, rfl, .inr hopposite⟩

/-- A loop that tests last does what its body and then a loop that tests first for the opposite do.
-/
theorem matches_negated {ctx : Context} (hctx : ctx.Quiet) (c b : Node) (env : Env) :
    (behaviour eval ctx (.loop Node.repeatStyle c b)).Matches Fault.OppositeTest
      (behaviour eval ctx
        (.sequence b (.loop Node.whileStyle (.unary "NOT" c) b))) env := by
  constructor
  · intro v env' out h
    obtain ⟨vs, f, hruns, hv⟩ := (behaviour_repeat_iff hctx).mp h
    rw [behaviour_sequence hctx]
    obtain ⟨fault, rfl, hb⟩ | ⟨x, mid, first, rest, ws, g, hb, hx, hwhile, rfl, hlike⟩ :=
      hruns.whileRuns
    · obtain rfl := Option.some.inj hv
      exact ⟨.error fault, .inl ⟨hb, rfl⟩, .refl _ _⟩
    · have hend := endsLike_of_likeFaults hlike hruns.not_isError hwhile.not_isError hv
      -- the rounds test the opposite value, which is the value of the negated condition
      rw [← behaviour_not hctx] at hwhile
      have hloop := (behaviour_while_iff hctx).mpr ⟨ws, g, hwhile, rfl⟩
      exact ⟨_, .inr ⟨x, mid, first, rest, hb, hx, hloop, rfl⟩, hend⟩
  · intro w env' out h
    rw [behaviour_sequence hctx] at h
    obtain ⟨hb, hw⟩ | ⟨x, mid, first, rest, hb, hx, hloop, rfl⟩ := h
    · obtain ⟨fault, rfl⟩ := Value.isError_iff.mp hw
      refine ⟨.error fault, ?_, .refl _ _⟩
      exact (behaviour_repeat_iff hctx).mpr ⟨[], some fault, .bodyFails hb, rfl⟩
    · obtain ⟨ws, g, hwhile, rfl⟩ := (behaviour_while_iff hctx).mp hloop
      rw [behaviour_not hctx] at hwhile
      obtain ⟨vs, f, hruns, hlike⟩ := hwhile.repeatRuns hb hx
      obtain ⟨v, hv⟩ := hruns.exists_loopValue?
      refine ⟨v, (behaviour_repeat_iff hctx).mpr ⟨vs, f, hruns, hv⟩, ?_⟩
      exact endsLike_of_likeFaults hlike hruns.not_isError hwhile.not_isError hv

/-! ### Laws -/

/-- **Loop laws.** Where the stack is not exhausted, with tracing or without: a loop that tests
first ends exactly if the conditional statement with its body and then the same loop does, and a
loop that tests last exactly if its body and then a loop that tests first for the opposite does, in
both cases in the same environment and with the same values put out. One side ends with an error
exactly if the other one does, and with the same error, except for the one that tells a condition
that is no truth value: that is the one of the other statement, or of the negation. An end of a loop
is a row of rounds of its condition and its body: the error that ends them is the value of the loop,
and otherwise the value of the last round is, or zero if a loop that tests first has no round. -/
theorem loop_laws (ctx : Context) (c b : Node) (env : Env) :
    (Fits ctx (.loop Node.whileStyle c b) env →
      Fits ctx (.conditional c (.sequence b (.loop Node.whileStyle c b)) none) env →
      (behaviour eval ctx (.loop Node.whileStyle c b)).Matches Fault.SameTest
        (behaviour eval ctx
          (.conditional c (.sequence b (.loop Node.whileStyle c b)) none)) env)
    ∧ (Fits ctx (.loop Node.repeatStyle c b) env →
      Fits ctx (.sequence b (.loop Node.whileStyle (.unary "NOT" c) b)) env →
      (behaviour eval ctx (.loop Node.repeatStyle c b)).Matches Fault.OppositeTest
        (behaviour eval ctx (.sequence b (.loop Node.whileStyle (.unary "NOT" c) b))) env)
    ∧ (Fits ctx (.loop Node.whileStyle c b) env → ∀ v env' out,
      behaviour eval ctx (.loop Node.whileStyle c b) env v env' out
        ↔ ∃ vs f,
          WhileRuns (behaviour eval ctx.plain c) (behaviour eval ctx.plain b) env vs f env' out
          ∧ v = (loopValue? vs f).getD .unit)
    ∧ (Fits ctx (.loop Node.repeatStyle c b) env → ∀ v env' out,
      behaviour eval ctx (.loop Node.repeatStyle c b) env v env' out
        ↔ ∃ vs f,
          RepeatRuns (behaviour eval ctx.plain c) (behaviour eval ctx.plain b) env vs f env' out
          ∧ loopValue? vs f = some v) := by
  have hctx : ctx.plain.Quiet := ctx.quiet_plain
  -- what fits on the stack behaves as in the context with no bound and no tracing, where the laws
  -- hold
  refine ⟨?_, ?_, ?_, ?_⟩
  · intro hloop hunrolled
    have hplain := matches_unrolled hctx c b env
    exact hplain.congr hloop.behaviour_eq_plain hunrolled.behaviour_eq_plain
  · intro hloop hnegated
    have hplain := matches_negated hctx c b env
    exact hplain.congr hloop.behaviour_eq_plain hnegated.behaviour_eq_plain
  · intro hloop v env' out
    rw [hloop.behaviour_eq_plain]
    exact behaviour_while_iff hctx
  · intro hloop v env' out
    rw [hloop.behaviour_eq_plain]
    exact behaviour_repeat_iff hctx

/-- An environment in which `x` is true. -/
def raisedEnv : Env := (∅ : Env).insert "x" (.variable (.bool true) false)

/-- A block that makes `x` false and puts out what it is not. -/
def loweringBlock : Node :=
  .sequence (.assignment "x" false (.boolean "False")) (.output (.unary "NOT" (.reference "x")))

/-- A traced loop with one round, and the conditional statement with that round and the loop. -/
theorem loop_laws_one_round :
    ∃ env', env'["x"]? = some (.variable (.bool false) false)
      ∧ behaviour eval ⟨true, 50, 0, none⟩ (.loop Node.whileStyle (.reference "x") loweringBlock)
        raisedEnv (.bool true) env' [.bool true]
      ∧ ∃ w, behaviour eval ⟨true, 50, 0, none⟩ (.conditional (.reference "x")
          (.sequence loweringBlock (.loop Node.whileStyle (.reference "x") loweringBlock)) none)
          raisedEnv w env' [.bool true]
        ∧ w.isError = false := by
  obtain ⟨t, hrun, hx, hout⟩ : ∃ t, eval 9 ⟨true, 50, 0, none⟩
      (.loop Node.whileStyle (.reference "x") loweringBlock) ⟨raisedEnv, []⟩ = .done (.bool true) t
        ∧ t.env["x"]? = some (.variable (.bool false) false) ∧ emissions t.log = [.bool true] :=
    ⟨_, rfl, rfl, rfl⟩
  obtain ⟨hunrolled, -, -, -⟩ :=
    loop_laws ⟨true, 50, 0, none⟩ (.reference "x") loweringBlock raisedEnv
  obtain ⟨hends, -⟩ := hunrolled (fits_of_room rfl _ _) (fits_of_room rfl _ _)
  have hloop : behaviour eval ⟨true, 50, 0, none⟩
      (.loop Node.whileStyle (.reference "x") loweringBlock) raisedEnv (.bool true) t.env
        [.bool true] := ⟨t, ⟨9, hrun⟩, rfl, hout⟩
  obtain ⟨w, hw, ⟨-, herror⟩ | ⟨f, g, hf, -, -⟩⟩ := hends _ _ _ hloop
  · exact ⟨t.env, hx, hloop, w, hw, herror⟩
  · cases hf

end Pseudocode
