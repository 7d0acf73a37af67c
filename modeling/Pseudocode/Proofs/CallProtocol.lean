import Pseudocode.Proofs.Evolution

/-!
The protocol of calls.

`CallEnds` says how a call ends, in terms of its arguments, its body and its return expression
alone. Every argument is evaluated in the environment of the call (`Passing`): what an argument does
to the environment is forgotten before the next one is looked at. If all of them have values, the
body and then the return expression run in a frame, the environment of the call with the parameters
bound to the values. However they end, each parameter afterwards has the binding that it had before
the call, and each other name has the binding that it has in the frame.

Main results: `eval_call_iff`, which says that a call ends in this way and in no other, and
`Sound.enters`, which carries a contract into every frame of a run. That the frame is kept for all
names but the parameters rests on `evolves_of_eval`: what the body leaves binds every name that the
caller's environment binds, so nothing of the caller shows through.
-/

namespace Pseudocode

/-- The environment with the parameters bound to values. -/
def Env.bindAll (env : Env) : List String → List Value → Env
  | param :: params, v :: vs => bindAll (env.insert param (.variable v false)) params vs
  | _, _ => env

/-- Names other than the parameters keep their bindings. -/
theorem Env.getElem?_bindAll_of_not_mem {params : List String} {x : String} (hx : x ∉ params)
    (env : Env) (vs : List Value) : (bindAll env params vs)[x]? = env[x]? := by
  induction params generalizing env vs with
  | nil => rfl
  | cons param params ih =>
    rw [List.mem_cons, not_or] at hx
    cases vs with
    | nil => rfl
    | cons v vs =>
      rw [bindAll, ih hx.2, Std.ExtTreeMap.getElem?_insert, if_neg]
      simpa using Ne.symm hx.1

namespace Eval

/-! ### Arguments -/

/-- How the evaluation of the arguments of a call ends. -/
inductive Passed where
  /-- All arguments have values. -/
  | values (vs : List Value)
  /-- The first argument that is an error. -/
  | failed (fault : Fault)
  /-- The stack is exhausted in an argument. -/
  | exhausted

/-- The end for an argument with a value and further arguments. -/
def Passed.cons (v : Value) : Passed → Passed
  | .values vs => .values (v :: vs)
  | p => p

/-- The arguments are evaluated one after the other, each of them in `env`; the log goes on from one
to the next, and the first error ends it. -/
inductive Passing (ev : Evaluator) (ctx : Context) (env : Env) :
    List Node → List Event → Passed → List Event → Prop
  | nil {log} : Passing ev ctx env [] log (.values []) log
  | failed {e es log fault s} : ev ctx e ⟨env, log⟩ = .done (.error fault) s →
      Passing ev ctx env (e :: es) log (.failed fault) s.log
  | exhausted {e es log log'} : ev ctx e ⟨env, log⟩ = .overflow log' →
      Passing ev ctx env (e :: es) log .exhausted log'
  | cons {e es log v s p log'} : ev ctx e ⟨env, log⟩ = .done v s → v.isError = false →
      Passing ev ctx env es s.log p log' → Passing ev ctx env (e :: es) log (p.cons v) log'

/-- What a call goes on with when its arguments have ended. -/
def Passed.resume (caller frame : Env) (params : List String) (k : State → Outcome)
    (log : List Event) : Passed → Outcome
  | .values vs => k ⟨Env.bindAll frame params vs, log⟩
  | .failed fault => .fail fault ⟨caller, log⟩
  | .exhausted => .overflow log

variable {ev : Evaluator} {ctx : Context} {caller : Env}

/-- Binding the arguments in a frame goes on as their passing ends. -/
theorem passArguments_of_passing {es : List Node} {log log' : List Event} {p : Passed}
    (h : Passing ev ctx caller es log p log') {params : List String}
    (hlen : es.length = params.length) (k : State → Outcome) (frame : Env) :
    passArguments ev ctx caller k (params.zip es) ⟨frame, log⟩
      = p.resume caller frame params k log' := by
  -- the induction is on the arguments; the frame grows by one binding at each of them
  induction h generalizing params frame with
  | nil =>
    obtain rfl := List.length_eq_zero_iff.mp hlen.symm
    rfl
  | failed hev =>
    obtain ⟨param, params, rfl⟩ := List.exists_cons_of_length_eq_add_one hlen.symm
    simp only [List.zip_cons_cons, passArguments, hev]
    rfl
  | exhausted hev =>
    obtain ⟨param, params, rfl⟩ := List.exists_cons_of_length_eq_add_one hlen.symm
    simp only [List.zip_cons_cons, passArguments, hev]
    rfl
  | @cons e es log v s p log' hev hv _ ih =>
    obtain ⟨param, params, rfl⟩ := List.exists_cons_of_length_eq_add_one hlen.symm
    have hlen' : es.length = params.length := Nat.succ.inj hlen
    simp only [List.zip_cons_cons, passArguments, hev]
    show (Outcome.done v ⟨caller, s.log⟩).andThen _ = _
    rw [Outcome.andThen_done_of_not_isError hv, ih hlen']
    rcases p with vs | fault | - <;> rfl

/-- If passing the arguments ends at all, it ends in one of the ways of `Passing`. -/
theorem passing_of_passArguments {params : List String} {es : List Node}
    (hlen : es.length = params.length) {k : State → Outcome} {frame : Env} {log : List Event}
    (h : passArguments ev ctx caller k (params.zip es) ⟨frame, log⟩ ≠ .unfinished) :
    ∃ p log', Passing ev ctx caller es log p log' := by
  induction es generalizing params frame log with
  | nil => exact ⟨_, _, .nil⟩
  | cons e es ih =>
    obtain ⟨param, params, rfl⟩ := List.exists_cons_of_length_eq_add_one hlen.symm
    -- the first argument ends with a value or an error, exhausts the stack, or does not end
    rcases hev : ev ctx e ⟨caller, log⟩ with ⟨v, s⟩ | log' | -
    · rcases hv : v.isError with - | -
      · simp only [List.zip_cons_cons, passArguments, hev] at h
        change (Outcome.done v ⟨caller, s.log⟩).andThen _ ≠ _ at h
        rw [Outcome.andThen_done_of_not_isError hv] at h
        obtain ⟨p, log', hp⟩ := ih (Nat.succ.inj hlen) h
        exact ⟨_, _, .cons hev hv hp⟩
      · obtain ⟨fault, rfl⟩ := Value.isError_iff.mp hv
        exact ⟨_, _, .failed hev⟩
    · exact ⟨_, _, .exhausted hev⟩
    · simp only [List.zip_cons_cons, passArguments, hev] at h
      exact absurd rfl h

/-! ### The frame -/

/-- A body or a return expression that may be absent. -/
def optional (ev : Evaluator) (ctx : Context) : Option Node → State → Outcome
  | none, s => .done .void s
  | some n, s => ev ctx n s

/-- The body and then, unless it ends in an error, the return expression, one call deeper. -/
def runFrame (ev : Evaluator) (ctx : Context) (name : String) (tree ret : Option Node)
    (frame : State) : Outcome :=
  (optional ev ctx.inCall tree (frame.note ctx (.entered name ctx.inCall.depth))).andThen
    fun _ s => (optional ev ctx.inCall ret s).noted ctx (.returned name)

/-- The body of a call is the run of its frame. -/
theorem body_eq_runFrame (name : String) (tree ret : Option Node) (frame : State) :
    body ev ctx name tree ret frame = runFrame ev ctx name tree ret frame := by
  rcases tree with - | m <;> rcases ret with - | r <;> rfl

/-- A frame only grows while it is run. -/
theorem evolves_of_runFrame {fuel : Nat} {name : String} {tree ret : Option Node}
    {frame left : State} {v : Value}
    (h : runFrame (eval fuel) ctx name tree ret frame = .done v left) :
    frame.env.Evolves left.env := by
  have hc := Contract.evolution_sound
  rw [← body_eq_runFrame] at h
  exact ((hc.agree_body (hc.binds_eval fuel) name (fun _ _ => trivial) trivial).leaves h).leads

/-! ### Calls -/

/-- How a call of the subroutine `name` with the arguments `es` ends: the value, and the state. -/
inductive CallEnds (ev : Evaluator) (ctx : Context) (name : String) (params : List String)
    (tree ret : Option Node) (es : List Node) (s : State) : Value → State → Prop
  /-- The first argument that is an error is the result, and the environment is unchanged. -/
  | argument {fault log} : Passing ev ctx s.env es s.log (.failed fault) log →
      CallEnds ev ctx name params tree ret es s (.error fault) ⟨s.env, log⟩
  /-- The frame ran to its end, with an error or without. -/
  | frame {vs log v left env} : Passing ev ctx s.env es s.log (.values vs) log →
      runFrame ev ctx name tree ret ⟨s.env.bindAll params vs, log⟩ = .done v left →
      (∀ x, x ∈ params → env[x]? = s.env[x]?) → (∀ x, x ∉ params → env[x]? = left.env[x]?) →
      CallEnds ev ctx name params tree ret es s v ⟨env, left.log⟩
  /-- The stack is exhausted in an argument. -/
  | exhaustedArgument {log} : Passing ev ctx s.env es s.log .exhausted log →
      CallEnds ev ctx name params tree ret es s (.error (.callTooDeep name (ctx.depth + 1)))
        ⟨s.env, log⟩
  /-- The stack is exhausted in the frame. -/
  | exhaustedFrame {vs log log'} : Passing ev ctx s.env es s.log (.values vs) log →
      runFrame ev ctx name tree ret ⟨s.env.bindAll params vs, log⟩ = .overflow log' →
      CallEnds ev ctx name params tree ret es s (.error (.callTooDeep name (ctx.depth + 1)))
        ⟨s.env, log'⟩

variable {fuel : Nat} {name : String} {params : List String} {tree ret : Option Node}
variable {es : List Node} {s s' : State} {v : Value}

/-- Nothing of the caller shows through a frame that has been left: the frame binds every name that
the caller binds. -/
theorem getElem?_restore_runFrame {vs : List Value} {log : List Event} {left : State}
    (h : runFrame (eval fuel) ctx name tree ret ⟨s.env.bindAll params vs, log⟩ = .done v left)
    {x : String} (hx : x ∉ params) :
    (Env.restore s.env left.env params)[x]? = left.env[x]? := by
  rw [Env.getElem?_restore, if_neg hx]
  -- if the frame had lost the name, the caller's binding would show through
  rcases hleft : left.env[x]? with - | b
  · rcases hcaller : s.env[x]? with - | b
    · rfl
    · have hframe : (s.env.bindAll params vs)[x]? = some b := by
        rw [Env.getElem?_bindAll_of_not_mem hx, hcaller]
      obtain ⟨b', hb', -⟩ := evolves_of_runFrame h x b hframe
      rw [hleft] at hb'
      cases hb'
  · rfl

/-- A call of a subroutine with the right number of arguments, below the limit. -/
theorem call_eq_invoke (hf : s.env[name]? = some (.subroutine params tree ret))
    (hlen : es.length = params.length) (hdepth : ctx.depth < ctx.limit) :
    call ev ctx (Node.call name es) s
      = (invoke ev ctx name params tree ret es s).caught (.callTooDeep name (ctx.depth + 1))
          s.env := by
  have hname : (Node.call name es).text? "name" = some name := rfl
  have hargs : Node.argumentExpressions? ((Node.call name es).child? .argument) = some es := by
    rw [Node.child?_call, Node.argumentExpressions?_arguments?]
  have hlimit : ¬ ctx.limit ≤ ctx.depth := by omega
  simp only [call, hname, hf, hargs]
  rw [if_neg (not_not_intro hlen), if_neg hlimit]
  rfl

/-- An invocation that ends, ends in one of the ways of a call. -/
theorem callEnds_of_invoke (hlen : es.length = params.length)
    (h : (invoke (eval fuel) ctx name params tree ret es s).caught
      (.callTooDeep name (ctx.depth + 1)) s.env = .done v s') :
    CallEnds (eval fuel) ctx name params tree ret es s v s' := by
  have hends : invoke (eval fuel) ctx name params tree ret es s ≠ .unfinished := by
    intro heq
    rw [heq] at h
    cases h
  -- either the arguments stop the call, or the frame runs and is reconciled with the caller
  obtain ⟨p, log, hp⟩ := passing_of_passArguments hlen hends
  rw [invoke, passArguments_of_passing hp hlen] at h
  rcases p with vs | fault | -
  · -- the frame is run; its three endings are those of the body and the return expression
    simp only [Passed.resume, body_eq_runFrame] at h
    rcases hrun : runFrame (eval fuel) ctx name tree ret ⟨s.env.bindAll params vs, log⟩
      with ⟨w, left⟩ | log' | -
    · rw [hrun] at h
      cases h
      refine .frame hp hrun (fun x hx => ?_) (fun x hx => getElem?_restore_runFrame hrun hx)
      rw [Env.getElem?_restore, if_pos hx]
    · rw [hrun] at h
      cases h
      exact .exhaustedFrame hp hrun
    · rw [hrun] at h
      cases h
  · cases h
    exact .argument hp
  · cases h
    exact .exhaustedArgument hp

/-- Each way in which a call ends is one of its invocation. -/
theorem invoke_of_callEnds (hlen : es.length = params.length)
    (h : CallEnds (eval fuel) ctx name params tree ret es s v s') :
    (invoke (eval fuel) ctx name params tree ret es s).caught
      (.callTooDeep name (ctx.depth + 1)) s.env = .done v s' := by
  cases h with
  | argument hp =>
    rw [invoke, passArguments_of_passing hp hlen]
    rfl
  | @frame vs log _ left env hp hrun hin hout =>
    -- an environment is its look-ups, and these are given name by name
    have henv : Env.restore s.env left.env params = env := by
      refine Std.ExtTreeMap.ext_getElem? fun x => ?_
      by_cases hx : x ∈ params
      · rw [Env.getElem?_restore, if_pos hx, hin x hx]
      · rw [getElem?_restore_runFrame hrun hx, hout x hx]
    rw [invoke, passArguments_of_passing hp hlen]
    simp only [Passed.resume, body_eq_runFrame, hrun, ← henv]
    rfl
  | exhaustedArgument hp =>
    rw [invoke, passArguments_of_passing hp hlen]
    rfl
  | exhaustedFrame hp hrun =>
    rw [invoke, passArguments_of_passing hp hlen]
    simp only [Passed.resume, body_eq_runFrame, hrun]
    rfl

end Eval

/-- Recording an event keeps the value and adds to the log. -/
theorem Outcome.noted_eq_done_iff {o : Outcome} {ctx : Context} {e : Value → Event} {v : Value}
    {s' : State} : o.noted ctx e = .done v s' ↔ ∃ t, o = .done v t ∧ s' = t.note ctx (e v) := by
  rcases o with ⟨w, t⟩ | log | -
  · constructor
    · intro h
      cases h
      exact ⟨t, rfl, rfl⟩
    · rintro ⟨t', h, rfl⟩
      cases h
      rfl
  · simp [Outcome.noted]
  · simp [Outcome.noted]

/-- Going down to a node keeps the depth of calls. -/
theorem Context.depth_lt_limit_of_descend? {ctx inner : Context} (h : ctx.descend? = some inner)
    (hdepth : ctx.depth < ctx.limit) : inner.depth < inner.limit := by
  obtain ⟨tracing, limit, depth, room⟩ := ctx
  rcases room with - | (- | r) <;> cases h <;> exact hdepth

open Eval in
/-- **The call protocol.** Below the depth limit, a call of a subroutine with as many arguments as
it has parameters ends exactly as `CallEnds` says. -/
theorem eval_call_iff {fuel : Nat} {ctx : Context} {name : String} {params : List String}
    {tree ret : Option Node} {es : List Node} {s s' : State} {v : Value}
    (hf : s.env[name]? = some (.subroutine params tree ret))
    (hlen : es.length = params.length) (hdepth : ctx.depth < ctx.limit) :
    eval (fuel + 1) ctx (Node.call name es) s = .done v s'
      ↔ ∃ inner t, ctx.descend? = some inner
        ∧ CallEnds (eval fuel) inner name params tree ret es (s.note ctx (.started .call)) v t
        ∧ s' = t.note ctx (.completed v) := by
  have hkind : (Node.call name es).kind = .call := rfl
  have hnote : (s.note ctx (.started .call)).env[name]? = some (.subroutine params tree ret) := by
    rw [State.env_note, hf]
  rw [eval_succ, node, hkind]
  -- without room for the node there is no outcome on either side
  rcases hroom : ctx.descend? with - | inner
  · simp
  · have hinner := Context.depth_lt_limit_of_descend? hroom hdepth
    simp only [step, hkind, call_eq_invoke hnote hlen hinner]
    rw [Outcome.noted_eq_done_iff]
    constructor
    · rintro ⟨t, ht, rfl⟩
      exact ⟨inner, t, rfl, callEnds_of_invoke hlen ht, rfl⟩
    · rintro ⟨inner', t, heq, ht, rfl⟩
      obtain rfl := Option.some.inj heq
      exact ⟨t, invoke_of_callEnds hlen ht, rfl⟩

/-- A subroutine `f` that assigns to its own parameter `p` and returns it. -/
def assigningEnv : Env :=
  (∅ : Env).insert "f" (.subroutine ["p"] (some (.assignment "p" false (.boolean "False")))
    (some (.reference "p")))

open Eval in
theorem eval_call_iff_assigning :
    ∃ s' t, eval 4 ⟨false, 50, 0, none⟩ (.call "f" [.boolean "True"]) ⟨assigningEnv, []⟩
        = .done (.bool false) s'
      ∧ CallEnds (eval 3) ⟨false, 50, 0, none⟩ "f" ["p"]
        (some (.assignment "p" false (.boolean "False"))) (some (.reference "p"))
        [.boolean "True"] ⟨assigningEnv, []⟩ (.bool false) t := by
  obtain ⟨s', hrun⟩ : ∃ s', eval 4 ⟨false, 50, 0, none⟩ (.call "f" [.boolean "True"])
      ⟨assigningEnv, []⟩ = .done (.bool false) s' := ⟨_, rfl⟩
  obtain ⟨inner, t, hroom, hends, -⟩ := (eval_call_iff rfl rfl (by decide)).mp hrun
  cases hroom
  exact ⟨s', t, hrun, hends⟩

/-! ### Frames on the way -/

namespace Eval

/-- A run enters a frame: at one of its points a subroutine is called, below the depth limit and
with as many arguments as it has parameters, and the arguments have values. -/
inductive Enters (fuel : Nat) (p : Point) :
    Context → String → Option Node → Option Node → State → Prop
  | call {q steps inner name params tree ret es vs log} : Visits fuel p q → q.node.kind = .call →
      q.ctx.descend? = some inner → inner.depth < inner.limit →
      q.node.text? "name" = some name →
      q.state.env[name]? = some (.subroutine params tree ret) →
      Node.argumentExpressions? (q.node.child? .argument) = some es →
      es.length = params.length →
      Passing (eval steps) inner q.state.env es (q.state.note q.ctx (.started .call)).log
        (.values vs) log →
      Enters fuel p inner name tree ret ⟨q.state.env.bindAll params vs, log⟩

end Eval

namespace Contract

open Eval

variable {c : Contract}

/-- The values of arguments are according to the contract. -/
theorem Sound.passing (hc : c.Sound) {steps : Nat} {ctx : Context} {env : Env} {es : List Node}
    {log log' : List Event} {p : Passed}
    (h : Passing (Pseudocode.eval steps) ctx env es log p log')
    (hes : ∀ e ∈ es, c.admits ctx e) (henv : c.keeps env) :
    ∀ vs, p = .values vs → ∀ v ∈ vs, c.yields v ∧ v.isError = false := by
  induction h with
  | nil =>
    rintro vs heq
    cases heq
    exact nofun
  | failed => exact nofun
  | exhausted => exact nofun
  | @cons e es log v s p log' hev hv _ ih =>
    have hyields := (hc.eval (s := ⟨env, log⟩) (hes e List.mem_cons_self) henv hev).yields
    have hrest := ih fun m hm => hes m (List.mem_cons_of_mem _ hm)
    -- only an end with values says anything about them
    rcases p with vs' | fault | -
    · rintro vs heq
      cases heq
      intro w hw
      rcases List.mem_cons.mp hw with rfl | hw
      · exact ⟨hyields, hv⟩
      · exact hrest vs' rfl w hw
    · exact nofun
    · exact nofun

/-- Binding good values keeps a good environment. -/
theorem Sound.keeps_bindAll (hc : c.Sound) {env : Env} (henv : c.keeps env) (params : List String)
    {vs : List Value} (hvs : ∀ v ∈ vs, c.yields v ∧ v.isError = false) :
    c.keeps (env.bindAll params vs) := by
  induction params generalizing env vs with
  | nil => exact henv
  | cons param params ih =>
    cases vs with
    | nil => exact henv
    | cons v vs =>
      obtain ⟨hyields, hv⟩ := hvs v List.mem_cons_self
      exact ih (hc.pass henv hyields hv) fun w hw => hvs w (List.mem_cons_of_mem _ hw)

/-- A sound contract holds in every frame that a run enters, and when the frame is left. -/
theorem Sound.enters (hc : c.Sound) {fuel : Nat} {p : Point} {ctx : Context} {name : String}
    {tree ret : Option Node} {frame : State} (h : Enters fuel p ctx name tree ret frame)
    (hn : c.admits p.ctx p.node) (hs : c.keeps p.state.env) :
    c.keeps frame.env ∧ ∀ steps v left,
      runFrame (Pseudocode.eval steps) ctx name tree ret frame = .done v left →
        c.Leaves frame.env v left.env := by
  cases h with
  | @call q steps _ _ params _ _ es vs log hq hk hroom hdepth _ hbind hes _ hpassing =>
    obtain ⟨hadmits, hkeeps⟩ := hc.visits hq hn hs
    have hinner := hc.descend hadmits hroom
    have hargs : ∀ e ∈ es, c.admits ctx e := fun e he => hc.part hinner (.argument hk hes he)
    -- the arguments are good values, so the frame is good before the body runs
    have hframe : c.keeps (q.state.env.bindAll params vs) :=
      hc.keeps_bindAll hkeeps params (hc.passing hpassing hargs hkeeps vs rfl)
    refine ⟨hframe, fun steps v left hrun => ?_⟩
    rw [← body_eq_runFrame] at hrun
    have htree : ∀ m, tree = some m ∨ ret = some m → c.admits ctx.inCall m :=
      fun m => hc.enter hinner hk hkeeps hdepth hbind
    exact (hc.agree_body (hc.binds_eval steps) name htree hframe).leaves hrun

end Contract

end Pseudocode
