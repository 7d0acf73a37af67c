import Pseudocode.Proofs.CallProtocol

/-!
Rules as plans.

What a rule of evaluation does is a row of actions: it looks at the environment, binds a name, has a
part evaluated and goes on with the value, and so on. `Plan` is the type of such rows, with a
continuation wherever something is learnt, and `Plan.run` carries one out.

Design. The plan of a node, `Plan.ofNode`, is made of the node alone. The context and the state
come in only when it is run, so a comparison of two runs of one node (under two depth limits, with
more steps or with fewer) is one induction over plans and needs no case for each rule. Neither
does a statement about everything that happens on the way.

Main result: the rule of a node is its plan, carried out (`step_eq_run`).
-/

namespace Pseudocode

/-- Is the event a comment on an evaluation, and neither the start nor the end of a node nor an
emission? -/
def Event.isRemark : Event → Bool
  | .started _ | .completed _ | .emitted _ => false
  | _ => true

/-- What becomes of the changes that a part makes to the environment. -/
inductive Effects where
  | kept
  | undone

/-- The environment behind a part, from the one before it and the one that the part leaves. -/
def Effects.after : Effects → Env → Env → Env
  | .kept, _, env => env
  | .undone, start, _ => start

/-- A row of actions, as a rule of evaluation takes them. -/
inductive Plan where
  /-- End with a value, an error or not. -/
  | finish (v : Value)
  /-- The rounds of a loop are used up. -/
  | unfinished
  /-- Go on as the environment tells. -/
  | look (k : Env → Plan)
  /-- Record a remark if tracing. -/
  | note (e : Event) (remark : e.isRemark = true) (next : Plan)
  /-- Put out a value. -/
  | emit (v : Value) (next : Plan)
  /-- Bind a name. -/
  | bind (name : String) (b : Binding) (next : Plan)
  /-- Have a part evaluated and go on with its value; an error is the end. -/
  | ask (effects : Effects) (m : Node) (k : Value → Plan)
  /-- Have the return expression of a subroutine evaluated; its value is the end, error or not. -/
  | askReturn (name : String) (m : Node)
  /-- Go on unless the call is too deep; a stack exhausted from here on is an error. -/
  | guarded (name : String) (inner : Plan)
  /-- Go on in a frame with the parameters bound to values, and leave it. -/
  | framed (name : String) (params : List String) (vs : List Value) (inner : Plan)

namespace Plan

open Outcome

/-- Carry out a plan with an evaluator for the parts. -/
def run (ev : Evaluator) : Plan → Context → State → Outcome
  | .finish v, _, s => .done v s
  | .unfinished, _, _ => .unfinished
  | .look k, ctx, s => (k s.env).run ev ctx s
  | .note e _ next, ctx, s => next.run ev ctx (s.note ctx e)
  | .emit v next, ctx, s => next.run ev ctx (s.emit v)
  | .bind name b next, ctx, s => next.run ev ctx (s.bind name b)
  | .ask .kept m k, ctx, s => (ev ctx m s).andThen fun v t => (k v).run ev ctx t
  | .ask .undone m k, ctx, s =>
    ((ev ctx m s).inEnv s.env).andThen fun v t => (k v).run ev ctx t
  | .askReturn name m, ctx, s => (ev ctx m s).noted ctx (.returned name)
  | .guarded name inner, ctx, s =>
    if ctx.limit ≤ ctx.depth then fail (.depthExceeded ctx.limit name) s
    else (inner.run ev ctx s).caught (.callTooDeep name ctx.inCall.depth) s.env
  | .framed name params vs inner, ctx, s =>
    (inner.run ev ctx.inCall (State.note ⟨s.env.bindAll params vs, s.log⟩ ctx
      (.entered name ctx.inCall.depth))).mapEnv fun env => Env.restore s.env env params

/-! ### The plans of the rules -/

/-- End with an error. -/
def refuse (fault : Fault) : Plan := .finish (.error fault)

/-- A node that lacks a property or a slot. -/
def malformed (kind : Kind) (part : String) : Plan :=
  refuse (.malformed kind.name (some part))

def statements (stop : Node.SpineEnd) : List Node → Plan
  | [] => match stop with
    | .last m => .ask .kept m .finish
    | .broken slot => malformed .sequence slot.name
  | statement :: rest => .ask .kept statement fun _ => statements stop rest

def store (name : String) (constant : Bool) (v : Value) : Plan :=
  .look fun env => match env[name]? with
    | some (.subroutine _ _ _) => refuse (.wrongKind name "variable" "subroutine")
    | some (.variable _ true) => refuse (.constantReassigned name)
    | _ => .note (.assigned name v) rfl (.bind name (.variable v constant) (.finish .unit))

def assignment (n : Node) : Plan :=
  match n.text? "name", n.property? "constant", n.child? .argument with
  | none, _, _ => malformed .assignment "name"
  | some _, none, _ => malformed .assignment "constant"
  | some _, some _, none => malformed .assignment "argument"
  | some name, some constant, some argument => .ask .kept argument (store name constant.isSet)

def definition (n : Node) : Plan :=
  match n.text? "name" with
  | none => malformed .subroutine "name"
  | some name =>
    match Node.parameterNames? (n.child? .params) with
    | none => malformed .parameters "name"
    | some params =>
      if ¬ params.Nodup then refuse (.repeatedParameter name)
      else .look fun env => match env[name]? with
        | some (.variable _ true) => refuse (.constantReassigned name)
        | _ =>
          .note (.defined name params) rfl (.bind name
            (.subroutine params (n.child? .left) (n.child? .ret)) (.finish .unit))

/-- Have arguments evaluated, one after the other, and go on with their values. -/
def passing (k : List Value → Plan) : List Node → Plan
  | [] => k []
  | argument :: rest => .ask .undone argument fun v => passing (fun vs => k (v :: vs)) rest

/-- The result of a call whose body has run. -/
def returning (name : String) : Option Node → Plan
  | some expression => .askReturn name expression
  | none => .note (.returned name .void) rfl (.finish .void)

/-- What happens in a frame. -/
def body (name : String) (tree ret : Option Node) : Plan :=
  match tree with
  | some statements => .ask .kept statements fun _ => returning name ret
  | none => returning name ret

def call (n : Node) : Plan :=
  match n.text? "name" with
  | none => malformed .call "name"
  | some name => .look fun env =>
    match env[name]? with
    | none => refuse (.unresolved "Subroutine" name)
    | some (.variable _ _) => refuse (.wrongKind name "subroutine" "variable")
    | some (.subroutine params tree ret) =>
      match Node.argumentExpressions? (n.child? .argument) with
      | none => malformed .arguments "left"
      | some arguments =>
        if arguments.length ≠ params.length then
          refuse (.wrongArity name params.length arguments.length)
        else
          .guarded name (passing (fun vs => .framed name params vs (body name tree ret)) arguments)

/-- Have a condition evaluated and go on with its truth value. -/
def test (condition : Node) (statement : String) (k : Bool → Plan) : Plan :=
  .ask .kept condition fun v => match v with
    | .bool b => k b
    | v => refuse (.conditionNotBoolean statement v.typeName)

def conditional (n : Node) : Plan :=
  match n.text? "style", n.child? .argument, n.child? .left with
  | none, _, _ => malformed .conditional "style"
  | some _, none, _ => malformed .conditional "argument"
  | some _, some _, none => malformed .conditional "left"
  | some style, some condition, some thenBranch =>
    if style = Node.ifThen then
      test condition "IF" fun b => if b then .ask .kept thenBranch .finish else .finish .unit
    else if style = Node.ifThenElse then
      match n.child? .right with
      | none => malformed .conditional "right"
      | some elseBranch =>
        test condition "IF" fun b =>
          if b then .ask .kept thenBranch .finish else .ask .kept elseBranch .finish
    else refuse (.unknownConditional style)

def whileLoop (condition tree : Node) : Nat → Nat → Value → Plan
  | 0, _, _ => .unfinished
  | rounds + 1, count, value =>
    test condition "WHILE" fun b =>
      if b then
        .note (.iterated Node.whileStyle (count + 1)) rfl
          (.ask .kept tree fun v => whileLoop condition tree rounds (count + 1) v)
      else .finish value

def repeatLoop (condition tree : Node) : Nat → Nat → Plan
  | 0, _ => .unfinished
  | rounds + 1, count =>
    .note (.iterated Node.repeatStyle (count + 1)) rfl (.ask .kept tree fun v =>
      test condition "UNTIL" fun b =>
        if b then .finish v else repeatLoop condition tree rounds (count + 1))

def loop (rounds : Nat) (n : Node) : Plan :=
  match n.text? "style", n.child? .argument, n.child? .left with
  | none, _, _ => malformed .loop "style"
  | some _, none, _ => malformed .loop "argument"
  | some _, some _, none => malformed .loop "left"
  | some style, some condition, some tree =>
    if style = Node.whileStyle then whileLoop condition tree rounds 0 .unit
    else if style = Node.repeatStyle then repeatLoop condition tree rounds 0
    else refuse (.unknownLoop style)

def operands (left right : Node) (combine : Value → Value → Value) : Plan :=
  .ask .kept left fun v => .ask .kept right fun w => .finish (combine v w)

def relation (n : Node) : Plan :=
  match n.text? "relation", n.child? .left, n.child? .right with
  | none, _, _ => malformed .relation "relation"
  | some _, none, _ => malformed .relation "left"
  | some _, some _, none => malformed .relation "right"
  | some name, some left, some right => operands left right (relate name)

def binary (n : Node) : Plan :=
  match n.text? "operation", n.child? .left, n.child? .right with
  | none, _, _ => malformed .binary "operation"
  | some _, none, _ => malformed .binary "left"
  | some _, some _, none => malformed .binary "right"
  | some name, some left, some right => operands left right (Pseudocode.binary name)

def unary (n : Node) : Plan :=
  match n.text? "operation", n.child? .argument with
  | none, _ => malformed .unary "operation"
  | some _, none => malformed .unary "argument"
  | some name, some argument => .ask .kept argument fun v => .finish (Pseudocode.unary name v)

def output (n : Node) : Plan :=
  match n.child? .argument with
  | none => malformed .output "argument"
  | some argument => .ask .kept argument fun v => .emit v (.finish v)

def arguments (n : Node) : Plan :=
  match n.child? .left with
  | none => malformed .arguments "left"
  | some first => .ask .undone first fun v =>
    match n.child? .right with
    | none => .finish (.string v.display)
    | some rest => .ask .undone rest fun w => .finish (.string (v.display ++ ", " ++ w.display))

def bracket (n : Node) : Plan :=
  match n.child? .argument with
  | none => malformed .bracket "argument"
  | some argument => .ask .kept argument .finish

def reference (n : Node) : Plan :=
  match n.text? "name" with
  | none => malformed .variable "name"
  | some name => .look fun env => match env[name]? with
    | none => refuse (.unresolved "Variable" name)
    | some (.subroutine _ _ _) => refuse (.wrongKind name "variable" "subroutine")
    | some (.variable v _) => .finish v

/-- The plan of a node. -/
def ofNode (rounds : Nat) (n : Node) : Plan :=
  match n.kind with
  | .sequence => statements n.spine.2 n.spine.1
  | .assignment => assignment n
  | .subroutine => definition n
  | .call => call n
  | .conditional => conditional n
  | .loop => loop rounds n
  | .relation => relation n
  | .binary => binary n
  | .unary => unary n
  | .output => output n
  | .arguments => arguments n
  | .parameters => refuse .parametersEvaluated
  | .bracket => bracket n
  | .variable => reference n
  | .number => .finish (Literal.number (n.text? "significand"))
  | .boolean => .finish (Literal.boolean (n.property? "significand"))
  | .unknown | .other _ => .note (.unclassified n.kind) rfl (refuse .unknownInstruction)

/-! ### Plans and rules -/

variable {ev : Evaluator} {ctx : Context} {n : Node} {s : State}

theorem run_look (k : Env → Plan) : (look k).run ev ctx s = (k s.env).run ev ctx s := rfl

theorem run_ask_kept (m : Node) (k : Value → Plan) :
    (ask .kept m k).run ev ctx s = (ev ctx m s).andThen fun v t => (k v).run ev ctx t := rfl

theorem run_ask_undone (m : Node) (k : Value → Plan) :
    (ask .undone m k).run ev ctx s
      = ((ev ctx m s).inEnv s.env).andThen fun v t => (k v).run ev ctx t := rfl

theorem run_askReturn (name : String) (m : Node) :
    (askReturn name m).run ev ctx s = (ev ctx m s).noted ctx (.returned name) := rfl

/-- A call at the depth limit is refused. -/
theorem run_guarded_of_le (name : String) (inner : Plan) (h : ctx.limit ≤ ctx.depth) :
    (guarded name inner).run ev ctx s = fail (.depthExceeded ctx.limit name) s :=
  if_pos h

/-- Below the limit it goes on, and a stack exhausted from here on is the error of this call. -/
theorem run_guarded_of_not_le (name : String) (inner : Plan) (h : ¬ ctx.limit ≤ ctx.depth) :
    (guarded name inner).run ev ctx s
      = (inner.run ev ctx s).caught (.callTooDeep name ctx.inCall.depth) s.env :=
  if_neg h

/-- A frame is a copy of the environment with the parameters bound, and leaving it restores the
environment of the caller. -/
theorem run_framed (name : String) (params : List String) (vs : List Value) (inner : Plan) :
    (framed name params vs inner).run ev ctx s
      = (inner.run ev ctx.inCall (State.note ⟨s.env.bindAll params vs, s.log⟩ ctx
          (.entered name ctx.inCall.depth))).mapEnv fun env => Env.restore s.env env params := rfl

/-- Having a part evaluated, whatever becomes of its effects. -/
theorem run_ask (effects : Effects) (m : Node) (k : Value → Plan) :
    (ask effects m k).run ev ctx s
      = ((ev ctx m s).mapEnv (effects.after s.env)).andThen fun v t => (k v).run ev ctx t := by
  cases effects with
  | kept =>
    rw [run_ask_kept]
    rcases ev ctx m s with ⟨v, t⟩ | log | - <;> rfl
  | undone => rfl

/-- A part whose value is the end is a part evaluated. -/
@[simp] theorem run_ask_finish (m : Node) : (ask .kept m .finish).run ev ctx s = ev ctx m s := by
  show (ev ctx m s).andThen _ = _
  rcases ev ctx m s with ⟨v, t⟩ | log | -
  · rcases hv : v.isError with - | -
    · exact andThen_done_of_not_isError hv t _
    · obtain ⟨fault, rfl⟩ := Value.isError_iff.mp hv
      rfl
  · rfl
  · rfl

theorem run_statements (stop : Node.SpineEnd) (ns : List Node) :
    (statements stop ns).run ev ctx s = Eval.statements ev ctx stop ns s := by
  induction ns generalizing s with
  | nil =>
    rcases stop with m | slot
    · exact run_ask_finish m
    · rfl
  | cons statement rest ih =>
    show (ev ctx statement s).andThen _ = (ev ctx statement s).andThen _
    simp only [ih]

theorem run_store (name : String) (constant : Bool) (v : Value) :
    (store name constant v).run ev ctx s = Eval.store ctx name constant v s := by
  unfold store Eval.store
  rw [run_look]
  rcases s.env[name]? with - | (⟨w, - | -⟩ | ⟨params, tree, ret⟩) <;> rfl

theorem run_assignment : (assignment n).run ev ctx s = Eval.assignment ev ctx n s := by
  unfold assignment Eval.assignment
  rcases n.text? "name" with - | name
  · rfl
  rcases n.property? "constant" with - | constant
  · rfl
  rcases n.child? .argument with - | argument
  · rfl
  simp only [run_ask_kept, run_store]

theorem run_definition : (definition n).run ev ctx s = Eval.definition ctx n s := by
  unfold definition Eval.definition
  rcases n.text? "name" with - | name
  · rfl
  dsimp only
  rcases Node.parameterNames? (n.child? .params) with - | params
  · rfl
  dsimp only
  by_cases hnodup : params.Nodup
  · rw [if_neg (not_not_intro hnodup), if_neg (not_not_intro hnodup), run_look]
    rcases s.env[name]? with - | (⟨w, - | -⟩ | ⟨params', tree, ret⟩) <;> rfl
  · rw [if_pos hnodup, if_pos hnodup]
    rfl

/-- The values of the arguments are collected, and at their end the frame is what binding them one
by one would have made it. -/
theorem run_passing {params : List String} {es : List Node} (hlen : es.length = params.length)
    {k : List Value → Plan} {after : State → Outcome} {caller frame : Env} {log : List Event}
    (hk : ∀ vs t, (k vs).run ev ctx ⟨caller, t⟩ = after ⟨frame.bindAll params vs, t⟩) :
    (passing k es).run ev ctx ⟨caller, log⟩
      = Eval.passArguments ev ctx caller after (params.zip es) ⟨frame, log⟩ := by
  -- induction on the arguments; the frame grows by one parameter with each
  induction es generalizing params k frame log with
  | nil =>
    obtain rfl := List.length_eq_zero_iff.mp hlen.symm
    exact hk [] log
  | cons e es ih =>
    obtain ⟨param, params, rfl⟩ := List.exists_cons_of_length_eq_add_one hlen.symm
    -- what follows the first argument, whatever value it has
    have hnext : ∀ (v : Value) (t : List Event),
        (passing (fun vs => k (v :: vs)) es).run ev ctx ⟨caller, t⟩
          = Eval.passArguments ev ctx caller after (params.zip es)
              ⟨frame.insert param (.variable v false), t⟩ :=
      fun v t => ih (Nat.succ.inj hlen) fun vs t => hk (v :: vs) t
    simp only [passing, run_ask_undone, List.zip_cons_cons, Eval.passArguments]
    rcases ev ctx e ⟨caller, log⟩ with ⟨v, t⟩ | log' | -
    · simp only [inEnv, mapEnv, andThen, hnext]
    · rfl
    · rfl

theorem run_returning (name : String) (ret : Option Node) :
    (returning name ret).run ev ctx.inCall s = Eval.returned ev ctx name ret s := by
  rcases ret with - | m <;> rfl

/-- The plan of the body of a call is the rule, from the state in which the entry is recorded. -/
theorem run_body (name : String) (tree ret : Option Node) :
    (body name tree ret).run ev ctx.inCall (s.note ctx (.entered name ctx.inCall.depth))
      = Eval.body ev ctx name tree ret s := by
  rcases tree with - | m
  · exact run_returning name ret
  · simp only [body, run_ask_kept, run_returning, Eval.body]

/-- The plan of a call is its rule. -/
theorem run_call : (call n).run ev ctx s = Eval.call ev ctx n s := by
  unfold call Eval.call
  rcases n.text? "name" with - | name
  · rfl
  dsimp only
  rw [run_look]
  rcases s.env[name]? with - | (⟨v, constant⟩ | ⟨params, tree, ret⟩)
  · rfl
  · rfl
  dsimp only
  rcases Node.argumentExpressions? (n.child? .argument) with - | es
  · rfl
  dsimp only
  by_cases hlen : es.length = params.length
  · rw [if_neg (not_not_intro hlen), if_neg (not_not_intro hlen)]
    -- below the depth limit the frame is entered with the values of the arguments
    have hinvoke : (passing (fun vs => .framed name params vs (body name tree ret)) es).run ev ctx s
        = Eval.invoke ev ctx name params tree ret es s := by
      refine run_passing hlen fun vs t => ?_
      rw [run_framed, run_body]
    by_cases hdepth : ctx.limit ≤ ctx.depth
    · rw [run_guarded_of_le _ _ hdepth, if_pos hdepth]
    · rw [run_guarded_of_not_le _ _ hdepth, if_neg hdepth, hinvoke]
  · rw [if_pos hlen, if_pos hlen]
    rfl

/-- The plan of testing a condition is the rule, if what follows agrees for both truth values. -/
theorem run_test (condition : Node) (statement : String) {k : Bool → Plan}
    {after : Bool → State → Outcome} (hk : ∀ b t, (k b).run ev ctx t = after b t) :
    (test condition statement k).run ev ctx s = Eval.test ev ctx condition statement s after := by
  unfold test Eval.test
  rw [run_ask_kept]
  congr 1
  funext v t
  rcases v with x | b | text | - | fault
  · rfl
  · exact hk b t
  all_goals rfl

/-- The plan of a conditional statement is its rule. -/
theorem run_conditional : (conditional n).run ev ctx s = Eval.conditional ev ctx n s := by
  unfold conditional Eval.conditional
  rcases n.text? "style" with - | style
  · rfl
  rcases n.child? .argument with - | condition
  · rfl
  rcases n.child? .left with - | thenBranch
  · rfl
  dsimp only
  by_cases hthen : style = Node.ifThen
  · rw [if_pos hthen, if_pos hthen]
    -- a branch that is not taken gives no value
    refine run_test _ _ fun b t => ?_
    rcases b with - | -
    · rfl
    · exact run_ask_finish _
  rw [if_neg hthen, if_neg hthen]
  by_cases helse : style = Node.ifThenElse
  · rw [if_pos helse, if_pos helse]
    rcases n.child? .right with - | elseBranch
    · rfl
    · refine run_test _ _ fun b t => ?_
      rcases b with - | - <;> exact run_ask_finish _
  · rw [if_neg helse, if_neg helse]
    rfl

theorem run_whileLoop (condition tree : Node) (rounds count : Nat) (value : Value) :
    (whileLoop condition tree rounds count value).run ev ctx s
      = Eval.whileLoop ev ctx condition tree rounds count value s := by
  induction rounds generalizing count value s with
  | zero => rfl
  | succ rounds ih =>
    refine run_test _ _ fun b t => ?_
    rcases b with - | -
    · rfl
    · show (ev ctx tree _).andThen _ = (ev ctx tree _).andThen _
      simp only [ih]

theorem run_repeatLoop (condition tree : Node) (rounds count : Nat) :
    (repeatLoop condition tree rounds count).run ev ctx s
      = Eval.repeatLoop ev ctx condition tree rounds count s := by
  induction rounds generalizing count s with
  | zero => rfl
  | succ rounds ih =>
    show (ev ctx tree _).andThen _ = (ev ctx tree _).andThen _
    congr 1
    funext v t
    refine run_test _ _ fun b t => ?_
    rcases b with - | -
    · exact ih (count + 1)
    · rfl

/-- The plan of a loop is its rule, the style telling the two forms apart. -/
theorem run_loop (rounds : Nat) : (loop rounds n).run ev ctx s = Eval.loop rounds ev ctx n s := by
  unfold loop Eval.loop
  rcases n.text? "style" with - | style
  · rfl
  rcases n.child? .argument with - | condition
  · rfl
  rcases n.child? .left with - | tree
  · rfl
  dsimp only
  -- the slots are looked up before the style, as in the rule
  by_cases hwhile : style = Node.whileStyle
  · rw [if_pos hwhile, if_pos hwhile, run_whileLoop]
  rw [if_neg hwhile, if_neg hwhile]
  by_cases hrepeat : style = Node.repeatStyle
  · rw [if_pos hrepeat, if_pos hrepeat, run_repeatLoop]
  · rw [if_neg hrepeat, if_neg hrepeat]
    rfl

theorem run_relation : (relation n).run ev ctx s = Eval.relation ev ctx n s := by
  unfold relation Eval.relation
  rcases n.text? "relation" with - | name
  · rfl
  rcases n.child? .left with - | left
  · rfl
  rcases n.child? .right with - | right <;> rfl

theorem run_binary : (binary n).run ev ctx s = Eval.binary ev ctx n s := by
  unfold binary Eval.binary
  rcases n.text? "operation" with - | name
  · rfl
  rcases n.child? .left with - | left
  · rfl
  rcases n.child? .right with - | right <;> rfl

theorem run_unary : (unary n).run ev ctx s = Eval.unary ev ctx n s := by
  unfold unary Eval.unary
  rcases n.text? "operation" with - | name
  · rfl
  rcases n.child? .argument with - | argument <;> rfl

theorem run_output : (output n).run ev ctx s = Eval.output ev ctx n s := by
  unfold output Eval.output
  rcases n.child? .argument with - | argument <;> rfl

theorem run_arguments : (arguments n).run ev ctx s = Eval.arguments ev ctx n s := by
  unfold arguments Eval.arguments
  rcases n.child? .left with - | first
  · rfl
  · dsimp only
    rw [run_ask_undone]
    congr 1
    funext v t
    rcases n.child? .right with - | rest <;> rfl

theorem run_bracket : (bracket n).run ev ctx s = Eval.bracket ev ctx n s := by
  unfold bracket Eval.bracket
  rcases n.child? .argument with - | argument
  · rfl
  · exact run_ask_finish argument

theorem run_reference : (reference n).run ev ctx s = Eval.reference n s := by
  unfold reference Eval.reference
  rcases n.text? "name" with - | name
  · rfl
  · dsimp only
    rw [run_look]
    rcases s.env[name]? with - | (⟨v, constant⟩ | ⟨params, tree, ret⟩) <;> rfl

end Plan

/-- The rule of a node is its plan, carried out. -/
theorem step_eq_run (rounds : Nat) (ev : Evaluator) (ctx : Context) (n : Node) (s : State) :
    Eval.step rounds ev ctx n s = (Plan.ofNode rounds n).run ev ctx s := by
  unfold Eval.step Plan.ofNode
  -- one case for each kind, in the order of the table; the leaves have no parts
  rcases n.kind with _ | _ | _ | _ | _ | _ | _ | _ | _ | _ | _ | _ | _ | _ | _ | _ | _ | name
  · exact (Plan.run_statements ..).symm
  · exact Plan.run_assignment.symm
  · exact Plan.run_definition.symm
  · exact Plan.run_call.symm
  · exact Plan.run_conditional.symm
  · exact (Plan.run_loop rounds).symm
  · exact Plan.run_relation.symm
  · exact Plan.run_binary.symm
  · exact Plan.run_unary.symm
  · exact Plan.run_output.symm
  · exact Plan.run_arguments.symm
  · rfl
  · exact Plan.run_bracket.symm
  · exact Plan.run_reference.symm
  all_goals rfl

/-- A node is its plan between the notes of its start and of its end, if the stack holds it. -/
theorem eval_of_descend {fuel : Nat} {ctx inner : Context} {n : Node} {s : State}
    (h : ctx.descend? = some inner) :
    eval (fuel + 1) ctx n s
      = ((Plan.ofNode fuel n).run (eval fuel) inner (s.note ctx (.started n.kind))).noted ctx
          .completed := by
  simp only [eval, h, step_eq_run]

/-- A node for which the stack has no room is an overflow, whatever it is. -/
theorem eval_of_no_room {fuel : Nat} {ctx : Context} {n : Node} {s : State}
    (h : ctx.descend? = none) : eval (fuel + 1) ctx n s = .overflow s.log := by
  simp only [eval, h]

end Pseudocode
