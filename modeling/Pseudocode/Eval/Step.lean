import Pseudocode.Eval.Outcome
import Pseudocode.Literal
import Pseudocode.Node.Build
import Pseudocode.Node.Chain
import Pseudocode.Operator

/-!
The rules of evaluation: what a node of each kind does, given how its parts are evaluated.

Every rule first looks for the properties and slots that its kind requires, in a fixed order, and
reports the first one that is missing. Parts are evaluated in order, each in the environment that
the part before left, except for the arguments of a call, which all see the caller's environment.

Design. The rules take the evaluator of the parts as an argument, so each of them is a plain
function that can be read and reasoned about alone; `Pseudocode.eval` ties the knot. Loops take the
number of rounds that they may run as well.
-/

namespace Pseudocode

/-- A way to evaluate nodes. -/
abbrev Evaluator := Context → Node → State → Outcome

namespace Eval

open Outcome

/-- A node that lacks a property or a slot. -/
def malformed (kind : Kind) (part : String) (s : State) : Outcome :=
  fail (.malformed kind.name (some part)) s

/-! ### Blocks, assignments and definitions -/

/-- Run statements one after the other, then the end of the block. -/
def statements (ev : Evaluator) (ctx : Context) (stop : Node.SpineEnd) :
    List Node → State → Outcome
  | [], s => match stop with
    | .last n => ev ctx n s
    | .broken slot => malformed .sequence slot.name s
  | statement :: rest, s => (ev ctx statement s).andThen fun _ s => statements ev ctx stop rest s

/-- Run a block along its spine. -/
def sequence (ev : Evaluator) (ctx : Context) (n : Node) (s : State) : Outcome :=
  statements ev ctx n.spine.2 n.spine.1 s

/-- Bind a value to a name unless the name is a subroutine or a constant. -/
def store (ctx : Context) (name : String) (constant : Bool) (v : Value) (s : State) : Outcome :=
  match s.env[name]? with
  | some (.subroutine _ _ _) => fail (.wrongKind name "variable" "subroutine") s
  | some (.variable _ true) => fail (.constantReassigned name) s
  | _ => .done .unit ((s.note ctx (.assigned name v)).bind name (.variable v constant))

/-- Evaluate the right-hand side and bind it. -/
def assignment (ev : Evaluator) (ctx : Context) (n : Node) (s : State) : Outcome :=
  match n.text? "name", n.property? "constant", n.child? .argument with
  | none, _, _ => malformed .assignment "name" s
  | some _, none, _ => malformed .assignment "constant" s
  | some _, some _, none => malformed .assignment "argument" s
  | some name, some constant, some argument =>
    (ev ctx argument s).andThen fun v s => store ctx name constant.isSet v s

/-- Bind a subroutine unless its name is a constant or a parameter occurs twice. -/
def definition (ctx : Context) (n : Node) (s : State) : Outcome :=
  match n.text? "name" with
  | none => malformed .subroutine "name" s
  | some name =>
    match Node.parameterNames? (n.child? .params) with
    | none => malformed .parameters "name" s
    | some params =>
      if ¬ params.Nodup then fail (.repeatedParameter name) s
      else match s.env[name]? with
        | some (.variable _ true) => fail (.constantReassigned name) s
        | _ =>
          .done .unit ((s.note ctx (.defined name params)).bind name
            (.subroutine params (n.child? .left) (n.child? .ret)))

/-! ### Calls -/

/-- Evaluate arguments in the caller's environment and bind them to the parameters in the frame,
then go on with the frame. The first error is the result, in the caller's environment. -/
def passArguments (ev : Evaluator) (ctx : Context) (caller : Env) (k : State → Outcome) :
    List (String × Node) → State → Outcome
  | [], frame => k frame
  | (param, argument) :: rest, frame =>
    ((ev ctx argument ⟨caller, frame.log⟩).inEnv caller).andThen fun v s =>
      passArguments ev ctx caller k rest
        ⟨frame.env.insert param (.variable v false), s.log⟩

/-- The result of a call whose body has run. -/
def returned (ev : Evaluator) (ctx : Context) (name : String) (ret : Option Node) (s : State) :
    Outcome :=
  let result := match ret with
    | some expression => ev ctx.inCall expression s
    | none => .done .void s
  result.noted ctx (.returned name)

/-- Run a body in its frame and compute the result. -/
def body (ev : Evaluator) (ctx : Context) (name : String) (tree ret : Option Node)
    (frame : State) : Outcome :=
  let s := frame.note ctx (.entered name ctx.inCall.depth)
  match tree with
  | some statements =>
    (ev ctx.inCall statements s).andThen fun _ s => returned ev ctx name ret s
  | none => returned ev ctx name ret s

/-- Run a subroutine on arguments and reconcile the frame with the caller's environment. -/
def invoke (ev : Evaluator) (ctx : Context) (name : String) (params : List String)
    (tree ret : Option Node) (arguments : List Node) (s : State) : Outcome :=
  passArguments ev ctx s.env
    (fun frame =>
      (body ev ctx name tree ret frame).mapEnv fun env => Env.restore s.env env params)
    (params.zip arguments) s

/-- Call a subroutine. The checks come in this order: the name, its binding, the argument list, the
number of arguments, the depth. A stack exhausted anywhere in the call is the call's error. -/
def call (ev : Evaluator) (ctx : Context) (n : Node) (s : State) : Outcome :=
  match n.text? "name" with
  | none => malformed .call "name" s
  | some name =>
    match s.env[name]? with
    | none => fail (.unresolved "Subroutine" name) s
    | some (.variable _ _) => fail (.wrongKind name "subroutine" "variable") s
    | some (.subroutine params tree ret) =>
      match Node.argumentExpressions? (n.child? .argument) with
      | none => malformed .arguments "left" s
      | some arguments =>
        if arguments.length ≠ params.length then
          fail (.wrongArity name params.length arguments.length) s
        else if ctx.limit ≤ ctx.depth then fail (.depthExceeded ctx.limit name) s
        else
          (invoke ev ctx name params tree ret arguments s).caught
            (.callTooDeep name ctx.inCall.depth) s.env

/-! ### Conditionals and loops -/

/-- Evaluate a condition and go on with its truth value. -/
@[inline] def test (ev : Evaluator) (ctx : Context) (condition : Node) (statement : String)
    (s : State) (k : Bool → State → Outcome) : Outcome :=
  (ev ctx condition s).andThen fun v s => match v with
    | .bool b => k b s
    | v => fail (.conditionNotBoolean statement v.typeName) s

/-- Choose a branch. Without an alternative a false condition has no effect of its own. -/
def conditional (ev : Evaluator) (ctx : Context) (n : Node) (s : State) : Outcome :=
  match n.text? "style", n.child? .argument, n.child? .left with
  | none, _, _ => malformed .conditional "style" s
  | some _, none, _ => malformed .conditional "argument" s
  | some _, some _, none => malformed .conditional "left" s
  | some style, some condition, some thenBranch =>
    if style = Node.ifThen then
      test ev ctx condition "IF" s fun b s =>
        if b then ev ctx thenBranch s else .done .unit s
    else if style = Node.ifThenElse then
      match n.child? .right with
      | none => malformed .conditional "right" s
      | some elseBranch =>
        test ev ctx condition "IF" s fun b s =>
          if b then ev ctx thenBranch s else ev ctx elseBranch s
    else fail (.unknownConditional style) s

/-- Test, run the body, and start again, while the condition is true. -/
def whileLoop (ev : Evaluator) (ctx : Context) (condition tree : Node) :
    Nat → Nat → Value → State → Outcome
  | 0, _, _, _ => .unfinished
  | rounds + 1, count, value, s =>
    test ev ctx condition "WHILE" s fun b s =>
      if b then
        (ev ctx tree (s.note ctx (.iterated Node.whileStyle (count + 1)))).andThen fun v s =>
          whileLoop ev ctx condition tree rounds (count + 1) v s
      else .done value s

/-- Run the body, test, and start again, until the condition is true. -/
def repeatLoop (ev : Evaluator) (ctx : Context) (condition tree : Node) :
    Nat → Nat → State → Outcome
  | 0, _, _ => .unfinished
  | rounds + 1, count, s =>
    (ev ctx tree (s.note ctx (.iterated Node.repeatStyle (count + 1)))).andThen fun v s =>
      test ev ctx condition "UNTIL" s fun b s =>
        if b then .done v s else repeatLoop ev ctx condition tree rounds (count + 1) s

/-- Run a loop. Its value is that of its last round. -/
def loop (rounds : Nat) (ev : Evaluator) (ctx : Context) (n : Node) (s : State) : Outcome :=
  match n.text? "style", n.child? .argument, n.child? .left with
  | none, _, _ => malformed .loop "style" s
  | some _, none, _ => malformed .loop "argument" s
  | some _, some _, none => malformed .loop "left" s
  | some style, some condition, some tree =>
    if style = Node.whileStyle then whileLoop ev ctx condition tree rounds 0 .unit s
    else if style = Node.repeatStyle then repeatLoop ev ctx condition tree rounds 0 s
    else fail (.unknownLoop style) s

/-! ### Expressions -/

/-- Evaluate two operands and combine their values. -/
def operands (ev : Evaluator) (ctx : Context) (left right : Node)
    (combine : Value → Value → Value) (s : State) : Outcome :=
  (ev ctx left s).andThen fun v s =>
    (ev ctx right s).andThen fun w s => .done (combine v w) s

/-- Compare two numbers. -/
def relation (ev : Evaluator) (ctx : Context) (n : Node) (s : State) : Outcome :=
  match n.text? "relation", n.child? .left, n.child? .right with
  | none, _, _ => malformed .relation "relation" s
  | some _, none, _ => malformed .relation "left" s
  | some _, some _, none => malformed .relation "right" s
  | some name, some left, some right => operands ev ctx left right (relate name) s

/-- Apply an operation to two operands. -/
def binary (ev : Evaluator) (ctx : Context) (n : Node) (s : State) : Outcome :=
  match n.text? "operation", n.child? .left, n.child? .right with
  | none, _, _ => malformed .binary "operation" s
  | some _, none, _ => malformed .binary "left" s
  | some _, some _, none => malformed .binary "right" s
  | some name, some left, some right =>
    operands ev ctx left right (Pseudocode.binary name) s

/-- Apply an operation to one operand. -/
def unary (ev : Evaluator) (ctx : Context) (n : Node) (s : State) : Outcome :=
  match n.text? "operation", n.child? .argument with
  | none, _ => malformed .unary "operation" s
  | some _, none => malformed .unary "argument" s
  | some name, some argument =>
    (ev ctx argument s).andThen fun v s => .done (Pseudocode.unary name v) s

/-- Put out a value and pass it on. -/
def output (ev : Evaluator) (ctx : Context) (n : Node) (s : State) : Outcome :=
  match n.child? .argument with
  | none => malformed .output "argument" s
  | some argument => (ev ctx argument s).andThen fun v s => .done v (s.emit v)

/-- The display of an argument list. Every argument sees the same environment, which is also the
one that is left. -/
def arguments (ev : Evaluator) (ctx : Context) (n : Node) (s : State) : Outcome :=
  match n.child? .left with
  | none => malformed .arguments "left" s
  | some first =>
    ((ev ctx first s).inEnv s.env).andThen fun v s =>
      match n.child? .right with
      | none => .done (.string v.display) s
      | some rest =>
        ((ev ctx rest s).inEnv s.env).andThen fun w s =>
          .done (.string (v.display ++ ", " ++ w.display)) s

/-- Evaluate what a bracket encloses. -/
def bracket (ev : Evaluator) (ctx : Context) (n : Node) (s : State) : Outcome :=
  match n.child? .argument with
  | none => malformed .bracket "argument" s
  | some argument => ev ctx argument s

/-- Read a variable. -/
def reference (n : Node) (s : State) : Outcome :=
  match n.text? "name" with
  | none => malformed .variable "name" s
  | some name =>
    match s.env[name]? with
    | none => fail (.unresolved "Variable" name) s
    | some (.subroutine _ _ _) => fail (.wrongKind name "variable" "subroutine") s
    | some (.variable v _) => .done v s

/-! ### All kinds -/

/-- Evaluate a node by the rule of its kind. -/
def step (rounds : Nat) (ev : Evaluator) (ctx : Context) (n : Node) (s : State) : Outcome :=
  match n.kind with
  | .sequence => sequence ev ctx n s
  | .assignment => assignment ev ctx n s
  | .subroutine => definition ctx n s
  | .call => call ev ctx n s
  | .conditional => conditional ev ctx n s
  | .loop => loop rounds ev ctx n s
  | .relation => relation ev ctx n s
  | .binary => binary ev ctx n s
  | .unary => unary ev ctx n s
  | .output => output ev ctx n s
  | .arguments => arguments ev ctx n s
  | .parameters => fail .parametersEvaluated s
  | .bracket => bracket ev ctx n s
  | .variable => reference n s
  | .number => .done (Literal.number (n.text? "significand")) s
  | .boolean => .done (Literal.boolean (n.property? "significand")) s
  | .unknown | .other _ => fail .unknownInstruction (s.note ctx (.unclassified n.kind))

end Eval

end Pseudocode
