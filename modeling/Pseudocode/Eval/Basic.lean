import Pseudocode.Eval.Step

/-!
Evaluation of trees.

`eval` applies the rules of `Pseudocode.Eval` to a node and, through them, to its parts. It is
given a number of steps, which bounds both the nesting of nodes and the rounds of a loop; a run that
needs more is unfinished, and a finished run does not depend on the number.

A nested node takes one place of the stack. The statements of a block and the rounds of a loop take
theirs one after the other, so long programs and long loops need no more room than short ones.
-/

namespace Pseudocode

/-- Evaluate a node in at most `fuel` nested steps. -/
def eval : Nat → Evaluator
  | 0, _, _, _ => .unfinished
  | fuel + 1, ctx, n, s =>
    match ctx.descend? with
    | none => .overflow s.log
    | some inner =>
      (Eval.step fuel (eval fuel) inner n (s.note ctx (.started n.kind))).noted ctx .completed

/-- Evaluate a node for a host: an exhausted stack is an error in the environment at the start. -/
def evalGuarded (fuel : Nat) (ctx : Context) (n : Node) (s : State) : Outcome :=
  (eval fuel ctx n s).caught .programTooDeep s.env

end Pseudocode
