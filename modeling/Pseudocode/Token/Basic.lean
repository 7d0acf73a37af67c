import Pseudocode.Literal
import Pseudocode.Operator

/-!
Tokens: the words and signs of which a program is made.

The spellings of an arrow or a relation are not kept, nor is the layout between tokens, so two
source texts with the same tokens are the same program.
-/

namespace Pseudocode

/-- A word with a fixed meaning. -/
inductive Keyword where
  | CONSTANT | SUBROUTINE | ENDSUBROUTINE | RETURN | IF | THEN | ELSE | ENDIF | WHILE | ENDWHILE
  | REPEAT | UNTIL | OUTPUT | AND | OR | NOT
deriving DecidableEq, Repr

namespace Keyword

/-- The keywords in the order in which they are listed to a user. -/
def all : List Keyword :=
  [.CONSTANT, .SUBROUTINE, .ENDSUBROUTINE, .RETURN, .IF, .THEN, .ELSE, .ENDIF, .WHILE, .ENDWHILE,
    .REPEAT, .UNTIL, .OUTPUT, .AND, .OR, .NOT]

def word : Keyword → String
  | .CONSTANT => "CONSTANT"
  | .SUBROUTINE => "SUBROUTINE"
  | .ENDSUBROUTINE => "ENDSUBROUTINE"
  | .RETURN => "RETURN"
  | .IF => "IF"
  | .THEN => "THEN"
  | .ELSE => "ELSE"
  | .ENDIF => "ENDIF"
  | .WHILE => "WHILE"
  | .ENDWHILE => "ENDWHILE"
  | .REPEAT => "REPEAT"
  | .UNTIL => "UNTIL"
  | .OUTPUT => "OUTPUT"
  | .AND => "AND"
  | .OR => "OR"
  | .NOT => "NOT"

def ofWord? (s : String) : Option Keyword :=
  all.find? fun k => k.word == s

end Keyword

/-- A word or sign of a program. -/
inductive Token where
  | keyword (word : Keyword)
  | boolean (truth : Bool)
  | name (text : String)
  /-- A number, as it is written. -/
  | number (text : String)
  /-- The sign of assignment. -/
  | arrow
  | relation (relation : Relation)
  | plus | minus | times | divide
  | lparen | rparen | comma
deriving DecidableEq, Repr

namespace Token

/-- The token that a word with a fixed meaning is. -/
def reserved? (s : String) : Option Token :=
  if s = Literal.trueText then some (.boolean true)
  else if s = Literal.falseText then some (.boolean false)
  else (Keyword.ofWord? s).map .keyword

end Token

end Pseudocode
