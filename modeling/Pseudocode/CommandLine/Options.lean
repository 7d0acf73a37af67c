import Pseudocode.Decimal.Reading
import Pseudocode.Interpreter
import Pseudocode.Text.Quoted

/-!
The options of the command line.

An argument that starts with a dash is an option: its name in full, a long name cut short as long as
only one option can be meant, or several one-letter names in one. A value is the next argument or
is attached to the name, after an equals sign or, to a one-letter name, directly; what is attached to
a one-letter name that takes no value is further one-letter names. Everything else is plain: the
first plain argument is the script, and negative numbers, arguments with a space in them and
everything after a double dash are plain.

Design. `classify` decides what each argument is before any of them is acted on; `Reading.words` then
goes through them from left to right and stops at the first that asks for help or the version, or
that cannot be right.
-/

namespace Pseudocode.CommandLine

/-! ### What can be asked for -/

/-- An option. -/
inductive Flag where
  | help | interactive | parse | debug | maxDepth | version
deriving DecidableEq, Repr

namespace Flag

/-- The names of all options, in the order in which they are listed. -/
def names : List (String × Flag) :=
  [("-h", .help), ("--help", .help), ("-i", .interactive), ("--interactive", .interactive),
    ("--parse", .parse), ("--debug", .debug), ("--max-depth", .maxDepth), ("--version", .version)]

/-- The option of a name. -/
def named? (name : String) : Option Flag := names.lookup name

/-- The names of the option, as messages give them. -/
def title (f : Flag) : String :=
  "/".intercalate ((names.filter fun entry => entry.2 = f).map Prod.fst)

/-- Does the option need a value? -/
def takesValue : Flag → Bool
  | .maxDepth => true
  | _ => false

end Flag

/-- What the options say. -/
structure Options where
  script : Option String
  interactive : Bool
  parse : Bool
  debug : Bool
  /-- The depth limit; none if a double dash was given for it, which is never a value. -/
  maxDepth : Option Int
deriving DecidableEq, Repr

/-- The options of a command line that says nothing. -/
def Options.initial : Options :=
  { script := none
    interactive := false
    parse := false
    debug := false
    maxDepth := some Settings.defaultLimit }

/-- What a command line comes to. -/
inductive Request where
  | proceed (options : Options)
  | showHelp
  | showVersion
  /-- The command line is wrong. -/
  | refuse (message : String)
deriving DecidableEq, Repr

/-! ### What an argument is -/

/-- What an argument is. -/
inductive Word where
  | plain (text : String)
  /-- The double dash after which everything is plain. -/
  | separator
  /-- An option under one of its names, with what is attached to it. -/
  | flag (flag : Flag) (name : String) (attached : Option String)
  /-- Something that looks like an option and is none. -/
  | unknown (text : String)
deriving DecidableEq, Repr

/-- A text before and after its first equals sign. -/
def splitEquals (cs : List Char) : List Char × Option (List Char) :=
  match cs.span (· != '=') with
  | (before, []) => (before, none)
  | (before, _ :: after) => (before, some after)

/-- The options whose long name starts with a text. -/
def abbreviated (start : List Char) : List (String × Flag) :=
  Flag.names.filter fun (name, _) => start.isPrefixOf name.toList

/-- Is the argument a negative number: a dash and digits, or a dash and a decimal fraction? A line
end may follow. -/
def isNegativeNumber (cs : List Char) : Bool :=
  match cs with
  | '-' :: rest =>
    let body := match rest.reverse with
      | '\n' :: front => front.reverse
      | _ => rest
    match body.dropWhile Text.isDigit with
    | [] => !body.isEmpty
    | '.' :: fraction => !fraction.isEmpty && fraction.all Text.isDigit
    | _ => false
  | _ => false

/-- What an argument is that starts with a dash but is not the name of an option. -/
def classifyDashed (text : String) : Except String Word :=
  let cs := text.toList
  let (before, value) := splitEquals cs
  match value, Flag.named? (String.ofList before) with
  | some v, some f => .ok (.flag f (String.ofList before) (some (String.ofList v)))
  | _, _ =>
    let other : Word :=
      if isNegativeNumber cs || cs.contains ' ' then .plain text else .unknown text
    match cs with
    | '-' :: '-' :: _ =>
      match abbreviated before with
      | [] => .ok other
      | [(name, f)] => .ok (.flag f name (value.map String.ofList))
      | several =>
        .error ("ambiguous option: " ++ text ++ " could match "
          ++ ", ".intercalate (several.map Prod.fst))
    | _ =>
      let short := String.ofList (cs.take 2)
      match Flag.named? short with
      | some f => .ok (.flag f short (some (String.ofList (cs.drop 2))))
      | none => .ok other

/-- What an argument is, if no double dash comes before it. -/
def classify (text : String) : Except String Word :=
  match text.toList with
  | '-' :: rest =>
    match Flag.named? text with
    | some f => .ok (.flag f text none)
    | none => if rest.isEmpty then .ok (.plain text) else classifyDashed text
  | _ => .ok (.plain text)

/-- What the arguments are. -/
def classifyAll : List String → Except String (List Word)
  | [] => .ok []
  | "--" :: rest => .ok (.separator :: rest.map .plain)
  | text :: rest =>
    match classify text with
    | .error message => .error message
    | .ok word => (classifyAll rest).map (word :: ·)

/-! ### One option -/

/-- The message about an option. -/
def complaint (f : Flag) (message : String) : String := "argument " ++ f.title ++ ": " ++ message

/-- The message about a value that an option does not take. -/
def ignored (f : Flag) (value : String) : String :=
  complaint f ("ignored explicit argument " ++ Text.quoted value)

/-- What one argument with options in it comes to: the options in order, and the value of the
last. -/
structure Cluster where
  flags : List Flag
  value : Option String
deriving DecidableEq, Repr

/-- Take apart an option with a text attached to it: the text is the option's value, or, after a
one-letter name that takes none, one or more further one-letter names. -/
def cluster (f : Flag) (oneLetter : Bool) : List Char → Except String Cluster
  | [] => if f.takesValue then .ok ⟨[f], some ""⟩ else .error (ignored f "")
  | c :: rest =>
    let text := String.ofList (c :: rest)
    if f.takesValue then .ok ⟨[f], some text⟩
    else if ¬ oneLetter then .error (ignored f text)
    else match Flag.named? (String.ofList ['-', c]), rest with
      | none, _ => .error (ignored f text)
      | some next, [] => .ok ⟨[f, next], none⟩
      | some next, rest =>
        (cluster next true rest).map fun t => { t with flags := f :: t.flags }

/-! ### All arguments -/

/-- How far the arguments are read. -/
structure Reading where
  options : Options
  /-- Has the place of the script been passed? -/
  taken : Bool
  /-- The arguments that mean nothing, the latest first. -/
  extras : List String
deriving DecidableEq, Repr

namespace Reading

/-- Act on an option; the result is a request if reading ends here. -/
def act (r : Reading) (f : Flag) (value : Option String) : Except Request Reading :=
  match f with
  | .help => .error .showHelp
  | .version => .error .showVersion
  | .interactive => .ok { r with options := { r.options with interactive := true } }
  | .parse => .ok { r with options := { r.options with parse := true } }
  | .debug => .ok { r with options := { r.options with debug := true } }
  | .maxDepth =>
    match value with
    | none => .error (.refuse (complaint f "expected one argument"))
    | some "--" => .ok { r with options := { r.options with maxDepth := none } }
    | some text =>
      match Decimal.integer? text with
      | some n => .ok { r with options := { r.options with maxDepth := some n } }
      | none => .error (.refuse (complaint f ("invalid int value: " ++ Text.quoted text)))

/-- Act on the options of one argument; a value belongs to the last. -/
def actAll (r : Reading) (value : Option String) : List Flag → Except Request Reading
  | [] => .ok r
  | [f] => r.act f value
  | f :: rest => match r.act f none with
    | .error request => .error request
    | .ok r => r.actAll value rest

/-- Take the script. -/
def take (r : Reading) (text : Option String) : Reading :=
  { r with options := { r.options with script := text }, taken := true }

/-- Put an argument among those that mean nothing. -/
def skip (r : Reading) (text : String) : Reading := { r with extras := text :: r.extras }

/-- Read the arguments in order. -/
def words : Reading → List Word → Except Request Reading
  | r, [] => .ok r
  | r, .plain text :: .separator :: rest =>
    if r.taken then words ((r.skip text).skip "--") rest else words (r.take (some text)) rest
  | r, .plain text :: rest =>
    if r.taken then words (r.skip text) rest else words (r.take (some text)) rest
  | r, .separator :: .plain text :: rest =>
    if r.taken then words ((r.skip "--").skip text) rest else words (r.take (some text)) rest
  | r, .separator :: rest => if r.taken then words (r.skip "--") rest else words (r.take none) rest
  | r, .unknown text :: rest => words (r.skip text) rest
  | r, .flag f _ none :: .plain text :: rest =>
    if f.takesValue then
      match r.act f (some text) with
      | .error request => .error request
      | .ok r => words r rest
    else
      match r.act f none with
      | .error request => .error request
      | .ok r => words r (.plain text :: rest)
  | r, .flag f _ none :: rest =>
    match r.act f none with
    | .error request => .error request
    | .ok r => words r rest
  | r, .flag f name (some text) :: rest =>
    match cluster f (name.length = 2) text.toList with
    | .error message => .error (.refuse message)
    | .ok c =>
      match r.actAll c.value c.flags with
      | .error request => .error request
      | .ok r => words r rest

end Reading

/-- Read a command line. -/
def read (arguments : List String) : Request :=
  match classifyAll arguments with
  | .error message => .refuse message
  | .ok ws =>
    match Reading.words ⟨.initial, false, []⟩ ws with
    | .error request => request
    | .ok r =>
      if r.extras.isEmpty then .proceed r.options
      else .refuse ("unrecognized arguments: " ++ " ".intercalate r.extras.reverse)

end Pseudocode.CommandLine
