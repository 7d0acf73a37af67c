import Pseudocode.Proofs.Concatenation
import Pseudocode.Proofs.Layout
import Pseudocode.Proofs.ReadLoopHistory
import Pseudocode.Script

/-!
The read loop and the script runner.

The two build the source of a program in different ways. The read loop gets a text line by line; it
leaves out the lines that are blank and joins the others again. The script runner gets the bytes of
a file; it makes the line ends of its text uniform and keeps every line. Both come to the same
program or both refuse, and what they run is the same run.

Design. What a program is depends on its row of tokens only. The row of a text is composed of the
rows of its lines (`Row.ofText_unlines`): a line that is read to its end is followed by the row of
the next lines, and one that is not read to its end ends the row. The row of a blank line is empty,
so the line can be left out. Line ends are blanks like any other, so uniform line ends change the row
only where a carriage return becomes the end of a comment (`Row.ofText_unifyLineEnds`).

Main result: `read_loop_agrees`.
-/

namespace Pseudocode

open Text

/-! ### Rows of tokens -/

/-- The tokens of a text, and whether the text ends behind them. -/
structure Row where
  tokens : List Token
  complete : Bool

namespace Row

/-- The row of a source text. -/
def ofText (text : List Char) : Row := ⟨(scanSource text).sequence, (scanSource text).complete⟩

/-- No tokens, and nothing that cannot be read. -/
def empty : Row := ⟨[], true⟩

/-- A row and what follows it; where something cannot be read, the row ends. -/
def andThen (r s : Row) : Row := if r.complete then ⟨r.tokens ++ s.tokens, s.complete⟩ else r

/-- The row of lines one after the other. -/
def ofLines : List (List Char) → Row
  | [] => empty
  | line :: rest => (ofText line).andThen (ofLines rest)

theorem andThen_empty (r : Row) : r.andThen empty = r := by
  rcases r with ⟨tokens, - | -⟩ <;> simp [andThen, empty]

theorem empty_andThen (r : Row) : empty.andThen r = r := rfl

end Row

/-- What cannot be read in the first text cannot be read in the joined text either. -/
theorem Cursor.Reads.joined_of_unread {c : Cursor} {ts : List Token} (h : Reads c ts false)
    (ds : List Char) : Reads (c.joined ds) ts false := by
  generalize hend : false = reachesEnd at h
  induction h with
  | @stop c hl =>
    -- something is left, and it is no token with another text behind it either
    have hne : c.skip.rest ≠ [] := by
      intro hnil
      rw [hnil] at hend
      cases hend
    have hlex : (c.joined ds).skip.lexeme? = none := by
      rw [skip_joined hne ds, ← hl]
      exact lex?_append_separator (by decide) hne _ ds
    have hrest : (c.joined ds).skip.rest.isEmpty = false := by
      rw [skip_joined hne ds, List.isEmpty_eq_false_iff]
      exact List.append_ne_nil_of_left_ne_nil hne _
    rw [← hend, ← hrest]
    exact .stop hlex
  | @token c l ts _ hl _ ih =>
    obtain ⟨hlex, hpast⟩ := lexeme?_joined hl ds
    refine .token hlex ?_
    rw [hpast]
    exact ih hend

/-- What follows a text that cannot be read does not change its tokens. -/
theorem scanSource_append_newline_of_unread {text : List Char}
    (h : (scanSource text).complete = false) (text' : List Char) :
    (scanSource (text ++ '\n' :: text')).sequence = (scanSource text).sequence
      ∧ (scanSource (text ++ '\n' :: text')).complete = false := by
  have hfirst := reads_source text
  rw [h] at hfirst
  have htabs : expandTabs (text ++ '\n' :: text') = expandTabs text ++ '\n' :: expandTabs text' :=
    expandTabsFrom_append_newline 0 text text'
  apply reads_source_iff.mp
  rw [htabs]
  exact hfirst.joined_of_unread (expandTabs text')

namespace Row

/-- A line feed separates rows. -/
theorem ofText_append_newline (text text' : List Char) :
    ofText (text ++ '\n' :: text') = (ofText text).andThen (ofText text') := by
  rcases hcomplete : (scanSource text).complete with - | -
  · obtain ⟨hsequence, hend⟩ := scanSource_append_newline_of_unread hcomplete text'
    simp [ofText, andThen, hcomplete, hsequence, hend]
  · obtain ⟨hsequence, hend⟩ := scanSource_append_newline hcomplete text'
    simp [ofText, andThen, hcomplete, hsequence, hend]

/-- The row of a text is composed of the rows of its lines. -/
theorem ofText_unlines (ls : List (List Char)) : ofText (unlines ls) = ofLines ls := by
  induction ls with
  | nil => rfl
  | cons line rest ih =>
    cases rest with
    | nil => exact (andThen_empty _).symm
    | cons next rest =>
      show ofText (line ++ '\n' :: unlines (next :: rest)) = _
      rw [ofText_append_newline, ih]
      rfl

/-- The row of a text does not depend on its layout. -/
theorem ofText_normalize (text : List Char) : ofText (normalize text) = ofText text := by
  obtain ⟨hsequence, hcomplete⟩ := scanSource_normalize text
  rw [ofText, ofText, hsequence, hcomplete]

/-- A line of blanks has the empty row. -/
theorem ofText_of_gaps {line : List Char} (h : ∀ c ∈ line, isGap c = true) :
    ofText line = empty := by
  -- behind the first blank nothing is left of the others
  have hnothing : ∀ cs : List Char, (∀ c ∈ cs, isGap c = true) → normalizeFrom .blank cs = [] := by
    intro cs hcs
    induction cs with
    | nil => rfl
    | cons c cs ih =>
      obtain ⟨hc, hcs⟩ := List.forall_mem_cons.mp hcs
      rw [normalizeFrom, if_pos hc, ih hcs]
  rw [← ofText_normalize]
  rcases line with - | ⟨c, cs⟩
  · rfl
  · obtain ⟨hc, hcs⟩ := List.forall_mem_cons.mp h
    rw [normalize, normalizeFrom, if_pos hc, hnothing cs hcs]
    rfl

/-- Lines with nothing to read in them can be left out. -/
theorem ofLines_filter {p : List Char → Bool} {ls : List (List Char)}
    (h : ∀ line ∈ ls, p line = false → ofText line = empty) :
    ofLines (ls.filter p) = ofLines ls := by
  induction ls with
  | nil => rfl
  | cons line ls ih =>
    obtain ⟨hline, hls⟩ := List.forall_mem_cons.mp h
    rcases hp : p line with - | -
    · rw [List.filter_cons_of_neg (by simp [hp]), ih hls, ofLines, hline hp, empty_andThen]
    · rw [List.filter_cons_of_pos hp, ofLines, ofLines, ih hls]

/-- Texts with the same row are the same program, or both are none. -/
theorem parseProgram_eq_ok_iff {text text' : List Char} (h : ofText text = ofText text')
    {statements : List Stmt} :
    parseProgram text = .ok statements ↔ parseProgram text' = .ok statements := by
  have htokens : (scanSource text).sequence = (scanSource text').sequence := congrArg tokens h
  have hcomplete : (scanSource text).complete = (scanSource text').complete := congrArg complete h
  exact ⟨parseProgram_congr htokens.symm hcomplete.symm, parseProgram_congr htokens hcomplete⟩

/-- A text with the row of one that is refused is refused. -/
theorem parseProgram_eq_error {text text' : List Char} (h : ofText text = ofText text')
    {position : Nat} (herror : parseProgram text = .error position) :
    ∃ position', parseProgram text' = .error position' := by
  rcases hparse : parseProgram text' with position' | statements
  · exact ⟨position', rfl⟩
  · rw [← parseProgram_eq_ok_iff h, herror] at hparse
    cases hparse

end Row

/-! ### Line ends -/

/-- Has a comment of the text a carriage return that does not stand at the end of its line? The text
may start inside a comment. -/
def strayReturn : Bool → List Char → Bool
  | _, [] => false
  | commented, c :: cs =>
    (commented && c == '\r' && !cs.head?.all (· == '\n'))
      || strayReturn (c != '\n' && (commented || c == commentSign)) cs

def Place.commented : Place → Bool
  | .comment => true
  | .token | .blank => false

/-- Line ends may be unified before a text is brought to its normal form, unless a carriage return
ends a comment only then. -/
theorem normalizeFrom_unifyLineEnds {place : Place} {cs : List Char}
    (h : strayReturn place.commented cs = false) :
    normalizeFrom place (unifyLineEnds cs) = normalizeFrom place cs := by
  fun_induction unifyLineEnds cs generalizing place with
  | case1 => rfl
  | case2 => cases place <;> rfl
  | case3 cs ih =>
    have hrest : strayReturn Place.blank.commented cs = false := by
      simpa [strayReturn, Place.commented] using h
    cases place <;> simp [normalizeFrom, isGap, ih hrest]
  | case4 c cs hlast hpair ih =>
    have hrest : ∀ place' : Place,
        place'.commented = (c != '\n' && (place.commented || c == commentSign)) →
        normalizeFrom place' (unifyLineEnds cs) = normalizeFrom place' cs := by
      intro place' hplace'
      rw [strayReturn, Bool.or_eq_false_iff, ← hplace'] at h
      exact ih h.2
    by_cases hc : c = '\r'
    · -- a carriage return with something behind it: no comment goes on there
      subst hc
      have hstray : cs.head?.all (· == '\n') = false := by
        rcases cs with - | ⟨d, cs⟩
        · exact absurd rfl (hlast rfl)
        · simpa using fun hd => hpair cs rfl (by rw [hd])
      cases place with
      | comment => simp [strayReturn, Place.commented, hstray] at h
      | token | blank => simp [normalizeFrom, isGap, hrest .blank rfl]
    rw [if_neg hc]
    by_cases hnewline : c = '\n'
    · subst hnewline
      cases place <;> simp [normalizeFrom, isGap, hrest .blank rfl]
    cases place with
    | comment =>
      have hcomment := hrest .comment (by simp [Place.commented, hnewline])
      simp [normalizeFrom, hnewline, hcomment]
    | token | blank =>
      by_cases hsign : c = commentSign
      · subst hsign
        have hgap : isGap commentSign = false := rfl
        simp [normalizeFrom, hgap, hrest .comment rfl]
      · have htoken := hrest .token (by simp [Place.commented, hsign])
        have hblank := hrest .blank (by simp [Place.commented, hsign])
        simp only [normalizeFrom, hblank, htoken, if_neg hsign]

/-- Uniform line ends change the tokens only where a carriage return stands in a comment. -/
theorem Row.ofText_unifyLineEnds {text : List Char} (h : strayReturn false text = false) :
    ofText (unifyLineEnds text) = ofText text := by
  have hnormal : normalize (unifyLineEnds text) = normalize text :=
    @normalizeFrom_unifyLineEnds .token text h
  rw [← ofText_normalize, hnormal, ofText_normalize]

/-! ### Entering a text -/

namespace ReadLoop

/-- What the loop remembers after further lines; none if a run in them does not end. -/
def feed (settings : Settings) (m : Memory) (entered : List String) : Option Memory :=
  entered.foldlM (fun m line => (step settings m line).map Reply.memory) m

/-- A text that can be entered line by line: no line is a command, and where a line is blank, its
white space is of the sort that may stand between tokens. -/
structure Enterable (text : List Char) : Prop where
  no_command : ∀ line ∈ lines text, String.ofList (trim line) ∉ Command.all.map Command.word
  blank : ∀ line ∈ lines text, isBlank line = true → ∀ c ∈ line, c ∈ [' ', '\t', '\r']

variable {settings : Settings} {m : Memory} {text : List Char}

/-- Lines that are no commands are added to the buffer, unless they are blank. -/
theorem feed_of_no_command {entered : List String}
    (h : ∀ line ∈ entered, stripped line ∉ Command.all.map Command.word) :
    feed settings m entered = some { m with buffer := m.buffer ++ entered.filter isSource } := by
  induction entered generalizing m with
  | nil => simp [feed]
  | cons line entered ih =>
    obtain ⟨hline, hentered⟩ := List.forall_mem_cons.mp h
    have hsteps : feed settings m (line :: entered)
        = ((step settings m line).map Reply.memory).bind fun m => feed settings m entered := by
      simp only [feed, List.foldlM_cons, bind]
    -- the line is a command, a blank line or a line of a program
    obtain ⟨c, -, hword⟩ | ⟨hrequest, hblank⟩ | ⟨hrequest, hsource⟩ := requestOf_cases line
    · exact absurd (hword ▸ List.mem_map_of_mem (by cases c <;> decide)) hline
    · have hleft : isSource line = false := decide_eq_false fun hsource => hsource.1 hblank
      rw [hsteps, step, hrequest]
      simp [ih hentered, hleft]
    · rw [hsteps, step, hrequest]
      simp [ih hentered, hsource]

/-- A line that is no command is kept if it is not blank. -/
theorem isSource_ofList {line : List Char}
    (h : String.ofList (trim line) ∉ Command.all.map Command.word) :
    isSource (String.ofList line) = !isBlank line := by
  have hstripped : stripped (String.ofList line) = String.ofList (trim line) := by
    rw [stripped, String.toList_ofList]
  have hempty : String.ofList (trim line) = "" ↔ isBlank line = true := by
    rw [String.ofList_eq_empty_iff, trim_eq_nil_iff]
  rw [isSource, hstripped]
  simp [h, hempty]

/-- The lines that the loop keeps of a text have the row of the text. -/
theorem Enterable.ofText_kept (h : Enterable text) :
    Row.ofText (unlines ((((lines text).map String.ofList).filter isSource).map String.toList))
      = Row.ofText text := by
  have hkept : (((lines text).map String.ofList).filter isSource).map String.toList
      = (lines text).filter fun line => !isBlank line := by
    have hsource : ∀ line ∈ lines text, (isSource ∘ String.ofList) line = !isBlank line := by
      intro line hline
      rw [Function.comp_apply, isSource_ofList (h.no_command line hline)]
    rw [List.filter_map, List.map_map, List.filter_congr hsource]
    simp
  -- the lines that are left out have empty rows
  have hblank : ∀ line ∈ lines text, (!isBlank line) = false → Row.ofText line = .empty := by
    intro line hline hb
    refine Row.ofText_of_gaps fun c hc => ?_
    have hmem := h.blank line hline (by simpa using hb) c hc
    simp only [List.mem_cons, List.not_mem_nil, or_false] at hmem
    rcases hmem with rfl | rfl | rfl <;> rfl
  rw [hkept, Row.ofText_unlines, Row.ofLines_filter hblank, ← Row.ofText_unlines, unlines_lines]

/-- After the lines of a text, the buffer has the row of the text. -/
theorem Enterable.feed (h : Enterable text) (settings : Settings) (hbuffer : m.buffer = []) :
    ∃ m', ReadLoop.feed settings m ((lines text).map String.ofList) = some m' ∧ m'.env = m.env
      ∧ Row.ofText m'.source = Row.ofText text := by
  have hcommand : ∀ line ∈ (lines text).map String.ofList,
      stripped line ∉ Command.all.map Command.word := by
    rw [List.forall_mem_map]
    intro line hline
    rw [stripped, String.toList_ofList]
    exact h.no_command line hline
  refine ⟨_, feed_of_no_command hcommand, rfl, ?_⟩
  rw [Memory.source, hbuffer, List.nil_append]
  exact h.ofText_kept

/-- The lines that the loop prints about a run. -/
def runLines (settings : Settings) (statements : List Stmt) (r : Run) : List String :=
  ["+++OUTPUT+++"] ++ readingTrace settings.tracing statements ++ r.lines
    ++ [valueLine r.value, "++++++++++++"]

/-- Running what was entered reports the error of its text, and clears the lines. -/
theorem step_run_of_error (settings : Settings) (hrow : Row.ofText m.source = Row.ofText text)
    {position : Nat} (h : parseProgram text = .error position) :
    ∃ e, readProgram ParseError.inputName m.source = .error e
      ∧ step settings m "run" = some ⟨m.cleared, true, ["+++OUTPUT+++", e.text]⟩ := by
  obtain ⟨position', herror⟩ := Row.parseProgram_eq_error hrow.symm h
  have hread : readProgram ParseError.inputName m.source
      = .error (.atPosition m.source ParseError.inputName position') := by
    rw [readProgram, herror]
  refine ⟨_, hread, ?_⟩
  rw [step_of_run (by decide), runProgram, hread]

/-- Running what was entered runs its program, and clears the lines. -/
theorem step_run_of_ok (settings : Settings) (hrow : Row.ofText m.source = Row.ofText text)
    {statements : List Stmt} (h : parseProgram text = .ok statements) :
    step settings m "run" = (finalRun? settings statements).map fun r =>
      ⟨⟨[], r.env⟩, true, runLines settings statements r⟩ := by
  have hread : readProgram ParseError.inputName m.source = .ok statements := by
    rw [readProgram, (Row.parseProgram_eq_ok_iff hrow).mpr h]
  rw [step_of_run (by decide), runProgram, hread]
  rfl

end ReadLoop

/-! ### Running a file -/

namespace Script

variable {disk : Disk} {path : String} {bytes : List UInt8} {text : List Char}

/-- A file is read with its line ends unified. -/
theorem load_of_decode (hbytes : disk.read path = .ok bytes) (htext : decodeUtf8 bytes = .ok text) :
    load disk path = .ok (unifyLineEnds text) := by
  simp [load, hbytes, htext]

/-- The lines that the runner prints before those of the run. -/
def linesBefore (settings : Settings) (path : String) (text : List Char) (statements : List Stmt) :
    List String :=
  loadingTrace settings.tracing path text ++ readingTrace settings.tracing statements
    ++ if settings.tracing then ["Evaluating program..."] else []

theorem runWith_of_error (settings : Settings) (hload : load disk path = .ok text) {position : Nat}
    (h : parseProgram text = .error position) :
    runWith disk path settings = some (failure path "executing" settings.tracing
      (loadingTrace settings.tracing path text) (.unreadable (.atPosition text path position))) := by
  simp [runWith, read, hload, readProgram, h]

theorem runWith_of_ok (settings : Settings) (hload : load disk path = .ok text)
    {statements : List Stmt} (h : parseProgram text = .ok statements) :
    runWith disk path settings = (ReadLoop.finalRun? settings statements).map
      (finished (linesBefore settings path text statements)) := by
  simp only [runWith, read, hload, readProgram, h]
  rfl

end Script

/-- **The read loop and the script runner agree.** A text is entered line by line into a loop with
an empty buffer, and then run. If the text is no program, the loop reports an error on reading; if it
is one, the loop shows the run of that program, and keeps its bindings. The script runner does the
same with a file of that text, if no comment in it has a carriage return before the end of its
line. -/
theorem read_loop_agrees (settings : Settings) (m : ReadLoop.Memory) (hbuffer : m.buffer = [])
    (text : List Char) (h : ReadLoop.Enterable text) :
    ∃ m', ReadLoop.feed settings m ((lines text).map String.ofList) = some m' ∧ m'.env = m.env
      ∧ (∀ position, parseProgram text = .error position →
        ∃ e, readProgram ParseError.inputName m'.source = .error e
          ∧ ReadLoop.step settings m' "run" = some ⟨⟨[], m.env⟩, true, ["+++OUTPUT+++", e.text]⟩)
      ∧ (∀ statements, parseProgram text = .ok statements →
        ReadLoop.step settings m' "run" = (ReadLoop.finalRun? settings statements).map fun r =>
          ⟨⟨[], r.env⟩, true, ReadLoop.runLines settings statements r⟩)
      ∧ (strayReturn false text = false → ∀ disk path bytes, Disk.read disk path = .ok bytes →
        decodeUtf8 bytes = .ok text →
        (∀ position, parseProgram text = .error position →
          ∃ e, Script.runWith disk path settings = some (Script.failure path "executing"
            settings.tracing (Script.loadingTrace settings.tracing path (unifyLineEnds text))
            (.unreadable e)))
        ∧ ∀ statements, parseProgram text = .ok statements →
          Script.runWith disk path settings = (ReadLoop.finalRun? settings statements).map
            (Script.finished (Script.linesBefore settings path (unifyLineEnds text) statements))) := by
  obtain ⟨m', hfed, henv, hrow⟩ := h.feed settings hbuffer
  refine ⟨m', hfed, henv, ?_, ?_, ?_⟩
  · intro position herror
    obtain ⟨e, hread, hstep⟩ := ReadLoop.step_run_of_error settings hrow herror
    rw [ReadLoop.Memory.cleared, henv] at hstep
    exact ⟨e, hread, hstep⟩
  · intro statements hparse
    exact ReadLoop.step_run_of_ok settings hrow hparse
  · intro hstray disk path bytes hbytes htext
    have hload := Script.load_of_decode hbytes htext
    -- the file has the row of the text, as its line ends are blanks in both
    have hsame := Row.ofText_unifyLineEnds hstray
    constructor
    · intro position herror
      obtain ⟨position', herror'⟩ := Row.parseProgram_eq_error hsame.symm herror
      exact ⟨_, Script.runWith_of_error settings hload herror'⟩
    · intro statements hparse
      exact Script.runWith_of_ok settings hload ((Row.parseProgram_eq_ok_iff hsame).mpr hparse)

/-- A text with a blank line, and with carriage returns at its line ends, one of them in a comment. -/
theorem read_loop_agrees_blank_line :
    let settings := Settings.standard Settings.defaultLimit false
    let text := "x <- 1#\r\n \r\nf()".toList
    let statements := [.assign "x" false (.number "1"), .call "f" []]
    (lines text).map String.ofList = ["x <- 1#\r", " \r", "f()"]
      ∧ parseProgram text = .ok statements
      ∧ (∃ m', ReadLoop.feed settings .initial ((lines text).map String.ofList) = some m'
        ∧ ReadLoop.step settings m' "run" = (ReadLoop.finalRun? settings statements).map fun r =>
          ⟨⟨[], r.env⟩, true, ReadLoop.runLines settings statements r⟩)
      ∧ ∀ disk path bytes, Disk.read disk path = .ok bytes → decodeUtf8 bytes = .ok text →
        Script.runWith disk path settings = (ReadLoop.finalRun? settings statements).map
          (Script.finished []) := by
  have hparse : parseProgram "x <- 1#\r\n \r\nf()".toList
      = .ok [.assign "x" false (.number "1"), .call "f" []] := rfl
  have henterable : ReadLoop.Enterable "x <- 1#\r\n \r\nf()".toList := by
    refine ⟨by decide, ?_⟩
    -- only the second line is blank
    show ∀ line ∈ ["x <- 1#\r".toList, [' ', '\r'], "f()".toList], _
    simp only [List.forall_mem_cons]
    refine ⟨nofun, ?_, nofun, by simp⟩
    simp
  intro settings text statements
  obtain ⟨m', hfed, -, -, hrun, hscript⟩ := read_loop_agrees settings .initial rfl text henterable
  refine ⟨by decide, hparse, ⟨m', hfed, hrun statements hparse⟩, ?_⟩
  intro disk path bytes hbytes htext
  exact (hscript (by decide) disk path bytes hbytes htext).2 statements hparse

/-- A carriage return in a comment: for the loop the comment goes on behind it, and nothing is left to
run; in a file it ends the line, and the bracket behind it is no statement. -/
theorem read_loop_stray_return :
    let settings := Settings.standard Settings.defaultLimit false
    let text := "#\r)".toList
    let disk : Disk := ⟨fun _ => .ok true, fun _ => .ok [0x23, 0x0D, 0x29]⟩
    ReadLoop.Enterable text ∧ decodeUtf8 [0x23, 0x0D, 0x29] = .ok text
      ∧ (∃ m', ReadLoop.feed settings .initial ((lines text).map String.ofList) = some m'
        ∧ ReadLoop.step settings m' "run"
          = some ⟨⟨[], ∅⟩, true, ["+++OUTPUT+++", "=> <void>", "++++++++++++"]⟩)
      ∧ ∃ e, Script.runWith disk "bracket" settings
        = some (Script.failure "bracket" "executing" false [] (.unreadable e)) := by
  -- in the loop the return stays in the comment, in a file it ends the line
  have hdecode : decodeUtf8 [0x23, 0x0D, 0x29] = .ok "#\r)".toList := by decide +kernel
  have herror : parseProgram "#\n)".toList = .error 2 := rfl
  have hfed : ReadLoop.feed (.standard Settings.defaultLimit false) .initial
      ((lines "#\r)".toList).map String.ofList) = some ⟨["#\r)"], ∅⟩ := rfl
  have hrun : ReadLoop.step (.standard Settings.defaultLimit false) ⟨["#\r)"], ∅⟩ "run"
      = some ⟨⟨[], ∅⟩, true, ["+++OUTPUT+++", "=> <void>", "++++++++++++"]⟩ := rfl
  intro settings text disk
  have hload : Script.load disk "bracket" = .ok "#\n)".toList := Script.load_of_decode rfl hdecode
  exact ⟨⟨by decide, by decide⟩, hdecode, ⟨_, hfed, hrun⟩,
    _, Script.runWith_of_error settings hload herror⟩

end Pseudocode
