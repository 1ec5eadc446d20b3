import Lox.Command.Arguments
import Lox.Session
import Lox.Text.Quoted
import Lox.Text.Utf8
import Lox.Token.Text
import Lox.Tree.Text

/-!
What the program answers to its command line.

A response is all that the user sees: the exit code and the text on both streams. It depends on
the task, on what the file holds, and on the lines typed at the prompt.
-/

namespace Lox.Command

/-- Why a file cannot be read. -/
inductive FileFault
  | absent
  | notDirectory
  | denied
  | nameTooLong
  | directory
  | notText (fault : Utf8.Fault)
  deriving DecidableEq, Repr

/-- What went wrong, and its cause on a line of its own. -/
def withCause (problem cause : String) : String := problem ++ "\n\nCaused by:\n    " ++ cause

def FileFault.message (file : String) : FileFault → String
  | absent => cannotOpen "No such file or directory (os error 2)"
  | notDirectory => cannotOpen "Not a directory (os error 20)"
  | denied => cannotOpen "Permission denied (os error 13)"
  | nameTooLong => cannotOpen "File name too long (os error 36)"
  | directory =>
      withCause ("Failed to map file " ++ Quoted.quote file) "No such device (os error 19)"
  | notText fault => fault.message
where
  cannotOpen (cause : String) : String :=
    withCause ("Failed to open file " ++ Quoted.quote file) cause

structure Response where
  code : Nat
  stdout : String
  stderr : String
  deriving DecidableEq, Repr

def staticErrorCode : Nat := 65

def runtimeErrorCode : Nat := 70

def fileErrorCode : Nat := 1

def misuseCode : Nat := 2

/-- Each text on a line of its own. -/
def lines (texts : List String) : String := String.join (texts.map (· ++ "\n"))

def faultLines (faults : List Diagnostic) : String := lines (faults.map Diagnostic.text)

def staticCode (faults : List Diagnostic) : Nat := if faults.isEmpty then 0 else staticErrorCode

/-- Shows the tokens of a text, also if some of it cannot be read. -/
def tokenize (source : String) (json : Bool) : Response :=
  let items := Scan.items source
  let tokens := items.filterMap Scan.Item.token?
  let faults := items.filterMap Scan.Item.diagnostic?
  let shown := if json then [Token.listing tokens] else tokens.map Token.display
  ⟨staticCode faults, lines shown, faultLines faults⟩

/-- Shows the statements of a text, unless it has a fault. -/
def parse (source : String) : Response :=
  let program := readProgram source
  if program.reports.isEmpty then ⟨0, lines (program.value.map Stmt.text), ""⟩
  else ⟨staticErrorCode, "", faultLines program.reports⟩

/-- The response to one unit that wrote `output`. A value is shown after it. -/
def Response.ofAnswer (output : String) : Answer → Response
  | .completed => ⟨0, output, ""⟩
  | .value v => ⟨0, output ++ v.text ++ "\n", ""⟩
  | .staticErrors faults => ⟨staticErrorCode, output, faultLines faults⟩
  | .runtimeError fault => ⟨runtimeErrorCode, output, faultLines [fault]⟩
  | .unfinished => ⟨runtimeErrorCode, output, ""⟩

def prompt : String := "> "

/-- Runs a line that was typed at the prompt. -/
def replLine (fuel : Nat) (s : Session) (line : String) : Response × Session :=
  let (answer, s) := Session.run fuel (s.writingTo .endless) line
  (.ofAnswer s.output answer, s)

/-- A line without the carriage return before its end. -/
def trimReturn (line : List Char) : List Char :=
  match line.reverse with
  | '\r' :: rest => rest.reverse
  | _ => line

/-- The lines of a text. A last line need not have an end, and then keeps all its characters. -/
def typedLines (text : String) : List String :=
  let parts := text.toList.splitOn '\n'
  let ended := parts.dropLast.map trimReturn
  match parts.getLast? with
  | none => ended.map .ofList
  | some last => (if last.isEmpty then ended else ended ++ [last]).map .ofList

/-- The whole of a dialogue: the prompt, and what each line writes. Faults end a line and never the
dialogue. -/
def repl (fuel : Nat) (s : Session) (typed : String) : Response :=
  let (stdout, stderr, _) := (typedLines typed).foldl (fun (stdout, stderr, s) line =>
    let (r, s) := replLine fuel s line
    (stdout ++ prompt ++ r.stdout, stderr ++ r.stderr, s)) ("", "", s)
  ⟨0, stdout ++ prompt ++ "\n", stderr⟩

def helpText : String :=
  lines <|
    ["Lox language interpreter", "", "Usage: lox [--log] <COMMAND>", "", "Commands:"] ++
      (Verb.all.map fun v => "  " ++ v.word ++ "".pushn ' ' (10 - v.word.length) ++ v.about)

def usageText : String := lines ["Usage: lox [--log] <COMMAND>", "", "For more, try '--help'."]

/-- The text of a file. -/
def readText (bytes : Except FileFault (List UInt8)) : Except FileFault String :=
  bytes.bind fun bytes => (Utf8.decode bytes).mapError .notText

/-- A response that needs the text of a file. -/
def withFile (file : String) (bytes : Except FileFault (List UInt8))
    (respond : String → Response) : Response :=
  match readText bytes with
  | .ok source => respond source
  | .error fault => ⟨fileErrorCode, "", "Error: " ++ fault.message file ++ "\n"⟩

def Task.file? : Task → Option String
  | tokenize file _ => some file
  | parse file => some file
  | evaluate file => some file
  | run file => some file
  | repl => none

/-- The response to a task, given what its file holds and what is typed. -/
def Task.respond (fuel : Nat) (clock : Nat → Float) (bytes : Except FileFault (List UInt8))
    (typed : String) : Task → Response
  | tokenize file json => withFile file bytes fun source => Command.tokenize source json
  | parse file => withFile file bytes Command.parse
  | evaluate file =>
      withFile file bytes fun source =>
        let (answer, s) := (Session.new clock).evaluate fuel source
        .ofAnswer s.output answer
  | run file =>
      withFile file bytes fun source =>
        let (answer, s) := (Session.new clock).run fuel source
        .ofAnswer s.output answer
  | repl => Command.repl fuel (.new clock) typed

/-- The response to a request, given what each file holds and what is typed. -/
def Request.respond (fuel : Nat) (clock : Nat → Float)
    (contents : String → Except FileFault (List UInt8)) (typed : String) : Request → Response
  | help => ⟨0, helpText, ""⟩
  | misuse => ⟨misuseCode, "", usageText⟩
  | perform task _ =>
      task.respond fuel clock ((task.file?.map contents).getD (.error .absent)) typed

end Lox.Command
