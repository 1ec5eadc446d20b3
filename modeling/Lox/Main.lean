import Lox.Command.Response

namespace Lox.Main

open Command

/-- Two kinds of errors stand for several faults each, which are told apart by the system's code. -/
def faultOfError : IO.Error → FileFault
  | .permissionDenied .. => .denied
  | .inappropriateType _ 20 _ => .notDirectory
  | .inappropriateType .. => .directory
  | .invalidArgument _ 36 _ => .nameTooLong
  | _ => .absent

def readBytes (file : String) : IO (Except FileFault (List UInt8)) := do
  try
    return .ok (← IO.FS.readBinFile file).toList
  catch e =>
    return .error (faultOfError e)

def deliver (r : Response) : IO Unit := do
  let stdout ← IO.getStdout
  stdout.putStr r.stdout
  stdout.flush
  (← IO.getStderr).putStr r.stderr

/-- Answers one line after another until the input ends. -/
partial def dialogue (s : Session) : IO Unit := do
  let stdout ← IO.getStdout
  stdout.putStr prompt
  stdout.flush
  let line ← (← IO.getStdin).getLine
  if line.isEmpty then stdout.putStr "\n"
  else
    let mut s := s
    for typed in typedLines line do
      let (r, next) := replLine ampleFuel s typed
      deliver r
      s := next
    dialogue s

def logFile : String := "app.log"

def main (arguments : List String) : IO UInt32 := do
  let start := (← IO.monoMsNow).toFloat / 1000
  let clock (readings : Nat) : Float := start + readings.toFloat / 1000000
  let request := Request.ofArguments arguments
  if let .perform task logging := request then
    if logging then IO.FS.writeFile logFile (String.intercalate " " arguments ++ "\n")
    if task = .repl then
      dialogue (.new clock)
      return 0
  let bytes ←
    match request with
    | .perform task _ =>
        match task.file? with
        | some file => readBytes file
        | none => pure (.error .absent)
    | _ => pure (.error .absent)
  let r := request.respond ampleFuel clock (fun _ => bytes) ""
  deliver r
  return r.code.toUInt32

end Lox.Main

def main (arguments : List String) : IO UInt32 := Lox.Main.main arguments
