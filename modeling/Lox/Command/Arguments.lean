namespace Lox.Command

/-- What to do with a file, or at the prompt. -/
inductive Task
  | tokenize (file : String) (json : Bool)
  | parse (file : String)
  | evaluate (file : String)
  | run (file : String)
  | repl
  deriving DecidableEq, Repr

/-- What the arguments ask for. -/
inductive Request
  | help
  | perform (task : Task) (logging : Bool)
  | misuse
  deriving DecidableEq, Repr

/-- The sub-commands. -/
inductive Verb
  | tokenize
  | parse
  | evaluate
  | run
  | repl
  deriving DecidableEq, Repr

namespace Verb

def word : Verb → String
  | tokenize => "tokenize"
  | parse => "parse"
  | evaluate => "evaluate"
  | run => "run"
  | repl => "repl"

def about : Verb → String
  | tokenize => "Tokenizes input from a file, printing each token"
  | parse => "Parses a file as a program and prints the AST of each statement"
  | evaluate => "Evaluates a file as a single expression and prints the result"
  | run => "Runs a file as a Lox program"
  | repl => "Starts an interactive prompt; each line is run as its own unit"

def all : List Verb := [tokenize, parse, evaluate, run, repl]

def ofWord? (word : String) : Option Verb := all.find? fun v => v.word == word

end Verb

def isHelp (argument : String) : Bool := argument = "-h" || argument = "--help"

/-- An argument that starts with a dash is an option, but a dash alone is a file. -/
def isOption (argument : String) : Bool := argument.startsWith "-" && argument ≠ "-"

/-- What has been read of the arguments after a verb. -/
structure Partial where
  file : Option String
  json : Bool
  logging : Bool
  deriving DecidableEq, Repr

/-- The task of a verb with its arguments. All verbs but the last need a file. -/
def Partial.task? (p : Partial) : Verb → Option Task
  | .tokenize => p.file.map fun file => .tokenize file p.json
  | .parse => p.file.map .parse
  | .evaluate => p.file.map .evaluate
  | .run => p.file.map .run
  | .repl => some .repl

def Partial.addFile? (p : Partial) (verb : Verb) (file : String) : Option Partial :=
  if verb = .repl || p.file.isSome || file.isEmpty then none else some { p with file := some file }

/-- The files of the arguments after `--`. -/
def Partial.addFiles? (verb : Verb) : Partial → List String → Option Partial
  | p, [] => some p
  | p, file :: files => (p.addFile? verb file).bind fun p => p.addFiles? verb files

/-- Reads the arguments after a verb. An option may be given once. -/
def readArguments (verb : Verb) (logging : Bool) : Partial → List String → Request
  | p, [] =>
      match p.task? verb with
      | some task => .perform task (logging || p.logging)
      | none => .misuse
  | p, argument :: arguments =>
      if argument = "--" then
        match (p.addFiles? verb arguments).bind fun p => (p.task? verb).map (·, p.logging) with
        | some (task, here) => .perform task (logging || here)
        | none => .misuse
      else if isHelp argument then .help
      else if argument = "--log" then
        if p.logging then .misuse
        else readArguments verb logging { p with logging := true } arguments
      else if argument = "--json" then
        if p.json || verb ≠ .tokenize then .misuse
        else readArguments verb logging { p with json := true } arguments
      else if isOption argument then .misuse
      else
        match p.addFile? verb argument with
        | some p => readArguments verb logging p arguments
        | none => .misuse

/-- Reads the arguments before the verb, where only the option that holds for all verbs may
stand. -/
def readRequest (logging : Bool) : List String → Request
  | [] => .misuse
  | argument :: arguments =>
      if isHelp argument || argument = "-V" || argument = "--version" then .help
      else if argument = "--log" then
        if logging then .misuse else readRequest true arguments
      else if argument = "help" then
        match arguments with
        | [] => .help
        | [topic] => if topic = "help" || (Verb.ofWord? topic).isSome then .help else .misuse
        | _ => .misuse
      else
        match Verb.ofWord? argument with
        | some verb => readArguments verb logging ⟨none, false, false⟩ arguments
        | none => .misuse

def Request.ofArguments (arguments : List String) : Request := readRequest false arguments

end Lox.Command
