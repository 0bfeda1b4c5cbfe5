/-!
# Command-line arguments

A command line names a command, or none for the prompt. Options may stand before and behind the
command's name; behind `--` nothing is an option. The first argument that asks for help or for the
version, or that makes no sense, decides what the whole command line means.
-/

namespace Treewalk.CommandLine

/-- What the program can be told to do. -/
inductive Command where
  /-- Lists the tokens of a file, each as a JSON object if so asked. -/
  | tokenize (file : String) (asJson : Bool)
  /-- Lists the statements of a file as trees. -/
  | parse (file : String)
  /-- Runs a file. -/
  | run (file : String)
  /-- Runs the lines of the standard input as they come. -/
  | repl
deriving DecidableEq, Repr

/-- What a command line means. -/
inductive Request where
  /-- To carry out a command, with a log file or without. -/
  | perform (command : Command) (log : Bool)
  | help
  | version
  | misuse
deriving DecidableEq, Repr

/-- The names of the commands. -/
inductive Verb where
  | tokenize
  | parse
  | run
  | repl
deriving DecidableEq, Repr

namespace Verb

def all : List Verb := [.tokenize, .parse, .run, .repl]

def spelling : Verb → String
  | tokenize => "tokenize"
  | parse => "parse"
  | run => "run"
  | repl => "repl"

def takesFile : Verb → Bool
  | tokenize | parse | run => true
  | repl => false

def takesJson : Verb → Bool
  | tokenize => true
  | parse | run | repl => false

def ofSpelling? (s : String) : Option Verb :=
  all.find? (·.spelling = s)

end Verb

/-- What has been given to a command. -/
structure Given where
  file : Option String
  json : Bool
  log : Bool
deriving DecidableEq, Repr

def Given.nothing : Given := ⟨none, false, false⟩

/-- The command that a verb and what is given to it make, if nothing is missing. -/
def Verb.command? : Verb → Given → Option Command
  | .tokenize, g => g.file.map (.tokenize · g.json)
  | .parse, g => g.file.map .parse
  | .run, g => g.file.map .run
  | .repl, _ => some .repl

/-- A single dash is a name like any other. -/
def isOption (arg : String) : Bool :=
  arg.startsWith "-" && arg ≠ "-"

/-- Whether an argument asks for help, spelled out or as the first of a bundle of letters. -/
def asksHelp (arg : String) : Bool :=
  arg = "--help" || arg.startsWith "-h"

def asksVersion (arg : String) : Bool :=
  arg = "--version" || arg.startsWith "-V"

/-- Takes an argument that is no option: the name of the file, once and not empty. -/
def Given.operand (v : Verb) (g : Given) (arg : String) : Except Request Given :=
  if v.takesFile && g.file.isNone && arg ≠ "" then .ok { g with file := some arg }
  else .error .misuse

/-- Takes an option, each at most once. -/
def Given.option (v : Verb) (g : Given) (arg : String) : Except Request Given :=
  if arg = "--log" && !g.log then .ok { g with log := true }
  else if arg = "--json" && v.takesJson && !g.json then .ok { g with json := true }
  else if asksHelp arg then .error .help
  else .error .misuse

/-- The arguments behind a verb. -/
def Given.arguments (v : Verb) (g : Given) : List String → Except Request Given
  | [] => .ok g
  | arg :: rest =>
    if arg = "--" then
      rest.foldlM (operand v) g
    else do
      arguments v (← if isOption arg then g.option v arg else g.operand v arg) rest

/-- A verb with its arguments. -/
def Verb.request (v : Verb) (log : Bool) (args : List String) : Request :=
  match Given.nothing.arguments v args with
  | .error r => r
  | .ok g =>
    match v.command? g with
    | some c => .perform c (log || g.log)
    | none => .misuse

/-- What may stand behind `help`: nothing, or one thing to be explained. -/
def helpRequest : List String → Request
  | [] => .help
  | [topic] => if topic = "help" || (Verb.ofSpelling? topic).isSome then .help else .misuse
  | _ => .misuse

/-- The arguments in front of a verb, and what follows. -/
def requestFrom (log : Bool) : List String → Request
  | [] => .perform .repl log
  | arg :: rest =>
    if arg = "--" then
      if rest.isEmpty then .perform .repl log else .misuse
    else if arg = "--log" then
      if log then .misuse else requestFrom true rest
    else if asksHelp arg then .help
    else if asksVersion arg then .version
    else if arg = "help" then helpRequest rest
    else
      match Verb.ofSpelling? arg with
      | some v => v.request log rest
      | none => .misuse

/-- What a whole command line means. -/
def request (args : List String) : Request :=
  requestFrom false args

end Treewalk.CommandLine
