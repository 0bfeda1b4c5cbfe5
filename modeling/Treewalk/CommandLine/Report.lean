import Treewalk.CommandLine.Arguments
import Treewalk.Session
import Treewalk.Text.Utf8
import Treewalk.Token.Listing
import Treewalk.Tree.Prefix
/-!
# What the commands report

A report is everything that one execution of the program leaves behind: its exit code and what it
wrote to its two outputs.
-/

namespace Treewalk.CommandLine

structure Report where
  exitCode : Nat
  output : String
  errors : String
deriving DecidableEq, Repr

/-! ### Files -/

/-- Why a file gives no source text. -/
inductive FileFault where
  | missing
  | denied
  | notDirectory
  | nameTooLong
  /-- It is a directory. -/
  | directory
  | notText (fault : Utf8Fault)
deriving DecidableEq, Repr

/-- Whether a character is escaped by its number in a quoted file name: those that control, that
show nothing, or that combine with what stands before them. -/
def isHidden (c : Char) : Bool :=
  let n := c.toNat
  n < 0x20 || (0x7F ≤ n && n < 0xA0) || n = 0xAD || (0x300 ≤ n && n < 0x370)
    || (0x200B ≤ n && n < 0x2010) || (0x2028 ≤ n && n < 0x202F) || (0x2060 ≤ n && n < 0x2070)
    || (0xE000 ≤ n && n < 0xF900) || n = 0xFEFF

/-- The characters that stand for `c` in a quoted file name. -/
def escapeInName (c : Char) : List Char :=
  match c with
  | '"' => ['\\', '"']
  | '\\' => ['\\', '\\']
  | '\n' => ['\\', 'n']
  | '\r' => ['\\', 'r']
  | '\t' => ['\\', 't']
  | _ => if isHidden c then "\\u\x7b".toList ++ Nat.toDigits 16 c.toNat ++ ['}'] else [c]

def quoteName (file : String) : String :=
  String.ofList ('"' :: file.toList.flatMap escapeInName ++ ['"'])

def FileFault.message (fault : FileFault) (file : String) : String :=
  match fault with
  | missing => failed "open" "No such file or directory (os error 2)"
  | denied => failed "open" "Permission denied (os error 13)"
  | notDirectory => failed "open" "Not a directory (os error 20)"
  | nameTooLong => failed "open" "File name too long (os error 36)"
  | directory => failed "map" "No such device (os error 19)"
  | notText fault => "File " ++ quoteName file ++ " is not valid UTF-8: " ++ fault.message
where
  failed (step reason : String) : String :=
    "Failed to " ++ step ++ " file " ++ quoteName file ++ ": " ++ reason

/-- The source text that the bytes of a file encode. -/
def sourceText (contents : Except FileFault ByteArray) : Except FileFault String := do
  match Utf8.decode (← contents) with
  | .ok text => return text
  | .error fault => throw (.notText fault)

/-! ### Reports -/

namespace Report

/-- Each item on a line of its own. -/
def lines (items : List String) : String :=
  String.join (items.map (· ++ "\n"))

def ofOutcome (output : String) (o : Outcome) : Report :=
  ⟨o.exitCode, output, o.errorText⟩

def ofErrors (output : String) (errors : List Diagnostic) : Report :=
  ofOutcome output (if errors.isEmpty then .ok else .rejected errors)

def misuse : Report :=
  ⟨64, "", "error: the arguments make no sense\n\nFor more information, try '--help'.\n"⟩

def unreadable (file : String) (fault : FileFault) : Report :=
  ⟨74, "", fault.message file ++ "\n"⟩

def version : Report := ⟨0, "rox 0.1.0\n", ""⟩

def help : Report :=
  ⟨0, lines [
    "Rox language interpreter",
    "",
    "Usage: rox [OPTIONS] [COMMAND]",
    "",
    "Commands:",
    "  tokenize  Tokenizes a file, printing each token",
    "  parse     Parses a file and prints the syntax tree of every statement",
    "  run       Runs a file as a program",
    "  repl      Starts an interactive prompt (the default)",
    "  help      Print this message or the help of the given subcommand(s)",
    "",
    "Options:",
    "      --log      Enable logging to rox.log",
    "  -h, --help     Print help",
    "  -V, --version  Print version"], ""⟩

/-- The tokens of a source, one per line. -/
def tokenize (asJson : Bool) (source : String) : Report :=
  let items := scan source
  ofErrors (lines ((items.filterMap Item.token?).map fun t => if asJson then t.json else t.listing))
    ((items.filterMap Item.error?).map .lexical)

/-- The statements of a source, one per line. -/
def parse (source : String) : Report :=
  let s := Source.read source 0
  ofErrors (lines (s.statements.map Stmt.prefixText)) s.errors

/-- A source run in a session of its own. -/
def run (clock : Nat → Float) (fuel : Nat) (source : String) : Report :=
  let (outcome, s) := (Session.initial .unlimited).run clock fuel source
  ofOutcome s.drain.1 outcome

/-! ### The prompt -/

def prompt : String := "> "

/-- The lines of a text, each with its newline; the last may lack it. -/
def inputLines (input : List Char) : List String :=
  match input with
  | [] => []
  | c :: rest =>
    let text := (c :: rest).takeWhile (· ≠ '\n')
    String.ofList ((c :: rest).take (text.length + 1))
      :: inputLines ((c :: rest).drop (text.length + 1))
termination_by input.length
decreasing_by simp only [List.length_drop, List.length_cons]; omega

/-- Lines run one after another in a session, with a prompt in front of each and one that meets the
end of the input. Errors end a line and not the session. -/
def repl (clock : Nat → Float) (fuel : Nat) (s : Session) : List String → Report
  | [] => ⟨0, prompt ++ "\n", ""⟩
  | line :: rest =>
    let (outcome, s) := s.run clock fuel line
    let (output, s) := s.drain
    let others := repl clock fuel s rest
    ⟨others.exitCode, prompt ++ output ++ others.output, outcome.errorText ++ others.errors⟩

end Report

/-- What a command reports, given the contents of files and the standard input. -/
def Command.report (clock : Nat → Float) (fuel : Nat)
    (contents : String → Except FileFault ByteArray) (input : String) : Command → Report
  | .tokenize file asJson => ofFile file (Report.tokenize asJson)
  | .parse file => ofFile file Report.parse
  | .run file => ofFile file (Report.run clock fuel)
  | .repl => Report.repl clock fuel (.initial .unlimited) (Report.inputLines input.toList)
where
  ofFile (file : String) (report : String → Report) : Report :=
    match sourceText (contents file) with
    | .ok source => report source
    | .error fault => Report.unreadable file fault

/-- What a whole command line reports. -/
def Request.report (clock : Nat → Float) (fuel : Nat)
    (contents : String → Except FileFault ByteArray) (input : String) : Request → Report
  | .perform command _ => command.report clock fuel contents input
  | .help => Report.help
  | .version => Report.version
  | .misuse => Report.misuse

/-- Whether a log file is made. -/
def Request.makesLog : Request → Bool
  | .perform _ log => log
  | .help | .version | .misuse => false

end Treewalk.CommandLine
