import Treewalk.Evaluation
import Treewalk.Text.Utf8
import Treewalk.Tree.Parser
/-!
# Sessions

A session runs one source after another on the same global variables. What earlier sources have
declared stays, and so do the distances of their references, because their functions may be called
later. A source with an error that shows without running it is not run at all.
-/

namespace Treewalk

structure Session where
  machine : Machine
  distances : Distances
  /-- The identity of the next reference, so that identities differ across sources. -/
  next : NodeId

/-- What reading a source gives: the statements that could be read, and all errors. -/
structure Source where
  statements : List Stmt
  /-- The lexical errors and behind them the syntax errors. -/
  errors : List Diagnostic
  next : NodeId

/-- Reads a source, with identities from `next` on for its references. -/
def Source.read (source : String) (next : NodeId) : Source :=
  let items := scan source
  let parsed := parseTokens (items.filterMap Item.token?) next
  let lexical := items.filterMap Item.error?
  ⟨parsed.statements, lexical.map .lexical ++ parsed.errors.map .syntactic, parsed.next⟩

/-- How a run ended. -/
inductive Outcome where
  | ok
  /-- The source has errors that show without running it. -/
  | rejected (errors : List Diagnostic)
  /-- The program stopped at an error. -/
  | failed (error : Diagnostic)
  | outOfFuel
deriving DecidableEq, Repr

namespace Outcome

def diagnostics : Outcome → List Diagnostic
  | rejected errors => errors
  | failed error => [error]
  | ok | outOfFuel => []

/-- The exit code of a process that ran nothing else. -/
def exitCode : Outcome → Nat
  | ok => 0
  | rejected _ => 65
  | failed _ | outOfFuel => 70

/-- What is written to the error output, a line for each diagnostic. -/
def errorText (o : Outcome) : String :=
  String.join (o.diagnostics.map fun d => d.text ++ "\n")

end Outcome

namespace Session

variable {α : Type}

def initial (out : Sink) : Session := ⟨.initial out, ∅, 0⟩

/-- What has been printed since the last time. A character that a full sink has cut is shown as a
replacement character. -/
def drain : Session → String × Session
  | ⟨⟨heap, cursor, out, readings⟩, distances, next⟩ =>
    let (bytes, out) := out.drain
    (Utf8.decodeCut bytes, ⟨⟨heap, cursor, out, readings⟩, distances, next⟩)

/-- Reads a source as the next of the session. -/
def read (s : Session) (source : String) : Source × Session :=
  let r := Source.read source s.next
  (r, { s with next := r.next })

/-- Resolves statements and keeps the distances of their references. -/
def resolve (s : Session) (statements : List Stmt) : Resolution × Session :=
  let r := Treewalk.resolve statements
  (r, { s with distances := s.distances.record r.references })

/-- Carries out an evaluation on the machine of the session. -/
def perform : Session → (clock : Nat → Float) → Eval α → Except Stop α × Session
  | ⟨machine, distances, next⟩, clock, action =>
    match action ⟨distances, clock⟩ machine with
    | .ok a machine => (.ok a, ⟨machine, distances, next⟩)
    | .error e machine => (.error e, ⟨machine, distances, next⟩)

/-- Runs statements, whether or not they have errors that show without running them. -/
def interpret (s : Session) (clock : Nat → Float) (fuel : Nat) (statements : List Stmt) :
    Except Stop Unit × Session :=
  s.perform clock (Eval.program fuel statements)

end Session

/-- The outcome of a program that was run. -/
def Outcome.ofResult : Except Stop Unit → Outcome
  | .ok () => .ok
  | .error (.runtime e) => .failed (.runtime e)
  | .error (.output reason) => .failed (.output reason)
  | .error .outOfFuel => .outOfFuel

namespace Session

/-- Reads and resolves a source as the next of the session, and gives its statements unless an error
keeps it from being run. -/
def accept (s : Session) (source : String) : Except (List Diagnostic) (List Stmt) × Session :=
  let (source, s) := s.read source
  if source.errors.isEmpty then
    let (resolution, s) := s.resolve source.statements
    if resolution.errors.isEmpty then (.ok source.statements, s)
    else (.error (resolution.errors.map .static), s)
  else
    (.error source.errors, s)

/-- Reads, resolves and runs a source. -/
def run (s : Session) (clock : Nat → Float) (fuel : Nat) (source : String) : Outcome × Session :=
  match s.accept source with
  | (.ok statements, s) =>
    let (result, s) := s.interpret clock fuel statements
    (.ofResult result, s)
  | (.error errors, s) => (.rejected errors, s)

end Session

end Treewalk
