import Treewalk.Proofs.Evaluation.Truncation
import Treewalk.Proofs.Session.Reached
/-!
# Sessions on a full sink

A sink that takes a limited number of bytes cuts what a run prints and changes nothing else
(`Session.run_limited`).
-/

namespace Treewalk
namespace Session

/-- The session with another sink. -/
def onto (s : Session) (out : Sink) : Session :=
  { s with machine := { s.machine with out := out } }

/-- Reading and resolving a source prints nothing. -/
theorem accept_onto (s : Session) (out : Sink) (source : String) :
    (s.onto out).accept source = ((s.accept source).1, (s.accept source).2.onto out) := by
  rw [accept_eq, accept_eq, show (s.onto out).next = s.next from rfl]
  dsimp only
  by_cases h : (Source.read source s.next).errors.isEmpty
  · rw [if_pos h, if_pos h]; rfl
  · rw [if_neg h, if_neg h]; rfl

/-- What an evaluation ended with, and the session then. -/
def ended (s : Session) : EStateM.Result Stop Machine Unit → Except Stop Unit × Session
  | .ok () m => (.ok (), { s with machine := m })
  | .error e m => (.error e, { s with machine := m })

theorem interpret_onto (s : Session) (out : Sink) (clock : Nat → Float) (fuel : Nat)
    (p : List Stmt) : (s.onto out).interpret clock fuel p =
      s.ended (Eval.program fuel p ⟨s.distances, clock⟩ { s.machine with out := out }) := by
  rw [interpret, perform_run]
  show _ = s.ended (Eval.program fuel p ⟨(s.onto out).distances, clock⟩ (s.onto out).machine)
  cases Eval.program fuel p ⟨(s.onto out).distances, clock⟩ (s.onto out).machine <;> rfl

/-- Statements print on a limited sink what they print on an unlimited one, as far as it fits, and
stop where it does not. -/
theorem interpret_limited (s : Session) (clock : Nat → Float) (fuel : Nat) (p : List Stmt)
    (n : Nat) (reason : String) :
    let full := (s.onto .unlimited).interpret clock fuel p
    let cut := (s.onto (.limited n reason)).interpret clock fuel p
    let w := full.2.machine.out.written
    (w.size ≤ n → cut = (full.1, full.2.onto ⟨w, some (n - w.size), reason⟩)) ∧
      (n < w.size → cut.1 = .error (.output reason) ∧
        cut.2.machine.out.written = w.extract 0 n) := by
  set m : Machine := { s.machine with out := .unlimited } with hm
  have hlimit : ({ s.machine with out := .limited n reason } : Machine) = m.limit n reason := rfl
  rw [interpret_onto, interpret_onto, hlimit, ← hm]
  obtain ⟨δ, hδ⟩ := Eval.program_truncates fuel p ⟨s.distances, clock⟩ m rfl
  have hout := hδ.out
  unfold Eval.after at hout
  cases hx : Eval.program fuel p ⟨s.distances, clock⟩ m with
  | ok a m' | error e m' =>
    rw [hx] at hout
    have hw : m'.out.written = δ :=
      (congrArg Sink.written hout).trans ByteArray.empty_append
    refine ⟨fun hn => ?_, fun hn => ?_⟩
    · have hsize : δ.size ≤ n := hw ▸ hn
      rw [hδ.fits n reason hsize, hx, ← hw]
      rfl
    · have hsize : n < δ.size := hw ▸ hn
      obtain ⟨m'', hcut, hprinted⟩ := hδ.cuts n reason hsize
      rw [hcut]
      refine ⟨rfl, hprinted.trans ?_⟩
      rw [← hw]
      exact ByteArray.empty_append

/-- However many bytes a sink takes, a run prints on it what it prints on an unlimited one, up to
there. If that is everything nothing else is different, and if not the run has failed with the
reason of the sink. -/
theorem run_limited (s : Session) (clock : Nat → Float) (fuel : Nat) (source : String) (n : Nat)
    (reason : String) :
    let full := (s.onto .unlimited).run clock fuel source
    let cut := (s.onto (.limited n reason)).run clock fuel source
    let w := full.2.machine.out.written
    cut.2.machine.out.written = w.extract 0 (min n w.size) ∧
      (w.size ≤ n → cut = (full.1, full.2.onto ⟨w, some (n - w.size), reason⟩)) ∧
      (n < w.size → cut.1 = .failed (.output reason) ∧ cut.1.exitCode = 70 ∧
        cut.1.errorText = reason ++ "\n") := by
  rcases haccept : s.accept source with ⟨errors | p, s'⟩
  · -- a source with errors is not run
    have hrun (out : Sink) : (s.onto out).run clock fuel source =
        (.rejected errors, s'.onto out) := by
      rw [run, accept_onto, haccept]
    rw [hrun, hrun]
    refine ⟨?_, fun _ => rfl, fun h => absurd h (Nat.not_lt_zero n)⟩
    show ByteArray.empty = ByteArray.empty.extract 0 (min n 0)
    rw [Nat.min_zero, ByteArray.extract_same]
  · have hrun (out : Sink) : (s.onto out).run clock fuel source =
        (.ofResult ((s'.onto out).interpret clock fuel p).1,
          ((s'.onto out).interpret clock fuel p).2) := by
      rw [run, accept_onto, haccept]
    rw [hrun, hrun]
    obtain ⟨hfits, hcuts⟩ := s'.interpret_limited clock fuel p n reason
    intro full cut w
    refine ⟨?_, fun h => ?_, fun h => ?_⟩
    · rcases Nat.lt_or_ge n w.size with h | h
      · rw [Nat.min_eq_left h.le]
        exact (hcuts h).2
      · rw [Nat.min_eq_right h, ByteArray.extract_zero_size]
        exact congrArg (fun r => r.2.machine.out.written) (hfits h)
    · exact congrArg (fun r => (Outcome.ofResult r.1, r.2)) (hfits h)
    · have hfailed : cut.1 = .failed (.output reason) := congrArg Outcome.ofResult (hcuts h).1
      rw [hfailed]
      refine ⟨rfl, rfl, ?_⟩
      simp [Outcome.errorText, Outcome.diagnostics, Diagnostic.text]

end Session
end Treewalk
