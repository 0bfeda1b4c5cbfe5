import Treewalk.Proofs.Evaluation.Closed
import Treewalk.Proofs.Evaluation.Frame
/-!
# What a full sink changes

An evaluation prints the same onto any sink, as far as the sink takes it. On one that takes it all
nothing is different, and on one that does not the evaluation stops at the first byte too many, with
the reason of the sink (`program_truncates`).
-/

namespace Treewalk

/-- It does not matter in how many pieces something is written, such as a line as its text and its
end. -/
theorem Sink.write_append (s : Sink) (a b : ByteArray) :
    s.write (a ++ b) = (s.write a).write b := by
  unfold write
  cases s.room with
  | none => simp [ByteArray.append_assoc]
  | some n => simp [ByteArray.append_assoc, ByteArray.extract_append, Nat.sub_sub]

/-- What is written in pieces is refused at the first one that does not fit. -/
theorem Sink.refusal?_append (s : Sink) (a b : ByteArray) :
    s.refusal? (a ++ b) = (s.refusal? a).or ((s.write a).refusal? b) := by
  unfold refusal? write
  cases s.room with
  | none => rfl
  | some n =>
    by_cases ha : a.size ≤ n
    · have : a.size + b.size ≤ n ↔ b.size ≤ n - a.size := by omega
      simp [ha, this]
    · have : ¬ a.size + b.size ≤ n := by omega
      simp [ha, this]

theorem extract_of_size_le {b : ByteArray} {k : Nat} (h : b.size ≤ k) : b.extract 0 k = b := by
  rw [← Nat.max_eq_left h]
  simp

/-- The machine with a sink that takes so many bytes more. -/
def Machine.limit (k : Nat) (reason : String) (m : Machine) : Machine :=
  { m with out := ⟨m.out.written, some k, reason⟩ }

namespace Eval

variable {α β : Type}

/-- The result on another machine. -/
def resultOn (g : Machine → Machine) : EStateM.Result Stop Machine α → EStateM.Result Stop Machine α
  | .ok a m => .ok a (g m)
  | .error e m => .error e (g m)

/-- The evaluation prints `δ` from `m` on, as far as the sink takes it. -/
structure Prints (x : Eval α) (σ : Setting) (m : Machine) (δ : ByteArray) : Prop where
  out : (after x σ m).out = { m.out with written := m.out.written ++ δ }
  fits : ∀ k reason, δ.size ≤ k →
    x σ (m.limit k reason) = resultOn (Machine.limit (k - δ.size) reason) (x σ m)
  cuts : ∀ k reason, k < δ.size → ∃ m', x σ (m.limit k reason) = .error (.output reason) m' ∧
    m'.out.written = m.out.written ++ δ.extract 0 k

/-- What is printed on a sink without a limit, a limited one cuts. -/
def Truncates (x : Eval α) : Prop :=
  ∀ σ m, m.out.room = none → ∃ δ, Prints x σ m δ

variable {x : Eval α} {f : α → Eval β}

/-- What neither sees nor changes the sink prints nothing. -/
theorem Truncates.of_blind (h : ∀ σ m o, x σ { m with out := o } =
    resultOn (fun m' => { m' with out := o }) (x σ m)) : Truncates x := by
  intro σ m _
  have hout : (after x σ m).out = m.out := by
    have hself : x σ m = resultOn (fun m' => { m' with out := m.out }) (x σ m) := h σ m m.out
    unfold after
    rw [hself]
    cases x σ m <;> rfl
  refine ⟨.empty, by rw [hout, ByteArray.append_empty], fun k reason _ => ?_, nofun⟩
  unfold after at hout
  unfold Machine.limit
  rw [h σ m]
  cases hx : x σ m with
  | ok a m' | error e m' =>
    rw [hx] at hout
    simp [resultOn, hout]

theorem truncates_bind (hx : Truncates x) (hf : ∀ a, Truncates (f a)) : Truncates (x >>= f) := by
  intro σ m hroom
  obtain ⟨δ, hδ⟩ := hx σ m hroom
  have hout := hδ.out
  unfold after at hout
  cases he : x σ m with
  | error e m₁ =>
    rw [he] at hout
    refine ⟨δ, ?_, fun k reason hk => ?_, fun k reason hk => ?_⟩
    · unfold after
      rw [bind_run, he]
      exact hout
    · rw [bind_run, hδ.fits k reason hk, bind_run, he]
      rfl
    · obtain ⟨m', hm', hw⟩ := hδ.cuts k reason hk
      exact ⟨m', by rw [bind_run, hm'], hw⟩
  | ok a m₁ =>
    rw [he] at hout
    replace hout : m₁.out = { m.out with written := m.out.written ++ δ } := hout
    obtain ⟨ε, hε⟩ := hf a σ m₁ (by rw [hout]; exact hroom)
    refine ⟨δ ++ ε, ?_, fun k reason hk => ?_, fun k reason hk => ?_⟩
    · have := hε.out
      unfold after at this ⊢
      rw [bind_run, he]
      refine this.trans ?_
      rw [hout, ByteArray.append_assoc]
    · rw [ByteArray.size_append] at hk ⊢
      rw [bind_run, bind_run, hδ.fits k reason (by omega), he, ← Nat.sub_sub]
      exact hε.fits (k - δ.size) reason (by omega)
    · rw [ByteArray.size_append] at hk
      rw [bind_run, ByteArray.extract_append]
      by_cases hfirst : k < δ.size
      · -- already the first part is too long
        obtain ⟨m', hm', hw⟩ := hδ.cuts k reason hfirst
        refine ⟨m', by rw [hm'], hw.trans ?_⟩
        have : ε.extract (0 - δ.size) (k - δ.size) = .empty := by
          rw [ByteArray.extract_eq_empty_iff]; omega
        rw [this, ByteArray.append_empty]
      · rw [hδ.fits k reason (by omega), he]
        obtain ⟨m', hm', hw⟩ := hε.cuts (k - δ.size) reason (by omega)
        refine ⟨m', hm', hw.trans ?_⟩
        rw [hout, extract_of_size_le (Nat.not_lt.1 hfirst), Nat.zero_sub, ByteArray.append_assoc]

theorem truncates_within (scope : ScopeId) (h : Truncates x) : Truncates (within scope x) := by
  intro σ m hroom
  obtain ⟨δ, hδ⟩ := h σ { m with cursor := scope } hroom
  refine ⟨δ, ?_, fun k reason hk => ?_, fun k reason hk => ?_⟩
  · have := hδ.out
    unfold after at this ⊢
    rw [within_run]
    cases hx : x σ { m with cursor := scope } <;> rw [hx] at this <;> exact this
  · have := hδ.fits k reason hk
    rw [within_run, within_run]
    show (match x σ (({ m with cursor := scope } : Machine).limit k reason) with
      | .ok a m' => _
      | .error e m' => _) = _
    rw [this]
    cases x σ { m with cursor := scope } <;> rfl
  · obtain ⟨m', hm', hw⟩ := hδ.cuts k reason hk
    refine ⟨{ m' with cursor := m.cursor }, ?_, hw⟩
    rw [within_run]
    show (match x σ (({ m with cursor := scope } : Machine).limit k reason) with
      | .ok a m' => _
      | .error e m' => _) = _
    rw [hm']
    rfl

theorem truncates_print (text : String) : Truncates (print text) := by
  intro σ m hroom
  set bytes := (text ++ "\n").toUTF8 with hbytes
  refine ⟨bytes, ?_, fun k reason hk => ?_, fun k reason hk => ?_⟩
  · unfold after
    rw [print_run, ← hbytes, Sink.refusal?_of_room_none hroom]
    simp [Sink.write, hroom]
  · rw [print_run, print_run, ← hbytes, Sink.refusal?_of_room_none hroom]
    simp [Machine.limit, Sink.refusal?, Sink.write, hroom, hk, resultOn, extract_of_size_le hk]
  · rw [print_run, ← hbytes]
    simp [Machine.limit, Sink.refusal?, Sink.write, Nat.not_le.2 hk]

theorem closed_truncates : Closed @Truncates where
  pure _ := .of_blind fun _ _ _ => rfl
  throw _ := .of_blind fun _ _ _ => rfl
  bind := truncates_bind
  get_bind hf σ m hroom :=
    let ⟨δ, hδ⟩ := hf m.heap m.cursor σ m hroom
    ⟨δ, hδ.out, hδ.fits, hδ.cuts⟩
  read_bind hf σ m hroom :=
    let ⟨δ, hδ⟩ := hf σ σ m hroom
    ⟨δ, hδ.out, hδ.fits, hδ.cuts⟩
  heapStep _ := .of_blind fun _ _ _ => rfl
  within scope _ h := truncates_within scope h
  print := truncates_print
  clock := .of_blind fun _ _ _ => rfl

/-- What a program prints, a limited sink cuts, and the program stops there. -/
theorem program_truncates (fuel : Nat) (p : List Stmt) : Truncates (program fuel p) :=
  closed_truncates.program fuel p

end Eval
end Treewalk
