import Mathlib
import Treewalk.Tree.Parser
/-!
# What rules yield

`Rule.Yields P x` says that the rule `x` only adds errors, and that if it adds none, then `P` holds of
the tokens that it consumes from the front, those that it leaves, the next identities in front of it
and behind it, and its result. For each of the rules that all others are built from there is a lemma
on what it yields.
-/

namespace Treewalk

/-- Identities from `n` up to but not including `m`, none twice. -/
structure Fresh (n m : Nat) (ids : List NodeId) : Prop where
  le : n ≤ m
  nodup : ids.Nodup
  within : ∀ i ∈ ids, n ≤ i ∧ i < m

namespace Fresh

variable {n k m : Nat} {ids ids' : List NodeId}

theorem nil (h : n ≤ m) : Fresh n m [] :=
  ⟨h, List.nodup_nil, by simp⟩

theorem single : Fresh n (n + 1) [n] :=
  ⟨Nat.le_succ n, List.nodup_singleton n, by simp⟩

theorem append (h : Fresh n k ids) (h' : Fresh k m ids') : Fresh n m (ids ++ ids') := by
  refine ⟨Nat.le_trans h.le h'.le, List.nodup_append.2 ⟨h.nodup, h'.nodup, ?_⟩, ?_⟩
  · rintro i hi j hj rfl
    exact absurd (h.within i hi).2 (Nat.not_lt.2 (h'.within i hj).1)
  · intro i hi
    rcases List.mem_append.1 hi with hi | hi
    · exact ⟨(h.within i hi).1, Nat.lt_of_lt_of_le (h.within i hi).2 h'.le⟩
    · exact ⟨Nat.le_trans h.le (h'.within i hi).1, (h'.within i hi).2⟩

/-- The order in which a tree lists its identities need not be the one they were given out in. -/
theorem append_comm (h : Fresh n m (ids ++ ids')) : Fresh n m (ids' ++ ids) :=
  ⟨h.le, List.nodup_append_comm.1 h.nodup, fun i hi => h.within i (by
    simpa only [List.mem_append, or_comm] using hi)⟩

end Fresh

namespace Rule

variable {α β : Type}

/-- What is known of a rule that adds no error, from the tokens it consumes and those it leaves, the
next identities in front of it and behind it, and its result. -/
abbrev Post (α : Type) := (consumed left : List Token) → (next next' : NodeId) → α → Prop

/-- The rule does at `s` what `Yields` says. -/
def YieldsAt (P : Post α) (x : Rule α) (s : Reading) : Prop :=
  match x s with
  | .ok a s' => s'.finish = s.finish ∧ s.next ≤ s'.next ∧ ∃ new, s'.errors = new ++ s.errors ∧
    (new = [] → ∃ u, s.rest = u ++ s'.rest ∧ P u s'.rest s.next s'.next a)
  | .error _ s' => s'.finish = s.finish ∧ s.next ≤ s'.next ∧ ∃ new, s'.errors = new ++ s.errors

def Yields (P : Post α) (x : Rule α) : Prop :=
  ∀ s : Reading, s.finish.kind = .eof → YieldsAt P x s

variable {P Q : Post α} {R : Post β} {x y : Rule α}

theorem YieldsAt.imp {s : Reading} (h : YieldsAt P x s)
    (hPQ : ∀ u r m a, s.rest = u ++ r → P u r s.next m a → Q u r s.next m a) :
    YieldsAt Q x s := by
  unfold YieldsAt at *
  cases hx : x s with
  | error e s' => simpa only [hx] using h
  | ok a s' =>
    simp only [hx] at h ⊢
    obtain ⟨hf, hn, new, he, hP⟩ := h
    refine ⟨hf, hn, new, he, fun h => ?_⟩
    obtain ⟨u, hu, ha⟩ := hP h
    exact ⟨u, hu, hPQ _ _ _ _ hu ha⟩

theorem Yields.imp (h : Yields P x) (hPQ : ∀ u r n m a, P u r n m a → Q u r n m a) :
    Yields Q x :=
  fun s hs => (h s hs).imp fun u r m a _ => hPQ u r s.next m a

theorem bind_run (x : Rule α) (f : α → Rule β) (s : Reading) :
    (x >>= f) s = match x s with
      | .ok a s' => f a s'
      | .error e s' => .error e s' := by
  show EStateM.bind x f s = _
  unfold EStateM.bind
  cases x s <;> rfl

theorem YieldsAt.bind {s : Reading} (hs : s.finish.kind = .eof) (h : YieldsAt P x s)
    {f : α → Rule β}
    (hf : ∀ a, Yields (fun w r m k b => ∀ u n, P u (w ++ r) n m a → R (u ++ w) r n k b) (f a)) :
    YieldsAt R (x >>= f) s := by
  unfold YieldsAt at h ⊢
  rw [bind_run]
  cases hx : x s with
  | error e s' => simpa only [hx] using h
  | ok a s' =>
    simp only [hx] at h ⊢
    obtain ⟨hfin, hn, new, he, hP⟩ := h
    have := hf a s' (hfin ▸ hs)
    unfold YieldsAt at this
    cases hy : f a s' with
    | error e s'' =>
      simp only [hy] at this ⊢
      obtain ⟨hfin', hn', new', he'⟩ := this
      exact ⟨hfin'.trans hfin, Nat.le_trans hn hn', new' ++ new, by rw [he', he, List.append_assoc]⟩
    | ok b s'' =>
      simp only [hy] at this ⊢
      obtain ⟨hfin', hn', new', he', hR⟩ := this
      refine ⟨hfin'.trans hfin, Nat.le_trans hn hn', new' ++ new, by rw [he', he, List.append_assoc],
        fun h => ?_⟩
      obtain ⟨rfl, rfl⟩ := List.append_eq_nil_iff.1 h
      obtain ⟨u, hu, ha⟩ := hP rfl
      obtain ⟨w, hw, hb⟩ := hR rfl
      exact ⟨u ++ w, by rw [hu, hw, List.append_assoc], hb u s.next (hw ▸ ha)⟩

theorem Yields.bind (h : Yields P x) {f : α → Rule β}
    (hf : ∀ a, Yields (fun w r m k b => ∀ u n, P u (w ++ r) n m a → R (u ++ w) r n k b) (f a)) :
    Yields R (x >>= f) :=
  fun s hs => (h s hs).bind hs hf

/-- Behind a rule without errors of its own, what it consumed stands in front. -/
theorem YieldsAt.behind {s s' : Reading} {f : α → Rule β} {a : α} {u : List Token}
    (hx : x s = .ok a s') (hu : s.rest = u ++ s'.rest) (hfin : s'.finish = s.finish)
    (he : s'.errors = s.errors) (hn : s.next ≤ s'.next)
    (h : YieldsAt (fun w r _ k b => R (u ++ w) r s.next k b) (f a) s') : YieldsAt R (x >>= f) s := by
  unfold YieldsAt at h ⊢
  rw [bind_run, hx]
  cases hy : f a s' with
  | error e s'' =>
    simp only [hy] at h ⊢
    rw [← hfin, ← he]
    exact ⟨h.1, Nat.le_trans hn h.2.1, h.2.2⟩
  | ok b s'' =>
    simp only [hy] at h ⊢
    rw [← hfin, ← he, hu]
    obtain ⟨hf, hn', new, he', hR⟩ := h
    refine ⟨hf, Nat.le_trans hn hn', new, he', fun h => ?_⟩
    obtain ⟨w, hw, hb⟩ := hR h
    exact ⟨u ++ w, by rw [hw, List.append_assoc], hb⟩

theorem YieldsAt.after {s s' : Reading} {f : α → Rule β} {a : α} {u : List Token}
    (hx : x s = .ok a s') (hu : s.rest = u ++ s'.rest) (hfin : s'.finish = s.finish)
    (he : s'.errors = s.errors) (hn : s'.next = s.next)
    (h : YieldsAt (fun w r n k b => R (u ++ w) r n k b) (f a) s') : YieldsAt R (x >>= f) s :=
  YieldsAt.behind hx hu hfin he (Nat.le_of_eq hn.symm) (h.imp fun _ _ _ _ _ h => hn ▸ h)

theorem yields_pure {a : α} (h : ∀ r n, P [] r n n a) : Yields P (pure a) :=
  fun s _ => ⟨rfl, Nat.le_refl _, [], rfl, fun _ => ⟨[], rfl, h s.rest s.next⟩⟩

theorem yields_fail {what : Expected} : Yields P (fail what) :=
  fun _ _ => ⟨rfl, Nat.le_refl _, [], rfl⟩

theorem yields_report {t : Token} {fault : SyntaxFault} {P : Post Unit} :
    Yields P (report t fault) :=
  fun _ _ => ⟨rfl, Nat.le_refl _, [_], rfl, fun h => absurd h (List.cons_ne_nil _ _)⟩

theorem yields_fresh_bind {f : NodeId → Rule α}
    (hf : ∀ i, Yields (fun u r n m a => n = i + 1 → P u r i m a) (f i)) : Yields P (fresh >>= f) :=
  fun s hs => YieldsAt.behind (u := []) rfl rfl rfl rfl (Nat.le_succ _)
    ((hf s.next { s with next := s.next + 1 } hs).imp fun _ _ _ _ _ h => h rfl)

theorem YieldsAt.peek {f : Token → Rule α} {s : Reading}
    (h : YieldsAt P (f (s.rest.headD s.finish)) s) : YieldsAt P (peek >>= f) s := h

theorem yields_nextIs_bind {k : Kind} {f : Bool → Rule α} (hf : ∀ b, Yields P (f b)) :
    Yields P (nextIs k >>= f) := by
  rintro ⟨_ | ⟨t, rest⟩, finish, next, errors⟩ hs
  · exact YieldsAt.after (u := []) rfl rfl rfl rfl rfl (hf _ _ hs)
  · exact YieldsAt.after (u := []) rfl rfl rfl rfl rfl (hf _ _ hs)

theorem yields_atBlockEnd_bind {f : Bool → Rule α} (hf : ∀ b, Yields P (f b)) :
    Yields P (atBlockEnd >>= f) := by
  rintro ⟨_ | ⟨t, rest⟩, finish, next, errors⟩ hs
  · exact YieldsAt.after (u := []) rfl rfl rfl rfl rfl (hf _ _ hs)
  · exact YieldsAt.after (u := []) rfl rfl rfl rfl rfl (hf _ _ hs)

theorem take?_nil {wanted : Kind → Bool} {finish : Token} {next : NodeId}
    {errors : List SyntaxError} :
    take? wanted ⟨[], finish, next, errors⟩ = .ok none ⟨[], finish, next, errors⟩ := rfl

theorem take?_cons {wanted : Kind → Bool} {t finish : Token} {rest : List Token} {next : NodeId}
    {errors : List SyntaxError} :
    take? wanted ⟨t :: rest, finish, next, errors⟩ =
      if wanted t.kind then .ok (some t) ⟨rest, finish, next, errors⟩
      else .ok none ⟨t :: rest, finish, next, errors⟩ := by
  unfold take?
  simp only [modifyGet, MonadStateOf.modifyGet, EStateM.modifyGet]
  by_cases h : wanted t.kind <;> simp [h]

theorem yields_take?_bind {wanted : Kind → Bool} {f : Option Token → Rule α}
    (hsome : ∀ t, wanted t.kind = true →
      Yields (fun w r n m a => P (t :: w) r n m a) (f (some t)))
    (hnone : Yields P (f none)) : Yields P (take? wanted >>= f) := by
  rintro ⟨_ | ⟨t, rest⟩, finish, next, errors⟩ hs
  · exact YieldsAt.after (u := []) take?_nil rfl rfl rfl rfl (hnone _ hs)
  · by_cases ht : wanted t.kind = true
    · exact YieldsAt.after (u := [t]) (take?_cons.trans (if_pos ht)) rfl rfl rfl rfl
        (hsome t ht _ hs)
    · exact YieldsAt.after (u := []) (take?_cons.trans (if_neg ht)) rfl rfl rfl rfl
        (hnone _ hs)

theorem accept_nil {k : Kind} {finish : Token} {next : NodeId} {errors : List SyntaxError} :
    accept k ⟨[], finish, next, errors⟩ = .ok false ⟨[], finish, next, errors⟩ := rfl

theorem accept_cons {k : Kind} {t finish : Token} {rest : List Token} {next : NodeId}
    {errors : List SyntaxError} (h : t.kind = k) :
    accept k ⟨t :: rest, finish, next, errors⟩ = .ok true ⟨rest, finish, next, errors⟩ := by
  unfold accept
  rw [bind_run, take?_cons, if_pos (decide_eq_true h)]
  rfl

theorem accept_cons_of_ne {k : Kind} {t finish : Token} {rest : List Token} {next : NodeId}
    {errors : List SyntaxError} (h : t.kind ≠ k) :
    accept k ⟨t :: rest, finish, next, errors⟩ =
      .ok false ⟨t :: rest, finish, next, errors⟩ := by
  unfold accept
  rw [bind_run, take?_cons, if_neg (by simpa using h)]
  rfl

/-- No token of kind `k` is next. -/
def NotNext (k : Kind) (rest : List Token) : Prop :=
  ∀ t ∈ rest.head?, t.kind ≠ k

theorem YieldsAt.accept {k : Kind} {f : Bool → Rule α} {s : Reading}
    (htrue : ∀ t rest, s.rest = t :: rest → t.kind = k →
      YieldsAt (fun w r n m a => P (t :: w) r n m a) (f true) { s with rest })
    (hfalse : NotNext k s.rest → YieldsAt P (f false) s) : YieldsAt P (accept k >>= f) s := by
  obtain ⟨_ | ⟨t, rest⟩, finish, next, errors⟩ := s
  · exact YieldsAt.after (u := []) accept_nil rfl rfl rfl rfl (hfalse (by simp [NotNext]))
  · by_cases ht : t.kind = k
    · exact YieldsAt.after (u := [t]) (accept_cons ht) rfl rfl rfl rfl (htrue t rest rfl ht)
    · exact YieldsAt.after (u := []) (accept_cons_of_ne ht) rfl rfl rfl rfl
        (hfalse (by simpa [NotNext] using ht))

theorem yields_accept_bind {k : Kind} {f : Bool → Rule α}
    (htrue : ∀ t, t.kind = k → Yields (fun w r n m a => P (t :: w) r n m a) (f true))
    (hfalse : Yields P (f false)) : Yields P (accept k >>= f) :=
  fun s hs => YieldsAt.accept (fun t _ _ ht => htrue t ht _ hs) fun _ => hfalse s hs

theorem yields_behind?_bind {k : Kind} {rule : Rule α} (h : Yields P rule)
    {f : Option α → Rule β}
    (hsome : ∀ a, Yields (fun w r m l b => ∀ t u n, t.kind = k → P u (w ++ r) n m a →
      R (t :: u ++ w) r n l b) (f (some a)))
    (hnone : Yields (fun w r n m b => NotNext k (w ++ r) → R w r n m b) (f none)) :
    Yields R (behind? k rule >>= f) := by
  intro s hs
  unfold behind?
  rw [bind_assoc]
  refine YieldsAt.accept (fun t rest _ ht => ?_) fun hk => ?_
  · simp only [if_true, bind_assoc, pure_bind]
    refine (h.bind fun a => (hsome a).imp ?_ : Yields _ _) _ hs
    intro w r m l b hb u n ha
    exact hb t u n ht ha
  · simp only [Bool.false_eq_true, if_false, pure_bind]
    exact (hnone s hs).imp fun u r m b hu hb => hb (hu ▸ hk)

theorem yields_expect_bind {k : Kind} {what : Expected} {f : Token → Rule α}
    (hf : ∀ t, t.kind = k → Yields (fun w r n m a => P (t :: w) r n m a) (f t)) :
    Yields P (expect k what >>= f) := by
  unfold expect
  rw [bind_assoc]
  refine yields_take?_bind (fun t ht => hf t (of_decide_eq_true ht)) ?_
  exact fun _ _ => ⟨rfl, Nat.le_refl _, [], rfl⟩

theorem yields_expect {k : Kind} {what : Expected} :
    Yields (fun u _ n m t => u = [t] ∧ n = m ∧ t.kind = k) (expect k what) := by
  rw [← bind_pure (expect k what)]
  exact yields_expect_bind fun t ht => yields_pure fun r n => ⟨rfl, rfl, ht⟩

/-! ### Lists -/

section Items

variable {L : Post (List α)} (one : ∀ {u r n m a}, P u r n m a → L u r n m [a])
  (more : ∀ {u comma w r n k m a l}, P u (comma :: w ++ r) n k a → comma.kind = .mark .comma →
    L w r k m l → L (u ++ comma :: w) r n m (a :: l))

include one more

theorem commaSeparated_yields {item : Nat → Rule α}
    (h : ∀ count, Yields (fun u r n m a => count < 255 ∧ P u r n m a) (item count))
    (fuel count : Nat) :
    Yields (fun u r n m l => L u r n m l ∧ count + l.length ≤ 255)
      (commaSeparated item fuel count) := by
  induction fuel generalizing count with
  | zero =>
    unfold commaSeparated
    refine (h count).bind fun a => yields_pure fun r m u n ⟨hc, ha⟩ => ?_
    rw [List.append_nil]
    exact ⟨one ha, hc⟩
  | succ fuel ih =>
    unfold commaSeparated
    refine (h count).bind fun a => yields_accept_bind (fun t ht => ?_) ?_
    · refine (ih (count + 1)).bind fun l => yields_pure fun r m w k ⟨hl, hc⟩ u n ⟨_, ha⟩ => ?_
      rw [List.append_nil] at ha ⊢
      refine ⟨more ha ht hl, ?_⟩
      rw [List.length_cons]
      omega
    · refine yields_pure fun r m u n ⟨hc, ha⟩ => ?_
      rw [List.append_nil]
      exact ⟨one ha, hc⟩

/-- Behind a list without an error there are at most 255 items. -/
theorem items_yields {item : Rule α} (h : Yields P item) (fault : SyntaxFault) (fuel : Nat) :
    Yields (fun u r n m l => u = [] ∧ n = m ∧ l = [] ∨ L u r n m l ∧ l.length ≤ 255)
      (items item fault fuel) := by
  refine yields_nextIs_bind fun b => ?_
  cases b with
  | true => exact yields_pure fun r n => .inl ⟨rfl, rfl, rfl⟩
  | false =>
    refine (commaSeparated_yields (P := P) (L := L) one more (fun count => ?_) fuel 0).imp
      fun u r n m l ⟨hl, hc⟩ => .inr ⟨hl, by simpa only [Nat.zero_add] using hc⟩
    by_cases hc : maxArity ≤ count
    · rw [if_pos hc]
      intro s hs
      refine YieldsAt.peek ?_
      exact Yields.bind (P := fun _ _ _ _ _ => False) yields_report
        (fun _ => h.imp fun _ _ _ _ _ _ _ _ h => h.elim) s hs
    · rw [if_neg hc]
      exact h.imp fun u r n m a ha => ⟨Nat.lt_of_not_le hc, ha⟩

end Items

end Rule
end Treewalk
