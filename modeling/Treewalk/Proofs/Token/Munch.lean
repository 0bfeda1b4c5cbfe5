import Mathlib
import Treewalk.Token.Lexer
/-!
# Maximal munch

`Lexeme` is the lexical grammar: the texts of the tokens of each kind. `Lexes` relates a text to what
is to be reported of it, cutting off one span after the other, of which those that are tokens are as
long as they can be. What scanning reports is that and nothing else (`scan_eq_iff_lexes`).
-/

namespace Treewalk

open Lexer

/-- The texts of tokens. -/
inductive Lexeme : Kind → List Char → Prop where
  | mark (m : Mark) : Lexeme (.mark m) m.spelling.toList
  /-- A string is on one line, and there is no way to write a quote in it. -/
  | string {contents : List Char} : '"' ∉ contents → '\n' ∉ contents →
    Lexeme (.string (String.ofList contents)) ('"' :: contents ++ ['"'])
  | integer {c : Char} {digits : List Char} : (∀ x ∈ c :: digits, isDigit x = true) →
    Lexeme (.number (decimal (c :: digits) [])) (c :: digits)
  | fraction {c d : Char} {digits part : List Char} : (∀ x ∈ c :: digits, isDigit x = true) →
    (∀ x ∈ d :: part, isDigit x = true) →
    Lexeme (.number (decimal (c :: digits) (d :: part))) (c :: digits ++ '.' :: d :: part)
  | keyword (k : Keyword) : Lexeme (.keyword k) k.spelling.toList
  | identifier {c : Char} {tail : List Char} : isNameStart c = true →
    (∀ x ∈ tail, isNamePart x = true) → (∀ k : Keyword, c :: tail ≠ k.spelling.toList) →
    Lexeme .identifier (c :: tail)

/-- No token that the text `w ++ rest` begins with is longer than `w`. -/
def Longest (w rest : List Char) : Prop :=
  ∀ kind v, Lexeme kind v → v <+: w ++ rest → v.length ≤ w.length

/-- The line ends here, because of a newline or because nothing is left. -/
def LineEnds (rest : List Char) : Prop :=
  ∀ c ∈ rest.head?, c = '\n'

/-- The reports of a text that begins on the given line. -/
inductive Lexes : (line : Nat) → List Char → List Item → Prop where
  | finish {line : Nat} : Lexes line [] [.token ⟨.eof, "", line⟩]
  | token {line : Nat} {kind : Kind} {w rest : List Char} {items : List Item} :
    Lexeme kind w → Longest w rest → ¬ ['/', '/'] <+: w ++ rest → Lexes line rest items →
    Lexes line (w ++ rest) (.token ⟨kind, String.ofList w, line⟩ :: items)
  | blank {line : Nat} {c : Char} {rest : List Char} {items : List Item} :
    c = ' ' ∨ c = '\t' ∨ c = '\r' → Lexes line rest items → Lexes line (c :: rest) items
  | newline {line : Nat} {rest : List Char} {items : List Item} :
    Lexes (line + 1) rest items → Lexes line ('\n' :: rest) items
  | comment {line : Nat} {text rest : List Char} {items : List Item} :
    '\n' ∉ text → LineEnds rest → Lexes line rest items →
    Lexes line ('/' :: '/' :: text ++ rest) items
  | unterminated {line : Nat} {text rest : List Char} {items : List Item} :
    '"' ∉ text → '\n' ∉ text → LineEnds rest → Lexes line rest items →
    Lexes line ('"' :: text ++ rest) (.error ⟨line, .unterminatedString⟩ :: items)
  /-- A character that nothing of the above begins with is an error of its own. -/
  | unexpected {line : Nat} {c : Char} {rest : List Char} {items : List Item} :
    (∀ kind v, Lexeme kind v → ¬ v <+: c :: rest) → c ≠ ' ' ∧ c ≠ '\t' ∧ c ≠ '\r' ∧ c ≠ '\n' →
    c ≠ '"' → Lexes line rest items →
    Lexes line (c :: rest) (.error ⟨line, .unexpectedCharacter c⟩ :: items)

/-! ### Runs of characters -/

section Runs

variable {p : Char → Bool} {w rest : List Char}

theorem takeWhile_run (hw : ∀ c ∈ w, p c = true) (hrest : ∀ c ∈ rest.head?, p c = false) :
    (w ++ rest).takeWhile p = w := by
  rw [List.takeWhile_append_of_pos hw]
  cases rest with
  | nil => simp
  | cons c rest => simp [hrest c rfl]

theorem dropWhile_run (hw : ∀ c ∈ w, p c = true) (hrest : ∀ c ∈ rest.head?, p c = false) :
    (w ++ rest).dropWhile p = rest := by
  rw [List.dropWhile_append_of_pos hw]
  cases rest with
  | nil => simp
  | cons c rest => simp [hrest c rfl]

theorem length_le_takeWhile {v cs : List Char} (hv : ∀ c ∈ v, p c = true) (h : v <+: cs) :
    v.length ≤ (cs.takeWhile p).length := by
  obtain ⟨rest, rfl⟩ := h
  rw [List.takeWhile_append_of_pos hv, List.length_append]
  exact Nat.le_add_right _ _

/-- A run of characters with the property ends where the text does or the property. -/
theorem head?_dropWhile (cs : List Char) : ∀ c ∈ (cs.dropWhile p).head?, p c = false := by
  intro c hc
  have hne : cs.dropWhile p ≠ [] := by
    rintro h
    simp [h] at hc
  have := List.head_dropWhile_not p hne
  rw [List.head?_eq_some_head hne] at hc
  cases hc
  exact this

end Runs

/-! ### Where cuts are made -/

namespace Lexer

theorem isBlank_iff {c : Char} : isBlank c = true ↔ c = ' ' ∨ c = '\t' ∨ c = '\r' := by
  simp [isBlank, or_assoc]

theorem isBlank_of_isNamePart {c : Char} (h : isNamePart c = true) : isBlank c = false := by
  by_contra hb
  obtain rfl | rfl | rfl := isBlank_iff.1 (by simpa using hb) <;> exact absurd h (by decide)

theorem isDigit_of_isNameStart {c : Char} (h : isNameStart c = true) : isDigit c = false := by
  by_contra hd
  have hd : '0' ≤ c ∧ c ≤ '9' := by simpa [isDigit] using hd
  simp only [isNameStart, Bool.or_eq_true, Bool.and_eq_true, decide_eq_true_eq] at h
  obtain (h | h) | rfl := h
  · exact absurd (le_trans h.1 hd.2) (by decide)
  · exact absurd (le_trans h.1 hd.2) (by decide)
  · exact absurd hd.2 (by decide)

theorem isNamePart_of_isDigit {c : Char} (h : isDigit c = true) : isNamePart c = true := by
  simp [isNamePart, h]

theorem isNamePart_of_isNameStart {c : Char} (h : isNameStart c = true) : isNamePart c = true := by
  simp [isNamePart, h]

theorem wordKind_eq_keyword {word : List Char} {k : Keyword} (h : wordKind word = .keyword k) :
    word = k.spelling.toList := by
  unfold wordKind at h
  split at h
  · next k' hk =>
    obtain rfl := Kind.keyword.inj h
    have := List.find?_some hk
    simpa [eq_comm] using this
  · cases h

theorem wordKind_eq_identifier {word : List Char} (h : wordKind word = .identifier)
    (k : Keyword) : word ≠ k.spelling.toList := by
  unfold wordKind at h
  split at h
  · cases h
  · next hk =>
    have hall : k ∈ Keyword.all := by cases k <;> decide
    simpa [eq_comm] using List.find?_eq_none.1 hk k hall

/-- A digit begins a number. -/
theorem cut_of_isDigit {c : Char} (h : isDigit c = true) (rest : List Char) :
    cut c rest = number c rest := by
  unfold cut
  split
  case h_18 =>
    rw [if_neg (by simp [isBlank_of_isNamePart (isNamePart_of_isDigit h)]), if_pos h]
  all_goals exact absurd h (by decide)

/-- A letter or an underscore begins a word. -/
theorem cut_of_isNameStart {c : Char} (h : isNameStart c = true) (rest : List Char) :
    cut c rest = word c rest := by
  unfold cut
  split
  case h_18 =>
    rw [if_neg (by simp [isBlank_of_isNamePart (isNamePart_of_isNameStart h)]),
      if_neg (by simp [isDigit_of_isNameStart h]), if_pos h]
  all_goals exact absurd h (by decide)

/-- What a cut is, of the text that begins with `c`. -/
inductive Cut (c : Char) (rest : List Char) : Piece × Nat → Prop where
  | token {kind : Kind} {n : Nat} : Lexeme kind (c :: rest.take n) → Cut c rest (.token kind, n)
  | blank : c = ' ' ∨ c = '\t' ∨ c = '\r' → Cut c rest (.blank, 0)
  | newline : c = '\n' → Cut c rest (.newline, 0)
  | comment {text : List Char} : c = '/' → rest = '/' :: text →
    Cut c rest (.comment, (lineRest text).length + 1)
  | unterminated {n : Nat} : c = '"' → '"' ∉ rest.take n → '\n' ∉ rest.take n →
    LineEnds (rest.drop n) → Cut c rest (.unterminated, n)
  | unexpected : c ≠ ' ' ∧ c ≠ '\t' ∧ c ≠ '\r' ∧ c ≠ '\n' → c ≠ '"' → Cut c rest (.unexpected c, 0)

theorem cut_mark {c : Char} {rest : List Char} (m : Mark) (h : m.spelling.toList = [c]) :
    Cut c rest (.token (.mark m), 0) :=
  .token (by simpa [h] using Lexeme.mark m)

theorem orEqual_cut {c : Char} {alone withEqual : Mark} (h : alone.spelling.toList = [c])
    (h' : withEqual.spelling.toList = [c, '=']) (rest : List Char) :
    Cut c rest (orEqual alone withEqual rest) := by
  unfold orEqual
  split
  · exact .token (by simpa [h'] using Lexeme.mark withEqual)
  · exact cut_mark alone h

theorem slash_cut (rest : List Char) : Cut '/' rest (slash rest) := by
  unfold slash
  split
  · exact .comment rfl rfl
  · exact cut_mark .slash rfl

/-- A string is cut off at the next quote or newline. -/
theorem quoted_run {contents tail : List Char} (hq : '"' ∉ contents) (hn : '\n' ∉ contents)
    (ht : ∀ c ∈ tail.head?, c = '"' ∨ c = '\n') :
    quoted (contents ++ tail) = if tail.head? = some '"' then
      (.token (.string (String.ofList contents)), contents.length + 1)
      else (.unterminated, contents.length) := by
  have hrun : (contents ++ tail).takeWhile (fun c => c ≠ '"' && c ≠ '\n') = contents := by
    refine takeWhile_run (fun c hc => ?_) fun c hc => ?_
    · simpa using ⟨fun h => hq (h ▸ hc), fun h => hn (h ▸ hc)⟩
    · rcases ht c hc with rfl | rfl <;> rfl
  unfold quoted
  dsimp only
  rw [hrun, List.drop_left]
  cases tail with
  | nil => rfl
  | cons c tail =>
    rcases ht c rfl with rfl | rfl
    · rfl
    · exact (if_neg (by simp)).symm

/-- What is in front of the next quote or newline. -/
theorem exists_quoted_run (rest : List Char) : ∃ contents tail, rest = contents ++ tail ∧
    '"' ∉ contents ∧ '\n' ∉ contents ∧ ∀ c ∈ tail.head?, c = '"' ∨ c = '\n' := by
  refine ⟨rest.takeWhile fun c => c ≠ '"' && c ≠ '\n', _, List.takeWhile_append_dropWhile.symm,
    fun h => ?_, fun h => ?_, fun c hc => ?_⟩
  · simpa using List.mem_takeWhile_imp h
  · simpa using List.mem_takeWhile_imp h
  · have := head?_dropWhile rest c hc
    simpa [Decidable.or_iff_not_imp_left] using this

theorem quoted_cut (rest : List Char) : Cut '"' rest (quoted rest) := by
  obtain ⟨contents, tail, rfl, hq, hn, ht⟩ := exists_quoted_run rest
  rw [quoted_run hq hn ht]
  cases tail with
  | nil => exact .unterminated rfl (by simpa) (by simpa) (by simp [LineEnds])
  | cons c tail =>
    rcases ht c rfl with rfl | rfl
    · refine .token ?_
      have : (contents ++ '"' :: tail).take (contents.length + 1) = contents ++ ['"'] := by
        simp [List.take_append]
      rw [this]
      exact .string hq hn
    · exact .unterminated rfl (by simpa) (by simpa) (by simp [LineEnds])

/-- A number is cut off behind its digits, and behind those of a fraction if there are any. -/
theorem number_run {c : Char} {digits tail : List Char} (hd : ∀ d ∈ digits, isDigit d = true)
    (ht : ∀ d ∈ tail.head?, isDigit d = false) :
    number c (digits ++ tail) = (.token (.number (decimal (c :: digits) (fraction tail))),
      if fraction tail = [] then digits.length
      else digits.length + 1 + (fraction tail).length) := by
  unfold number
  dsimp only
  rw [takeWhile_run hd ht, dropWhile_run hd ht]
  simp only [List.isEmpty_iff, List.length_cons, Prod.mk.injEq, true_and]
  split <;> omega

/-- The digits behind a point. -/
theorem fraction_eq_cons {tail : List Char} {d : Char} {part : List Char}
    (h : fraction tail = d :: part) : ∃ rest, tail = '.' :: d :: part ++ rest ∧
      (∀ x ∈ d :: part, isDigit x = true) := by
  unfold fraction at h
  split at h
  · rename_i rest
    refine ⟨rest.dropWhile isDigit, ?_, fun d' hd' => ?_⟩
    · rw [List.cons_append, ← h, List.takeWhile_append_dropWhile]
    · rw [← h] at hd'
      exact List.mem_takeWhile_imp hd'
  · cases h

theorem number_cut {c : Char} (h : isDigit c = true) (rest : List Char) :
    Cut c rest (number c rest) := by
  obtain ⟨digits, tail, rfl, hd, ht⟩ : ∃ digits tail, rest = digits ++ tail ∧
      (∀ d ∈ digits, isDigit d = true) ∧ ∀ d ∈ tail.head?, isDigit d = false :=
    ⟨_, _, List.takeWhile_append_dropWhile.symm, fun d hd => List.mem_takeWhile_imp hd,
      head?_dropWhile rest⟩
  rw [number_run hd ht]
  refine .token ?_
  cases hpart : fraction tail with
  | nil => simpa using Lexeme.integer (List.forall_mem_cons.2 ⟨h, hd⟩)
  | cons d part =>
    obtain ⟨rest, rfl, hdigits⟩ := fraction_eq_cons hpart
    rw [if_neg (List.cons_ne_nil _ _)]
    have : (digits ++ ('.' :: d :: part ++ rest)).take (digits.length + 1 + (d :: part).length) =
        digits ++ '.' :: d :: part := by
      rw [← List.append_assoc, List.take_left' (by simp; omega)]
    rw [this]
    exact .fraction (List.forall_mem_cons.2 ⟨h, hd⟩) hdigits

theorem word_cut {c : Char} (h : isNameStart c = true) (rest : List Char) :
    Cut c rest (word c rest) := by
  have htail : rest.take (rest.takeWhile isNamePart).length = rest.takeWhile isNamePart :=
    (List.prefix_iff_eq_take.1 (List.takeWhile_prefix _)).symm
  refine .token ?_
  rw [htail]
  cases hk : wordKind (c :: rest.takeWhile isNamePart) with
  | keyword k => exact wordKind_eq_keyword hk ▸ .keyword k
  | identifier => exact .identifier h (fun d hd => List.mem_takeWhile_imp hd) (wordKind_eq_identifier hk)
  | mark _ | string _ | number _ | eof =>
    unfold wordKind at hk
    split at hk <;> cases hk

/-- What is cut off is what it is said to be. -/
theorem cut_cut (c : Char) (rest : List Char) : Cut c rest (cut c rest) := by
  unfold cut
  split
  case h_18 =>
    split_ifs with hb hd hn
    · exact .blank (isBlank_iff.1 hb)
    · exact number_cut hd rest
    · exact word_cut hn rest
    · have hblank := mt isBlank_iff.2 hb
      push Not at hblank
      exact .unexpected ⟨hblank.1, hblank.2.1, hblank.2.2, by assumption⟩ (by assumption)
  all_goals first
    | exact cut_mark _ rfl
    | exact orEqual_cut rfl rfl rest
    | exact slash_cut rest
    | exact quoted_cut rest
    | exact .newline rfl

/-! ### What is cut off is longest -/

/-- Something is cut off that is at least `n` characters longer than its first one, a token or a
comment. -/
structure Reaches (n : Nat) (cut : Piece × Nat) : Prop where
  le : n ≤ cut.2
  piece : cut.1 = .comment ∨ ∃ kind, cut.1 = .token kind

theorem orEqual_reaches (alone withEqual : Mark) (rest : List Char) :
    Reaches 0 (orEqual alone withEqual rest) := by
  unfold orEqual
  split <;> exact ⟨Nat.zero_le _, .inr ⟨_, rfl⟩⟩

theorem slash_reaches (rest : List Char) : Reaches 0 (slash rest) := by
  unfold slash
  split
  · exact ⟨Nat.zero_le _, .inl rfl⟩
  · exact ⟨Nat.zero_le _, .inr ⟨_, rfl⟩⟩

theorem mark_reaches (m : Mark) {c : Char} {v rest : List Char} (h : m.spelling.toList = c :: v)
    (hv : v <+: rest) : Reaches v.length (cut c rest) := by
  cases m <;> cases h
  case bangEqual | equalEqual | greaterEqual | lessEqual =>
    obtain ⟨rest, rfl⟩ := hv
    exact ⟨Nat.le_refl _, .inr ⟨_, rfl⟩⟩
  case bang | equal | greater | less => exact orEqual_reaches _ _ rest
  case slash => exact slash_reaches rest
  all_goals exact ⟨Nat.zero_le _, .inr ⟨_, rfl⟩⟩

theorem word_reaches {c : Char} {v rest : List Char} (hc : isNameStart c = true)
    (hv : ∀ x ∈ v, isNamePart x = true) (h : v <+: rest) : Reaches v.length (cut c rest) := by
  rw [cut_of_isNameStart hc]
  exact ⟨length_le_takeWhile hv h, .inr ⟨_, rfl⟩⟩

theorem keyword_spelling (k : Keyword) : ∃ c v, k.spelling.toList = c :: v ∧
    isNameStart c = true ∧ ∀ x ∈ v, isNamePart x = true := by
  have hall : k.spelling.toList.head?.any isNameStart = true ∧
      k.spelling.toList.all isNamePart = true := by
    cases k <;> decide +kernel
  obtain ⟨hstart, hparts⟩ := hall
  cases hk : k.spelling.toList with
  | nil =>
    rw [hk] at hstart
    cases hstart
  | cons c v =>
    rw [hk] at hstart hparts
    exact ⟨c, v, rfl, hstart, (List.forall_mem_cons.1 (List.all_eq_true.1 hparts)).2⟩

end Lexer

/-- Nothing that the text begins with is longer than what is cut off. -/
theorem Lexeme.reaches {kind : Kind} {c : Char} {v rest : List Char} (h : Lexeme kind (c :: v))
    (hv : v <+: rest) : Reaches v.length (cut c rest) := by
  generalize hw : c :: v = w at h
  cases h with
  | mark m => exact mark_reaches m hw.symm hv
  | @string contents hq hn =>
    simp only [List.cons_append, List.cons.injEq] at hw
    obtain ⟨rfl, rfl⟩ := hw
    obtain ⟨rest, rfl⟩ := hv
    show Reaches _ (quoted _)
    rw [List.append_assoc, quoted_run hq hn (by simp), if_pos (by simp)]
    exact ⟨by simp, .inr ⟨_, rfl⟩⟩
  | @integer _ digits hd =>
    obtain ⟨rfl, rfl⟩ := List.cons.inj hw
    rw [List.forall_mem_cons] at hd
    rw [cut_of_isDigit hd.1]
    refine ⟨?_, .inr ⟨_, rfl⟩⟩
    have := length_le_takeWhile hd.2 hv
    unfold number
    dsimp only
    split <;> simp only [List.length_cons] <;> omega
  | @fraction _ d digits part hd hp =>
    simp only [List.cons_append, List.cons.injEq] at hw
    obtain ⟨rfl, rfl⟩ := hw
    obtain ⟨rest, rfl⟩ := hv
    rw [List.forall_mem_cons] at hd
    rw [cut_of_isDigit hd.1, List.append_assoc, List.cons_append,
      number_run hd.2 (by simp [isDigit])]
    refine ⟨?_, .inr ⟨_, rfl⟩⟩
    have hpart : Lexer.fraction ('.' :: (d :: part ++ rest)) =
        d :: part ++ rest.takeWhile isDigit := List.takeWhile_append_of_pos hp
    rw [hpart]
    simp only [List.cons_append, reduceCtorEq, if_false, List.length_append, List.length_cons]
    omega
  | keyword k =>
    obtain ⟨c', v', hk, hc, hv'⟩ := keyword_spelling k
    obtain ⟨rfl, rfl⟩ := List.cons.inj (hw.trans hk)
    exact word_reaches hc hv' hv
  | identifier hc ht =>
    obtain ⟨rfl, rfl⟩ := List.cons.inj hw
    exact word_reaches hc ht hv

theorem Lexer.Cut.eq_of_token {c : Char} {rest : List Char} {kind : Kind} {n : Nat}
    (h : Cut c rest (.token kind, n)) : Lexeme kind (c :: rest.take n) := by
  cases h
  assumption

theorem Lexer.wordKind_spelling (k : Keyword) : wordKind k.spelling.toList = .keyword k := by
  cases k <;> decide +kernel

theorem Lexer.wordKind_of_ne {word : List Char} (h : ∀ k : Keyword, word ≠ k.spelling.toList) :
    wordKind word = .identifier := by
  cases hk : wordKind word with
  | identifier => rfl
  | keyword k => exact absurd (wordKind_eq_keyword hk) (h k)
  | mark _ | string _ | number _ | eof =>
    unfold wordKind at hk
    split at hk <;> cases hk

/-- A whole text that is a token is cut off as that token. -/
theorem Lexeme.cut_eq {kind : Kind} {c : Char} {v : List Char} (h : Lexeme kind (c :: v)) :
    (cut c v).1 = .token kind := by
  generalize hw : c :: v = w at h
  have hword {kind} (hc : isNameStart c = true) (hv : ∀ x ∈ v, isNamePart x = true)
      (hk : wordKind (c :: v) = kind) : (cut c v).1 = .token kind := by
    rw [cut_of_isNameStart hc, ← hk]
    show Piece.token (wordKind (c :: v.takeWhile isNamePart)) = _
    rw [List.takeWhile_eq_self_iff.2 hv]
  cases h with
  | mark m => cases m <;> cases hw <;> rfl
  | @string contents hq hn =>
    simp only [List.cons_append, List.cons.injEq] at hw
    obtain ⟨rfl, rfl⟩ := hw
    show (quoted _).1 = _
    rw [quoted_run hq hn (by simp), if_pos (by simp)]
  | @integer _ digits hd =>
    obtain ⟨rfl, rfl⟩ := List.cons.inj hw
    rw [List.forall_mem_cons] at hd
    rw [cut_of_isDigit hd.1, ← List.append_nil v, number_run hd.2 (by simp), List.append_nil]
    rfl
  | @fraction _ d digits part hd hp =>
    simp only [List.cons_append, List.cons.injEq] at hw
    obtain ⟨rfl, rfl⟩ := hw
    rw [List.forall_mem_cons] at hd
    rw [cut_of_isDigit hd.1, number_run hd.2 (by simp [isDigit])]
    have hpart : Lexer.fraction ('.' :: d :: part) = d :: part := List.takeWhile_eq_self_iff.2 hp
    rw [hpart]
  | keyword k =>
    obtain ⟨c', v', hk, hc, hv⟩ := keyword_spelling k
    obtain ⟨rfl, rfl⟩ := List.cons.inj (hw.trans hk)
    exact hword hc hv (hw ▸ wordKind_spelling k)
  | identifier hc ht hne =>
    obtain ⟨rfl, rfl⟩ := List.cons.inj hw
    exact hword hc ht (wordKind_of_ne hne)

theorem Lexeme.exists_cons {kind : Kind} {w : List Char} (h : Lexeme kind w) :
    ∃ c v, w = c :: v := by
  cases h with
  | mark m => cases m <;> exact ⟨_, _, rfl⟩
  | keyword k =>
    obtain ⟨c, v, hk, -⟩ := keyword_spelling k
    exact ⟨c, v, hk⟩
  | string | integer | fraction | identifier => exact ⟨_, _, rfl⟩

/-- A text is a token in one way only. -/
theorem Lexeme.kind_unique {kind kind' : Kind} {w : List Char} (h : Lexeme kind w)
    (h' : Lexeme kind' w) : kind = kind' := by
  obtain ⟨c, v, rfl⟩ := h.exists_cons
  exact Piece.token.inj (h.cut_eq.symm.trans h'.cut_eq)

/-- A token that is the longest is what is cut off. -/
theorem Lexeme.cut_of_longest {kind : Kind} {c : Char} {v rest : List Char}
    (h : Lexeme kind (c :: v)) (hlongest : Longest (c :: v) rest)
    (hcomment : ¬ ['/', '/'] <+: c :: v ++ rest) : ∃ n, cut c (v ++ rest) = (.token kind, n) ∧
      (v ++ rest).take n = v ∧ (v ++ rest).drop n = rest := by
  obtain ⟨hle, hpiece⟩ := h.reaches (List.prefix_append v rest)
  have hcut := cut_cut c (v ++ rest)
  generalize cut c (v ++ rest) = cut at hle hpiece hcut
  obtain ⟨piece, n⟩ := cut
  rcases hpiece with rfl | ⟨kind', rfl⟩
  · cases hcut with
    | comment hc hrest =>
      refine absurd ?_ hcomment
      rw [List.cons_append, hc, hrest]
      exact ⟨_, rfl⟩
  · have hkind' := hcut.eq_of_token
    have hlength := hlongest kind' _ hkind' (by
      rw [List.cons_append, List.cons_prefix_cons]
      exact ⟨rfl, List.take_prefix _ _⟩)
    obtain ⟨k, rfl⟩ : ∃ k, n = v.length + k := ⟨n - v.length, by simp at hle; omega⟩
    rw [List.take_length_add_append] at hkind' hlength
    have htake : rest.take k = [] := by
      rw [List.length_cons, List.length_append, List.length_cons] at hlength
      exact List.eq_nil_of_length_eq_zero (by omega)
    rw [htake, List.append_nil] at hkind'
    refine ⟨_, by rw [h.kind_unique hkind'], by rw [List.take_length_add_append, htake,
      List.append_nil], ?_⟩
    rw [List.drop_length_add_append]
    simpa [htake] using List.take_append_drop k rest

/-! ### Scanning is lexing -/

/-- A comment ends where its line does. -/
theorem lineRest_run {text rest : List Char} (hn : '\n' ∉ text) (hends : LineEnds rest) :
    lineRest (text ++ rest) = text :=
  takeWhile_run (fun c hc => decide_eq_true fun h => hn (h ▸ hc)) fun c hc => by simp [hends c hc]

theorem exists_lineRest_run (cs : List Char) : ∃ text rest, cs = text ++ rest ∧
    '\n' ∉ text ∧ LineEnds rest :=
  ⟨cs.takeWhile (· ≠ '\n'), _, List.takeWhile_append_dropWhile.symm,
    fun h => by simpa using List.mem_takeWhile_imp h,
    fun c hc => by simpa using head?_dropWhile cs c hc⟩

/-- The step from one span to the next, as it is lexed. -/
theorem Lexes.cut {line : Nat} {c : Char} {rest : List Char} {piece : Piece} {n : Nat}
    (hcut : Lexer.cut c rest = (piece, n)) {items : List Item}
    (h : Lexes (Span.nextLine ⟨piece, c :: rest.take n⟩ line) (rest.drop n) items) :
    Lexes line (c :: rest)
      ((Span.item? ⟨piece, c :: rest.take n⟩ line).toList ++ items) := by
  have hsplit : c :: rest = (c :: rest.take n) ++ rest.drop n := by simp
  have hc := cut_cut c rest
  rw [hcut] at hc
  cases hc with
  | @token kind _ hw =>
    rw [hsplit]
    refine .token hw (fun kind' v hv hpre => ?_) (fun hpre => ?_) h
    · obtain ⟨c', v, rfl⟩ := hv.exists_cons
      rw [← hsplit, List.cons_prefix_cons] at hpre
      obtain ⟨rfl, hpre⟩ := hpre
      have hle := (hv.reaches hpre).le
      rw [hcut] at hle
      simp only [List.length_cons, List.length_take]
      have := hpre.length_le
      omega
    · obtain ⟨more, hmore⟩ := hpre
      rw [← hsplit] at hmore
      obtain ⟨rfl, rfl⟩ := List.cons.inj hmore
      cases hcut
  | blank hb => exact .blank hb h
  | newline hn =>
    subst hn
    exact .newline h
  | @comment text hc hrest =>
    subst hc hrest
    obtain ⟨text, rest, rfl, hn, hends⟩ := exists_lineRest_run text
    rw [lineRest_run hn hends, List.drop_succ_cons, List.drop_left] at h
    exact .comment hn hends h
  | unterminated hc hq hn hends =>
    subst hc
    rw [hsplit]
    exact .unterminated hq hn hends h
  | unexpected hblank hquote =>
    refine .unexpected (fun kind v hv hpre => ?_) hblank hquote h
    obtain ⟨c', v, rfl⟩ := hv.exists_cons
    rw [List.cons_prefix_cons] at hpre
    obtain ⟨rfl, hpre⟩ := hpre
    have hpiece := (hv.reaches hpre).piece
    rw [hcut] at hpiece
    rcases hpiece with hpiece | ⟨_, hpiece⟩ <;> cases hpiece

theorem lexes_spans (cs : List Char) (line : Nat) : Lexes line cs (Item.ofSpans (spans cs) line) := by
  fun_induction spans cs generalizing line with
  | case1 => exact .finish
  | case2 c rest piece n hcut ih => exact Lexes.cut hcut (ih _)

/-- Behind a span the others follow. -/
theorem spans_cons {c : Char} {rest : List Char} {piece : Piece} {n : Nat}
    (hcut : cut c rest = (piece, n)) :
    spans (c :: rest) = ⟨piece, c :: rest.take n⟩ :: spans (rest.drop n) := by
  rw [spans, hcut]

theorem Lexes.eq_ofSpans {line : Nat} {cs : List Char} {items : List Item}
    (h : Lexes line cs items) : items = Item.ofSpans (spans cs) line := by
  induction h with
  | finish => rw [spans]; rfl
  | @token line kind w rest items hw hlongest hcomment _ ih =>
    obtain ⟨c, v, rfl⟩ := hw.exists_cons
    obtain ⟨n, hcut, htake, hdrop⟩ := hw.cut_of_longest hlongest hcomment
    rw [List.cons_append, spans_cons hcut, htake, hdrop, ih]
    rfl
  | @blank line c rest items hb _ ih =>
    have hcut : Lexer.cut c rest = (.blank, 0) := by
      rcases hb with rfl | rfl | rfl <;> rfl
    rw [spans_cons hcut, ih]
    rfl
  | @newline line rest items _ ih =>
    have hcut : Lexer.cut '\n' rest = (.newline, 0) := rfl
    rw [spans_cons hcut, ih]
    rfl
  | @comment line text rest items hn hends _ ih =>
    have hcut : Lexer.cut '/' ('/' :: text ++ rest) = (.comment, text.length + 1) := by
      show (Piece.comment, (lineRest (text ++ rest)).length + 1) = _
      rw [lineRest_run hn hends]
    have hdrop : ('/' :: text ++ rest).drop (text.length + 1) = rest := by simp
    rw [List.cons_append, spans_cons hcut, hdrop, ih]
    rfl
  | @unterminated line text rest items hq hn hends _ ih =>
    have hcut : Lexer.cut '"' (text ++ rest) = (.unterminated, text.length) := by
      refine (quoted_run hq hn fun c hc => .inr (hends c hc)).trans (if_neg fun h => ?_)
      exact absurd (hends _ h) (by decide)
    rw [List.cons_append, spans_cons hcut, List.drop_left, ih]
    rfl
  | @unexpected line c rest items hnone hblank hquote _ ih =>
    have hcut : Lexer.cut c rest = (.unexpected c, 0) := by
      have hc := cut_cut c rest
      generalize Lexer.cut c rest = cut at hc ⊢
      cases hc with
      | token hw => exact absurd (List.cons_prefix_cons.2 ⟨rfl, List.take_prefix _ _⟩) (hnone _ _ hw)
      | blank hb => tauto
      | newline hn => exact absurd hn hblank.2.2.2
      | comment hc => exact absurd ⟨rest, by rw [hc]; rfl⟩ (hnone _ _ (.mark .slash))
      | unterminated hc => exact absurd hc hquote
      | unexpected => rfl
    rw [spans_cons hcut, ih]
    rfl

/-- A token is on one line. -/
theorem Lexeme.newline_not_mem {kind : Kind} {w : List Char} (h : Lexeme kind w) : '\n' ∉ w := by
  have hdigits {ds : List Char} (hd : ∀ x ∈ ds, isDigit x = true) : '\n' ∉ ds :=
    fun hmem => absurd (hd _ hmem) (by decide)
  cases h with
  | mark m => cases m <;> decide
  | string hq hn => simpa using hn
  | integer hd => exact hdigits hd
  | fraction hd hp =>
    intro hmem
    rcases List.mem_append.1 hmem with hmem | hmem
    · exact hdigits hd hmem
    rcases List.mem_cons.1 hmem with hmem | hmem
    · exact absurd hmem (by decide)
    · exact hdigits hp hmem
  | keyword k => cases k <;> decide
  | identifier hc ht =>
    rw [List.mem_cons]
    refine not_or.2 ⟨?_, fun hmem => absurd (ht _ hmem) (by decide)⟩
    rintro rfl
    exact absurd hc (by decide)

theorem Lexeme.kind_ne_eof {kind : Kind} {w : List Char} (h : Lexeme kind w) : kind ≠ .eof := by
  cases h <;> nofun

/-- Spans without a newline in them do not count. -/
theorem count_newline {w : List Char} (h : '\n' ∉ w) (rest : List Char) :
    (w ++ rest).count '\n' = rest.count '\n' := by
  rw [List.count_append, List.count_eq_zero_of_not_mem h, Nat.zero_add]

/-- The end of the input is the last report and no other one, on the line that the text ends on. -/
theorem Lexes.eq_append_finish {line : Nat} {cs : List Char} {items : List Item}
    (h : Lexes line cs items) : ∃ reports,
      items = reports ++ [.token ⟨.eof, "", line + cs.count '\n'⟩] ∧
        ∀ t, .token t ∈ reports → t.kind ≠ .eof := by
  induction h with
  | finish => exact ⟨[], rfl, by simp⟩
  | @token line kind w rest items hw _ _ _ ih =>
    obtain ⟨reports, rfl, hkinds⟩ := ih
    rw [count_newline hw.newline_not_mem]
    refine ⟨.token ⟨kind, String.ofList w, line⟩ :: reports, rfl, ?_⟩
    rintro t (_ | ⟨_, ht⟩)
    · exact hw.kind_ne_eof
    · exact hkinds t ht
  | @blank line c rest items hb _ ih =>
    rw [List.count_cons_of_ne (by rcases hb with rfl | rfl | rfl <;> decide)]
    exact ih
  | newline _ ih =>
    rw [List.count_cons_self, Nat.add_comm _ 1, ← Nat.add_assoc]
    exact ih
  | comment hn _ _ ih =>
    rw [count_newline (by simpa using hn)]
    exact ih
  | @unterminated line text rest items _ hn _ _ ih =>
    obtain ⟨reports, rfl, hkinds⟩ := ih
    rw [count_newline (by simpa using hn)]
    exact ⟨.error ⟨line, .unterminatedString⟩ :: reports, rfl, by simpa using hkinds⟩
  | @unexpected line c rest items _ hblank _ _ ih =>
    obtain ⟨reports, rfl, hkinds⟩ := ih
    rw [List.count_cons_of_ne hblank.2.2.2]
    exact ⟨.error ⟨line, .unexpectedCharacter c⟩ :: reports, rfl, by simpa using hkinds⟩

/-- Scanning reports what lexing with maximal munch does, and nothing else. The last report, and no
other one, is the end of the input, on the line that the text ends on. -/
theorem scan_eq_iff_lexes (source : String) :
    (∀ items, scan source = items ↔ Lexes 1 source.toList items) ∧
      ∃ reports, scan source =
          reports ++ [.token ⟨.eof, "", 1 + source.toList.count '\n'⟩] ∧
        ∀ t, .token t ∈ reports → t.kind ≠ .eof :=
  ⟨fun _ => ⟨fun h => h ▸ lexes_spans _ _, fun h => h.eq_ofSpans.symm⟩,
    (lexes_spans source.toList 1).eq_append_finish⟩

end Treewalk
