import Treewalk.Proofs.Token.Munch
/-!
# Tokens written out

Tokens that are written one behind the other, with something between them that is no token, are what
the text is scanned as (`scan_written`). There is one exception: a comment begins with the first of
its slashes, also where that one was written as a token.
-/

namespace Treewalk

open Lexer

/-- Blanks, newlines and comments that end with their line. -/
inductive Gap : List Char → Prop where
  | nil : Gap []
  | blank {c : Char} {rest : List Char} : c = ' ' ∨ c = '\t' ∨ c = '\r' → Gap rest → Gap (c :: rest)
  | newline {rest : List Char} : Gap rest → Gap ('\n' :: rest)
  | comment {text rest : List Char} : '\n' ∉ text → Gap rest →
    Gap ('/' :: '/' :: text ++ '\n' :: rest)

/-- What keeps tokens apart. -/
structure Separator where
  text : List Char
  gap : Gap text
  ne_nil : text ≠ []

/-- A token to be written, of which the text is well-formed. -/
structure Word where
  kind : Kind
  text : List Char
  lexeme : Lexeme kind text

/-- Words with a separator in front of the first and behind each of them. -/
structure Written where
  leading : Separator
  words : List (Word × Separator)

namespace Written

def text (written : Written) : String :=
  String.ofList (written.leading.text ++
    written.words.flatMap fun (word, separator) => word.text ++ separator.text)

/-- A slash right in front of a comment is where the comment begins. -/
def Swallowed (word : Word) (separator : Separator) : Prop :=
  word.kind = .mark .slash ∧ separator.text.head? = some '/'

instance (word : Word) (separator : Separator) : Decidable (Swallowed word separator) :=
  inferInstanceAs (Decidable (_ ∧ _))

/-- The words that are tokens of the text. -/
def tokens (words : List (Word × Separator)) : List Word :=
  (words.filter fun (word, separator) => ¬ Swallowed word separator).map (·.1)

/-- The reports of words with separators behind them, from the given line on. -/
def items : List (Word × Separator) → (line : Nat) → List Item
  | [], line => [.token ⟨.eof, "", line⟩]
  | (word, separator) :: rest, line =>
    let behind := items rest (line + separator.text.count '\n')
    if Swallowed word separator then behind
    else .token ⟨word.kind, String.ofList word.text, line⟩ :: behind

end Written

/-! ### Separators -/

/-- The characters that separators begin with. -/
def BeginsGap (c : Char) : Prop :=
  c = ' ' ∨ c = '\t' ∨ c = '\r' ∨ c = '\n' ∨ c = '/'

namespace Gap

variable {line : Nat} {text rest : List Char} {items : List Item}

/-- Nothing is reported of what separates tokens. -/
theorem lexes (h : Gap text) (hrest : Lexes (line + text.count '\n') rest items) :
    Lexes line (text ++ rest) items := by
  induction h generalizing line with
  | nil => exact hrest
  | @blank c _ hb _ ih =>
    rw [List.count_cons_of_ne (by rcases hb with rfl | rfl | rfl <;> decide)] at hrest
    exact .blank hb (ih hrest)
  | newline _ ih =>
    rw [List.count_cons_self, Nat.add_comm _ 1, ← Nat.add_assoc] at hrest
    exact .newline (ih hrest)
  | @comment text _ hn _ ih =>
    rw [count_newline (by simpa using hn), List.count_cons_self, Nat.add_comm _ 1,
      ← Nat.add_assoc] at hrest
    rw [List.append_assoc]
    exact .comment hn (by simp [LineEnds]) (.newline (ih hrest))

theorem begins {c : Char} (h : Gap (c :: text)) : BeginsGap c := by
  generalize hcs : c :: text = cs at h
  cases h with
  | nil => cases hcs
  | blank hb =>
    obtain rfl := (List.cons.inj hcs).1
    rcases hb with rfl | rfl | rfl <;> simp [BeginsGap]
  | newline => simp [BeginsGap, (List.cons.inj hcs).1]
  | comment => simp [BeginsGap, (List.cons.inj hcs).1]

/-- A slash in front of a comment is a part of it. -/
theorem slash (h : Gap ('/' :: text)) : Gap ('/' :: '/' :: text) := by
  generalize hcs : '/' :: text = cs at h ⊢
  cases h with
  | nil => cases hcs
  | blank hb =>
    obtain rfl := (List.cons.inj hcs).1
    exact absurd hb (by decide)
  | newline => cases hcs
  | @comment text rest hn hrest =>
    have hn' : '\n' ∉ '/' :: text := by simpa using hn
    exact .comment hn' hrest

end Gap

theorem Separator.exists_cons (separator : Separator) :
    ∃ c rest, separator.text = c :: rest ∧ BeginsGap c := by
  obtain ⟨text, hgap, hne⟩ := separator
  cases text with
  | nil => exact absurd rfl hne
  | cons c rest => exact ⟨c, rest, rfl, hgap.begins⟩

/-! ### Tokens do not go on behind a separator -/

theorem BeginsGap.not_isNamePart {c : Char} (h : BeginsGap c) : isNamePart c = false := by
  rcases h with rfl | rfl | rfl | rfl | rfl <;> rfl

theorem Mark.eq_equal_of_mem_tail (m : Mark) : ∀ d ∈ m.spelling.toList.tail, d = '=' := by
  have hall : m.spelling.toList.tail.all (· = '=') = true := by cases m <;> decide
  simpa using hall

namespace Lexeme

variable {kind : Kind} {c : Char} {v w rest : List Char}

/-- A token is a mark or a string, or it is a number or a word. -/
theorem sort (h : Lexeme kind (c :: v)) :
    (∃ m : Mark, kind = .mark m ∧ m.spelling.toList = c :: v) ∨
      (∃ contents, '"' ∉ contents ∧ c = '"' ∧ v = contents ++ ['"']) ∨
      isNamePart c = true ∧ ∀ d ∈ v, isNamePart d = true ∨ d = '.' := by
  generalize hw : c :: v = w at h
  cases h with
  | mark m => exact .inl ⟨m, rfl, rfl⟩
  | @string contents hq => exact .inr (.inl ⟨contents, hq, List.cons.inj hw⟩)
  | integer hd =>
    obtain ⟨rfl, rfl⟩ := List.cons.inj hw
    rw [List.forall_mem_cons] at hd
    exact .inr (.inr ⟨isNamePart_of_isDigit hd.1,
      fun d hmem => .inl (isNamePart_of_isDigit (hd.2 d hmem))⟩)
  | fraction hd hp =>
    obtain ⟨rfl, rfl⟩ := List.cons.inj hw
    rw [List.forall_mem_cons] at hd
    refine .inr (.inr ⟨isNamePart_of_isDigit hd.1, fun d hmem => ?_⟩)
    rcases List.mem_append.1 hmem with hmem | hmem
    · exact .inl (isNamePart_of_isDigit (hd.2 d hmem))
    rcases List.mem_cons.1 hmem with rfl | hmem
    · exact .inr rfl
    · exact .inl (isNamePart_of_isDigit (hp d hmem))
  | keyword k =>
    obtain ⟨c', tail, hk, hc, htail⟩ := keyword_spelling k
    obtain ⟨rfl, rfl⟩ := List.cons.inj (hw.trans hk)
    exact .inr (.inr ⟨isNamePart_of_isNameStart hc, fun d hd => .inl (htail d hd)⟩)
  | identifier hc htail =>
    obtain ⟨rfl, rfl⟩ := List.cons.inj hw
    exact .inr (.inr ⟨isNamePart_of_isNameStart hc, fun d hd => .inl (htail d hd)⟩)

/-- The slash is the only token that begins with one. -/
theorem eq_slash (h : Lexeme kind ('/' :: v)) : kind = .mark .slash ∧ v = [] := by
  rcases h.sort with ⟨m, rfl, hm⟩ | ⟨_, _, hc, _⟩ | ⟨hc, _⟩
  · cases m <;> cases hm
    exact ⟨rfl, rfl⟩
  · cases hc
  · cases hc

/-- Only strings have a character in them that separators begin with. -/
theorem eq_string_of_begins (h : Lexeme kind (c :: v)) {d : Char} (hd : d ∈ v)
    (hbegins : BeginsGap d) : ∃ contents, '"' ∉ contents ∧ c = '"' ∧ v = contents ++ ['"'] := by
  rcases h.sort with ⟨m, rfl, hm⟩ | hstring | ⟨_, hv⟩
  · have htail : d ∈ m.spelling.toList.tail := by rwa [hm]
    obtain rfl := m.eq_equal_of_mem_tail d htail
    exact absurd hbegins (by simp [BeginsGap])
  · exact hstring
  · rcases hv d hd with hpart | rfl
    · rw [hbegins.not_isNamePart] at hpart
      cases hpart
    · exact absurd hbegins (by simp [BeginsGap])

/-- No token goes on behind another one and into a separator. -/
theorem longest (h : Lexeme kind w) (hc : BeginsGap c) : Longest w (c :: rest) := by
  intro kind' v hv hpre
  rcases List.prefix_or_prefix_of_prefix hpre (List.prefix_append w _) with hle | ⟨more, rfl⟩
  · exact hle.length_le
  rcases more with _ | ⟨c', more⟩
  · rw [List.append_nil]
  exfalso
  obtain ⟨rfl, -⟩ := List.cons_prefix_cons.1 ((List.prefix_append_right_inj w).1 hpre)
  obtain ⟨d, w, rfl⟩ := h.exists_cons
  obtain ⟨contents, hq, rfl, hcontents⟩ := hv.eq_string_of_begins (by simp) hc
  rcases h.sort with ⟨m, _, hm⟩ | ⟨inner, _, _, rfl⟩ | ⟨hd, _⟩
  · cases m <;> cases hm
  · -- the quote that closes `w` is not the last character of `v`
    have hinner : inner ++ '"' :: (c' :: more).dropLast = contents := by
      simpa using congrArg List.dropLast hcontents
    exact hq (hinner ▸ by simp)
  · cases hd

end Lexeme

/-! ### Scanning what is written -/

namespace Written

section Step

variable {word : Word} {separator : Separator} {line : Nat} {rest : List Char} {items : List Item}

/-- A word is reported, and nothing of the separator behind it. -/
theorem lexes_of_not_swallowed (hkept : ¬ Swallowed word separator)
    (hrest : Lexes (line + separator.text.count '\n') rest items) :
    Lexes line (word.text ++ (separator.text ++ rest))
      (.token ⟨word.kind, String.ofList word.text, line⟩ :: items) := by
  have hgap := separator.gap.lexes hrest
  obtain ⟨kind, w, hw⟩ := word
  obtain ⟨c, behind, hsep, hc⟩ := separator.exists_cons
  rw [hsep] at hgap ⊢
  refine .token hw (hw.longest hc) (fun hcomment => hkept ?_) hgap
  obtain ⟨d, w, rfl⟩ := hw.exists_cons
  obtain ⟨rfl, hnext⟩ := List.cons_prefix_cons.1 hcomment
  obtain ⟨rfl, rfl⟩ := hw.eq_slash
  obtain ⟨hc', -⟩ := List.cons_prefix_cons.1 (show ['/'] <+: c :: (behind ++ rest) from hnext)
  exact ⟨rfl, by rw [hsep, List.head?_cons, hc']⟩

/-- A swallowed slash makes the separator behind it longer. -/
theorem lexes_of_swallowed (hswallowed : Swallowed word separator)
    (hrest : Lexes (line + separator.text.count '\n') rest items) :
    Lexes line (word.text ++ (separator.text ++ rest)) items := by
  obtain ⟨hkind, hhead⟩ := hswallowed
  obtain ⟨behind, hsep⟩ := List.head?_eq_some_iff.1 hhead
  obtain ⟨kind, w, hw⟩ := word
  obtain rfl : kind = .mark .slash := hkind
  obtain rfl : w = ['/'] := by
    cases hw
    rfl
  have hgap := separator.gap
  rw [hsep] at hgap hrest ⊢
  refine hgap.slash.lexes ?_
  rwa [List.count_cons_of_ne (by decide)]

end Step

theorem lexes (words : List (Word × Separator)) (line : Nat) :
    Lexes line (words.flatMap fun (word, separator) => word.text ++ separator.text)
      (items words line) := by
  induction words generalizing line with
  | nil => exact .finish
  | cons p words ih =>
    obtain ⟨word, separator⟩ := p
    rw [List.flatMap_cons, List.append_assoc, items]
    split
    · next hswallowed => exact lexes_of_swallowed hswallowed (ih _)
    · next hkept => exact lexes_of_not_swallowed hkept (ih _)

theorem scan_text (written : Written) : scan written.text =
    items written.words (1 + written.leading.text.count '\n') := by
  have h : Lexes 1 _ _ := written.leading.gap.lexes (lexes written.words _)
  rw [scan, text, String.toList_ofList]
  exact h.eq_ofSpans.symm

theorem error?_items (words : List (Word × Separator)) (line : Nat) :
    (items words line).filterMap Item.error? = [] := by
  induction words generalizing line with
  | nil => rfl
  | cons p words ih =>
    obtain ⟨word, separator⟩ := p
    rw [items]
    split
    · exact ih _
    · exact ih _

theorem token?_items (words : List (Word × Separator)) (line : Nat) :
    ((items words line).filterMap Item.token?).map (fun t => (t.kind, t.lexeme)) =
      (tokens words).map (fun word => (word.kind, String.ofList word.text)) ++ [(.eof, "")] := by
  induction words generalizing line with
  | nil => rfl
  | cons p words ih =>
    obtain ⟨word, separator⟩ := p
    rw [items, tokens]
    split
    · next hswallowed =>
      rw [List.filter_cons_of_neg (by simpa using hswallowed)]
      exact ih _
    · next hkept =>
      rw [List.filter_cons_of_pos (by simpa using hkept)]
      exact congrArg _ (ih _)

end Written

/-- Scanning undoes writing. No errors are reported, and the tokens are the words in their order,
but for the slashes that comments begin with, and then the end of the input. -/
theorem scan_written (written : Written) :
    (scan written.text).filterMap Item.error? = [] ∧
      ((scan written.text).filterMap Item.token?).map (fun t => (t.kind, t.lexeme)) =
        (Written.tokens written.words).map (fun word => (word.kind, String.ofList word.text)) ++
          [(.eof, "")] ∧
      ((∀ p ∈ written.words, ¬ Written.Swallowed p.1 p.2) →
        Written.tokens written.words = written.words.map (·.1)) := by
  rw [Written.scan_text]
  refine ⟨Written.error?_items _ _, Written.token?_items _ _, fun h => ?_⟩
  rw [Written.tokens, List.filter_eq_self.2]
  intro p hp
  simpa using h p hp

/-- A slash with a comment right behind it is not scanned as a token. -/
theorem scan_written_slash : ∃ written : Written, written.text = " ///\n" ∧
    written.words.map (·.1.kind) = [.mark .slash] ∧
    ((scan written.text).filterMap Item.token?).map (fun t => (t.kind, t.lexeme)) ≠
      written.words.map (fun p => (p.1.kind, String.ofList p.1.text)) ++ [(.eof, "")] := by
  refine ⟨⟨⟨[' '], .blank (.inl rfl) .nil, nofun⟩,
    [(⟨_, _, .mark .slash⟩, ⟨['/', '/', '\n'], @Gap.comment [] [] nofun .nil, nofun⟩)]⟩,
    rfl, rfl, fun h => ?_⟩
  rw [Written.scan_text] at h
  cases congrArg List.length h

end Treewalk
