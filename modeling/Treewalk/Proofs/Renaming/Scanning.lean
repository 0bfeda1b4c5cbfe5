import Treewalk.Proofs.Renaming.Trees
import Treewalk.Proofs.Token.Munch
/-!
# Scanning across lines

No token goes across a newline, and nothing is scanned differently on another line. So what is behind
a newline is scanned as it is alone, on later lines (`scan_append_newline`).
-/

namespace Treewalk

def LexicalError.rename (ρ : Renaming) (e : LexicalError) : LexicalError :=
  { e with line := ρ.line e.line }

def Item.rename (ρ : Renaming) : Item → Item
  | .token t => .token (t.rename ρ)
  | .error e => .error (e.rename ρ)

/-- The same text on later lines. -/
theorem Lexes.shift {line : Nat} {cs : List Char} {items : List Item} (h : Lexes line cs items)
    (n k : Nat) : Lexes (line + k) cs (items.map (Item.rename (.shift n k))) := by
  induction h with
  | finish => exact .finish
  | token hw hlongest hcomment _ ih => exact .token hw hlongest hcomment ih
  | blank hb _ ih => exact .blank hb ih
  | newline _ ih => exact .newline (Nat.add_right_comm .. ▸ ih)
  | comment hn hends _ ih => exact .comment hn hends ih
  | unterminated hq hn hends _ ih => exact .unterminated hq hn hends ih
  | unexpected hnone hblank hquote _ ih => exact .unexpected hnone hblank hquote ih

section Newline

variable {v cs rest : List Char}

/-- What is on one line is not continued behind a newline. -/
theorem prefix_of_prefix_newline (hv : '\n' ∉ v) (h : v <+: cs ++ '\n' :: rest) : v <+: cs := by
  rcases List.prefix_or_prefix_of_prefix h (List.prefix_append cs _) with hpre | ⟨tail, rfl⟩
  · exact hpre
  · cases tail with
    | nil => rw [List.append_nil]
    | cons c tail =>
      have hc := List.prefix_append_right_inj cs |>.1 h
      obtain ⟨rfl, -⟩ := List.cons_prefix_cons.1 hc
      exact absurd (by simp) hv

theorem LineEnds.append_newline (h : LineEnds cs) : LineEnds (cs ++ '\n' :: rest) := by
  cases cs with
  | nil => simp [LineEnds]
  | cons c cs => exact h

/-- Behind a newline lexing begins anew. -/
theorem Lexes.append_newline {line : Nat} {items items' : List Item} (h : Lexes line cs items)
    (hrest : Lexes (line + cs.count '\n' + 1) rest items') :
    ∃ reports, items = reports ++ [.token ⟨.eof, "", line + cs.count '\n'⟩] ∧
      Lexes line (cs ++ '\n' :: rest) (reports ++ items') := by
  induction h with
  | finish => exact ⟨[], rfl, .newline hrest⟩
  | @token line kind w cs items hw hlongest hcomment _ ih =>
    rw [count_newline hw.newline_not_mem] at hrest ⊢
    obtain ⟨reports, rfl, hreports⟩ := ih hrest
    refine ⟨.token ⟨kind, String.ofList w, line⟩ :: reports, rfl, ?_⟩
    rw [List.append_assoc]
    refine .token hw (fun kind v hv hpre => ?_) (fun hpre => ?_) hreports
    · rw [← List.append_assoc] at hpre
      exact hlongest kind v hv (prefix_of_prefix_newline hv.newline_not_mem hpre)
    · rw [← List.append_assoc] at hpre
      exact hcomment (prefix_of_prefix_newline (by decide) hpre)
  | @blank line c cs items hb _ ih =>
    rw [List.count_cons_of_ne (by rcases hb with rfl | rfl | rfl <;> decide)] at hrest ⊢
    obtain ⟨reports, rfl, hreports⟩ := ih hrest
    exact ⟨reports, rfl, .blank hb hreports⟩
  | @newline line cs items _ ih =>
    have hcount : line + ('\n' :: cs).count '\n' = line + 1 + cs.count '\n' := by
      rw [List.count_cons_self, Nat.add_comm _ 1, ← Nat.add_assoc]
    rw [hcount] at hrest ⊢
    obtain ⟨reports, rfl, hreports⟩ := ih hrest
    exact ⟨reports, rfl, .newline hreports⟩
  | @comment line text cs items hn hends _ ih =>
    rw [count_newline (by simpa using hn)] at hrest ⊢
    obtain ⟨reports, rfl, hreports⟩ := ih hrest
    refine ⟨reports, rfl, ?_⟩
    rw [List.append_assoc]
    exact .comment hn hends.append_newline hreports
  | @unterminated line text cs items hq hn hends _ ih =>
    rw [count_newline (by simpa using hn)] at hrest ⊢
    obtain ⟨reports, rfl, hreports⟩ := ih hrest
    refine ⟨.error ⟨line, .unterminatedString⟩ :: reports, rfl, ?_⟩
    rw [List.append_assoc]
    exact .unterminated hq hn hends.append_newline hreports
  | @unexpected line c cs items hnone hblank hquote _ ih =>
    rw [List.count_cons_of_ne hblank.2.2.2] at hrest ⊢
    obtain ⟨reports, rfl, hreports⟩ := ih hrest
    refine ⟨.error ⟨line, .unexpectedCharacter c⟩ :: reports, rfl, ?_⟩
    refine .unexpected (fun kind v hv hpre => ?_) hblank hquote hreports
    have hline : v <+: (c :: cs) ++ '\n' :: rest := hpre
    exact hnone kind v hv (prefix_of_prefix_newline hv.newline_not_mem hline)

end Newline

/-- A text and another one on the lines behind it are scanned one after the other. -/
theorem scan_append_newline (a b : String) :
    ∃ reports, scan a = reports ++ [.token ⟨.eof, "", 1 + a.toList.count '\n'⟩] ∧
      (∀ t, .token t ∈ reports → t.kind ≠ .eof) ∧
      scan (a ++ "\n" ++ b) =
        reports ++ (scan b).map (Item.rename (.shift 0 (a.toList.count '\n' + 1))) := by
  have ha := lexes_spans a.toList 1
  have hb := (lexes_spans b.toList 1).shift 0 (a.toList.count '\n' + 1)
  rw [← Nat.add_assoc] at hb
  obtain ⟨reports, hreports, happend⟩ := ha.append_newline hb
  obtain ⟨reports', hreports', hkinds⟩ := ha.eq_append_finish
  obtain rfl : reports = reports' := List.append_cancel_right (hreports.symm.trans hreports')
  refine ⟨reports, hreports, hkinds, ?_⟩
  rw [scan, scan, happend.eq_ofSpans, String.toList_append, String.toList_append, List.append_assoc]
  rfl

end Treewalk
