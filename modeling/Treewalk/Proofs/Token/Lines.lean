import Treewalk.Proofs.Renaming.Scanning
/-!
# Scanning line by line

Scanning is a homomorphism over lines: what a line reports depends on nothing else than that line,
and every report is on the line of the first character it is about (`scan_lines`). Texts that are
scanned with errors are no exception, since nothing that is cut off has a newline in it but a
newline itself (`Lexer.spans_nextLine`).
-/

namespace Treewalk

open Lexer

/-- What is reported of a text besides its end. -/
def reports (source : String) : List Item :=
  (scan source).dropLast

/-- The same report some lines later. -/
def Item.later (lines : Nat) : Item → Item
  | .token t => .token { t with line := t.line + lines }
  | .error e => .error { e with line := e.line + lines }

theorem Item.rename_shift (lines : Nat) : Item.rename (.shift 0 lines) = Item.later lines := by
  funext item
  cases item <;> rfl

theorem Item.later_later (k l : Nat) (item : Item) :
    (item.later k).later l = item.later (k + l) := by
  cases item <;> simp only [Item.later, Nat.add_assoc]

theorem Item.later_zero (item : Item) : item.later 0 = item := by
  cases item <;> rfl

/-! ### The end and what is in front of it -/

/-- The end of the input is the last report and no other one. -/
theorem scan_eq_reports_append (source : String) :
    scan source = reports source ++ [.token ⟨.eof, "", 1 + source.toList.count '\n'⟩] ∧
      ∀ t, .token t ∈ reports source → t.kind ≠ .eof := by
  obtain ⟨items, hitems, hkinds⟩ := (lexes_spans source.toList 1).eq_append_finish
  have hscan : scan source = items ++ [.token ⟨.eof, "", 1 + source.toList.count '\n'⟩] := hitems
  have hreports : reports source = items := by rw [reports, hscan, List.dropLast_concat]
  rw [hreports]
  exact ⟨hscan, hkinds⟩

theorem scan_newline (a b : String) : scan (a ++ "\n" ++ b) =
    reports a ++ (scan b).map (Item.later (1 + a.toList.count '\n')) := by
  obtain ⟨items, ha, -, happend⟩ := scan_append_newline a b
  have hreports : reports a = items := by rw [reports, ha, List.dropLast_concat]
  rw [happend, hreports, Item.rename_shift, Nat.add_comm 1]

theorem reports_newline (a b : String) : reports (a ++ "\n" ++ b) =
    reports a ++ (reports b).map (Item.later (1 + a.toList.count '\n')) := by
  rw [reports, scan_newline, (scan_eq_reports_append b).1, List.map_append, List.map_singleton,
    ← List.append_assoc, List.dropLast_concat]

/-! ### Lines -/

/-- Lines are reported one after the other, each as it is alone. -/
theorem reports_lines (cs : List Char) (line : Nat) :
    (reports (String.ofList cs)).map (Item.later line) = ((cs.splitOn '\n').zipIdx line).flatMap
      fun (text, i) => (reports (String.ofList text)).map (Item.later i) := by
  induction h : cs.count '\n' generalizing cs line with
  | zero =>
    rw [List.splitOn_eq_singleton (List.count_eq_zero.1 h), List.zipIdx_singleton,
      List.flatMap_singleton]
  | succ n ih =>
    obtain ⟨first, rest, hfirst, rfl⟩ : ∃ first rest, '\n' ∉ first ∧ cs = first ++ '\n' :: rest :=
      List.eq_append_cons_of_mem (List.count_pos_iff.1 (by omega)) |>.imp
        fun _ => .imp fun _ h => ⟨h.2, h.1⟩
    have hrest : rest.count '\n' = n := by
      rw [count_newline hfirst, List.count_cons_self] at h
      omega
    have htext : String.ofList (first ++ '\n' :: rest) =
        String.ofList first ++ "\n" ++ String.ofList rest := by
      apply String.ext
      simp
    have hlater : (Item.later line ∘ Item.later (1 + 0)) = Item.later (line + 1) := by
      funext item
      rw [Function.comp_apply, Item.later_later, Nat.add_zero, Nat.add_comm]
    rw [List.splitOn_append_cons_self_of_not_mem hfirst, List.zipIdx_cons, List.flatMap_cons,
      ← ih rest (line + 1) hrest, htext, reports_newline, List.map_append, List.map_map,
      String.toList_ofList, List.count_eq_zero_of_not_mem hfirst, hlater]

/-! ### Where reports are -/

/-- Spans that follow each other behind the text `front`, each with all the text in front of it. -/
def Lexer.placed (front : List Char) : List Span → List (List Char × Span)
  | [] => []
  | s :: rest => (front, s) :: placed (front ++ s.text) rest

theorem Lexer.placed_prefix {ss : List Span} {front : List Char} {p : List Char × Span}
    (hp : p ∈ placed front ss) :
    p.2 ∈ ss ∧ p.1 ++ p.2.text <+: front ++ ss.flatMap (·.text) := by
  induction ss generalizing front with
  | nil => cases hp
  | cons s ss ih =>
    rw [List.flatMap_cons, ← List.append_assoc]
    rcases List.mem_cons.1 hp with rfl | hp
    · exact ⟨List.mem_cons_self, List.prefix_append _ _⟩
    · exact ⟨List.mem_cons_of_mem _ (ih hp).1, (ih hp).2⟩

/-- A span has a newline in it only if it is one. -/
theorem Lexer.Cut.newline_mem {c : Char} {rest : List Char} {piece : Piece} {n : Nat}
    (h : Cut c rest (piece, n)) :
    piece = .newline ∧ c :: rest.take n = ['\n'] ∨
      piece ≠ .newline ∧ '\n' ∉ c :: rest.take n := by
  cases h with
  | token hw => exact .inr ⟨nofun, hw.newline_not_mem⟩
  | blank hb => exact .inr ⟨nofun, by rcases hb with rfl | rfl | rfl <;> simp⟩
  | newline hn => exact .inl ⟨rfl, by rw [hn, List.take_zero]⟩
  | @comment text hc hrest =>
    obtain ⟨text, rest, rfl, hn, hends⟩ := exists_lineRest_run text
    rw [hc, hrest, lineRest_run hn hends, List.take_succ_cons, List.take_left]
    exact .inr ⟨nofun, by simpa using hn⟩
  | unterminated hc _ hn _ => exact .inr ⟨nofun, by simpa [hc] using hn⟩
  | unexpected hblank _ => exact .inr ⟨nofun, by simpa using hblank.2.2.2.symm⟩

theorem Lexer.spans_text_ne_nil {cs : List Char} {s : Span} (hs : s ∈ spans cs) : s.text ≠ [] := by
  fun_induction spans cs with
  | case1 => cases hs
  | case2 c rest piece n _ ih =>
    rcases List.mem_cons.1 hs with rfl | hs
    · exact List.cons_ne_nil _ _
    · exact ih hs

/-- The next line begins behind a newline. -/
theorem Lexer.spans_nextLine {cs : List Char} {s : Span} (hs : s ∈ spans cs) (line : Nat) :
    s.nextLine line = line + s.text.count '\n' := by
  fun_induction spans cs with
  | case1 => cases hs
  | case2 c rest piece n hcut ih =>
    rcases List.mem_cons.1 hs with rfl | hs
    · have hc := cut_cut c rest
      rw [hcut] at hc
      rcases hc.newline_mem with ⟨rfl, htext⟩ | ⟨hpiece, hn⟩
      · rw [htext]
        rfl
      · rw [List.count_eq_zero_of_not_mem hn]
        exact if_neg hpiece
    · exact ih hs

/-- Reports are on the line that the text in front of them ends on. -/
theorem Item.ofSpans_placed {ss : List Span}
    (h : ∀ s ∈ ss, ∀ line, s.nextLine line = line + s.text.count '\n') (front : List Char) :
    Item.ofSpans ss (1 + front.count '\n') =
      (placed front ss).flatMap (fun p => (p.2.item? (1 + p.1.count '\n')).toList) ++
        [.token ⟨.eof, "", 1 + (front ++ ss.flatMap (·.text)).count '\n'⟩] := by
  induction ss generalizing front with
  | nil => simp [Item.ofSpans, placed]
  | cons s ss ih =>
    have hs := h s List.mem_cons_self (1 + front.count '\n')
    rw [Nat.add_assoc, ← List.count_append] at hs
    rw [Item.ofSpans, placed, hs, ih (fun s' hs' => h s' (List.mem_cons_of_mem _ hs'))]
    simp only [List.flatMap_cons, List.append_assoc]

theorem reports_placed (source : String) : reports source =
    (placed [] (spans source.toList)).flatMap
      fun (front, s) => (s.item? (1 + front.count '\n')).toList := by
  have hline : ∀ s ∈ spans source.toList, ∀ line, s.nextLine line = line + s.text.count '\n' :=
    fun _ hs line => spans_nextLine hs line
  rw [reports, scan]
  exact Item.ofSpans_placed hline [] ▸ List.dropLast_concat ..

/-- A text and another one behind a newline are scanned as they are alone, but for the lines of the
second. So a text reports line by line what each of its lines does alone, and what is reported of a
span is on the line that the text in front of that span ends on. -/
theorem scan_lines :
    (∀ a b : String, scan (a ++ "\n" ++ b) =
      reports a ++ (scan b).map (Item.later (1 + a.toList.count '\n'))) ∧
    ∀ source : String,
      (scan source = reports source ++ [.token ⟨.eof, "", 1 + source.toList.count '\n'⟩] ∧
        ∀ t, .token t ∈ reports source → t.kind ≠ .eof) ∧
      (reports source = (placed [] (spans source.toList)).flatMap
          (fun (front, s) => (s.item? (1 + front.count '\n')).toList) ∧
        ∀ p ∈ placed [] (spans source.toList),
          p.2.text ≠ [] ∧ p.1 ++ p.2.text <+: source.toList) ∧
      reports source = (source.toList.splitOn '\n').zipIdx.flatMap
        fun (text, i) => (reports (String.ofList text)).map (Item.later i) := by
  refine ⟨scan_newline, fun source => ⟨scan_eq_reports_append source,
    ⟨reports_placed source, fun p hp => ?_⟩, ?_⟩⟩
  · have hp := placed_prefix hp
    rw [spans_text, List.nil_append] at hp
    exact ⟨spans_text_ne_nil hp.1, hp.2⟩
  · have h := reports_lines source.toList 0
    rwa [String.ofList_toList, List.map_congr_left (fun item _ => item.later_zero),
      List.map_id'] at h

end Treewalk
