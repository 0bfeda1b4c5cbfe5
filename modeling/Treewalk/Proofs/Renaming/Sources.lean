import Treewalk.Proofs.Renaming.Reading
import Treewalk.Proofs.Renaming.Resolving
import Treewalk.Proofs.Renaming.Scanning
import Treewalk.Proofs.Tree.Concatenation
import Treewalk.Session
/-!
# Sources one behind the other

Sources with a newline between them are read, if each is read without an error, as they are read one
after the other, but for the lines of the second.
-/

namespace Treewalk

theorem filterMap_token?_rename (ρ : Renaming) (items : List Item) :
    (items.map (Item.rename ρ)).filterMap Item.token? =
      (items.filterMap Item.token?).map (Token.rename ρ) := by
  rw [List.filterMap_map, List.map_filterMap]
  congr
  funext item
  cases item <;> rfl

theorem filterMap_error?_rename (ρ : Renaming) (items : List Item) :
    (items.map (Item.rename ρ)).filterMap Item.error? =
      (items.filterMap Item.error?).map (LexicalError.rename ρ) := by
  rw [List.filterMap_map, List.map_filterMap]
  congr
  funext item
  cases item <;> rfl

/-- What is read without an error does not begin with an `else`. -/
theorem head_ne_else {tokens : List Token} {next : NodeId}
    (h : (parseTokens tokens next).errors = []) :
    ∀ t ∈ tokens.head?, t.kind ≠ .keyword .else := by
  rintro t ht helse
  obtain ⟨rest, rfl⟩ : ∃ rest, tokens = t :: rest := List.head?_eq_some_iff.1 ht
  have hprogram := ((parseTokens_sound (t :: rest) next).2 h).1
  have hbefore : beforeFinish (t :: rest) = t :: beforeFinish rest :=
    List.takeWhile_cons_of_pos (by simp [helse])
  rw [hbefore] at hprogram
  generalize hu : t :: beforeFinish rest = u at hprogram
  generalize Stmt.anonymousAll (parseTokens (t :: rest) next).statements = trees at hprogram
  cases hprogram with
  | nil => cases hu
  | cons hfirst _ =>
    obtain ⟨t', v, rfl, hleads⟩ := hfirst.head
    obtain ⟨rfl, -⟩ := List.cons.inj hu
    rw [helse] at hleads
    cases hleads

theorem exists_eof (source : String) : ∃ t ∈ (scan source).filterMap Item.token?, t.kind = .eof := by
  obtain ⟨reports, hreports, -⟩ := (lexes_spans source.toList 1).eq_append_finish
  have hscan : scan source = reports ++ _ := hreports
  rw [hscan, List.filterMap_append]
  exact ⟨⟨.eof, "", 1 + source.toList.count '\n'⟩, List.mem_append_right _ List.mem_cons_self, rfl⟩

theorem Renaming.shift_counts (nodes lines : Nat) : (shift nodes lines).Counts :=
  fun n => Nat.add_right_comm n 1 nodes

namespace Source

theorem errors_eq_nil {source : String} {next : NodeId} :
    (read source next).errors = [] ↔ (scan source).filterMap Item.error? = [] ∧
      (parseTokens ((scan source).filterMap Item.token?) next).errors = [] := by
  simp only [read, List.append_eq_nil_iff, List.map_eq_nil_iff]

/-- With identities from elsewhere on the same is read but for these. -/
theorem read_eq_shift (source : String) (next : NodeId) : read source next =
    ⟨(read source 0).statements.map (Stmt.rename (.shift next 0)), (read source 0).errors,
      (read source 0).next + next⟩ := by
  have hparse := parseTokens_rename (Renaming.shift_counts next 0) (exists_eof source) 0
  have hsame : ((scan source).filterMap Item.token?).map (Token.rename (.shift next 0)) =
      (scan source).filterMap Item.token? := List.map_id _
  have hnext : (Renaming.shift next 0).node 0 = next := Nat.zero_add next
  have herrors (errors : List SyntaxError) :
      errors.map (SyntaxError.rename (.shift next 0)) = errors := List.map_id _
  rw [hsame, hnext, herrors] at hparse
  simp only [read, hparse]
  rfl

/-- Behind a newline a source is read as it is alone, but for the lines. -/
theorem read_append_newline {a b : String} {next : NodeId} (ha : (read a next).errors = [])
    (hb : (read b (read a next).next).errors = []) :
    read (a ++ "\n" ++ b) next =
      ⟨(read a next).statements ++ (read b (read a next).next).statements.map
          (Stmt.rename (.shift 0 (a.toList.count '\n' + 1))), [],
        (read b (read a next).next).next⟩ := by
  obtain ⟨reports, hscan, hkinds, happend⟩ := scan_append_newline a b
  generalize a.toList.count '\n' + 1 = k at happend ⊢
  obtain ⟨finish, hfinish, hscan⟩ : ∃ finish : Token, finish.kind = .eof ∧
      scan a = reports ++ [.token finish] := ⟨_, rfl, hscan⟩
  obtain ⟨hlexicalA, hsyntacticA⟩ := errors_eq_nil.1 ha
  obtain ⟨hlexicalB, hsyntacticB⟩ := errors_eq_nil.1 hb
  have htokensA : (scan a).filterMap Item.token? = reports.filterMap Item.token? ++ [finish] := by
    rw [hscan, List.filterMap_append]
    rfl
  have htokens : (scan (a ++ "\n" ++ b)).filterMap Item.token? = reports.filterMap Item.token? ++
      ((scan b).filterMap Item.token?).map (Token.rename (.shift 0 k)) := by
    rw [happend, List.filterMap_append, filterMap_token?_rename]
  have hlexical : (scan (a ++ "\n" ++ b)).filterMap Item.error? = [] := by
    rw [hscan, List.filterMap_append] at hlexicalA
    rw [happend, List.filterMap_append, filterMap_error?_rename, hlexicalB]
    exact List.append_eq_nil_iff.2 ⟨(List.append_eq_nil_iff.1 hlexicalA).1, rfl⟩
  have hplain : ∀ t ∈ reports.filterMap Item.token?, t.kind ≠ .eof := by
    intro t ht
    obtain ⟨item, hitem, htoken⟩ := List.mem_filterMap.1 ht
    cases item with
    | token t' => exact Option.some.inj htoken ▸ hkinds t' hitem
    | error e => cases htoken
  have heof : ∃ t ∈ ((scan b).filterMap Item.token?).map (Token.rename (.shift 0 k)),
      t.kind = .eof := by
    obtain ⟨t, ht, heof⟩ := exists_eof b
    exact ⟨t.rename _, List.mem_map_of_mem ht, heof⟩
  have helse : ∀ t ∈ (((scan b).filterMap Item.token?).map (Token.rename (.shift 0 k))).head?,
      t.kind ≠ .keyword .else := by
    intro t ht
    rw [List.head?_map] at ht
    obtain ⟨t', ht', rfl⟩ := Option.map_eq_some_iff.1 ht
    exact head_ne_else hsyntacticB t' ht'
  have hrename := parseTokens_rename (Renaming.shift_counts 0 k) (exists_eof b) (read a next).next
  have hbehind := parseTokens_behind hplain hfinish (.inl (htokensA ▸ hsyntacticA)) heof helse
  rw [← htokensA] at hbehind
  have hparse : parseTokens ((scan (a ++ "\n" ++ b)).filterMap Item.token?) next =
      ⟨(read a next).statements ++ (read b (read a next).next).statements.map
        (Stmt.rename (.shift 0 k)), [], (read b (read a next).next).next⟩ := by
    rw [htokens, hbehind, hsyntacticA]
    show Parsed.mk (_ ++ (parseTokens _ ((Renaming.shift 0 k).node (read a next).next)).statements)
      (_ ++ (parseTokens _ ((Renaming.shift 0 k).node (read a next).next)).errors)
      (parseTokens _ ((Renaming.shift 0 k).node (read a next).next)).next = _
    rw [hrename, hsyntacticB]
    rfl
  simp only [read, hparse, hlexical, List.map_nil, List.append_nil]

end Source

end Treewalk
