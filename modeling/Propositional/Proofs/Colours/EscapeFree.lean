import Mathlib.Data.List.Basic
import Propositional.CommandLine
import Propositional.Proofs.Assignments
import Propositional.Proofs.Colours
import Propositional.Proofs.Grammar.Unknown
import Propositional.Proofs.Outline.Lossless
import Propositional.Proofs.Printing
import Propositional.Proofs.TruthTable

/-!
# Texts without escape characters

Escape characters come only from colours and from what is read. So a text that is printed about a
formula is free of them if the names of the atoms are, and a message is if the text is that it is
about. A formula that was read has no such name, whatever it was read from (`names_of_parse`).
-/

namespace Propositional

namespace EscapeFree

variable {text separator : String} {texts : List String}

theorem iff_forall : EscapeFree text ↔ ∀ c ∈ text.toList, c ≠ '\x1b' :=
  ⟨fun h _ hc same => h (same ▸ hc), fun h hc => h _ hc rfl⟩

theorem join (h : ∀ text ∈ texts, EscapeFree text) : EscapeFree (String.join texts) := by
  rw [EscapeFree, String.toList_join, List.mem_flatMap]
  rintro ⟨text, mem, escape⟩
  exact h text mem escape

theorem intercalate (h : EscapeFree separator) (hs : ∀ text ∈ texts, EscapeFree text) :
    EscapeFree (separator.intercalate texts) := by
  induction texts with
  | nil => exact nofun
  | cons text texts ih =>
    obtain ⟨first, rest⟩ := List.forall_mem_cons.mp hs
    cases texts with
    | nil => exact first
    | cons text' texts =>
      rw [String.intercalate_cons_cons]
      exact (first.append h).append (ih rest)

theorem toString_nat (n : Nat) : EscapeFree (toString n) := by
  rw [Nat.toString_eq_ofList_toDigits, EscapeFree, String.toList_ofList]
  intro escape
  exact absurd (Nat.isDigit_of_mem_toDigits (by decide) (by decide) escape) (by decide)

theorem of_isName (h : IsName text) : EscapeFree text :=
  fun escape => absurd (h.2 _ escape) (by decide)

end EscapeFree

section Json

theorem escapeFree_hex : ∀ n < 32, EscapeFree (hex n) := by
  decide

theorem escapeFree_jsonEscape (c : Char) : EscapeFree (jsonEscape c) := by
  unfold jsonEscape
  split
  · decide
  · decide
  · decide
  · decide
  · decide
  · decide
  · decide
  · split
    · exact .append (by decide) (escapeFree_hex _ (by omega))
    · split
      · exact .append (by decide) (escapeFree_hex _ (by omega))
      · rename_i visible
        rw [EscapeFree]
        simp only [Char.toString, String.toList_singleton, List.mem_singleton]
        rintro rfl
        exact visible (by decide)

/-- In JSON the escape character is written as its number. -/
theorem escapeFree_quoteJson (text : String) : EscapeFree (quoteJson text) := by
  refine .append (.append (by decide) (.join ?_)) (by decide)
  rw [List.forall_mem_map]
  intro c _
  exact escapeFree_jsonEscape c

theorem escapeFree_json : ∀ (view : View) {indent : String}, EscapeFree indent →
    EscapeFree (view.json indent)
  | .node kind label children, indent, h => by
    have deeper : EscapeFree (indent ++ "    ") := h.append (by decide)
    have items : ∀ item ∈ children.map (View.json (indent ++ "    ")), EscapeFree item := by
      rw [List.forall_mem_map]
      intro child _
      exact escapeFree_json child deeper
    rw [View.json]
    generalize children.map (View.json (indent ++ "    ")) = texts at items ⊢
    simp only [EscapeFree.append_iff, h, escapeFree_quoteJson, and_true]
    cases texts with
    | nil =>
      dsimp only
      decide
    | cons text texts =>
      have list : EscapeFree (",\n".intercalate ((text :: texts).map ((indent ++ "    ") ++ ·))) := by
        refine .intercalate (by decide) ?_
        rw [List.forall_mem_map]
        exact fun item mem => deeper.append (items item mem)
      simp only [EscapeFree.append_iff, h, list, and_true]
      decide

end Json

section Formulas

variable {f : Formula}

theorem escapeFree_render (names : ∀ name ∈ f.leaves, EscapeFree name) : EscapeFree f.render := by
  refine EscapeFree.iff_forall.mpr (Formula.forall_mem_render ?_ (by simp))
  intro name mem
  exact EscapeFree.iff_forall.mp (names name mem)

theorem escapeFree_name (b : Basis) : EscapeFree b.name := by
  cases b <;> decide

theorem escapeFree_display (names : ∀ name ∈ f.leaves, EscapeFree name) :
    EscapeFree f.variableSet.display := by
  refine .append (.append (by decide) (.intercalate (by decide) ?_)) (by decide)
  intro name mem
  exact names name (Formula.mem_variableSet.mp mem)

theorem escapeFree_label (names : ∀ name ∈ f.leaves, EscapeFree name) : EscapeFree f.label := by
  have glyph (op : BinaryOp) : EscapeFree op.glyph.toString := by
    cases op <;> decide
  cases f with
  | atom name =>
    rw [Formula.leaves, List.forall_mem_singleton] at names
    exact names
  | neg f => exact (by decide : EscapeFree "¬")
  | binary op l r => exact glyph op
  | nor f fs => exact (by decide : EscapeFree norName)

theorem relabel_outline (names : ∀ name ∈ f.leaves, EscapeFree name) :
    f.outline.relabel uncoloured = f.outline := by
  induction f using Formula.children_ind with
  | step f ih =>
    have below : ∀ g ∈ f.children, g.outline.relabel uncoloured = g.outline := by
      intro g hg
      exact ih g hg fun name mem => names name (Formula.leaves_subset_of_mem_children hg mem)
    rw [Formula.outline_eq, Outline.relabel_node, (escapeFree_label names).shows.uncoloured_eq,
      List.map_map]
    exact congrArg (Outline.node f.label) (List.map_congr_left below)

theorem escapeFree_markdown {table : TruthTable} (header : ∀ cell ∈ table.header, EscapeFree cell) :
    EscapeFree table.markdown := by
  have barred {cells : List String} (h : ∀ cell ∈ cells, EscapeFree cell) :
      EscapeFree (TruthTable.barred cells) := by
    refine .append (.join ?_) (by decide)
    rw [List.forall_mem_map]
    intro cell mem
    exact .append (by decide) (h cell mem)
  have letters (row : TruthTable.Row) : ∀ cell ∈ row.letters, EscapeFree cell := by
    rw [TruthTable.Row.letters, List.forall_mem_map]
    intro value _
    cases value <;> decide
  have rule : ∀ cell ∈ table.header.map fun _ => ":-:", EscapeFree cell := by
    rw [List.forall_mem_map]
    intro _ _
    decide
  refine .append (.append (barred header) (barred rule)) (.join ?_)
  rw [List.forall_mem_map]
  intro row _
  exact barred (letters row)

/-- Only letters and digits are names that can be read. -/
theorem names_of_parse {text : String} (read : Formula.parse text = .ok f) :
    ∀ name ∈ f.leaves, EscapeFree name :=
  fun name mem => .of_isName (Formula.spellable_of_parse read name mem)

end Formulas

section Texts

variable {text : String}

theorem escapeFree_of_mem_segment (h : EscapeFree text) :
    ∀ token ∈ segment text, EscapeFree token.spelling := by
  intro token mem escape
  obtain ⟨before, behind, split, _⟩ := (segments_scanAll 0 text.toList).stands token mem
  apply h
  rw [split, List.mem_append, List.mem_append]
  exact .inr (.inl escape)

theorem escapeFree_token {token : Token} (h : EscapeFree token.spelling) :
    EscapeFree token.display := by
  have name : EscapeFree token.kind.name := by
    cases token.kind with
    | binary op => cases op <;> decide
    | _ => decide
  rw [Token.display]
  simp only [EscapeFree.append_iff, name, EscapeFree.toString_nat, h, true_and, and_true]
  decide

theorem escapeFree_describe (kind : TokenKind) : EscapeFree kind.describe := by
  cases kind with
  | binary op => cases op <;> decide
  | _ => decide

theorem escapeFree_lexError {e : LexError} (h : EscapeFree e.found.toString) :
    EscapeFree e.message := by
  have expected : EscapeFree e.expected := by
    unfold LexError.expected
    split <;> exact escapeFree_describe _
  rw [LexError.message]
  simp only [EscapeFree.append_iff, expected, EscapeFree.toString_nat, h, and_true]
  decide

theorem escapeFree_parseError {ts : List Token} {textEnd : Nat} {e : ParseError}
    (h : ∀ token ∈ ts, EscapeFree token.spelling)
    (refused : Formula.ofTokens ts textEnd = .error e) : EscapeFree e.message := by
  have ended (offset : Nat) (expected : TokenKind) :
      EscapeFree (ParseError.unexpectedEnd offset expected).message := by
    rw [ParseError.message]
    simp only [EscapeFree.append_iff, escapeFree_describe, EscapeFree.toString_nat, and_true]
    decide
  rw [Formula.ofTokens] at refused
  cases read : ts.foldlM Reader.step Reader.start with
  | error e' =>
    rw [read] at refused
    cases refused
    obtain ⟨before, token, after, _, rfl, _, refuses⟩ := Reader.foldlM_step_eq_error read
    have spelling := h token (by simp)
    cases Reader.isAt_of_step_eq_error refuses with
    | unexpectedToken expected =>
      rw [ParseError.message]
      simp only [EscapeFree.append_iff, escapeFree_describe, EscapeFree.toString_nat, spelling, and_true]
      decide
    | trailingInput =>
      rw [ParseError.message]
      simp only [EscapeFree.append_iff, EscapeFree.toString_nat, spelling, and_true]
      decide
  | ok s =>
    rw [read] at refused
    dsimp only [Reader.finish] at refused
    split at refused <;> cases refused
    · exact ended _ _
    · exact ended _ _

/-- A message about a text shows characters of the text. -/
theorem escapeFree_message {e : ReadError} (h : EscapeFree text)
    (refused : Formula.parse text = .error e) : EscapeFree e.message := by
  have tokens := escapeFree_of_mem_segment h
  cases tokenized : tokenize text with
  | error e' =>
    rw [Formula.parse_of_tokenize_error tokenized] at refused
    cases refused
    obtain ⟨before, after, split, _⟩ := scanAll_of_scan_error tokenized
    refine escapeFree_lexError (tokens ⟨.unknown, e'.found.toString, e'.offset⟩ ?_)
    rw [segment, split]
    simp
  | ok ts =>
    rw [Formula.parse_of_tokenize_ok tokenized, Formula.parseSegments] at refused
    cases read : Formula.ofTokens (segment text) text.utf8ByteSize with
    | ok f =>
      rw [read] at refused
      cases refused
    | error e' =>
      rw [read] at refused
      cases refused
      exact escapeFree_parseError tokens read

end Texts

section Assigned

theorem escapeFree_of_padded {core text : String} (h : EscapeFree text) (padded : Padded core text) :
    EscapeFree core := by
  obtain ⟨before, after, _, _, rfl⟩ := padded.pads
  exact (EscapeFree.append_iff.mp (EscapeFree.append_iff.mp h).1).2

theorem escapeFree_of_forall₂_says {texts : List String} {entries : List (String × Bool)}
    (said : List.Forall₂ Interpretation.Says texts entries) (h : ∀ text ∈ texts, EscapeFree text) :
    ∀ entry ∈ entries, EscapeFree entry.1 := by
  induction said with
  | nil => exact nofun
  | cons first _ ih =>
    obtain ⟨text, rest⟩ := List.forall_mem_cons.mp h
    obtain ⟨left, right, word, rfl, _, name, _⟩ := first
    have free : EscapeFree left := (EscapeFree.append_iff.mp (EscapeFree.append_iff.mp text).1).1
    exact List.forall_mem_cons.mpr ⟨escapeFree_of_padded free name, ih rest⟩

theorem mem_map_fst_ofEntries {entries : List (String × Bool)} {name : String} :
    name ∈ (Interpretation.ofEntries entries).entries.map Prod.fst ↔ name ∈ entries.map Prod.fst := by
  rw [Interpretation.ofEntries]
  induction entries using List.reverseRecOn with
  | nil => rfl
  | append_singleton entries entry ih =>
    rw [List.foldl_concat, Interpretation.set, Interpretation.mem_fst_setEntry, ih, List.map_append,
      List.mem_append, List.map_singleton, List.mem_singleton]
    exact or_comm

theorem escapeFree_display_of_read {assignments : List String} {i : Interpretation}
    (h : ∀ text ∈ assignments, EscapeFree text) (read : Interpretation.read assignments = .ok i) :
    EscapeFree i.display := by
  obtain ⟨entries, said⟩ | ⟨e, mistake⟩ := Interpretation.forall₂_or_firstMistake assignments
  · rw [Interpretation.read_of_forall₂ said] at read
    cases read
    have names := escapeFree_of_forall₂_says said h
    have shown : ∀ entry ∈ (Interpretation.ofEntries entries).entries, EscapeFree entry.1 := by
      intro entry mem
      obtain ⟨entry', mem', same⟩ :=
        List.mem_map.mp (mem_map_fst_ofEntries.mp (List.mem_map_of_mem mem))
      rw [← same]
      exact names entry' mem'
    refine .append (.append (by decide) (.intercalate (by decide) ?_)) (by decide)
    rw [List.forall_mem_map]
    intro entry mem
    have name := shown entry (List.mem_mergeSort.mp mem)
    split
    · exact name
    · exact .append (by decide) name
  · rw [Interpretation.read_of_firstMistake mistake] at read
    cases read

end Assigned

end Propositional
