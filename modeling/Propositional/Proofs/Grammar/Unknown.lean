import Mathlib.Control.Monad.Basic
import Propositional.Formula.Order
import Propositional.Proofs.Grammar.Reading
import Propositional.Proofs.Lexing.Segmentation
import Propositional.Proofs.Lexing.Strict

/-!
# Unknown tokens stop the reader

`Formula.parse` refuses a text before it is read as a formula, if some character starts no token.
`Formula.parseSegments` leaves that to the reader, which meets the character as an unknown token.

No step of the reader takes an unknown token, wherever the reader stands. So tokens with an unknown
one among them are refused at that one or before it (`exists_refused`), and never for ending too
soon. Since the tokens of a text ascend, the error of `parseSegments` stands no later than the one
of `parse`; and where there is no unknown token both read the same tokens.
-/

namespace Propositional

/-- The error is about the token, and not about the end of the tokens. -/
inductive ParseError.IsAt (token : Token) : ParseError → Prop
  | unexpectedToken (expected : TokenKind) :
      IsAt token (.unexpectedToken token.offset expected token.spelling)
  | trailingInput : IsAt token (.trailingInput token.offset token.spelling)

theorem ParseError.IsAt.offset_eq {token : Token} {e : ParseError} (h : e.IsAt token) :
    e.offset = token.offset := by
  cases h <;> rfl

namespace Reader

variable {s s' : State} {token : Token} {ts : List Token} {e : ParseError}

theorem Steps.kind_ne_unknown (h : Steps s token s') : token.kind ≠ .unknown := by
  cases h <;> simp_all

theorem Reads.kind_ne_unknown (h : Reads s ts s') : ∀ token ∈ ts, token.kind ≠ .unknown := by
  induction h with
  | nil => simp
  | cons first _ ih => exact List.forall_mem_cons.mpr ⟨first.kind_ne_unknown, ih⟩

theorem isAt_of_step_eq_error (h : step s token = .error e) : e.IsAt token := by
  rcases step_eq_error h with ⟨_, _, _, rfl⟩ | ⟨_, _, _, around, _, rfl⟩
  · exact .unexpectedToken .ident
  · cases around with
    | nil => exact .trailingInput
    | cons => exact .unexpectedToken .rightParen

/-- The reader does not get over an unknown token: it refuses it or one before it. -/
theorem exists_refused (before after : List Token) (unknown : token.kind = .unknown) (s : State) :
    ∃ refused ∈ before ++ [token], ∃ e, e.IsAt refused ∧
      (before ++ token :: after).foldlM step s = .error e := by
  -- The run over the tokens up to the unknown one fails, and what follows cannot change that.
  cases read : (before ++ [token]).foldlM step s with
  | ok s' =>
    have known := (foldlM_step_eq_ok_iff.mp read).kind_ne_unknown
    exact absurd unknown (known token (by simp))
  | error e =>
    obtain ⟨front, refused, back, s', split, _, refuses⟩ := foldlM_step_eq_error read
    refine ⟨refused, by simp [split], e, isAt_of_step_eq_error refuses, ?_⟩
    rw [List.append_cons, List.foldlM_append, read]
    rfl

end Reader

namespace Formula

variable {text : String} {ts : List Token} {e : LexError}

theorem parse_of_tokenize_ok (h : tokenize text = .ok ts) :
    parse text = (parseSegments text).mapError .parse := by
  rw [parse, h, parseSegments, (tokenize_eq_ok_iff_segment.mp h).1]

theorem parse_of_tokenize_error (h : tokenize text = .error e) : parse text = .error (.lex e) := by
  rw [parse, h]

theorem offset_le_of_segments {start : Nat} {text : List Char} {before after : List Token}
    {token : Token} (h : Segments start text (before ++ token :: after)) :
    ∀ t ∈ before ++ [token], t.offset ≤ token.offset := by
  obtain ⟨_, _, earlier⟩ := List.pairwise_append.mp h.ascending
  refine List.forall_mem_append.mpr ⟨fun t ht => ?_, by simp⟩
  exact Nat.le_of_lt (earlier t ht token List.mem_cons_self).1

/-- The first unknown token of a text is refused, or one before it, so at no greater offset. -/
theorem parseSegments_of_tokenize_error (h : tokenize text = .error e) :
    ∃ token ∈ segment text, ∃ e', parseSegments text = .error e' ∧ e'.IsAt token ∧
      token.offset ≤ e.offset := by
  obtain ⟨before, after, segmented, _⟩ := scanAll_of_scan_error h
  let unknown : Token := ⟨.unknown, e.found.toString, e.offset⟩
  have split : segment text = before ++ unknown :: after := segmented
  have segments : Segments 0 text.toList (before ++ unknown :: after) :=
    split ▸ segments_scanAll 0 text.toList
  obtain ⟨refused, mem, e', isAt, fails⟩ :=
    Reader.exists_refused before after (show unknown.kind = .unknown from rfl) Reader.start
  refine ⟨refused, ?_, e', ?_, isAt, offset_le_of_segments segments refused mem⟩
  · rw [split, List.append_cons]
    exact List.mem_append_left _ mem
  · rw [parseSegments, ofTokens, split, fails]

theorem parse_eq_ok_iff_parseSegments {f : Formula} :
    parse text = .ok f ↔ parseSegments text = .ok f := by
  cases tokenized : tokenize text with
  | ok ts =>
    rw [parse_of_tokenize_ok tokenized]
    cases parseSegments text <;> simp [Except.mapError]
  | error e =>
    obtain ⟨_, _, e', fails, _⟩ := parseSegments_of_tokenize_error tokenized
    rw [parse_of_tokenize_error tokenized, fails]
    simp

/-- **Both ways of reading accept the same texts.** They read the same formula or none. Where every
character belongs to a known token, they fail with the same error too. Where one does not, `parse`
reports the first such character, whatever is wrong before it, and `parseSegments` fails at a token
that stands there or before it, not at the end of the text. -/
theorem parse_accepts_segments (text : String) :
    (∀ f, parse text = .ok f ↔ parseSegments text = .ok f) ∧
      (∀ ts, tokenize text = .ok ts →
        ∀ e, parse text = .error e ↔ ∃ e', parseSegments text = .error e' ∧ e = .parse e') ∧
      ∀ e, tokenize text = .error e → parse text = .error (.lex e) ∧
        ∃ token ∈ segment text, ∃ e', parseSegments text = .error e' ∧ e'.IsAt token ∧
          e'.offset ≤ e.offset := by
  refine ⟨fun f => parse_eq_ok_iff_parseSegments, fun ts h e => ?_, fun e h => ?_⟩
  · rw [parse_of_tokenize_ok h]
    cases parseSegments text <;> simp [Except.mapError, eq_comm]
  · obtain ⟨token, mem, e', fails, isAt, le⟩ := parseSegments_of_tokenize_error h
    exact ⟨parse_of_tokenize_error h, token, mem, e', fails, isAt, isAt.offset_eq ▸ le⟩

/-- In `) -` the parenthesis is refused as a token and the minus as a character; in `a ->` nothing is
wrong but its end. -/
theorem parse_accepts_segments_minus :
    let e : LexError := ⟨2, '-'⟩
    let early : ParseError := .unexpectedToken 0 .ident ")"
    let ts : List Token := [⟨.ident, "a", 0⟩, ⟨.binary .impl, "->", 2⟩]
    let late : ParseError := .unexpectedEnd 4 .ident
    (tokenize ") -" = .error e ∧ parse ") -" = .error (.lex e) ∧
      parseSegments ") -" = .error early ∧
      ∃ token ∈ segment ") -", early.IsAt token ∧ early.offset ≤ e.offset) ∧
    tokenize "a ->" = .ok ts ∧ parseSegments "a ->" = .error late ∧
      parse "a ->" = .error (.parse late) := by
  intro e early ts late
  obtain ⟨_, _, refuses⟩ := parse_accepts_segments ") -"
  obtain ⟨_, agrees, _⟩ := parse_accepts_segments "a ->"
  have refused : tokenize ") -" = .error e := by decide +kernel
  have tokenized : tokenize "a ->" = .ok ts := by decide +kernel
  have failsEarly : parseSegments ") -" = .error early := by decide +kernel
  have failsLate : parseSegments "a ->" = .error late := by decide +kernel
  obtain ⟨lexError, token, mem, e', fails, isAt, le⟩ := refuses e refused
  cases failsEarly.symm.trans fails
  exact ⟨⟨refused, lexError, failsEarly, token, mem, isAt, le⟩, tokenized, failsLate,
    (agrees ts tokenized (.parse late)).mpr ⟨late, failsLate, rfl⟩⟩

end Formula

end Propositional
