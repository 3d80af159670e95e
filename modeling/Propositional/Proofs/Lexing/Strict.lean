import Propositional.Proofs.Lexing.Spelling

/-!
# Where tokenizing stops

`tokenize` and `segment` read the same lexemes until one of them comes to a character that starts no
token. There the one fails and the other goes on behind an unknown token. So `tokenize` gives what
`segment` gives where that has no unknown token, and otherwise reports the first one.

Both are followed along one run (`Lexes`): of a text that is refused there is a run up to the
character at which it is refused, and the tokens of a run are never unknown.
-/

namespace Propositional

/-- The first token that is a character which starts no token. -/
def firstUnknown? (ts : List Token) : Option Token :=
  ts.find? fun token => token.kind = .unknown

/-- The error is about the character that the token consists of, and names what could stand there
instead: the arrow that begins with the character, or else an identifier. -/
structure LexError.Reports (e : LexError) (token : Token) : Prop where
  offset : token.offset = e.offset
  found : token.spelling = e.found.toString
  expected : e.expected =
    if e.found = '-' then "`->`" else if e.found = '<' then "`<->`" else "identifier"

theorem firstUnknown?_eq_none_iff {ts : List Token} :
    firstUnknown? ts = none ↔ ∀ token ∈ ts, token.kind ≠ .unknown := by
  simp [firstUnknown?]

theorem firstUnknown?_append_cons {before : List Token} {token : Token}
    (known : ∀ t ∈ before, t.kind ≠ .unknown) (unknown : token.kind = .unknown)
    (after : List Token) : firstUnknown? (before ++ token :: after) = some token := by
  rw [firstUnknown?, List.find?_append, List.find?_cons_of_pos (by simpa using unknown)]
  rw [← firstUnknown?_eq_none_iff, firstUnknown?] at known
  rw [known, Option.none_or]

namespace LexError

variable {e e' : LexError} {token : Token}

theorem expected_eq (e : LexError) : e.expected =
    if e.found = '-' then "`->`" else if e.found = '<' then "`<->`" else "identifier" := by
  unfold expected
  split
  · rename_i minus
    rw [if_pos minus]
    rfl
  · rename_i less
    rw [if_neg (by simp [less]), if_pos less]
    rfl
  · rename_i noMinus noLess
    rw [if_neg noMinus, if_neg noLess]
    rfl

theorem reports_self (e : LexError) : e.Reports ⟨.unknown, e.found.toString, e.offset⟩ :=
  ⟨rfl, rfl, e.expected_eq⟩

theorem Reports.unique (h : e.Reports token) (h' : e'.Reports token) : e = e' := by
  obtain ⟨offset, found⟩ := e
  obtain ⟨offset', found'⟩ := e'
  have sameOffset : offset = offset' := h.offset.symm.trans h'.offset
  have sameText : found.toString = found'.toString := h.found.symm.trans h'.found
  have sameFound : found = found' := by simpa using congrArg String.toList sameText
  rw [sameOffset, sameFound]

end LexError

section Runs

variable {offset offset' : Nat} {text text' : List Char} {ts : List Token} {e : LexError}

theorem Lexes.scanAll_eq (h : Lexes offset text ts offset' text') :
    scanAll offset text = ts ++ scanAll offset' text' := by
  induction h with
  | done => rfl
  | blank isBlank _ ih => rw [scanAll_of_blank isBlank, ih]
  | lexeme notBlank reads _ ih => rw [scanAll_of_lexeme notBlank reads, ih, List.cons_append]

theorem Lexes.kind_ne_unknown (h : Lexes offset text ts offset' text') :
    ∀ token ∈ ts, token.kind ≠ .unknown := by
  induction h with
  | done => simp
  | blank _ _ ih => exact ih
  | lexeme _ reads _ ih =>
    refine List.forall_mem_cons.mpr ⟨fun unknown => ?_, ih⟩
    have spells := (spells_of_read? reads).1
    dsimp only at unknown
    rw [unknown] at spells
    cases spells

/-- A text that is refused is read up to a character at which no token starts. -/
theorem exists_lexes_of_scan_error (h : scan offset text = .error e) :
    ∃ ts rest, Lexes offset text ts e.offset (e.found :: rest) ∧ isBlank e.found = false ∧
      Lexeme.read? (e.found :: rest) = none := by
  fun_induction scan offset text with
  | case1 => cases h
  | case2 offset c rest isBlank ih =>
    obtain ⟨ts, rest', run, stops⟩ := ih h
    exact ⟨ts, rest', .blank isBlank run, stops⟩
  | case3 offset c rest notBlank none =>
    cases h
    exact ⟨[], rest, .done, by simpa using notBlank, none⟩
  | case4 offset c rest notBlank lexeme reads e' failed ih =>
    cases h
    obtain ⟨ts, rest', run, stops⟩ := ih failed
    exact ⟨_, rest', .lexeme (by simpa using notBlank) reads run, stops⟩
  | case5 => cases h

theorem scanAll_of_scan_ok (h : scan offset text = .ok ts) :
    scanAll offset text = ts ∧ ∀ token ∈ ts, token.kind ≠ .unknown := by
  obtain ⟨offset', run⟩ := lexes_of_scan h
  refine ⟨?_, run.kind_ne_unknown⟩
  rw [run.scanAll_eq, scanAll, List.append_nil]

theorem scanAll_of_scan_error (h : scan offset text = .error e) :
    ∃ before after, scanAll offset text = before ++ ⟨.unknown, e.found.toString, e.offset⟩ :: after ∧
      ∀ token ∈ before, token.kind ≠ .unknown := by
  obtain ⟨before, rest, run, notBlank, none⟩ := exists_lexes_of_scan_error h
  refine ⟨before, scanAll (e.offset + e.found.utf8Size) rest, ?_, run.kind_ne_unknown⟩
  rw [run.scanAll_eq, scanAll_of_none notBlank none]

end Runs

section Texts

variable {text : String} {ts : List Token} {e : LexError}

theorem firstUnknown?_of_tokenize_ok (h : tokenize text = .ok ts) :
    firstUnknown? (segment text) = none := by
  obtain ⟨same, known⟩ := scanAll_of_scan_ok h
  rw [segment, same, firstUnknown?_eq_none_iff]
  exact known

theorem firstUnknown?_of_tokenize_error (h : tokenize text = .error e) :
    firstUnknown? (segment text) = some ⟨.unknown, e.found.toString, e.offset⟩ := by
  obtain ⟨before, after, split, known⟩ := scanAll_of_scan_error h
  rw [segment, split]
  exact firstUnknown?_append_cons known rfl after

theorem tokenize_eq_ok_iff_segment :
    tokenize text = .ok ts ↔ segment text = ts ∧ ∀ token ∈ ts, token.kind ≠ .unknown := by
  refine ⟨scanAll_of_scan_ok, ?_⟩
  rintro ⟨rfl, known⟩
  rw [← firstUnknown?_eq_none_iff] at known
  cases tokenized : tokenize text with
  | ok ts => rw [segment, (scanAll_of_scan_ok tokenized).1]
  | error e =>
    rw [firstUnknown?_of_tokenize_error tokenized] at known
    cases known

theorem tokenize_eq_error_iff : tokenize text = .error e ↔
    ∃ token, firstUnknown? (segment text) = some token ∧ e.Reports token := by
  constructor
  · intro h
    exact ⟨_, firstUnknown?_of_tokenize_error h, e.reports_self⟩
  · rintro ⟨token, first, reports⟩
    cases tokenized : tokenize text with
    | ok ts =>
      rw [firstUnknown?_of_tokenize_ok tokenized] at first
      cases first
    | error e' =>
      rw [firstUnknown?_of_tokenize_error tokenized] at first
      cases first
      rw [reports.unique e'.reports_self]

/-- **Tokenizing is segmenting up to the first unknown token.** If no token of the segmentation is
unknown, a text is tokenized to the same tokens. Otherwise it is refused with the offset and the
character of the first unknown token, and with what the character could have begun. -/
theorem tokenize_stops_at_unknown (text : String) :
    (∀ ts, tokenize text = .ok ts ↔ segment text = ts ∧ ∀ token ∈ ts, token.kind ≠ .unknown) ∧
      (∀ e, tokenize text = .error e ↔
        ∃ token, firstUnknown? (segment text) = some token ∧ e.Reports token) ∧
      ((∃ token ∈ segment text, token.kind = .unknown) → ∃ e, tokenize text = .error e) := by
  refine ⟨fun ts => tokenize_eq_ok_iff_segment, fun e => tokenize_eq_error_iff, ?_⟩
  rintro ⟨token, mem, unknown⟩
  cases tokenized : tokenize text with
  | ok ts =>
    obtain ⟨rfl, known⟩ := tokenize_eq_ok_iff_segment.mp tokenized
    exact absurd unknown (known token mem)
  | error e => exact ⟨e, rfl⟩

/-- Of `↔ <- b` the third character is the first that starts no token; the glyph before it takes
three bytes. -/
theorem tokenize_stops_at_unknown_less :
    let text := "↔ <- b"
    let e : LexError := ⟨4, '<'⟩
    let token : Token := ⟨.unknown, "<", 4⟩
    let ts : List Token := [⟨.binary .equiv, "↔", 0⟩, ⟨.ident, "b", 4⟩]
    (firstUnknown? (segment text) = some token ∧ e.Reports token ∧ tokenize text = .error e) ∧
      (token ∈ segment text ∧ token.kind = .unknown ∧ ∃ e, tokenize text = .error e) ∧
      segment "↔ b" = ts ∧ ⟨.ident, "b", 4⟩ ∈ ts ∧ TokenKind.ident ≠ .unknown ∧
        tokenize "↔ b" = .ok ts := by
  intro text e token ts
  obtain ⟨_, refused, fails⟩ := tokenize_stops_at_unknown text
  have segmented : segment text = [⟨.binary .equiv, "↔", 0⟩, token, ⟨.unknown, "-", 5⟩,
      ⟨.ident, "b", 7⟩] := by decide +kernel
  have first : firstUnknown? (segment text) = some token := by rw [segmented]; rfl
  have reports : e.Reports token := ⟨rfl, rfl, rfl⟩
  have mem : token ∈ segment text := by simp [segmented]
  have whole : segment "↔ b" = ts := by decide +kernel
  have known : ∀ token ∈ ts, token.kind ≠ .unknown := by decide
  exact ⟨⟨first, reports, (refused e).mpr ⟨token, first, reports⟩⟩,
    ⟨mem, rfl, fails ⟨token, mem, rfl⟩⟩, whole, by simp [ts], nofun,
    ((tokenize_stops_at_unknown "↔ b").1 ts).mpr ⟨whole, known⟩⟩

end Texts

end Propositional
