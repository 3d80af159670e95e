import Propositional.Proofs.Grammar.Reading

/-!
# Errors stand at the first wrong token

Tokens are viable when more tokens behind them can make them a formula. Wherever the reader is, it
can be brought to an end: an operand if one is due, and a `)` for each group around. So the viable
tokens are exactly those that the reader gets over (`viable_iff`), and the token that it refuses is
the first one with which no formula can begin.

An error also says what would have been right there. That is always an identifier or a `)`, and any
token of that kind keeps the tokens viable.
-/

namespace Propositional

/-- The tokens are read as a formula. -/
def Accepted (ts : List Token) : Prop :=
  ∃ textEnd f, Formula.ofTokens ts textEnd = .ok f

/-- Some accepted tokens begin with these. -/
def Viable (ts : List Token) : Prop :=
  ∃ us, Accepted (ts ++ us)

/-- The token is the first of the tokens that makes them begin like no formula. -/
structure FirstWrong (ts before : List Token) (token : Token) : Prop where
  splits : ∃ after, ts = before ++ token :: after
  viable : Viable before
  wrong : ¬ Viable (before ++ [token])

/-- A token of this kind may come next, whatever its spelling and offset. -/
structure Expects (ts : List Token) (kind : TokenKind) : Prop where
  kinds : kind = .ident ∨ kind = .rightParen
  viable : ∀ token : Token, token.kind = kind → Viable (ts ++ [token])

/-- What an error says of the tokens, and of the offset given for their end, is the case. -/
def ParseError.Locates (ts : List Token) (textEnd : Nat) : ParseError → Prop
  | .unexpectedToken offset expected found => ∃ before token, FirstWrong ts before token ∧
      token.offset = offset ∧ token.spelling = found ∧ Expects before expected
  | .trailingInput offset found => ∃ before token, FirstWrong ts before token ∧
      token.offset = offset ∧ token.spelling = found ∧ Accepted before
  | .unexpectedEnd offset expected =>
      offset = textEnd ∧ ¬ Accepted ts ∧ Viable ts ∧ Expects ts expected

namespace Reader

/-- Behind an operand, a `)` for each group around leads out of them all. -/
theorem reads_outside (operand : Formula) (isKeyword : Bool) (group : Group) (around : Enclosing) :
    ∃ us operand' isKeyword' group', Reads (.afterOperand operand isKeyword group around) us
      (.afterOperand operand' isKeyword' group' []) := by
  induction around generalizing operand isKeyword group with
  | nil => exact ⟨[], operand, isKeyword, group, .nil _⟩
  | cons enclosing around ih =>
    obtain ⟨opening, outer⟩ := enclosing
    let closing : Token := ⟨.rightParen, ")", 0⟩
    cases opening with
    | paren =>
      obtain ⟨us, operand', isKeyword', group', reads⟩ := ih (group.close operand) false outer
      exact ⟨closing :: us, operand', isKeyword', group', .cons (.closeParen rfl) reads⟩
    | nor done =>
      obtain ⟨us, operand', isKeyword', group', reads⟩ :=
        ih (Formula.norSnoc done (group.close operand)) false outer
      exact ⟨closing :: us, operand', isKeyword', group', .cons (.closeNor rfl) reads⟩

/-- From every state more tokens lead to the end of a formula. -/
theorem exists_completion (s : State) : ∃ us operand isKeyword group,
    Reads s us (.afterOperand operand isKeyword group []) := by
  cases s with
  | beforeOperand group around =>
    let name : Token := ⟨.ident, "a", 0⟩
    obtain ⟨us, operand, isKeyword, group', reads⟩ :=
      reads_outside (.atom name.spelling) (name.spelling == norName) group around
    exact ⟨name :: us, operand, isKeyword, group', .cons (.ident rfl) reads⟩
  | afterOperand operand isKeyword group around => exact reads_outside operand isKeyword group around

end Reader

open Reader

variable {ts : List Token} {token : Token} {s : State} {e : ParseError} {textEnd : Nat}

theorem accepted_iff : Accepted ts ↔ ∃ operand isKeyword group,
    Reads start ts (.afterOperand operand isKeyword group []) := by
  constructor
  · rintro ⟨textEnd, f, read⟩
    obtain ⟨s, reads, finishes⟩ := Formula.ofTokens_eq_ok_iff_reads.mp read
    match s with
    | .beforeOperand group around => cases finishes
    | .afterOperand operand isKeyword group [] => exact ⟨operand, isKeyword, group, reads⟩
    | .afterOperand operand isKeyword group (_ :: _) => cases finishes
  · rintro ⟨operand, isKeyword, group, reads⟩
    exact ⟨0, group.close operand, Formula.ofTokens_eq_ok_iff_reads.mpr ⟨_, reads, rfl⟩⟩

theorem viable_iff : Viable ts ↔ ∃ s, Reads start ts s := by
  constructor
  · rintro ⟨us, accepted⟩
    obtain ⟨operand, isKeyword, group, reads⟩ := accepted_iff.mp accepted
    obtain ⟨s, before, _⟩ := Reads.append_iff.mp reads
    exact ⟨s, before⟩
  · rintro ⟨s, reads⟩
    obtain ⟨us, operand, isKeyword, group, behind⟩ := exists_completion s
    exact ⟨us, accepted_iff.mpr ⟨operand, isKeyword, group, reads.append behind⟩⟩

/-- No formula begins with the tokens that were read and the one that is refused. -/
theorem not_viable_of_refused (reads : Reads start ts s) (refused : step s token = .error e) :
    ¬ Viable (ts ++ [token]) := by
  intro viable
  obtain ⟨s', reads'⟩ := viable_iff.mp viable
  obtain ⟨s₁, before, last⟩ := Reads.append_iff.mp reads'
  cases reads.unique before
  obtain _ | ⟨step', _⟩ := last
  rw [step_eq_ok_iff.mpr step'] at refused
  cases refused

theorem firstWrong_of_refused (reads : Reads start ts s) (refused : step s token = .error e)
    (after : List Token) : FirstWrong (ts ++ token :: after) ts token :=
  ⟨⟨after, rfl⟩, viable_iff.mpr ⟨s, reads⟩, not_viable_of_refused reads refused⟩

theorem viable_of_step {s' : State} (reads : Reads start ts s) (step : Steps s token s') :
    Viable (ts ++ [token]) :=
  viable_iff.mpr ⟨s', reads.append (.single step)⟩

/-- Where an operand is due, any identifier is one. -/
theorem expects_ident {group : Group} {around : Enclosing}
    (reads : Reads start ts (.beforeOperand group around)) : Expects ts .ident :=
  ⟨.inl rfl, fun _ isIdent => viable_of_step reads (.ident isIdent)⟩

/-- Inside a group, a `)` may follow any operand. -/
theorem expects_rightParen {operand : Formula} {isKeyword : Bool} {group : Group}
    {enclosing : Opening × Group} {around : Enclosing}
    (reads : Reads start ts (.afterOperand operand isKeyword group (enclosing :: around))) :
    Expects ts .rightParen := by
  refine ⟨.inr rfl, fun token isClose => ?_⟩
  obtain ⟨opening, outer⟩ := enclosing
  cases opening with
  | paren => exact viable_of_step reads (.closeParen isClose)
  | nor done => exact viable_of_step reads (.closeNor isClose)

/-- An error about a token is about the first wrong one. -/
theorem locates_of_refused (reads : Reads start ts s) (refused : step s token = .error e)
    (after : List Token) : e.Locates (ts ++ token :: after) textEnd := by
  have first := firstWrong_of_refused reads refused after
  rcases step_eq_error refused with
    ⟨group, around, rfl, rfl⟩ | ⟨operand, isKeyword, group, around, rfl, rfl⟩
  · exact ⟨ts, token, first, rfl, rfl, expects_ident reads⟩
  · cases around with
    | nil =>
      have whole : Accepted ts := accepted_iff.mpr ⟨operand, isKeyword, group, reads⟩
      exact ⟨ts, token, first, rfl, rfl, whole⟩
    | cons enclosing around => exact ⟨ts, token, first, rfl, rfl, expects_rightParen reads⟩

/-- An error at the end is about tokens that are the beginning of a formula and not all of one. -/
theorem locates_of_unfinished (reads : Reads start ts s) (unfinished : finish textEnd s = .error e) :
    e.Locates ts textEnd := by
  have viable : Viable ts := viable_iff.mpr ⟨s, reads⟩
  have notAccepted : ¬ Accepted ts := by
    intro accepted
    obtain ⟨operand, isKeyword, group, reads'⟩ := accepted_iff.mp accepted
    cases reads.unique reads'
    cases unfinished
  match s with
  | .beforeOperand group around =>
    cases unfinished
    exact ⟨rfl, notAccepted, viable, expects_ident reads⟩
  | .afterOperand operand isKeyword group [] => cases unfinished
  | .afterOperand operand isKeyword group (_ :: _) =>
    cases unfinished
    exact ⟨rfl, notAccepted, viable, expects_rightParen reads⟩

/-- **Errors stand at the first wrong token.** An error about a token reports the offset and the
spelling of the first one with which no formula can begin; if the error is that the token trails,
the tokens before it are a formula. An error at the end reports the offset of the end, and the tokens
are not a formula but can become one. What is said to be expected would be right there. -/
theorem error_locates_first_wrong (h : Formula.ofTokens ts textEnd = .error e) :
    e.Locates ts textEnd := by
  unfold Formula.ofTokens at h
  cases read : ts.foldlM step start with
  | error e' =>
    rw [read] at h
    cases h
    obtain ⟨before, token, after, s, rfl, reads, refused⟩ := foldlM_step_eq_error read
    exact locates_of_refused reads refused after
  | ok s =>
    rw [read] at h
    exact locates_of_unfinished (foldlM_step_eq_ok_iff.mp read) h

/-- Behind a joint denial nothing opens, inside a group it has to be closed, and an operand is due in
an open one: the three errors, each with the token at which it stands. -/
theorem error_locates_first_wrong_nor :
    let keyword : Token := ⟨.ident, "N", 1⟩
    let opening : Token := ⟨.leftParen, "(", 2⟩
    let name : Token := ⟨.ident, "a", 3⟩
    let closing : Token := ⟨.rightParen, ")", 4⟩
    let nor := [keyword, opening, name, closing]
    let trailing : ParseError := .trailingInput 2 "("
    let unclosed : ParseError := .unexpectedToken 3 .rightParen "a"
    let unfinished : ParseError := .unexpectedEnd 7 .ident
    (Formula.ofTokens (nor ++ [opening, name]) 7 = .error trailing ∧
      trailing.Locates (nor ++ [opening, name]) 7) ∧
    (Formula.ofTokens (opening :: nor ++ [name]) 7 = .error unclosed ∧
      unclosed.Locates (opening :: nor ++ [name]) 7) ∧
    Formula.ofTokens [keyword, opening] 7 = .error unfinished ∧
      unfinished.Locates [keyword, opening] 7 :=
  ⟨⟨rfl, error_locates_first_wrong rfl⟩, ⟨rfl, error_locates_first_wrong rfl⟩, rfl,
    error_locates_first_wrong rfl⟩

end Propositional
