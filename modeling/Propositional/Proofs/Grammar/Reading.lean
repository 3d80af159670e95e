import Propositional.Proofs.Grammar.Invariant

/-!
# The reader reads exactly the formulas of the grammar

Whatever a phrase stands in, the reader gets from its first token to its last and then holds what it
spells. `Readable` says for each kind of phrase where the reader arrives: behind an operand that is
not yet joined to what waits for it, since the next token decides how much of the group it closes.

An identifier `N` may be taken for an operand that could still become a joint denial. That does no
harm, because in a phrase no parenthesis opens behind an operand.

With the invariant for the other direction, a sequence of tokens is read as a formula exactly if the
grammar derives it. So the grammar is unambiguous.
-/

namespace Propositional

namespace Reader

/-- Where the tokens of a phrase lead the reader, in any group and any groups around it. -/
def Readable : Phrase → List Token → Formula → Prop
  | .unit, ts, f => ∀ group around, ∃ operand isKeyword n,
      Reads (.beforeOperand group around) ts (.afterOperand operand isKeyword
        { group with negations := group.negations + n } around) ∧
      Group.negate n operand = f
  | .chain, ts, f => ∀ arrow around, ∃ operand isKeyword group,
      Reads (.beforeOperand ⟨arrow, none, 0⟩ around) ts
        (.afterOperand operand isKeyword group around) ∧
      group.arrow = arrow ∧ group.closeTight operand = f
  | .formula, ts, f => ∀ around, ∃ operand isKeyword group,
      Reads (.beforeOperand .empty around) ts (.afterOperand operand isKeyword group around) ∧
      group.close operand = f
  | .operands, ts, f => ∀ outer around, ∃ operand isKeyword group done,
      Reads (.beforeOperand .empty ((.nor [], outer) :: around)) ts
        (.afterOperand operand isKeyword group ((.nor done, outer) :: around)) ∧
      Formula.norSnoc done (group.close operand) = f

theorem readable_of_derives {p : Phrase} {ts : List Token} {f : Formula} (h : Derives p ts f) :
    Readable p ts f := by
  induction h with
  | ofChain _ ih =>
    intro around
    obtain ⟨operand, isKeyword, group, reads, arrow, closes⟩ := ih none around
    refine ⟨operand, isKeyword, group, reads, ?_⟩
    rw [Group.close, arrow, closes, Waiting.close]
  | @arrow ls rs token op l r _ isOp isArrow _ ihl ihr =>
    intro around
    obtain ⟨left, isKeyword, group, readsLeft, closesLeft⟩ := ihl around
    obtain ⟨right, isKeyword', group', readsRight, arrow, closesRight⟩ := ihr (some ⟨l, op⟩) around
    have awaits : group.await left op = ⟨some ⟨l, op⟩, none, 0⟩ := by
      rw [Group.await, if_pos isArrow, closesLeft]
    refine ⟨right, isKeyword', group', ?_, ?_⟩
    · exact readsLeft.append (.cons (.binary isOp) (awaits ▸ readsRight))
    · rw [Group.close, arrow, closesRight, Waiting.close]
  | ofUnit _ ih =>
    intro arrow around
    obtain ⟨operand, isKeyword, n, reads, negates⟩ := ih ⟨arrow, none, 0⟩ around
    refine ⟨operand, isKeyword, ⟨arrow, none, 0 + n⟩, reads, rfl, ?_⟩
    rw [Group.closeTight, Nat.zero_add, negates, Waiting.close]
  | @tight ls rs token op l r _ isOp notArrow _ ihl ihr =>
    intro arrow around
    obtain ⟨left, isKeyword, group, readsLeft, sameArrow, closesLeft⟩ := ihl arrow around
    obtain ⟨right, isKeyword', n, readsRight, negates⟩ := ihr ⟨arrow, some ⟨l, op⟩, 0⟩ around
    have awaits : group.await left op = ⟨arrow, some ⟨l, op⟩, 0⟩ := by
      rw [Group.await, if_neg (by simp [notArrow]), closesLeft, sameArrow]
    refine ⟨right, isKeyword', ⟨arrow, some ⟨l, op⟩, 0 + n⟩, ?_, rfl, ?_⟩
    · exact readsLeft.append (.cons (.binary isOp) (awaits ▸ readsRight))
    · rw [Group.closeTight, Nat.zero_add, negates, Waiting.close]
  | neg isNot _ ih =>
    intro group around
    obtain ⟨operand, isKeyword, n, reads, negates⟩ :=
      ih { group with negations := group.negations + 1 } around
    refine ⟨operand, isKeyword, 1 + n, .cons (.not isNot) ?_, ?_⟩
    · simpa only [Nat.add_assoc] using reads
    · rw [Group.negate_add, negates, Group.negate, Group.negate]
  | parens isOpen _ isClose ih =>
    intro group around
    obtain ⟨operand, isKeyword, inner, reads, closes⟩ := ih ((.paren, group) :: around)
    have last := reads.append (.single (.closeParen isClose))
    exact ⟨_, false, 0, .cons (.openParen isOpen) last, closes⟩
  | nor isIdent isName isOpen _ isClose ih =>
    intro group around
    obtain ⟨operand, isKeyword, inner, done, reads, closes⟩ := ih group around
    have keyword := @Steps.ident _ group around isIdent
    rw [isName, beq_self_eq_true] at keyword
    have last := reads.append (.single (.closeNor isClose))
    exact ⟨_, false, 0, .cons keyword (.cons (.openNor isOpen) last), closes⟩
  | ident isIdent =>
    intro group around
    exact ⟨_, _, 0, .single (.ident isIdent), rfl⟩
  | operand _ ih =>
    intro outer around
    obtain ⟨operand, isKeyword, group, reads, closes⟩ := ih ((.nor [], outer) :: around)
    refine ⟨operand, isKeyword, group, [], reads, ?_⟩
    rw [Formula.norSnoc, closes]
  | comma _ isComma _ ihs ih =>
    intro outer around
    obtain ⟨last, isKeyword, group, done, readsBefore, closesBefore⟩ := ihs outer around
    obtain ⟨operand, isKeyword', group', reads, closes⟩ :=
      ih ((.nor (done ++ [group.close last]), outer) :: around)
    refine ⟨operand, isKeyword', group', _, readsBefore.append (.cons (.comma isComma) reads), ?_⟩
    rw [closes]
    exact Formula.norSnoc_append closesBefore

end Reader

namespace Formula

variable {ts : List Token} {textEnd : Nat} {f g : Formula}

theorem ofTokens_eq_ok_iff_reads :
    ofTokens ts textEnd = .ok f ↔
      ∃ s, Reader.Reads Reader.start ts s ∧ Reader.finish textEnd s = .ok f := by
  unfold ofTokens
  cases reads : ts.foldlM Reader.step Reader.start with
  | error e =>
    constructor
    · intro h
      cases h
    · rintro ⟨s, h, _⟩
      rw [Reader.foldlM_step_eq_ok_iff.mpr h] at reads
      cases reads
  | ok s =>
    refine ⟨fun h => ⟨s, Reader.foldlM_step_eq_ok_iff.mp reads, h⟩, ?_⟩
    rintro ⟨s', h, finishes⟩
    rw [Reader.foldlM_step_eq_ok_iff.mpr h] at reads
    cases reads
    exact finishes

theorem ofTokens_eq_ok_iff : ofTokens ts textEnd = .ok f ↔ Derives .formula ts f := by
  rw [ofTokens_eq_ok_iff_reads]
  constructor
  · rintro ⟨s, reads, finishes⟩
    exact (Reader.hasRead_start.reads reads).finish finishes
  · intro h
    obtain ⟨operand, isKeyword, group, reads, closes⟩ := Reader.readable_of_derives h []
    refine ⟨_, reads, ?_⟩
    rw [Reader.finish, closes]

/-- **The reader reads exactly the formulas of the grammar**, whatever the offsets are. Since it
returns one formula, the tokens spell at most one; and no token of a formula is unknown. -/
theorem ofTokens_reads_grammar (ts : List Token) (textEnd : Nat) :
    (∀ f, ofTokens ts textEnd = .ok f ↔ Derives .formula ts f) ∧
      (∀ f g, Derives .formula ts f → Derives .formula ts g → f = g) ∧
      ∀ f, Derives .formula ts f → ∀ token ∈ ts, token.kind ≠ .unknown := by
  refine ⟨fun f => ofTokens_eq_ok_iff, fun f g hf hg => ?_, fun f hf => hf.kind_ne_unknown⟩
  have readsf : ofTokens ts textEnd = .ok f := ofTokens_eq_ok_iff.mpr hf
  have readsg : ofTokens ts textEnd = .ok g := ofTokens_eq_ok_iff.mpr hg
  exact Except.ok.inj (readsf.symm.trans readsg)

/-- `N` opens a joint denial and is an atom in it and behind it. Spellings of other tokens than
identifiers, and offsets, are as they come. -/
theorem ofTokens_reads_grammar_keyword :
    let keyword : Token := ⟨.ident, "N", 4⟩
    let ts : List Token := [keyword, ⟨.leftParen, "?", 0⟩, ⟨.ident, "N", 4⟩, ⟨.comma, "", 9⟩,
      ⟨.ident, "b", 1⟩, ⟨.rightParen, ")", 1⟩, ⟨.binary .impl, "=>", 2⟩, ⟨.not, "!", 0⟩,
      ⟨.ident, "N", 4⟩]
    let f := binary .impl (nor (atom "N") [atom "b"]) (neg (atom "N"))
    Derives .formula ts f ∧ ofTokens ts 3 = .ok f ∧
      (∀ g, Derives .formula ts g → g = f) ∧ keyword ∈ ts ∧ keyword.kind ≠ .unknown := by
  intro keyword ts f
  obtain ⟨reads, unambiguous, known⟩ := ofTokens_reads_grammar ts 3
  have read : ofTokens ts 3 = .ok f := by rfl
  have derived : Derives .formula ts f := (reads f).mp read
  have mem : keyword ∈ ts := List.mem_cons_self
  exact ⟨derived, read, fun g hg => unambiguous g f hg derived, mem, known f derived keyword mem⟩

end Formula

end Propositional
