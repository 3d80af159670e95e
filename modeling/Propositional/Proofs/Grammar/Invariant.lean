import Propositional.Proofs.Grammar
import Propositional.Proofs.Grammar.Steps

/-!
# What the reader has read

The state of the reader accounts for every token before it. `HasRead s ts` says how: the tokens are
those of the groups around, of the current group, and of the operand if there is one. Each step
keeps it (`HasRead.step`), so every run does, and when the tokens end outside all groups they are a
phrase that spells the formula which the reader returns.
-/

namespace Propositional

namespace Formula

/-- An operand behind others in a joint denial goes to the end of its list. -/
theorem norSnoc_append {done rest : List Formula} {last first f : Formula}
    (h : norSnoc done last = .nor first rest) :
    norSnoc (done ++ [last]) f = .nor first (rest ++ [f]) := by
  cases done <;> cases h <;> rfl

theorem exists_norSnoc_eq (done : List Formula) (last : Formula) :
    ∃ first rest, norSnoc done last = .nor first rest := by
  cases done with
  | nil => exact ⟨last, [], rfl⟩
  | cons first rest => exact ⟨first, rest ++ [last], rfl⟩

end Formula

namespace Group

theorem negate_add (m n : Nat) (f : Formula) : negate (m + n) f = negate m (negate n f) := by
  induction m with
  | zero => rw [Nat.zero_add, negate]
  | succ m ih => rw [Nat.add_right_comm, negate, negate, ih]

end Group

namespace Reader

section Groups

/-- A connective that waits, on the level of its left operand, and the tokens up to it. -/
inductive WaitingRead : Phrase → Option Waiting → List Token → Prop
  | nothing {p : Phrase} : WaitingRead p none []
  | arrow {ts : List Token} {token : Token} {waiting : Waiting} :
      Derives .formula ts waiting.left → token.kind = .binary waiting.op →
      waiting.op.isArrow = true → WaitingRead .formula (some waiting) (ts ++ [token])
  | tight {ts : List Token} {token : Token} {waiting : Waiting} :
      Derives .chain ts waiting.left → token.kind = .binary waiting.op →
      waiting.op.isArrow = false → WaitingRead .chain (some waiting) (ts ++ [token])

inductive NegationsRead : Nat → List Token → Prop
  | zero : NegationsRead 0 []
  | succ {n : Nat} {ts : List Token} {token : Token} :
      NegationsRead n ts → token.kind = .not → NegationsRead (n + 1) (ts ++ [token])

/-- The tokens of a group before its next operand. -/
inductive GroupRead : Group → List Token → Prop
  | mk {arrow tight : Option Waiting} {n : Nat} {as us ns : List Token} :
      WaitingRead .formula arrow as → WaitingRead .chain tight us → NegationsRead n ns →
      GroupRead ⟨arrow, tight, n⟩ (as ++ (us ++ ns))

variable {ts us : List Token} {token : Token} {f : Formula} {group : Group}

theorem WaitingRead.close_formula {waiting : Option Waiting}
    (h : WaitingRead .formula waiting us) (hf : Derives .chain ts f) :
    Derives .formula (us ++ ts) (Waiting.close waiting f) := by
  cases h with
  | nothing => exact .ofChain hf
  | arrow left isOp isArrow =>
    rw [List.append_assoc]
    exact .arrow left isOp isArrow hf

theorem WaitingRead.close_chain {waiting : Option Waiting}
    (h : WaitingRead .chain waiting us) (hf : Derives .unit ts f) :
    Derives .chain (us ++ ts) (Waiting.close waiting f) := by
  cases h with
  | nothing => exact .ofUnit hf
  | tight left isOp notArrow =>
    rw [List.append_assoc]
    exact .tight left isOp notArrow hf

theorem NegationsRead.derives {n : Nat} (h : NegationsRead n us) (hf : Derives .unit ts f) :
    Derives .unit (us ++ ts) (Group.negate n f) := by
  induction h generalizing ts f with
  | zero => exact hf
  | @succ n us token _ isNot ih =>
    rw [Group.negate_add, List.append_assoc]
    exact ih (.neg isNot hf)

theorem groupRead_empty : GroupRead .empty [] :=
  .mk .nothing .nothing .zero

theorem GroupRead.not (h : GroupRead group us) (isNot : token.kind = .not) :
    GroupRead { group with negations := group.negations + 1 } (us ++ [token]) := by
  obtain ⟨arrow, tight, negations⟩ := h
  rw [List.append_assoc, List.append_assoc]
  exact .mk arrow tight (.succ negations isNot)

theorem GroupRead.close (h : GroupRead group us) (hf : Derives .unit ts f) :
    Derives .formula (us ++ ts) (group.close f) := by
  obtain ⟨arrow, tight, negations⟩ := h
  rw [List.append_assoc, List.append_assoc]
  exact arrow.close_formula (tight.close_chain (negations.derives hf))

/-- Behind a connective a new operand of the group is due. -/
theorem GroupRead.await {op : BinaryOp} (h : GroupRead group us) (hf : Derives .unit ts f)
    (isOp : token.kind = .binary op) : GroupRead (group.await f op) (us ++ ts ++ [token]) := by
  cases isArrow : op.isArrow with
  | true =>
    rw [Group.await, if_pos isArrow]
    rw [← List.append_nil (us ++ ts ++ [token])]
    exact .mk (.arrow (h.close hf) isOp isArrow) .nothing .zero
  | false =>
    rw [Group.await, if_neg (by simp [isArrow])]
    obtain @⟨_, _, _, as, us, ns, arrow, tight, negations⟩ := h
    have chain := tight.close_chain (negations.derives hf)
    rw [List.append_assoc, List.append_assoc, List.append_assoc, ← List.append_assoc ns,
      ← List.append_assoc us, ← List.append_nil (us ++ (ns ++ ts) ++ [token])]
    exact .mk arrow (.tight chain isOp isArrow) .zero

end Groups

/-- The finished operands of a joint denial with a comma behind each. -/
inductive OperandsRead : List Formula → List Token → Prop
  | nothing : OperandsRead [] []
  | comma {done : List Formula} {last : Formula} {ts : List Token} {token : Token} :
      Derives .operands ts (Formula.norSnoc done last) → token.kind = .comma →
      OperandsRead (done ++ [last]) (ts ++ [token])

/-- The groups around and the tokens that opened what stands in them. -/
inductive AroundRead : Enclosing → List Token → Prop
  | outside : AroundRead [] []
  | paren {around : Enclosing} {group : Group} {us vs : List Token} {opening : Token} :
      AroundRead around us → GroupRead group vs → opening.kind = .leftParen →
      AroundRead ((.paren, group) :: around) (us ++ vs ++ [opening])
  | nor {around : Enclosing} {group : Group} {done : List Formula} {us vs ws : List Token}
      {keyword opening : Token} :
      AroundRead around us → GroupRead group vs → keyword.kind = .ident →
      keyword.spelling = norName → opening.kind = .leftParen → OperandsRead done ws →
      AroundRead ((.nor done, group) :: around) (us ++ vs ++ (keyword :: opening :: ws))

/-- The tokens up to here, as the state accounts for them. -/
inductive HasRead : State → List Token → Prop
  | beforeOperand {group : Group} {around : Enclosing} {us vs : List Token} :
      AroundRead around us → GroupRead group vs → HasRead (.beforeOperand group around) (us ++ vs)
  | afterOperand {operand : Formula} {isKeyword : Bool} {group : Group} {around : Enclosing}
      {us vs ws : List Token} :
      AroundRead around us → GroupRead group vs → Derives .unit ws operand →
      (isKeyword = true →
        ∃ keyword, ws = [keyword] ∧ keyword.kind = .ident ∧ keyword.spelling = norName) →
      HasRead (.afterOperand operand isKeyword group around) (us ++ vs ++ ws)

theorem OperandsRead.derives {done : List Formula} {us ts : List Token} {f : Formula}
    (h : OperandsRead done us) (hf : Derives .formula ts f) :
    Derives .operands (us ++ ts) (Formula.norSnoc done f) := by
  cases h with
  | nothing => exact .operand hf
  | @comma done last ts token operands isComma =>
    obtain ⟨first, rest, joined⟩ := Formula.exists_norSnoc_eq done last
    rw [joined] at operands
    rw [Formula.norSnoc_append joined, List.append_assoc]
    exact .comma operands isComma hf

theorem hasRead_start : HasRead start [] :=
  .beforeOperand .outside groupRead_empty

/-- An operand that was just closed cannot be a keyword. -/
theorem HasRead.closed {operand : Formula} {group : Group} {around : Enclosing}
    {us vs ws : List Token} (hu : AroundRead around us) (hv : GroupRead group vs)
    (hw : Derives .unit ws operand) :
    HasRead (.afterOperand operand false group around) (us ++ vs ++ ws) := by
  refine .afterOperand hu hv hw fun isKeyword => ?_
  cases isKeyword

theorem HasRead.step {s s' : State} {ts : List Token} {token : Token} (h : HasRead s ts)
    (step : Steps s token s') : HasRead s' (ts ++ [token]) := by
  cases step with
  | not isNot =>
    obtain ⟨around, group⟩ := h
    rw [List.append_assoc]
    exact .beforeOperand around (group.not isNot)
  | openParen isOpen =>
    obtain ⟨around, group⟩ := h
    simpa using HasRead.beforeOperand (.paren around group isOpen) groupRead_empty
  | ident isIdent =>
    obtain ⟨around, group⟩ := h
    refine .afterOperand around group (.ident isIdent) fun isName => ?_
    exact ⟨token, rfl, isIdent, eq_of_beq isName⟩
  | openNor isOpen =>
    obtain _ | ⟨around, group, _, keyword⟩ := h
    obtain ⟨keyword, rfl, isIdent, isName⟩ := keyword rfl
    have inside := AroundRead.nor around group isIdent isName isOpen .nothing
    simpa using HasRead.beforeOperand inside groupRead_empty
  | binary isOp =>
    obtain _ | ⟨around, group, operand, _⟩ := h
    rw [List.append_assoc, List.append_assoc, ← List.append_assoc _ _ [token]]
    exact .beforeOperand around (group.await operand isOp)
  | comma isComma =>
    obtain _ | ⟨around, group, operand, _⟩ := h
    obtain _ | _ | ⟨around, outer, isIdent, isName, isOpen, operands⟩ := around
    have next := OperandsRead.comma (operands.derives (group.close operand)) isComma
    have inside := AroundRead.nor around outer isIdent isName isOpen next
    simpa using HasRead.beforeOperand inside groupRead_empty
  | closeParen isClose =>
    obtain _ | ⟨around, group, operand, _⟩ := h
    obtain _ | ⟨around, outer, isOpen⟩ | _ := around
    have unit := Derives.parens isOpen (group.close operand) isClose
    simpa using HasRead.closed around outer unit
  | closeNor isClose =>
    obtain _ | ⟨around, group, operand, _⟩ := h
    obtain _ | _ | ⟨around, outer, isIdent, isName, isOpen, operands⟩ := around
    have inside := operands.derives (group.close operand)
    have unit := Derives.nor isIdent isName isOpen inside isClose
    simpa using HasRead.closed around outer unit

theorem HasRead.reads {s s' : State} {ts us : List Token} (h : HasRead s ts)
    (reads : Reads s us s') : HasRead s' (ts ++ us) := by
  induction reads generalizing ts with
  | nil => simpa using h
  | cons step _ ih => simpa using ih (h.step step)

/-- Tokens that end outside all groups are a formula. -/
theorem HasRead.finish {s : State} {ts : List Token} {f : Formula} {textEnd : Nat}
    (h : HasRead s ts) (finishes : finish textEnd s = .ok f) : Derives .formula ts f := by
  cases h with
  | beforeOperand => cases finishes
  | afterOperand around group operand _ =>
    cases around with
    | outside =>
      cases finishes
      exact group.close operand
    | paren | nor => cases finishes

end Reader

end Propositional
