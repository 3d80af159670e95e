import Propositional.Formula.Reader

/-!
# Steps of the reader

`Steps` lists the transitions of the reader, one constructor for each thing that a token can do, and
`step_eq_ok_iff` says that these are all. `Reads` is a sequence of them. What the reader does over a
whole text is proved from the list, so nothing but this module looks into `Reader.step`.
-/

namespace Propositional

namespace Reader

/-- What a token does that the reader accepts. -/
inductive Steps : State → Token → State → Prop
  | not {token : Token} {group : Group} {around : Enclosing} : token.kind = .not →
      Steps (.beforeOperand group around) token
        (.beforeOperand { group with negations := group.negations + 1 } around)
  | openParen {token : Token} {group : Group} {around : Enclosing} : token.kind = .leftParen →
      Steps (.beforeOperand group around) token
        (.beforeOperand .empty ((.paren, group) :: around))
  | ident {token : Token} {group : Group} {around : Enclosing} : token.kind = .ident →
      Steps (.beforeOperand group around) token
        (.afterOperand (.atom token.spelling) (token.spelling == norName) group around)
  /-- The identifier before the parenthesis was no atom but opens a joint denial. -/
  | openNor {token : Token} {operand : Formula} {group : Group} {around : Enclosing} :
      token.kind = .leftParen →
      Steps (.afterOperand operand true group around) token
        (.beforeOperand .empty ((.nor [], group) :: around))
  | binary {token : Token} {op : BinaryOp} {operand : Formula} {isKeyword : Bool} {group : Group}
      {around : Enclosing} : token.kind = .binary op →
      Steps (.afterOperand operand isKeyword group around) token
        (.beforeOperand (group.await operand op) around)
  | comma {token : Token} {operand : Formula} {isKeyword : Bool} {group outer : Group}
      {around : Enclosing} {done : List Formula} : token.kind = .comma →
      Steps (.afterOperand operand isKeyword group ((.nor done, outer) :: around)) token
        (.beforeOperand .empty ((.nor (done ++ [group.close operand]), outer) :: around))
  | closeParen {token : Token} {operand : Formula} {isKeyword : Bool} {group outer : Group}
      {around : Enclosing} : token.kind = .rightParen →
      Steps (.afterOperand operand isKeyword group ((.paren, outer) :: around)) token
        (.afterOperand (group.close operand) false outer around)
  | closeNor {token : Token} {operand : Formula} {isKeyword : Bool} {group outer : Group}
      {around : Enclosing} {done : List Formula} : token.kind = .rightParen →
      Steps (.afterOperand operand isKeyword group ((.nor done, outer) :: around)) token
        (.afterOperand (Formula.norSnoc done (group.close operand)) false outer around)

theorem steps_of_step {s s' : State} {token : Token} (h : step s token = .ok s') :
    Steps s token s' := by
  cases s with
  | beforeOperand group around =>
    simp only [step] at h
    split at h <;> cases h
    · exact .not ‹_›
    · exact .openParen ‹_›
    · exact .ident ‹_›
  | afterOperand operand isKeyword group around =>
    simp only [step] at h
    split at h
    · cases h
      exact .binary ‹_›
    · cases h
      exact .closeParen ‹_›
    · cases h
      exact .closeNor ‹_›
    · cases h
      exact .comma ‹_›
    · split at h
      · rename_i isParen isKeyword
        cases h
        subst isKeyword
        exact .openNor isParen
      · cases h
    · cases h

theorem step_eq_ok_iff {s s' : State} {token : Token} :
    step s token = .ok s' ↔ Steps s token s' := by
  refine ⟨steps_of_step, fun h => ?_⟩
  cases h with
  | not h | openParen h | ident h | openNor h | binary h | comma h | closeParen h | closeNor h =>
    simp [step, h]

/-- The reader refuses a token where an operand is due, or behind an operand. -/
theorem step_eq_error {s : State} {token : Token} {e : ParseError} (h : step s token = .error e) :
    (∃ group around, s = .beforeOperand group around ∧
      e = .unexpectedToken token.offset .ident token.spelling) ∨
    ∃ operand isKeyword group around, s = .afterOperand operand isKeyword group around ∧
      e = refuse token around := by
  cases s with
  | beforeOperand group around =>
    simp only [step] at h
    split at h <;> cases h
    exact .inl ⟨group, around, rfl, rfl⟩
  | afterOperand operand isKeyword group around =>
    refine .inr ⟨operand, isKeyword, group, around, rfl, ?_⟩
    simp only [step] at h
    split at h
    · cases h
    · cases h
    · cases h
    · cases h
    · split at h <;> cases h
      rfl
    · cases h
      rfl

/-- The tokens lead the reader from one state to the other. -/
inductive Reads : State → List Token → State → Prop
  | nil (s : State) : Reads s [] s
  | cons {s s' s'' : State} {token : Token} {ts : List Token} :
      Steps s token s' → Reads s' ts s'' → Reads s (token :: ts) s''

theorem foldlM_step_eq_ok_iff {s s' : State} {ts : List Token} :
    ts.foldlM step s = .ok s' ↔ Reads s ts s' := by
  induction ts generalizing s with
  | nil =>
    constructor
    · intro h
      cases h
      exact .nil _
    · intro h
      cases h
      rfl
  | cons token ts ih =>
    rw [List.foldlM_cons]
    constructor
    · intro h
      cases next : step s token with
      | error e =>
        rw [next] at h
        cases h
      | ok s₁ =>
        rw [next] at h
        exact .cons (step_eq_ok_iff.mp next) (ih.mp h)
    · rintro (_ | ⟨first, rest⟩)
      rw [step_eq_ok_iff.mpr first]
      exact ih.mpr rest

/-- If the reader fails, it has got to some token and refuses it. -/
theorem foldlM_step_eq_error {s : State} {ts : List Token} {e : ParseError}
    (h : ts.foldlM step s = .error e) : ∃ before token after s', ts = before ++ token :: after ∧
      Reads s before s' ∧ step s' token = .error e := by
  induction ts generalizing s with
  | nil => cases h
  | cons token ts ih =>
    rw [List.foldlM_cons] at h
    cases next : step s token with
    | error e' =>
      rw [next] at h
      cases h
      exact ⟨[], token, ts, s, rfl, .nil s, next⟩
    | ok s₁ =>
      rw [next] at h
      obtain ⟨before, refused, after, s', rfl, reads, refuses⟩ := ih h
      exact ⟨token :: before, refused, after, s', rfl, .cons (step_eq_ok_iff.mp next) reads, refuses⟩

namespace Reads

variable {s s' s'' : State} {token : Token} {ts us : List Token}

theorem single (h : Steps s token s') : Reads s [token] s' :=
  .cons h (.nil s')

theorem append (h : Reads s ts s') (h' : Reads s' us s'') : Reads s (ts ++ us) s'' := by
  induction h with
  | nil => exact h'
  | cons first _ ih => exact .cons first (ih h')

theorem unique (h : Reads s ts s') (h' : Reads s ts s'') : s' = s'' := by
  rw [← foldlM_step_eq_ok_iff] at h h'
  exact Except.ok.inj (h.symm.trans h')

theorem append_iff : Reads s (ts ++ us) s'' ↔ ∃ s', Reads s ts s' ∧ Reads s' us s'' := by
  constructor
  · intro h
    induction ts generalizing s with
    | nil => exact ⟨s, .nil s, h⟩
    | cons token ts ih =>
      obtain _ | ⟨first, rest⟩ := h
      obtain ⟨s', before, behind⟩ := ih rest
      exact ⟨s', .cons first before, behind⟩
  · rintro ⟨s', before, behind⟩
    exact before.append behind

end Reads

end Reader

end Propositional
