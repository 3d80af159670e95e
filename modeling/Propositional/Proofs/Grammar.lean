import Propositional.Formula.Reader

/-!
# The grammar of formulas

Which sequences of tokens spell which formula, said without the reader:

* a formula is chains with arrows between them, and a chain is units with the other two-place
  connectives between them; both group to the left;
* a unit is a negated unit, a formula in parentheses, a joint denial `N(…)` of one or more formulas
  with commas between them, or an identifier, `N` among them.

Offsets play no part, and of the spellings only those of identifiers do.
-/

namespace Propositional

/-- The kinds of phrases, from the loosest to the tightest, and the inside of a joint denial. -/
inductive Phrase
  | formula
  | chain
  | unit
  /-- The operands of a joint denial and the commas between them. -/
  | operands
deriving DecidableEq

/-- The tokens are a phrase that spells the formula; operands spell their joint denial. -/
inductive Derives : Phrase → List Token → Formula → Prop
  | ofChain {ts : List Token} {f : Formula} : Derives .chain ts f → Derives .formula ts f
  | arrow {ls rs : List Token} {token : Token} {op : BinaryOp} {l r : Formula} :
      Derives .formula ls l → token.kind = .binary op → op.isArrow = true → Derives .chain rs r →
      Derives .formula (ls ++ token :: rs) (.binary op l r)
  | ofUnit {ts : List Token} {f : Formula} : Derives .unit ts f → Derives .chain ts f
  | tight {ls rs : List Token} {token : Token} {op : BinaryOp} {l r : Formula} :
      Derives .chain ls l → token.kind = .binary op → op.isArrow = false → Derives .unit rs r →
      Derives .chain (ls ++ token :: rs) (.binary op l r)
  | neg {ts : List Token} {token : Token} {f : Formula} :
      token.kind = .not → Derives .unit ts f → Derives .unit (token :: ts) (.neg f)
  | parens {ts : List Token} {opening closing : Token} {f : Formula} :
      opening.kind = .leftParen → Derives .formula ts f → closing.kind = .rightParen →
      Derives .unit (opening :: ts ++ [closing]) f
  | nor {ts : List Token} {keyword opening closing : Token} {f : Formula} :
      keyword.kind = .ident → keyword.spelling = norName → opening.kind = .leftParen →
      Derives .operands ts f → closing.kind = .rightParen →
      Derives .unit (keyword :: opening :: ts ++ [closing]) f
  | ident {token : Token} : token.kind = .ident → Derives .unit [token] (.atom token.spelling)
  | operand {ts : List Token} {f : Formula} :
      Derives .formula ts f → Derives .operands ts (.nor f [])
  | comma {ts us : List Token} {token : Token} {first f : Formula} {rest : List Formula} :
      Derives .operands ts (.nor first rest) → token.kind = .comma → Derives .formula us f →
      Derives .operands (ts ++ token :: us) (.nor first (rest ++ [f]))

namespace Derives

variable {p : Phrase} {ts : List Token} {f : Formula}

theorem formula (h : Derives .unit ts f) : Derives .formula ts f :=
  .ofChain (.ofUnit h)

/-- Two units with a connective between them are a formula, whichever level it is on. -/
theorem binary {ls rs : List Token} {token : Token} {op : BinaryOp} {l r : Formula}
    (hl : Derives .unit ls l) (isOp : token.kind = .binary op) (hr : Derives .unit rs r) :
    Derives .formula (ls ++ token :: rs) (.binary op l r) := by
  cases isArrow : op.isArrow with
  | true => exact .arrow hl.formula isOp isArrow (.ofUnit hr)
  | false => exact .ofChain (.tight (.ofUnit hl) isOp isArrow hr)

theorem kind_ne_unknown (h : Derives p ts f) : ∀ token ∈ ts, token.kind ≠ .unknown := by
  induction h <;> simp_all [or_imp]

/-- What holds of the spelling of every identifier holds of every name in the formula. -/
theorem forall_leaves (h : Derives p ts f) {q : String → Prop}
    (hq : ∀ token ∈ ts, token.kind = .ident → q token.spelling) : ∀ name ∈ f.leaves, q name := by
  induction h with
  | ofChain _ ih | ofUnit _ ih => exact ih hq
  | arrow _ _ _ _ ihl ihr | tight _ _ _ _ ihl ihr =>
    simp only [List.forall_mem_append, List.forall_mem_cons] at hq
    rw [Formula.leaves, List.forall_mem_append]
    exact ⟨ihl hq.1, ihr hq.2.2⟩
  | neg _ _ ih =>
    rw [Formula.leaves]
    exact ih fun token mem => hq token (List.mem_cons_of_mem _ mem)
  | parens _ _ _ ih =>
    simp only [List.cons_append, List.forall_mem_cons, List.forall_mem_append] at hq
    exact ih hq.2.1
  | nor _ _ _ _ _ ih =>
    simp only [List.cons_append, List.forall_mem_cons, List.forall_mem_append] at hq
    exact ih hq.2.2.1
  | ident isIdent =>
    rw [Formula.leaves, List.forall_mem_singleton]
    exact hq _ List.mem_cons_self isIdent
  | operand _ ih =>
    rw [Formula.leaves, List.flatMap_nil, List.append_nil]
    exact ih hq
  | comma _ _ _ ihs ih =>
    simp only [List.forall_mem_append, List.forall_mem_cons] at hq
    have before := ihs hq.1
    rw [Formula.leaves] at before ⊢
    rw [List.flatMap_append, ← List.append_assoc, List.flatMap_singleton, List.forall_mem_append]
    exact ⟨before, ih hq.2.2⟩

end Derives

end Propositional
