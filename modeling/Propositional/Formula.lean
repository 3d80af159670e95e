import Propositional.BinaryOp

/-!
# Propositional formulas

A formula is an atom, a negation, two formulas under a connective, or a joint denial of one or more
formulas. The first operand of a joint denial stands apart from the others, so it is never empty.

Size, depth and leaves are defined by recursion on the operands. `Formula.ind` is the induction
that goes with them: in a joint denial it speaks of every operand.
-/

namespace Propositional

inductive Formula
  | atom (name : String)
  | neg (operand : Formula)
  | binary (op : BinaryOp) (left right : Formula)
  /-- True when every operand is false. -/
  | nor (first : Formula) (rest : List Formula)

/-- The outermost shape of a formula. -/
inductive Kind
  | atom
  | neg
  | binary (op : BinaryOp)
  | nor
deriving DecidableEq

namespace Kind

def all : List Kind :=
  .atom :: .neg :: BinaryOp.all.map .binary ++ [.nor]

def name : Kind → String
  | .atom => "atom"
  | .neg => "neg"
  | .binary op => op.name
  | .nor => "nor"

theorem mem_all (kind : Kind) : kind ∈ all := by
  cases kind with
  | binary op => cases op <;> simp [all, BinaryOp.all]
  | _ => simp [all]

end Kind

/-- The identifier that opens a joint denial when a parenthesis follows it. -/
def norName : String := "N"

namespace Formula

/-- Induction on the operands, all those of a joint denial at once. -/
@[induction_eliminator]
theorem ind {motive : Formula → Prop}
    (atom : ∀ name, motive (.atom name))
    (neg : ∀ operand, motive operand → motive (.neg operand))
    (binary : ∀ op left right, motive left → motive right → motive (.binary op left right))
    (nor : ∀ first rest, motive first → (∀ g ∈ rest, motive g) → motive (.nor first rest)) :
    ∀ f, motive f
  | .atom name => atom name
  | .neg operand => neg operand (ind atom neg binary nor operand)
  | .binary op left right =>
    binary op left right (ind atom neg binary nor left) (ind atom neg binary nor right)
  | .nor first rest =>
    nor first rest (ind atom neg binary nor first) fun g _ => ind atom neg binary nor g

def kind : Formula → Kind
  | .atom _ => .atom
  | .neg _ => .neg
  | .binary op _ _ => .binary op
  | .nor _ _ => .nor

/-- The name of an atom, else the glyph of the connective. -/
def label : Formula → String
  | .atom name => name
  | .neg _ => "¬"
  | .binary op _ _ => op.glyph.toString
  | .nor _ _ => norName

def children : Formula → List Formula
  | .atom _ => []
  | .neg f => [f]
  | .binary _ l r => [l, r]
  | .nor f fs => f :: fs

def isCompound : Formula → Bool
  | .atom _ => false
  | _ => true

/-- The number of atoms and connectives, each occurrence counted. -/
def size : Formula → Nat
  | .atom _ => 1
  | .neg f => 1 + f.size
  | .binary _ l r => 1 + (l.size + r.size)
  | .nor f fs => 1 + (fs.map size).foldl (· + ·) f.size

/-- The number of formulas on the longest way from the whole to an atom. -/
def depth : Formula → Nat
  | .atom _ => 1
  | .neg f => 1 + f.depth
  | .binary _ l r => 1 + max l.depth r.depth
  | .nor f fs => 1 + (fs.map depth).foldl max f.depth

/-- The names of the atoms from left to right, each occurrence listed. -/
def leaves : Formula → List String
  | .atom name => [name]
  | .neg f => f.leaves
  | .binary _ l r => l.leaves ++ r.leaves
  | .nor f fs => f.leaves ++ fs.flatMap leaves

/-- The joint denial of the formulas in the list and of one more behind them. -/
def norSnoc : List Formula → Formula → Formula
  | [], last => .nor last []
  | first :: rest, last => .nor first (rest ++ [last])

/-- The formula fully parenthesized, with the glyphs of the connectives. -/
def render : Formula → String
  | .atom name => name
  | .neg f => "¬" ++ f.render
  | .binary op l r => "(" ++ l.render ++ " " ++ op.glyph.toString ++ " " ++ r.render ++ ")"
  | .nor f fs => norName ++ "(" ++ ", ".intercalate (f.render :: fs.map render) ++ ")"

end Formula

end Propositional
