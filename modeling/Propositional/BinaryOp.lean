/-!
# Two-place connectives

The five connectives that join exactly two formulas, with their truth functions and their three
written forms: the name, the glyph that is printed, and the spelling on a plain keyboard.
-/

namespace Propositional

/-- The order of the constructors is the order in which connectives are listed and compared. -/
inductive BinaryOp
  | and
  | or
  | impl
  | equiv
  | scheffer
deriving DecidableEq

namespace BinaryOp

def all : List BinaryOp :=
  [.and, .or, .impl, .equiv, .scheffer]

def name : BinaryOp → String
  | .and => "and"
  | .or => "or"
  | .impl => "impl"
  | .equiv => "equiv"
  | .scheffer => "scheffer"

def glyph : BinaryOp → Char
  | .and => '∧'
  | .or => '∨'
  | .impl => '→'
  | .equiv => '↔'
  | .scheffer => '↑'

def spelling : BinaryOp → String
  | .and => "&"
  | .or => "|"
  | .impl => "->"
  | .equiv => "<->"
  | .scheffer => "/"

/-- The Scheffer stroke is the negated conjunction. -/
def apply : BinaryOp → Bool → Bool → Bool
  | .and, a, b => a && b
  | .or, a, b => a || b
  | .impl, a, b => !a || b
  | .equiv, a, b => a == b
  | .scheffer, a, b => !(a && b)

/-- Arrows bind more loosely than the other connectives. -/
def isArrow : BinaryOp → Bool
  | .impl | .equiv => true
  | .and | .or | .scheffer => false

def rank : BinaryOp → Nat
  | .and => 0
  | .or => 1
  | .impl => 2
  | .equiv => 3
  | .scheffer => 4

instance : Ord BinaryOp where
  compare a b := compare a.rank b.rank

theorem mem_all (op : BinaryOp) : op ∈ all := by
  cases op <;> simp [all]

theorem compare_eq_iff {a b : BinaryOp} : compare a b = .eq ↔ a = b := by
  cases a <;> cases b <;> decide

end BinaryOp

end Propositional
