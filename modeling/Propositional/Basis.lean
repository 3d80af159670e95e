import Propositional.Formula

/-!
# Bases

A basis is a set of connectives that every formula can be written with. Atoms belong to each. The
bases leave out one connective after the other, down to negation with conjunction or with
disjunction, and to joint denial or the Scheffer stroke alone.
-/

namespace Propositional

inductive Basis
  | all
  | noEquiv
  | noImpl
  | noOr
  | noAnd
  | nor
  | scheffer
deriving DecidableEq

namespace Basis

def every : List Basis :=
  [.all, .noEquiv, .noImpl, .noOr, .noAnd, .nor, .scheffer]

def name : Basis → String
  | .all => "all"
  | .noEquiv => "no-equiv"
  | .noImpl => "no-impl"
  | .noOr => "no-or"
  | .noAnd => "no-and"
  | .nor => "nor"
  | .scheffer => "scheffer"

def names : List String :=
  every.map name

/-- The basis without equivalence also lacks joint denial and the Scheffer stroke, and each of the
two after it lacks one connective more. -/
def allows : Basis → Kind → Bool
  | _, .atom => true
  | .all, _ => true
  | .noEquiv, kind => kind ∈ [.neg, .binary .and, .binary .or, .binary .impl]
  | .noImpl, kind => kind ∈ [.neg, .binary .and, .binary .or]
  | .noOr, kind => kind ∈ [.neg, .binary .and]
  | .noAnd, kind => kind ∈ [.neg, .binary .or]
  | .nor, kind => kind = .nor
  | .scheffer, kind => kind = .binary .scheffer

/-- The connectives that a basis allows. -/
def connectives (b : Basis) : List Kind :=
  Kind.all.filter fun kind => kind ≠ .atom && b.allows kind

/-- The number that stands for a kind in a mask; atoms have none. -/
def flag : Kind → Nat
  | .atom => 0
  | .nor => 1
  | .binary .scheffer => 2
  | .neg => 4
  | .binary .or => 8
  | .binary .and => 16
  | .binary .impl => 32
  | .binary .equiv => 64

/-- The mask of a basis: the sum of the flags of its connectives. -/
def flags (b : Basis) : Nat :=
  (b.connectives.map flag).foldl (· + ·) 0

end Basis

/-- No basis has the name. -/
structure UnknownBasis where
  name : String
deriving DecidableEq

namespace UnknownBasis

def expected : String :=
  ", ".intercalate Basis.names

def message (e : UnknownBasis) : String :=
  "Unknown basis \"" ++ e.name ++ "\" (expected one of: " ++ expected ++ ")"

end UnknownBasis

def Basis.ofName (name : String) : Except UnknownBasis Basis :=
  match Basis.every.find? (·.name == name) with
  | some b => .ok b
  | none => .error ⟨name⟩

theorem Basis.mem_every (b : Basis) : b ∈ Basis.every := by
  cases b <;> simp [Basis.every]

theorem Basis.ofName_name (b : Basis) : Basis.ofName b.name = .ok b := by
  cases b <;> rfl

end Propositional
