import Propositional.Interpretation

/-!
# All interpretations of a set of variables

There are as many interpretations of `n` variables as numbers with `n` binary digits, and they are
numbered by these. A variable has the value of its digit, the last variable that of the lowest. So
the first variable changes slowest and takes false before true. More than twenty variables are
refused.
-/

namespace Propositional

/-- Why the interpretations of a set of variables are not enumerated. -/
inductive AtomCountError
  | noAtoms
  | tooManyAtoms (count limit : Nat)
deriving DecidableEq

def AtomCountError.message : AtomCountError → String
  | .noAtoms => "No atoms: a truth table needs at least one variable"
  | .tooManyAtoms count limit =>
    "Formula has " ++ toString count ++ " atoms, more than the supported " ++ toString limit

/-- The number of interpretations of the variables, doubled by each of them. -/
def VariableSet.interpretationCount (vs : VariableSet) : Nat :=
  1 <<< vs.size

namespace Interpretation

/-- The greatest number of variables whose interpretations are enumerated. -/
def maxVariables : Nat := 20

/-- The truth values that the binary digits of a number give to the names. -/
def digits (number : Nat) : List String → List (String × Bool)
  | [] => []
  | name :: rest => (name, number.testBit rest.length) :: digits number rest

theorem map_fst_digits (number : Nat) (names : List String) :
    (digits number names).map Prod.fst = names := by
  induction names with
  | nil => rfl
  | cons name rest ih => rw [digits, List.map_cons, ih]

def ofNumber (vs : VariableSet) (number : Nat) : Interpretation :=
  ⟨digits number vs.names, by rw [map_fst_digits]; exact vs.nodup⟩

/-- The first interpretations of the variables, at most `count` of them. -/
def firstOf (vs : VariableSet) (count : Nat) : Except AtomCountError (List Interpretation) :=
  if vs.size > maxVariables then .error (.tooManyAtoms vs.size maxVariables)
  else .ok ((List.range (min count vs.interpretationCount)).map (ofNumber vs))

/-- Every interpretation of the variables. -/
def all (vs : VariableSet) : Except AtomCountError (List Interpretation) :=
  firstOf vs vs.interpretationCount

end Interpretation

/-- Whether there is a truth table over the variables. -/
def VariableSet.checkCount (vs : VariableSet) : Except AtomCountError Unit :=
  if vs.size = 0 then .error .noAtoms
  else if vs.size > Interpretation.maxVariables then
    .error (.tooManyAtoms vs.size Interpretation.maxVariables)
  else .ok ()

end Propositional
