import Propositional.Explanation
import Propositional.Restriction.Weight
import Propositional.Terminal

/-!
# Restriction to a basis

A formula is restricted to a basis from the outside in. While a law applies to the whole it is
applied; where none does, the connective stays and its operands are restricted from left to right.
`restrict` gives the formula alone and `restrictNoting` notes each law on the way, wherever the notes
go; both follow the same recursion, which the weight of the formula bounds.
-/

namespace Propositional

namespace Formula

def restrict (b : Basis) (f : Formula) : Formula :=
  match _h : Law.reduce? b f with
  | some (_, g) => restrict b g
  | none =>
    match f with
    | .atom name => .atom name
    | .neg g => .neg (restrict b g)
    | .binary op l r => .binary op (restrict b l) (restrict b r)
    | .nor first rest =>
      .nor (restrict b first) (rest.attach.map fun ⟨g, _⟩ => restrict b g)
termination_by f.weight b
decreasing_by
  · exact Law.weight_reduce_lt _h
  all_goals exact weight_child_lt _h (by simp_all [children])

/-- Restriction that notes each law where it is applied, before it goes on. The operands come from left
to right, so the notes on one of them precede those on the next. -/
def restrictNoting {m : Type → Type} [Monad m] (note : Law → m Unit) (b : Basis) (f : Formula) :
    m Formula :=
  match _h : Law.reduce? b f with
  | some (law, g) => do
    note law
    restrictNoting note b g
  | none =>
    match f with
    | .atom name => return .atom name
    | .neg g => return .neg (← restrictNoting note b g)
    | .binary op l r => do
      let left ← restrictNoting note b l
      let right ← restrictNoting note b r
      return .binary op left right
    | .nor first rest => do
      let first ← restrictNoting note b first
      let rest ← rest.attach.mapM fun ⟨g, _⟩ => restrictNoting note b g
      return .nor first rest
termination_by f.weight b
decreasing_by
  · exact Law.weight_reduce_lt _h
  all_goals exact weight_child_lt _h (by simp_all [children])

section Equations

variable {b : Basis} {f g : Formula} {law : Law}

theorem restrict_of_reduce (h : Law.reduce? b f = some (law, g)) :
    f.restrict b = g.restrict b := by
  rw [restrict]
  split <;> simp_all

theorem restrict_atom (name : String) : restrict b (.atom name) = .atom name := by
  rw [restrict]
  split
  · rename_i h
    simp [Law.reduce?] at h
  · rfl

theorem restrict_neg (h : b.allows .neg = true) : restrict b (.neg f) = .neg (restrict b f) := by
  rw [restrict]
  split <;> simp_all [Law.reduce?, kind]

theorem restrict_binary {op : BinaryOp} (h : b.allows (.binary op) = true) :
    restrict b (.binary op f g) = .binary op (restrict b f) (restrict b g) := by
  rw [restrict]
  split <;> simp_all [Law.reduce?, kind]

theorem restrict_nor {rest : List Formula} (h : b.allows .nor = true) :
    restrict b (.nor f rest) = .nor (restrict b f) (rest.map (restrict b)) := by
  rw [restrict]
  split <;> simp_all [Law.reduce?, kind]

variable {m : Type → Type} [Monad m] {note : Law → m Unit}

theorem restrictNoting_of_reduce (h : Law.reduce? b f = some (law, g)) :
    f.restrictNoting note b = note law >>= fun _ => g.restrictNoting note b := by
  rw [restrictNoting]
  split <;> simp_all

theorem restrictNoting_atom (name : String) :
    restrictNoting note b (.atom name) = pure (.atom name) := by
  rw [restrictNoting]
  split
  · rename_i h
    simp [Law.reduce?] at h
  · rfl

theorem restrictNoting_neg (h : b.allows .neg = true) :
    restrictNoting note b (.neg f) = do return .neg (← restrictNoting note b f) := by
  rw [restrictNoting]
  split <;> simp_all [Law.reduce?, kind]

theorem restrictNoting_binary {op : BinaryOp} (h : b.allows (.binary op) = true) :
    restrictNoting note b (.binary op f g) = do
      let left ← restrictNoting note b f
      let right ← restrictNoting note b g
      return .binary op left right := by
  rw [restrictNoting]
  split <;> simp_all [Law.reduce?, kind]

theorem restrictNoting_nor [LawfulMonad m] {rest : List Formula} (h : b.allows .nor = true) :
    restrictNoting note b (.nor f rest) = do
      let first ← restrictNoting note b f
      let rest ← rest.mapM (restrictNoting note b)
      return .nor first rest := by
  rw [restrictNoting]
  split
  · simp_all [Law.reduce?, kind]
  · simp

end Equations

/-- Restricts a formula to one basis after the other; a name that no basis has is passed over. -/
def restrictChain (f : Formula) : List String → List (Except UnknownBasis Formula)
  | [] => []
  | name :: names =>
    match Basis.ofName name with
    | .error e => .error e :: restrictChain f names
    | .ok b =>
      let g := f.restrict b
      .ok g :: restrictChain g names

end Formula

/-- A line of an explanation that names the equivalence applied. -/
def lawText (ink : Ink) (equivalence : String) : String :=
  ink.paint .green ("Applying " ++ equivalence)

/-- Adds the law to an explanation that is being written. -/
def noteLaw (ink : Ink) (law : Law) : StateM Explanation Unit :=
  modify fun e => e.addStep (lawText ink law.equivalence)

namespace Formula

/-- Restricts a formula and explains it: in a part of its own, the laws and then the result. -/
def explainRestriction (ink : Ink) (b : Basis) (f : Formula) (e : Explanation) :
    Formula × Explanation :=
  if b = .all then (f, e.addStep "Every connective is allowed; nothing to rewrite")
  else
    e.within ("Restricting " ++ ink.paint .blue f.render ++ " to basis " ++ b.name) fun part =>
      let (result, part) := (f.restrictNoting (noteLaw ink) b).run part
      (result, part.addStep ("Result: " ++ ink.paint .red result.render))

end Formula

end Propositional
