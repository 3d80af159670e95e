import Propositional.Formula

/-!
# An order of formulas

Formulas are compared by their outermost shapes first, atoms before negations before connectives
before joint denials, then by their parts from left to right. Only equal formulas compare as equal,
so the order decides equality.
-/

namespace Propositional

namespace Formula

def rank : Formula → Nat
  | .atom _ => 0
  | .neg _ => 1
  | .binary _ _ _ => 2
  | .nor _ _ => 3

mutual

def compare : Formula → Formula → Ordering
  | .atom a, .atom b => Ord.compare a b
  | .neg f, .neg g => f.compare g
  | .binary op l r, .binary op' l' r' =>
    (Ord.compare op op').then ((l.compare l').then (r.compare r'))
  | .nor f fs, .nor g gs => (f.compare g).then (compareAll fs gs)
  | f, g => Ord.compare f.rank g.rank

/-- A list that goes on is greater than one that ends. -/
def compareAll : List Formula → List Formula → Ordering
  | [], [] => .eq
  | [], _ :: _ => .lt
  | _ :: _, [] => .gt
  | f :: fs, g :: gs => (f.compare g).then (compareAll fs gs)

end

theorem compareAll_eq_iff {fs : List Formula}
    (ih : ∀ f ∈ fs, ∀ g, f.compare g = .eq ↔ f = g) (gs : List Formula) :
    compareAll fs gs = .eq ↔ fs = gs := by
  induction fs generalizing gs with
  | nil => cases gs <;> simp [compareAll]
  | cons f fs hfs =>
    cases gs with
    | nil => simp [compareAll]
    | cons g gs =>
      rw [compareAll, Ordering.then_eq_eq, ih f List.mem_cons_self,
        hfs (fun f' h => ih f' (List.mem_cons_of_mem f h)), List.cons.injEq]

theorem compare_eq_iff (f g : Formula) : f.compare g = .eq ↔ f = g := by
  induction f generalizing g with
  | atom a => cases g <;> simp [compare, rank]
  | neg f ih => cases g <;> simp [compare, rank, ih]
  | binary op l r ihl ihr =>
    cases g <;> simp [compare, rank, ihl, ihr, BinaryOp.compare_eq_iff, Ordering.then_eq_eq]
  | nor f fs ih ihs =>
    cases g <;> simp [compare, rank, ih, compareAll_eq_iff ihs, Ordering.then_eq_eq]

instance : DecidableEq Formula := fun f g =>
  decidable_of_iff _ (compare_eq_iff f g)

/-- The formulas in ascending order, each once. -/
def sortDistinct (fs : List Formula) : List Formula :=
  (fs.mergeSort fun f g => (f.compare g).isLE).eraseReps

end Formula

end Propositional
