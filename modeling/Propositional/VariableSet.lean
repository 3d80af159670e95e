import Propositional.Formula
import Propositional.Terminal

/-!
# Sets of variables

A finite set of names, kept in ascending order of their code points. `mem_insert` and `mem_union`
say what the operations do to the set; the order is kept by the type.
-/

namespace Propositional

structure VariableSet where
  names : List String
  ascending : names.Pairwise (· < ·)

namespace VariableSet

/-- Puts a name in its place in an ascending list, unless it is there. -/
def insertName (name : String) : List String → List String
  | [] => [name]
  | first :: rest =>
    if name = first then first :: rest
    else if name < first then name :: first :: rest
    else first :: insertName name rest

theorem mem_insertName {a name : String} {names : List String} :
    a ∈ insertName name names ↔ a = name ∨ a ∈ names := by
  induction names with
  | nil => simp [insertName]
  | cons first rest ih =>
    simp only [insertName]
    split
    · rename_i h
      simp [h]
    · split
      · simp
      · simp only [List.mem_cons, ih]
        exact or_left_comm

theorem pairwise_insertName {name : String} {names : List String}
    (h : names.Pairwise (· < ·)) : (insertName name names).Pairwise (· < ·) := by
  induction names with
  | nil => simp [insertName]
  | cons first rest ih =>
    obtain ⟨hfirst, hrest⟩ := List.pairwise_cons.mp h
    simp only [insertName]
    split
    · exact h
    · rename_i hne
      split
      · rename_i hlt
        refine List.pairwise_cons.mpr ⟨fun a ha => ?_, h⟩
        rcases List.mem_cons.mp ha with rfl | ha
        · exact hlt
        · exact String.lt_trans hlt (hfirst a ha)
      · rename_i hle
        refine List.pairwise_cons.mpr ⟨fun a ha => ?_, ih hrest⟩
        rcases mem_insertName.mp ha with rfl | ha
        · exact Std.lt_of_le_of_ne (String.not_lt.mp hle) (Ne.symm hne)
        · exact hfirst a ha

def empty : VariableSet :=
  ⟨[], .nil⟩

def insert (vs : VariableSet) (name : String) : VariableSet :=
  ⟨insertName name vs.names, pairwise_insertName vs.ascending⟩

def insertAll (vs : VariableSet) (names : List String) : VariableSet :=
  names.foldl insert vs

def ofList (names : List String) : VariableSet :=
  empty.insertAll names

def union (vs ws : VariableSet) : VariableSet :=
  vs.insertAll ws.names

def size (vs : VariableSet) : Nat :=
  vs.names.length

def display (vs : VariableSet) : String :=
  "\x7b" ++ ", ".intercalate vs.names ++ "\x7d"

theorem nodup (vs : VariableSet) : vs.names.Nodup :=
  vs.ascending.imp fun h => by
    rintro rfl
    exact String.lt_irrefl _ h

theorem mem_insertAll {vs : VariableSet} {names : List String} {a : String} :
    a ∈ (vs.insertAll names).names ↔ a ∈ vs.names ∨ a ∈ names := by
  induction names generalizing vs with
  | nil => simp [insertAll]
  | cons name names ih =>
    have h := @ih (vs.insert name)
    simp only [insertAll, List.foldl_cons] at h ⊢
    rw [h, insert, mem_insertName, List.mem_cons]
    exact or_assoc.trans or_left_comm

theorem mem_ofList {names : List String} {a : String} : a ∈ (ofList names).names ↔ a ∈ names := by
  simp [ofList, mem_insertAll, empty]

theorem mem_union {vs ws : VariableSet} {a : String} :
    a ∈ (vs.union ws).names ↔ a ∈ vs.names ∨ a ∈ ws.names :=
  mem_insertAll

end VariableSet

namespace Formula

/-- The names of the atoms. -/
def variableSet (f : Formula) : VariableSet :=
  .ofList f.leaves

/-- How the variables of a formula are found, in words. -/
def variableSteps (ink : Ink) (f : Formula) : List String :=
  ["Collecting variables in " ++ ink.paint .blue f.render,
    "=> " ++ ink.paint .green f.variableSet.display]

end Formula

end Propositional
