import Propositional.VariableSet

/-!
# Interpretations

A truth value for each of finitely many names. The entries keep the order in which their names came
first, and a name has one entry. The order can be seen in the entries only: the text of an
interpretation is sorted, and two interpretations are alike when they give the same values.
-/

namespace Propositional

/-- Truth values are written `T` and `F`. -/
def truthLetter (value : Bool) : String :=
  if value then "T" else "F"

structure Interpretation where
  entries : List (String × Bool)
  nodup : (entries.map Prod.fst).Nodup

namespace Interpretation

/-- Changes the entry of a name where it stands, or adds one at the end. -/
def setEntry (name : String) (value : Bool) : List (String × Bool) → List (String × Bool)
  | [] => [(name, value)]
  | entry :: entries =>
    if entry.1 = name then (name, value) :: entries else entry :: setEntry name value entries

theorem mem_fst_setEntry {a name : String} {value : Bool} {entries : List (String × Bool)} :
    a ∈ (setEntry name value entries).map Prod.fst ↔ a = name ∨ a ∈ entries.map Prod.fst := by
  induction entries with
  | nil => simp [setEntry]
  | cons entry entries ih =>
    rw [setEntry]
    split
    · rename_i h
      simp [h]
    · rw [List.map_cons, List.mem_cons, ih, List.map_cons, List.mem_cons]
      exact or_left_comm

theorem nodup_setEntry {name : String} {value : Bool} {entries : List (String × Bool)}
    (h : (entries.map Prod.fst).Nodup) : ((setEntry name value entries).map Prod.fst).Nodup := by
  induction entries with
  | nil => simp [setEntry]
  | cons entry entries ih =>
    obtain ⟨hentry, hentries⟩ := List.nodup_cons.mp h
    rw [setEntry]
    split
    · rename_i he
      subst he
      exact h
    · rename_i he
      refine List.nodup_cons.mpr ⟨fun ha => ?_, ih hentries⟩
      rcases mem_fst_setEntry.mp ha with ha | ha
      · exact he ha
      · exact hentry ha

def empty : Interpretation :=
  ⟨[], .nil⟩

def set (i : Interpretation) (entry : String × Bool) : Interpretation :=
  ⟨setEntry entry.1 entry.2 i.entries, nodup_setEntry i.nodup⟩

/-- Of several values for a name the last one counts. -/
def ofEntries (entries : List (String × Bool)) : Interpretation :=
  entries.foldl set empty

def get? (i : Interpretation) (name : String) : Option Bool :=
  i.entries.lookup name

/-- The same values for the same names, in whatever order. -/
def alike (i j : Interpretation) : Bool :=
  i.entries.length == j.entries.length
    && i.entries.all fun entry => j.get? entry.1 == some entry.2

/-- The names in ascending order, the false ones behind a `¬`. -/
def display (i : Interpretation) : String :=
  let sorted := i.entries.mergeSort fun a b => a.1 ≤ b.1
  "\x7b" ++ ", ".intercalate (sorted.map fun entry =>
    if entry.2 then entry.1 else "¬" ++ entry.1) ++ "\x7d"

end Interpretation

end Propositional
