import Mathlib.Data.List.Chain
import Propositional.Proofs.Explanation

/-!
# An explanation as a log

Notes are written behind those that are there, and these stay as they are. `Collapses` says what a log
comes to: a run of equal steps becomes one step, and a part stays a part, whatever stands beside it,
with its own notes collapsed in the same way. If a step stood last before, the log may begin with more
of the same run, and this is all that can be seen of the notes before it (`Follows`).

So an explanation has a step twice in a row only where it had it before anything was written
(`Varied`).
-/

namespace Propositional

namespace Note

/-- What a log comes to in an explanation that has no notes before it. -/
inductive Collapses : List Note → List Note → Prop
  | nil : Collapses [] []
  /-- A run goes on as long as the same step follows. -/
  | run {text : String} {log notes : List Note} (again : Nat) :
      log.head? ≠ some (.step text) → Collapses log notes →
      Collapses (.step text :: (List.replicate again (.step text) ++ log)) (.step text :: notes)
  | part {heading : String} {inner kept log notes : List Note} :
      Collapses inner kept → Collapses log notes →
      Collapses (.part heading inner :: log) (.part heading kept :: notes)

/-- What a log comes to behind the note given. -/
def Follows (last : Option Note) (log notes : List Note) : Prop :=
  match last with
  | some (.step text) => Collapses (.step text :: log) (.step text :: notes)
  | _ => Collapses log notes

/-- The notes of a part, those of the parts among them, and so on. -/
def levels : Note → List (List Note)
  | .step _ => []
  | .part _ notes => notes :: notes.flatMap levels

/-- A step and the same step once more. -/
inductive Repeats : Note → Note → Prop
  | step (text : String) : Repeats (.step text) (.step text)

/-- No step at any level stands behind an equal one. -/
def Varied (note : Note) : Prop :=
  ∀ level ∈ note.levels, level.IsChain fun a b => ¬ a.Repeats b

theorem varied_step (text : String) : (Note.step text).Varied := by
  simp [Varied, levels]

theorem varied_part_iff {heading : String} {notes : List Note} :
    (Note.part heading notes).Varied ↔
      (notes.IsChain fun a b => ¬ a.Repeats b) ∧ ∀ note ∈ notes, note.Varied := by
  rw [Varied, levels, List.forall_mem_cons, List.forall_mem_flatMap]
  rfl

section Collapsing

variable {log notes : List Note} {text : String}

theorem Collapses.head?_eq_step (h : Collapses log notes) (first : notes.head? = some (.step text)) :
    log.head? = some (.step text) := by
  cases h with
  | nil => cases first
  | run => exact first
  | part => cases first

/-- One more step in front belongs to the run that is there, or begins one. -/
theorem Collapses.exists_cons_step (h : Collapses log notes) (text : String) :
    ∃ notes', Collapses (.step text :: log) notes' := by
  by_cases same : log.head? = some (.step text)
  · cases h with
    | nil => cases same
    | @run text' log notes again differs rest =>
      cases same
      exact ⟨_, .run (again + 1) differs rest⟩
    | part => cases same
  · exact ⟨_, .run 0 same h⟩

/-- Every log comes to something. -/
theorem exists_collapses : ∀ log : List Note, ∃ notes, Collapses log notes
  | [] => ⟨[], .nil⟩
  | .step text :: log => by
    obtain ⟨notes, rest⟩ := exists_collapses log
    exact rest.exists_cons_step text
  | .part heading inner :: log => by
    obtain ⟨kept, below⟩ := exists_collapses inner
    obtain ⟨notes, rest⟩ := exists_collapses log
    exact ⟨.part heading kept :: notes, .part below rest⟩

/-- Whatever stands before, the log comes to something behind it. -/
theorem exists_follows (last : Option Note) (log : List Note) : ∃ notes, Follows last log notes := by
  unfold Follows
  split
  · rename_i text
    obtain ⟨notes, h⟩ := exists_collapses (.step text :: log)
    cases h with
    | run again differs rest => exact ⟨_, .run again differs rest⟩
  · exact exists_collapses log

theorem Collapses.varied (h : Collapses log notes) (heading : String) :
    (Note.part heading notes).Varied := by
  induction h generalizing heading with
  | nil => exact varied_part_iff.mpr ⟨.nil, nofun⟩
  | @run text log notes again ends rest ih =>
    obtain ⟨chain, below⟩ := varied_part_iff.mp (ih heading)
    refine varied_part_iff.mpr ⟨List.isChain_cons.mpr ⟨?_, chain⟩, ?_⟩
    · rintro _ first ⟨⟩
      exact ends (rest.head?_eq_step first)
    · exact List.forall_mem_cons.mpr ⟨varied_step text, below⟩
  | @part heading' inner kept log notes _ _ ihBelow ih =>
    obtain ⟨chain, below⟩ := varied_part_iff.mp (ih heading)
    refine varied_part_iff.mpr ⟨List.isChain_cons.mpr ⟨nofun, chain⟩, ?_⟩
    exact List.forall_mem_cons.mpr ⟨ihBelow heading', below⟩

/-- Behind another note as well, nothing is repeated, and the first note does not repeat that one. -/
theorem Follows.varied {last : Option Note} (h : Follows last log notes) (heading : String) :
    (∀ a ∈ last, ∀ b ∈ notes.head?, ¬ a.Repeats b) ∧ (Note.part heading notes).Varied := by
  unfold Follows at h
  split at h
  · rename_i text
    obtain ⟨chain, below⟩ := varied_part_iff.mp (h.varied heading)
    obtain ⟨differs, chain⟩ := List.isChain_cons.mp chain
    refine ⟨?_, varied_part_iff.mpr ⟨chain, fun note mem => below note (List.mem_cons_of_mem _ mem)⟩⟩
    rintro _ ⟨⟩
    exact differs
  · rename_i noStep
    refine ⟨?_, h.varied heading⟩
    rintro _ back _ _ ⟨text⟩
    exact noStep text back

end Collapsing

end Note

namespace Explanation

/-- The explanation with more notes behind its own. -/
def extend (e : Explanation) (notes : List Note) : Explanation :=
  { e with notes := e.notes ++ notes.toArray }

section Extending

variable {e : Explanation} {text : String} {note : Note} {log notes : List Note}

theorem extend_nil (e : Explanation) : e.extend [] = e := by
  simp [extend]

theorem extend_cons (e : Explanation) (note : Note) (notes : List Note) :
    (e.extend [note]).extend notes = e.extend (note :: notes) := by
  simp [extend]

theorem back?_extend_singleton (e : Explanation) (note : Note) :
    (e.extend [note]).notes.back? = some note := by
  simp [extend]

theorem toList_titled_extend (heading : String) (notes : List Note) :
    ((titled heading).extend notes).notes.toList = notes := by
  simp [extend, titled]

theorem write_step_of_ne (h : e.notes.back? ≠ some (.step text)) :
    e.write (.step text) = e.extend [.step text] := by
  rw [write, addStep_of_back?_ne h]
  simp [extend]

theorem foldl_write_replicate (h : e.notes.back? = some (.step text)) (again : Nat) :
    (List.replicate again (Note.step text)).foldl write e = e := by
  induction again with
  | zero => rfl
  | succ again ih => rw [List.replicate_succ, List.foldl_cons, write, addStep_of_back?_eq h, ih]

/-- A log that does not go on with the last step leaves behind the notes what it comes to. -/
theorem foldl_write_of_collapses (h : Note.Collapses log notes)
    (differs : ∀ text, e.notes.back? = some (.step text) → log.head? ≠ some (.step text)) :
    log.foldl write e = e.extend notes := by
  induction h generalizing e with
  | nil => exact (extend_nil e).symm
  | @run text log notes again ends _ ih =>
    have last := back?_extend_singleton e (.step text)
    have differs' : ∀ text', (e.extend [.step text]).notes.back? = some (.step text') →
        log.head? ≠ some (.step text') := by
      intro text' back
      cases last.symm.trans back
      exact ends
    have first : e.notes.back? ≠ some (.step text) := fun back => differs text back rfl
    rw [List.foldl_cons, List.foldl_append, write_step_of_ne first, foldl_write_replicate last,
      ih differs', extend_cons]
  | @part heading inner kept log notes _ _ ihBelow ih =>
    have last := back?_extend_singleton e (.part heading kept)
    have below : (inner.foldl write (titled heading)) = (titled heading).extend kept :=
      ihBelow fun _ back => nomatch back
    have written : e.write (.part heading inner) = e.extend [.part heading kept] := by
      rw [write, below, addPart, toList_titled_extend]
      simp [extend, titled]
    rw [List.foldl_cons, written, ih, extend_cons]
    intro text back
    cases last.symm.trans back

theorem foldl_write_of_follows (h : Note.Follows e.notes.back? log notes) :
    log.foldl write e = e.extend notes := by
  unfold Note.Follows at h
  split at h
  · rename_i text back
    cases h with
    | run again ends rest =>
      rw [List.foldl_append, foldl_write_replicate back]
      apply foldl_write_of_collapses rest
      intro text' back'
      cases back.symm.trans back'
      exact ends
  · rename_i noStep
    exact foldl_write_of_collapses h fun text back => absurd back (noStep text)

/-- No step of the explanation, at any level, stands behind an equal one. -/
def Varied (e : Explanation) : Prop :=
  (Note.part e.heading e.notes.toList).Varied

theorem Varied.extend (varied : e.Varied) (h : Note.Follows e.notes.back? log notes) :
    (e.extend notes).Varied := by
  obtain ⟨differs, later⟩ := h.varied e.heading
  obtain ⟨chain, below⟩ := Note.varied_part_iff.mp varied
  obtain ⟨chain', below'⟩ := Note.varied_part_iff.mp later
  rw [← Array.getLast?_toList] at differs
  rw [Varied, Explanation.extend, Array.toList_append, Note.varied_part_iff, List.isChain_append,
    List.forall_mem_append]
  exact ⟨⟨chain, chain', differs⟩, below, below'⟩

end Extending

/-- **An explanation is its log with repeated steps left out.** Writing a log leaves the notes that are
there as they are. Behind them stands what the log comes to, and nothing else does. If no step stood
behind an equal one before, at any level, then none does in the end. -/
theorem explanation_is_collapsed_log (e : Explanation) (log : List Note) :
    (∀ e', log.foldl write e = e' ↔
        ∃ notes, Note.Follows e.notes.back? log notes ∧ e' = e.extend notes) ∧
      (e.Varied → (log.foldl write e).Varied) := by
  obtain ⟨notes, follows⟩ := Note.exists_follows e.notes.back? log
  constructor
  · intro e'
    constructor
    · rintro rfl
      exact ⟨notes, follows, foldl_write_of_follows follows⟩
    · rintro ⟨notes', follows', rfl⟩
      exact foldl_write_of_follows follows'
  · intro varied
    rw [foldl_write_of_follows follows]
    exact varied.extend follows

/-- The log goes on with the last step, repeats another one, and has two equal parts next to each
other. -/
theorem explanation_is_collapsed_log_parts :
    let e : Explanation := ⟨"", #[.step "a"]⟩
    let part := Note.part "c" [.step "d"]
    let log : List Note :=
      [.step "a", .step "b", .step "b", .part "c" [.step "d", .step "d"], part, .step "b"]
    Note.Follows e.notes.back? log [.step "b", part, part, .step "b"] ∧
      log.foldl write e = ⟨"", #[.step "a", .step "b", part, part, .step "b"]⟩ ∧
      e.Varied ∧ (log.foldl write e).Varied := by
  intro e part log
  have collapsed : Note.Follows e.notes.back? log [.step "b", part, part, .step "b"] := by
    have twice : Note.Collapses [.step "d", .step "d"] [.step "d"] := .run 1 nofun .nil
    have once : Note.Collapses [.step "d"] [.step "d"] := .run 0 nofun .nil
    have last : Note.Collapses [.step "b"] [.step "b"] := .run 0 nofun .nil
    exact .run 1 (by simp) (.run 1 (by simp) (.part twice (.part once last)))
  have varied : e.Varied := by
    refine Note.varied_part_iff.mpr ⟨.singleton _, ?_⟩
    exact List.forall_mem_singleton.mpr (Note.varied_step "a")
  have law := explanation_is_collapsed_log e log
  exact ⟨collapsed, (law.1 _).mpr ⟨_, collapsed, rfl⟩, varied, law.2 varied⟩

end Explanation

end Propositional
