import Propositional.Proofs.Restriction.Laws
import Propositional.Proofs.Restriction.Meaning

/-!
# How large restriction makes a formula

Two laws take an operand twice: the one for equivalences and the one that gives `F ↑ F`. All others
keep the leaves as they are, so a formula without equivalences keeps them in every basis but that of
the Scheffer stroke.

`Gauge.reach` estimates the size or the depth of the restricted formula before it is restricted, by
what each connective comes to in the basis:

* no law raises the estimate, unless it takes an operand twice and the size counts both
  (`Gauge.reach_reduce_le`);
* above operands that keep to their estimates a connective that stays keeps to its own
  (`Gauge.extent_mapOperands_le`), so along the recursion the restricted formula does.

No connective comes to more than seven. Below seven times the size every operand leaves room for six
more, which is what the disjunctions between the operands of a joint denial need.
-/

namespace Propositional

namespace Law

open Formula

/-- The laws that take an operand twice. -/
def repeats : Law → Bool
  | .equivToImpls | .negToScheffer => true
  | _ => false

theorem Turns.leaves_eq {law : Law} {f g : Formula} (h : law.Turns f g)
    (once : law.repeats = false) : g.leaves = f.leaves := by
  cases h with
  | equivToImpls | negToScheffer => cases once
  | norToOr f fs => rw [leaves, leaves_disjunction, leaves]
  | _ => simp [conj, disj, leaves]

end Law

namespace Formula

section Leaves

variable {b : Basis} {f : Formula} {law : Law}

theorem leaves_mapOperands {change : Formula → Formula}
    (h : ∀ g ∈ f.children, (change g).leaves = g.leaves) :
    (f.mapOperands change).leaves = f.leaves := by
  cases f with
  | atom name => rfl
  | neg f => rw [mapOperands, leaves, leaves, h f List.mem_cons_self]
  | binary op l r =>
    have hl := h l (by simp [children])
    have hr := h r (by simp [children])
    rw [mapOperands, leaves, leaves, hl, hr]
  | nor f fs =>
    have hf := h f List.mem_cons_self
    have hfs : (fs.map change).flatMap leaves = fs.flatMap leaves := by
      rw [List.flatMap_map]
      exact List.flatMap_congr fun g hg => h g (List.mem_cons_of_mem f hg)
    rw [mapOperands, leaves, leaves, hf, hfs]

/-- Where no law takes an operand twice, the atoms stay as they stand from left to right. -/
theorem leaves_restrict (once : ∀ law ∈ f.laws b, law.repeats = false) :
    (f.restrict b).leaves = f.leaves := by
  induction f using restrict_induction (b := b) with
  | law f law g reduced ih =>
    rw [laws_of_reduce reduced, List.forall_mem_cons] at once
    rw [restrict_of_reduce reduced, ih once.2]
    exact (Law.turns_of_reduce reduced).leaves_eq once.1
  | stay f allowed ih =>
    rw [laws_of_allows allowed, List.forall_mem_flatMap] at once
    rw [restrict_of_allows allowed]
    exact leaves_mapOperands fun g hg => ih g hg (once g hg)

end Leaves

end Formula

/-- A way to measure formulas. -/
inductive Gauge
  | size
  | depth

namespace Gauge

open Formula

/-- What two operands count together. -/
def join : Gauge → Nat → Nat → Nat
  | .size => (· + ·)
  | .depth => max

/-- What a connective of the basis, or the formula that replaces it, comes to above its operands. Where
equivalences are replaced their operands are repeated, so nothing bounds their size. -/
def growth : Gauge → Basis → BinaryOp → Nat
  | .size, .noEquiv, .scheffer => 2
  | .size, .noImpl, .impl => 2
  | .size, .noImpl, .scheffer => 2
  | .size, .noOr, .or => 4
  | .size, .noOr, .impl => 5
  | .size, .noOr, .scheffer => 2
  | .size, .noAnd, .and => 4
  | .size, .noAnd, .impl => 2
  | .size, .noAnd, .scheffer => 5
  | .size, .nor, .and => 3
  | .size, .nor, .or => 6
  | .size, .nor, .impl => 7
  | .size, .nor, .scheffer => 4
  | .size, .scheffer, .and => 6
  | .size, .scheffer, .or => 3
  | .size, .scheffer, .impl => 4
  | .depth, .noEquiv, .equiv => 2
  | .depth, .noEquiv, .scheffer => 2
  | .depth, .noImpl, .impl => 2
  | .depth, .noImpl, .equiv => 3
  | .depth, .noImpl, .scheffer => 2
  | .depth, .noOr, .or => 3
  | .depth, .noOr, .impl => 4
  | .depth, .noOr, .equiv => 5
  | .depth, .noOr, .scheffer => 2
  | .depth, .noAnd, .and => 3
  | .depth, .noAnd, .impl => 2
  | .depth, .noAnd, .equiv => 5
  | .depth, .noAnd, .scheffer => 4
  | .depth, .nor, .and => 2
  | .depth, .nor, .or => 4
  | .depth, .nor, .impl => 5
  | .depth, .nor, .equiv => 7
  | .depth, .nor, .scheffer => 3
  | .depth, .scheffer, .and => 4
  | .depth, .scheffer, .or => 2
  | .depth, .scheffer, .impl => 3
  | .depth, .scheffer, .equiv => 7
  | _, _, _ => 1

variable (gauge : Gauge) (b : Basis)

/-- The size or the depth of a formula. -/
def extent : Formula → Nat
  | .atom _ => 1
  | .neg f => 1 + extent f
  | .binary _ l r => 1 + gauge.join (extent l) (extent r)
  | .nor f fs => 1 + (fs.map extent).foldl gauge.join (extent f)

/-- An estimate of the restricted formula, made before it is restricted. A negation counts nothing on
the connective that absorbs it, as that counts as one then. -/
def reach : Formula → Nat
  | .atom _ => 1
  | .neg (.binary op l r) =>
    if b.absorbs op then gauge.join (reach l) (reach r) + 1
    else gauge.join (reach l) (reach r) + gauge.growth b op + 1
  | .neg f => reach f + 1
  | .binary op l r => gauge.join (reach l) (reach r) + gauge.growth b op
  | .nor f fs =>
    if b.allows .nor then (fs.map reach).foldl gauge.join (reach f) + 1
    else (fs.map reach).foldl (fun m n => gauge.join m n + gauge.growth b .or) (reach f) + 1

theorem extent_size (f : Formula) : Gauge.size.extent f = f.size := by
  induction f with
  | atom name => rw [extent, Formula.size]
  | neg f ih => rw [extent, Formula.size, ih]
  | binary op l r ihl ihr => rw [extent, Formula.size, ihl, ihr, join]
  | nor f fs ih ihs => rw [extent, Formula.size, ih, List.map_congr_left ihs, join]

theorem extent_depth (f : Formula) : Gauge.depth.extent f = f.depth := by
  induction f with
  | atom name => rw [extent, Formula.depth]
  | neg f ih => rw [extent, Formula.depth, ih]
  | binary op l r ihl ihr => rw [extent, Formula.depth, ihl, ihr, join]
  | nor f fs ih ihs => rw [extent, Formula.depth, ih, List.map_congr_left ihs, join]

variable {gauge b}

section Tables

variable {op : BinaryOp} {m n m' n' : Nat}

theorem join_le_join (hm : m ≤ m') (hn : n ≤ n') : gauge.join m n ≤ gauge.join m' n' := by
  cases gauge <;> simp only [join] <;> omega

theorem growth_of_allows (allowed : b.allows (.binary op) = true) : gauge.growth b op = 1 := by
  revert allowed
  cases gauge <;> cases b <;> cases op <;> decide

theorem growth_le (gauge : Gauge) (b : Basis) (op : BinaryOp) : gauge.growth b op ≤ 7 := by
  cases gauge <;> cases b <;> cases op <;> decide

end Tables

section Estimate

variable {f g : Formula} {law : Law}

theorem reach_binary (op : BinaryOp) (l r : Formula) : gauge.reach b (.binary op l r) =
    gauge.join (gauge.reach b l) (gauge.reach b r) + gauge.growth b op := by
  rw [reach]

theorem reach_neg_binary (op : BinaryOp) (l r : Formula) :
    gauge.reach b (.neg (.binary op l r)) =
      if b.absorbs op then gauge.join (gauge.reach b l) (gauge.reach b r) + 1
      else gauge.join (gauge.reach b l) (gauge.reach b r) + gauge.growth b op + 1 := by
  rw [reach]

theorem reach_neg (f : Formula) (h : ∀ op l r, f = binary op l r → b.absorbs op = false) :
    gauge.reach b (.neg f) = gauge.reach b f + 1 := by
  cases f with
  | binary op l r => rw [reach_neg_binary, reach_binary, h op l r rfl]; rfl
  | _ => simp [reach]

theorem reach_neg_le (f : Formula) : gauge.reach b (.neg f) ≤ gauge.reach b f + 1 := by
  by_cases h : ∃ op l r, f = binary op l r ∧ b.absorbs op = true
  · obtain ⟨op, l, r, rfl, absorbed⟩ := h
    rw [reach_neg_binary, reach_binary, if_pos absorbed]
    omega
  · exact Nat.le_of_eq (reach_neg f fun op l r hf => by simp_all)

theorem reach_disjunction (f : Formula) (fs : List Formula) :
    gauge.reach b (disjunction f fs) =
      (fs.map (gauge.reach b)).foldl (fun m n => gauge.join m n + gauge.growth b .or)
        (gauge.reach b f) := by
  induction fs generalizing f with
  | nil => rfl
  | cons g gs ih =>
    simp only [disjunction, List.foldl_cons, List.map_cons] at ih ⊢
    rw [ih, disj, reach_binary]

/-- A connective comes to what its replacement comes to. -/
theorem reach_expand_le (op : BinaryOp) (l r : Formula) (forbidden : b.allows (.binary op) = false)
    (once : (Law.expand l r op).1.repeats = true → gauge = .depth) :
    gauge.reach b (Law.expand l r op).2 ≤ gauge.reach b (.binary op l r) := by
  have hl : gauge.reach b (.neg l) ≤ gauge.reach b l + 1 := reach_neg_le l
  have hr : gauge.reach b (.neg r) ≤ gauge.reach b r + 1 := reach_neg_le r
  cases gauge <;> cases op <;> cases b <;> simp only [Basis.allows] at forbidden <;>
    simp [Law.expand, Law.repeats, conj, disj, impl, reach_binary, reach_neg_binary, growth, join,
      Basis.absorbs] at forbidden once hl hr ⊢ <;> omega

theorem reach_absorb_le (once : law.repeats = true → gauge = .depth)
    (absorbed : Law.absorb b f = some (law, g)) : gauge.reach b g ≤ gauge.reach b (.neg f) := by
  unfold Law.absorb at absorbed
  split at absorbed <;> cases absorbed
  · have stays : gauge.growth .scheffer .scheffer = 1 := growth_of_allows (by decide)
    simp [reach_neg_binary, reach_binary, Basis.absorbs, stays]
  · rename_i other
    cases once rfl
    rw [reach_neg f fun op l r h => by cases op <;> simp_all [Basis.absorbs], reach_binary,
      growth_of_allows (by decide), join, Nat.max_self]
  · simp [reach_neg_binary, reach, Basis.absorbs, Basis.allows]
  · rename_i other
    rw [reach_neg f fun op l r h => by cases op <;> simp_all [Basis.absorbs]]
    simp [reach, Basis.allows]

/-- No law raises the estimate, unless it repeats an operand and the gauge counts both. -/
theorem reach_reduce_le (once : law.repeats = true → gauge = .depth)
    (reduced : Law.reduce? b f = some (law, g)) : gauge.reach b g ≤ gauge.reach b f := by
  have forbidden := Law.forbids_of_reduce reduced
  cases f with
  | atom name => cases reduced
  | neg f =>
    rw [Law.reduce?, if_neg (by simp [forbidden])] at reduced
    exact reach_absorb_le once reduced
  | binary op l r =>
    rw [Law.reduce?_binary forbidden, Option.some.injEq] at reduced
    have expanded := reach_expand_le op l r forbidden (by rwa [reduced])
    rwa [reduced] at expanded
  | nor f fs =>
    rw [Law.reduce?_nor forbidden] at reduced
    cases reduced
    have joined : gauge.reach b (.neg (disjunction f fs)) ≤ _ := reach_neg_le (disjunction f fs)
    rw [reach_disjunction] at joined
    rw [kind] at forbidden
    simpa [reach, forbidden] using joined

theorem foldl_join_le {change : Formula → Formula} {fs : List Formula} {m n : Nat} (h : m ≤ n)
    (hs : ∀ g ∈ fs, gauge.extent (change g) ≤ gauge.reach b g) :
    ((fs.map change).map gauge.extent).foldl gauge.join m ≤
      (fs.map (gauge.reach b)).foldl gauge.join n := by
  induction fs generalizing m n with
  | nil => exact h
  | cons g gs ih =>
    obtain ⟨hg, hgs⟩ := List.forall_mem_cons.mp hs
    exact ih (join_le_join h hg) hgs

/-- Above operands that keep to their estimates a connective that stays keeps to its own. -/
theorem extent_mapOperands_le {change : Formula → Formula} (allowed : b.allows f.kind = true)
    (h : ∀ g ∈ f.children, gauge.extent (change g) ≤ gauge.reach b g) :
    gauge.extent (f.mapOperands change) ≤ gauge.reach b f := by
  cases f with
  | atom name => rw [mapOperands, extent, reach]
  | neg f =>
    have hf := h f List.mem_cons_self
    rw [mapOperands, extent, reach_neg f fun op _ _ _ => Basis.absorbs_eq_false allowed op]
    omega
  | binary op l r =>
    have joined : gauge.join _ _ ≤ gauge.join _ _ :=
      join_le_join (h l (by simp [children])) (h r (by simp [children]))
    rw [mapOperands, extent, reach_binary, growth_of_allows allowed]
    omega
  | nor f fs =>
    have joined := foldl_join_le (h f List.mem_cons_self) fun g hg =>
      h g (List.mem_cons_of_mem f hg)
    rw [kind] at allowed
    rw [mapOperands, extent, reach, if_pos allowed]
    omega

/-- Restriction keeps to the estimate. -/
theorem extent_restrict_le (once : ∀ law ∈ f.laws b, law.repeats = true → gauge = .depth) :
    gauge.extent (f.restrict b) ≤ gauge.reach b f := by
  induction f using restrict_induction (b := b) with
  | law f law g reduced ih =>
    rw [laws_of_reduce reduced, List.forall_mem_cons] at once
    rw [restrict_of_reduce reduced]
    exact Nat.le_trans (ih once.2) (reach_reduce_le once.1 reduced)
  | stay f allowed ih =>
    rw [laws_of_allows allowed, List.forall_mem_flatMap] at once
    rw [restrict_of_allows allowed]
    exact extent_mapOperands_le allowed fun g hg => ih g hg (once g hg)

end Estimate

section Bound

variable {measure : Gauge} {f : Formula} {m n m' n' c : Nat}

theorem join_add_six_le (within : gauge = measure ∨ measure = .size) (hm : m + 6 ≤ 7 * m')
    (hn : n + 6 ≤ 7 * n') : gauge.join m n + 6 ≤ 7 * measure.join m' n' := by
  rcases within with rfl | rfl <;> cases gauge <;> simp only [join] <;> omega

/-- In a size two operands leave room for a disjunction between them. -/
theorem join_add_growth_or_add_six_le (hm : m + 6 ≤ 7 * m') (hn : n + 6 ≤ 7 * n') :
    gauge.join m n + gauge.growth b .or + 6 ≤ 7 * Gauge.size.join m' n' := by
  have small : gauge.growth b .or ≤ 6 := by cases gauge <;> cases b <;> decide
  cases gauge <;> simp only [join] <;> omega

theorem foldl_add_six_le (joined : ∀ {m n m' n' : Nat}, m + 6 ≤ 7 * m' → n + 6 ≤ 7 * n' →
      gauge.join m n + c + 6 ≤ 7 * measure.join m' n')
    {fs : List Formula} (h : m + 6 ≤ 7 * m')
    (hs : ∀ g ∈ fs, gauge.reach b g + 6 ≤ 7 * measure.extent g) :
    (fs.map (gauge.reach b)).foldl (fun m n => gauge.join m n + c) m + 6 ≤
      7 * (fs.map measure.extent).foldl measure.join m' := by
  induction fs generalizing m m' with
  | nil => exact h
  | cons g gs ih =>
    obtain ⟨hg, hgs⟩ := List.forall_mem_cons.mp hs
    exact ih (joined h hg) hgs

/-- The estimate stays below seven times the size or the depth of the formula. Only the size has room
for the connectives between the operands of a joint denial that is replaced. -/
theorem reach_add_six_le (within : gauge = measure ∨ measure = .size)
    (replaced : measure = .size ∨ ∀ g ∈ f.parts, g.kind = .nor → b.allows .nor = true) :
    gauge.reach b f + 6 ≤ 7 * measure.extent f := by
  induction f with
  | atom name => rw [reach, extent]
  | neg f ih =>
    have operands := replaced.imp_right fun h => (forall_mem_parts.mp h).2
    have hf := ih (operands.imp_right fun h => h f List.mem_cons_self)
    have step : gauge.reach b (.neg f) ≤ gauge.reach b f + 1 := reach_neg_le f
    rw [extent]
    omega
  | binary op l r ihl ihr =>
    have operands := replaced.imp_right fun h => (forall_mem_parts.mp h).2
    have hl := ihl (operands.imp_right fun h => h l (by simp [children]))
    have hr := ihr (operands.imp_right fun h => h r (by simp [children]))
    have joined := join_add_six_le within hl hr
    have added := growth_le gauge b op
    rw [reach_binary, extent]
    omega
  | nor f fs ih ihs =>
    have operands := replaced.imp_right fun h => (forall_mem_parts.mp h).2
    have hf := ih (operands.imp_right fun h => h f List.mem_cons_self)
    have hfs := fun g hg => ihs g hg (operands.imp_right fun h => h g (List.mem_cons_of_mem f hg))
    rw [reach, extent]
    split
    · have joined : (fs.map (gauge.reach b)).foldl gauge.join (gauge.reach b f) + 6 ≤
          7 * (fs.map measure.extent).foldl measure.join (measure.extent f) :=
        foldl_add_six_le (c := 0) (join_add_six_le within) hf hfs
      omega
    · rename_i forbidden
      have isSize : measure = .size :=
        replaced.resolve_right fun h => forbidden ((forall_mem_parts.mp h).1 rfl)
      subst isSize
      have joined := foldl_add_six_le (join_add_growth_or_add_six_le (b := b)) hf hfs
      omega

end Bound

end Gauge

namespace Formula

variable {b : Basis} {f : Formula} {law : Law}

theorem eq_scheffer_of_mem_laws (applied : .negToScheffer ∈ f.laws b) : b = .scheffer := by
  obtain ⟨g, g', reduced⟩ := exists_reduce_of_mem_laws applied
  have forbidden := Law.forbids_of_reduce reduced
  obtain ⟨operand⟩ := Law.turns_of_reduce reduced
  rw [Law.reduce?, if_neg (by simp [forbidden])] at reduced
  unfold Law.absorb at reduced
  split at reduced <;> cases reduced
  rfl

/-- Without equivalences only the basis of the Scheffer stroke takes operands twice. -/
theorem repeats_eq_false_of_mem_laws (notScheffer : b ≠ .scheffer)
    (noEquiv : ∀ g ∈ f.parts, g.kind ≠ .binary .equiv) :
    ∀ law ∈ f.laws b, law.repeats = false := by
  intro law applied
  cases law with
  | equivToImpls =>
    have needed := (mem_laws_iff_sources (.inr (by decide)) (by decide)).mp applied
    rcases needed.1 with ⟨source, isSource, g, hg, rfl⟩ | ⟨isOr, _⟩
    · have isEquiv : g.kind = .binary .equiv := by
        simpa [Law.removes, Kind.sources, Kind.all, BinaryOp.all, Kind.route] using isSource
      exact absurd isEquiv (noEquiv g hg)
    · cases isOr
  | negToScheffer => exact absurd (eq_scheffer_of_mem_laws applied) notScheffer
  | _ => rfl

theorem size_restrict_le (once : ∀ law ∈ f.laws b, law.repeats = false) :
    (f.restrict b).size ≤ 7 * f.size := by
  have kept : Gauge.size.extent (f.restrict b) ≤ Gauge.size.reach b f :=
    Gauge.extent_restrict_le fun law applied twice => by simp [once law applied] at twice
  have bounded : Gauge.size.reach b f + 6 ≤ 7 * Gauge.size.extent f :=
    Gauge.reach_add_six_le (.inl rfl) (.inl rfl)
  rw [Gauge.extent_size] at kept bounded
  omega

theorem depth_restrict_le_size (b : Basis) (f : Formula) : (f.restrict b).depth ≤ 7 * f.size := by
  have kept : Gauge.depth.extent (f.restrict b) ≤ Gauge.depth.reach b f :=
    Gauge.extent_restrict_le fun _ _ _ => rfl
  have bounded : Gauge.depth.reach b f + 6 ≤ 7 * Gauge.size.extent f :=
    Gauge.reach_add_six_le (.inr rfl) (.inl rfl)
  rw [Gauge.extent_depth] at kept
  rw [Gauge.extent_size] at bounded
  omega

theorem depth_restrict_le (stay : ∀ g ∈ f.parts, g.kind = .nor → b.allows .nor = true) :
    (f.restrict b).depth ≤ 7 * f.depth := by
  have kept : Gauge.depth.extent (f.restrict b) ≤ Gauge.depth.reach b f :=
    Gauge.extent_restrict_le fun _ _ _ => rfl
  have bounded : Gauge.depth.reach b f + 6 ≤ 7 * Gauge.depth.extent f :=
    Gauge.reach_add_six_le (.inl rfl) (.inr stay)
  rw [Gauge.extent_depth] at kept bounded
  omega

/-- **Restriction makes a formula larger by a constant factor.** Without equivalences, in every basis
but that of the Scheffer stroke, a formula keeps its atoms as they stand from left to right and becomes
at most seven times as large. In all cases the depth is at most seven times the size, and even seven
times the depth if no joint denial has to be replaced. -/
theorem restrict_grows_linearly (b : Basis) (f : Formula) :
    (b ≠ .scheffer → (∀ g ∈ f.parts, g.kind ≠ .binary .equiv) →
        (f.restrict b).leaves = f.leaves ∧ (f.restrict b).size ≤ 7 * f.size) ∧
      (f.restrict b).depth ≤ 7 * f.size ∧
      ((∀ g ∈ f.parts, g.kind ≠ .nor) ∨ b = .nor → (f.restrict b).depth ≤ 7 * f.depth) := by
  refine ⟨fun notScheffer noEquiv => ?_, depth_restrict_le_size b f, fun noNor => ?_⟩
  · have once := repeats_eq_false_of_mem_laws notScheffer noEquiv
    exact ⟨leaves_restrict once, size_restrict_le once⟩
  · apply depth_restrict_le
    intro g hg isNor
    rcases noNor with noNor | rfl
    · exact absurd isNor (noNor g hg)
    · rfl

/-- An implication comes to seven connectives in the basis of joint denial, and an equivalence to seven
levels, with its operands twice. -/
theorem restrict_grows_linearly_nor :
    let a := atom "a"
    let b := atom "b"
    let f := impl a b
    let g := binary .equiv a b
    (Basis.nor ≠ .scheffer ∧ (∀ h ∈ f.parts, h.kind ≠ .binary .equiv) ∧
      (f.restrict .nor).leaves = ["a", "b"] ∧ (f.restrict .nor).size = 9 ∧ 9 ≤ 7 * f.size) ∧
    (∀ h ∈ g.parts, h.kind ≠ .nor) ∧
      (g.restrict .nor).leaves = ["a", "b", "b", "a"] ∧ (g.restrict .nor).depth = 8 ∧
      8 ≤ 7 * g.depth := by
  intro a b f g
  have notScheffer : Basis.nor ≠ .scheffer := by decide
  have noEquiv : ∀ h ∈ f.parts, h.kind ≠ .binary .equiv := by
    simp [f, a, b, impl, parts, kind]
  have noNor : ∀ h ∈ g.parts, h.kind ≠ .nor := by
    simp [g, a, b, parts, kind]
  have size : (f.restrict .nor).size = 9 := by cbv
  have depth : (g.restrict .nor).depth = 8 := by cbv
  have twice : (g.restrict .nor).leaves = ["a", "b", "b", "a"] := by cbv
  obtain ⟨grows, _⟩ := restrict_grows_linearly .nor f
  obtain ⟨_, _, deepens⟩ := restrict_grows_linearly .nor g
  obtain ⟨leaves, bounded⟩ := grows notScheffer noEquiv
  have inOrder : f.leaves = ["a", "b"] := by cbv
  exact ⟨⟨notScheffer, noEquiv, leaves.trans inOrder, size, size ▸ bounded⟩, noNor, twice, depth,
    depth ▸ deepens (.inl noNor)⟩

/-- The operands of a joint denial that is replaced come to lie below each other, so the depth of the
formula alone bounds nothing. -/
example : let a := atom "a"
    let f := nor a [a, a, a, a, a]
    f.depth = 2 ∧ (f.restrict .noOr).depth = 17 := by
  cbv

end Formula

end Propositional
