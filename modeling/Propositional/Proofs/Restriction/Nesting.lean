import Mathlib.Data.List.Chain
import Propositional.Proofs.Restriction.Recursion

/-!
# How deep the calls of restriction are nested

A law gives a larger formula, and in the bases with a single connective conjunction and disjunction go
through each other, so neither the size nor the depth of the formula says when restriction ends. The
weight does: it goes down from every call to those nested in it, and it stays below twenty times the
size (`weight_add_five_le`).

`restrictWithin` is the same recursion with a bound on the nesting. It gives the restricted formula
exactly if no calls are nested more deeply than that (`restrictWithin_eq_some_iff`).
-/

namespace Propositional

namespace Basis

theorem negWeight_le (b : Basis) : b.negWeight ≤ 2 := by
  cases b <;> decide

theorem opWeight_le (b : Basis) (op : BinaryOp) : b.opWeight op ≤ 19 := by
  cases b <;> cases op <;> decide

/-- Only the basis of joint denial has a heavier disjunction, and there it replaces nothing. -/
theorem opWeight_or_le {b : Basis} (h : b.allows .nor = false) : b.opWeight .or ≤ 5 := by
  cases b <;> simp_all [allows, opWeight]

end Basis

namespace Formula

section Weight

variable {b : Basis}

theorem weight_pos (b : Basis) (f : Formula) : 0 < f.weight b := by
  cases f with
  | atom name => rw [weight]; omega
  | neg f =>
    have := b.negWeight_pos
    cases f with
    | binary op l r => rw [weight_neg_binary]; split <;> omega
    | _ => rw [weight_neg _ fun op l r h => by cases h]; omega
  | binary op l r =>
    have := b.opWeight_pos op
    rw [weight_binary]
    omega
  | nor f fs => rw [weight]; split <;> omega

/-- Joined one after the other, formulas stay within the bound if the connective between them adds
no more than 5. That is the room which each of them leaves. -/
theorem foldl_weight_add_five_le {c : Nat} (hc : c ≤ 5) (fs : List Formula) {w s : Nat}
    (hw : w + 5 ≤ 20 * s) (hfs : ∀ g ∈ fs, g.weight b + 5 ≤ 20 * g.size) :
    (fs.map (weight b)).foldl (fun w v => max w v + c) w + 5
      ≤ 20 * (fs.map size).foldl (· + ·) s := by
  induction fs generalizing w s with
  | nil => exact hw
  | cons g gs ih =>
    obtain ⟨hg, hgs⟩ := List.forall_mem_cons.mp hfs
    rw [List.map_cons, List.map_cons, List.foldl_cons, List.foldl_cons]
    apply ih _ hgs
    omega

/-- The weight of a formula is less than twenty times its size. -/
theorem weight_add_five_le (b : Basis) (f : Formula) : f.weight b + 5 ≤ 20 * f.size := by
  induction f with
  | atom name => rw [weight, size]; omega
  | neg f ih =>
    have := weight_neg_le (b := b) f
    have := b.negWeight_le
    rw [size]
    omega
  | binary op l r ihl ihr =>
    have := b.opWeight_le op
    rw [weight_binary, size]
    omega
  | nor f fs ih ihs =>
    rw [weight, size]
    split
    · have joined : (fs.map (weight b)).foldl max (f.weight b) + 5
          ≤ 20 * (fs.map size).foldl (· + ·) f.size :=
        foldl_weight_add_five_le (Nat.zero_le 5) fs ih ihs
      omega
    · rename_i forbidden
      have hor : b.opWeight .or ≤ 5 := Basis.opWeight_or_le (by simpa using forbidden)
      have := foldl_weight_add_five_le hor fs ih ihs
      have := b.negWeight_le
      omega

end Weight

section Fuel

/-- As `mapOperands`, with a change that may give nothing. -/
def mapOperands? (change : Formula → Option Formula) : Formula → Option Formula
  | .atom name => some (.atom name)
  | .neg f => do
    let operand ← change f
    return .neg operand
  | .binary op l r => do
    let left ← change l
    let right ← change r
    return .binary op left right
  | .nor f fs => do
    let first ← change f
    let rest ← fs.mapM change
    return .nor first rest

/-- Restriction with at most `fuel` calls nested inside each other. -/
def restrictWithin (b : Basis) : Nat → Formula → Option Formula
  | 0, _ => none
  | fuel + 1, f =>
    match Law.reduce? b f with
    | some (_, g) => restrictWithin b fuel g
    | none => f.mapOperands? (restrictWithin b fuel)

variable {b : Basis} {f g : Formula} {fs : List Formula} {change : Formula → Formula}
  {change? : Formula → Option Formula}

theorem mapM_eq_some (h : ∀ g ∈ fs, change? g = some (change g)) :
    fs.mapM change? = some (fs.map change) := by
  induction fs with
  | nil => rfl
  | cons g gs ih =>
    obtain ⟨hg, hgs⟩ := List.forall_mem_cons.mp h
    rw [List.mapM_cons, hg, ih hgs]
    rfl

theorem isSome_of_mapM (h : (fs.mapM change?).isSome) : ∀ g ∈ fs, (change? g).isSome := by
  induction fs with
  | nil => simp
  | cons g gs ih =>
    rw [List.mapM_cons] at h
    cases hg : change? g with
    | none => simp [hg] at h
    | some g' =>
      cases hgs : gs.mapM change? with
      | none => simp [hg, hgs] at h
      | some gs' =>
        rw [List.forall_mem_cons, hg]
        exact ⟨rfl, ih (by rw [hgs]; rfl)⟩

theorem mapOperands?_eq_some (h : ∀ g ∈ f.children, change? g = some (change g)) :
    f.mapOperands? change? = some (f.mapOperands change) := by
  cases f with
  | atom name => rfl
  | neg f => simp [mapOperands?, mapOperands, h f List.mem_cons_self]
  | binary op l r =>
    have hl := h l (by simp [children])
    have hr := h r (by simp [children])
    simp [mapOperands?, mapOperands, hl, hr]
  | nor f fs =>
    have hf := h f List.mem_cons_self
    have hfs := mapM_eq_some fun g hg => h g (List.mem_cons_of_mem f hg)
    simp [mapOperands?, mapOperands, hf, hfs]

theorem isSome_of_mapOperands? (h : (f.mapOperands? change?).isSome) :
    ∀ g ∈ f.children, (change? g).isSome := by
  cases f with
  | atom name => simp [children]
  | neg f =>
    cases hf : change? f <;> simp_all [mapOperands?, children]
  | binary op l r =>
    cases hl : change? l <;> cases hr : change? r <;> simp_all [mapOperands?, children]
  | nor f fs =>
    cases hf : change? f with
    | none => simp [mapOperands?, hf] at h
    | some f' =>
      cases hfs : fs.mapM change? with
      | none => simp [mapOperands?, hf, hfs] at h
      | some fs' =>
        rw [children, List.forall_mem_cons, hf]
        exact ⟨rfl, isSome_of_mapM (by rw [hfs]; rfl)⟩

theorem restrictWithin_of_reduce {law : Law} (h : Law.reduce? b f = some (law, g)) (fuel : Nat) :
    restrictWithin b (fuel + 1) f = restrictWithin b fuel g := by
  rw [restrictWithin, h]

theorem restrictWithin_of_none (h : Law.reduce? b f = none) (fuel : Nat) :
    restrictWithin b (fuel + 1) f = f.mapOperands? (restrictWithin b fuel) := by
  rw [restrictWithin, h]

/-- A call that comes to its end leaves less fuel to the calls in it, and they end as well. -/
theorem Calls.isSome (h : Calls b f g) {fuel : Nat} (ends : (restrictWithin b (fuel + 1) f).isSome) :
    (restrictWithin b fuel g).isSome := by
  cases h with
  | law reduced => rwa [restrictWithin_of_reduce reduced] at ends
  | operand irreducible child =>
    rw [restrictWithin_of_none irreducible] at ends
    exact isSome_of_mapOperands? ends g child

theorem restrictWithin_eq_some {fuel : Nat}
    (h : ∀ nested, List.IsChain (Calls b) (f :: nested) → (f :: nested).length ≤ fuel) :
    restrictWithin b fuel f = some (f.restrict b) := by
  induction fuel generalizing f with
  | zero =>
    have := h [] (List.isChain_singleton f)
    simp at this
  | succ fuel ih =>
    -- What is nested in a call that this one makes is nested in this one too.
    have shorter {g : Formula} (call : Calls b f g) (nested : List Formula)
        (chain : List.IsChain (Calls b) (g :: nested)) : (g :: nested).length ≤ fuel := by
      have := h (g :: nested) (List.isChain_cons_cons.mpr ⟨call, chain⟩)
      rw [List.length_cons] at this
      omega
    cases reduced : Law.reduce? b f with
    | some next =>
      rw [restrictWithin_of_reduce reduced, restrict_of_reduce reduced]
      exact ih (shorter (.law reduced))
    | none =>
      have allowed := Law.reduce?_eq_none_iff.mp reduced
      rw [restrictWithin_of_none reduced, restrict_of_allows allowed]
      apply mapOperands?_eq_some
      intro g hg
      exact ih (shorter (.operand reduced hg))

theorem length_le_of_restrictWithin {fuel : Nat} (h : (restrictWithin b fuel f).isSome)
    {nested : List Formula} (chain : List.IsChain (Calls b) (f :: nested)) :
    (f :: nested).length ≤ fuel := by
  induction fuel generalizing f nested with
  | zero => cases h
  | succ fuel ih =>
    cases nested with
    | nil => simp
    | cons g nested =>
      obtain ⟨call, rest⟩ := List.isChain_cons_cons.mp chain
      have := ih (call.isSome h) rest
      rw [List.length_cons]
      omega

/-- The fuel that a formula needs is the number of calls nested inside each other. -/
theorem restrictWithin_eq_some_iff {fuel : Nat} :
    restrictWithin b fuel f = some (f.restrict b) ↔
      ∀ nested, List.IsChain (Calls b) (f :: nested) → (f :: nested).length ≤ fuel := by
  refine ⟨fun h nested chain => ?_, restrictWithin_eq_some⟩
  exact length_le_of_restrictWithin (by rw [h]; rfl) chain

/-- The weight counts the calls that can be nested inside each other. -/
theorem length_le_weight {nested : List Formula} (chain : List.IsChain (Calls b) (f :: nested)) :
    (f :: nested).length ≤ f.weight b := by
  induction nested generalizing f with
  | nil => exact weight_pos b f
  | cons g nested ih =>
    obtain ⟨call, rest⟩ := List.isChain_cons_cons.mp chain
    have := ih rest
    have := call.weight_lt
    rw [List.length_cons]
    omega

/-- **Restriction comes to an end.** Never more than twenty times as many calls are nested inside
each other as the formula has atoms and connectives, so the recursion gives its result with that
much fuel, or any more. -/
theorem restrict_nests_boundedly (b : Basis) (f : Formula) :
    (∀ nested, List.IsChain (Calls b) (f :: nested) → (f :: nested).length ≤ 20 * f.size) ∧
      ∀ fuel, 20 * f.size ≤ fuel → restrictWithin b fuel f = some (f.restrict b) := by
  have bounded (nested : List Formula) (chain : List.IsChain (Calls b) (f :: nested)) :
      (f :: nested).length ≤ 20 * f.size := by
    have := length_le_weight chain
    have := weight_add_five_le b f
    omega
  refine ⟨bounded, fun fuel enough => restrictWithin_eq_some_iff.mpr ?_⟩
  intro nested chain
  exact Nat.le_trans (bounded nested chain) enough

/-- An equivalence in the basis of joint denial, down to a negation that was not in the formula. -/
theorem restrict_nests_boundedly_equiv :
    let a := atom "a"
    let b := atom "b"
    let f := binary .equiv a b
    let nested := [conj (impl a b) (impl b a), neg (disj (neg (impl a b)) (neg (impl b a))),
      nor (neg (impl a b)) [neg (impl b a)], neg (impl b a)]
    List.IsChain (Calls .nor) (f :: nested) ∧ (f :: nested).length ≤ 20 * f.size ∧
      20 * f.size ≤ 60 ∧ restrictWithin .nor 60 f = some (f.restrict .nor) := by
  intro a b f nested
  obtain ⟨bounded, ends⟩ := restrict_nests_boundedly .nor f
  have operand : neg (impl b a) ∈ (nor (neg (impl a b)) [neg (impl b a)]).children := by
    simp [children]
  have chain : List.IsChain (Calls .nor) (f :: nested) :=
    .cons_cons (.law rfl) (.cons_cons (.law rfl) (.cons_cons (.law rfl)
      (.cons_cons (.operand rfl operand) (.singleton _))))
  have enough : 20 * f.size ≤ 60 := by simp [f, a, b, size]
  exact ⟨chain, bounded nested chain, enough, ends 60 enough⟩

end Fuel

end Formula

end Propositional
