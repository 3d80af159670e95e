import Mathlib.Data.List.Forall2
import Propositional.Proofs.Grammar.Unknown
import Propositional.Proofs.Grammar.Viable

/-!
# The reader sees kinds and names

Tokens are alike when they have the same kind and, if they are identifiers, the same spelling. Alike
tokens take the reader to the same state, or it refuses both. So over two lists of tokens that are
alike place by place the reader runs in step: it reads the same formula, or it fails at the same place
and expects the same (`corresponds_of_alike`). Only what an error repeats of a token can differ.
-/

namespace Propositional

/-- The same token for the reader, whatever the offsets and the spellings of the symbols. -/
structure Token.Alike (t u : Token) : Prop where
  kind_eq : t.kind = u.kind
  spelling_eq : t.kind = .ident → t.spelling = u.spelling

/-- The same formula, or errors of the same variant with the same kind expected, both about the end
or about the tokens at one place, which are the first wrong ones. -/
inductive Corresponds (ts us : List Token) (textEnd textEnd' : Nat) :
    Except ParseError Formula → Except ParseError Formula → Prop
  | formula (f : Formula) : Corresponds ts us textEnd textEnd' (.ok f) (.ok f)
  | unexpectedToken {before before' : List Token} {t u : Token} (expected : TokenKind) :
      before.length = before'.length → FirstWrong ts before t → FirstWrong us before' u →
      Corresponds ts us textEnd textEnd'
        (.error (.unexpectedToken t.offset expected t.spelling))
        (.error (.unexpectedToken u.offset expected u.spelling))
  | trailingInput {before before' : List Token} {t u : Token} :
      before.length = before'.length → FirstWrong ts before t → FirstWrong us before' u →
      Corresponds ts us textEnd textEnd'
        (.error (.trailingInput t.offset t.spelling))
        (.error (.trailingInput u.offset u.spelling))
  | unexpectedEnd (expected : TokenKind) :
      Corresponds ts us textEnd textEnd'
        (.error (.unexpectedEnd textEnd expected)) (.error (.unexpectedEnd textEnd' expected))

variable {ts us : List Token} {t u : Token} {textEnd textEnd' : Nat}

namespace Token.Alike

theorem symm (h : t.Alike u) : u.Alike t :=
  ⟨h.kind_eq.symm, fun isIdent => (h.spelling_eq (h.kind_eq.trans isIdent)).symm⟩

theorem forall₂_symm (h : List.Forall₂ Token.Alike ts us) : List.Forall₂ Token.Alike us ts :=
  (h.imp fun _ _ => symm).flip

theorem known_of_forall₂ (alike : List.Forall₂ Token.Alike ts us)
    (known : ∀ t ∈ ts, t.kind ≠ .unknown) : ∀ u ∈ us, u.kind ≠ .unknown := by
  induction alike with
  | nil => simp
  | cons here _ ih =>
    obtain ⟨first, rest⟩ := List.forall_mem_cons.mp known
    exact List.forall_mem_cons.mpr ⟨here.kind_eq ▸ first, ih rest⟩

end Token.Alike

open Token.Alike

namespace Reader

variable {s s' : State} {e : ParseError}

theorem Steps.of_alike (h : Steps s t s') (alike : t.Alike u) : Steps s u s' := by
  obtain ⟨kind_eq, spelling_eq⟩ := alike
  cases h with
  | not kind => exact .not (kind_eq ▸ kind)
  | openParen kind => exact .openParen (kind_eq ▸ kind)
  | ident kind =>
    rw [spelling_eq kind]
    exact .ident (kind_eq ▸ kind)
  | openNor kind => exact .openNor (kind_eq ▸ kind)
  | binary kind => exact .binary (kind_eq ▸ kind)
  | comma kind => exact .comma (kind_eq ▸ kind)
  | closeParen kind => exact .closeParen (kind_eq ▸ kind)
  | closeNor kind => exact .closeNor (kind_eq ▸ kind)

theorem Reads.of_alike (h : Reads s ts s') (alike : List.Forall₂ Token.Alike ts us) :
    Reads s us s' := by
  induction h generalizing us with
  | nil =>
    cases alike
    exact .nil _
  | cons first _ ih =>
    obtain _ | ⟨here, behind⟩ := alike
    exact .cons (first.of_alike here) (ih behind)

theorem refused_of_alike (h : step s t = .error e) (alike : t.Alike u) :
    ∃ e', step s u = .error e' := by
  cases next : step s u with
  | error e' => exact ⟨e', rfl⟩
  | ok s' =>
    have goesOn := (step_eq_ok_iff.mp next).of_alike alike.symm
    rw [step_eq_ok_iff.mpr goesOn] at h
    cases h

/-- At the same place the reader refuses both tokens for the same reason. -/
theorem corresponds_of_refused {before before' : List Token} {e' : ParseError}
    (h : step s t = .error e) (h' : step s u = .error e') (same : before.length = before'.length)
    (first : FirstWrong ts before t) (first' : FirstWrong us before' u) :
    Corresponds ts us textEnd textEnd' (.error e) (.error e') := by
  rcases step_eq_error h with
    ⟨group, around, rfl, rfl⟩ | ⟨operand, isKeyword, group, around, rfl, rfl⟩
  · obtain ⟨_, _, _, rfl⟩ | ⟨_, _, _, _, stands, _⟩ := step_eq_error h'
    · exact .unexpectedToken .ident same first first'
    · cases stands
  · obtain ⟨_, _, stands, _⟩ | ⟨_, _, _, around', stands, rfl⟩ := step_eq_error h'
    · cases stands
    · cases stands
      cases around with
      | nil => exact .trailingInput same first first'
      | cons => exact .unexpectedToken .rightParen same first first'

theorem corresponds_finish (ts us : List Token) (textEnd textEnd' : Nat) (s : State) :
    Corresponds ts us textEnd textEnd' (finish textEnd s) (finish textEnd' s) := by
  match s with
  | .beforeOperand group around => exact .unexpectedEnd .ident
  | .afterOperand operand isKeyword group [] => exact .formula (group.close operand)
  | .afterOperand operand isKeyword group (_ :: _) => exact .unexpectedEnd .rightParen

end Reader

open Reader

/-- Alike tokens are read as the same formula or fail at the same place. -/
theorem corresponds_of_alike (alike : List.Forall₂ Token.Alike ts us) (textEnd textEnd' : Nat) :
    Corresponds ts us textEnd textEnd' (Formula.ofTokens ts textEnd)
      (Formula.ofTokens us textEnd') := by
  unfold Formula.ofTokens
  cases read : ts.foldlM step start with
  | ok s =>
    have reads := foldlM_step_eq_ok_iff.mp read
    rw [foldlM_step_eq_ok_iff.mpr (reads.of_alike alike)]
    exact corresponds_finish ts us textEnd textEnd' s
  | error e =>
    obtain ⟨before, t, after, s, rfl, reads, refused⟩ := foldlM_step_eq_error read
    -- The tokens at the same places of the other list lead to the same state and are refused there.
    have mirrored := forall₂_symm alike
    have front := forall₂_symm (List.forall₂_take_append us before (t :: after) mirrored)
    have back := List.forall₂_drop_append us before (t :: after) mirrored
    obtain ⟨u, after', here, _, rest⟩ := List.forall₂_cons_right_iff.mp back
    have split : us = us.take before.length ++ u :: after' := by
      rw [← rest, List.take_append_drop]
    have reads' := reads.of_alike front
    obtain ⟨e', refused'⟩ := refused_of_alike refused here.symm
    have read' : us.foldlM step start = .error e' := by
      rw [split, List.foldlM_append, foldlM_step_eq_ok_iff.mpr reads']
      change List.foldlM step s (u :: after') = _
      rw [List.foldlM_cons, refused']
      rfl
    have first' := firstWrong_of_refused reads' refused' after'
    rw [← split] at first'
    rw [read']
    exact corresponds_of_refused refused refused' front.length_eq
      (firstWrong_of_refused reads refused after) first'

/-- A formula that is read from tokens is read from all that are alike. -/
theorem ofTokens_of_alike {f : Formula} (alike : List.Forall₂ Token.Alike ts us)
    (h : Formula.ofTokens ts textEnd = .ok f) (textEnd' : Nat) :
    Formula.ofTokens us textEnd' = .ok f := by
  have corresponds := corresponds_of_alike alike textEnd textEnd'
  rw [h] at corresponds
  generalize Formula.ofTokens us textEnd' = outcome at corresponds ⊢
  cases corresponds
  rfl

/-- Texts with alike tokens are read as the same formula. -/
theorem Formula.parse_eq_ok_iff_of_alike {text text' : String}
    (alike : List.Forall₂ Token.Alike (segment text) (segment text')) (f : Formula) :
    parse text = .ok f ↔ parse text' = .ok f := by
  rw [parse_eq_ok_iff_parseSegments, parse_eq_ok_iff_parseSegments]
  exact ⟨fun h => ofTokens_of_alike alike h _,
    fun h => ofTokens_of_alike (forall₂_symm alike) h _⟩

end Propositional
