import Propositional.Proofs.Lexing.Segmentation
import Propositional.Proofs.Lexing.Strict

/-!
# Seams between texts

The tokens of two texts joined are those of the first and, moved behind it, those of the second, if
no token reaches over the seam (`scanAll_append_of_parted`). None does before a blank, since a blank
belongs to no token. None does either if all tokens of the first text are known and the second does
not go on with letters or digits (`scanAll_append_of_known`).

Where a text begins moves its tokens and changes nothing else.
-/

namespace Propositional

namespace Token

/-- The token when the text before it grows by so many bytes. -/
def shift (bytes : Nat) (token : Token) : Token :=
  { token with offset := token.offset + bytes }

/-- What is left of a token without its place. -/
def word (token : Token) : TokenKind × String :=
  (token.kind, token.spelling)

@[simp] theorem word_shift (bytes : Nat) (token : Token) : (token.shift bytes).word = token.word :=
  rfl

end Token

/-- The offset lies inside none of the tokens. -/
def Parted (ts : List Token) (seam : Nat) : Prop :=
  ∀ t ∈ ts, t.stop ≤ seam ∨ seam ≤ t.offset

theorem scanAll_add (start bytes : Nat) (text : List Char) :
    scanAll (start + bytes) text = (scanAll start text).map (Token.shift bytes) := by
  fun_induction scanAll start text with
  | case1 => rw [scanAll, List.map_nil]
  | case2 start c rest blank ih => rw [scanAll_of_blank blank, Nat.add_right_comm, ih]
  | case3 start c rest notBlank none ih =>
    rw [scanAll_of_none (by simpa using notBlank) none, Nat.add_right_comm, ih, List.map_cons]
    rfl
  | case4 start c rest notBlank lexeme reads ih =>
    rw [scanAll_of_lexeme (by simpa using notBlank) reads, Nat.add_right_comm, ih, List.map_cons]
    rfl

theorem map_word_scanAll (start start' : Nat) (text : List Char) :
    (scanAll start text).map Token.word = (scanAll start' text).map Token.word := by
  have moved (start : Nat) :
      (scanAll start text).map Token.word = (scanAll 0 text).map Token.word := by
    have shifted := scanAll_add 0 start text
    rw [Nat.zero_add] at shifted
    rw [shifted, List.map_map]
    rfl
  rw [moved start, moved start']

theorem scanAll_blanks {blanks : List Char} (blank : ∀ c ∈ blanks, isBlank c = true) (start : Nat)
    (text : List Char) : scanAll start (blanks ++ text) = scanAll (start + width blanks) text := by
  induction blanks generalizing start with
  | nil => rfl
  | cons c blanks ih =>
    obtain ⟨first, rest⟩ := List.forall_mem_cons.mp blank
    rw [List.cons_append, scanAll_of_blank first, ih rest, width, Nat.add_assoc]

section Joined

variable {start : Nat} {c : Char} {x y behind : List Char} {token : Token} {ts : List Token}

theorem ends_append_iff : Ends (x ++ y) ↔ Ends x ∧ (x = [] → Ends y) := by
  cases x <;> simp [Ends]

namespace Token

theorem Fits.of_append (h : token.Fits (behind ++ y)) : token.Fits behind := by
  refine ⟨h.spells, fun isIdent => (ends_append_iff.mp (h.ends isIdent)).1, fun isUnknown => ?_⟩
  obtain ⟨c, spelled, noToken⟩ := h.unknown isUnknown
  refine ⟨c, spelled, ?_⟩
  rintro ⟨kind, s, spells, starts⟩
  exact noToken ⟨kind, s, spells, starts.trans (List.prefix_append (c :: behind) y)⟩

theorem Fits.append (h : token.Fits behind) (known : token.kind ≠ .unknown) (ends : Ends y) :
    token.Fits (behind ++ y) :=
  ⟨h.spells, fun isIdent => ends_append_iff.mpr ⟨h.ends isIdent, fun _ => ends⟩,
    fun isUnknown => absurd isUnknown known⟩

/-- The first token of the text is the first of both, if it fits in both. -/
theorem Fits.scanAll_append (fits : token.Fits behind) (fits' : token.Fits (behind ++ y))
    (split : c :: x = token.spelling.toList ++ behind) (notBlank : isBlank c = false)
    (ih : scanAll token.stop (behind ++ y) =
      scanAll token.stop behind ++ scanAll (token.stop + width behind) y) :
    scanAll token.offset (c :: x ++ y) =
      scanAll token.offset (c :: x) ++ scanAll (token.offset + width (c :: x)) y := by
  have joined : c :: (x ++ y) = token.spelling.toList ++ (behind ++ y) := by
    rw [← List.append_assoc, ← split, List.cons_append]
  have total : token.offset + width (c :: x) = token.stop + width behind := by
    rw [split, width_append, stop, Nat.add_assoc]
  rw [List.cons_append, fits'.scanAll_eq joined notBlank, fits.scanAll_eq split notBlank, ih, total,
    List.cons_append]

theorem Fits.length_lt (fits : token.Fits behind) (split : x = token.spelling.toList ++ behind) :
    behind.length < x.length := by
  have := List.length_pos_iff.mpr fits.spelling_ne_nil
  rw [split, List.length_append]
  omega

end Token

theorem scanAll_append_of_parted (h : Parted (scanAll start (x ++ y)) (start + width x)) :
    scanAll start (x ++ y) = scanAll start x ++ scanAll (start + width x) y := by
  induction size : x.length using Nat.strongRecOn generalizing start x with
  | ind size' ih =>
    subst size
    cases x with
    | nil => rw [scanAll]; rfl
    | cons c x =>
      cases blank : isBlank c with
      | true =>
        rw [width, ← Nat.add_assoc, List.cons_append, scanAll_of_blank blank] at h ⊢
        rw [scanAll_of_blank blank]
        exact ih x.length (Nat.lt_succ_self _) h rfl
      | false =>
        obtain ⟨token, ts, behind, scanned, rfl, split, fits⟩ :=
          (segments_scanAll start (c :: x ++ y)).exists_first blank
        have split : c :: (x ++ y) = token.spelling.toList ++ behind := split
        rw [List.cons_append, fits.scanAll_eq split blank, Parted, List.forall_mem_cons] at h
        -- The first token begins before the seam, so it ends there too.
        have within : width token.spelling.toList ≤ width (c :: x) := by
          have := width_pos (List.cons_ne_nil c x)
          have parted := h.1
          rw [Token.stop] at parted
          omega
        obtain ⟨middle, split', rfl⟩ := exists_append_of_width_le split.symm within
        have total : token.offset + width (c :: x) = token.stop + width middle := by
          rw [split', width_append, Token.stop, Nat.add_assoc]
        exact fits.of_append.scanAll_append fits split' blank
          (ih middle.length (fits.of_append.length_lt split') (total ▸ h.2) rfl)

theorem scanAll_append_of_known (known : ∀ t ∈ scanAll start x, t.kind ≠ .unknown) (ends : Ends y) :
    scanAll start (x ++ y) = scanAll start x ++ scanAll (start + width x) y := by
  induction size : x.length using Nat.strongRecOn generalizing start x with
  | ind size' ih =>
    subst size
    cases x with
    | nil => rw [scanAll]; rfl
    | cons c x =>
      cases blank : isBlank c with
      | true =>
        rw [width, ← Nat.add_assoc, List.cons_append, scanAll_of_blank blank,
          scanAll_of_blank blank]
        rw [scanAll_of_blank blank] at known
        exact ih x.length (Nat.lt_succ_self _) known rfl
      | false =>
        obtain ⟨token, ts, behind, scanned, rfl, split, fits⟩ :=
          (segments_scanAll start (c :: x)).exists_first blank
        have tail := fits.scanAll_eq split blank
        rw [tail, List.forall_mem_cons] at known
        exact fits.scanAll_append (fits.append known.1 ends) split blank
          (ih behind.length (fits.length_lt split) known.2 rfl)

/-- No token reaches over a blank. -/
theorem Segments.parted_of_blank (h : Segments start (x ++ c :: y) ts) (blank : isBlank c = true) :
    Parted ts (start + width x) := by
  intro t ht
  have here : (start + width x, c) ∈ placed start (x ++ c :: y) := by
    rw [placed_append]
    exact List.mem_append_right _ List.mem_cons_self
  have uncovered := (h.blank_iff _ here).mp blank t ht
  rw [Token.Covers] at uncovered
  omega

/-- No token reaches over the beginning of another one. -/
theorem Segments.parted_of_mem (h : Segments start x ts) (mem : token ∈ ts) :
    Parted ts token.offset := by
  obtain ⟨before, after, rfl⟩ := List.append_of_mem mem
  obtain ⟨_, later, earlier⟩ := List.pairwise_append.mp h.ascending
  refine List.forall_mem_append.mpr ⟨fun t ht => ?_, List.forall_mem_cons.mpr ⟨?_, fun t ht => ?_⟩⟩
  · exact .inl (earlier t ht token List.mem_cons_self).2
  · exact .inr (Nat.le_refl _)
  · exact .inr (Nat.le_of_lt ((List.pairwise_cons.mp later).1 t ht).1)

end Joined

section Spellings

variable {kind : TokenKind} {s : String}

/-- No symbol could lengthen an identifier. -/
theorem Spells.ends (h : Spells kind s) (notIdent : kind ≠ .ident) (rest : List Char) :
    Ends (s.toList ++ rest) := by
  cases kind with
  | binary op => cases op <;> rcases h with rfl | rfl <;> exact Ends.cons rfl
  | not => rcases h with rfl | rfl <;> exact Ends.cons rfl
  | leftParen | rightParen | comma => rcases h with rfl; exact Ends.cons rfl
  | ident => exact absurd rfl notIdent
  | unknown => cases h

theorem Spells.scanAll_append (h : Spells kind s) (notIdent : kind ≠ .ident) (start : Nat)
    (rest : List Char) : scanAll start (s.toList ++ rest) =
      ⟨kind, s, start⟩ :: scanAll (start + width s.toList) rest := by
  have reads : Lexeme.read? (s.toList ++ rest) = _ := h.read? fun isIdent => absurd isIdent notIdent
  have visible := h.not_isBlank
  have nonempty : s.toList ≠ [] := (Lexeme.read?_split reads).2
  obtain ⟨c, cs, spelled⟩ := List.exists_cons_of_ne_nil nonempty
  rw [spelled, List.forall_mem_cons] at visible
  rw [spelled, List.cons_append] at reads
  rw [spelled, List.cons_append, scanAll_of_lexeme visible.1 reads, ← spelled, String.ofList_toList]

end Spellings

theorem utf8ByteSize_eq_width (text : String) : text.utf8ByteSize = width text.toList := by
  have ofList (cs : List Char) : (String.ofList cs).utf8ByteSize = width cs := by
    induction cs with
    | nil => rfl
    | cons c cs ih =>
      rw [String.ofList_cons, String.utf8ByteSize_append, String.utf8ByteSize_singleton, ih, width]
  rw [← ofList, String.ofList_toList]

end Propositional
