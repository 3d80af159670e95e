import Propositional.Proofs.Lexing.Spelling

/-!
# The tokens of a text are its only segmentation

`Segments` says what it means that tokens segment a text, without saying how they are found:

* they follow one another without overlapping, each at the offset of its own spelling;
* each spelling is one of its kind, an identifier ends where letters and digits end, and an unknown
  token is a single character at which no token starts;
* what belongs to no token are the blanks, and nothing else.

At a character that is no blank some token has to begin, and what stands there decides which
(`Token.Fits.scanAll_eq`). So every text has exactly one segmentation, the one that `segment` gives.
-/

namespace Propositional

/-- The characters of a text that begins at the offset, each with its own offset. -/
def placed (start : Nat) : List Char → List (Nat × Char)
  | [] => []
  | c :: rest => (start, c) :: placed (start + c.utf8Size) rest

namespace Token

/-- The offset of what follows the token. -/
def stop (token : Token) : Nat :=
  token.offset + width token.spelling.toList

/-- The character at the offset belongs to the token. -/
def Covers (token : Token) (offset : Nat) : Prop :=
  token.offset ≤ offset ∧ offset < token.stop

/-- The kind of the token agrees with its spelling and with the text behind it. -/
structure Fits (token : Token) (behind : List Char) : Prop where
  spells : token.kind ≠ .unknown → Spells token.kind token.spelling
  ends : token.kind = .ident → Ends behind
  unknown : token.kind = .unknown →
    ∃ c : Char, token.spelling = c.toString ∧ ¬ StartsToken (c :: behind)

/-- In the text that begins at `start` the token's spelling is found at its offset, and the kind
fits there. -/
def StandsIn (token : Token) (start : Nat) (text : List Char) : Prop :=
  ∃ before behind, text = before ++ (token.spelling.toList ++ behind) ∧
    token.offset = start + width before ∧ token.Fits behind

end Token

/-- The tokens segment the text that begins at `start`. -/
structure Segments (start : Nat) (text : List Char) (ts : List Token) : Prop where
  ascending : ts.Pairwise fun t u => t.offset < u.offset ∧ t.stop ≤ u.offset
  stands : ∀ t ∈ ts, t.StandsIn start text
  blank_iff : ∀ p ∈ placed start text, isBlank p.2 = true ↔ ∀ t ∈ ts, ¬ t.Covers p.1

section Width

variable {start : Nat} {front text : List Char} {p : Nat × Char}

theorem width_append (front text : List Char) : width (front ++ text) = width front + width text := by
  induction front with
  | nil => rw [List.nil_append, width, Nat.zero_add]
  | cons c front ih => rw [List.cons_append, width, width, ih, Nat.add_assoc]

theorem width_pos (h : text ≠ []) : 0 < width text := by
  obtain ⟨c, rest, rfl⟩ := List.exists_cons_of_ne_nil h
  have := c.utf8Size_pos
  rw [width]
  omega

theorem placed_append (start : Nat) (front text : List Char) :
    placed start (front ++ text) = placed start front ++ placed (start + width front) text := by
  induction front generalizing start with
  | nil => rfl
  | cons c front ih => rw [List.cons_append, placed, placed, ih, width, Nat.add_assoc, List.cons_append]

theorem bounds_of_mem_placed (h : p ∈ placed start text) :
    start ≤ p.1 ∧ p.1 < start + width text ∧ p.2 ∈ text := by
  induction text generalizing start with
  | nil => cases h
  | cons c rest ih =>
    rw [width]
    rcases List.mem_cons.mp h with rfl | h
    · have := c.utf8Size_pos
      exact ⟨Nat.le_refl _, by dsimp only; omega, List.mem_cons_self⟩
    · obtain ⟨lower, upper, mem⟩ := ih h
      exact ⟨by omega, by omega, List.mem_cons_of_mem c mem⟩

/-- A prefix that is not longer than another one of the same text is a prefix of it. -/
theorem exists_append_of_width_le {front' text' : List Char} (same : front ++ text = front' ++ text')
    (h : width front ≤ width front') : ∃ middle, front' = front ++ middle ∧ text = middle ++ text' := by
  rcases List.append_eq_append_iff.mp same with ⟨middle, split, rest⟩ | ⟨middle, split, rest⟩
  · exact ⟨middle, split, rest⟩
  · by_cases empty : middle = []
    · subst empty
      exact ⟨[], by simpa using split.symm, by simpa using rest.symm⟩
    · have := width_pos empty
      rw [split, width_append] at h
      omega

end Width

namespace Token

variable {token : Token} {start : Nat} {c : Char} {front behind rest text : List Char}
  {lexeme : Lexeme}

theorem Fits.spelling_ne_nil (h : token.Fits behind) : token.spelling.toList ≠ [] := by
  by_cases isUnknown : token.kind = .unknown
  · obtain ⟨c, spelled, _⟩ := h.unknown isUnknown
    simp [spelled]
  · have read := (h.spells isUnknown).read? h.ends
    exact (Lexeme.read?_split read).2

theorem Fits.offset_lt_stop (h : token.Fits behind) : token.offset < token.stop := by
  have := width_pos h.spelling_ne_nil
  rw [stop]
  omega

theorem Fits.not_isBlank (h : token.Fits behind) (split : c :: rest = token.spelling.toList ++ behind)
    (notBlank : isBlank c = false) : ∀ d ∈ token.spelling.toList, isBlank d = false := by
  by_cases isUnknown : token.kind = .unknown
  · obtain ⟨d, spelled, _⟩ := h.unknown isUnknown
    rw [spelled, Char.toString, String.toList_singleton] at split ⊢
    rwa [List.forall_mem_singleton, ← (List.cons.inj split).1]
  · exact (h.spells isUnknown).not_isBlank

/-- A lexeme makes a token that fits where it was read. -/
theorem fits_of_read? (h : Lexeme.read? text = some lexeme) (offset : Nat) :
    Fits ⟨lexeme.kind, String.ofList lexeme.spelling, offset⟩ lexeme.rest := by
  obtain ⟨spells, ends⟩ := spells_of_read? h
  refine ⟨fun _ => spells, ends, fun isUnknown => ?_⟩
  dsimp only at isUnknown
  rw [isUnknown] at spells
  cases spells

/-- A character at which nothing can be read makes an unknown token. -/
theorem fits_of_none (h : Lexeme.read? (c :: rest) = none) (offset : Nat) :
    Fits ⟨.unknown, c.toString, offset⟩ rest := by
  refine ⟨fun known => absurd rfl known, (nomatch ·), fun _ => ⟨c, rfl, ?_⟩⟩
  rw [startsToken_iff, h]
  exact fun absent => absent rfl

/-- A token that fits is the one that scanning takes. -/
theorem Fits.scanAll_eq (h : token.Fits behind) (split : c :: rest = token.spelling.toList ++ behind)
    (notBlank : isBlank c = false) :
    scanAll token.offset (c :: rest) = token :: scanAll token.stop behind := by
  obtain ⟨kind, spelling, offset⟩ := token
  by_cases isUnknown : kind = .unknown
  · subst isUnknown
    obtain ⟨d, spelled, noToken⟩ := h.unknown rfl
    dsimp only at spelled
    subst spelled
    rw [Char.toString, String.toList_singleton] at split
    obtain ⟨rfl, rfl⟩ := List.cons.inj split
    have none : Lexeme.read? (c :: rest) = none := by
      rw [startsToken_iff] at noToken
      exact Classical.not_not.mp noToken
    rw [scanAll_of_none notBlank none]
    simp [stop, width]
  · have read : Lexeme.read? (c :: rest) = some ⟨kind, spelling.toList, behind⟩ := by
      rw [split]
      exact (h.spells isUnknown).read? h.ends
    rw [scanAll_of_lexeme notBlank read, String.ofList_toList, stop]

theorem StandsIn.le (h : token.StandsIn start text) : start ≤ token.offset := by
  obtain ⟨before, _, _, offset, _⟩ := h
  omega

/-- A token behind the front of a text stands in the rest of it. -/
theorem standsIn_append_iff (front : List Char) (h : start + width front ≤ token.offset) :
    token.StandsIn start (front ++ rest) ↔ token.StandsIn (start + width front) rest := by
  constructor
  · rintro ⟨before, behind, split, offset, fits⟩
    obtain ⟨middle, rfl, split'⟩ := exists_append_of_width_le split (by omega)
    rw [width_append] at offset
    exact ⟨middle, behind, split', by omega, fits⟩
  · rintro ⟨middle, behind, rfl, offset, fits⟩
    refine ⟨front ++ middle, behind, (List.append_assoc _ _ _).symm, ?_, fits⟩
    rw [width_append]
    omega

end Token

section Steps

variable {token : Token} {start : Nat} {c : Char} {rest text : List Char} {ts : List Token}

theorem segments_nil_iff : Segments start [] ts ↔ ts = [] := by
  constructor
  · intro h
    cases ts with
    | nil => rfl
    | cons token ts =>
      obtain ⟨before, behind, split, _, fits⟩ := h.stands token List.mem_cons_self
      have empty := List.append_eq_nil_iff.mp split.symm
      exact absurd (List.append_eq_nil_iff.mp empty.2).1 fits.spelling_ne_nil
  · rintro rfl
    exact ⟨.nil, by simp, by simp [placed]⟩

/-- No token begins at a blank. -/
theorem Segments.le_offset_of_blank (h : Segments start (c :: rest) ts) (blank : isBlank c = true) :
    ∀ t ∈ ts, start + width [c] ≤ t.offset := by
  intro t ht
  obtain ⟨before, behind, split, offset, fits⟩ := h.stands t ht
  cases before with
  | nil =>
    have here : t.offset = start := offset
    have uncovered := (h.blank_iff (start, c) List.mem_cons_self).mp blank t ht
    exact absurd ⟨Nat.le_of_eq here, here ▸ fits.offset_lt_stop⟩ uncovered
  | cons d before =>
    obtain ⟨rfl, _⟩ := List.cons.inj split
    rw [width] at offset
    simp only [width]
    omega

theorem segments_blank_iff (blank : isBlank c = true) :
    Segments start (c :: rest) ts ↔ Segments (start + c.utf8Size) rest ts := by
  constructor
  · intro h
    have later := h.le_offset_of_blank blank
    refine ⟨h.ascending, fun t ht => ?_, fun p hp => h.blank_iff p (List.mem_cons_of_mem _ hp)⟩
    exact (Token.standsIn_append_iff [c] (later t ht)).mp (h.stands t ht)
  · intro h
    have later : ∀ t ∈ ts, start + width [c] ≤ t.offset := fun t ht => (h.stands t ht).le
    refine ⟨h.ascending, fun t ht => ?_, List.forall_mem_cons.mpr ⟨?_, h.blank_iff⟩⟩
    · exact (Token.standsIn_append_iff [c] (later t ht)).mpr (h.stands t ht)
    · refine iff_of_true blank fun t ht covers => ?_
      have behind := later t ht
      have here := covers.1
      have := width_pos (List.cons_ne_nil c [])
      omega

theorem segments_token_iff (fits : token.Fits rest) (split : text = token.spelling.toList ++ rest)
    (visible : ∀ c ∈ token.spelling.toList, isBlank c = false) :
    Segments token.offset text (token :: ts) ↔ Segments token.stop rest ts := by
  subst split
  have uncovered (p) (hp : p ∈ placed token.stop rest) :
      (∀ t ∈ token :: ts, ¬ t.Covers p.1) ↔ ∀ t ∈ ts, ¬ t.Covers p.1 := by
    have behind := (bounds_of_mem_placed hp).1
    rw [List.forall_mem_cons]
    exact and_iff_right fun covers => Nat.not_lt_of_le behind covers.2
  constructor
  · intro h
    obtain ⟨later, ascending⟩ := List.pairwise_cons.mp h.ascending
    refine ⟨ascending, fun t ht => ?_, fun p hp => ?_⟩
    · have stands := h.stands t (List.mem_cons_of_mem _ ht)
      exact (Token.standsIn_append_iff _ (later t ht).2).mp stands
    · rw [← uncovered p hp]
      apply h.blank_iff
      rw [placed_append]
      exact List.mem_append_right _ hp
  · intro h
    have later : ∀ t ∈ ts, token.stop ≤ t.offset := fun t ht => (h.stands t ht).le
    refine ⟨List.pairwise_cons.mpr ⟨fun t ht => ?_, h.ascending⟩, ?_, ?_⟩
    · exact ⟨Nat.lt_of_lt_of_le fits.offset_lt_stop (later t ht), later t ht⟩
    · refine List.forall_mem_cons.mpr ⟨⟨[], rest, rfl, rfl, fits⟩, fun t ht => ?_⟩
      exact (Token.standsIn_append_iff _ (later t ht)).mpr (h.stands t ht)
    · rw [placed_append, List.forall_mem_append]
      refine ⟨fun p hp => ?_, fun p hp => (h.blank_iff p hp).trans (uncovered p hp).symm⟩
      obtain ⟨lower, upper, mem⟩ := bounds_of_mem_placed hp
      refine iff_of_false (by simp [visible p.2 mem]) fun none => ?_
      exact none token List.mem_cons_self ⟨lower, upper⟩

/-- A character that is no blank belongs to a token. -/
theorem Segments.exists_covers {p : Nat × Char} (h : Segments start text ts)
    (hp : p ∈ placed start text) (notBlank : isBlank p.2 = false) : ∃ t ∈ ts, t.Covers p.1 := by
  by_cases covered : ∃ t ∈ ts, t.Covers p.1
  · exact covered
  · have blank := (h.blank_iff p hp).mpr fun t ht covers => covered ⟨t, ht, covers⟩
    rw [notBlank] at blank
    cases blank

/-- At a character that is no blank the first token begins. -/
theorem Segments.exists_first (h : Segments start (c :: rest) ts) (notBlank : isBlank c = false) :
    ∃ token ts' behind, ts = token :: ts' ∧ token.offset = start ∧
      c :: rest = token.spelling.toList ++ behind ∧ token.Fits behind := by
  obtain ⟨t, ht, covers⟩ := h.exists_covers List.mem_cons_self notBlank
  obtain ⟨token, ts, rfl⟩ := List.exists_cons_of_ne_nil (List.ne_nil_of_mem ht)
  have first : token.offset ≤ start := by
    rcases List.mem_cons.mp ht with rfl | later
    · exact covers.1
    · have before := ((List.pairwise_cons.mp h.ascending).1 t later).1
      have := covers.1
      omega
  obtain ⟨before, behind, split, offset, fits⟩ := h.stands token List.mem_cons_self
  by_cases empty : before = []
  · subst empty
    exact ⟨token, ts, behind, rfl, offset, split, fits⟩
  · have := width_pos empty
    omega

end Steps

theorem segments_scanAll (start : Nat) (text : List Char) :
    Segments start text (scanAll start text) := by
  fun_induction scanAll start text with
  | case1 start => exact segments_nil_iff.mpr rfl
  | case2 start c rest blank ih => exact (segments_blank_iff blank).mpr ih
  | case3 start c rest notBlank none ih =>
    have fits := Token.fits_of_none none start
    refine (segments_token_iff fits (by simp) ?_).mpr ?_
    · simpa using notBlank
    · simpa [Token.stop, width] using ih
  | case4 start c rest notBlank lexeme read ih =>
    have fits := Token.fits_of_read? read start
    have split : c :: rest = (String.ofList lexeme.spelling).toList ++ lexeme.rest := by
      rw [String.toList_ofList]
      exact (Lexeme.read?_split read).1
    refine (segments_token_iff fits split (spells_of_read? read).1.not_isBlank).mpr ?_
    simpa [Token.stop] using ih

theorem eq_scanAll_of_segments {start : Nat} {text : List Char} {ts : List Token}
    (h : Segments start text ts) : ts = scanAll start text := by
  induction size : text.length using Nat.strongRecOn generalizing start text ts with
  | ind size' ih =>
    subst size
    cases text with
    | nil =>
      rw [scanAll]
      exact segments_nil_iff.mp h
    | cons c rest =>
      cases blank : isBlank c with
      | true =>
        rw [scanAll_of_blank blank]
        exact ih rest.length (Nat.lt_succ_self _) ((segments_blank_iff blank).mp h) rfl
      | false =>
        obtain ⟨token, ts, behind, rfl, rfl, split, fits⟩ := h.exists_first blank
        have shorter : behind.length < (c :: rest).length := by
          have := List.length_pos_iff.mpr fits.spelling_ne_nil
          rw [split, List.length_append]
          omega
        have visible := fits.not_isBlank split blank
        have tail := (segments_token_iff fits split visible).mp h
        rw [fits.scanAll_eq split blank, ← ih _ shorter tail rfl]

section Unknown

variable {start : Nat} {c : Char} {text before behind : List Char} {ts : List Token}

/-- The token to which a character belongs. -/
theorem Segments.exists_covering (h : Segments start text ts) (split : text = before ++ c :: behind)
    (notBlank : isBlank c = false) :
    ∃ token ∈ ts, ∃ front back after, token.spelling.toList = front ++ c :: back ∧
      behind = back ++ after ∧ start + width before = token.offset + width front ∧
      token.Fits after := by
  have here : (start + width before, c) ∈ placed start text := by
    rw [split, placed_append]
    exact List.mem_append_right _ List.mem_cons_self
  obtain ⟨token, ht, lower, upper⟩ := h.exists_covers here notBlank
  dsimp only at lower upper
  obtain ⟨before', after, split', offset, fits⟩ := h.stands token ht
  rw [Token.stop] at upper
  obtain ⟨front, rfl, tail⟩ := exists_append_of_width_le (split'.symm.trans split) (by omega)
  rw [width_append] at upper ⊢
  rcases List.append_eq_append_iff.mp tail with ⟨longer, rfl, _⟩ | ⟨back', spelled, rest⟩
  · rw [width_append] at upper
    omega
  · cases back' with
    | nil =>
      rw [List.append_nil] at spelled
      rw [spelled] at upper
      omega
    | cons d back =>
      obtain ⟨rfl, rfl⟩ := List.cons.inj rest
      exact ⟨token, ht, front, back, after, spelled, rfl, by omega, fits⟩

/-- A character is an unknown token exactly if no token starts at it. Only a `>` may also be the tip
of an arrow. -/
theorem Segments.unknown_mem_iff (h : Segments start text ts) (split : text = before ++ c :: behind)
    (notBlank : isBlank c = false) (noTip : c ≠ '>') :
    ⟨.unknown, c.toString, start + width before⟩ ∈ ts ↔ ¬ StartsToken (c :: behind) := by
  constructor
  · intro mem
    obtain ⟨before', after, split', offset, fits⟩ := h.stands _ mem
    dsimp only at split' offset
    obtain ⟨d, isChar, noToken⟩ := fits.unknown rfl
    obtain ⟨middle, rfl, tail⟩ := exists_append_of_width_le (split'.symm.trans split) (by omega)
    rw [width_append] at offset
    cases middle with
    | nil =>
      have sameChar : c = d := by simpa using congrArg String.toList isChar
      have sameText : after = behind := by simpa using tail
      rwa [sameChar, ← sameText]
    | cons e middle =>
      have := width_pos (List.cons_ne_nil e middle)
      omega
  · intro noToken
    obtain ⟨token, ht, front, back, after, spelled, rfl, offset, fits⟩ :=
      h.exists_covering split notBlank
    by_cases isUnknown : token.kind = .unknown
    · obtain ⟨d, isChar, _⟩ := fits.unknown isUnknown
      rw [isChar, Char.toString, String.toList_singleton] at spelled
      obtain ⟨rfl, rfl, rfl⟩ : front = [] ∧ c = d ∧ back = [] := by
        simpa [List.append_eq_singleton_iff, eq_comm] using spelled
      obtain ⟨kind, spelling, start'⟩ := token
      cases isUnknown
      cases isChar
      rwa [offset]
    · exact absurd (startsToken_of_spells (fits.spells isUnknown) spelled noTip after) noToken

end Unknown

/-- **The tokens of a text are its only segmentation.** They segment it, and whatever segments it is
the same list. In particular a `-` is an unknown token exactly where no `>` follows it, and a `<`
exactly where no `->` does. -/
theorem segment_is_only_segmentation (text : String) :
    (∀ ts, Segments 0 text.toList ts ↔ ts = segment text) ∧
      (∀ before behind, text.toList = before ++ '-' :: behind →
        (⟨.unknown, "-", width before⟩ ∈ segment text ↔ ¬ ['>'] <+: behind)) ∧
      ∀ before behind, text.toList = before ++ '<' :: behind →
        (⟨.unknown, "<", width before⟩ ∈ segment text ↔ ¬ ['-', '>'] <+: behind) := by
  have segments : Segments 0 text.toList (segment text) := segments_scanAll 0 text.toList
  refine ⟨fun ts => ⟨eq_scanAll_of_segments, ?_⟩, fun before behind split => ?_,
    fun before behind split => ?_⟩
  · rintro rfl
    exact segments
  · rw [← startsToken_minus, ← segments.unknown_mem_iff split rfl (by decide), Nat.zero_add]
    rfl
  · rw [← startsToken_less, ← segments.unknown_mem_iff split rfl (by decide), Nat.zero_add]
    rfl

/-- Of `<-->` only the end is an arrow. Offsets count bytes, and the glyph before it takes three. -/
theorem segment_is_only_segmentation_arrows :
    let text := "↔<-->"
    let ts : List Token := [⟨.binary .equiv, "↔", 0⟩, ⟨.unknown, "<", 3⟩, ⟨.unknown, "-", 4⟩,
      ⟨.binary .impl, "->", 5⟩]
    Segments 0 text.toList ts ∧
      (text.toList = ['↔', '<'] ++ '-' :: ['-', '>'] ∧ ⟨.unknown, "-", 4⟩ ∈ segment text) ∧
      text.toList = ['↔'] ++ '<' :: ['-', '-', '>'] ∧ ⟨.unknown, "<", 3⟩ ∈ segment text := by
  intro text ts
  obtain ⟨only, minus, less⟩ := segment_is_only_segmentation text
  have segmented : ts = segment text := by decide +kernel
  have atMinus : text.toList = ['↔', '<'] ++ '-' :: ['-', '>'] := by decide
  have atLess : text.toList = ['↔'] ++ '<' :: ['-', '-', '>'] := by decide
  have loneMinus : ⟨.unknown, "-", 4⟩ ∈ segment text := (minus _ _ atMinus).mpr (by decide)
  have loneLess : ⟨.unknown, "<", 3⟩ ∈ segment text := (less _ _ atLess).mpr (by decide)
  exact ⟨(only ts).mpr segmented, ⟨atMinus, loneMinus⟩, atLess, loneLess⟩

end Propositional
