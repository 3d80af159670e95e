import Propositional.Proofs.Lexing

/-!
# Spellings

Which spellings each kind of token has, said without the lexer, and where a text begins with one of
them. Reading takes the spelling that a text begins with (`Spells.read?`), of identifiers the longest
one, so it finds nothing exactly where no token starts (`startsToken_iff`).

The plain arrows are the only spellings of several characters besides identifiers. What is left of
them behind their first character can be a spelling again, but not the `>` at their end.
-/

namespace Propositional

/-- The spellings of a kind, on a plain keyboard and as a glyph. An unknown token has none of its
own. -/
def Spells : TokenKind → String → Prop
  | .binary op, s => s = op.spelling ∨ s = op.glyph.toString
  | .not, s => s = "!" ∨ s = "¬"
  | .leftParen, s => s = "("
  | .rightParen, s => s = ")"
  | .comma, s => s = ","
  | .ident, s => IsName s
  | .unknown, _ => False

/-- The text begins with a spelling of some kind. -/
def StartsToken (text : List Char) : Prop :=
  ∃ kind s, Spells kind s ∧ s.toList <+: text

section Spellings

variable {kind : TokenKind} {s : String} {c : Char} {text rest behind : List Char} {lexeme : Lexeme}

theorem ends_dropWhile (text : List Char) : Ends (text.dropWhile Char.isAlphanum) := by
  have first := List.head?_dropWhile_not Char.isAlphanum text
  intro c hc
  rwa [Option.mem_def.mp hc] at first

theorem forall_not_isBlank (h : text.any isBlank = false) : ∀ c ∈ text, isBlank c = false := by
  simpa using h

theorem Spells.not_isBlank (h : Spells kind s) : ∀ c ∈ s.toList, isBlank c = false := by
  cases kind with
  | binary op => cases op <;> rcases h with rfl | rfl <;> exact forall_not_isBlank rfl
  | not => rcases h with rfl | rfl <;> exact forall_not_isBlank rfl
  | leftParen | rightParen | comma => rcases h with rfl; exact forall_not_isBlank rfl
  | ident => exact fun c hc => isBlank_of_isAlphanum (h.2 c hc)
  | unknown => cases h

/-- What a text begins with is read off it, unless it goes on as an identifier. -/
theorem Spells.read? (h : Spells kind s) (ends : kind = .ident → Ends rest) :
    Lexeme.read? (s.toList ++ rest) = some ⟨kind, s.toList, rest⟩ := by
  cases kind with
  | binary op =>
    cases op <;> rcases h with rfl | rfl <;> rfl
  | not => rcases h with rfl | rfl <;> rfl
  | leftParen | rightParen | comma => rcases h with rfl; rfl
  | ident =>
    obtain ⟨nonempty, letters⟩ := h
    obtain ⟨c, cs, spelled⟩ := List.exists_cons_of_ne_nil nonempty
    rw [spelled, List.forall_mem_cons] at letters
    rw [spelled]
    exact read?_name letters.1 letters.2 (ends rfl)
  | unknown => cases h

theorem spells_of_symbol (h : symbol? c = some kind) : Spells kind c.toString := by
  unfold symbol? at h
  split at h <;> cases h <;> simp [Spells, BinaryOp.spelling, BinaryOp.glyph]

theorem spells_of_read? (h : Lexeme.read? text = some lexeme) :
    Spells lexeme.kind (String.ofList lexeme.spelling) ∧ (lexeme.kind = .ident → Ends lexeme.rest) := by
  have isName := isName_of_read? h
  unfold Lexeme.read? at h
  split at h
  · cases h
    exact ⟨.inl rfl, (nomatch ·)⟩
  · cases h
    exact ⟨.inl rfl, (nomatch ·)⟩
  · rename_i c rest _ _
    split at h
    · rename_i kind symbol
      cases h
      exact ⟨spells_of_symbol symbol, fun isIdent => absurd (isIdent ▸ symbol) (symbol_ne_ident c)⟩
    · split at h
      · cases h
        exact ⟨isName rfl, fun _ => ends_dropWhile rest⟩
      · cases h
  · cases h

/-- An identifier that goes on begins a longer one. -/
theorem read?_ne_none_of_isName (h : IsName s) (rest : List Char) :
    Lexeme.read? (s.toList ++ rest) ≠ none := by
  let longest := String.ofList (s.toList ++ rest.takeWhile Char.isAlphanum)
  have isName : Spells .ident longest := by
    rw [Spells, IsName, String.toList_ofList]
    refine ⟨List.append_ne_nil_of_left_ne_nil h.1 _, List.forall_mem_append.mpr ⟨h.2, ?_⟩⟩
    exact List.all_eq_true.mp List.all_takeWhile
  have split : s.toList ++ rest = longest.toList ++ rest.dropWhile Char.isAlphanum := by
    rw [String.toList_ofList, List.append_assoc, List.takeWhile_append_dropWhile]
  rw [split, isName.read? fun _ => ends_dropWhile rest]
  exact Option.some_ne_none _

theorem startsToken_iff : StartsToken text ↔ Lexeme.read? text ≠ none := by
  constructor
  · rintro ⟨kind, s, spells, rest, rfl⟩
    by_cases isIdent : kind = .ident
    · subst isIdent
      exact read?_ne_none_of_isName spells rest
    · rw [spells.read? fun h => absurd h isIdent]
      exact Option.some_ne_none _
  · intro starts
    obtain ⟨lexeme, read⟩ := Option.ne_none_iff_exists'.mp starts
    refine ⟨lexeme.kind, String.ofList lexeme.spelling, (spells_of_read? read).1, lexeme.rest, ?_⟩
    rw [String.toList_ofList]
    exact (Lexeme.read?_split read).1.symm

/-- Only identifiers and the plain arrows have more than one character. -/
theorem Spells.eq_arrow (h : Spells kind s) (notIdent : kind ≠ .ident) :
    (∃ d, s.toList = [d]) ∨ s = "->" ∨ s = "<->" := by
  cases kind with
  | binary op =>
    cases op <;> rcases h with rfl | rfl <;>
      first | exact .inl ⟨_, rfl⟩ | exact .inr (.inl rfl) | exact .inr (.inr rfl)
  | not => rcases h with rfl | rfl <;> exact .inl ⟨_, rfl⟩
  | leftParen | rightParen | comma => rcases h with rfl; exact .inl ⟨_, rfl⟩
  | ident => exact absurd rfl notIdent
  | unknown => cases h

/-- From any of its characters but a `>`, what is left of a spelling is a spelling again. -/
theorem startsToken_of_spells {front back : List Char} (spells : Spells kind s)
    (split : s.toList = front ++ c :: back) (noTip : c ≠ '>') (rest : List Char) :
    StartsToken (c :: (back ++ rest)) := by
  cases front with
  | nil => exact ⟨kind, s, spells, rest, by simp [split]⟩
  | cons d front =>
    by_cases isIdent : kind = .ident
    · subst isIdent
      obtain ⟨_, letters⟩ := spells
      rw [split, List.forall_mem_append] at letters
      refine ⟨.ident, String.ofList (c :: back), ⟨by simp, by simpa using letters.2⟩, rest, ?_⟩
      simp
    · rcases spells.eq_arrow isIdent with ⟨e, single⟩ | rfl | rfl
      · simp [single] at split
      · -- Behind the first character of `->` there is only its tip.
        obtain ⟨_, split⟩ := List.cons.inj split
        cases front with
        | nil => exact absurd (List.cons.inj split).1.symm noTip
        | cons e front => simp at split
      · -- And behind that of `<->` there is `->`.
        obtain ⟨_, split⟩ := List.cons.inj split
        match front with
        | [] =>
          obtain ⟨rfl, rfl⟩ := List.cons.inj split
          exact ⟨.binary .impl, "->", .inl rfl, rest, rfl⟩
        | [e] => exact absurd (List.cons.inj (List.cons.inj split).2).1.symm noTip
        | e :: e' :: front => simp at split

/-- Where neither a symbol nor an identifier can start, only a plain arrow can. -/
theorem startsToken_iff_arrow (noSymbol : symbol? c = none) (noName : c.isAlphanum = false) :
    StartsToken (c :: behind) ↔ ['-', '>'] <+: c :: behind ∨ ['<', '-', '>'] <+: c :: behind := by
  constructor
  · intro starts
    rw [startsToken_iff] at starts
    unfold Lexeme.read? at starts
    split at starts
    · rename_i rest eq
      exact .inr ⟨rest, eq.symm⟩
    · rename_i rest eq
      exact .inl ⟨rest, eq.symm⟩
    · simp_all
    · exact absurd rfl starts
  · rintro (arrow | arrow)
    · exact ⟨.binary .impl, "->", .inl rfl, arrow⟩
    · exact ⟨.binary .equiv, "<->", .inl rfl, arrow⟩

theorem startsToken_minus : StartsToken ('-' :: behind) ↔ ['>'] <+: behind := by
  rw [startsToken_iff_arrow rfl rfl]
  simp [List.cons_prefix_cons]

theorem startsToken_less : StartsToken ('<' :: behind) ↔ ['-', '>'] <+: behind := by
  rw [startsToken_iff_arrow rfl rfl]
  simp [List.cons_prefix_cons]

end Spellings

end Propositional
