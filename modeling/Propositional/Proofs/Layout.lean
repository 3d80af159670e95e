import Mathlib.Data.List.Forall2
import Propositional.Proofs.Grammar.Alike
import Propositional.Proofs.Lexing.Seams

/-!
# Layout and spelling

Blanks keep the tokens of two texts apart. So a text with blanks in it is tokenized by parts: the
tokens are those of the text before the blanks and of the text behind them, and the first mistake is
one of the first text, if it has any.

The formula that a text spells depends on its layout no more than on the spellings of its symbols.
Blanks between the tokens change nothing but offsets, and the other spelling of a symbol makes the
same token in the same place.
-/

namespace Propositional

/-- The mistake when the text before it grows by so many bytes. -/
def LexError.shift (bytes : Nat) (e : LexError) : LexError :=
  { e with offset := e.offset + bytes }

/-- A text of blanks. -/
def Blank (text : String) : Prop :=
  ∀ c ∈ text.toList, isBlank c = true

instance (text : String) : Decidable (Blank text) :=
  decidable_of_iff (text.toList.all isBlank = true) List.all_eq_true

instance (ts : List Token) (seam : Nat) : Decidable (Parted ts seam) :=
  inferInstanceAs (Decidable (∀ t ∈ ts, t.stop ≤ seam ∨ seam ≤ t.offset))

section Words

variable {ts us : List Token} {text text' : String}

theorem alike_of_map_word_eq (h : ts.map Token.word = us.map Token.word) :
    List.Forall₂ Token.Alike ts us := by
  rw [← List.forall₂_eq_eq_eq, List.forall₂_map_left_iff, List.forall₂_map_right_iff] at h
  apply h.imp
  intro t u same
  obtain ⟨kind, spelling⟩ := Prod.mk.inj same
  exact ⟨kind, fun _ => spelling⟩

theorem Formula.known_of_parse {f : Formula} (h : parse text = .ok f) :
    ∀ t ∈ segment text, t.kind ≠ .unknown := by
  cases tokenized : tokenize text with
  | ok ts =>
    obtain ⟨rfl, known⟩ := tokenize_eq_ok_iff_segment.mp tokenized
    exact known
  | error e =>
    rw [parse_of_tokenize_error tokenized] at h
    cases h

/-- A text with the same words is tokenized too. -/
theorem exists_tokenize_of_words
    (same : (segment text).map Token.word = (segment text').map Token.word)
    (h : tokenize text = .ok ts) :
    ∃ us, tokenize text' = .ok us ∧ us.map Token.word = ts.map Token.word := by
  obtain ⟨rfl, known⟩ := tokenize_eq_ok_iff_segment.mp h
  have known' := Token.Alike.known_of_forall₂ (alike_of_map_word_eq same) known
  exact ⟨segment text', tokenize_eq_ok_iff_segment.mpr ⟨rfl, known'⟩, same.symm⟩

end Words

theorem segment_append_append (a s b : String) :
    segment (a ++ s ++ b) = scanAll 0 (a.toList ++ (s.toList ++ b.toList)) := by
  rw [segment, String.toList_append, String.toList_append, List.append_assoc]

section Blanks

variable {a w b text : String} {bytes : Nat}

theorem segment_append (h : Parted (segment (a ++ b)) a.utf8ByteSize) :
    segment (a ++ b) = segment a ++ (segment b).map (Token.shift a.utf8ByteSize) := by
  rw [utf8ByteSize_eq_width] at h ⊢
  rw [segment, String.toList_append] at h ⊢
  rw [← Nat.zero_add (width a.toList)] at h
  rw [scanAll_append_of_parted h, scanAll_add, segment, segment]

theorem firstUnknown?_append_shift (ts us : List Token) (bytes : Nat) :
    firstUnknown? (ts ++ us.map (Token.shift bytes)) =
      (firstUnknown? ts).or ((firstUnknown? us).map (Token.shift bytes)) := by
  rw [firstUnknown?, List.find?_append, List.find?_map]
  rfl

theorem segment_append_blanks (blank : Blank w) (nonempty : w ≠ "") :
    segment (a ++ w ++ b) =
      segment a ++ (segment b).map (Token.shift (a ++ w).utf8ByteSize) := by
  have isBlanks : w.toList ≠ [] := by simpa using nonempty
  obtain ⟨c, cs, spelled⟩ := List.exists_cons_of_ne_nil isBlanks
  have first : isBlank c = true := blank c (by simp [spelled])
  have parted : Parted (scanAll 0 (a.toList ++ (w.toList ++ b.toList))) (0 + width a.toList) := by
    have segments := segments_scanAll 0 (a.toList ++ (w.toList ++ b.toList))
    rw [spelled, List.cons_append] at segments ⊢
    exact segments.parted_of_blank first
  have total : (a ++ w).utf8ByteSize = width a.toList + width w.toList := by
    rw [utf8ByteSize_eq_width, String.toList_append, width_append]
  calc segment (a ++ w ++ b)
      = scanAll 0 (a.toList ++ (w.toList ++ b.toList)) := segment_append_append a w b
    _ = scanAll 0 a.toList ++ scanAll (width a.toList) (w.toList ++ b.toList) := by
        rw [scanAll_append_of_parted parted, Nat.zero_add]
    _ = scanAll 0 a.toList ++ scanAll (0 + (a ++ w).utf8ByteSize) b.toList := by
        rw [scanAll_blanks blank, total, Nat.zero_add]
    _ = segment a ++ (segment b).map (Token.shift (a ++ w).utf8ByteSize) := by
        rw [scanAll_add, segment, segment]

/-- Where the tokens are those of two texts, the first mistake is the first of theirs. -/
theorem tokenize_of_segment
    (h : segment text = segment a ++ (segment b).map (Token.shift bytes)) :
    tokenize text = do
      let ts ← tokenize a
      let us ← (tokenize b).mapError (LexError.shift bytes)
      return ts ++ us.map (Token.shift bytes) := by
  cases first : tokenize a with
  | error e =>
    refine tokenize_eq_error_iff.mpr ⟨_, ?_, e.reports_self⟩
    rw [h, firstUnknown?_append_shift, firstUnknown?_of_tokenize_error first, Option.some_or]
  | ok ts =>
    obtain ⟨rfl, known⟩ := tokenize_eq_ok_iff_segment.mp first
    cases second : tokenize b with
    | error e =>
      refine tokenize_eq_error_iff.mpr ⟨_, ?_, (e.shift bytes).reports_self⟩
      rw [h, firstUnknown?_append_shift, firstUnknown?_of_tokenize_ok first, Option.none_or,
        firstUnknown?_of_tokenize_error second]
      rfl
    | ok us =>
      obtain ⟨rfl, known'⟩ := tokenize_eq_ok_iff_segment.mp second
      refine tokenize_eq_ok_iff_segment.mpr ⟨h, ?_⟩
      rw [List.forall_mem_append, List.forall_mem_map]
      exact ⟨known, known'⟩

/-- Blanks where no token is cut change the offsets only. -/
theorem map_word_segment_blanks (blank : Blank w)
    (h : Parted (segment (a ++ b)) a.utf8ByteSize) :
    (segment (a ++ w ++ b)).map Token.word = (segment (a ++ b)).map Token.word := by
  by_cases empty : w = ""
  · rw [empty, String.append_empty]
  · rw [segment_append_blanks blank empty, segment_append h]
    simp [Function.comp_def]

/-- At the ends of a text nothing is cut. -/
theorem parted_of_eq_empty (h : a = "" ∨ b = "") : Parted (segment (a ++ b)) a.utf8ByteSize := by
  intro t ht
  rcases h with rfl | rfl
  · exact .inr (Nat.zero_le _)
  · rw [String.append_empty] at ht
    obtain ⟨before, behind, split, offset, _⟩ := (segments_scanAll 0 a.toList).stands t ht
    have total := congrArg width split
    rw [width_append, width_append] at total
    rw [utf8ByteSize_eq_width, Token.stop]
    omega

/-- **Blanks keep tokens apart.** A text with blanks in it is segmented by parts, the part behind the
blanks moved behind them. So it is tokenized by parts too: it is refused for the first mistake before
the blanks, or else for the first one behind them, and otherwise it has the tokens of both parts.

Blanks may stand before the text, behind it and wherever they do not cut a token. The tokens keep
their kinds and spellings, and the same formula is read from them. -/
theorem blanks_keep_tokens_apart :
    (∀ a w b : String, Blank w → w ≠ "" →
      let bytes := (a ++ w).utf8ByteSize
      segment (a ++ w ++ b) = segment a ++ (segment b).map (Token.shift bytes) ∧
        tokenize (a ++ w ++ b) = do
          let ts ← tokenize a
          let us ← (tokenize b).mapError (LexError.shift bytes)
          return ts ++ us.map (Token.shift bytes)) ∧
    ∀ a w b : String, Blank w → a = "" ∨ b = "" ∨ Parted (segment (a ++ b)) a.utf8ByteSize →
      (segment (a ++ w ++ b)).map Token.word = (segment (a ++ b)).map Token.word ∧
        (∀ words, (∃ ts, tokenize (a ++ w ++ b) = .ok ts ∧ ts.map Token.word = words) ↔
          ∃ ts, tokenize (a ++ b) = .ok ts ∧ ts.map Token.word = words) ∧
        ∀ f, Formula.parse (a ++ w ++ b) = .ok f ↔ Formula.parse (a ++ b) = .ok f := by
  refine ⟨fun a w b blank nonempty => ?_, fun a w b blank outside => ?_⟩
  · have parts : segment (a ++ w ++ b) = _ := segment_append_blanks blank nonempty
    exact ⟨parts, tokenize_of_segment parts⟩
  · have parted : Parted (segment (a ++ b)) a.utf8ByteSize := by
      rw [← or_assoc] at outside
      exact outside.elim parted_of_eq_empty id
    have same := map_word_segment_blanks blank parted
    have alike := alike_of_map_word_eq same
    refine ⟨same, fun words => ⟨?_, ?_⟩, Formula.parse_eq_ok_iff_of_alike alike⟩
    · rintro ⟨ts, tokenized, rfl⟩
      exact exists_tokenize_of_words same tokenized
    · rintro ⟨ts, tokenized, rfl⟩
      exact exists_tokenize_of_words same.symm tokenized

/-- An ideographic space takes three bytes. Behind it a `>` is not the tip of the arrow that begins
before it, but a parenthesis still opens the joint denial. -/
theorem blanks_keep_tokens_apart_ideographic :
    let w := "\u3000 "
    (Blank w ∧ w ≠ "" ∧
      segment ("a <-" ++ w ++ "> b") = [⟨.ident, "a", 0⟩, ⟨.unknown, "<", 2⟩, ⟨.unknown, "-", 3⟩,
        ⟨.unknown, ">", 8⟩, ⟨.ident, "b", 10⟩] ∧
      tokenize ("a" ++ w ++ "> b") = .error ⟨5, '>'⟩) ∧
    (Parted (segment ("N" ++ "(a)")) 1 ∧
      ∀ f, Formula.parse ("N" ++ w ++ "(a)") = .ok f ↔ Formula.parse "N(a)" = .ok f) ∧
    ∀ f, Formula.parse ("a" ++ w ++ "") = .ok f ↔ Formula.parse "a" = .ok f := by
  intro w
  have blank : Blank w := by decide +kernel
  have nonempty : w ≠ "" := by decide
  have parted : Parted (segment ("N" ++ "(a)")) 1 := by decide +kernel
  obtain ⟨apart, between⟩ := blanks_keep_tokens_apart
  have segmented := (apart "a <-" w "> b" blank nonempty).1
  have tokenized := (apart "a" w "> b" blank nonempty).2
  have inside := between "N" w "(a)" blank (.inr (.inr parted))
  have behind := between "a" w "" blank (.inr (.inl rfl))
  refine ⟨⟨blank, nonempty, ?_, ?_⟩, ⟨parted, inside.2.2⟩, behind.2.2⟩
  · rw [segmented]
    decide +kernel
  · rw [tokenized]
    decide +kernel

end Blanks

section Respelled

variable {kind : TokenKind} {s s' a b : String}

/-- Where all tokens are known, the other spelling of a symbol is read in its place. -/
theorem alike_respelled (notIdent : kind ≠ .ident) (spells : Spells kind s)
    (spells' : Spells kind s') (mem : ⟨kind, s, a.utf8ByteSize⟩ ∈ segment (a ++ s ++ b))
    (known : ∀ t ∈ segment (a ++ s ++ b), t.kind ≠ .unknown) :
    List.Forall₂ Token.Alike (segment (a ++ s ++ b)) (segment (a ++ s' ++ b)) := by
  rw [segment_append_append, utf8ByteSize_eq_width] at mem
  rw [segment_append_append] at known
  have parted := (segments_scanAll 0 _).parted_of_mem mem
  have parts := scanAll_append_of_parted (by rwa [Nat.zero_add])
  rw [parts, List.forall_mem_append] at known
  have parts' := scanAll_append_of_known known.1 (spells'.ends notIdent b.toList)
  rw [segment_append_append, segment_append_append, parts, parts',
    spells.scanAll_append notIdent, spells'.scanAll_append notIdent]
  refine List.rel_append (alike_of_map_word_eq rfl) (.cons ?_ (alike_of_map_word_eq ?_))
  · exact ⟨rfl, fun isIdent => absurd isIdent notIdent⟩
  · exact map_word_scanAll _ _ _

/-- **The formula does not depend on layout and spellings.** From tokens of the same kinds and, where
they are identifiers, the same spellings the same formula is read, or both are refused for the same
reason at the same place. The other spelling of a symbol makes such tokens of any text that can be
tokenized, and so the formula of a text stays the same. -/
theorem formula_ignores_spellings :
    (∀ ts us textEnd textEnd', List.Forall₂ Token.Alike ts us →
      Corresponds ts us textEnd textEnd' (Formula.ofTokens ts textEnd)
        (Formula.ofTokens us textEnd')) ∧
    ∀ kind s s' a b, kind ≠ .ident → Spells kind s → Spells kind s' →
      ⟨kind, s, a.utf8ByteSize⟩ ∈ segment (a ++ s ++ b) →
      (∀ ts, tokenize (a ++ s ++ b) = .ok ts →
        ∃ us, tokenize (a ++ s' ++ b) = .ok us ∧ List.Forall₂ Token.Alike ts us) ∧
      ∀ f, Formula.parse (a ++ s ++ b) = .ok f → Formula.parse (a ++ s' ++ b) = .ok f := by
  refine ⟨fun ts us textEnd textEnd' alike => corresponds_of_alike alike textEnd textEnd',
    fun kind s s' a b notIdent spells spells' mem => ⟨fun ts tokenized => ?_, fun f parsed => ?_⟩⟩
  · obtain ⟨rfl, known⟩ := tokenize_eq_ok_iff_segment.mp tokenized
    have alike := alike_respelled notIdent spells spells' mem known
    exact ⟨_, tokenize_eq_ok_iff_segment.mpr ⟨rfl, Token.Alike.known_of_forall₂ alike known⟩, alike⟩
  · have alike := alike_respelled notIdent spells spells' mem (Formula.known_of_parse parsed)
    exact (Formula.parse_eq_ok_iff_of_alike alike f).mp parsed

/-- Behind `N(` a comma is no operand, wherever it stands and however a negation before it is spelled.
An equivalence may be spelled as an arrow of either kind. -/
theorem formula_ignores_spellings_arrow :
    let ts : List Token := [⟨.ident, "N", 0⟩, ⟨.leftParen, "(", 1⟩, ⟨.not, "!", 2⟩, ⟨.comma, ",", 3⟩]
    let us : List Token :=
      [⟨.ident, "N", 5⟩, ⟨.leftParen, "(", 8⟩, ⟨.not, "¬", 9⟩, ⟨.comma, ",", 11⟩]
    let e : ParseError := .unexpectedToken 3 .ident ","
    let e' : ParseError := .unexpectedToken 11 .ident ","
    (List.Forall₂ Token.Alike ts us ∧ Corresponds ts us 4 12 (.error e) (.error e')) ∧
    (TokenKind.binary .equiv ≠ .ident ∧ Spells (.binary .equiv) "<->" ∧
      Spells (.binary .equiv) "↔" ∧ ⟨.binary .equiv, "<->", 2⟩ ∈ segment ("!p" ++ "<->" ++ "q") ∧
      ∀ f, Formula.parse "!p<->q" = .ok f → Formula.parse "!p↔q" = .ok f) := by
  intro ts us e e'
  obtain ⟨tokens, texts⟩ := formula_ignores_spellings
  have alike : List.Forall₂ Token.Alike ts us :=
    .cons ⟨rfl, fun _ => rfl⟩ (.cons ⟨rfl, nofun⟩ (.cons ⟨rfl, nofun⟩ (.cons ⟨rfl, nofun⟩ .nil)))
  have refused : Formula.ofTokens ts 4 = .error e := rfl
  have refused' : Formula.ofTokens us 12 = .error e' := rfl
  have corresponds := tokens ts us 4 12 alike
  rw [refused, refused'] at corresponds
  have mem : ⟨.binary .equiv, "<->", 2⟩ ∈ segment ("!p" ++ "<->" ++ "q") := by decide +kernel
  have respelled := texts (.binary .equiv) "<->" "↔" "!p" "q" nofun (.inl rfl) (.inr rfl) mem
  exact ⟨⟨alike, corresponds⟩, nofun, .inl rfl, .inr rfl, mem, respelled.2⟩

/-- A text that is refused may become a formula: the other spelling completes the arrow before it. -/
example : Formula.parse "p<→q" = .error (.lex ⟨1, '<'⟩) ∧
    Formula.parse "p<->q" = .ok (.binary .equiv (.atom "p") (.atom "q")) := by
  decide +kernel

end Respelled

end Propositional
