import Propositional.Token.Lexer

/-!
# Runs of the lexer

`Lexes` is a run over a part of a text: blanks are passed over, and each lexeme gives its token.
Scanning a text gives the tokens of such a run and goes on behind it (`Lexes.scan_eq`), and a text
that is scanned without a mistake is one run from its start to its end (`tokenize_eq_ok_iff`).

An identifier is spelled by one or more letters and digits, and it ends where these end.
-/

namespace Propositional

/-- Scanning from the offset over the first text gives the tokens and comes to the second text. -/
inductive Lexes : Nat → List Char → List Token → Nat → List Char → Prop
  | done {offset : Nat} {text : List Char} : Lexes offset text [] offset text
  | blank {offset offset' : Nat} {c : Char} {rest rest' : List Char} {ts : List Token} :
      isBlank c = true → Lexes (offset + c.utf8Size) rest ts offset' rest' →
      Lexes offset (c :: rest) ts offset' rest'
  | lexeme {offset offset' : Nat} {c : Char} {rest rest' : List Char} {ts : List Token}
      {lexeme : Lexeme} :
      isBlank c = false → Lexeme.read? (c :: rest) = some lexeme →
      Lexes (offset + width lexeme.spelling) lexeme.rest ts offset' rest' →
      Lexes offset (c :: rest) (⟨lexeme.kind, String.ofList lexeme.spelling, offset⟩ :: ts)
        offset' rest'

/-- One or more letters and digits of ASCII. -/
def IsName (name : String) : Prop :=
  name.toList ≠ [] ∧ ∀ c ∈ name.toList, c.isAlphanum = true

instance (name : String) : Decidable (IsName name) :=
  decidable_of_iff (name.toList ≠ [] ∧ name.toList.all Char.isAlphanum = true) (by
    rw [IsName, List.all_eq_true])

/-- An identifier that ends here cannot go on in the text. -/
def Ends (text : List Char) : Prop :=
  ∀ c ∈ text.head?, c.isAlphanum = false

namespace Lexes

variable {offset offset' offset'' : Nat} {text text' text'' : List Char} {ts us : List Token}

theorem append (h : Lexes offset text ts offset' text')
    (h' : Lexes offset' text' us offset'' text'') : Lexes offset text (ts ++ us) offset'' text'' := by
  induction h with
  | done => exact h'
  | blank isBlank _ ih => exact .blank isBlank (ih h')
  | lexeme notBlank reads _ ih => exact .lexeme notBlank reads (ih h')

theorem scan_eq (h : Lexes offset text ts offset' text') :
    scan offset text = (scan offset' text').map (ts ++ ·) := by
  induction h with
  | done =>
    cases scan _ _ <;> rfl
  | blank isBlank _ ih => rw [scan_of_blank isBlank, ih]
  | lexeme notBlank reads _ ih =>
    rw [scan_of_lexeme notBlank reads, ih]
    cases scan _ _ <;> rfl

end Lexes

theorem lexes_of_scan {offset : Nat} {text : List Char} {ts : List Token}
    (h : scan offset text = .ok ts) : ∃ offset', Lexes offset text ts offset' [] := by
  fun_induction scan offset text generalizing ts with
  | case1 offset =>
    cases h
    exact ⟨offset, .done⟩
  | case2 offset c rest isBlank ih =>
    obtain ⟨offset', run⟩ := ih h
    exact ⟨offset', .blank isBlank run⟩
  | case3 => cases h
  | case4 => cases h
  | case5 offset c rest notBlank lexeme reads ts' scanned ih =>
    cases h
    obtain ⟨offset', run⟩ := ih scanned
    exact ⟨offset', .lexeme (by simpa using notBlank) reads run⟩

theorem tokenize_eq_ok_iff {text : String} {ts : List Token} :
    tokenize text = .ok ts ↔ ∃ offset, Lexes 0 text.toList ts offset [] := by
  refine ⟨lexes_of_scan, ?_⟩
  rintro ⟨offset, run⟩
  rw [tokenize, run.scan_eq, scan, Except.map, List.append_nil]

section Span

variable {α : Type} {p : α → Bool} {as bs : List α}

/-- What has the property ends where the property ends. -/
theorem takeWhile_append_of_head (all : ∀ a ∈ as, p a = true) (ends : ∀ b ∈ bs.head?, p b = false) :
    (as ++ bs).takeWhile p = as := by
  rw [List.takeWhile_append_of_pos all]
  cases bs with
  | nil => simp
  | cons b bs => simp [ends b rfl]

theorem dropWhile_append_of_head (all : ∀ a ∈ as, p a = true) (ends : ∀ b ∈ bs.head?, p b = false) :
    (as ++ bs).dropWhile p = bs := by
  rw [List.dropWhile_append_of_pos all]
  cases bs with
  | nil => rfl
  | cons b bs => simp [ends b rfl]

end Span

section Lexemes

variable {c : Char} {rest : List Char} {kind : TokenKind}

theorem not_isBlank_of_symbol (h : symbol? c = some kind) : isBlank c = false := by
  unfold symbol? at h
  split at h <;> first | rfl | cases h

theorem not_isAlphanum_of_symbol (h : symbol? c = some kind) : c.isAlphanum = false := by
  unfold symbol? at h
  split at h <;> first | rfl | cases h

theorem symbol_ne_ident (c : Char) : symbol? c ≠ some .ident := by
  intro h
  unfold symbol? at h
  split at h <;> cases h

theorem read?_symbol (h : symbol? c = some kind) (rest : List Char) :
    Lexeme.read? (c :: rest) = some ⟨kind, [c], rest⟩ := by
  unfold Lexeme.read?
  split <;> simp_all [symbol?]

theorem lexes_symbol (h : symbol? c = some kind) (offset : Nat) (rest : List Char) :
    ∃ token offset', token.kind = kind ∧ Lexes offset (c :: rest) [token] offset' rest :=
  ⟨_, _, rfl, .lexeme (not_isBlank_of_symbol h) (read?_symbol h rest) .done⟩

theorem Ends.cons (h : c.isAlphanum = false) : Ends (c :: rest) := by
  simpa [Ends] using h

theorem read?_name {cs : List Char} (hc : c.isAlphanum = true)
    (hcs : ∀ d ∈ cs, d.isAlphanum = true) (ends : Ends rest) :
    Lexeme.read? (c :: (cs ++ rest)) = some ⟨.ident, c :: cs, rest⟩ := by
  have noSymbol : symbol? c = none := by
    cases h : symbol? c with
    | none => rfl
    | some kind =>
      rw [not_isAlphanum_of_symbol h] at hc
      cases hc
  have taken : (cs ++ rest).takeWhile Char.isAlphanum = cs := takeWhile_append_of_head hcs ends
  have dropped : (cs ++ rest).dropWhile Char.isAlphanum = rest := dropWhile_append_of_head hcs ends
  unfold Lexeme.read?
  split
  · rename_i eq
    rw [(List.cons.inj eq).1] at hc
    cases hc
  · rename_i eq
    rw [(List.cons.inj eq).1] at hc
    cases hc
  · rename_i eq
    obtain ⟨rfl, rfl⟩ := List.cons.inj eq
    simp only [noSymbol, hc, ↓reduceIte, taken, dropped]
  · rename_i eq
    cases eq

theorem lexes_name {name : String} (h : IsName name) (ends : Ends rest) (offset : Nat) :
    Lexes offset (name.toList ++ rest) [⟨.ident, name, offset⟩] (offset + width name.toList)
      rest := by
  obtain ⟨nonempty, letters⟩ := h
  obtain ⟨c, cs, spelled⟩ := List.exists_cons_of_ne_nil nonempty
  rw [spelled] at letters ⊢
  rw [List.forall_mem_cons] at letters
  have reads := read?_name letters.1 letters.2 ends
  have run : Lexes offset (c :: (cs ++ rest)) [⟨.ident, String.ofList (c :: cs), offset⟩]
      (offset + width (c :: cs)) rest :=
    .lexeme (isBlank_of_isAlphanum letters.1) reads .done
  rwa [← spelled, String.ofList_toList, spelled] at run

/-- The spelling of an identifier is a name. -/
theorem isName_of_read? {text : List Char} {lexeme : Lexeme}
    (h : Lexeme.read? text = some lexeme) (isIdent : lexeme.kind = .ident) :
    IsName (String.ofList lexeme.spelling) := by
  unfold Lexeme.read? at h
  split at h
  · cases h
    cases isIdent
  · cases h
    cases isIdent
  · rename_i c rest _ _
    split at h
    · rename_i kind symbol
      cases h
      exact absurd (isIdent ▸ symbol) (symbol_ne_ident c)
    · split at h
      · rename_i isAlphanum
        cases h
        rw [IsName, String.toList_ofList]
        refine ⟨List.cons_ne_nil _ _, List.forall_mem_cons.mpr ⟨isAlphanum, ?_⟩⟩
        exact List.all_eq_true.mp List.all_takeWhile
      · cases h
  · cases h

theorem Lexes.isName {offset offset' : Nat} {text text' : List Char} {ts : List Token}
    (h : Lexes offset text ts offset' text') :
    ∀ token ∈ ts, token.kind = .ident → IsName token.spelling := by
  induction h with
  | done => simp
  | blank _ _ ih => exact ih
  | lexeme _ reads _ ih => exact List.forall_mem_cons.mpr ⟨isName_of_read? reads, ih⟩

end Lexemes

end Propositional
