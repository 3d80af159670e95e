import Propositional.Text.Blank
import Propositional.Token

/-!
# Reading tokens

At each place the longest token is taken: an arrow, a symbol of one character, or a run of ASCII
letters and digits. Blanks separate tokens and belong to none. `tokenize` refuses a text at the
first character that starts no token; `segment` makes a token of its own of every such character,
so it accounts for the whole of any text.

Both are one pass over the characters; a lexeme takes at least one of them, so the pass ends.
-/

namespace Propositional

/-- The bytes that the characters take in UTF-8. -/
def width : List Char → Nat
  | [] => 0
  | c :: rest => c.utf8Size + width rest

/-- What stands at the start of a text: a token's kind and spelling, and the rest of the text. -/
structure Lexeme where
  kind : TokenKind
  spelling : List Char
  rest : List Char

/-- The kind of a token that one character spells. -/
def symbol? : Char → Option TokenKind
  | '&' | '∧' => some (.binary .and)
  | '|' | '∨' => some (.binary .or)
  | '→' => some (.binary .impl)
  | '↔' => some (.binary .equiv)
  | '/' | '↑' => some (.binary .scheffer)
  | '!' | '¬' => some .not
  | '(' => some .leftParen
  | ')' => some .rightParen
  | ',' => some .comma
  | _ => none

/-- The longest token at the start of the text, if any token starts there. -/
def Lexeme.read? : List Char → Option Lexeme
  | '<' :: '-' :: '>' :: rest => some ⟨.binary .equiv, ['<', '-', '>'], rest⟩
  | '-' :: '>' :: rest => some ⟨.binary .impl, ['-', '>'], rest⟩
  | c :: rest =>
    match symbol? c with
    | some kind => some ⟨kind, [c], rest⟩
    | none =>
      if c.isAlphanum then
        some ⟨.ident, c :: rest.takeWhile Char.isAlphanum, rest.dropWhile Char.isAlphanum⟩
      else none
  | [] => none

/-- A lexeme splits the text it was read from. -/
theorem Lexeme.read?_split {text : List Char} {lexeme : Lexeme}
    (h : Lexeme.read? text = some lexeme) :
    text = lexeme.spelling ++ lexeme.rest ∧ lexeme.spelling ≠ [] := by
  unfold Lexeme.read? at h
  split at h
  · cases h; simp
  · cases h; simp
  · split at h
    · cases h; simp
    · split at h
      · cases h; simp
      · cases h
  · cases h

theorem Lexeme.rest_length_lt {text : List Char} {lexeme : Lexeme}
    (h : Lexeme.read? text = some lexeme) : lexeme.rest.length < text.length := by
  obtain ⟨split, nonempty⟩ := Lexeme.read?_split h
  have := List.length_pos_iff.mpr nonempty
  rw [split, List.length_append]
  omega

/-- A character that starts no token, and its offset in bytes. -/
structure LexError where
  offset : Nat
  found : Char
deriving DecidableEq

namespace LexError

/-- What would have been a token here: the arrow that the character could begin, or a name. -/
def expected (e : LexError) : String :=
  match e.found with
  | '-' => TokenKind.describe (.binary .impl)
  | '<' => TokenKind.describe (.binary .equiv)
  | _ => TokenKind.describe .ident

def message (e : LexError) : String :=
  "At " ++ toString e.offset ++ ": expected " ++ e.expected ++ ", found `" ++ e.found.toString
    ++ "`"

end LexError

/-- The tokens of a text that begins at the offset, up to its end or its first mistake. -/
def scan (offset : Nat) : List Char → Except LexError (List Token)
  | [] => .ok []
  | c :: rest =>
    if isBlank c then scan (offset + c.utf8Size) rest
    else
      match _h : Lexeme.read? (c :: rest) with
      | none => .error ⟨offset, c⟩
      | some lexeme =>
        match scan (offset + width lexeme.spelling) lexeme.rest with
        | .error e => .error e
        | .ok tokens => .ok (⟨lexeme.kind, String.ofList lexeme.spelling, offset⟩ :: tokens)
termination_by text => text.length
decreasing_by
  · simp
  · exact Lexeme.rest_length_lt _h

/-- The tokens of a text that begins at the offset, with what starts no token as `unknown`. -/
def scanAll (offset : Nat) : List Char → List Token
  | [] => []
  | c :: rest =>
    if isBlank c then scanAll (offset + c.utf8Size) rest
    else
      match _h : Lexeme.read? (c :: rest) with
      | none => ⟨.unknown, c.toString, offset⟩ :: scanAll (offset + c.utf8Size) rest
      | some lexeme =>
        ⟨lexeme.kind, String.ofList lexeme.spelling, offset⟩
          :: scanAll (offset + width lexeme.spelling) lexeme.rest
termination_by text => text.length
decreasing_by
  · simp
  · simp
  · exact Lexeme.rest_length_lt _h

section Equations

variable {offset : Nat} {c : Char} {rest : List Char} {lexeme : Lexeme}

theorem scan_of_blank (h : isBlank c = true) :
    scan offset (c :: rest) = scan (offset + c.utf8Size) rest := by
  rw [scan, if_pos h]

theorem scan_of_lexeme (hb : isBlank c = false) (h : Lexeme.read? (c :: rest) = some lexeme) :
    scan offset (c :: rest) =
      (scan (offset + width lexeme.spelling) lexeme.rest).map
        (⟨lexeme.kind, String.ofList lexeme.spelling, offset⟩ :: ·) := by
  rw [scan, if_neg (by simp [hb])]
  split <;> simp_all [Except.map]
  split <;> simp_all

theorem scan_of_none (hb : isBlank c = false) (h : Lexeme.read? (c :: rest) = none) :
    scan offset (c :: rest) = .error ⟨offset, c⟩ := by
  rw [scan, if_neg (by simp [hb])]
  split <;> simp_all

theorem scanAll_of_blank (h : isBlank c = true) :
    scanAll offset (c :: rest) = scanAll (offset + c.utf8Size) rest := by
  rw [scanAll, if_pos h]

theorem scanAll_of_lexeme (hb : isBlank c = false)
    (h : Lexeme.read? (c :: rest) = some lexeme) :
    scanAll offset (c :: rest) =
      ⟨lexeme.kind, String.ofList lexeme.spelling, offset⟩
        :: scanAll (offset + width lexeme.spelling) lexeme.rest := by
  rw [scanAll, if_neg (by simp [hb])]
  split <;> simp_all

theorem scanAll_of_none (hb : isBlank c = false) (h : Lexeme.read? (c :: rest) = none) :
    scanAll offset (c :: rest) =
      ⟨.unknown, c.toString, offset⟩ :: scanAll (offset + c.utf8Size) rest := by
  rw [scanAll, if_neg (by simp [hb])]
  split <;> simp_all

end Equations

/-- The tokens of a text in which all but the blanks belongs to a token. -/
def tokenize (text : String) : Except LexError (List Token) :=
  scan 0 text.toList

/-- The tokens of any text. -/
def segment (text : String) : List Token :=
  scanAll 0 text.toList

end Propositional
