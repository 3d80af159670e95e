import Propositional.BinaryOp

/-!
# Tokens

A formula is written as a sequence of tokens. A token keeps the spelling it was read from and the
number of bytes that stand before it in the text.
-/

namespace Propositional

inductive TokenKind
  | binary (op : BinaryOp)
  | not
  | leftParen
  | rightParen
  | comma
  | ident
  /-- A character that starts no token. -/
  | unknown
deriving DecidableEq

namespace TokenKind

def all : List TokenKind :=
  [.binary .and, .binary .or, .not, .binary .impl, .binary .equiv, .binary .scheffer, .leftParen,
    .rightParen, .comma, .ident, .unknown]

def name : TokenKind → String
  | .binary op => op.name
  | .not => "not"
  | .leftParen => "l_paren"
  | .rightParen => "r_paren"
  | .comma => "comma"
  | .ident => "ident"
  | .unknown => "unknown"

/-- How a diagnostic names the kind: by its plain spelling where it has one. -/
def describe : TokenKind → String
  | .binary op => "`" ++ op.spelling ++ "`"
  | .not => "`!`"
  | .leftParen => "`(`"
  | .rightParen => "`)`"
  | .comma => "`,`"
  | .ident => "identifier"
  | .unknown => "unknown character"

theorem mem_all (kind : TokenKind) : kind ∈ all := by
  cases kind with
  | binary op => cases op <;> simp [all]
  | _ => simp [all]

end TokenKind

structure Token where
  kind : TokenKind
  spelling : String
  /-- The offset in bytes of the first character. -/
  offset : Nat
deriving DecidableEq

def Token.display (token : Token) : String :=
  token.kind.name ++ "@" ++ toString token.offset ++ " `" ++ token.spelling ++ "`"

end Propositional
