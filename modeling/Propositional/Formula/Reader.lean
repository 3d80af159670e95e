import Propositional.Formula
import Propositional.Token.Lexer

/-!
# Reading formulas

From the loosest to the tightest: the arrows on one level, the other two-place connectives on one
level, negation. The connectives of a level group to the left. Parentheses enclose a formula, and
`N(` opens a joint denial of one or more formulas with commas between them.

A formula is read one token at a time. Between two tokens the reader stands either before an operand
or behind one; what has been read and is not yet finished is the current `Group` and the groups
around it. So what the reader says about a token hangs only on the tokens before it.
-/

namespace Propositional

/-- A connective with its left operand, waiting for the right one. -/
structure Waiting where
  left : Formula
  op : BinaryOp

/-- Joins the operand to the connective that waits for it. -/
def Waiting.close : Option Waiting → Formula → Formula
  | none, right => right
  | some waiting, right => .binary waiting.op waiting.left right

/-- What one group has before its next operand: an arrow, another connective, negations. -/
structure Group where
  arrow : Option Waiting
  tight : Option Waiting
  negations : Nat

namespace Group

def empty : Group :=
  ⟨none, none, 0⟩

def negate : Nat → Formula → Formula
  | 0, f => f
  | n + 1, f => .neg (negate n f)

/-- The operand with the negations before it and the connective that binds as tightly as `∧`. -/
def closeTight (group : Group) (operand : Formula) : Formula :=
  Waiting.close group.tight (negate group.negations operand)

/-- The formula of the group once nothing follows the operand. -/
def close (group : Group) (operand : Formula) : Formula :=
  Waiting.close group.arrow (group.closeTight operand)

/-- The group behind a connective: an arrow closes all before it, another connective its level. -/
def await (group : Group) (operand : Formula) (op : BinaryOp) : Group :=
  if op.isArrow then ⟨some ⟨group.close operand, op⟩, none, 0⟩
  else ⟨group.arrow, some ⟨group.closeTight operand, op⟩, 0⟩

end Group

/-- What opened the current group. -/
inductive Opening
  | paren
  /-- A joint denial with the operands finished so far. -/
  | nor (operands : List Formula)

/-- The groups around the current one, the innermost first, each with what opened the next. -/
abbrev Enclosing := List (Opening × Group)

namespace Reader

inductive State
  | beforeOperand (group : Group) (around : Enclosing)
  /-- The flag says that the operand is the identifier `N`, read by the last token. -/
  | afterOperand (operand : Formula) (isKeyword : Bool) (group : Group) (around : Enclosing)

def start : State :=
  .beforeOperand .empty []

end Reader

/-- Why a sequence of tokens is no formula. -/
inductive ParseError
  | unexpectedEnd (offset : Nat) (expected : TokenKind)
  | unexpectedToken (offset : Nat) (expected : TokenKind) (found : String)
  /-- The tokens before this one are a whole formula. -/
  | trailingInput (offset : Nat) (found : String)
deriving DecidableEq

namespace ParseError

def offset : ParseError → Nat
  | .unexpectedEnd offset _ | .unexpectedToken offset _ _ | .trailingInput offset _ => offset

def message : ParseError → String
  | .unexpectedEnd offset expected =>
    "At " ++ toString offset ++ ": expected " ++ expected.describe ++ ", got end of input"
  | .unexpectedToken offset expected found =>
    "At " ++ toString offset ++ ": expected " ++ expected.describe ++ ", got `" ++ found ++ "`"
  | .trailingInput offset found =>
    "At " ++ toString offset ++ ": expected end of input, got `" ++ found ++ "`"

end ParseError

namespace Reader

/-- Refuses a token behind an operand: at the outside the formula was whole. -/
def refuse (token : Token) : Enclosing → ParseError
  | [] => .trailingInput token.offset token.spelling
  | _ :: _ => .unexpectedToken token.offset .rightParen token.spelling

/-- What one token does. An operand is an identifier unless a `(` or a negation comes first. -/
def step : State → Token → Except ParseError State
  | .beforeOperand group around, token =>
    match token.kind with
    | .not => .ok (.beforeOperand { group with negations := group.negations + 1 } around)
    | .leftParen => .ok (.beforeOperand .empty ((.paren, group) :: around))
    | .ident =>
      .ok (.afterOperand (.atom token.spelling) (token.spelling == norName) group around)
    | _ => .error (.unexpectedToken token.offset .ident token.spelling)
  | .afterOperand operand isKeyword group around, token =>
    match token.kind, around with
    | .binary op, _ => .ok (.beforeOperand (group.await operand op) around)
    | .rightParen, (.paren, outer) :: around =>
      .ok (.afterOperand (group.close operand) false outer around)
    | .rightParen, (.nor operands, outer) :: around =>
      .ok (.afterOperand (Formula.norSnoc operands (group.close operand)) false outer around)
    | .comma, (.nor operands, outer) :: around =>
      .ok (.beforeOperand .empty ((.nor (operands ++ [group.close operand]), outer) :: around))
    | .leftParen, around =>
      if isKeyword then .ok (.beforeOperand .empty ((.nor [], group) :: around))
      else .error (refuse token around)
    | _, around => .error (refuse token around)

/-- The formula that has been read when the tokens end, at the offset given. -/
def finish (textEnd : Nat) : State → Except ParseError Formula
  | .beforeOperand _ _ => .error (.unexpectedEnd textEnd .ident)
  | .afterOperand operand _ group [] => .ok (group.close operand)
  | .afterOperand _ _ _ (_ :: _) => .error (.unexpectedEnd textEnd .rightParen)

end Reader

/-- Why a text is no formula: its characters are no tokens, or its tokens no formula. -/
inductive ReadError
  | lex (e : LexError)
  | parse (e : ParseError)
deriving DecidableEq

def ReadError.message : ReadError → String
  | .lex e => e.message
  | .parse e => e.message

namespace Formula

/-- The formula that the tokens spell; `textEnd` is the offset to report when they end too soon. -/
def ofTokens (tokens : List Token) (textEnd : Nat) : Except ParseError Formula :=
  match tokens.foldlM Reader.step Reader.start with
  | .error e => .error e
  | .ok state => Reader.finish textEnd state

/-- The formula that a text spells. A character that starts no token is reported first. -/
def parse (text : String) : Except ReadError Formula :=
  match tokenize text with
  | .error e => .error (.lex e)
  | .ok tokens => (ofTokens tokens text.utf8ByteSize).mapError .parse

/-- As `parse`, but a character that starts no token is refused as a token, in its turn. -/
def parseSegments (text : String) : Except ParseError Formula :=
  ofTokens (segment text) text.utf8ByteSize

end Formula

end Propositional
