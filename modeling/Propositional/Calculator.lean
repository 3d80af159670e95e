import Propositional.Equivalence
import Propositional.Formula.Order
import Propositional.Formula.Reader
import Propositional.Restriction

/-!
# A calculator of formulas

Formulas are put on a stack and combined there by instructions. Some instructions ask about the top
of the stack and leave it as it is; an instruction that fails leaves it as it is too.
-/

namespace Propositional

namespace Calculator

inductive Instruction
  | atom (name : String)
  | parse (text : String)
  | dup
  | swap
  | drop
  | neg
  | binary (op : BinaryOp)
  /-- The joint denial of as many formulas as the number says, the deepest one first. -/
  | nor (count : Nat)
  | child (index : Nat)
  | restrict (basisName : String)
  | reparse
  | equivalent
  | compare
  | evaluate (i : Interpretation)

inductive Fault
  | underflow
  | noSuchChild
  | unread (e : ReadError)
  | basis (e : UnknownBasis)
  | table (e : TableError)
  | evaluation (e : MissingVariable)

inductive Answer
  | stack (formulas : List Formula)
  | truth (value : Bool)
  | order (ordering : Ordering)

def Answer.ofTruth {ε : Type} (fault : ε → Fault) : Except ε Bool → Except Fault Answer
  | .ok value => .ok (.truth value)
  | .error e => .error (fault e)

/-- One instruction on a stack whose top is the head of the list. That there are too few formulas
is noticed before anything else. -/
def answer (stack : List Formula) (instruction : Instruction) : Except Fault Answer :=
  match instruction, stack with
  | .atom name, stack => .ok (.stack (.atom name :: stack))
  | .parse text, stack =>
    match Formula.parse text with
    | .ok f => .ok (.stack (f :: stack))
    | .error e => .error (.unread e)
  | .dup, f :: stack => .ok (.stack (f :: f :: stack))
  | .swap, f :: g :: stack => .ok (.stack (g :: f :: stack))
  | .drop, _ :: stack => .ok (.stack stack)
  | .neg, f :: stack => .ok (.stack (.neg f :: stack))
  | .binary op, r :: l :: stack => .ok (.stack (.binary op l r :: stack))
  | .nor count, stack =>
    if stack.length < count then .error .underflow
    else
      match (stack.take count).reverse with
      | [] => .error .underflow
      | first :: rest => .ok (.stack (.nor first rest :: stack.drop count))
  | .child index, f :: stack =>
    match f.children[index]? with
    | some child => .ok (.stack (child :: stack))
    | none => .error .noSuchChild
  | .restrict basisName, f :: stack =>
    match Basis.ofName basisName with
    | .ok b => .ok (.stack (f.restrict b :: stack))
    | .error e => .error (.basis e)
  | .reparse, f :: stack =>
    match Formula.parse f.render with
    | .ok g => .ok (.stack (g :: stack))
    | .error e => .error (.unread e)
  | .equivalent, r :: l :: _ => Answer.ofTruth .table (l.equivalent r)
  | .compare, r :: l :: _ => .ok (.order (l.compare r))
  | .evaluate i, f :: _ => Answer.ofTruth .evaluation (f.evaluate i)
  | _, _ => .error .underflow

/-- The answers to the instructions, one after the other, with the stack behind each. -/
def run (stack : List Formula) : List Instruction → List (Except Fault Answer × List Formula)
  | [] => []
  | instruction :: instructions =>
    let reply := answer stack instruction
    let stack :=
      match reply with
      | .ok (.stack formulas) => formulas
      | _ => stack
    (reply, stack) :: run stack instructions

end Calculator

end Propositional
