/-!
# Coloured text

Text for a terminal is written plainly or with escape sequences that switch a colour on before it
and all colours off behind it. The text may switch colours off itself; its own colour is then
switched on again, so what follows is coloured as well. Text without escape sequences is only
enclosed.
-/

namespace Propositional

inductive Colour
  | red
  | green
  | blue
  | magenta
  | cyan

namespace Colour

def code : Colour → String
  | .red => "31"
  | .green => "32"
  | .blue => "34"
  | .magenta => "35"
  | .cyan => "36"

/-- Switches the colour on. -/
def on (colour : Colour) : String :=
  "\x1b[" ++ colour.code ++ "m"

/-- Switches every colour off. -/
def off : String :=
  "\x1b[0m"

/-- The text with the colour switched on again wherever the text switches colours off. -/
def resume (on : List Char) : List Char → List Char
  | '\x1b' :: '[' :: '0' :: 'm' :: rest => '\x1b' :: '[' :: '0' :: 'm' :: (on ++ resume on rest)
  | c :: rest => c :: resume on rest
  | [] => []

theorem resume_eq_self {on text : List Char} (h : '\x1b' ∉ text) : resume on text = text := by
  fun_induction resume on text with
  | case1 => simp at h
  | case2 c rest _ ih => rw [ih (List.not_mem_of_not_mem_cons h)]
  | case3 => rfl

end Colour

/-- Whether colours are shown. -/
inductive Ink
  | plain
  | colours
deriving DecidableEq

/-- Empty text is switched on and off like any other. -/
def Ink.paint (ink : Ink) (colour : Colour) (text : String) : String :=
  match ink with
  | .plain => text
  | .colours =>
    colour.on ++ String.ofList (Colour.resume colour.on.toList text.toList) ++ Colour.off

end Propositional
