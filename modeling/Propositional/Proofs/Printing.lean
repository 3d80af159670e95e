import Propositional.Formula.Order
import Propositional.Proofs.Grammar.Reading
import Propositional.Proofs.Lexing

/-!
# Printed formulas can be read

A formula is spellable when all its names are identifiers. Printed, such a formula is a unit of the
grammar, whatever stands before it and as long as no letter or digit stands behind it: `Prints`
carries that through the shapes of formulas. So reading gives the formula back.

Only identifiers become names, so what is read is spellable, and no other formula is read back from
its own text.
-/

namespace Propositional

/-- Wherever the text stands, it is a unit that spells the formula. -/
def Prints (text : List Char) (f : Formula) : Prop :=
  ∀ offset rest, Ends rest → ∃ ts offset', Derives .unit ts f ∧
    Lexes offset (text ++ rest) ts offset' rest

namespace Formula

/-- Every name is an identifier. -/
def Spellable (f : Formula) : Prop :=
  ∀ name ∈ f.leaves, IsName name

theorem symbol_glyph (op : BinaryOp) : symbol? op.glyph = some (.binary op) := by
  cases op <;> rfl

/-- The text of the operands behind the first one, each behind a comma and a blank. -/
def laterOperands (fs : List Formula) : List Char :=
  fs.flatMap fun g => ',' :: ' ' :: g.render.toList

theorem laterOperands_cons (g : Formula) (gs : List Formula) :
    laterOperands (g :: gs) = ',' :: ' ' :: (g.render.toList ++ laterOperands gs) := by
  simp [laterOperands]

theorem ends_laterOperands (fs : List Formula) {rest : List Char} (ends : Ends rest) :
    Ends (laterOperands fs ++ rest) := by
  cases fs with
  | nil => exact ends
  | cons g gs =>
    rw [laterOperands_cons]
    exact Ends.cons rfl

theorem toList_intercalate_render (f : Formula) (fs : List Formula) :
    (", ".intercalate (f.render :: fs.map render)).toList =
      f.render.toList ++ laterOperands fs := by
  induction fs generalizing f with
  | nil => simp [laterOperands]
  | cons g gs ih =>
    rw [List.map_cons, String.intercalate_cons_cons, String.toList_append, ih, laterOperands_cons]
    simp

/-- The text consists of the names and of the symbols that are printed between them. -/
theorem forall_mem_render {p : Char → Prop} {f : Formula}
    (names : ∀ name ∈ f.leaves, ∀ c ∈ name.toList, p c)
    (symbols : ∀ c ∈ "¬∧∨→↔↑N(), ".toList, p c) : ∀ c ∈ f.render.toList, p c := by
  have symbol {text : String} (h : text.toList ⊆ "¬∧∨→↔↑N(), ".toList) : ∀ c ∈ text.toList, p c :=
    fun c hc => symbols c (h hc)
  induction f with
  | atom name =>
    rw [leaves, List.forall_mem_singleton] at names
    rw [render]
    exact names
  | neg f ih =>
    rw [leaves] at names
    simp only [render, String.toList_append, List.forall_mem_append]
    exact ⟨symbol (by decide), ih names⟩
  | binary op l r ihl ihr =>
    rw [leaves, List.forall_mem_append] at names
    have glyph : ∀ c ∈ op.glyph.toString.toList, p c := symbol (by cases op <;> decide)
    have blank : ∀ c ∈ " ".toList, p c := symbol (by decide)
    simp only [render, String.toList_append, List.forall_mem_append]
    exact ⟨⟨⟨⟨⟨⟨symbol (by decide), ihl names.1⟩, blank⟩, glyph⟩, blank⟩, ihr names.2⟩,
      symbol (by decide)⟩
  | nor f fs ih ihs =>
    rw [leaves, List.forall_mem_append, List.forall_mem_flatMap] at names
    have later : ∀ c ∈ laterOperands fs, p c := by
      rw [laterOperands, List.forall_mem_flatMap]
      intro g hg
      rw [List.forall_mem_cons, List.forall_mem_cons]
      exact ⟨symbols ',' (by decide), symbols ' ' (by decide), ihs g hg (names.2 g hg)⟩
    simp only [render, String.toList_append, toList_intercalate_render, List.forall_mem_append]
    exact ⟨⟨⟨symbol (by decide), symbol (by decide)⟩, ih names.1, later⟩, symbol (by decide)⟩

end Formula

namespace Prints

open Formula

variable {f l r : Formula} {text left right : List Char}

theorem atom {name : String} (h : IsName name) : Prints name.toList (.atom name) := by
  intro offset rest ends
  exact ⟨_, _, .ident rfl, lexes_name h ends offset⟩

theorem neg (h : Prints text f) : Prints ('¬' :: text) (.neg f) := by
  intro offset rest ends
  obtain ⟨sign, offset₁, isNot, runSign⟩ := lexes_symbol (c := '¬') rfl offset (text ++ rest)
  obtain ⟨ts, offset₂, derived, run⟩ := h offset₁ rest ends
  exact ⟨_, _, .neg isNot derived, runSign.append run⟩

theorem binary (hl : Prints left l) (op : BinaryOp) (hr : Prints right r) :
    Prints ('(' :: (left ++ ' ' :: op.glyph :: ' ' :: (right ++ [')']))) (.binary op l r) := by
  intro offset rest ends
  let afterSign := ' ' :: (right ++ ')' :: rest)
  let afterLeft := ' ' :: op.glyph :: afterSign
  obtain ⟨opening, offset₁, isOpen, runOpening⟩ :=
    lexes_symbol (c := '(') rfl offset (left ++ afterLeft)
  obtain ⟨ls, offset₂, derivedLeft, runLeft⟩ := hl offset₁ afterLeft (Ends.cons rfl)
  obtain ⟨sign, offset₃, isOp, runSign⟩ :=
    lexes_symbol (symbol_glyph op) (offset₂ + ' '.utf8Size) afterSign
  obtain ⟨rs, offset₄, derivedRight, runRight⟩ :=
    hr (offset₃ + ' '.utf8Size) (')' :: rest) (Ends.cons rfl)
  obtain ⟨closing, offset₅, isClose, runClosing⟩ := lexes_symbol (c := ')') rfl offset₄ rest
  have inside := Derives.binary derivedLeft isOp derivedRight
  have runInside := runLeft.append (.blank rfl (runSign.append (.blank rfl runRight)))
  have run := runOpening.append (runInside.append runClosing)
  refine ⟨opening :: (ls ++ sign :: rs) ++ [closing], offset₅, .parens isOpen inside isClose, ?_⟩
  simpa [afterLeft, afterSign] using run

theorem operands {fs : List Formula} (h : ∀ g ∈ fs, Prints g.render.toList g)
    {ts : List Token} {first : Formula} {done : List Formula}
    (before : Derives .operands ts (.nor first done)) (offset : Nat) {rest : List Char}
    (ends : Ends rest) :
    ∃ us offset', Derives .operands (ts ++ us) (.nor first (done ++ fs)) ∧
      Lexes offset (laterOperands fs ++ rest) us offset' rest := by
  induction fs generalizing ts done offset with
  | nil => exact ⟨[], offset, by simpa using before, .done⟩
  | cons g gs ih =>
    obtain ⟨hg, hgs⟩ := List.forall_mem_cons.mp h
    let behind := laterOperands gs ++ rest
    have endsBehind : Ends behind := ends_laterOperands gs ends
    obtain ⟨comma, offset₁, isComma, runComma⟩ :=
      lexes_symbol (c := ',') rfl offset (' ' :: (g.render.toList ++ behind))
    obtain ⟨us, offset₂, derived, run⟩ := hg (offset₁ + ' '.utf8Size) behind endsBehind
    have next := Derives.comma before isComma derived.formula
    obtain ⟨vs, offset₃, all, runs⟩ := ih hgs next offset₂
    have runAll := runComma.append (.blank rfl (run.append runs))
    refine ⟨comma :: us ++ vs, offset₃, ?_, ?_⟩
    · simpa using all
    · rw [laterOperands_cons]
      simpa [behind] using runAll

theorem nor {fs : List Formula} (hf : Prints f.render.toList f)
    (hfs : ∀ g ∈ fs, Prints g.render.toList g) :
    Prints (norName.toList ++ '(' :: ((", ".intercalate (f.render :: fs.map render)).toList ++
      [')'])) (.nor f fs) := by
  intro offset rest ends
  let behind := laterOperands fs ++ ')' :: rest
  have endsOperands : Ends (')' :: rest) := Ends.cons rfl
  have endsBehind : Ends behind := ends_laterOperands fs endsOperands
  let afterKeyword := '(' :: (f.render.toList ++ behind)
  have endsKeyword : Ends afterKeyword := Ends.cons rfl
  have runKeyword := lexes_name (by decide : IsName norName) endsKeyword offset
  obtain ⟨opening, offset₁, isOpen, runOpening⟩ := lexes_symbol (c := '(') rfl
    (offset + width norName.toList) (f.render.toList ++ behind)
  obtain ⟨ts, offset₂, derived, run⟩ := hf offset₁ behind endsBehind
  obtain ⟨us, offset₃, all, runs⟩ :=
    operands hfs (.operand derived.formula) offset₂ endsOperands
  obtain ⟨closing, offset₄, isClose, runClosing⟩ := lexes_symbol (c := ')') rfl offset₃ rest
  have runAll := runKeyword.append (runOpening.append (run.append (runs.append runClosing)))
  let keyword : Token := ⟨.ident, norName, offset⟩
  refine ⟨keyword :: opening :: (ts ++ us) ++ [closing], offset₄, ?_, ?_⟩
  · exact .nor rfl rfl isOpen all isClose
  · rw [toList_intercalate_render]
    simpa [behind, afterKeyword] using runAll

end Prints

namespace Formula

theorem prints_render {f : Formula} (h : f.Spellable) : Prints f.render.toList f := by
  induction f with
  | atom name =>
    rw [Spellable, leaves, List.forall_mem_singleton] at h
    rw [render]
    exact .atom h
  | neg f ih =>
    rw [Spellable, leaves] at h
    simpa [render] using (ih h).neg
  | binary op l r ihl ihr =>
    rw [Spellable, leaves, List.forall_mem_append] at h
    simpa [render] using (ihl h.1).binary op (ihr h.2)
  | nor f fs ih ihs =>
    rw [Spellable, leaves, List.forall_mem_append, List.forall_mem_flatMap] at h
    simpa [render] using (ih h.1).nor fun g mem => ihs g mem (h.2 g mem)

theorem parse_eq_ok_iff {text : String} {f : Formula} :
    parse text = .ok f ↔
      ∃ ts offset, Lexes 0 text.toList ts offset [] ∧ Derives .formula ts f := by
  have mapped {e : Except ParseError Formula} :
      e.mapError ReadError.parse = .ok f ↔ e = .ok f := by
    cases e with
    | error e => constructor <;> intro h <;> cases h
    | ok g => constructor <;> intro h <;> cases h <;> rfl
  unfold parse
  cases scanned : tokenize text with
  | error e =>
    constructor
    · intro h
      cases h
    · rintro ⟨ts, offset, run, _⟩
      rw [tokenize_eq_ok_iff.mpr ⟨offset, run⟩] at scanned
      cases scanned
  | ok ts =>
    rw [mapped, ofTokens_eq_ok_iff]
    constructor
    · intro derived
      obtain ⟨offset, run⟩ := tokenize_eq_ok_iff.mp scanned
      exact ⟨ts, offset, run, derived⟩
    · rintro ⟨ts', offset, run, derived⟩
      rw [tokenize_eq_ok_iff.mpr ⟨offset, run⟩] at scanned
      cases scanned
      exact derived

theorem parse_render {f : Formula} (h : f.Spellable) : parse f.render = .ok f := by
  obtain ⟨ts, offset, derived, run⟩ := prints_render h 0 [] (by simp [Ends])
  rw [List.append_nil] at run
  exact parse_eq_ok_iff.mpr ⟨ts, offset, run, derived.formula⟩

/-- Only identifiers become names. -/
theorem spellable_of_parse {text : String} {f : Formula} (h : parse text = .ok f) :
    f.Spellable := by
  obtain ⟨ts, offset, run, derived⟩ := parse_eq_ok_iff.mp h
  exact derived.forall_leaves run.isName

/-- **Printing and reading are inverse on the spellable formulas, and on no others.** What is read
from any text is spellable, and printed it is read again. Spellable formulas with the same text are
equal. -/
theorem parse_inverts_render :
    (∀ f : Formula, parse f.render = .ok f ↔ f.Spellable) ∧
      (∀ text f, parse text = .ok f → f.Spellable ∧ parse f.render = .ok f) ∧
      ∀ f g : Formula, f.Spellable → g.Spellable → f.render = g.render → f = g := by
  refine ⟨fun f => ⟨spellable_of_parse, parse_render⟩, ?_, ?_⟩
  · intro text f h
    have spellable : f.Spellable := spellable_of_parse h
    exact ⟨spellable, parse_render spellable⟩
  · intro f g hf hg same
    have readf : parse g.render = .ok f := same ▸ parse_render hf
    have readg : parse g.render = .ok g := parse_render hg
    exact Except.ok.inj (readf.symm.trans readg)

/-- `N` stands as a name inside a joint denial, behind negations and with letters behind it. A name
with a blank is not read back, though its letters are. -/
theorem parse_inverts_render_keyword :
    let f := nor (neg (neg (atom "N"))) [binary .or (atom "N") (atom "N0")]
    let text := "N ( ! !N,(N |N0)) "
    f.Spellable ∧ f.render = "N(¬¬N, (N ∨ N0))" ∧ parse text = .ok f ∧ parse f.render = .ok f ∧
      (∀ g : Formula, g.Spellable → g.render = f.render → g = f) ∧
      ¬ (atom "N ").Spellable ∧ parse (atom "N ").render ≠ .ok (atom "N ") := by
  intro f text
  obtain ⟨inverse, again, injective⟩ := parse_inverts_render
  have read : parse text = .ok f := by
    have isSome : (parse text).toOption = some f := by decide +kernel
    cases parsed : parse text with
    | error e =>
      rw [parsed] at isSome
      cases isSome
    | ok g =>
      rw [parsed] at isSome
      cases isSome
      rfl
  have rendered : f.render = "N(¬¬N, (N ∨ N0))" := by
    simp [f, render, norName, BinaryOp.glyph]
  obtain ⟨spellable, back⟩ := again text f read
  have blank : ¬ (atom "N ").Spellable := by
    rw [Spellable, leaves, List.forall_mem_singleton]
    decide
  exact ⟨spellable, rendered, read, back,
    fun g hg same => injective g f hg spellable same, blank, fun h => blank ((inverse _).mp h)⟩

end Formula

end Propositional
