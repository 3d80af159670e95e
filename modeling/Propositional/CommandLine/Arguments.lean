import Propositional.CommandLine.Request

/-!
# Arguments of the command line

An argument that begins with `-` names an option, unless it is `-` itself or stands behind `--`. A
long option takes its value behind `=` or from the next argument; short options may share one
argument, and the value of the last one may follow directly or behind `=`. All other arguments are
operands.

`Command.ofArguments?` knows the subcommands and their options. `Topic.ofArguments?` finds what the
arguments ask about the program itself: of an option for help, or for the version, and a mistake, the
one that stands first counts. `Request.ofArguments` refuses everything else.
-/

namespace Propositional

namespace CommandLine

structure OptionSpec where
  long : String
  short : Option Char
  takesValue : Bool
  mayRepeat : Bool

/-- An operand, or an option with its value; an option without one has the empty value. -/
inductive Argument
  | operand (text : String)
  | option (long value : String)

def findLong? (specs : List OptionSpec) (name : List Char) : Option OptionSpec :=
  specs.find? fun spec => spec.long.toList == name

def findShort? (specs : List OptionSpec) (name : Char) : Option OptionSpec :=
  specs.find? fun spec => spec.short == some name

/-- An option that is written out and still lacks its value. -/
inductive Scanned
  | complete (arguments : List Argument)
  | needsValue (arguments : List Argument) (long : String)

/-- The characters before the first `=` and, where there is one, those behind it. -/
def splitAtEquals : List Char → List Char × Option (List Char)
  | [] => ([], none)
  | '=' :: rest => ([], some rest)
  | c :: rest =>
    let (before, behind) := splitAtEquals rest
    (c :: before, behind)

def scanLong? (specs : List OptionSpec) (text : List Char) : Option Scanned :=
  let (name, value) := splitAtEquals text
  match findLong? specs name with
  | none => none
  | some spec =>
    match spec.takesValue, value with
    | true, some value => some (.complete [.option spec.long (String.ofList value)])
    | true, none => some (.needsValue [] spec.long)
    | false, some _ => none
    | false, none => some (.complete [.option spec.long ""])

/-- The first option that takes a value takes the rest of the argument. -/
def scanShort? (specs : List OptionSpec) : List Char → Option Scanned
  | [] => some (.complete [])
  | c :: rest =>
    match findShort? specs c with
    | none => none
    | some spec =>
      if spec.takesValue then
        match rest with
        | [] => some (.needsValue [] spec.long)
        | '=' :: value => some (.complete [.option spec.long (String.ofList value)])
        | value => some (.complete [.option spec.long (String.ofList value)])
      else
        match scanShort? specs rest with
        | none => none
        | some (.complete arguments) => some (.complete (.option spec.long "" :: arguments))
        | some (.needsValue arguments long) =>
          some (.needsValue (.option spec.long "" :: arguments) long)

/-- A single `-` is no option. -/
def isOption (text : String) : Bool :=
  match text.toList with
  | '-' :: _ :: _ => true
  | _ => false

/-- What one argument that is an option says. -/
def scanOption? (specs : List OptionSpec) (text : String) : Option Scanned :=
  match text.toList with
  | '-' :: '-' :: long => scanLong? specs long
  | '-' :: short => scanShort? specs short
  | _ => none

def scanArguments? (specs : List OptionSpec) : List String → Option (List Argument)
  | [] => some []
  | "--" :: operands => some (operands.map .operand)
  | text :: texts =>
    if isOption text then
      match scanOption? specs text, texts with
      | none, _ => none
      | some (.complete arguments), texts => (scanArguments? specs texts).map (arguments ++ ·)
      | some (.needsValue _ _), [] => none
      | some (.needsValue arguments long), value :: texts =>
        if isOption value then none
        else (scanArguments? specs texts).map (arguments ++ .option long value :: ·)
    else (scanArguments? specs texts).map (.operand text :: ·)

/-- The values of an option, in the order in which they were given. -/
def valuesOf (long : String) (arguments : List Argument) : List String :=
  arguments.filterMap fun
    | .option name value => if name = long then some value else none
    | .operand _ => none

def operandsOf (arguments : List Argument) : List String :=
  arguments.filterMap fun
    | .operand text => some text
    | .option _ _ => none

def respectsCounts (specs : List OptionSpec) (arguments : List Argument) : Bool :=
  specs.all fun spec => spec.mayRepeat || (valuesOf spec.long arguments).length ≤ 1

end CommandLine

namespace Command

open CommandLine

/-- How much is told about the course of a command changes nothing that is printed here. -/
def verbose : OptionSpec := ⟨"verbose", some 'v', false, true⟩

def flag (long : String) : OptionSpec := ⟨long, none, false, false⟩

/-- Lists are given with commas between their elements, empty elements included. -/
def splitAtCommas : List Char → List (List Char)
  | [] => [[]]
  | ',' :: rest => [] :: splitAtCommas rest
  | c :: rest =>
    match splitAtCommas rest with
    | [] => [[c]]
    | first :: others => (c :: first) :: others

def elements (value : String) : List String :=
  (splitAtCommas value.toList).map String.ofList

def specs : String → Option (List OptionSpec)
  | "tokens" => some []
  | "tree" => some [flag "json"]
  | "atoms" => some [flag "explain"]
  | "eval" => some [⟨"set", none, true, true⟩]
  | "restrict" => some [⟨"basis", some 'b', true, false⟩, flag "explain", flag "check"]
  | "table" => some [flag "attributes"]
  | _ => none

/-- The subcommand with its one operand and its options. -/
def build (name formula : String) (arguments : List Argument) : Option Command :=
  let given long := !(valuesOf long arguments).isEmpty
  match name with
  | "tokens" => some (.tokens formula)
  | "tree" => some (.tree formula (given "json"))
  | "atoms" => some (.atoms formula (given "explain"))
  | "eval" => some (.eval formula ((valuesOf "set" arguments).flatMap elements))
  | "restrict" =>
    some (.restrict formula ((valuesOf "basis" arguments).headD "all") (given "explain")
      (given "check"))
  | "table" => some (.table formula (given "attributes"))
  | _ => none

/-- The command that the arguments behind the name of a subcommand describe. -/
def ofSubcommand? (name : String) (texts : List String) : Option Command :=
  match specs name with
  | none => none
  | some specs =>
    let specs := verbose :: specs
    match scanArguments? specs texts with
    | none => none
    | some arguments =>
      match operandsOf arguments, respectsCounts specs arguments with
      | [formula], true => build name formula arguments
      | _, _ => none

/-- Before the subcommand only the option for verbosity may stand. -/
def ofArguments? : List String → Option Command
  | [] => none
  | text :: texts =>
    if isOption text then
      match scanOption? [verbose] text with
      | some (.complete _) => ofArguments? texts
      | _ => none
    else ofSubcommand? text texts

end Command

/-- What the program can be asked about itself. -/
inductive Topic
  | help
  | version

namespace Topic

open CommandLine

def text : Topic → String
  | .help => "usage: (tokens | tree | atoms | eval | restrict | table) FORMULA [OPTIONS]\n"
  | .version => "logic_cli 0.1.0\n"

def long : Topic → String
  | .help => "help"
  | .version => "version"

def short : Topic → Char
  | .help => 'h'
  | .version => 'V'

/-- The first topic among short options. The options before it are known and take no value. -/
def ofShort? (topics : List Topic) (specs : List OptionSpec) : List Char → Option Topic
  | [] => none
  | c :: rest =>
    match topics.find? fun topic => topic.short == c with
    | some topic => some topic
    | none =>
      match findShort? specs c with
      | some spec => if spec.takesValue then none else ofShort? topics specs rest
      | none => none

def ofOption? (topics : List Topic) (specs : List OptionSpec) (text : String) : Option Topic :=
  match text.toList with
  | '-' :: '-' :: long => topics.find? fun topic => topic.long.toList == long
  | '-' :: short => ofShort? topics specs short
  | _ => none

/-- More arguments may follow these: there is no mistake in them, and no option lacks its value. -/
def isOpen (specs : List OptionSpec) (texts : List String) : Bool :=
  match scanArguments? specs texts with
  | none => false
  | some arguments =>
    !texts.contains "--" && (operandsOf arguments).length ≤ 1 && respectsCounts specs arguments

/-- The first topic that is asked for behind the name of a subcommand. -/
def among? (specs : List OptionSpec) (before : List String) : List String → Option Topic
  | [] => none
  | text :: texts =>
    match ofOption? [.help] specs text with
    | some topic => if isOpen specs before then some topic else none
    | none => among? specs (before ++ [text]) texts

/-- The version is told before the name of a subcommand only. -/
def ofArguments? : List String → Option Topic
  | [] => none
  | text :: texts =>
    if isOption text then
      match ofOption? [.help, .version] [Command.verbose] text with
      | some topic => some topic
      | none =>
        match scanOption? [Command.verbose] text with
        | some (.complete _) => ofArguments? texts
        | _ => none
    else if text = "help" then
      match texts with
      | [] => some .help
      | [name] => if name = "help" || (Command.specs name).isSome then some .help else none
      | _ => none
    else
      match Command.specs text with
      | some specs => among? (Command.verbose :: specs) [] texts
      | none => none

end Topic

/-- What this program's own parser makes of the arguments. -/
def Request.ofArguments (arguments : List String) : Request :=
  match Command.ofArguments? arguments with
  | some understood => .command understood
  | none =>
    match Topic.ofArguments? arguments with
    | some topic => .about fun _ => topic.text
    | none => .refused

end Propositional
