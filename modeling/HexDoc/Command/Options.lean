/-
HexDoc/Command/Options.lean

The command line.  It names at most one input, and may name an output and a format, ask for the
log or for help.

    [input] [-o output | --output output] [-f format | --format format] [-v | --verbose] [-h]

Options and the input come in any order, and the last of several equal options counts.  The
value of an option is the next argument or stands in the same one: `-oout`, `-o=out`,
`--output=out`.  Letters share a dash as long as only the last of them takes a value,
`-vf yaml`, `-vvoout`.  The equals sign is no part of the argument right after the first
letter only: `-o=out` names the output `out`, `-v=oout` does too, and `-vo=out` names `=out`.
A long option may be cut short as long as it means one option only.

After the argument `--`, every argument is an input.  As a value in the argument of its option,
`--` leaves the option blank: `-o--`, `--format=--`.

An argument starts an option if it starts with a dash, with these exceptions: a single dash,
and, unless it means an option, a negative number and anything that contains a space.
-/
import HexDoc.Text.DecimalDigit
import HexDoc.Conversion

namespace HexDoc.Command

/-- Where the conversion goes. -/
inductive Output
  | standard
  | file (path : String)
  /-- Nowhere: the option was left blank. -/
  | blank
deriving DecidableEq, Repr

/-- What the command line asks for. -/
structure Options where
  /-- The path of the document; none stands for standard input. -/
  input : Option String
  output : Output
  /-- The format; none if the option was left blank. -/
  format : Option Format
  verbose : Bool
deriving DecidableEq, Repr

/-- A request that the command line makes. -/
inductive Request
  | help
  | convert (o : Options)
deriving DecidableEq, Repr

/-- The options there are. -/
inductive Switch
  | help
  | output
  | format
  | verbose
deriving DecidableEq, Repr

namespace Switch

/-- Every option. -/
def all : List Switch :=
  [help, output, format, verbose]

/-- The letter of an option, after one dash. -/
def letter : Switch → Char
  | help => 'h'
  | output => 'o'
  | format => 'f'
  | verbose => 'v'

/-- The word of an option, with its two dashes. -/
def word : Switch → String
  | help => "--help"
  | output => "--output"
  | format => "--format"
  | verbose => "--verbose"

/-- Whether an option takes a value. -/
def takesValue : Switch → Bool
  | output => true
  | format => true
  | _ => false

/-- The option of a letter. -/
def ofLetter? (c : Char) : Option Switch :=
  all.find? fun s => s.letter = c

/-- The options whose words start like this. -/
def startingWith (start : List Char) : List Switch :=
  all.filter fun s => start.isPrefixOf s.word.toList

end Switch

/-- An option, with the value that its argument holds, if it holds one. -/
structure Setting where
  switch : Switch
  value? : Option String
deriving DecidableEq, Repr

/-- What an argument is, taken by itself. -/
inductive Argument
  /-- An input, or the value of the option before. -/
  | operand
  /-- Options; only the last of them may have a value. -/
  | settings (ss : List Setting)
  /-- Neither: an unknown option, or one that is used wrongly. -/
  | invalid
deriving DecidableEq, Repr

/-- The options behind one dash, letter by letter.  A letter that takes a value takes all that
is left. -/
def letters? : List Char → Option (List Setting)
  | [] => some []
  | c :: cs =>
    match Switch.ofLetter? c with
    | none => none
    | some s =>
      if s.takesValue then
        some [⟨s, if cs.isEmpty then none else some (String.ofList cs)⟩]
      else
        (letters? cs).map (⟨s, none⟩ :: ·)

/-- The option of a letter and an equals sign, with what is after them: the value, or for an
option that takes none, more letters. -/
def afterEquals? (s : Switch) (cs : List Char) : Option (List Setting) :=
  if s.takesValue then some [⟨s, some (String.ofList cs)⟩]
  else if cs.isEmpty then none
  else (letters? cs).map (⟨s, none⟩ :: ·)

/-- The part before the first equals sign, and the part after it if there is one. -/
def splitEquals (cs : List Char) : List Char × Option String :=
  match cs.dropWhile (· ≠ '=') with
  | [] => (cs, none)
  | _ :: v => (cs.takeWhile (· ≠ '='), some (String.ofList v))

/-- A negative number: a dash and digits, with a point before some of them at most.  A newline
may follow. -/
def isNegativeNumber (cs : List Char) : Bool :=
  let body := if cs.getLast? = some '\n' then cs.dropLast else cs
  match body with
  | '-' :: ds =>
    let fraction := ds.dropWhile isDecimalDigit
    match fraction with
    | [] => !ds.isEmpty
    | '.' :: fs => !fs.isEmpty && fs.all isDecimalDigit
    | _ => false
  | _ => false

/-- What an argument is that starts with a dash and means no option. -/
def withoutOption (cs : List Char) : Argument :=
  if isNegativeNumber cs || cs.contains ' ' then .operand else .invalid

/-- What an argument is, taken by itself. -/
def classify (arg : String) : Argument :=
  match arg.toList with
  | '-' :: '-' :: cs =>
    let (start, value?) := splitEquals ('-' :: '-' :: cs)
    match Switch.startingWith start with
    | [s] => if value?.isSome && !s.takesValue then .invalid else .settings [⟨s, value?⟩]
    | [] => withoutOption ('-' :: '-' :: cs)
    | _ => .invalid
  | '-' :: c :: cs =>
    match Switch.ofLetter? c with
    | none => withoutOption ('-' :: c :: cs)
    | some s =>
      let settings? := match cs with
        | '=' :: cs => afterEquals? s cs
        | cs => letters? (c :: cs)
      match settings? with
      | some ss => .settings ss
      | none => .invalid
  | _ => .operand

namespace Options

/-- What is asked for without any argument. -/
def default : Options :=
  ⟨none, .standard, some .xml, false⟩

/-- The effect of an option, with its value if it takes one; the value `--` is none. -/
def set (o : Options) (s : Switch) (value : String) : Option Request :=
  match s with
  | .help => some .help
  | .output =>
    some (.convert { o with output := if value = "--" then .blank else .file value })
  | .format =>
    if value = "--" then some (.convert { o with format := none })
    else (Format.ofWord? value).map fun f => .convert { o with format := some f }
  | .verbose => some (.convert { o with verbose := true })

end Options

/-- What stands right before the arguments still to be read. -/
inductive Before
  /-- No input has been named so far. -/
  | noInput
  /-- The input, as the very last argument. -/
  | input
  /-- The input further back. -/
  | inputEarlier
deriving DecidableEq, Repr

/-- Where the input stands once an option has been read. -/
def Before.pastOption : Before → Before
  | noInput => noInput
  | _ => inputEarlier

/-- Reads the arguments after `--`. -/
def afterDashes (o : Options) : Before → List String → Option Request
  | .noInput, [] => some (.convert o)
  | .noInput, [arg] => some (.convert { o with input := some arg })
  | .input, [] => some (.convert o)
  | _, _ => none

mutual

/-- Reads arguments, the options set so far in hand. -/
def arguments (o : Options) (before : Before) : List String → Option Request
  | [] => some (.convert o)
  | arg :: args =>
    if arg = "--" then afterDashes o before args
    else
      match classify arg with
      | .invalid => none
      | .operand =>
        if before = .noInput then arguments { o with input := some arg } .input args else none
      | .settings ss => settings o before.pastOption ss args
termination_by args => (args.length, 0)

/-- Applies the options of one argument; the last may take its value from the next argument. -/
def settings (o : Options) (before : Before) (ss : List Setting) (args : List String) :
    Option Request :=
  match ss with
  | [] => arguments o before args
  | ⟨s, some value⟩ :: ss =>
    match o.set s value with
    | some (.convert o) => settings o before ss args
    | r => r
  | ⟨s, none⟩ :: ss =>
    if s.takesValue then
      match args with
      | [] => none
      | value :: args =>
        if value ≠ "--" ∧ classify value = .operand then
          match o.set s value with
          | some (.convert o) => settings o before ss args
          | r => r
        else none
    else
      match o.set s "" with
      | some (.convert o) => settings o before ss args
      | r => r
termination_by (args.length, ss.length + 1)

end

/-- What the command line asks for; nothing when it is used wrongly. -/
def request? (args : List String) : Option Request :=
  arguments .default .noInput args

end HexDoc.Command
