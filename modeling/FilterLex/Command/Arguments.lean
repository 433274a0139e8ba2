import FilterLex.Command.Usage

/-!
# Command-line arguments

Arguments are read in two passes. `classify` sorts them, each by itself: expressions,
switches with or without a value attached, unknown switches, and the separator after which
everything is an expression. `interpret` then walks over the sorted words from left to
right. A switch may be shortened as long as it stays unambiguous.

The first group of expressions between switches supplies the one expression that the
command takes; whatever is left over is reported at the end. Help acts as soon as it is
met.
-/

namespace FilterLex.Command

/-! ## Sorting the arguments -/

inductive Word
  | plain (text : String)
  /-- The first `--`. -/
  | separator
  /-- A switch in a long spelling, and the value after its equals sign. -/
  | long (s : Switch) (value : Option (List Char))
  /-- The short help switch, and what is directly attached to it. -/
  | short (attached : List Char)
  | unknown (text : String)
  deriving DecidableEq, Repr

/-- The code points of the digits zero of all scripts (general category Nd, Unicode 14.0). Each
script has its ten digits in a row, zero first. -/
def digitZeros : List Nat :=
  [0x30, 0x660, 0x6F0, 0x7C0, 0x966, 0x9E6, 0xA66, 0xAE6, 0xB66, 0xBE6, 0xC66, 0xCE6,
    0xD66, 0xDE6, 0xE50, 0xED0, 0xF20, 0x1040, 0x1090, 0x17E0, 0x1810, 0x1946, 0x19D0,
    0x1A80, 0x1A90, 0x1B50, 0x1BB0, 0x1C40, 0x1C50, 0xA620, 0xA8D0, 0xA900, 0xA9D0,
    0xA9F0, 0xAA50, 0xABF0, 0xFF10, 0x104A0, 0x10D30, 0x11066, 0x110F0, 0x11136,
    0x111D0, 0x112F0, 0x11450, 0x114D0, 0x11650, 0x116C0, 0x11730, 0x118E0, 0x11950,
    0x11C50, 0x11D50, 0x11DA0, 0x16A60, 0x16AC0, 0x16B50, 0x1D7CE, 0x1D7D8, 0x1D7E2,
    0x1D7EC, 0x1D7F6, 0x1E140, 0x1E2F0, 0x1E950, 0x1FBF0]

def isDecimalDigit (c : Char) : Bool :=
  digitZeros.any fun low => low ≤ c.toNat && c.toNat < low + 10

/-- Minus signs before digits do not make a switch: `-12`, `-.5` and `-1.5` are plain. A
line feed at the end is allowed. -/
def isNegativeNumber (argument : List Char) : Bool :=
  match argument with
  | '-' :: body =>
      let body := if body.getLast? = some '\n' then body.dropLast else body
      let whole := body.takeWhile isDecimalDigit
      match body.dropWhile isDecimalDigit with
      | [] => !whole.isEmpty
      | '.' :: fraction => !fraction.isEmpty && fraction.all isDecimalDigit
      | _ => false
  | _ => false

def splitValue (argument : List Char) : List Char × Option (List Char) :=
  (argument.takeWhile (· != '='),
    match argument.dropWhile (· != '=') with
    | [] => none
    | _ :: value => some value)

def otherWord (argument : List Char) : Word :=
  if isNegativeNumber argument || argument.contains ' ' then .plain (String.ofList argument)
  else .unknown (String.ofList argument)

def abbreviated (name : List Char) : List (String × Switch) :=
  spellings.filter fun p => name.isPrefixOf p.1.toList

/-- An argument that begins with two minus signs: a switch in full or shortened, perhaps
with a value. -/
def classifyLong (argument : List Char) : Except UsageError Word :=
  let (name, value) := splitValue argument
  match spellings.lookup (String.ofList name), abbreviated name with
  | some s, _ => .ok (.long s value)
  | none, [] => .ok (otherWord argument)
  | none, [(_, s)] => .ok (.long s value)
  | none, several => .error (.ambiguous (String.ofList argument) (several.map (·.1)))

/-- An argument by itself, when no separator stands before it. -/
def classify (argument : String) : Except UsageError Word :=
  match argument.toList with
  | '-' :: '-' :: rest => classifyLong ('-' :: '-' :: rest)
  | '-' :: 'h' :: attached => .ok (.short attached)
  | '-' :: c :: rest => .ok (otherWord ('-' :: c :: rest))
  | _ => .ok (.plain argument)

/-- All arguments. The first `--` makes the ones after it plain. -/
def words : List String → Except UsageError (List Word)
  | [] => .ok []
  | argument :: rest =>
      if argument = "--" then .ok (.separator :: rest.map .plain)
      else do
        let word ← classify argument
        return word :: (← words rest)

/-! ## Interpreting the words -/

inductive Place
  | free
  /-- A separator has been met; the next word takes the place. -/
  | separated
  /-- Taken by the word before; a separator after it is dropped. -/
  | justTaken
  | closed
  deriving DecidableEq, Repr

def Place.afterSwitch : Place → Place
  | .free => .free
  | _ => .closed

structure Gathered where
  place : Place := .free
  expression : Option String := none
  file : List Char := []
  verbose : Bool := false
  lenientStrings : Bool := false
  surplus : List String := []
  deriving DecidableEq, Repr

inductive Stop
  | help
  | usage (e : UsageError)
  deriving DecidableEq, Repr

namespace Gathered

def withSurplus (g : Gathered) (text : String) : Gathered :=
  { g with surplus := g.surplus ++ [text] }

def afterSwitch (g : Gathered) : Gathered := { g with place := g.place.afterSwitch }

/-- An expression takes the place if it may. -/
def plain (g : Gathered) (text : String) : Gathered :=
  match g.place with
  | .free => { g with place := .justTaken, expression := some text }
  | .separated => { g with place := .closed, expression := some text }
  | .justTaken | .closed => { g.withSurplus text with place := .closed }

/-- A separator is dropped beside the expression and surplus elsewhere. -/
def separator (g : Gathered) : Gathered :=
  match g.place with
  | .free => { g with place := .separated }
  | .justTaken => { g with place := .closed }
  | .separated | .closed => g.withSurplus "--"

/-- The file to read; the last one named counts. -/
def withFile (g : Gathered) (name : List Char) : Gathered :=
  { g.afterSwitch with file := name }

def flag (g : Gathered) : Switch → Gathered
  | .verbose => { g.afterSwitch with verbose := true }
  | .lenientStrings => { g.afterSwitch with lenientStrings := true }
  | .help | .file => g.afterSwitch

end Gathered

/-- The short help switch repeated any number of times, as in `-hhh`; nothing else may
follow it. -/
def repeatedHelp (attached : List Char) : Stop :=
  match attached.dropWhile (· = 'h') with
  | [] => .help
  | rest => .usage (.valueIgnored .help rest)

/-- The short help switch with something attached. It takes no value, but what follows an
equals sign may repeat the switch. -/
def shortHelp : List Char → Stop
  | ['='] => .usage (.valueIgnored .help [])
  | '=' :: value => repeatedHelp value
  | attached => repeatedHelp attached

/-- The file name that is attached to its switch. A separator there is dropped as it is
elsewhere, and leaves no name; later parsers keep it as a name, and differ in this alone. -/
def attachedName (value : List Char) : List Char :=
  if value = ['-', '-'] then [] else value

def interpret : Gathered → List Word → Except Stop Gathered
  | g, [] => .ok g
  | g, .plain text :: rest => interpret (g.plain text) rest
  | g, .separator :: rest => interpret g.separator rest
  | g, .unknown text :: rest => interpret (g.afterSwitch.withSurplus text) rest
  | _, .short attached :: _ => .error (shortHelp attached)
  | g, .long .file (some value) :: rest => interpret (g.withFile (attachedName value)) rest
  | g, .long .file none :: .plain name :: rest => interpret (g.withFile name.toList) rest
  | _, .long .file none :: _ => .error (.usage (.valueExpected .file))
  | _, .long s (some value) :: _ => .error (.usage (.valueIgnored s value))
  | _, .long .help none :: _ => .error .help
  | g, .long s none :: rest => interpret (g.flag s) rest

/-! ## Settings -/

inductive Input
  | file (name : String)
  | expression (text : String)
  | standard
  deriving DecidableEq, Repr

structure Settings where
  input : Input := .standard
  verbose : Bool := false
  lenientStrings : Bool := false
  deriving DecidableEq, Repr

/-- The input that was asked for: a file if its name is not empty, else the expression,
even an empty one, else the standard input. -/
def Gathered.input? (g : Gathered) : Except UsageError Input :=
  match g.expression, g.file with
  | none, [] => .ok .standard
  | some text, [] => .ok (.expression text)
  | none, name => .ok (.file (String.ofList name))
  | some _, _ => .error .twoInputs

def Gathered.settings (g : Gathered) : Except UsageError Settings :=
  if g.surplus.isEmpty then do
    return { input := ← g.input?, verbose := g.verbose, lenientStrings := g.lenientStrings }
  else .error (.unrecognized g.surplus)

def parse (arguments : List String) : Except Stop Settings := do
  let words ← (words arguments).mapError .usage
  let gathered ← interpret {} words
  gathered.settings.mapError .usage

end FilterLex.Command
