import FilterLex.Text.Quoted

/-!
# How the command is used

The switches of the command, their spellings, and the texts with which the command
explains itself: the usage line, the help, and what it says to arguments that it does not
understand.
-/

namespace FilterLex.Command

inductive Switch
  | help | file | verbose | lenientStrings
  deriving DecidableEq, Repr

/-- How each switch may be spelled in full. -/
def spellings : List (String × Switch) :=
  [("-h", .help), ("--help", .help), ("--file", .file), ("--verbose", .verbose),
   ("--lenient-strings", .lenientStrings)]

/-- A switch as messages mention it, in all its spellings. -/
def Switch.display (s : Switch) : String :=
  "/".intercalate ((spellings.filter (·.2 == s)).map (·.1))

inductive UsageError
  /-- An abbreviation of several switches. -/
  | ambiguous (argument : String) (spellings : List String)
  /-- A value for a switch that takes none. -/
  | valueIgnored (s : Switch) (value : List Char)
  /-- No value for a switch that takes one. -/
  | valueExpected (s : Switch)
  /-- Switches that do not exist and expressions beyond the first. -/
  | unrecognized (arguments : List String)
  /-- An expression and a file at once. -/
  | twoInputs
  deriving DecidableEq, Repr

def UsageError.message : UsageError → String
  | .ambiguous argument spellings =>
      "ambiguous option: " ++ argument ++ " could match " ++ ", ".intercalate spellings
  | .valueIgnored s value =>
      "argument " ++ s.display ++ ": ignored explicit argument " ++
        String.ofList (Text.Quoted.encode value)
  | .valueExpected s => "argument " ++ s.display ++ ": expected one argument"
  | .unrecognized arguments => "unrecognized arguments: " ++ " ".intercalate arguments
  | .twoInputs => "give either an expression or --file, not both"

def commandName : String := "spacefilter"

def usageLine : String :=
  "usage: " ++ commandName ++ " [-h] [--file FILE] [--verbose] [--lenient-strings] [expr]\n"

def helpText : String :=
  usageLine ++ "\n" ++
  "Print the tokens of a filter expression.\n\n" ++
  "positional arguments:\n" ++
  "  expr               expression to tokenize (default: read stdin)\n\n" ++
  "options:\n" ++
  "  -h, --help         show this help message and exit\n" ++
  "  --file FILE        read the expression from a file\n" ++
  "  --verbose          log every token\n" ++
  "  --lenient-strings  accept a string literal without a closing quote\n"

end FilterLex.Command
