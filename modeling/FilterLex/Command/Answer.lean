import FilterLex.Command.Arguments
import FilterLex.Command.File
import FilterLex.Source

/-!
# What the command answers

The command prints the tokens of its input, one to a line, and says by its exit status
whether they end in an error. `answer` gives the whole of it as a function of the
arguments, the files and the standard input.
-/

namespace FilterLex.Command

/-! ## Reports -/

/-- What the command leaves behind: its exit status and what it wrote. -/
structure Report where
  exitCode : Nat := 0
  stdout : String := ""
  stderr : String := ""
  deriving DecidableEq, Repr

def tokenLine (t : Token) : String :=
  t.kind.displayName ++ "\t" ++ Text.Quoted.quote t.lexeme ++ "\n"

/-- The line that repeats the message of an error token. -/
def errorLine (t : Token) : String := "[error] " ++ t.lexeme ++ "\n"

def lastError? (ts : List Token) : Option Token :=
  ts.getLast?.filter (·.kind == .error)

namespace Report

def ofTokens (verbose : Bool) (ts : List Token) : Report :=
  let log := if verbose then (Log.records true ts).map Log.line else []
  let error := lastError? ts
  { exitCode := if error.isSome then 1 else 0
    stdout := String.join (ts.map tokenLine)
    stderr := String.join (log ++ error.toList.map errorLine) }

/-- The report on arguments that lead to no run. -/
def ofStop : Stop → Report
  | .help => { stdout := helpText }
  | .usage e => {
      exitCode := 2
      stderr := usageLine ++ commandName ++ ": error: " ++ e.message ++ "\n" }

end Report

/-! ## Inputs -/

def Lookup.feed (name : String) : Lookup → Except FileError Feed
  | .content bytes => .ok (Feed.ofDocument bytes)
  | .problem p => .error ⟨name, p⟩

/-- An input as a feed. An expression is taken as it is. -/
def Input.feed (files : String → Lookup) (stdin : List UInt8) : Input → Except FileError Feed
  | .file name => (files name).feed name
  | .expression text => .ok (Feed.ofString text)
  | .standard => .ok (Feed.ofDocument stdin)

/-! ## Answers -/

def Settings.options (s : Settings) : Options := { strictStrings := !s.lenientStrings }

def Settings.report (s : Settings) (feed : Feed) : Report :=
  Report.ofTokens s.verbose (Lexer.run s.options { feed }).tokens

/-- What the command answers: a report, or a file that cannot be opened. -/
inductive Answer
  | report (r : Report)
  | unreadable (e : FileError)
  deriving DecidableEq, Repr

/-- The answer to the given arguments, files and standard input. -/
def answer (arguments : List String) (files : String → Lookup) (stdin : List UInt8) : Answer :=
  match parse arguments with
  | .error stop => .report (Report.ofStop stop)
  | .ok settings =>
      match settings.input.feed files stdin with
      | .ok feed => .report (settings.report feed)
      | .error e => .unreadable e

end FilterLex.Command
