import FilterLex.Piece

/-!
# What can go wrong

Three layers of trouble meet in the lexer. A *fault* is what a read of the input
brings up: its cause and a message. A *lexical error* is malformed input inside
one token. A *failure* is either of the two; `Failure.toToken?` says which failures
are reported as tokens and which leave the lexer.
-/

namespace FilterLex

/-! ## Faults -/

/-- A type of data other than text, by the name that messages mention it by. -/
structure ForeignType where
  name : String
  deriving DecidableEq, Repr

def ForeignType.null : ForeignType := ⟨"NoneType"⟩

def ForeignType.bytes : ForeignType := ⟨"bytes"⟩

/-- The cause of a fault: the name of its class, and the first of these families that the
class belongs to. -/
inductive FaultKind
  /-- Trouble of the device or the data behind an input. -/
  | device (name : String)
  /-- Trouble with the source or the scanning, in the lexer's own terms. -/
  | lexer (name : String)
  /-- The end of an iteration. -/
  | exhaustion (name : String)
  /-- Any other mistake of the program that provides the input. -/
  | other (name : String)
  deriving DecidableEq, Repr

def FaultKind.source : FaultKind := .lexer "SourceError"

structure Fault where
  kind : FaultKind
  message : String
  deriving DecidableEq, Repr

namespace Fault

/-- A reader reports trouble of the device or the data as trouble with its source and
keeps the message; other faults are none of its business. -/
def atReader (f : Fault) : Fault :=
  match f.kind with
  | .device _ => ⟨.source, f.message⟩
  | _ => f

/-- The fault of a read that delivers something other than text. -/
def notText (t : ForeignType) : Fault :=
  ⟨.source, "expected a text stream, got " ++ t.name ++ " data"⟩

/-- Faults that concern the source or the scanning are reported as tokens. -/
def isReported (f : Fault) : Bool :=
  match f.kind with
  | .lexer _ => true
  | _ => false

/-- An iteration would be taken for finished if it let the end of another one through, so
that fault leaves it as an error of its own. -/
def leavingIteration (f : Fault) : Fault :=
  match f.kind with
  | .exhaustion _ => ⟨.other "RuntimeError", "generator raised StopIteration"⟩
  | _ => f

end Fault

/-! ## Lexical errors -/

/-- Malformed input inside one token. -/
inductive LexicalError
  /-- A decimal point that is not followed by a digit. -/
  | expectedDigit (found : Piece)
  /-- A punctuation mark that is no operator. -/
  | unexpectedPunctuation (mark : Piece)
  /-- A string without its closing quote. -/
  | unterminatedString
  deriving DecidableEq, Repr

def LexicalError.message : LexicalError → String
  | .expectedDigit found => "expected digit, found " ++ found.describe
  | .unexpectedPunctuation mark =>
      "unexpected punctuation: " ++ String.ofList (Text.Quoted.encode mark)
  | .unterminatedString => "unterminated string literal"

/-! ## Failures -/

inductive Failure
  | lexical (e : LexicalError)
  | reading (f : Fault)
  deriving DecidableEq, Repr

namespace Failure

def message : Failure → String
  | .lexical e => e.message
  | .reading f => f.message

/-- The error token that reports a failure, or the fault that leaves the lexer. -/
def toToken? : Failure → Except Fault Token
  | .lexical e => .ok (Token.ofError e.message)
  | .reading f => if f.isReported then .ok (Token.ofError f.message) else .error f

end Failure

end FilterLex
