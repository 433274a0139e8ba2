import FilterLex.Kind

/-!
# Tokens and their log

A token is a kind together with its lexeme. What the lexeme holds depends on the
kind: the source text of identifiers, numbers, reserved words and operators, the
body of a string without its quotes, the message of an error.

Every error token is logged; every other token is logged on demand. What is logged
depends on the token alone, so logging cannot change what is read.
-/

namespace FilterLex

structure Token where
  kind : Kind
  lexeme : String
  deriving DecidableEq, Repr

namespace Token

def endLexeme : String := "<EOF>"

def endOfInput : Token := ⟨.eof, endLexeme⟩

def ofError (message : String) : Token := ⟨.error, message⟩

def ofChars (kind : Kind) (text : List Char) : Token := ⟨kind, String.ofList text⟩

/-- A final token ends a run: the end of the input or an error. -/
def isFinal (t : Token) : Bool := t.kind = .eof ∨ t.kind = .error

/-- The one-line form of a token, such as `ident('x')`. -/
def render (t : Token) : String :=
  t.kind.displayName ++ "(" ++ Text.Quoted.quote t.lexeme ++ ")"

end Token

namespace Log

def level : String := "DEBUG"

def logger : String := "spacefilter.tokenizer"

/-- The record of a token, if there is one. -/
def record? (debug : Bool) (t : Token) : Option String :=
  if t.kind = .error then some ("Error token: " ++ t.lexeme)
  else if debug then some ("Token: " ++ t.render)
  else none

def records (debug : Bool) (ts : List Token) : List String := ts.filterMap (record? debug)

def line (message : String) : String :=
  "[" ++ level ++ "] " ++ logger ++ ": " ++ message ++ "\n"

end Log

end FilterLex
