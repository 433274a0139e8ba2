import FilterLex.Token

/-!
# Pieces of input

A piece is what one read of an input delivers. An ordinary input delivers one
character at a time and the empty piece at its end, but an input is free to hand
out several characters at once, so the lexer classifies pieces and not characters:
only a piece of exactly one character belongs to a lexical class.
-/

namespace FilterLex

/-- The characters of one read; none at the end of the input. -/
abbrev Piece := List Char

/-! ## Classes of characters -/

namespace CharClass

def blank (c : Char) : Bool := c = ' ' ∨ c = '\t' ∨ c = '\n' ∨ c = '\r'

def digit (c : Char) : Bool := '0' ≤ c ∧ c ≤ '9'

def identStart (c : Char) : Bool :=
  c = '_' ∨ ('a' ≤ c ∧ c ≤ 'z') ∨ ('A' ≤ c ∧ c ≤ 'Z')

def ident (c : Char) : Bool := identStart c || digit c

def quote (c : Char) : Bool := c = '\'' ∨ c = '"'

def punctuation (c : Char) : Bool := Vocabulary.punctuation.contains c

end CharClass

/-! ## Classes of pieces -/

namespace Piece

/-- A piece of exactly one character that passes a test. -/
def single (test : Char → Bool) : Piece → Bool
  | [c] => test c
  | _ => false

/-- The end of the input. -/
def isEnd (p : Piece) : Bool := p.isEmpty

def isBlank (p : Piece) : Bool := single CharClass.blank p

def isNotBlank (p : Piece) : Bool := !isBlank p

def isDigit (p : Piece) : Bool := single CharClass.digit p

def isIdentStart (p : Piece) : Bool := single CharClass.identStart p

def isIdent (p : Piece) : Bool := single CharClass.ident p

def isQuote (p : Piece) : Bool := single CharClass.quote p

def isPunctuation (p : Piece) : Bool := single CharClass.punctuation p

def describe (p : Piece) : String :=
  if isEnd p then Token.endLexeme else String.ofList (Text.Quoted.encode p)

end Piece

end FilterLex
