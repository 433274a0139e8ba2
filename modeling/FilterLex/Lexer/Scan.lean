import FilterLex.Reader

/-!
# Reading one token

`scan` skips blanks and reads one token. The piece it then sees decides which kind of
token follows; each kind has an action of its own, which may be used by itself and
then takes the reader as it finds it. Only the piece after a token is ever looked at,
and only where the token's end depends on it.

`consume` is `scan` with its failures reported: malformed input and trouble with the
source become error tokens, so a caller reads one stream of tokens. Only a fault that
is neither leaves the lexer.
-/

namespace FilterLex

structure Options where
  /-- Whether a string without its closing quote is an error. -/
  strictStrings : Bool := true
  deriving DecidableEq, Repr

namespace Lexer

open Reader

def scanEnd : ReadM Token := pure Token.endOfInput

/-- An integer, or a decimal fraction where a point follows the digits. The point has
to be followed by a digit. -/
def scanNumber : ReadM Token := do
  let whole ← takeRun Piece.isDigit
  if (← peek) = ['.'] then
    let _ ← take
    let next ← peek
    if next.isDigit then
      let fraction ← takeRun Piece.isDigit
      return Token.ofChars .float (whole ++ '.' :: fraction)
    else
      throw (.lexical (.expectedDigit next))
  else
    return Token.ofChars .int whole

/-- An identifier, or the reserved word that is spelled like it. -/
def scanIdent : ReadM Token := do
  let word := String.ofList (← takeRun Piece.isIdent)
  return ⟨(Vocabulary.keyword? word).getD .ident, word⟩

/-- A string up to the next `quote`. The piece in front is its opening quote. -/
def scanString (options : Options) (quote : Piece) : ReadM Token := do
  let _ ← take
  let body ← takeRun (· != quote)
  if (← peek).isEnd then
    if options.strictStrings then
      throw (.lexical .unterminatedString)
    else
      return Token.ofChars .string body
  else
    let _ ← take
    return Token.ofChars .string body

/-- An operator that begins with `mark`, the piece in front. Two characters are taken
where they form an operator. -/
def scanPunctuation (mark : Piece) : ReadM Token := do
  let _ ← take
  let following ← peek
  match Vocabulary.pair? (mark ++ following) with
  | some kind =>
      let _ ← take
      return Token.ofChars kind (mark ++ following)
  | none =>
      match Vocabulary.operator? (String.ofList mark) with
      | some kind => return Token.ofChars kind mark
      | none => throw (.lexical (.unexpectedPunctuation mark))

def scanUnknown : ReadM Token :=
  return Token.ofChars .unknown (← takeRun Piece.isNotBlank)

/-- The token that begins with the given piece, which is in front. -/
def scanFrom (options : Options) (first : Piece) : ReadM Token :=
  if first.isEnd then scanEnd
  else if first.isDigit then scanNumber
  else if first.isIdentStart then scanIdent
  else if first.isQuote then scanString options first
  else if first.isPunctuation then scanPunctuation first
  else scanUnknown

def scan (options : Options) : ReadM Token := do
  let _ ← takeRun Piece.isBlank
  scanFrom options (← peek)

/-! ## Reporting failures -/

/-- Actions on a reader from which only faults escape. -/
abbrev ConsumeM := EStateM Fault Reader

/-- The next token, or the error token that reports why there is none. -/
def consume (options : Options) : ConsumeM Token := fun r =>
  match scan options r with
  | .ok token r => .ok token r
  | .error failure r =>
      match failure.toToken? with
      | .ok token => .ok token r
      | .error fault => .error fault r

end Lexer

end FilterLex
