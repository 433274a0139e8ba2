/-!
# Decoding stored text

A decoder that takes one byte at a time and refuses the first byte that no well-formed
text can have at its place. It distinguishes three results: a text, a byte sequence
that is refused as a whole, and one that ends in bytes still held back. An error names
the rejected bytes: the lead byte of the unfinished character and the continuation bytes
that were still acceptable.

Decoded text may end its lines with a line feed, a carriage return, or both; inside, every
line ends with a line feed.
-/

namespace FilterLex.Text

namespace Utf8

/-! ## Errors -/

inductive Reason
  | invalidStart | invalidContinuation | unexpectedEnd
  deriving DecidableEq, Repr

def Reason.text : Reason → String
  | .invalidStart => "invalid start byte"
  | .invalidContinuation => "invalid continuation byte"
  | .unexpectedEnd => "unexpected end of data"

/-- The rejected part of a byte sequence: its first byte, where it starts, how many bytes
it has, and why it is rejected. -/
structure DecodeError where
  first : UInt8
  start : Nat
  size : Nat
  reason : Reason
  deriving DecidableEq, Repr

def hexByte (b : UInt8) : String :=
  String.ofList [Nat.digitChar (b.toNat / 16), Nat.digitChar (b.toNat % 16)]

/-- A single rejected byte is shown, several are counted off; positions are inclusive. -/
def DecodeError.message (e : DecodeError) : String :=
  (if e.size = 1 then
    "'utf-8' codec can't decode byte 0x" ++ hexByte e.first ++ " in position " ++
      toString e.start
  else
    "'utf-8' codec can't decode bytes in position " ++ toString e.start ++ "-" ++
      toString (e.start + e.size - 1)) ++
  ": " ++ e.reason.text

/-! ## Decoding -/

/-- A character whose lead byte has been read: the lead, the bytes read so far, the code
point they give, the continuation bytes owed after the next one, and the range in which
the next one must lie. -/
structure Unfinished where
  first : UInt8
  size : Nat
  code : Nat
  owed : Nat
  low : UInt8 := 0x80
  high : UInt8 := 0xBF
  deriving DecidableEq, Repr

/-- The unfinished character that a lead byte begins. The narrowed ranges keep out
overlong forms, surrogates and numbers beyond the last code point. -/
def lead? (b : UInt8) : Option Unfinished :=
  let n := b.toNat
  if 0xC2 ≤ n ∧ n ≤ 0xDF then some { first := b, size := 1, code := n - 0xC0, owed := 0 }
  else if n = 0xE0 then
    some { first := b, size := 1, code := 0, owed := 1, low := 0xA0 }
  else if n = 0xED then
    some { first := b, size := 1, code := 0xD, owed := 1, high := 0x9F }
  else if 0xE1 ≤ n ∧ n ≤ 0xEF then
    some { first := b, size := 1, code := n - 0xE0, owed := 1 }
  else if n = 0xF0 then
    some { first := b, size := 1, code := 0, owed := 2, low := 0x90 }
  else if 0xF1 ≤ n ∧ n ≤ 0xF3 then
    some { first := b, size := 1, code := n - 0xF0, owed := 2 }
  else if n = 0xF4 then
    some { first := b, size := 1, code := 4, owed := 2, high := 0x8F }
  else none

namespace Unfinished

def accepts (u : Unfinished) (b : UInt8) : Bool := u.low ≤ b ∧ b ≤ u.high

/-- Whether a byte makes the character the beginning of a surrogate. Such a character is
refused, but only once something follows it: at the very end it is held back like any
unfinished one. -/
def beginsSurrogate (u : Unfinished) (b : UInt8) : Bool :=
  u.first = 0xED ∧ u.size = 1 ∧ 0xA0 ≤ b ∧ b ≤ 0xBF

def codeWith (u : Unfinished) (b : UInt8) : Nat := u.code * 64 + (b.toNat - 0x80)

/-- The error of a character that is cut off or goes wrong, when it starts at `start`. -/
def error (u : Unfinished) (start : Nat) (reason : Reason) : DecodeError :=
  { first := u.first, start, size := u.size, reason }

end Unfinished

inductive Decoded
  /-- A well-formed text. -/
  | text (cs : List Char)
  /-- A sequence that is refused as a whole. -/
  | malformed (e : DecodeError)
  /-- A text and bytes held back at the end, where one more character begins. The position
  in the error counts from that beginning. -/
  | truncated (before : List Char) (e : DecodeError)
  deriving DecidableEq, Repr

/-- The same with one more character in front. An error says nothing of the text. -/
def Decoded.cons (c : Char) : Decoded → Decoded
  | .text cs => .text (c :: cs)
  | .malformed e => .malformed e
  | .truncated before e => .truncated (c :: before) e

/-- Decodes bytes after an unfinished character, or after none; `start` is the position at
which the character begins. -/
def decodeFrom (start : Nat) : Option Unfinished → List UInt8 → Decoded
  | none, [] => .text []
  | some u, [] => .truncated [] (u.error 0 .unexpectedEnd)
  | none, b :: rest =>
      if b.toNat < 0x80 then
        (decodeFrom (start + 1) none rest).cons (Char.ofNat b.toNat)
      else
        match lead? b with
        | some u => decodeFrom start (some u) rest
        | none => .malformed { first := b, start, size := 1, reason := .invalidStart }
  | some u, b :: rest =>
      if u.accepts b then
        match u.owed with
        | 0 => (decodeFrom (start + u.size + 1) none rest).cons (Char.ofNat (u.codeWith b))
        | owed + 1 =>
            decodeFrom start
              (some { first := u.first, size := u.size + 1, code := u.codeWith b, owed })
              rest
      else if u.beginsSurrogate b && rest.isEmpty then
        .truncated [] (u.error 0 .invalidContinuation)
      else .malformed (u.error start .invalidContinuation)

def decode (bytes : List UInt8) : Decoded := decodeFrom 0 none bytes

/-- How many bytes a text takes. -/
def encodedSize (cs : List Char) : Nat := (cs.flatMap String.utf8EncodeChar).length

end Utf8

/-! ## Line ends -/

/-- Every line end becomes a line feed. -/
def toLineFeeds : List Char → List Char
  | [] => []
  | '\r' :: '\n' :: rest => '\n' :: toLineFeeds rest
  | c :: rest => (if c = '\r' then '\n' else c) :: toLineFeeds rest

/-- A carriage return at the end is held back while it is not known what follows it. -/
def withoutHeldReturn (text : List Char) : List Char :=
  if text.getLast? = some '\r' then text.dropLast else text

def heldReturn (text : List Char) : List Char :=
  if text.getLast? = some '\r' then ['\r'] else []

end FilterLex.Text
