import FilterLex.Text.Printable

/-!
# Quoted text

The written form in which lexemes are shown: between quotation marks, on one
line, with everything that cannot be shown as it is escaped. `encode` writes the
form and `decode` reads it back.

The mark is the apostrophe, unless the text holds an apostrophe and no double
quote. The mark itself and the backslash get a backslash in front; tab, line feed
and carriage return have letters; every other unprintable character is given by
its code point in two, four or eight hexadecimal digits, the fewest that hold it.
-/

namespace FilterLex.Text.Quoted

/-! ## Writing -/

def mark (s : List Char) : Char :=
  if s.contains '\'' && !s.contains '"' then '"' else '\''

/-- The lowest `width` hexadecimal digits of a number, in lower case. -/
def hex : (width : Nat) → Nat → List Char
  | 0, _ => []
  | width + 1, n => hex width (n / 16) ++ [Nat.digitChar (n % 16)]

def escapeCode (n : Nat) : List Char :=
  if n < 0x100 then '\\' :: 'x' :: hex 2 n
  else if n < 0x10000 then '\\' :: 'u' :: hex 4 n
  else '\\' :: 'U' :: hex 8 n

/-- A character as it stands between the marks `q`. -/
def escape (q c : Char) : List Char :=
  if c = q ∨ c = '\\' then ['\\', c]
  else if c = '\t' then ['\\', 't']
  else if c = '\n' then ['\\', 'n']
  else if c = '\r' then ['\\', 'r']
  else if isPrintable c then [c]
  else escapeCode c.toNat

def encode (s : List Char) : List Char :=
  mark s :: (s.flatMap (escape (mark s)) ++ [mark s])

def quote (s : String) : String := String.ofList (encode s.toList)

/-! ## Reading -/

def hexValue? (c : Char) : Option Nat :=
  if c.isDigit then some (c.toNat - '0'.toNat)
  else if 'a' ≤ c ∧ c ≤ 'f' then some (c.toNat - 'a'.toNat + 10)
  else none

/-- The character whose code point is written by the given hexadecimal digits. -/
def unhex? (digits : List Char) : Option Char := do
  let n ← digits.foldlM (fun n d => (hexValue? d).map (16 * n + ·)) 0
  if n.isValidChar then some (Char.ofNat n) else none

/-- Reads up to the closing mark `q`, which has to end the text. -/
def decodeBody (q : Char) : List Char → Option (List Char)
  | [] => none
  | '\\' :: 'x' :: a :: b :: rest => do
      let c ← unhex? [a, b]
      return c :: (← decodeBody q rest)
  | '\\' :: 'u' :: a :: b :: c :: d :: rest => do
      let x ← unhex? [a, b, c, d]
      return x :: (← decodeBody q rest)
  | '\\' :: 'U' :: a :: b :: c :: d :: e :: f :: g :: h :: rest => do
      let x ← unhex? [a, b, c, d, e, f, g, h]
      return x :: (← decodeBody q rest)
  | '\\' :: c :: rest =>
      if c = 't' then (decodeBody q rest).map ('\t' :: ·)
      else if c = 'n' then (decodeBody q rest).map ('\n' :: ·)
      else if c = 'r' then (decodeBody q rest).map ('\r' :: ·)
      else if c = q ∨ c = '\\' then (decodeBody q rest).map (c :: ·)
      else none
  | c :: rest =>
      if c = q then if rest.isEmpty then some [] else none
      else (decodeBody q rest).map (c :: ·)

/-- The text that a quoted form stands for. -/
def decode : List Char → Option (List Char)
  | [] => none
  | q :: rest => if q = '\'' ∨ q = '"' then decodeBody q rest else none

end FilterLex.Text.Quoted
