import FilterLex.Failure

/-!
# Feeds

A feed is an input that is read one step at a time. It is described by what its
reads will bring: a list of outcomes, and one outcome that every later read repeats.
The repeated outcome is never text, so whoever reads on comes to the end of the
input or to a failure; `Feed.read` takes one outcome away and counts the call.
-/

namespace FilterLex

inductive Outcome
  /-- Text; the empty piece marks the end of the input. -/
  | piece (p : Piece)
  /-- Something other than text. -/
  | foreign (t : ForeignType)
  /-- A failure of the read. -/
  | fault (f : Fault)
  deriving DecidableEq, Repr

/-- What every read brings once the listed outcomes are used up. -/
inductive Tail
  | ended
  | foreign (t : ForeignType)
  | fault (f : Fault)
  deriving DecidableEq, Repr

def Tail.outcome : Tail → Outcome
  | .ended => .piece []
  | .foreign t => .foreign t
  | .fault f => .fault f

/-- What stands behind a feed. A stored text or byte string has a size and a position
that never passes it; a scripted feed counts its calls. -/
inductive Backing
  | text (size : Nat)
  | bytes (size : Nat)
  | script
  deriving DecidableEq, Repr

structure Feed where
  ahead : List Outcome
  tail : Tail := .ended
  backing : Backing := .script
  reads : Nat := 0
  isOpen : Bool := true
  deriving DecidableEq, Repr

namespace Feed

/-! ## Making feeds -/

/-- A stored text is delivered character by character. -/
def ofChars (text : List Char) : Feed :=
  { ahead := text.map fun c => .piece [c], backing := .text text.length }

def ofString (text : String) : Feed := ofChars text.toList

/-- A stored byte string is delivered byte by byte, and no byte is text. -/
def ofBytes (size : Nat) : Feed :=
  { ahead := List.replicate size (.foreign .bytes),
    tail := .foreign .bytes, backing := .bytes size }

/-- A scripted feed performs the given outcomes and then repeats its tail. -/
def ofScript (outcomes : List Outcome) (tail : Tail := .ended) : Feed :=
  { ahead := outcomes, tail }

/-! ## Using feeds -/

/-- One read: the next outcome, and the feed after it. -/
def read (s : Feed) : Outcome × Feed :=
  match s.ahead with
  | [] => (s.tail.outcome, { s with reads := s.reads + 1 })
  | o :: rest => (o, { s with ahead := rest, reads := s.reads + 1 })

/-- The feed after its next `n` listed outcomes have been read. -/
def advance (n : Nat) (s : Feed) : Feed :=
  { s with ahead := s.ahead.drop n, reads := s.reads + n }

/-- The fault that every use of a closed feed brings up. -/
def closedFault (s : Feed) : Fault :=
  match s.backing with
  | .bytes _ => ⟨.device "ValueError", "I/O operation on closed file."⟩
  | _ => ⟨.device "ValueError", "I/O operation on closed file"⟩

/-- A closed feed delivers nothing more. -/
def close (s : Feed) : Feed :=
  { s with ahead := [], tail := .fault s.closedFault, isOpen := false }

def position (s : Feed) : Nat :=
  match s.backing with
  | .text size => min s.reads size
  | .bytes size => min s.reads size
  | .script => s.reads

def tell (s : Feed) : Except Fault Nat :=
  if s.isOpen then .ok s.position else .error s.closedFault

end Feed

end FilterLex
