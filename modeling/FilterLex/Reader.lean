import FilterLex.Feed

/-!
# Reading with one piece of lookahead

A reader puts one piece of lookahead in front of a feed, and reads no further than
the piece that it holds back. `peek` fills the lookahead, `take` empties it, and
`takeRun` takes the longest run of pieces that pass a test.

All three are described by `upcoming`, the outcomes that the reader will meet: the
piece held back, if there is one, and then those of the feed.
-/

namespace FilterLex

/-- A feed and the piece that was read from it but not taken yet. The empty piece, too,
can be held back: it is the end of the input. -/
structure Reader where
  feed : Feed
  pending : Option Piece := none
  deriving DecidableEq, Repr

/-- Actions on a reader, which may fail. A failure keeps the reader as it then is. -/
abbrev ReadM := EStateM Failure Reader

/-- Text that passes a test. The end of the input passes none. -/
def Outcome.accepted (accept : Piece → Bool) : Outcome → Bool
  | .piece p => !p.isEnd && accept p
  | _ => false

def Outcome.chars : Outcome → List Char
  | .piece p => p
  | _ => []

namespace Reader

/-- The outcomes that the reader will meet. -/
def upcoming (r : Reader) : List Outcome :=
  match r.pending with
  | some p => .piece p :: r.feed.ahead
  | none => r.feed.ahead

/-- The reader after its next `n` upcoming outcomes. -/
def drop (n : Nat) (r : Reader) : Reader :=
  match n, r.pending with
  | 0, _ => r
  | n + 1, some _ => { feed := r.feed.advance n }
  | n + 1, none => { r with feed := r.feed.advance (n + 1) }

/-- The next piece, which stays in place. Only a reader that holds nothing back reads
its feed, and a read that fails leaves nothing held back. -/
def peek : ReadM Piece := fun r =>
  match r.pending with
  | some p => .ok p r
  | none =>
      match r.feed.read with
      | (.piece p, feed) => .ok p { feed, pending := some p }
      | (.foreign t, feed) => .error (.reading (Fault.notText t)) { feed }
      | (.fault f, feed) => .error (.reading f.atReader) { feed }

def take : ReadM Piece := do
  let p ← peek
  modify fun r => { r with pending := none }
  return p

/-- The longest run of upcoming pieces that pass a test, joined. The piece after the
run has been looked at when the action ends, so a failure there is a failure of the
action, and the run is lost. -/
def takeRun (accept : Piece → Bool) : ReadM (List Char) := do
  let run := (← get).upcoming.takeWhile (·.accepted accept)
  modify (drop run.length)
  let _ ← peek
  return run.flatMap Outcome.chars

end Reader

end FilterLex
