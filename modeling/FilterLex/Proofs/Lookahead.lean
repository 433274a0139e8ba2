import FilterLex.Lexer.Progress

/-!
# What a reader does, in terms of what comes next

A reader is its upcoming outcomes and whether the first of them is held back. This
module says what `peek`, `take` and `takeRun` do in these terms: each looks at or drops
outcomes from the front, and the only other change it makes is to hold back the piece
that it stopped at.

- `next` / `hold`: the outcome in front, and the reader that holds it back.
- `peek_of_piece`, `peek_of_fault`, `take_hold`, `takeRun_eq`: one law per action.
- `takeRun_hold`: a piece held back makes no difference to a run. The lexer starts every
  token with a run, so it makes no difference to the lexer either.
-/

namespace FilterLex

/-- The fault that a read reports for an outcome, if it is not text. -/
def Outcome.fault? : Outcome → Option Fault
  | .piece _ => none
  | .foreign t => some (Fault.notText t)
  | .fault f => some f.atReader

theorem Outcome.piece_or_fault (o : Outcome) :
    (∃ p, o = .piece p) ∨ ∃ f, o.fault? = some f := by
  cases o with
  | piece p => exact Or.inl ⟨p, rfl⟩
  | foreign t => exact Or.inr ⟨_, rfl⟩
  | fault f => exact Or.inr ⟨_, rfl⟩

theorem Outcome.chars_of_fault {o : Outcome} {f : Fault} (h : o.fault? = some f) :
    o.chars = [] := by
  cases o with
  | piece p => cases h
  | foreign t => rfl
  | fault f => rfl

theorem Tail.chars_outcome (t : Tail) : t.outcome.chars = [] := by
  cases t <;> rfl

namespace Reader

def next (r : Reader) : Outcome := r.upcoming.headD r.feed.tail.outcome

/-- The reader that holds the piece in front back. -/
def hold (p : Piece) (r : Reader) : Reader := { r.drop 1 with pending := some p }

/-! ## Dropping outcomes -/

theorem drop_zero (r : Reader) : r.drop 0 = r := rfl

theorem advance_advance (m n : Nat) (f : Feed) :
    (f.advance m).advance n = f.advance (m + n) := by
  simp only [Feed.advance, List.drop_drop, Nat.add_assoc]

theorem drop_drop (m n : Nat) (r : Reader) : (r.drop m).drop n = r.drop (m + n) := by
  obtain ⟨feed, pending⟩ := r
  cases m with
  | zero => rw [drop_zero, Nat.zero_add]
  | succ m =>
      cases n with
      | zero => rfl
      | succ n =>
          rw [show m + 1 + (n + 1) = (m + (n + 1)) + 1 by omega]
          cases pending with
          | none =>
              show Reader.mk ((feed.advance (m + 1)).advance (n + 1)) none =
                ⟨feed.advance (m + (n + 1) + 1), none⟩
              rw [advance_advance, show m + 1 + (n + 1) = m + (n + 1) + 1 by omega]
          | some p =>
              show Reader.mk ((feed.advance m).advance (n + 1)) none =
                ⟨feed.advance (m + (n + 1)), none⟩
              rw [advance_advance]

theorem tail_drop (n : Nat) (r : Reader) : (r.drop n).feed.tail = r.feed.tail := by
  unfold drop
  split <;> rfl

theorem drop_pending {n : Nat} (r : Reader) (h : 0 < n) : (r.drop n).pending = none := by
  obtain ⟨feed, pending⟩ := r
  cases n with
  | zero => exact absurd h (Nat.lt_irrefl 0)
  | succ n => cases pending <;> rfl

theorem clear_drop (r : Reader) : { r.drop 1 with pending := none } = r.drop 1 := by
  rw [← drop_pending r Nat.one_pos]

/-! ## Holding the piece in front -/

theorem hold_next (p : Piece) (r : Reader) : (r.hold p).next = .piece p := rfl

theorem hold_drop (p : Piece) (n : Nat) (r : Reader) :
    (r.hold p).drop (n + 1) = r.drop (n + 1) := by
  have h1 : (r.hold p).drop 1 = r.drop 1 := clear_drop r
  rw [Nat.add_comm n 1, ← drop_drop, ← drop_drop, h1]

theorem hold_upcoming {p : Piece} {r : Reader} {o : Outcome} {us : List Outcome}
    (h : r.next = .piece p) (hu : r.upcoming = o :: us) :
    (r.hold p).upcoming = r.upcoming := by
  have ho : o = .piece p := by
    unfold next at h
    rw [hu] at h
    exact h
  show Outcome.piece p :: (r.drop 1).feed.ahead = r.upcoming
  have hd : (r.drop 1).upcoming = (r.drop 1).feed.ahead := by
    unfold upcoming
    rw [drop_pending r Nat.one_pos]
  rw [← hd, upcoming_drop, hu, ho]
  rfl

/-! ## Looking and taking -/

theorem bind_of_ok {α β : Type} {m : ReadM α} {f : α → ReadM β} {r s : Reader} {a : α}
    (h : m r = .ok a s) : (m >>= f) r = f a s := by
  show EStateM.bind m f r = f a s
  unfold EStateM.bind
  rw [h]

theorem bind_of_error {α β : Type} {m : ReadM α} {f : α → ReadM β} {r s : Reader}
    {e : Failure} (h : m r = .error e s) : (m >>= f) r = .error e s := by
  show EStateM.bind m f r = .error e s
  unfold EStateM.bind
  rw [h]

theorem peek_of_piece {r : Reader} {p : Piece} (h : r.next = .piece p) :
    peek r = .ok p (r.hold p) := by
  obtain ⟨feed, pending⟩ := r
  cases pending with
  | some q =>
      have hq : q = p := by simpa [next, upcoming] using h
      subst hq
      rfl
  | none =>
      obtain ⟨ahead, tail, backing, reads, isOpen⟩ := feed
      cases ahead with
      | nil =>
          have ht : tail.outcome = .piece p := h
          simp only [peek, Feed.read, ht]
          rfl
      | cons o ahead =>
          have ho : o = .piece p := h
          subst ho
          rfl

theorem peek_of_fault {r : Reader} {f : Fault} (h : r.next.fault? = some f) :
    peek r = .error (.reading f) (r.drop 1) := by
  obtain ⟨feed, pending⟩ := r
  cases pending with
  | some q => cases h
  | none =>
      obtain ⟨ahead, tail, backing, reads, isOpen⟩ := feed
      cases ahead with
      | nil =>
          have ht : tail.outcome.fault? = some f := h
          cases tail <;> cases ht <;> rfl
      | cons o ahead =>
          have ho : o.fault? = some f := h
          cases o <;> cases ho <;> rfl

theorem peek_hold (p : Piece) (r : Reader) : peek (r.hold p) = .ok p (r.hold p) := rfl

/-- Taking goes past the piece in front, whether it was held back or not. -/
theorem take_of_piece {r : Reader} {p : Piece} (h : r.next = .piece p) :
    take r = .ok p (r.drop 1) := by
  unfold take
  rw [bind_of_ok (peek_of_piece h)]
  show EStateM.Result.ok p { r.drop 1 with pending := none } = .ok p (r.drop 1)
  rw [clear_drop]

theorem take_hold (p : Piece) (r : Reader) : take (r.hold p) = .ok p (r.drop 1) := by
  rw [take_of_piece (hold_next p r), hold_drop]

theorem take_bind_hold {α : Type} {f : Piece → ReadM α} {r : Reader} {p : Piece}
    (h : r.next = .piece p) : (take >>= f) (r.hold p) = (take >>= f) r := by
  rw [bind_of_ok (take_hold p r), bind_of_ok (take_of_piece h)]

/-! ## Runs -/

def runLength (accept : Piece → Bool) (r : Reader) : Nat :=
  (r.upcoming.takeWhile (·.accepted accept)).length

def runText (accept : Piece → Bool) (r : Reader) : List Char :=
  (r.upcoming.takeWhile (·.accepted accept)).flatMap Outcome.chars

theorem takeRun_eq (accept : Piece → Bool) (r : Reader) :
    takeRun accept r =
      (peek >>= fun _ => pure (r.runText accept)) (r.drop (r.runLength accept)) := rfl

theorem takeRun_of_piece {accept : Piece → Bool} {r : Reader} {p : Piece}
    (h : (r.drop (r.runLength accept)).next = .piece p) :
    takeRun accept r = .ok (r.runText accept) ((r.drop (r.runLength accept)).hold p) := by
  rw [takeRun_eq, bind_of_ok (peek_of_piece h)]
  rfl

theorem takeRun_of_fault {accept : Piece → Bool} {r : Reader} {f : Fault}
    (h : (r.drop (r.runLength accept)).next.fault? = some f) :
    takeRun accept r = .error (.reading f) (r.drop (r.runLength accept + 1)) := by
  rw [takeRun_eq, bind_of_error (peek_of_fault h), drop_drop]

/-- Held back at the end of the input is the empty piece, which passes no test. -/
theorem hold_upcoming_nil {p : Piece} {r : Reader} (h : r.next = .piece p)
    (hu : r.upcoming = []) : (r.hold p).upcoming = [.piece []] := by
  have hp : p = [] := by
    have ht := Tail.chars_outcome r.feed.tail
    unfold next at h
    rw [hu] at h
    rw [show r.feed.tail.outcome = .piece p from h] at ht
    exact ht
  have hd : (r.drop 1).upcoming = [] := by
    rw [upcoming_drop, hu]
    rfl
  unfold upcoming at hd
  rw [drop_pending r Nat.one_pos] at hd
  show Outcome.piece p :: (r.drop 1).feed.ahead = [.piece []]
  rw [hp, show (r.drop 1).feed.ahead = [] from hd]

theorem takeWhile_hold {p : Piece} {r : Reader} (accept : Piece → Bool)
    (h : r.next = .piece p) :
    (r.hold p).upcoming.takeWhile (·.accepted accept) =
      r.upcoming.takeWhile (·.accepted accept) := by
  cases hu : r.upcoming with
  | nil =>
      rw [hold_upcoming_nil h hu]
      rfl
  | cons o us => rw [hold_upcoming h hu, hu]

/-- A piece held back makes no difference to a run: the run takes it or stops at it. -/
theorem takeRun_hold {accept : Piece → Bool} {r : Reader} {p : Piece}
    (h : r.next = .piece p) : takeRun accept (r.hold p) = takeRun accept r := by
  have ht : (r.hold p).runText accept = r.runText accept := by
    unfold runText
    rw [takeWhile_hold accept h]
  have hl : (r.hold p).runLength accept = r.runLength accept := by
    unfold runLength
    rw [takeWhile_hold accept h]
  rw [takeRun_eq, takeRun_eq, ht, hl]
  cases r.runLength accept with
  | zero =>
      rw [drop_zero, drop_zero, bind_of_ok (peek_hold p r), bind_of_ok (peek_of_piece h)]
  | succ n => rw [hold_drop]

theorem takeRun_bind_hold {α : Type} {accept : Piece → Bool} {f : List Char → ReadM α}
    {r : Reader} {p : Piece} (h : r.next = .piece p) :
    (takeRun accept >>= f) (r.hold p) = (takeRun accept >>= f) r := by
  show EStateM.bind (takeRun accept) f (r.hold p) = EStateM.bind (takeRun accept) f r
  unfold EStateM.bind
  rw [takeRun_hold h]

end Reader

end FilterLex
