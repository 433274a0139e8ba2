import FilterLex.Proofs.StickyEnd

/-!
# Readers that share a feed

Any number of readers may be put over one feed, and be peeked and taken from in any order. Each
read of the feed is made for one reader, which holds nothing back then. What the read brings goes
to this reader and to no other: as the answer to the call where the read fails, and otherwise as
the piece that the reader holds back until it is taken.

- `Serves`, `serves`: what one call does, in full.
- `draw?`, `ledger`: the reads that calls make, with the readers they are made for.
- `step_account`: what a reader has taken and holds back is what has been read for it.
- `DeliveredOnce`, `delivered_once`: the same for calls in any order, and the count of the reads.
-/

namespace FilterLex

def Session.Answer.piece? : Session.Answer → Option Piece
  | .piece p => some p
  | _ => none

def Session.Answer.fault? : Session.Answer → Option Fault
  | .error (.failed (.reading f)) => some f
  | _ => none

namespace Outcome

def piece? : Outcome → Option Piece
  | .piece p => some p
  | _ => none

def answer : Outcome → Session.Answer
  | .piece p => .piece p
  | .foreign t => .error (.failed (.reading (Fault.notText t)))
  | .fault f => .error (.failed (.reading f.atReader))

@[simp] theorem piece?_answer (o : Outcome) : o.answer.piece? = o.piece? := by
  cases o <;> rfl

@[simp] theorem fault?_answer (o : Outcome) : o.answer.fault? = o.fault? := by
  cases o <;> rfl

variable {o : Outcome} {p : Piece} {e : Fault}

theorem answer_of_fault (h : o.fault? = some e) :
    o.answer = .error (.failed (.reading e)) ∧ o.piece? = none := by
  cases o with
  | piece p => cases h
  | foreign t =>
      cases h
      exact ⟨rfl, rfl⟩
  | fault f =>
      cases h
      exact ⟨rfl, rfl⟩

end Outcome

namespace Session

variable {s : Session} {k rd : Nat} {f : Feed} {st : Step} {sts : List Step}

/-! ## One call -/

/-- A peek or a take of a reader over the feed, or a new reader over it. -/
def Handles (s : Session) (k : Nat) : Step → Prop
  | .peek rd | .take rd => ∃ p, s.readers[rd]? = some { feed := k, pending := p }
  | .openReader (.feed j) => j = k
  | _ => False

def holding (s : Session) (k rd : Nat) (p : Option Piece) : Session :=
  { s with readers := s.readers.setIfInBounds rd { feed := k, pending := p } }

def drawing (s : Session) (k : Nat) (f : Feed) : Session :=
  { s with feeds := s.feeds.setIfInBounds k (f.advance 1) }

/-- **What a call does.** What is held back is answered, and is given away by a take only. Where
nothing is held back, the feed is read once, and what is read is answered; a peek holds it back
if it is text. -/
inductive Serves (s : Session) (k : Nat) (f : Feed) : Step → Effect → Prop
  | wrapped : Serves s k f (.openReader (.feed k))
      { answer := .made s.readers.size
        session := { s with readers := s.readers.push { feed := k } } }
  | peekHeld {id : Nat} {p : Piece}
      (hx : s.readers[id]? = some { feed := k, pending := some p }) :
      Serves s k f (.peek id) { answer := .piece p, session := s }
  | takeHeld {id : Nat} {p : Piece}
      (hx : s.readers[id]? = some { feed := k, pending := some p }) :
      Serves s k f (.take id) { answer := .piece p, session := s.holding k id none }
  | peekRead {id : Nat} (hx : s.readers[id]? = some { feed := k }) :
      Serves s k f (.peek id) {
        answer := f.read.1.answer
        session := (s.drawing k f).holding k id f.read.1.piece? }
  | takeRead {id : Nat} (hx : s.readers[id]? = some { feed := k }) :
      Serves s k f (.take id) {
        answer := f.read.1.answer
        session := (s.drawing k f).holding k id none }

theorem feeds_drawing (hf : s.feeds[k]? = some f) :
    (s.drawing k f).feeds[k]? = some (f.advance 1) := by
  obtain ⟨hk, -⟩ := Array.getElem?_eq_some_iff.mp hf
  exact Array.getElem?_setIfInBounds_self_of_lt hk

theorem readers_holding {q : Option Piece} (p : Option Piece)
    (hx : s.readers[rd]? = some { feed := k, pending := q }) :
    (s.holding k rd p).readers[rd]? = some { feed := k, pending := p } := by
  obtain ⟨hlt, -⟩ := Array.getElem?_eq_some_iff.mp hx
  exact Array.getElem?_setIfInBounds_self_of_lt hlt

section Acting

variable {act : ReadM Piece} {r r' : Reader}

theorem step_of_ok {p : Piece} (hr : s.reader? rd = some r) (hact : act r = .ok p r')
    (hst : s.step? st = (do
      let (result, t) ← s.withReader rd act
      return { answer := .ofRead .piece result, session := t })) :
    s.step st = { answer := .piece p, session := s.putReader rd r' } := by
  unfold step
  rw [hst]
  unfold withReader
  simp only [hr, hact, Option.map_some]
  rfl

theorem step_of_error {e : Failure} (hr : s.reader? rd = some r) (hact : act r = .error e r')
    (hst : s.step? st = (do
      let (result, t) ← s.withReader rd act
      return { answer := .ofRead .piece result, session := t })) :
    s.step st = { answer := .error (.failed e), session := s.putReader rd r' } := by
  unfold step
  rw [hst]
  unfold withReader
  simp only [hr, hact, Option.map_some]
  rfl

end Acting

/-- A reader that holds nothing back meets what the feed brings next. -/
theorem next_of_feed (f : Feed) : ({ feed := f } : Reader).next = f.read.1 := by
  obtain ⟨ahead, tail, backing, reads, isOpen⟩ := f
  cases ahead <;> rfl

theorem putReader_read {q p : Option Piece}
    (hx : s.readers[rd]? = some { feed := k, pending := q }) :
    s.putReader rd { feed := f.advance 1, pending := p } = (s.drawing k f).holding k rd p := by
  unfold putReader
  rw [hx]
  rfl

theorem putReader_given {q : Option Piece} (hx : s.readers[rd]? = some { feed := k, pending := q })
    (hf : s.feeds[k]? = some f) : s.putReader rd { feed := f } = s.holding k rd none := by
  unfold putReader
  rw [hx]
  simp only [setIfInBounds_of_some hf]
  rfl

/-- Calls of a reader that holds nothing back. -/
theorem step_read (hx : s.readers[rd]? = some { feed := k }) (hf : s.feeds[k]? = some f) :
    s.step (.peek rd) = {
        answer := f.read.1.answer
        session := (s.drawing k f).holding k rd f.read.1.piece? } ∧
      s.step (.take rd) = {
        answer := f.read.1.answer
        session := (s.drawing k f).holding k rd none } := by
  have hr : s.reader? rd = some { feed := f } := reader?_eq_some.mpr ⟨_, hx, hf, rfl⟩
  have hnext := next_of_feed f
  rw [← putReader_read hx, ← putReader_read hx]
  rcases f.read.1.piece_or_fault with ⟨p, ho⟩ | ⟨e, ho⟩
  · rw [ho] at hnext ⊢
    exact ⟨step_of_ok hr (Reader.peek_of_piece hnext) rfl,
      step_of_ok hr (Reader.take_of_piece hnext) rfl⟩
  · obtain ⟨hanswer, hnone⟩ := Outcome.answer_of_fault ho
    rw [hanswer, hnone]
    rw [← hnext] at ho
    have hpeek := Reader.peek_of_fault ho
    have htake : Reader.take { feed := f } = .error (.reading e) _ := Reader.bind_of_error hpeek
    exact ⟨step_of_error hr hpeek rfl, step_of_error hr htake rfl⟩

/-- Calls of a reader that holds a piece back. -/
theorem step_held {p : Piece} (hx : s.readers[rd]? = some { feed := k, pending := some p })
    (hf : s.feeds[k]? = some f) :
    s.step (.peek rd) = { answer := .piece p, session := s } ∧
      s.step (.take rd) = { answer := .piece p, session := s.holding k rd none } := by
  have hr : s.reader? rd = some { feed := f, pending := some p } :=
    reader?_eq_some.mpr ⟨_, hx, hf, rfl⟩
  have hnext : ({ feed := f, pending := some p } : Reader).next = .piece p := rfl
  constructor
  · rw [step_of_ok hr (Reader.peek_of_piece hnext) rfl]
    exact congrArg (Effect.mk _ _) (putReader_self hr)
  · rw [step_of_ok hr (Reader.take_of_piece hnext) rfl]
    exact congrArg (Effect.mk _ _) (putReader_given hx hf)

theorem serves (hf : s.feeds[k]? = some f) (h : s.Handles k st) :
    s.Serves k f st (s.step st) := by
  cases st with
  | openReader o =>
      cases o with
      | source _ => cases h
      | feed j =>
          obtain rfl : j = k := h
          exact Serves.wrapped
  | peek id =>
      obtain ⟨_ | p, hx⟩ := h
      · rw [(step_read hx hf).1]
        exact Serves.peekRead hx
      · rw [(step_held hx hf).1]
        exact Serves.peekHeld hx
  | take id =>
      obtain ⟨_ | p, hx⟩ := h
      · rw [(step_read hx hf).2]
        exact Serves.takeRead hx
      · rw [(step_held hx hf).2]
        exact Serves.takeHeld hx
  | _ => cases h

/-! ## The reads, and who they are made for -/

/-- The read that a call makes: the reader that it is made for, and what it brings. -/
def draw? (s : Session) : Step → Option (Nat × Outcome)
  | .peek id | .take id => do
      let r ← s.reader? id
      match r.pending with
      | none => some (id, r.feed.read.1)
      | some _ => none
  | _ => none

/-- The reads that the steps make. -/
def ledger : Session → List Step → List (Nat × Outcome)
  | _, [] => []
  | s, st :: sts => (s.draw? st).toList ++ ledger (s.step st).session sts

/-- What the reads made for one reader bring. -/
def readFor (rd : Nat) (reads : List (Nat × Outcome)) : List Outcome :=
  reads.filterMap fun entry => if entry.1 = rd then some entry.2 else none

/-- The piece that the reader holds back, if it does. -/
def heldBy (s : Session) (rd : Nat) : List Piece := (s.readers[rd]?.bind (·.pending)).toList

/-- How many readers over the feed hold a piece back. -/
def holders (s : Session) (k : Nat) : Nat :=
  s.readers.countP fun x => x.feed = k && x.pending.isSome

/-- The piece that is taken off the reader. -/
def taken? (rd : Nat) : Step × Effect → Option Piece
  | (.take id, e) => if id = rd then e.answer.piece? else none
  | _ => none

/-- The failure that is answered to the reader. -/
def failed? (rd : Nat) : Step × Effect → Option Fault
  | (.peek id, e) | (.take id, e) => if id = rd then e.answer.fault? else none
  | _ => none

/-- A take that answers a piece. -/
def isTaking : Step × Effect → Bool
  | (.take _, e) => e.answer.piece?.isSome
  | _ => false

/-- A peek or a take that answers a failure of the feed. -/
def isFailing : Step × Effect → Bool
  | (.peek _, e) | (.take _, e) => e.answer.fault?.isSome
  | _ => false

/-- Steps from `s` to `t`, with the reads that they make of the feed `f`. -/
structure Account (s : Session) (k : Nat) (f : Feed) (events : List (Step × Effect))
    (reads : List (Nat × Outcome)) (t : Session) : Prop where
  /-- Every outcome of the feed is read once, in order, -/
  outcomes : reads.map Prod.snd = f.outcomes reads.length
  feed : t.feeds[k]? = some (f.advance reads.length)
  /-- a piece by the reader that takes it or holds it back, -/
  pieces : ∀ rd, events.filterMap (taken? rd) ++ t.heldBy rd =
    s.heldBy rd ++ (readFor rd reads).filterMap Outcome.piece?
  /-- and a failure by the reader that it is answered to. -/
  faults : ∀ rd, events.filterMap (failed? rd) = (readFor rd reads).filterMap Outcome.fault?
  count : reads.length + s.holders k =
    events.countP isTaking + events.countP isFailing + t.holders k

section Accounts

variable {t u : Session} {events events' : List (Step × Effect)}
  {reads reads' : List (Nat × Outcome)}

theorem Account.refl (hf : s.feeds[k]? = some f) : Account s k f [] [] s := by
  constructor
  case outcomes => rfl
  case feed => exact hf
  case pieces => exact fun rd => (List.append_nil (s.heldBy rd)).symm
  case faults => exact fun rd => rfl
  case count => rfl

theorem readFor_append (rd : Nat) :
    readFor rd (reads ++ reads') = readFor rd reads ++ readFor rd reads' :=
  List.filterMap_append

theorem Account.trans (h : Account s k f events reads t)
    (h' : Account t k (f.advance reads.length) events' reads' u) :
    Account s k f (events ++ events') (reads ++ reads') u := by
  constructor
  case outcomes =>
    rw [List.map_append, List.length_append, Feed.outcomes_add, h.outcomes, h'.outcomes]
  case feed => rw [h'.feed, Reader.advance_advance, List.length_append]
  case pieces =>
    intro rd
    rw [List.filterMap_append, List.append_assoc, h'.pieces, ← List.append_assoc, h.pieces,
      List.append_assoc, readFor_append, List.filterMap_append]
  case faults =>
    intro rd
    rw [List.filterMap_append, h.faults, h'.faults, readFor_append, List.filterMap_append]
  case count =>
    have hcount := h.count
    have hcount' := h'.count
    rw [List.length_append, List.countP_append, List.countP_append]
    omega

end Accounts

section Held

variable {p q : Option Piece}

theorem heldBy_holding (hx : s.readers[rd]? = some { feed := k, pending := q }) (id : Nat) :
    (s.holding k rd p).heldBy id = if rd = id then p.toList else s.heldBy id := by
  obtain ⟨hlt, -⟩ := Array.getElem?_eq_some_iff.mp hx
  unfold heldBy holding
  simp only [Array.getElem?_setIfInBounds]
  split
  · simp
  · rfl

/-- A new reader holds nothing back. -/
theorem heldBy_wrapped (s : Session) (k id : Nat) :
    heldBy { s with readers := s.readers.push { feed := k } } id = s.heldBy id := by
  unfold heldBy
  simp only [Array.getElem?_push]
  split
  · simp [*]
  · rfl

theorem heldBy_of_some (hx : s.readers[rd]? = some { feed := k, pending := q }) :
    s.heldBy rd = q.toList := by
  unfold heldBy
  rw [hx]
  rfl

theorem countP_setIfInBounds {α : Type} {xs : Array α} {x y : α} {i : Nat} (test : α → Bool)
    (hx : xs[i]? = some x) : (xs.setIfInBounds i y).countP test + (if test x then 1 else 0) =
      xs.countP test + (if test y then 1 else 0) := by
  obtain ⟨hlt, rfl⟩ := Array.getElem?_eq_some_iff.mp hx
  have hle := Array.boole_getElem_le_countP (p := test) hlt
  rw [Array.setIfInBounds_def, dif_pos hlt, Array.countP_set]
  omega

theorem holders_holding (hx : s.readers[rd]? = some { feed := k, pending := q }) :
    (s.holding k rd p).holders k + q.toList.length = s.holders k + p.toList.length := by
  have hcount := countP_setIfInBounds (y := { feed := k, pending := p })
    (fun x : SharedReader => x.feed = k && x.pending.isSome) hx
  simpa [holders, holding, Option.length_toList] using hcount

theorem draw?_of_none (hx : s.readers[rd]? = some { feed := k }) (hf : s.feeds[k]? = some f)
    (hst : st = .peek rd ∨ st = .take rd) : s.draw? st = some (rd, f.read.1) := by
  have hr : s.reader? rd = some { feed := f } := reader?_eq_some.mpr ⟨_, hx, hf, rfl⟩
  rcases hst with rfl | rfl <;> simp [draw?, hr]

theorem draw?_of_some {p : Piece} (hx : s.readers[rd]? = some { feed := k, pending := some p })
    (hf : s.feeds[k]? = some f) (hst : st = .peek rd ∨ st = .take rd) : s.draw? st = none := by
  have hr : s.reader? rd = some { feed := f, pending := some p } :=
    reader?_eq_some.mpr ⟨_, hx, hf, rfl⟩
  rcases hst with rfl | rfl <;> simp [draw?, hr]

theorem readFor_map (os : List Outcome) (id : Nat) :
    readFor id (os.map (Prod.mk rd)) = if rd = id then os else [] := by
  unfold readFor
  rw [List.filterMap_map]
  by_cases hid : rd = id
  · have hall : (fun o : Outcome => if rd = id then some o else none) = some :=
      funext fun _ => if_pos hid
    rw [if_pos hid]
    show os.filterMap (fun o => if rd = id then some o else none) = os
    rw [hall, List.filterMap_some]
  · rw [if_neg hid]
    exact List.filterMap_eq_nil_iff.mpr fun _ _ => if_neg hid

/-- An outcome is either text or a failure. -/
theorem length_outcomes (os : List Outcome) :
    (os.filterMap Outcome.piece?).length + (os.filterMap Outcome.fault?).length = os.length := by
  induction os with
  | nil => rfl
  | cons o os ih =>
      cases o <;>
        simp only [List.filterMap_cons, Outcome.piece?, Outcome.fault?, List.length_cons] <;>
        omega

theorem filterMap_single {α β : Type} (g : α → Option β) (x : α) :
    [x].filterMap g = (g x).toList := by
  cases h : g x <;> simp [h]

/-- The account of a call goes by what its reader held back and holds back then. -/
theorem account_call {e : Effect} (os : List Outcome) (hst : st = .peek rd ∨ st = .take rd)
    (hx : s.readers[rd]? = some { feed := k, pending := q })
    (hreaders : e.session.readers = (s.holding k rd p).readers)
    (hfeed : e.session.feeds[k]? = some (f.advance os.length))
    (hos : os = f.outcomes os.length)
    (hpieces : (taken? rd (st, e)).toList ++ p.toList = q.toList ++ os.filterMap Outcome.piece?)
    (hfaults : (failed? rd (st, e)).toList = os.filterMap Outcome.fault?) :
    Account s k f [(st, e)] (os.map (Prod.mk rd)) e.session := by
  have hself : ∀ id, e.session.heldBy id = (s.holding k rd p).heldBy id := by
    intro id
    unfold heldBy
    rw [hreaders]
  have hother : ∀ id, rd ≠ id → taken? id (st, e) = none ∧ failed? id (st, e) = none := by
    intro id hid
    rcases hst with rfl | rfl <;> simp [taken?, failed?, hid]
  constructor
  case outcomes =>
    rw [List.map_map, List.length_map, ← hos]
    exact List.map_id' os
  case feed => rwa [List.length_map]
  case pieces =>
    intro id
    rw [filterMap_single, hself, heldBy_holding hx, readFor_map]
    by_cases hid : rd = id
    · subst hid
      rw [if_pos rfl, if_pos rfl, heldBy_of_some hx]
      exact hpieces
    · rw [if_neg hid, if_neg hid, (hother id hid).1]
      simp
  case faults =>
    intro id
    rw [filterMap_single, readFor_map]
    by_cases hid : rd = id
    · subst hid
      rw [if_pos rfl]
      exact hfaults
    · rw [if_neg hid, (hother id hid).2]
      rfl
  case count =>
    have htaking : isTaking (st, e) = (taken? rd (st, e)).isSome := by
      rcases hst with rfl | rfl <;> simp [taken?, isTaking]
    have hfailing : isFailing (st, e) = (failed? rd (st, e)).isSome := by
      rcases hst with rfl | rfl <;> simp [failed?, isFailing]
    have hholders : e.session.holders k = (s.holding k rd p).holders k := by
      unfold holders
      rw [hreaders]
    have hheld := holders_holding (p := p) hx
    have hall := length_outcomes os
    have htaken := congrArg List.length hpieces
    have hfailed := congrArg List.length hfaults
    rw [List.length_append, List.length_append] at htaken
    rw [List.length_map, List.countP_singleton, List.countP_singleton, htaking, hfailing, hholders,
      ← Option.length_toList, ← Option.length_toList]
    omega

end Held

theorem step_account (hf : s.feeds[k]? = some f) (h : s.Handles k st) :
    Account s k f [(st, s.step st)] (s.draw? st).toList (s.step st).session := by
  have hserves := serves hf h
  generalize s.step st = e at hserves ⊢
  cases hserves with
  | wrapped =>
      constructor
      case outcomes => rfl
      case feed => exact hf
      case pieces =>
        intro id
        rw [heldBy_wrapped]
        exact (List.append_nil _).symm
      case faults => exact fun rd => rfl
      case count => simp [draw?, isTaking, isFailing, holders]
  | @peekHeld id p hx =>
      rw [draw?_of_some hx hf (Or.inl rfl)]
      refine account_call (p := some p) [] (Or.inl rfl) hx ?_ hf rfl ?_ ?_
      · exact (setIfInBounds_of_some hx).symm
      · simp [taken?]
      · simp [failed?, Answer.fault?]
  | @takeHeld id p hx =>
      rw [draw?_of_some hx hf (Or.inr rfl)]
      refine account_call [] (Or.inr rfl) hx rfl hf rfl ?_ ?_
      · simp [taken?, Answer.piece?]
      · simp [failed?, Answer.fault?]
  | @peekRead id hx =>
      rw [draw?_of_none hx hf (Or.inl rfl)]
      refine account_call [f.read.1] (Or.inl rfl) hx rfl (feeds_drawing hf) rfl ?_ ?_
      · simp [taken?, filterMap_single]
      · simp [failed?, filterMap_single]
  | @takeRead id hx =>
      rw [draw?_of_none hx hf (Or.inr rfl)]
      refine account_call [f.read.1] (Or.inr rfl) hx rfl (feeds_drawing hf) rfl ?_ ?_
      · simp [taken?, filterMap_single]
      · simp [failed?, filterMap_single]

/-! ## Calls in any order -/

/-- Peeks and takes of readers over the feed, and new readers over it. -/
abbrev HandlesAll (s : Session) (k : Nat) (sts : List Step) : Prop :=
  s.Along (fun t st => t.Handles k st) sts

theorem run_account (hf : s.feeds[k]? = some f) (h : s.HandlesAll k sts) :
    Account s k f (s.history sts) (s.ledger sts) (s.after sts) := by
  induction sts generalizing s f with
  | nil => exact Account.refl hf
  | cons st sts ih =>
      obtain ⟨hst, hsts⟩ := h
      have hstep := step_account hf hst
      exact hstep.trans (ih hstep.feed hsts)

theorem run_serves (hf : s.feeds[k]? = some f) (h : s.HandlesAll k sts) :
    s.Along (fun t st => ∃ g, t.feeds[k]? = some g ∧ t.Serves k g st (t.step st)) sts := by
  induction sts generalizing s f with
  | nil => trivial
  | cons st sts ih =>
      obtain ⟨hst, hsts⟩ := h
      exact ⟨⟨f, hf, serves hf hst⟩, ih (step_account hf hst).feed hsts⟩

/-- What the next takes of a reader bring, if no read fails. -/
def coming (r : Reader) : Nat → List Outcome
  | 0 => []
  | n + 1 =>
      match r.pending with
      | some p => .piece p :: r.feed.outcomes n
      | none => r.feed.outcomes (n + 1)

/-- The answer to a take of the reader. -/
def takeAnswer? (rd : Nat) : Step × Effect → Option Answer
  | (.take id, e) => if id = rd then some e.answer else none
  | _ => none

def Step.takesFrom (rd : Nat) : Step → Bool
  | .take id => id = rd
  | _ => false

theorem coming_feed (f : Feed) (n : Nat) : coming { feed := f } n = f.outcomes n := by
  cases n <;> rfl

/-- A peek that brings text puts nothing between a reader and what is coming. -/
theorem coming_peek {p : Piece} (h : f.read.1 = .piece p) (n : Nat) :
    coming { feed := f.advance 1, pending := some p } n = f.outcomes n := by
  cases n with
  | zero => rfl
  | succ n =>
      show .piece p :: (f.advance 1).outcomes n = f.read.1 :: f.read.2.outcomes n
      rw [h, Feed.read_snd]

theorem alone_answers {q : Option Piece} (hf : s.feeds[k]? = some f)
    (hx : s.readers[rd]? = some { feed := k, pending := q })
    (honly : ∀ st ∈ sts, st = .peek rd ∨ st = .take rd)
    (htext : ∀ n, ∀ o ∈ f.outcomes n, o.isText = true) :
    (s.history sts).filterMap (takeAnswer? rd) =
      (coming { feed := f, pending := q } (sts.countP (Step.takesFrom rd))).map Outcome.answer := by
  -- on the steps; a peek moves the next outcome from the feed to the reader, which leaves what
  -- is coming as it is
  induction sts generalizing s f q with
  | nil => rfl
  | cons st sts ih =>
      have honly' : ∀ st ∈ sts, st = .peek rd ∨ st = .take rd :=
        fun st' hst' => honly st' (List.mem_cons_of_mem st hst')
      have hst := honly st List.mem_cons_self
      have htext' : ∀ n, ∀ o ∈ (f.advance 1).outcomes n, o.isText = true := by
        intro n o ho
        refine htext (1 + n) o ?_
        rw [Feed.outcomes_add]
        exact List.mem_append_right _ ho
      cases q with
      | some p =>
          obtain ⟨hpeek, htake⟩ := step_held hx hf
          rcases hst with rfl | rfl
          · rw [history_cons, hpeek, List.filterMap_cons_none rfl,
              List.countP_cons_of_neg (by simp [Step.takesFrom])]
            exact ih hf hx honly' htext
          · have hlater := ih (s := s.holding k rd none) hf (readers_holding none hx) honly' htext
            rw [history_cons, htake, List.filterMap_cons_some (b := .piece p)
              (by simp [takeAnswer?]), List.countP_cons_of_pos (by simp [Step.takesFrom]), hlater,
              coming_feed]
            rfl
      | none =>
          obtain ⟨hpeek, htake⟩ := step_read hx hf
          have hlater := fun p => ih (s := (s.drawing k f).holding k rd p) (feeds_drawing hf)
            (readers_holding p hx) honly' htext'
          rcases hst with rfl | rfl
          · obtain ⟨p, ho⟩ : ∃ p, f.read.1 = .piece p := by
              have h1 := htext 1 f.read.1 (List.mem_singleton.mpr rfl)
              cases ho : f.read.1 with
              | piece p => exact ⟨p, rfl⟩
              | _ => simp [ho, Outcome.isText] at h1
            rw [history_cons, hpeek, List.filterMap_cons_none rfl,
              List.countP_cons_of_neg (by simp [Step.takesFrom]), hlater, ho, coming_feed,
              ← coming_peek ho]
            rfl
          · rw [history_cons, htake, List.filterMap_cons_some (b := f.read.1.answer)
              (by simp [takeAnswer?]), List.countP_cons_of_pos (by simp [Step.takesFrom]), hlater,
              coming_feed, coming_feed, ← Feed.read_snd]
            rfl

/-- What holds of calls of any readers over one feed, in any order. -/
structure DeliveredOnce (s : Session) (k : Nat) (f : Feed) (sts : List Step) : Prop extends
    Account s k f (s.history sts) (s.ledger sts) (s.after sts) where
  calls : s.Along (fun t st => ∃ g, t.feeds[k]? = some g ∧ t.Serves k g st (t.step st)) sts
  /-- A single reader gets what the feed brings in order, whatever is peeked at in between. -/
  alone : ∀ rd, s.readers[rd]? = some { feed := k } →
    (∀ st ∈ sts, st = .peek rd ∨ st = .take rd) →
    (∀ n, ∀ o ∈ f.outcomes n, o.isText = true) →
    (s.history sts).filterMap (takeAnswer? rd) =
      (f.outcomes (sts.countP (Step.takesFrom rd))).map Outcome.answer
  /-- A new reader starts behind all that has been read. -/
  wrapped : ∃ n t,
    (s.after sts).step (.openReader (.feed k)) = { answer := .made n, session := t } ∧
      t.reader? n = some { feed := f.advance (s.ledger sts).length }

/-- **Every item of a feed is delivered exactly once.** -/
theorem delivered_once (hf : s.feeds[k]? = some f) (h : s.HandlesAll k sts) :
    s.DeliveredOnce k f sts := by
  have haccount := run_account hf h
  refine ⟨haccount, run_serves hf h, ?_, ?_⟩
  · intro rd hx honly htext
    rw [alone_answers hf hx honly htext, coming_feed]
  · refine ⟨(s.after sts).readers.size, _, rfl, reader?_eq_some.mpr ⟨{ feed := k }, ?_, ?_, rfl⟩⟩
    · exact Array.getElem?_push_size
    · exact haccount.feed

/-- A character, an empty piece, a number in place of text, a chunk and a failure. -/
def mixedFeed : Feed :=
  Feed.ofScript [.piece ['a'], .piece [], .foreign ⟨"int"⟩, .piece ['b', 'c'],
    .fault ⟨.other "RuntimeError", "lost"⟩]

def twoReaders : Session :=
  { feeds := #[mixedFeed], readers := #[{ feed := 0 }, { feed := 0 }] }

/-- The first reader holds the character back while the second takes the empty piece and meets the
number; a third one takes the chunk, and the second meets the failure. -/
theorem twoReaders_delivered :
    twoReaders.feeds[0]? = some mixedFeed ∧
      twoReaders.HandlesAll 0
        [.peek 0, .take 1, .peek 1, .take 0, .openReader (.feed 0), .take 2, .take 1] ∧
      twoReaders.DeliveredOnce 0 mixedFeed
        [.peek 0, .take 1, .peek 1, .take 0, .openReader (.feed 0), .take 2, .take 1] := by
  have hf : twoReaders.feeds[0]? = some mixedFeed := rfl
  have h : twoReaders.HandlesAll 0
      [.peek 0, .take 1, .peek 1, .take 0, .openReader (.feed 0), .take 2, .take 1] :=
    ⟨⟨_, rfl⟩, ⟨_, rfl⟩, ⟨_, rfl⟩, ⟨_, rfl⟩, rfl, ⟨_, rfl⟩, ⟨_, rfl⟩, trivial⟩
  exact ⟨hf, h, delivered_once hf h⟩

end Session

end FilterLex
