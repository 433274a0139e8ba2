import FilterLex.Proofs.Taking

/-!
# A run is the longest one

The lexer gathers text by a loop: it looks at the piece in front and takes it, as long as
there is text that passes a test. `takeRun` says in one step what such a loop comes to. This
module gives the loop itself, shows that it comes to an end over every feed, and that the end
is the one of `takeRun`: the pieces are the longest accepted stretch, what stops it is the
last outcome that is looked at, and no read is made beyond it.

- `turn`, `Gathers`: one turn of the loop, and the loop.
- `Meets`, `Stretch`: the outcomes that a reader meets, and those of a run among them.
- `Stretch.gathers`, `Stretch.takeRun_ends`: the loop and the run over a stretch.
- `takeRun_longest`: both for every reader, and that there is always a stretch.
-/

namespace FilterLex

/-- How a run ends at the outcome that stops it: at a piece, which is held back, with its
text; at a read that fails, with that failure and nothing held back. -/
def Outcome.ending (text : List Char) (feed : Feed) :
    Outcome → EStateM.Result Failure Reader (List Char)
  | .piece p => .ok text { feed, pending := some p }
  | .foreign t => .error (.reading (Fault.notText t)) { feed }
  | .fault f => .error (.reading f.atReader) { feed }

theorem Outcome.ending_of_fault {o : Outcome} {f : Fault} (text : List Char) (feed : Feed)
    (h : o.fault? = some f) : o.ending text feed = .error (.reading f) { feed } := by
  cases o <;> cases h <;> rfl

namespace Reader

variable {accept : Piece → Bool} {gathered taken : List Piece} {r : Reader} {p : Piece}
  {o stop : Outcome} {os : List Outcome} {n : Nat} {f : Fault} {text : List Char}
  {result result' : EStateM.Result Failure Reader (List Char)}

/-! ## The loop -/

/-- One turn of the loop: it is done at the end of the input and at a piece that does not
pass the test; any other piece is taken and joins those that were gathered before. -/
def turn (accept : Piece → Bool) (gathered : List Piece) : ReadM (ForInStep (List Piece)) := do
  let p ← peek
  if p.isEnd || !accept p then
    return .done gathered
  else
    return .yield (gathered ++ [← take])

/-- The loop ends with the given result: at the first turn that is done or fails. -/
inductive Gathers (accept : Piece → Bool) :
    List Piece → Reader → EStateM.Result Failure Reader (List Char) → Prop
  | done {gathered pieces r s} (hturn : turn accept gathered r = .ok (.done pieces) s) :
      Gathers accept gathered r (.ok pieces.flatten s)
  | failed {gathered failure r s} (hturn : turn accept gathered r = .error failure s) :
      Gathers accept gathered r (.error failure s)
  | again {gathered pieces r s result}
      (hturn : turn accept gathered r = .ok (.yield pieces) s)
      (hrest : Gathers accept pieces s result) : Gathers accept gathered r result

theorem Gathers.unique (h : Gathers accept gathered r result)
    (h' : Gathers accept gathered r result') : result = result' := by
  induction h with
  | done hturn =>
      cases h' with
      | done hturn' =>
          cases hturn.symm.trans hturn'
          rfl
      | failed hturn' => cases hturn.symm.trans hturn'
      | again hturn' _ => cases hturn.symm.trans hturn'
  | failed hturn =>
      cases h' with
      | done hturn' => cases hturn.symm.trans hturn'
      | failed hturn' =>
          cases hturn.symm.trans hturn'
          rfl
      | again hturn' _ => cases hturn.symm.trans hturn'
  | again hturn _ ih =>
      cases h' with
      | done hturn' => cases hturn.symm.trans hturn'
      | failed hturn' => cases hturn.symm.trans hturn'
      | again hturn' hrest' =>
          cases hturn.symm.trans hturn'
          exact ih hrest'

/-! ## One turn, in terms of what comes next -/

theorem accepted_piece : (Outcome.piece p).accepted accept = true ↔
    p.isEnd = false ∧ accept p = true := by
  simp [Outcome.accepted]

theorem piece_of_accepted (h : o.accepted accept = true) : ∃ p, o = .piece p := by
  cases o with
  | piece p => exact ⟨p, rfl⟩
  | foreign t => cases h
  | fault f => cases h

theorem turn_of_accepted (h : r.next = .piece p)
    (hp : (Outcome.piece p).accepted accept = true) :
    turn accept gathered r = .ok (.yield (gathered ++ [p])) (r.drop 1) := by
  obtain ⟨hend, hpass⟩ := accepted_piece.mp hp
  unfold turn
  rw [bind_of_ok (peek_of_piece h), if_neg (by simp [hend, hpass]), bind_of_ok (take_hold p r)]
  rfl

theorem turn_of_refused (h : r.next = .piece p)
    (hp : (Outcome.piece p).accepted accept = false) :
    turn accept gathered r = .ok (.done gathered) (r.hold p) := by
  have hstop : (p.isEnd || !accept p) = true := by
    have hnot : (!(!p.isEnd && accept p)) = true := congrArg not hp
    rwa [Bool.not_and, Bool.not_not] at hnot
  unfold turn
  rw [bind_of_ok (peek_of_piece h), if_pos hstop]
  rfl

theorem turn_of_fault (h : r.next.fault? = some f) :
    turn accept gathered r = .error (.reading f) (r.drop 1) :=
  bind_of_error (peek_of_fault h)

/-! ## A run takes its pieces one by one, too -/

theorem next_of_upcoming (h : r.upcoming = o :: os) : r.next = o := by
  unfold next
  rw [h]
  rfl

/-- The tail of a feed delivers no text. -/
theorem refused_of_upcoming_nil (h : r.upcoming = []) : r.next.accepted accept = false := by
  unfold next
  rw [h]
  cases r.feed.tail <;> rfl

theorem upcoming_of_accepted (h : r.next.accepted accept = true) :
    r.upcoming = r.next :: (r.drop 1).upcoming := by
  rw [upcoming_drop]
  cases hup : r.upcoming with
  | nil =>
      rw [refused_of_upcoming_nil hup] at h
      cases h
  | cons o us =>
      rw [next_of_upcoming hup]
      rfl

theorem takeRun_of_accepted (h : r.next = .piece p)
    (hp : (Outcome.piece p).accepted accept = true) :
    takeRun accept r = (takeRun accept >>= fun text => pure (p ++ text)) (r.drop 1) := by
  have hup := upcoming_of_accepted (h ▸ hp)
  rw [h] at hup
  have hlength : r.runLength accept = 1 + (r.drop 1).runLength accept := by
    unfold runLength
    rw [hup, List.takeWhile_cons_of_pos hp, List.length_cons, Nat.add_comm]
  have htext : r.runText accept = p ++ (r.drop 1).runText accept := by
    unfold runText
    rw [hup, List.takeWhile_cons_of_pos hp]
    rfl
  rw [takeRun_eq, hlength, htext, ← drop_drop]
  rcases ((r.drop 1).drop ((r.drop 1).runLength accept)).next.piece_or_fault with ⟨q, hq⟩ | ⟨f, hf⟩
  · rw [bind_of_ok (peek_of_piece hq), bind_of_ok (takeRun_of_piece hq)]
  · rw [bind_of_error (peek_of_fault hf), bind_of_error (takeRun_of_fault hf), drop_drop]

theorem run_of_refused (h : r.next.accepted accept = false) :
    r.runLength accept = 0 ∧ r.runText accept = [] := by
  have hnone : r.upcoming.takeWhile (·.accepted accept) = [] := by
    cases hup : r.upcoming with
    | nil => rfl
    | cons o us =>
        rw [next_of_upcoming hup] at h
        exact List.takeWhile_cons_of_neg (by simp [h])
  unfold runLength runText
  rw [hnone]
  exact ⟨rfl, rfl⟩

/-! ## What a reader meets -/

/-- The piece held back and what the next `n` reads bring are the outcomes `os`. -/
def Meets (r : Reader) (n : Nat) (os : List Outcome) : Prop :=
  r.pending.toList.map .piece ++ r.feed.outcomes n = os

/-- The first outcome is the one in front, and the others are met behind it. The reads made by
then are counted from either reader. -/
theorem Meets.tail (h : r.Meets n (o :: os)) :
    r.next = o ∧ ∃ m, (r.drop 1).Meets m os ∧
      (r.drop 1).feed.advance m = r.feed.advance n := by
  obtain ⟨feed, pending⟩ := r
  cases pending with
  | some p =>
      obtain ⟨rfl, hrest⟩ := List.cons.inj h
      exact ⟨rfl, n, hrest, rfl⟩
  | none =>
      cases n with
      | zero => cases h
      | succ m =>
          obtain ⟨hfirst, hrest⟩ := List.cons.inj h
          rw [Feed.read_snd] at hrest
          refine ⟨(next_of_pending rfl).trans hfirst, m, hrest, ?_⟩
          show (feed.advance 1).advance m = feed.advance (m + 1)
          rw [advance_advance, Nat.add_comm]

theorem Meets.cons (h : (r.drop 1).Meets n os) : ∃ m, r.Meets m (r.next :: os) := by
  obtain ⟨feed, pending⟩ := r
  cases pending with
  | some p => exact ⟨n, congrArg (Outcome.piece p :: ·) h⟩
  | none =>
      refine ⟨n + 1, ?_⟩
      show feed.read.1 :: feed.read.2.outcomes n = _
      rw [next_of_pending rfl, Feed.read_snd]
      exact congrArg (feed.read.1 :: ·) h

theorem meets_none (r : Reader) : (r.drop 1).Meets 0 [] := by
  unfold Meets
  rw [drop_pending r Nat.one_pos]
  rfl

/-! ## Stretches -/

/-- The outcomes met are first the pieces `taken`, none of them empty and all of them
accepted, and then `stop`, which is not. They take `reads` reads; nothing is asked of what
later reads bring. -/
structure Stretch (accept : Piece → Bool) (r : Reader) (taken : List Piece) (stop : Outcome)
    (reads : Nat) : Prop where
  met : r.Meets reads (taken.map .piece ++ [stop])
  nonempty : ∀ p ∈ taken, p ≠ []
  passes : ∀ p ∈ taken, accept p = true
  stops : ∀ p, stop = .piece p → p = [] ∨ accept p = false

theorem Stretch.refused (h : Stretch accept r taken stop n) : stop.accepted accept = false := by
  cases stop with
  | piece p =>
      rcases h.stops p rfl with rfl | hp
      · rfl
      · simp [Outcome.accepted, hp]
  | foreign t => rfl
  | fault f => rfl

/-- A stretch that takes nothing: what stops it is in front. -/
theorem Stretch.front (h : Stretch accept r [] stop n) :
    r.next = stop ∧ r.feed.advance n = (r.drop 1).feed := by
  obtain ⟨hnext, m, hmet, hfeed⟩ := h.met.tail
  cases m with
  | zero => exact ⟨hnext, hfeed.symm⟩
  | succ m =>
      unfold Meets at hmet
      rw [drop_pending r Nat.one_pos] at hmet
      cases hmet

/-- The first piece of a stretch is in front, and behind it is the rest of the stretch. -/
theorem Stretch.behind (h : Stretch accept r (p :: taken) stop n) :
    r.next = .piece p ∧ (Outcome.piece p).accepted accept = true ∧
      ∃ m, Stretch accept (r.drop 1) taken stop m ∧
        (r.drop 1).feed.advance m = r.feed.advance n := by
  obtain ⟨hnext, m, hmet, hfeed⟩ := h.met.tail
  have hnonempty := List.forall_mem_cons.mp h.nonempty
  have hpasses := List.forall_mem_cons.mp h.passes
  refine ⟨hnext, ?_, m, ⟨hmet, hnonempty.2, hpasses.2, h.stops⟩, hfeed⟩
  exact accepted_piece.mpr ⟨List.isEmpty_eq_false_iff.mpr hnonempty.1, hpasses.1⟩

theorem Stretch.held (h : Stretch accept r [] (.piece p) n) :
    (Outcome.piece p).ending text (r.feed.advance n) = .ok text (r.hold p) := by
  rw [h.front.2]
  rfl

theorem Stretch.lost (h : Stretch accept r [] stop n) (hf : stop.fault? = some f) :
    stop.ending text (r.feed.advance n) = .error (.reading f) (r.drop 1) := by
  rw [Outcome.ending_of_fault text _ hf, h.front.2, ← drop_pending r Nat.one_pos]

/-- The loop takes the pieces of a stretch and ends at what stops it. -/
theorem Stretch.gathers (h : Stretch accept r taken stop n) :
    Gathers accept gathered r
      (stop.ending (gathered.flatten ++ taken.flatten) (r.feed.advance n)) := by
  induction taken generalizing gathered r n with
  | nil =>
      rw [List.flatten_nil, List.append_nil]
      rcases stop.piece_or_fault with ⟨p, rfl⟩ | ⟨f, hf⟩
      · rw [h.held]
        exact Gathers.done (turn_of_refused h.front.1 h.refused)
      · rw [h.lost hf]
        exact Gathers.failed (turn_of_fault (h.front.1 ▸ hf))
  | cons p taken ih =>
      obtain ⟨hnext, hp, m, hrest, hfeed⟩ := h.behind
      have hgathers : Gathers accept (gathered ++ [p]) (r.drop 1) _ := ih hrest
      rw [hfeed, List.flatten_append, List.flatten_singleton, List.append_assoc] at hgathers
      exact Gathers.again (turn_of_accepted hnext hp) hgathers

/-- A run takes the pieces of a stretch, and ends there, too. -/
theorem Stretch.takeRun_ends (h : Stretch accept r taken stop n) :
    takeRun accept r = stop.ending taken.flatten (r.feed.advance n) := by
  induction taken generalizing r n with
  | nil =>
      obtain ⟨hlength, htext⟩ := run_of_refused (h.front.1 ▸ h.refused)
      rw [takeRun_eq, hlength, htext, drop_zero]
      rcases stop.piece_or_fault with ⟨p, rfl⟩ | ⟨f, hf⟩
      · rw [bind_of_ok (peek_of_piece h.front.1), h.held]
        rfl
      · rw [bind_of_error (peek_of_fault (h.front.1 ▸ hf)), h.lost hf]
  | cons p taken ih =>
      obtain ⟨hnext, hp, m, hrest, hfeed⟩ := h.behind
      have hrun := ih hrest
      rw [hfeed] at hrun
      rw [takeRun_of_accepted hnext hp]
      cases stop with
      | piece q => exact bind_of_ok hrun
      | foreign t => exact bind_of_error hrun
      | fault f => exact bind_of_error hrun

/-! ## There is always a stretch -/

theorem stretch_of_refused (h : r.next.accepted accept = false) :
    ∃ n, Stretch accept r [] r.next n := by
  obtain ⟨n, hmet⟩ := (meets_none r).cons
  refine ⟨n, hmet, by simp, by simp, ?_⟩
  intro p hp
  rw [hp] at h
  cases p with
  | nil => exact Or.inl rfl
  | cons c cs => exact Or.inr h

theorem Stretch.cons (hnext : r.next = .piece p) (hp : (Outcome.piece p).accepted accept = true)
    (h : Stretch accept (r.drop 1) taken stop n) : ∃ m, Stretch accept r (p :: taken) stop m := by
  obtain ⟨m, hmet⟩ := h.met.cons
  obtain ⟨hend, hpass⟩ := accepted_piece.mp hp
  rw [hnext] at hmet
  refine ⟨m, hmet, ?_, List.forall_mem_cons.mpr ⟨hpass, h.passes⟩, h.stops⟩
  exact List.forall_mem_cons.mpr ⟨List.isEmpty_eq_false_iff.mp hend, h.nonempty⟩

/-- What is listed ahead runs out, and behind it there is no text. -/
theorem exists_stretch (accept : Piece → Bool) (r : Reader) :
    ∃ taken stop n, Stretch accept r taken stop n := by
  induction hup : r.upcoming generalizing r with
  | nil => exact ⟨[], r.next, stretch_of_refused (refused_of_upcoming_nil hup)⟩
  | cons o us ih =>
      cases hnext : r.next.accepted accept with
      | false => exact ⟨[], r.next, stretch_of_refused hnext⟩
      | true =>
          obtain ⟨taken, stop, n, hrest⟩ := ih (r.drop 1) (by rw [upcoming_drop, hup]; rfl)
          obtain ⟨p, hp⟩ := piece_of_accepted hnext
          exact ⟨p :: taken, stop, hrest.cons hp (hp ▸ hnext)⟩

/-- **A run is the longest one.** For every reader and every test, the loop comes to an end,
which is that of `takeRun`; there is a stretch that it takes; and for every stretch the end is
the text of its pieces with what stops it held back, or the failure of what stops it with
nothing held back. The feed has been read as far as the stop and no further. -/
theorem takeRun_longest (accept : Piece → Bool) (r : Reader) :
    (∀ result, Gathers accept [] r result ↔ takeRun accept r = result) ∧
      (∃ taken stop reads, Stretch accept r taken stop reads) ∧
      ∀ taken stop reads, Stretch accept r taken stop reads →
        takeRun accept r = stop.ending taken.flatten (r.feed.advance reads) := by
  obtain ⟨taken, stop, n, h⟩ := exists_stretch accept r
  have hgathers : Gathers accept [] r (takeRun accept r) := by
    rw [h.takeRun_ends]
    exact h.gathers
  refine ⟨fun result => ⟨?_, ?_⟩, ⟨taken, stop, n, h⟩, fun _ _ _ h => h.takeRun_ends⟩
  · exact fun hresult => hgathers.unique hresult
  · rintro rfl
    exact hgathers

def interrupted : Reader where
  feed := Feed.ofScript [.piece ['b', 'c'], .fault ⟨.device "TimeoutError", "slow"⟩, .piece ['d']]
  pending := some ['a']

/-- Even a test that every piece passes, the end of the input included, goes no further than
the failure. -/
theorem interrupted_run :
    Stretch (fun _ => true) interrupted [['a'], ['b', 'c']]
        (.fault ⟨.device "TimeoutError", "slow"⟩) 2 ∧
      Gathers (fun _ => true) [] interrupted
        (.error (.reading ⟨.source, "slow"⟩) { feed := interrupted.feed.advance 2 }) ∧
      (interrupted.feed.advance 2).read.1 = .piece ['d'] := by
  have hstretch : Stretch (fun _ => true) interrupted [['a'], ['b', 'c']]
      (.fault ⟨.device "TimeoutError", "slow"⟩) 2 :=
    ⟨rfl, by decide, by decide, fun p hp => by cases hp⟩
  obtain ⟨hloop, -, hruns⟩ := takeRun_longest (fun _ => true) interrupted
  exact ⟨hstretch, (hloop _).mpr (hruns _ _ _ hstretch), rfl⟩

end Reader

end FilterLex
