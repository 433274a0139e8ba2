import FilterLex.Proofs.Calls
import FilterLex.Proofs.Taking

/-!
# Every input comes to its end

A call that does not deliver the end takes text or makes a failing read. `Reader.remaining`
counts what is left of the input, failing reads that are listed among it, so where the reads
do not fail for ever each such call leaves less, error or not, and the end is delivered in
time. Where they do fail for ever a run still ends in time, as its first error is its last.

- `Progresses`, `ask_progresses`: what a call does that does not deliver the end.
- `Goes.remaining_lt`: such a call leaves less.
- `end_within`, `run_length_le`: how many calls there can be.
-/

namespace FilterLex.Lexer

open Reader

/-- A call that does not deliver the end takes text, or just one of its reads fails. -/
def Progresses (r : Reader) (d : Delivery) (r' : Reader) : Prop :=
  d = .ok Token.endOfInput ∨ (∃ p, p ≠ [] ∧ .piece p ∈ r.takenUntil r') ∨
    (r.readsUntil r').countP (fun x => !x.isText) = 1

variable {o : Options} {r r' : Reader} {d : Delivery} {n : Nat}

/-! ## Each call makes progress -/

theorem takenUntil_drop (hpos : 0 < n) (hn : n ≤ r.upcoming.length) :
    r.takenUntil (r.drop n) = r.upcoming.take n := by
  unfold takenUntil
  rw [delivered_drop hn, drop_pending r hpos]
  show (r.upcoming.take n ++ []).take ((r.upcoming.take n ++ []).length - 0) = _
  rw [List.append_nil, Nat.sub_zero, List.take_length]

theorem takenUntil_hold {p : Piece} (hn : n ≤ r.upcoming.length) :
    r.takenUntil ((r.drop n).hold p) = r.upcoming.take n := by
  unfold takenUntil
  rw [delivered_hold hn]
  show (r.upcoming.take n ++ [_]).take ((r.upcoming.take n ++ [_]).length - 1) = _
  rw [List.length_append, List.length_singleton, Nat.add_sub_cancel, List.take_left]

/-- Text is taken where the outcomes taken are text and there is one of them. -/
theorem exists_text (hpos : 0 < n) (hn : n ≤ r.upcoming.length)
    (htext : ∀ u ∈ r.upcoming.take n, u.hasText = true) :
    ∃ p, p ≠ [] ∧ .piece p ∈ r.upcoming.take n := by
  obtain ⟨u, hu⟩ : ∃ u, u ∈ r.upcoming.take n := by
    apply List.exists_mem_of_length_pos
    rw [List.length_take]
    omega
  obtain ⟨p, hp, rfl⟩ := Outcome.hasText_iff.mp (htext u hu)
  exact ⟨p, hp, hu⟩

theorem isText_of_hasText {u : Outcome} (h : u.hasText = true) : u.isText = true := by
  obtain ⟨p, -, rfl⟩ := Outcome.hasText_iff.mp h
  rfl

/-- The failing reads of a call, among all that is delivered: a piece that was held back is
none. -/
theorem countP_delivered (r r' : Reader) : (r.delivered r').countP (fun x => !x.isText) =
    (r.readsUntil r').countP fun x => !x.isText := by
  unfold delivered
  cases r.pending with
  | none => rfl
  | some p => rfl

theorem Goes.progresses (h : Goes r d r') : Progresses r d r' := by
  cases h with
  | unseen hpos hn htext =>
      obtain ⟨p, hp, hmem⟩ := exists_text hpos hn htext
      exact Or.inr (Or.inl ⟨p, hp, takenUntil_drop hpos hn ▸ hmem⟩)
  | @held d n q hn htext hq hend =>
      rcases Nat.eq_zero_or_pos n with hzero | hpos
      · exact Or.inl (hend hzero)
      · obtain ⟨p, hp, hmem⟩ := exists_text hpos hn htext
        exact Or.inr (Or.inl ⟨p, hp, takenUntil_hold hn ▸ hmem⟩)
  | @failed n x hn htext hx =>
      refine Or.inr (Or.inr ?_)
      have hnone : (r.upcoming.take n).countP (fun u => !u.isText) = 0 := by
        rw [List.countP_eq_zero]
        intro u hu
        simp [isText_of_hasText (htext u hu)]
      rw [← countP_delivered, delivered_drop_succ hn, hx, List.countP_append, hnone]
      simp [x.not_isText]

/-- **Each call makes progress** or delivers the end. -/
theorem ask_progresses (o : Options) (r : Reader) : Progresses r (ask o r).1 (ask o r).2 :=
  (ask_goes o r).progresses

/-! ## Less is left after each call -/

theorem remaining_drop_text (hn : n ≤ r.upcoming.length)
    (htext : ∀ u ∈ r.upcoming.take n, u.hasText = true) :
    (r.drop n).remaining + n = r.remaining := by
  obtain ⟨feed, pending⟩ := r
  cases n with
  | zero => rfl
  | succ n =>
      cases pending with
      | none =>
          have hn : n + 1 ≤ feed.ahead.length := hn
          show (feed.ahead.drop (n + 1)).length + 0 + (n + 1) = feed.ahead.length + 0
          rw [List.length_drop]
          omega
      | some p =>
          have hn : n ≤ feed.ahead.length := Nat.le_of_succ_le_succ hn
          have hp : (Outcome.piece p).hasText = true := htext _ List.mem_cons_self
          cases p with
          | nil => cases hp
          | cons c p =>
              show (feed.ahead.drop n).length + 0 + (n + 1) = feed.ahead.length + 1
              rw [List.length_drop]
              omega

theorem remaining_hold_le {p : Piece} (hp : r.next = .piece p) :
    (r.hold p).remaining ≤ r.remaining :=
  (peek_eq_ok (peek_of_piece hp)).2

/-- A read that fails is used up, unless the reads fail for ever. -/
theorem remaining_failed {x : FailedRead} (htail : r.feed.tail = .ended)
    (hx : r.next = x.outcome) : (r.drop 1).remaining < r.remaining := by
  obtain ⟨⟨ahead, tail, backing, reads, isOpen⟩, pending⟩ := r
  cases htail
  cases pending with
  | some p => cases x <;> cases hx
  | none =>
      cases ahead with
      | nil => cases x <;> cases hx
      | cons u ahead => exact Nat.lt_succ_self _

theorem Goes.remaining_lt (h : Goes r d r') (htail : r.feed.tail = .ended)
    (hd : d ≠ .ok Token.endOfInput) : r'.remaining < r.remaining := by
  cases h with
  | unseen hpos hn htext =>
      have hdrop := remaining_drop_text hn htext
      omega
  | held hn htext hp hend =>
      have hdrop := remaining_drop_text hn htext
      have hhold := remaining_hold_le hp
      have hpos := Nat.pos_of_ne_zero fun hzero => hd (hend hzero)
      omega
  | @failed n x hn htext hx =>
      have hdrop := remaining_drop_text hn htext
      have hfailed := remaining_failed (by rw [tail_drop, htail]) hx
      rw [drop_drop] at hfailed
      omega

/-! ## How many calls there can be -/

/-- The end is among the deliveries as soon as there are more calls than outcomes left. -/
theorem end_within {os : List Options} (htail : r.feed.tail = .ended)
    (hos : r.remaining < os.length) : .ok Token.endOfInput ∈ (askEach os r).1 := by
  induction os generalizing r with
  | nil => cases hos
  | cons o os ih =>
      rw [askEach_cons]
      have hgoes := ask_goes o r
      by_cases hd : (ask o r).1 = .ok Token.endOfInput
      · rw [hd]
        exact List.mem_cons_self
      · have hless := hgoes.remaining_lt htail hd
        refine List.mem_cons_of_mem _ (ih (hgoes.tail.trans htail) ?_)
        rw [List.length_cons] at hos
        omega

theorem run_length_le (o : Options) (r : Reader) :
    (run o r).deliveries.length ≤ r.remaining + 1 := by
  induction hn : r.remaining using Nat.strong_induction_on generalizing r with
  | _ n ih =>
      cases hc : consume o r with
      | error f s =>
          rw [run_of_error hc]
          exact Nat.succ_le_succ (Nat.zero_le n)
      | ok t s =>
          cases ht : t.isFinal with
          | true =>
              rw [run_of_final hc ht]
              exact Nat.succ_le_succ (Nat.zero_le n)
          | false =>
              have hless : s.remaining < n := hn ▸ consume_lt hc ht
              have hrest := ih s.remaining hless s rfl
              rw [run_of_ok hc ht]
              show (run o s).deliveries.length + 1 ≤ n + 1
              omega

theorem tokens_length_le (run : Run) : run.tokens.length ≤ run.deliveries.length := by
  unfold Run.deliveries
  rw [List.length_append, List.length_map]
  omega

theorem run_text (o : Options) (text : String) :
    (run o { feed := Feed.ofString text }).fault = none := by
  obtain ⟨calls, -, -, hfault⟩ := exists_sweep o (delivers_ofChars text.toList) (Or.inl rfl)
  exact hfault

theorem remaining_ofString (text : String) :
    ({ feed := Feed.ofString text } : Reader).remaining = text.length := by
  show (text.toList.map _).length + 0 = text.length
  rw [List.length_map, Nat.add_zero, String.length_toList]

/-- **Every input comes to its end.** Each call makes progress or delivers the end. So a text
of `n` characters, or `n` outcomes that are not followed by failures, delivers the end within
`n + 1` calls, whatever options each of them has; and a run makes no more calls than that even
where failures follow for ever, only the last of which ends it. -/
theorem calls_come_to_end :
    (∀ (o : Options) (r : Reader), Progresses r (ask o r).1 (ask o r).2) ∧
      (∀ (options : Nat → Options) (text : String), .ok Token.endOfInput ∈
        (askEach ((List.range (text.length + 1)).map options)
          { feed := Feed.ofString text }).1) ∧
      (∀ (o : Options) (text : String), ∃ run, tokenize o (.text text) = .ok run ∧
        run.fault = none ∧ run.tokens.length ≤ text.length + 1) ∧
      (∀ (options : Nat → Options) (outcomes : List Outcome), .ok Token.endOfInput ∈
        (askEach ((List.range (outcomes.length + 1)).map options)
          { feed := Feed.ofScript outcomes }).1) ∧
      ∀ (o : Options) (outcomes : List Outcome) (tail : Tail),
        (run o { feed := Feed.ofScript outcomes tail }).deliveries.length ≤
            outcomes.length + 1 ∧
          ∃ init last, (run o { feed := Feed.ofScript outcomes tail }).deliveries =
            init ++ [last] ∧ last.ends = true ∧ ∀ d ∈ init, d.ends = false := by
  have hlength : ∀ (options : Nat → Options) (n : Nat),
      ((List.range (n + 1)).map options).length = n + 1 := by simp
  refine ⟨ask_progresses, ?_, ?_, ?_, ?_⟩
  · intro options text
    refine end_within rfl ?_
    rw [hlength, remaining_ofString]
    exact Nat.lt_succ_self _
  · intro o text
    refine ⟨_, rfl, run_text o text, ?_⟩
    rw [← remaining_ofString]
    exact (tokens_length_le _).trans (run_length_le o _)
  · intro options outcomes
    refine end_within rfl ?_
    rw [hlength]
    exact Nat.lt_succ_self _
  · intro o outcomes tail
    exact ⟨run_length_le o _, run_ends o _⟩

end FilterLex.Lexer
