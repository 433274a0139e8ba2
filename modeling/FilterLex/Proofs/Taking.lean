import FilterLex.Proofs.Reporting

/-!
# What a call takes

A call takes pieces from the front, and the end of the input is never among them: it stops
in front of the first piece that it does not take. Behind what it takes there are three ways
for it to end. It need not look, it looks and holds the piece back, or it looks and the read
fails.

- `Verdict.TakesText`, `verdict_takesText`: what is in front takes text only.
- `verdict_of_taken`: only the end of the input takes nothing.
- `Goes`, `ask_goes`: the three ways, for every reader.
- `Goes.delivered`: what the source has delivered by then.
-/

namespace FilterLex

/-- Text other than the end of the input. -/
def Outcome.hasText (o : Outcome) : Bool := !o.chars.isEmpty

theorem Outcome.hasText_iff {o : Outcome} : o.hasText = true ↔ ∃ p, p ≠ [] ∧ o = .piece p := by
  unfold Outcome.hasText
  cases o with
  | piece p =>
      cases p with
      | nil => simp [Outcome.chars]
      | cons c cs => simp [Outcome.chars]
  | foreign t => simp [Outcome.chars]
  | fault f => simp [Outcome.chars]

/-! ## What has been delivered -/

theorem Feed.outcomes_succ {n : Nat} {f : Feed} (hn : n ≤ f.ahead.length) :
    f.outcomes (n + 1) = f.ahead.take n ++ [(f.advance n).read.1] := by
  rw [Feed.outcomes_add, Feed.outcomes_of_le f hn]
  rfl

namespace Reader

variable {r : Reader} {n : Nat} {p : Piece}

theorem next_of_pending (h : r.pending = none) : r.next = r.feed.read.1 := by
  obtain ⟨⟨ahead, tail, backing, reads, isOpen⟩, pending⟩ := r
  cases h
  cases ahead <;> rfl

/-- Nothing is held back behind the outcomes that are dropped, unless there are none. -/
theorem delivered_drop (hn : n ≤ r.upcoming.length) :
    r.delivered (r.drop n) = r.upcoming.take n ++ (r.drop n).pending.toList.map .piece := by
  obtain ⟨feed, pending⟩ := r
  have hreads : ∀ m, feed.reads + m - feed.reads = m := fun m => Nat.add_sub_cancel_left _ m
  unfold delivered readsUntil
  cases n with
  | zero =>
      rw [drop_zero, Nat.sub_self]
      exact List.append_nil _
  | succ n =>
      rw [drop_pending _ (Nat.succ_pos n)]
      cases pending with
      | none =>
          show feed.outcomes (feed.reads + (n + 1) - feed.reads) = feed.ahead.take (n + 1) ++ []
          rw [hreads, List.append_nil]
          exact feed.outcomes_of_le hn
      | some p =>
          show .piece p :: feed.outcomes (feed.reads + n - feed.reads) =
            .piece p :: feed.ahead.take n ++ []
          rw [hreads, List.append_nil, feed.outcomes_of_le (Nat.le_of_succ_le_succ hn)]

/-- One outcome more, which may be behind all that is listed. -/
theorem delivered_drop_succ (hn : n ≤ r.upcoming.length) :
    r.delivered (r.drop (n + 1)) = r.upcoming.take n ++ [(r.drop n).next] := by
  obtain ⟨feed, pending⟩ := r
  have hreads : ∀ m, feed.reads + m - feed.reads = m := fun m => Nat.add_sub_cancel_left _ m
  unfold delivered readsUntil
  cases pending with
  | none =>
      have hnext : ((⟨feed, none⟩ : Reader).drop n).next = (feed.advance n).read.1 := by
        cases n with
        | zero => exact next_of_pending rfl
        | succ n => exact next_of_pending rfl
      show feed.outcomes (feed.reads + (n + 1) - feed.reads) = feed.ahead.take n ++ _
      rw [hreads, hnext, Feed.outcomes_succ hn]
  | some p =>
      cases n with
      | zero =>
          show .piece p :: feed.outcomes (feed.reads + 0 - feed.reads) = [.piece p]
          rw [hreads]
          rfl
      | succ n =>
          have hn : n ≤ feed.ahead.length := Nat.le_of_succ_le_succ hn
          have hnext : ((⟨feed, some p⟩ : Reader).drop (n + 1)).next =
              (feed.advance n).read.1 := next_of_pending rfl
          show .piece p :: feed.outcomes (feed.reads + (n + 1) - feed.reads) =
            .piece p :: feed.ahead.take n ++ _
          rw [hreads, hnext, Feed.outcomes_succ hn]
          rfl

theorem delivered_hold (hn : n ≤ r.upcoming.length) :
    r.delivered ((r.drop n).hold p) = r.upcoming.take n ++ [(r.drop n).next] := by
  rw [← delivered_drop_succ hn]
  show r.delivered ((r.drop n).drop 1) = _
  rw [drop_drop]

/-- What is taken on the way to `r'`: what is delivered, without the piece that is held back
in the end. -/
def takenUntil (r r' : Reader) : List Outcome :=
  (r.delivered r').take ((r.delivered r').length - r'.pending.toList.length)

end Reader

namespace Lexer

open Reader

/-! ## Verdicts -/

namespace Verdict

/-- What a verdict takes is ahead, and the end of the input is not among it. -/
structure TakesText (ps : List Piece) (v : Verdict) : Prop where
  ahead : v.taken ≤ ps.length
  text : ∀ p ∈ ps.take v.taken, p ≠ []

variable {ps : List Piece} {v : Verdict} {o : Options}

theorem takesText_zero {result : Except LexicalError Token} {looks : Bool} (ps : List Piece) :
    TakesText ps { result, taken := 0, looks } :=
  ⟨Nat.zero_le _, by simp⟩

theorem length_run_le (accept : Piece → Bool) (ps : List Piece) :
    (Piece.run accept ps).length ≤ ps.length :=
  (List.takeWhile_prefix _).length_le

theorem ne_of_mem_take_run {accept : Piece → Bool} {p : Piece}
    (h : p ∈ ps.take (Piece.run accept ps).length) : p ≠ [] := by
  have htake : ps.take (Piece.run accept ps).length = Piece.run accept ps :=
    (List.prefix_iff_eq_take.mp (List.takeWhile_prefix _)).symm
  rw [htake] at h
  exact (Piece.mem_run h).1

theorem takesText_run {result : Except LexicalError Token} {looks : Bool}
    (accept : Piece → Bool) (ps : List Piece) :
    TakesText ps { result, taken := (Piece.run accept ps).length, looks } :=
  ⟨length_run_le accept ps, fun _ hp => ne_of_mem_take_run hp⟩

theorem one_le_length (h : ps.headD [] ≠ []) : 1 ≤ ps.length := by
  cases ps with
  | nil => exact absurd rfl h
  | cons p ps => exact Nat.succ_le_succ (Nat.zero_le _)

theorem ne_of_mem_take_one {p : Piece} (h : ps.headD [] ≠ []) (hp : p ∈ ps.take 1) :
    p ≠ [] := by
  cases ps with
  | nil => cases hp
  | cons q ps =>
      rw [List.mem_singleton.mp hp]
      exact h

theorem takesText_one {result : Except LexicalError Token} {looks : Bool}
    (h : ps.headD [] ≠ []) : TakesText ps { result, taken := 1, looks } :=
  ⟨one_le_length h, fun _ hp => ne_of_mem_take_one h hp⟩

theorem TakesText.after {n : Nat} (hn : n ≤ ps.length) (hfront : ∀ p ∈ ps.take n, p ≠ [])
    (h : v.TakesText (ps.drop n)) : (v.after n).TakesText ps := by
  constructor
  · have hlen := h.ahead
    rw [List.length_drop] at hlen
    rw [taken_after]
    omega
  · rw [taken_after, List.take_add]
    intro p hp
    rcases List.mem_append.mp hp with hp | hp
    · exact hfront p hp
    · exact h.text p hp

theorem TakesText.after_run {accept : Piece → Bool}
    (h : v.TakesText (ps.drop (Piece.run accept ps).length)) :
    (v.after (Piece.run accept ps).length).TakesText ps :=
  h.after (length_run_le accept ps) fun _ hp => ne_of_mem_take_run hp

theorem TakesText.after_one (hhead : ps.headD [] ≠ []) (h : v.TakesText (ps.drop 1)) :
    (v.after 1).TakesText ps :=
  h.after (one_le_length hhead) fun _ hp => ne_of_mem_take_one hhead hp

theorem fraction_takesText (whole : List Char) (ps : List Piece) :
    (fraction whole ps).TakesText ps := by
  unfold fraction
  split
  · exact takesText_run _ ps
  · exact takesText_zero ps

theorem number_takesText (ps : List Piece) : (number ps).TakesText ps := by
  unfold number
  simp only []
  split
  · next hpoint =>
    have hone : TakesText (ps.drop (Piece.run Piece.isDigit ps).length)
        ((fraction (Piece.run Piece.isDigit ps).flatten
          (ps.drop ((Piece.run Piece.isDigit ps).length + 1))).after 1) := by
      refine TakesText.after_one (by rw [hpoint]; simp) ?_
      rw [List.drop_drop]
      exact fraction_takesText _ _
    have hall := hone.after_run
    unfold after at hall ⊢
    rwa [← Nat.add_assoc] at hall
  · exact takesText_run _ ps

theorem body_takesText (o : Options) (quote : Piece) (ps : List Piece) :
    (body o quote ps).TakesText ps := by
  unfold body
  simp only []
  split
  · exact takesText_run _ ps
  · next hend =>
    have hhead : (ps.drop (Piece.run (· != quote) ps).length).headD [] ≠ [] := by
      intro hnil
      rw [hnil] at hend
      exact hend rfl
    exact (takesText_one hhead).after_run

theorem second_takesText {mark : Piece} (hmark : mark.length = 1) (ps : List Piece) :
    (second mark ps).TakesText ps := by
  unfold second
  split
  · next kind hpair =>
    refine takesText_one ?_
    intro hnil
    unfold Vocabulary.pair? at hpair
    rw [hnil, List.append_nil, if_neg (by omega)] at hpair
    cases hpair
  · split
    · exact takesText_zero ps
    · exact takesText_zero ps

theorem front_takesText (o : Options) (ps : List Piece) : (front o ps).TakesText ps := by
  unfold front
  simp only []
  by_cases hend : (ps.headD []).isEnd = true
  · rw [if_pos hend]
    exact takesText_zero ps
  rw [if_neg hend]
  have hhead : ps.headD [] ≠ [] := by
    intro hnil
    rw [hnil] at hend
    exact hend rfl
  by_cases hdigit : (ps.headD []).isDigit = true
  · rw [if_pos hdigit]
    exact number_takesText ps
  rw [if_neg hdigit]
  by_cases hident : (ps.headD []).isIdentStart = true
  · rw [if_pos hident]
    exact takesText_run _ ps
  rw [if_neg hident]
  by_cases hquote : (ps.headD []).isQuote = true
  · rw [if_pos hquote]
    exact (body_takesText o _ _).after_one hhead
  rw [if_neg hquote]
  by_cases hmark : (ps.headD []).isPunctuation = true
  · rw [if_pos hmark]
    exact (second_takesText (single_length hmark) _).after_one hhead
  rw [if_neg hmark]
  exact takesText_run _ ps

/-- Where something is in front that is no blank, something is taken. -/
theorem front_taken_pos (hend : (ps.headD []).isEnd = false)
    (hblank : (ps.headD []).isBlank = false) : 0 < (front o ps).taken := by
  have hrun : ∀ accept : Piece → Bool, accept (ps.headD []) = true →
      0 < (Piece.run accept ps).length := by
    intro accept haccept
    obtain ⟨more, hmore⟩ := Piece.run_of_head hend haccept
    rw [hmore]
    exact Nat.succ_pos _
  unfold front
  simp only []
  rw [hend, if_neg (by decide)]
  by_cases hdigit : (ps.headD []).isDigit = true
  · rw [if_pos hdigit]
    unfold number
    simp only []
    split
    · rw [taken_after]
      omega
    · exact hrun _ hdigit
  rw [if_neg hdigit]
  by_cases hident : (ps.headD []).isIdentStart = true
  · rw [if_pos hident]
    obtain ⟨c, hc, hstart⟩ := Piece.single_eq hident
    apply hrun
    rw [hc]
    exact CharClass.ident_of_start hstart
  rw [if_neg hident]
  by_cases hquote : (ps.headD []).isQuote = true
  · rw [if_pos hquote, taken_after]
    omega
  rw [if_neg hquote]
  by_cases hmark : (ps.headD []).isPunctuation = true
  · rw [if_pos hmark, taken_after]
    omega
  rw [if_neg hmark]
  apply hrun
  unfold Piece.isNotBlank
  rw [hblank]
  rfl

end Verdict

/-- **What is in front takes text only.** -/
theorem verdict_takesText (o : Options) (ps : List Piece) : (verdict o ps).TakesText ps :=
  (Verdict.front_takesText o _).after_run

/-- Only the end of the input takes nothing, and then it is looked at. -/
theorem verdict_of_taken {o : Options} {ps : List Piece} (h : (verdict o ps).taken = 0) :
    verdict o ps = { result := .ok Token.endOfInput, taken := 0 } := by
  unfold verdict at h ⊢
  simp only [Verdict.taken_after, Nat.add_eq_zero_iff] at h ⊢
  obtain ⟨hblanks, hfront⟩ := h
  cases hend : ((ps.drop (Piece.run Piece.isBlank ps).length).headD []).isEnd with
  | true =>
      unfold Verdict.front
      simp only []
      rw [if_pos hend, hblanks]
      rfl
  | false =>
      have hblank := (behind_blanks ps).resolve_left (Bool.eq_false_iff.mp hend)
      have hpos := Verdict.front_taken_pos (o := o) hend hblank
      omega

/-! ## Calls -/

/-- How a call goes that delivers `d` and leaves `r'`. It takes `n` outcomes, which are text,
and then need not look at what is behind them, or holds it back, or cannot read it. Nothing
is taken only where the end of the input is in front, or a read that fails. -/
inductive Goes (r : Reader) : Delivery → Reader → Prop
  | unseen {d n} (hpos : 0 < n) (hn : n ≤ r.upcoming.length)
      (htext : ∀ u ∈ r.upcoming.take n, u.hasText = true) : Goes r d (r.drop n)
  | held {d n p} (hn : n ≤ r.upcoming.length)
      (htext : ∀ u ∈ r.upcoming.take n, u.hasText = true) (hp : (r.drop n).next = .piece p)
      (hend : n = 0 → d = .ok Token.endOfInput) : Goes r d ((r.drop n).hold p)
  | failed {n} {x : FailedRead} (hn : n ≤ r.upcoming.length)
      (htext : ∀ u ∈ r.upcoming.take n, u.hasText = true)
      (hx : (r.drop n).next = x.outcome) : Goes r x.delivery (r.drop (n + 1))

section Calls

variable {o : Options} {r r' : Reader} {d : Delivery} {n : Nat} {p : Piece}

theorem hasText_of_verdict (o : Options) (r : Reader) :
    (verdict o r.pieces).taken ≤ r.upcoming.length ∧
      ∀ u ∈ r.upcoming.take (verdict o r.pieces).taken, u.hasText = true := by
  obtain ⟨hahead, htext⟩ := verdict_takesText o r.pieces
  unfold Reader.pieces at hahead
  rw [List.length_map] at hahead
  refine ⟨hahead, ?_⟩
  intro u hu
  have hchars : u.chars ∈ r.pieces.take (verdict o r.pieces).taken := by
    unfold Reader.pieces
    rw [← List.map_take]
    exact List.mem_map_of_mem hu
  unfold Outcome.hasText
  simpa using htext _ hchars

/-- **Every call takes text and stops** in one of the three ways. -/
theorem ask_goes (o : Options) (r : Reader) : Goes r (ask o r).1 (ask o r).2 := by
  obtain ⟨hahead, htext⟩ := hasText_of_verdict o r
  have hnothing : (verdict o r.pieces).taken = 0 →
      verdict o r.pieces = { result := .ok Token.endOfInput, taken := 0 } := verdict_of_taken
  cases hlooks : (verdict o r.pieces).looks with
  | false =>
      rw [ask_of_ok (consume_of_not_looks hlooks)]
      refine Goes.unseen (Nat.pos_of_ne_zero ?_) hahead htext
      intro hzero
      rw [hnothing hzero] at hlooks
      cases hlooks
  | true =>
      rcases (r.drop (verdict o r.pieces).taken).next.piece_or_fault with ⟨p, hp⟩ | ⟨f, hf⟩
      · rw [ask_of_ok (consume_of_piece hlooks hp)]
        refine Goes.held hahead htext hp ?_
        intro hzero
        rw [hnothing hzero]
        rfl
      · obtain ⟨x, hx, hdelivery⟩ := FailedRead.of_fault hf
        have hc := consume_of_fault hlooks hf
        by_cases hrep : f.isReported = true
        · rw [if_pos hrep] at hc hdelivery
          rw [ask_of_ok hc, hdelivery]
          exact Goes.failed hahead htext hx
        · rw [if_neg hrep] at hc hdelivery
          rw [ask_of_error hc, hdelivery]
          exact Goes.failed hahead htext hx

/-! ## What a call leaves -/

theorem Goes.tail (h : Goes r d r') : r'.feed.tail = r.feed.tail := by
  cases h with
  | unseen => rw [tail_drop]
  | held =>
      show ((r.drop _).drop 1).feed.tail = r.feed.tail
      rw [tail_drop, tail_drop]
  | failed => rw [tail_drop]

/-- A call that reads the end of the input holds it back. -/
theorem Goes.holds_end (h : Goes r d r') (hend : .piece [] ∈ r.readsUntil r') :
    r'.pending = some [] := by
  have hdelivered : .piece [] ∈ r.delivered r' := List.mem_append_right _ hend
  have hnot : ∀ {n}, (∀ u ∈ r.upcoming.take n, u.hasText = true) →
      .piece [] ∉ r.upcoming.take n := by
    intro n htext hmem
    have := htext _ hmem
    cases this
  cases h with
  | unseen hpos hn htext =>
      rw [delivered_drop hn, drop_pending r hpos] at hdelivered
      simp only [Option.toList_none, List.map_nil, List.append_nil] at hdelivered
      exact absurd hdelivered (hnot htext)
  | held hn htext hp =>
      rw [delivered_hold hn, hp] at hdelivered
      rcases List.mem_append.mp hdelivered with hmem | hmem
      · exact absurd hmem (hnot htext)
      · cases List.mem_singleton.mp hmem
        rfl
  | @failed n x hn htext hx =>
      rw [delivered_drop_succ hn, hx] at hdelivered
      rcases List.mem_append.mp hdelivered with hmem | hmem
      · exact absurd hmem (hnot htext)
      · have heq := List.mem_singleton.mp hmem
        cases x <;> cases heq

end Calls

end Lexer

end FilterLex
