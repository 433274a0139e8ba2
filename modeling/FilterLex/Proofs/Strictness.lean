import FilterLex.Proofs.FailingSource
import FilterLex.Proofs.StickyEnd

/-!
# Strict and lenient strings

The two modes of the lexer differ in one place: where a string literal meets the end of the
input, the one reports an error and the other delivers the string. Calls in the two modes are
therefore the same up to a call that meets such a literal, and behind it there is only the end
of the input.

- `OpenString`: a string literal that meets the end of the input is in front.
- `verdict_cases`, `verdict_open`: the verdicts in the two modes.
- `ask_eq_iff`, `ask_open`: one call in the two modes.
- `callModes`: calls one after another, on any source.
- `exists_textModes`: runs over a text, and over the text with the quote that it lacks.
- `strict_and_lenient`: both.
-/

namespace FilterLex

def Options.strict : Options := { strictStrings := true }

def Options.lenient : Options := { strictStrings := false }

def Token.unterminated : Token := Token.ofError LexicalError.unterminatedString.message

namespace Piece

variable {accept : Piece → Bool} {ps run rest : List Piece}

theorem ne_of_single {test : Char → Bool} {p : Piece} (h : Piece.single test p = true) :
    p ≠ [] := by
  obtain ⟨c, rfl, -⟩ := single_eq h
  exact List.cons_ne_nil c []

theorem run_append (hrun : ∀ p ∈ run, (!p.isEnd && accept p) = true)
    (hrest : (!(rest.headD []).isEnd && accept (rest.headD [])) = false) :
    Piece.run accept (run ++ rest) = run := by
  unfold Piece.run
  rw [List.takeWhile_append_of_pos hrun]
  cases rest with
  | nil => rw [List.takeWhile_nil, List.append_nil]
  | cons p rest =>
      rw [List.takeWhile_cons_of_neg (by simpa using hrest), List.append_nil]

theorem run_append_drop (accept : Piece → Bool) (ps : List Piece) :
    Piece.run accept ps ++ ps.drop (Piece.run accept ps).length = ps := by
  unfold Piece.run
  rw [Reader.drop_length_takeWhile, List.takeWhile_append_dropWhile]

end Piece

namespace Lexer

open Reader

/-! ## The verdicts in the two modes -/

/-- What is made of a string that the end of the input cuts off. -/
def openResult (o : Options) (text : List Char) : Except LexicalError Token :=
  if o.strictStrings then .error .unterminatedString else .ok (Token.ofChars .string text)

/-- A string literal, behind blanks, that meets what is not text. -/
structure OpenPieces (blanks : List Piece) (quote : Piece) (body rest : List Piece) : Prop where
  isBlank : ∀ p ∈ blanks, Piece.isBlank p = true
  isQuote : quote.isQuote = true
  inside : ∀ p ∈ body, p ≠ [] ∧ p ≠ quote
  stops : rest.headD [] = []

variable {blanks body rest : List Piece} {quote : Piece}

theorem verdict_open (o : Options) (h : OpenPieces blanks quote body rest) :
    verdict o ((blanks ++ quote :: body) ++ rest) =
      { result := openResult o body.flatten, taken := (blanks ++ quote :: body).length } := by
  obtain ⟨hblanks, hquote, hinside, hrest⟩ := h
  obtain ⟨q, rfl, hq⟩ := Piece.single_eq hquote
  have hblank : Piece.run Piece.isBlank (blanks ++ [q] :: (body ++ rest)) = blanks := by
    refine Piece.run_append ?_ ?_
    · intro p hp
      rw [Piece.isEnd_of_single (hblanks p hp), hblanks p hp]
      rfl
    · exact (CharClass.quote_only hq).2.2.2
  have hbody : Piece.run (· != [q]) (body ++ rest) = body := by
    refine Piece.run_append ?_ ?_
    · intro p hp
      obtain ⟨hend, hne⟩ := hinside p hp
      simp [Piece.isEnd, hend, hne]
    · rw [hrest]
      rfl
  rw [List.append_assoc, List.cons_append, List.length_append, List.length_cons]
  unfold verdict
  simp only [hblank, List.drop_left, front_of_quote hq]
  unfold Verdict.body
  simp only [hbody, List.drop_left, hrest, Nat.add_comm body.length]
  rfl

/-- Where the verdicts differ, there is an open string in front. -/
theorem verdict_cases (o o' : Options) (ps : List Piece) :
    verdict o ps = verdict o' ps ∨
      ∃ blanks quote body rest, OpenPieces blanks quote body rest ∧
        ps = (blanks ++ quote :: body) ++ rest := by
  have hsplit := Piece.run_append_drop Piece.isBlank ps
  have hblanks : ∀ p ∈ Piece.run Piece.isBlank ps, Piece.isBlank p = true :=
    fun p hp => (Piece.mem_run hp).2
  unfold verdict
  simp only []
  generalize Piece.run Piece.isBlank ps = blanks at hsplit hblanks ⊢
  generalize ps.drop blanks.length = front at hsplit ⊢
  by_cases hquote : (front.headD []).isQuote = true
  · obtain ⟨q, hfirst, hq⟩ := Piece.single_eq hquote
    obtain ⟨after, rfl⟩ : ∃ after, front = [q] :: after := by
      cases front with
      | nil => cases hfirst
      | cons p after => exact ⟨after, congrArg (· :: after) hfirst⟩
    have hbody := Piece.run_append_drop (· != [q]) after
    have hinside : ∀ p ∈ Piece.run (· != [q]) after, p ≠ [] ∧ p ≠ [q] := by
      intro p hp
      obtain ⟨hend, hne⟩ := Piece.mem_run hp
      exact ⟨hend, by simpa using hne⟩
    rw [front_of_quote hq, front_of_quote hq]
    unfold Verdict.body
    simp only []
    generalize Piece.run (· != [q]) after = body at hbody hinside ⊢
    generalize after.drop body.length = rest at hbody ⊢
    by_cases hend : Piece.isEnd (rest.headD []) = true
    · refine Or.inr ⟨blanks, [q], body, rest, ⟨hblanks, hquote, hinside, ?_⟩, ?_⟩
      · exact List.isEmpty_iff.mp hend
      · rw [List.append_assoc, List.cons_append, hbody, hsplit]
    · rw [if_neg hend, if_neg hend]
      exact Or.inl rfl
  · left
    unfold Verdict.front
    simp only [if_neg hquote]

end Lexer

/-! ## One call -/

namespace Reader

/-- Behind blanks, a string literal is in front that the end of the input cuts off. -/
structure OpenString (r : Reader) (quote : Piece) (body : List Piece) : Prop where
  isQuote : quote.isQuote = true
  inside : ∀ p ∈ body, p ≠ [] ∧ p ≠ quote
  ahead : ∃ (blanks : List Piece) (later : List Outcome),
    (∀ p ∈ blanks, Piece.isBlank p = true) ∧
    r.upcoming = (blanks ++ quote :: body).map Outcome.piece ++ later ∧
    later.headD r.feed.tail.outcome = .piece []

def MeetsOpenString (r : Reader) : Prop := ∃ quote body, r.OpenString quote body

theorem upcoming_of_pieces {us : List Outcome} {ps rest : List Piece}
    (h : us.map Outcome.chars = ps ++ rest) (hne : ∀ p ∈ ps, p ≠ []) :
    ∃ later, us = ps.map Outcome.piece ++ later ∧ later.map Outcome.chars = rest := by
  obtain ⟨front, later, rfl, hfront, hlater⟩ := List.map_eq_append_iff.mp h
  have hpieces : ∀ u ∈ front, (Outcome.piece ∘ Outcome.chars) u = u := by
    intro u hu
    have hchars := hne u.chars (hfront ▸ List.mem_map_of_mem hu)
    cases u with
    | piece p => rfl
    | foreign t => exact absurd rfl hchars
    | fault f => exact absurd rfl hchars
  refine ⟨later, ?_, hlater⟩
  rw [← hfront, List.map_map, List.map_congr_left hpieces, List.map_id']

theorem headD_chars (later : List Outcome) (tail : Tail) :
    (later.map Outcome.chars).headD [] = (later.headD tail.outcome).chars := by
  cases later with
  | nil => exact (Tail.chars_outcome tail).symm
  | cons u later => rfl

theorem next_behind {r : Reader} {ps : List Piece} {later : List Outcome}
    (h : r.upcoming = ps.map Outcome.piece ++ later) :
    (r.drop ps.length).next = later.headD r.feed.tail.outcome := by
  unfold next
  rw [upcoming_drop, tail_drop, h, List.drop_left' (List.length_map _)]

end Reader

namespace Lexer

open Reader

section Calls

variable {r : Reader} {quote : Piece} {body : List Piece}

/-- A call that meets an open string leaves a reader that holds the end back. -/
theorem ask_open (h : r.OpenString quote body) :
    ∃ s, s.pending = some [] ∧ ∀ o, ask o r = (.ok (report (openResult o body.flatten)), s) := by
  obtain ⟨hquote, hinside, blanks, later, hblanks, hahead, hend⟩ := h
  have hpieces : r.pieces = (blanks ++ quote :: body) ++ later.map Outcome.chars := by
    have hsame : Outcome.chars ∘ Outcome.piece = id := rfl
    unfold Reader.pieces
    rw [hahead, List.map_append, List.map_map, hsame, List.map_id]
  have hstops : (later.map Outcome.chars).headD [] = [] := by
    rw [headD_chars later r.feed.tail, hend]
    rfl
  refine ⟨(r.drop (blanks ++ quote :: body).length).hold [], rfl, ?_⟩
  intro o
  have hv := verdict_open o ⟨hblanks, hquote, hinside, hstops⟩
  rw [← hpieces] at hv
  have hc := consume_of_piece (o := o) (r := r) (by rw [hv])
    (by rw [hv, next_behind hahead, hend])
  rw [hv] at hc
  exact ask_of_ok hc

/-- Without an open string, the modes make no difference. -/
theorem ask_of_closed (h : ¬ r.MeetsOpenString) (o o' : Options) : ask o r = ask o' r := by
  have hconsume : consume o r = consume o' r := by
    rcases verdict_cases o o' r.pieces with hsame | ⟨blanks, quote, body, rest, hopen, hpieces⟩
    · unfold consume
      rw [scan_follows, scan_follows, hsame]
    · have hne : ∀ p ∈ blanks ++ quote :: body, p ≠ [] := by
        intro p hp
        rcases List.mem_append.mp hp with hp | hp
        · exact Piece.ne_of_single (hopen.isBlank p hp)
        rcases List.mem_cons.mp hp with rfl | hp
        · exact Piece.ne_of_single hopen.isQuote
        · exact (hopen.inside p hp).1
      obtain ⟨later, hahead, hlater⟩ := upcoming_of_pieces hpieces hne
      have hstops := hopen.stops
      rw [← hlater, headD_chars later r.feed.tail] at hstops
      have hv := fun o => verdict_open o hopen
      simp only [← hpieces] at hv
      rcases (later.headD r.feed.tail.outcome).piece_or_fault with ⟨p, hp⟩ | ⟨f, hf⟩
      · rw [hp] at hstops
        obtain rfl : p = [] := hstops
        exact absurd ⟨quote, body, hopen.isQuote, hopen.inside, blanks, later, hopen.isBlank,
          hahead, hp⟩ h
      · have hc : ∀ o, consume o r = _ := fun o => consume_of_fault (o := o)
          (by rw [hv]) (by rw [hv, next_behind hahead]; exact hf)
        simp only [hv] at hc
        rw [hc, hc]
  unfold ask
  rw [hconsume]

/-- **The modes differ at open strings only.** -/
theorem ask_eq_iff : ask .strict r = ask .lenient r ↔ ¬ r.MeetsOpenString := by
  constructor
  · rintro h ⟨quote, body, hopen⟩
    obtain ⟨s, -, hask⟩ := ask_open hopen
    rw [hask, hask] at h
    cases h
  · exact fun h => ask_of_closed h .strict .lenient

/-! ## Calls one after another -/

def callsIn (o : Options) (n : Nat) (r : Reader) : List Delivery × Reader :=
  askEach (List.replicate n o) r

theorem callsIn_succ (o : Options) (n : Nat) (r : Reader) :
    callsIn o (n + 1) r =
      ((ask o r).1 :: (callsIn o n (ask o r).2).1, (callsIn o n (ask o r).2).2) := rfl

/-- Where the end is held back, every call delivers the end. -/
theorem callsIn_end (o : Options) (n : Nat) (h : r.pending = some []) :
    callsIn o n r = (List.replicate n (.ok Token.endOfInput), r) := by
  induction n with
  | zero => rfl
  | succ n ih =>
      rw [callsIn_succ, ask_end o h, ih]
      rfl

/-- `n` calls in the two modes: they deliver the same and leave the same reader, and no call meets
an open string; or they are the same up to one that does, where the one mode delivers the error,
the other delivers the string, and both deliver the end from then on. -/
inductive CallModes (r : Reader) (n : Nat) : Prop
  | same (hclosed : ∀ j < n, ¬ (callsIn .strict j r).2.MeetsOpenString)
      (h : callsIn .strict n r = callsIn .lenient n r)
  | apart (k m : Nat) (quote : Piece) (body : List Piece) (s : Reader) (hn : n = k + (m + 1))
      (hclosed : ∀ j < k, ¬ (callsIn .strict j r).2.MeetsOpenString)
      (hsame : callsIn .strict k r = callsIn .lenient k r)
      (hopen : (callsIn .strict k r).2.OpenString quote body)
      (hstrict : callsIn .strict n r = ((callsIn .strict k r).1 ++
        .ok Token.unterminated :: List.replicate m (.ok Token.endOfInput), s))
      (hlenient : callsIn .lenient n r = ((callsIn .strict k r).1 ++
        .ok (Token.ofChars .string body.flatten) :: List.replicate m (.ok Token.endOfInput), s))

/-- **The modes agree call by call, up to an open string.** -/
theorem callModes (r : Reader) (n : Nat) : CallModes r n := by
  induction n generalizing r with
  | zero => exact CallModes.same (fun j hj => absurd hj (Nat.not_lt_zero j)) rfl
  | succ n ih =>
      by_cases hopen : r.MeetsOpenString
      · obtain ⟨quote, body, hopen⟩ := hopen
        obtain ⟨s, hend, hask⟩ := ask_open hopen
        refine CallModes.apart 0 n quote body s (Nat.zero_add _).symm
          (fun j hj => absurd hj (Nat.not_lt_zero j)) rfl hopen ?_ ?_
        · rw [callsIn_succ, hask, callsIn_end _ _ hend]
          rfl
        · rw [callsIn_succ, hask, callsIn_end _ _ hend]
          rfl
      · have hask := ask_eq_iff.mpr hopen
        have hfirst : ∀ {k}, (∀ j < k, ¬ (callsIn .strict j (ask .strict r).2).2.MeetsOpenString) →
            ∀ j < k + 1, ¬ (callsIn .strict j r).2.MeetsOpenString := by
          rintro k hclosed (_ | j) hj
          · exact hopen
          · exact hclosed j (Nat.lt_of_succ_lt_succ hj)
        rcases ih (ask .strict r).2 with
          ⟨hclosed, h⟩ | ⟨k, m, quote, body, s, rfl, hclosed, hsame, hopen, hstrict, hlenient⟩
        · refine CallModes.same (hfirst hclosed) ?_
          rw [callsIn_succ, callsIn_succ, h, hask]
        · refine CallModes.apart (k + 1) m quote body s (Nat.succ_add k (m + 1)).symm
            (hfirst hclosed) ?_ hopen ?_ ?_
          · rw [callsIn_succ, callsIn_succ, hsame, hask]
          · rw [callsIn_succ, callsIn_succ, hstrict]
            rfl
          · rw [callsIn_succ, callsIn_succ, ← hask, hlenient]
            rfl

end Calls

/-! ## Texts -/

section Texts

open CharClass

variable {o : Options} {base r : Reader} {w raw rest text : List Char}
  {result : Except LexicalError Token} {looks : Bool}

/-- Only the rule of the open string makes its error token. -/
theorem Munch.report_ne_unterminated (h : Munch o raw rest result looks)
    (he : result ≠ .error .unterminatedString) : report result ≠ Token.unterminated := by
  intro heq
  cases result with
  | ok t =>
      have hfinal := h.isFinal
      rw [show t = Token.unterminated from heq] at hfinal
      cases hfinal
  | error e =>
      have hmessage : e.message = "unterminated string literal" := congrArg Token.lexeme heq
      cases e with
      | expectedDigit found => exact append_ne (by decide) hmessage
      | unexpectedPunctuation mark => exact append_ne (by decide) hmessage
      | unterminatedString => exact he rfl

/-- A rule is one of both modes, unless it is the one of the open string. -/
theorem Munch.mode_cases (h : Munch o raw rest result looks) :
    ((∀ o', Munch o' raw rest result looks) ∧ result ≠ .error .unterminatedString) ∨
      ∃ q body, quote q = true ∧ q ∉ body ∧ raw = q :: body ∧ rest = [] := by
  cases h with
  | int hne hds hstop hpoint =>
      exact Or.inl ⟨fun _ => Munch.int hne hds hstop hpoint, by rintro ⟨⟩⟩
  | float hne hds hfe hfs hstop =>
      exact Or.inl ⟨fun _ => Munch.float hne hds hfe hfs hstop, by rintro ⟨⟩⟩
  | point hne hds hstop => exact Or.inl ⟨fun _ => Munch.point hne hds hstop, by rintro ⟨⟩⟩
  | word hc hw hstop => exact Or.inl ⟨fun _ => Munch.word hc hw hstop, by rintro ⟨⟩⟩
  | closed hq hb => exact Or.inl ⟨fun _ => Munch.closed hq hb, by rintro ⟨⟩⟩
  | unclosed hq hb => exact Or.inr ⟨_, _, hq, hb, rfl, rfl⟩
  | pair ha hp => exact Or.inl ⟨fun _ => Munch.pair ha hp, by rintro ⟨⟩⟩
  | mark ha hp h1 => exact Or.inl ⟨fun _ => Munch.mark ha hp h1, by rintro ⟨⟩⟩
  | stray ha hp h1 => exact Or.inl ⟨fun _ => Munch.stray ha hp h1, by rintro ⟨⟩⟩
  | unknown hc hw hstop => exact Or.inl ⟨fun _ => Munch.unknown hc hw hstop, by rintro ⟨⟩⟩

def stringThenEnd (body : List Char) : List Token :=
  [Token.ofChars .string body, Token.endOfInput]

/-- The runs over a text in the two modes, and over the text with the quote that it lacks. -/
inductive TextRuns (text : List Char) (r : Reader) : Prop
  | same (ts : List Token) (hnone : Token.unterminated ∉ ts) (hstrict : RunsTo .strict r ts)
      (hlenient : RunsTo .lenient r ts)
  | apart (ts : List Token) (front : List Char) (q : Char) (body : List Char)
      (hnone : Token.unterminated ∉ ts) (hq : quote q = true) (hb : q ∉ body)
      (htext : text = front ++ q :: body)
      (hstrict : RunsTo .strict r (ts ++ [Token.unterminated]))
      (hlenient : RunsTo .lenient r (ts ++ stringThenEnd body))
      (hclosed : ∀ base' r' : Reader, base'.Delivers (text ++ [q]) → base'.StandsAt r' →
        RunsTo .strict r' (ts ++ stringThenEnd body))

theorem runsTo_string (hm : Munch o raw [] (.ok (Token.ofChars .string text)) looks)
    (hw : ∀ c ∈ w, blank c = true) (hb : base.Delivers (w ++ (raw ++ []))) (hr : base.StandsAt r) :
    RunsTo o r (stringThenEnd text) := by
  have hc := consume_rule hm hw hb hr
  rw [← List.append_assoc] at hb
  have hend := consume_end (o := o) (w := []) (by simp) hb.drop (leave_standsAt looks hb.drop)
  exact RunsTo.of_ok hc rfl (RunsTo.of_final hend rfl)

theorem not_mem_cons {t u : Token} {ts : List Token} (ht : t ≠ u) (hts : u ∉ ts) :
    u ∉ t :: ts := by
  rw [List.mem_cons, not_or]
  exact ⟨ht.symm, hts⟩

/-- A rule that does not reach the end of the text is followed the same with more text behind. -/
theorem consume_longer {t : Token} (hm : Munch o raw rest (.ok t) looks) (hrest : rest ≠ [])
    (hw : ∀ c ∈ w, blank c = true) (more : List Char)
    (hb : base.Delivers ((w ++ (raw ++ rest)) ++ more)) (hr : base.StandsAt r) :
    ∃ base' s : Reader,
      consume o r = .ok t s ∧ base'.Delivers (rest ++ more) ∧ base'.StandsAt s := by
  have hm' := hm.extend (Or.inr hrest) more
  rw [List.append_assoc, List.append_assoc] at hb
  have hc := consume_rule hm' hw hb hr
  rw [← List.append_assoc] at hb
  exact ⟨_, _, hc, hb.drop, leave_standsAt looks hb.drop⟩

/-- A token of both modes in front. -/
theorem TextRuns.cons {t : Token} (hm : ∀ o, Munch o raw rest (.ok t) looks)
    (ht : t ≠ Token.unterminated) (hw : ∀ c ∈ w, blank c = true)
    (hb : base.Delivers (w ++ (raw ++ rest))) (hr : base.StandsAt r)
    (h : ∀ {base r : Reader}, base.Delivers rest → base.StandsAt r → TextRuns rest r) :
    TextRuns (w ++ (raw ++ rest)) r := by
  have hc := fun o => consume_rule (hm o) hw hb hr
  have hfinal := (hm .strict).isFinal
  rw [← List.append_assoc] at hb
  rcases h hb.drop (leave_standsAt looks hb.drop) with ⟨ts, hnone, hstrict, hlenient⟩ |
    ⟨ts, front, q, body, hnone, hq, hbody, rfl, hstrict, hlenient, hclosed⟩
  · exact TextRuns.same (t :: ts) (not_mem_cons ht hnone)
      (RunsTo.of_ok (hc .strict) hfinal hstrict) (RunsTo.of_ok (hc .lenient) hfinal hlenient)
  · refine TextRuns.apart (t :: ts) (w ++ (raw ++ front)) q body (not_mem_cons ht hnone) hq hbody
      (by simp) (RunsTo.of_ok (hc .strict) hfinal hstrict)
      (RunsTo.of_ok (hc .lenient) hfinal hlenient) ?_
    intro base' r' hb' hr'
    obtain ⟨base'', s, hc', hb'', hs⟩ := consume_longer (hm .strict) (by simp) hw [q] hb' hr'
    exact RunsTo.of_ok hc' hfinal (hclosed base'' s hb'' hs)

/-- The literal that reaches the end of the text, where the modes part. -/
theorem textRuns_open {q : Char} (hq : quote q = true) (hbody : q ∉ text)
    (hw : ∀ c ∈ w, blank c = true) (hb : base.Delivers (w ++ (q :: text ++ [])))
    (hr : base.StandsAt r) : TextRuns (w ++ (q :: text ++ [])) r := by
  have hm : ∀ o, Munch o (q :: text) [] (openResult o text) true :=
    fun o => Munch.unclosed hq hbody
  refine TextRuns.apart [] w q text (by simp) hq hbody (by rw [List.append_nil]) ?_ ?_ ?_
  · exact RunsTo.of_final (consume_rule (hm .strict) hw hb hr) rfl
  · exact runsTo_string (hm .lenient) hw hb hr
  · intro base' r' hb' hr'
    have hclosed : Munch .strict (q :: (text ++ [q])) [] (.ok (Token.ofChars .string text))
        false := Munch.closed hq hbody
    refine runsTo_string hclosed hw ?_ hr'
    simpa using hb'

/-- **The runs over a text in the two modes.** -/
theorem textRuns (hb : base.Delivers text) (hr : base.StandsAt r) : TextRuns text r := by
  induction text using text_induction .strict generalizing base r with
  | blanks w hw =>
      have hrun : ∀ o, RunsTo o r [Token.endOfInput] :=
        fun o => RunsTo.of_final (consume_end hw hb hr) rfl
      exact TextRuns.same _ (by decide) (hrun .strict) (hrun .lenient)
  | rule w raw rest result looks hw hm ih =>
      rcases hm.mode_cases with ⟨hmodes, hne⟩ | ⟨q, body, hq, hbody, rfl, rfl⟩
      · have hreport := hm.report_ne_unterminated hne
        cases result with
        | ok t => exact TextRuns.cons hmodes hreport hw hb hr ih
        | error e =>
            have hc := fun o => consume_rule (hmodes o) hw hb hr
            refine TextRuns.same _ ?_ (RunsTo.of_final (hc .strict) rfl)
              (RunsTo.of_final (hc .lenient) rfl)
            rw [List.mem_singleton]
            exact hreport.symm
      · exact textRuns_open hq hbody hw hb hr

end Texts

end Lexer

open Lexer CharClass

/-! ## Both modes -/

/-- The tokens `ts` of a text in the strict mode, and its tokens `us` in the lenient mode. -/
structure TextModes (s : String) (ts us : List Token) : Prop where
  same : ts.getLast? ≠ some Token.unterminated → us = ts
  /-- The text ends in an open string. The lenient tokens are the strict ones of the text with the
  quote that is missing. -/
  apart : ts.getLast? = some Token.unterminated →
    ∃ init q body, quote q = true ∧ q ∉ body ∧ q :: body <:+ s.toList ∧
      ts = init ++ [Token.unterminated] ∧ us = init ++ stringThenEnd body ∧
      TokenizesTo .strict (.text (s ++ String.singleton q)) us
  never : Token.unterminated ∉ us

theorem exists_textModes (s : String) : ∃ ts us, TokenizesTo .strict (.text s) ts ∧
    TokenizesTo .lenient (.text s) us ∧ TextModes s ts us := by
  unfold Source.text
  simp only [tokenizesTo_feed]
  rcases textRuns (Reader.delivers_ofChars s.toList) (Or.inl rfl) with
    ⟨ts, hnone, hstrict, hlenient⟩ |
    ⟨init, front, q, body, hnone, hq, hb, htext, hstrict, hlenient, hclosed⟩
  · refine ⟨ts, ts, hstrict, hlenient, fun _ => rfl, ?_, hnone⟩
    intro hlast
    exact absurd (List.mem_of_getLast? hlast) hnone
  · refine ⟨_, _, hstrict, hlenient, ?_, ?_, ?_⟩
    · intro hlast
      exact absurd List.getLast?_concat hlast
    · intro _
      refine ⟨init, q, body, hq, hb, ⟨front, htext.symm⟩, rfl, rfl, tokenizesTo_feed.mpr ?_⟩
      refine hclosed _ _ ?_ (Or.inl rfl)
      unfold Feed.ofString
      rw [String.toList_append, String.toList_singleton]
      exact Reader.delivers_ofChars _
    · rw [List.mem_append, not_or]
      exact ⟨hnone, by simp [stringThenEnd, Token.unterminated, Token.ofError, Token.ofChars,
        Token.endOfInput]⟩

/-- **Strict and lenient differ at open strings only.** Over a text the two modes give the same
tokens, unless the text ends in an open string, which the missing quote would close; on any source,
calls in the two modes are the same up to one that meets an open string, the readers they leave
included. -/
theorem strict_and_lenient :
    (∀ s : String, ∃ ts us, TokenizesTo .strict (.text s) ts ∧
      TokenizesTo .lenient (.text s) us ∧ TextModes s ts us) ∧
    ∀ (r : Reader) (n : Nat), CallModes r n :=
  ⟨exists_textModes, callModes⟩

end FilterLex
