import FilterLex.Proofs.Calls

/-!
# Where tokens stand

The calls of a sweep divide the text among them: what one call takes begins where the
call before it ended, and nothing but blanks is left behind the last one. After each
call the feed has been read to the end of the token, or one character further where the
lexer had to look at what follows.

- `TextOf`: the text that a token stands for.
- `Placed`, `Tiles`: a call at its offset, and calls that follow one another.
- `Munch.placed`: one call is placed where its text begins.
- `sweep_tiles_from`: the calls of a text tile it, from any offset on.
-/

namespace FilterLex

/-- How much of the text `s` a feed has delivered: the rest is ahead, and as many
characters have been read, reads at the end of the input not counted. -/
def Feed.HasDelivered (f : Feed) (s : List Char) (n : Nat) : Prop :=
  f.ahead = (s.drop n).map (fun c => .piece [c]) ∧ min f.reads s.length = n

/-- The ways to hand over a text. -/
inductive Medium
  /-- A stored text. -/
  | stored
  /-- A scripted feed of the single characters. -/
  | scripted

namespace Medium

def feed : Medium → List Char → Feed
  | .stored, s => Feed.ofChars s
  | .scripted, s => Feed.ofScript (s.map fun c => .piece [c])

def reader (m : Medium) (s : List Char) : Reader := { feed := m.feed s }

variable (m : Medium)

theorem delivers (s : List Char) : (m.reader s).Delivers s := by
  cases m <;> exact ⟨rfl, rfl⟩

theorem feed_drop (s : List Char) (n : Nat) :
    ((m.reader s).drop n).feed = (m.feed s).advance n := by
  cases m <;> cases n <;> rfl

theorem advance_hasDelivered (s : List Char) (n : Nat) :
    ((m.feed s).advance n).HasDelivered s (min n s.length) := by
  have hahead : (m.feed s).ahead = s.map fun c => .piece [c] := by cases m <;> rfl
  have hreads : (m.feed s).reads = 0 := by cases m <;> rfl
  constructor
  · unfold Feed.advance
    rw [hahead, ← List.map_drop]
    by_cases hn : n ≤ s.length
    · rw [Nat.min_eq_left hn]
    · have hle : s.length ≤ n := by omega
      rw [Nat.min_eq_right hle, List.drop_eq_nil_of_le hle, List.drop_length]
  · unfold Feed.advance
    rw [hreads, Nat.zero_add]

end Medium

namespace Lexer

open CharClass

/-- The text `raw` of a token, in front of `rest`. -/
inductive TextOf (o : Options) : Token → List Char → List Char → Prop
  | lexeme {t rest} (hstring : t.kind ≠ .string) (herror : t.kind ≠ .error) :
      TextOf o t t.lexeme.toList rest
  | closed {q body rest} (hq : quote q = true) (hb : q ∉ body) :
      TextOf o (Token.ofChars .string body) (q :: (body ++ [q])) rest
  | openString {q body} (hlenient : o.strictStrings = false) (hq : quote q = true)
      (hb : q ∉ body) : TextOf o (Token.ofChars .string body) (q :: body) []
  | expectedDigit {ds rest} (hne : ds ≠ []) (hds : ∀ c ∈ ds, digit c = true) :
      TextOf o (Token.ofError ("expected digit, found " ++ Piece.describe (rest.take 1)))
        (ds ++ ['.']) rest
  | unexpectedPunctuation {a rest} (ha : punctuation a = true) :
      TextOf o (Token.ofError
        ("unexpected punctuation: " ++ String.ofList (Text.Quoted.encode [a]))) [a] rest
  | unterminated {q body} (hstrict : o.strictStrings = true) (hq : quote q = true)
      (hb : q ∉ body) :
      TextOf o (Token.ofError "unterminated string literal") (q :: body) []

/-- A call that begins at the offset `start` of the text `s`. -/
structure Call.Placed (o : Options) (s : List Char) (start : Nat) (c : Call) : Prop where
  text_eq : s.drop start = c.text ++ c.rest
  blanks : ∀ x ∈ c.blanks, blank x = true
  raw_ne : c.raw ≠ []
  textOf : TextOf o c.token c.raw c.rest
  delivered : c.after.feed.HasDelivered s
    (if c.selfContained then start + c.text.length
      else min (start + c.text.length + 1) s.length)

/-- The calls follow one another from the offset on, and only blanks are left at the end. -/
def Tiles (o : Options) (s : List Char) : Nat → List Call → Prop
  | start, [] => ∀ x ∈ s.drop start, blank x = true
  | start, c :: calls => c.Placed o s start ∧ Tiles o s (start + c.text.length) calls

variable {o : Options} {raw rest : List Char} {result : Except LexicalError Token}
  {looks : Bool}

/-! ## What a rule says about its text -/

theorem Munch.textOf (h : Munch o raw rest result looks) : TextOf o (report result) raw rest := by
  have hlexeme : (report result).kind ≠ .string → (report result).kind ≠ .error →
      TextOf o (report result) raw rest := by
    intro hstring herror
    have ht : TextOf o (report result) (report result).lexeme.toList rest :=
      TextOf.lexeme hstring herror
    rwa [← h.raw_eq hstring herror] at ht
  cases h with
  | int _ _ _ _ => exact hlexeme (by rintro ⟨⟩) (by rintro ⟨⟩)
  | float _ _ _ _ _ => exact hlexeme (by rintro ⟨⟩) (by rintro ⟨⟩)
  | point hne hds _ => exact TextOf.expectedDigit hne hds
  | @word c w rest _ _ _ =>
      obtain ⟨hstring, herror, -⟩ := Kind.ne_of_isWord (isWord_ofWord (c :: w))
      exact hlexeme hstring herror
  | closed hq hb => exact TextOf.closed hq hb
  | unclosed hq hb =>
      cases hs : o.strictStrings with
      | true => exact TextOf.unterminated hs hq hb
      | false => exact TextOf.openString hs hq hb
  | pair _ hp =>
      obtain ⟨hstring, herror, -⟩ := Kind.ne_of_isOperator (Vocabulary.operator_cases hp).1
      exact hlexeme hstring herror
  | mark _ _ h1 =>
      obtain ⟨hstring, herror, -⟩ := Kind.ne_of_isOperator (Vocabulary.operator_cases h1).1
      exact hlexeme hstring herror
  | stray ha _ _ => exact TextOf.unexpectedPunctuation ha
  | unknown _ _ _ => exact hlexeme (by rintro ⟨⟩) (by rintro ⟨⟩)

/-! ## The feed after a call -/

/-- What a rule leaves has been delivered up to the end of its text, and one character
further where the rule looks. -/
theorem leave_hasDelivered (m : Medium) (looks : Bool) (rest : List Char) {s : List Char}
    {n : Nat} (hn : n ≤ s.length) :
    (leave looks rest ((m.reader s).drop n)).feed.HasDelivered s
      (if looks = false then n else min (n + 1) s.length) := by
  cases looks with
  | false =>
      have := m.advance_hasDelivered s n
      rwa [Nat.min_eq_left hn, ← m.feed_drop] at this
  | true =>
      have := m.advance_hasDelivered s (n + 1)
      rw [← m.feed_drop, ← Reader.drop_drop] at this
      exact this

/-! ## Offsets -/

section Offsets

variable {s a : List Char} {start : Nat}

theorem drop_offset (hs : s.drop start = a ++ rest) : s.drop (start + a.length) = rest := by
  rw [← List.drop_drop, hs, List.drop_left]

theorem offset_le (hs : s.drop start = a ++ rest) (ha : a ≠ []) :
    start + a.length ≤ s.length := by
  have hlen := congrArg List.length hs
  have hpos := List.length_pos_iff.mpr ha
  rw [List.length_drop, List.length_append] at hlen
  omega

end Offsets

/-! ## Sweeps -/

section Sweeps

variable {m : Medium} {s w : List Char} {start : Nat} {r : Reader}

/-- The reader as a rule leaves it stands where the text of the rule ends. -/
theorem leave_standsAt_offset (looks : Bool) (hs : s.drop start = (w ++ raw) ++ rest) :
    ((m.reader s).drop (start + (w ++ raw).length)).Delivers rest ∧
      ((m.reader s).drop (start + (w ++ raw).length)).StandsAt
        (leave looks rest ((m.reader s).drop (start + (w ++ raw).length))) := by
  have hd := (m.delivers s).skip (start + (w ++ raw).length)
  rw [drop_offset hs] at hd
  exact ⟨hd, leave_standsAt looks hd⟩

/-- **One call.** A call that follows a rule is placed where its text begins. -/
theorem Munch.placed (h : Munch o raw rest result looks) (hw : ∀ c ∈ w, blank c = true)
    (hs : s.drop start = (w ++ raw) ++ rest) (hr : ((m.reader s).drop start).StandsAt r)
    {r' : Reader}
    (hr' : r' = leave looks rest ((m.reader s).drop (start + (w ++ raw).length))) :
    (Call.mk r (report result) r').Placed o s start ∧
      (Call.mk r (report result) r').text = w ++ raw := by
  have hfaces : r.Faces (w ++ (raw ++ rest)) := by
    have hd := (m.delivers s).skip start
    rw [hs, List.append_assoc] at hd
    exact ⟨_, hd, hr⟩
  have hfaces' : r'.Faces rest := by
    obtain ⟨hd, hstands⟩ := leave_standsAt_offset (m := m) looks hs
    rw [← hr'] at hstands
    exact ⟨_, hd, hstands⟩
  obtain ⟨hblanks, hraw, hrest⟩ := Call.of_munch (t := report result) hw h hfaces hfaces'
  have htext : (Call.mk r (report result) r').text = w ++ raw := by
    unfold Call.text
    rw [hblanks, hraw]
  have hself : (Call.mk r (report result) r').selfContained = !looks :=
    Call.selfContained_of_munch hw h hfaces hfaces' rfl
  refine ⟨?_, htext⟩
  constructor
  case text_eq => rw [htext, hrest, hs]
  case blanks => rwa [hblanks]
  case raw_ne =>
    obtain ⟨c, tail, hcons, -⟩ := h.raw_cons
    rw [hraw, hcons]
    exact List.cons_ne_nil c tail
  case textOf =>
    rw [hraw, hrest]
    exact h.textOf
  case delivered =>
    have hd := leave_hasDelivered m looks rest (offset_le hs h.text_ne)
    rw [← hr'] at hd
    rw [htext, hself]
    simpa only [Bool.not_eq_true'] using hd

theorem sweep_tiles_from (o : Options) (hr : ((m.reader s).drop start).StandsAt r) :
    ∃ calls, Sweep o r calls ∧ Tiles o s start calls := by
  generalize htext : s.drop start = text
  induction text using text_induction o generalizing start r with
  | blanks w hw =>
      have hb := (m.delivers s).skip start
      rw [htext] at hb
      refine ⟨[], Sweep.done (consume_end hw hb hr), ?_⟩
      rwa [← htext] at hw
  | rule w raw rest result looks hw hm ih =>
      have hb := (m.delivers s).skip start
      rw [htext] at hb
      have hc := consume_rule hm hw hb hr
      rw [Reader.drop_drop] at hc
      rw [← List.append_assoc] at htext
      obtain ⟨hplaced, hcall⟩ := hm.placed hw htext hr rfl
      obtain ⟨calls, hsweep, htiles⟩ :=
        ih (leave_standsAt_offset looks htext).2 (drop_offset htext)
      refine ⟨_ :: calls, Sweep.call hc hm.report_ne_end hsweep, hplaced, ?_⟩
      rw [hcall]
      exact htiles

/-- Calls that follow one another divide what is left of the text from their offset on. -/
theorem Tiles.split {calls : List Call} (h : Tiles o s start calls) :
    ∃ last, s.drop start = calls.flatMap Call.text ++ last ∧ ∀ x ∈ last, blank x = true := by
  induction calls generalizing start with
  | nil => exact ⟨s.drop start, rfl, h⟩
  | cons c calls ih =>
      obtain ⟨hc, hcalls⟩ := h
      obtain ⟨last, hlast, hblank⟩ := ih hcalls
      refine ⟨last, ?_, hblank⟩
      rw [drop_offset hc.text_eq] at hlast
      rw [hc.text_eq, hlast, List.flatMap_cons, List.append_assoc]

/-- **No character is lost, taken twice or moved.** Whichever way a text is handed over,
the calls up to the end of the input, past every error, divide the text in order: each
takes blanks and then the text of its token, only blanks are left at the end, and after
each call the feed has been read as far as the token says. -/
theorem sweep_tiles (o : Options) (m : Medium) (s : List Char) :
    ∃ calls last, Sweep o (m.reader s) calls ∧ Tiles o s 0 calls ∧
      s = calls.flatMap Call.text ++ last ∧ ∀ x ∈ last, blank x = true := by
  have hstart : ((m.reader s).drop 0).StandsAt (m.reader s) := Or.inl rfl
  obtain ⟨calls, hsweep, htiles⟩ := sweep_tiles_from o hstart
  obtain ⟨last, hlast, hblank⟩ := htiles.split
  exact ⟨calls, last, hsweep, htiles, hlast, hblank⟩

end Sweeps

end Lexer

end FilterLex
