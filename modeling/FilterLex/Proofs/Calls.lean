import FilterLex.Proofs.Lexeme
import FilterLex.Source

/-!
# Calls of the lexer, one after another

The reader of a text is taken through call after call, past every error, up to the end
of the input. Each call is kept with the reader before and the reader after it, so what
it took off the text can be read off these.

- `consume_end`, `consume_rule`: one call on a text.
- `readerAfter`, `readerAfter_faces`: the reader as the first `n` calls leave it; a reader
  of a text is one of a text still.
- `Call`, `Sweep`: the calls up to the end of the input.
- `RunsTo`, `exists_sweep`: whole runs, and the run that the calls of a text make.
-/

namespace FilterLex

open CharClass

namespace Reader

structure Delivers (r : Reader) (text : List Char) : Prop where
  upcoming : r.upcoming = text.map fun c => .piece [c]
  tail : r.feed.tail = .ended

variable {base r : Reader} {text a b : List Char}

theorem Delivers.shows (h : r.Delivers text) : r.Shows text (.piece []) := by
  refine ⟨[], ?_, ?_⟩
  · rw [h.upcoming, List.append_nil]
  · rw [h.tail]
    rfl

theorem Delivers.skip (h : r.Delivers text) (n : Nat) : (r.drop n).Delivers (text.drop n) := by
  constructor
  · rw [upcoming_drop, h.upcoming, List.map_drop]
  · rw [tail_drop, h.tail]

theorem Delivers.drop (h : r.Delivers (a ++ b)) : (r.drop a.length).Delivers b := by
  have := h.skip a.length
  rwa [List.drop_left] at this

theorem Delivers.unread (h : r.Delivers text) : r.unread = text := by
  unfold Reader.unread
  rw [h.upcoming, List.flatMap_map]
  exact List.flatMap_singleton' text

theorem delivers_ofChars (text : List Char) :
    ({ feed := Feed.ofChars text } : Reader).Delivers text := ⟨rfl, rfl⟩

/-- A reader of `text`, which may hold back what is in front. -/
def Faces (r : Reader) (text : List Char) : Prop :=
  ∃ base : Reader, base.Delivers text ∧ base.StandsAt r

theorem Faces.unread (h : r.Faces text) : r.unread = text := by
  obtain ⟨base, hb, hr⟩ := h
  rw [hr.unread, hb.unread]

end Reader

namespace Lexer

section Step

variable {o : Options} {base r : Reader} {text rest : List Char}

/-- A rule leaves the reader behind its text. Where the rule has to look, something is
there to be held back. -/
theorem leave_standsAt_of_shows {stop : Outcome} {looks : Bool} (h : base.Shows rest stop)
    (hgo : looks = false ∨ rest ≠ [] ∨ stop = .piece []) :
    base.StandsAt (leave looks rest base) := by
  unfold leave
  cases looks with
  | false => exact Or.inl rfl
  | true =>
      have hrest : rest ≠ [] ∨ stop = .piece [] := by simpa using hgo
      exact Or.inr ⟨rest.take 1, h.next_take hrest, rfl⟩

theorem leave_standsAt (looks : Bool) (h : base.Delivers rest) :
    base.StandsAt (leave looks rest base) :=
  leave_standsAt_of_shows h.shows (Or.inr (Or.inr rfl))

/-- A call in front of blanks only finds the end of the input. -/
theorem consume_end {w : List Char} (hw : ∀ c ∈ w, blank c = true) (hb : base.Delivers w)
    (hr : base.StandsAt r) :
    consume o r = .ok Token.endOfInput ((base.drop w.length).hold []) := by
  rw [hr.consume o]
  exact consume_blanks hw hb.shows

/-- A call in front of a text that a rule divides delivers what the rule says. -/
theorem consume_rule {w raw : List Char} {result : Except LexicalError Token} {looks : Bool}
    (hm : Munch o raw rest result looks) (hw : ∀ c ∈ w, blank c = true)
    (hb : base.Delivers (w ++ (raw ++ rest))) (hr : base.StandsAt r) :
    consume o r = .ok (report result) (leave looks rest (base.drop (w ++ raw).length)) := by
  rw [hr.consume o]
  exact consume_munch hm hw hb.shows rfl (Or.inr (Or.inr rfl))

/-! ## After some calls -/

def readerAfter (o : Options) : Nat → Reader → Reader
  | 0, r => r
  | n + 1, r =>
      match consume o r with
      | .ok _ s => readerAfter o n s
      | .error _ s => readerAfter o n s

/-- A call leaves the end of the text that was ahead of it. -/
theorem consume_faces (o : Options) (h : r.Faces text) :
    ∃ t r' rest, consume o r = .ok t r' ∧ r'.Faces rest ∧ rest <:+ text := by
  obtain ⟨base, hb, hr⟩ := h
  rcases text_cases o text with hw | ⟨w, raw, rest, result, looks, rfl, hw, hm⟩
  · have hc := consume_end (o := o) hw hb hr
    rw [← List.append_nil text] at hb
    have hd := hb.drop
    exact ⟨_, _, [], hc, ⟨_, hd, Or.inr ⟨[], hd.shows.next_nil, rfl⟩⟩, List.nil_suffix⟩
  · have hc := consume_rule hm hw hb hr
    rw [← List.append_assoc] at hb
    refine ⟨_, _, rest, hc, ⟨_, hb.drop, leave_standsAt looks hb.drop⟩, ?_⟩
    exact ⟨w ++ raw, by rw [List.append_assoc]⟩

theorem readerAfter_faces (o : Options) (n : Nat) (h : r.Faces text) :
    ∃ rest, (readerAfter o n r).Faces rest ∧ rest <:+ text := by
  induction n generalizing r text with
  | zero => exact ⟨text, h, List.suffix_refl text⟩
  | succ n ih =>
      obtain ⟨t, r', rest, hc, hr, hsuffix⟩ := consume_faces o h
      unfold readerAfter
      rw [hc]
      obtain ⟨rest', hr', hsuffix'⟩ := ih hr
      exact ⟨rest', hr', hsuffix'.trans hsuffix⟩

end Step

/-! ## The calls up to the end of the input -/

structure Call where
  before : Reader
  token : Token
  after : Reader

namespace Call

def blanks (c : Call) : List Char := c.before.unread.takeWhile blank

def rest (c : Call) : List Char := c.after.unread

/-- The text of the token: what the call takes after the blanks. -/
def raw (c : Call) : List Char :=
  let text := c.before.unread.dropWhile blank
  text.take (text.length - c.rest.length)

def text (c : Call) : List Char := c.blanks ++ c.raw

/-- A string with both its quotes and an operator of two characters end by themselves:
no look at what follows is needed to know it. -/
def selfContained (c : Call) : Bool :=
  (c.token.kind = .string ∧ c.raw.length = c.token.lexeme.toList.length + 2) ∨
    (c.token.kind.isOperator ∧ c.raw.length = 2)

end Call

/-- The calls from `r` on, past every error, up to the end of the input. -/
inductive Sweep (o : Options) : Reader → List Call → Prop
  | done {r r'} (h : consume o r = .ok Token.endOfInput r') : Sweep o r []
  | call {r t r' calls} (h : consume o r = .ok t r') (ht : t ≠ Token.endOfInput)
      (hs : Sweep o r' calls) : Sweep o r (⟨r, t, r'⟩ :: calls)

theorem Sweep.unique {o : Options} {r : Reader} {calls calls' : List Call}
    (h : Sweep o r calls) (h' : Sweep o r calls') : calls = calls' := by
  induction h generalizing calls' with
  | done h =>
      cases h' with
      | done _ => rfl
      | call h₂ ht _ =>
          rw [h] at h₂
          cases h₂
          exact absurd rfl ht
  | call h ht _ ih =>
      cases h' with
      | done h₂ =>
          rw [h] at h₂
          cases h₂
          exact absurd rfl ht
      | call h₂ _ hs =>
          rw [h] at h₂
          cases h₂
          rw [ih hs]

/-- What the readers of a call show, where it follows a lexical rule. -/
theorem Call.of_munch {o : Options} {w raw rest : List Char}
    {result : Except LexicalError Token} {looks : Bool} {r r' : Reader} {t : Token}
    (hw : ∀ c ∈ w, blank c = true)
    (hm : Munch o raw rest result looks) (hr : r.Faces (w ++ (raw ++ rest)))
    (hr' : r'.Faces rest) :
    (Call.mk r t r').blanks = w ∧ (Call.mk r t r').raw = raw ∧ (Call.mk r t r').rest = rest := by
  have hrest : (Call.mk r t r').rest = rest := hr'.unread
  refine ⟨?_, ?_, hrest⟩
  · show r.unread.takeWhile blank = w
    rw [hr.unread, takeWhile_of_stops hw hm.stops_blank]
  · unfold Call.raw
    rw [hrest, hr.unread, dropWhile_of_stops hw hm.stops_blank]
    simp

/-- A call that follows a rule is self-contained where the rule need not look. -/
theorem Call.selfContained_of_munch {o : Options} {w raw rest : List Char}
    {result : Except LexicalError Token} {looks : Bool} {r r' : Reader} {t : Token}
    (hw : ∀ c ∈ w, blank c = true) (hm : Munch o raw rest result looks)
    (hr : r.Faces (w ++ (raw ++ rest))) (hr' : r'.Faces rest) (ht : t = report result) :
    (Call.mk r t r').selfContained = !looks := by
  obtain ⟨-, hraw, -⟩ := Call.of_munch (t := t) hw hm hr hr'
  unfold Call.selfContained
  rw [hraw, Bool.eq_iff_iff, Bool.not_eq_true', hm.looks_iff, ht]
  simp

/-! ## Whole runs -/

section Runs

variable {o : Options} {r r' : Reader} {t : Token} {ts : List Token}

/-- The run from `r` delivers the tokens `ts`, and no fault cuts it short. -/
def RunsTo (o : Options) (r : Reader) (ts : List Token) : Prop :=
  (run o r).tokens = ts ∧ (run o r).fault = none

theorem RunsTo.of_final (h : consume o r = .ok t r') (ht : t.isFinal = true) :
    RunsTo o r [t] := by
  unfold RunsTo
  rw [run_of_final h ht]
  exact ⟨rfl, rfl⟩

theorem RunsTo.of_ok (h : consume o r = .ok t r') (ht : t.isFinal = false)
    (hrun : RunsTo o r' ts) : RunsTo o r (t :: ts) := by
  unfold RunsTo
  rw [run_of_ok h ht]
  exact ⟨congrArg (t :: ·) hrun.1, hrun.2⟩

/-- A run delivers what its first call delivers, and then what the rest of the run does. -/
theorem RunsTo.cons_iff {u : Token} (h : consume o r = .ok t r') (ht : t.isFinal = false) :
    RunsTo o r (u :: ts) ↔ t = u ∧ RunsTo o r' ts := by
  unfold RunsTo
  rw [run_of_ok h ht]
  constructor
  · rintro ⟨htokens, hfault⟩
    obtain ⟨hhead, htail⟩ := List.cons.inj htokens
    exact ⟨hhead, htail, hfault⟩
  · rintro ⟨rfl, htokens, hfault⟩
    exact ⟨congrArg (t :: ·) htokens, hfault⟩

theorem RunsTo.head {u : Token} (hrun : RunsTo o r (u :: ts)) (h : consume o r = .ok t r') :
    t = u := by
  cases ht : t.isFinal with
  | false => exact ((RunsTo.cons_iff h ht).mp hrun).1
  | true =>
      have htokens := hrun.1
      rw [run_of_final h ht] at htokens
      exact (List.cons.inj htokens).1

/-- The tokens that a run delivers: those of its calls, up to the first error or the end
of the input. -/
def runTokens : List Call → List Token
  | [] => [Token.endOfInput]
  | c :: calls => if c.token.kind = .error then [c.token] else c.token :: runTokens calls

/-- The calls of a text come to the end of the input, and the run delivers their tokens. -/
theorem exists_sweep {base : Reader} {text : List Char} (o : Options) (hb : base.Delivers text)
    (hr : base.StandsAt r) : ∃ calls, Sweep o r calls ∧ RunsTo o r (runTokens calls) := by
  induction text using text_induction o generalizing base r with
  | blanks w hw =>
      have hc := consume_end (o := o) hw hb hr
      exact ⟨[], Sweep.done hc, RunsTo.of_final hc rfl⟩
  | rule w raw rest result looks hw hm ih =>
      have hc := consume_rule hm hw hb hr
      rw [← List.append_assoc] at hb
      obtain ⟨calls, hsweep, hrun⟩ := ih hb.drop (leave_standsAt looks hb.drop)
      refine ⟨_, Sweep.call hc hm.report_ne_end hsweep, ?_⟩
      unfold runTokens
      by_cases herror : (report result).kind = .error
      · rw [if_pos herror]
        exact RunsTo.of_final hc (by simp [Token.isFinal, herror])
      · rw [if_neg herror]
        exact RunsTo.of_ok hc (by simp [Token.isFinal, herror, hm.kind_ne_eof]) hrun

end Runs

end Lexer

/-- A source can be read, and its tokens up to the end of the input or the first error
are `ts`. -/
def TokenizesTo (o : Options) (source : Source) (ts : List Token) : Prop :=
  ∃ run, tokenize o source = .ok run ∧ run.tokens = ts ∧ run.fault = none

theorem tokenizesTo_feed {o : Options} {f : Feed} {ts : List Token} :
    TokenizesTo o (.feed f) ts ↔ Lexer.RunsTo o { feed := f } ts := by
  constructor
  · rintro ⟨run, hrun, htokens⟩
    cases hrun
    exact htokens
  · intro h
    exact ⟨_, rfl, h⟩

end FilterLex
