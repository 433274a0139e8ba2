import FilterLex.Proofs.Calls

/-!
# Sources that fail

A source may fail behind a text instead of ending there. The tokens that the text itself
decides are delivered all the same, and then the failure is reported; a token that a
longer text could still change is not delivered.

- `Decides`: a text and the tokens that it decides, by the rules of the lexer.
- `Munch.extend`: a rule that is decided stays the same whatever text is appended.
- `Decides.failing`, `Decides.continued`: the run over a source that fails behind the
  text, and the run over any text that goes on from it.
- `FailsWith`: both, for the tokens that the calls of the lexer decide.
-/

namespace FilterLex

/-- The feed delivers the text character by character, and then its reads fail. -/
def Feed.FailsAfter (f : Feed) (text : List Char) (message : String) : Prop :=
  ∃ later fault, f.ahead = text.map (fun c => .piece [c]) ++ later ∧
    (later.headD f.tail.outcome).fault? = some fault ∧ fault.isReported = true ∧
    fault.message = message

namespace Lexer

open CharClass

/-! ## Decided tokens -/

/-- A call is decided by its text where more text follows, or none needs to. -/
def Call.decided (c : Call) : Bool := c.rest ≠ [] ∨ c.selfContained

/-- The decided tokens in front, up to the first error. -/
def decidedTokens : List Call → List Token
  | [] => []
  | c :: calls =>
      if c.decided then
        if c.token.kind = .error then [c.token] else c.token :: decidedTokens calls
      else []

def EndsInError (ts : List Token) : Prop := ∃ t ∈ ts.getLast?, t.kind = .error

inductive Decides (o : Options) : List Char → List Token → Prop
  | blanks {w} (hw : ∀ c ∈ w, blank c = true) : Decides o w []
  | pending {w raw result} (hw : ∀ c ∈ w, blank c = true) (hm : Munch o raw [] result true) :
      Decides o (w ++ raw) []
  | error {w raw rest e looks} (hw : ∀ c ∈ w, blank c = true)
      (hm : Munch o raw rest (.error e) looks) (hgo : looks = false ∨ rest ≠ []) :
      Decides o (w ++ (raw ++ rest)) [report (.error e)]
  | token {w raw rest t looks ts} (hw : ∀ c ∈ w, blank c = true)
      (hm : Munch o raw rest (.ok t) looks) (hgo : looks = false ∨ rest ≠ [])
      (h : Decides o rest ts) : Decides o (w ++ (raw ++ rest)) (t :: ts)

variable {o : Options} {raw rest text : List Char} {result : Except LexicalError Token}
  {looks : Bool} {t : Token} {ts : List Token} {e : LexicalError}

/-! ## What a decided rule delivers -/

/-- A rule delivers a token after which the run goes on, or reports an error. -/
theorem Munch.goes_on (h : Munch o raw rest result looks) :
    (report result).isFinal = false ∨ ∃ e, result = .error e := by
  have hgo : ∀ {u : Token}, u.kind ≠ .error ∧ u.kind ≠ .eof → u.isFinal = false := by
    rintro u ⟨herror, hend⟩
    simp [Token.isFinal, herror, hend]
  cases h with
  | int hne hds _ _ => exact Or.inl rfl
  | float _ _ _ _ _ => exact Or.inl rfl
  | point _ _ _ => exact Or.inr ⟨_, rfl⟩
  | word hc hw _ => exact Or.inl (hgo (Lexeme.word hc hw).kind_ne)
  | closed _ _ => exact Or.inl rfl
  | unclosed _ _ =>
      cases o.strictStrings with
      | true => exact Or.inr ⟨_, rfl⟩
      | false => exact Or.inl rfl
  | pair _ hp => exact Or.inl (hgo (Kind.ne_of_isOperator (Vocabulary.operator_cases hp).1).2)
  | mark _ _ h1 => exact Or.inl (hgo (Kind.ne_of_isOperator (Vocabulary.operator_cases h1).1).2)
  | stray _ _ _ => exact Or.inr ⟨_, rfl⟩
  | unknown _ _ _ => exact Or.inl rfl

theorem Munch.isFinal (h : Munch o raw rest (.ok t) looks) : t.isFinal = false := by
  rcases h.goes_on with hfinal | ⟨e, he⟩
  · exact hfinal
  · cases he

/-- The errors that a text decides: none of them speaks of the end of the input. -/
theorem Munch.error_cases (h : Munch o raw rest result looks) (hgo : looks = false ∨ rest ≠ [])
    (he : result = .error e) :
    (∃ c, e = .expectedDigit [c]) ∨ ∃ a, e = .unexpectedPunctuation [a] := by
  cases h with
  | int _ _ _ _ => cases he
  | float _ _ _ _ _ => cases he
  | point _ _ _ =>
      have hne : rest ≠ [] := by simpa using hgo
      obtain ⟨c, rest, rfl⟩ := List.exists_cons_of_ne_nil hne
      cases he
      exact Or.inl ⟨c, rfl⟩
  | word _ _ _ => cases he
  | closed _ _ => cases he
  | unclosed _ _ => simp at hgo
  | pair _ _ => cases he
  | mark _ _ _ => cases he
  | stray _ _ _ =>
      cases he
      exact Or.inr ⟨_, rfl⟩
  | unknown _ _ _ => cases he

theorem take_one_append (more : List Char) (h : rest ≠ []) :
    (rest ++ more).take 1 = rest.take 1 := by
  cases rest with
  | nil => exact absurd rfl h
  | cons c rest => rfl

/-- **A decided rule stays.** Text that is appended does not change what the rule takes. -/
theorem Munch.extend (h : Munch o raw rest result looks) (hgo : looks = false ∨ rest ≠ [])
    (more : List Char) : Munch o raw (rest ++ more) result looks := by
  have hne : looks = true → rest ≠ [] := by
    rintro rfl
    simpa using hgo
  cases h with
  | int hd hds hstop hpoint =>
      refine Munch.int hd hds ((stops_append more (hne rfl)).mpr hstop) ?_
      rwa [take_one_append more (hne rfl)]
  | float hd hds hfe hfs hstop =>
      exact Munch.float hd hds hfe hfs ((stops_append more (hne rfl)).mpr hstop)
  | point hd hds hstop =>
      have := Munch.point (o := o) hd hds ((stops_append more (hne rfl)).mpr hstop)
      rwa [take_one_append more (hne rfl)] at this
  | word hc hw hstop => exact Munch.word hc hw ((stops_append more (hne rfl)).mpr hstop)
  | closed hq hb => exact Munch.closed hq hb
  | unclosed _ _ => exact absurd rfl (hne rfl)
  | pair ha hp => exact Munch.pair ha hp
  | mark ha hp h1 =>
      refine Munch.mark ha ?_ h1
      rwa [take_one_append more (hne rfl)]
  | stray ha hp h1 =>
      refine Munch.stray ha ?_ h1
      rwa [take_one_append more (hne rfl)]
  | unknown hc hw hstop => exact Munch.unknown hc hw ((stops_append more (hne rfl)).mpr hstop)

/-! ## The runs that share the decided tokens -/

section Runs

variable {base r : Reader} {stop : Outcome} {fault : Fault}

theorem not_endsInError_nil : ¬ EndsInError [] := by
  rintro ⟨t, ⟨⟩, -⟩

/-- Behind a token that is no error, the tokens end in an error where the rest does. -/
theorem endsInError_cons_of_ok (ht : t.isFinal = false) :
    EndsInError (t :: ts) ↔ EndsInError ts := by
  have herror : t.kind ≠ .error := by
    intro hk
    simp [Token.isFinal, hk] at ht
  unfold EndsInError
  cases ts with
  | nil => simp [herror]
  | cons u ts => rw [List.getLast?_cons_cons]

theorem Decides.failing (h : Decides o text ts) (hb : base.Shows text stop)
    (hr : base.StandsAt r) (hf : stop.fault? = some fault) (hrep : fault.isReported = true) :
    (EndsInError ts → RunsTo o r ts) ∧
      (¬ EndsInError ts → RunsTo o r (ts ++ [Token.ofError fault.message])) := by
  induction h generalizing base r with
  | blanks hw =>
      have hc := consume_blanks_fault (o := o) hw hb hf hrep
      rw [← hr.consume o] at hc
      exact ⟨fun he => absurd he not_endsInError_nil, fun _ => RunsTo.of_final hc rfl⟩
  | pending hw hm =>
      -- the lexer has to look behind the text, and there the source fails
      have hc := consume_munch_fault hm hw hb hf hrep
      rw [← hr.consume o] at hc
      exact ⟨fun he => absurd he not_endsInError_nil, fun _ => RunsTo.of_final hc rfl⟩
  | error hw hm hgo =>
      have hc := consume_munch hm hw hb (Outcome.chars_of_fault hf)
        (hgo.imp_right Or.inl)
      rw [← hr.consume o] at hc
      exact ⟨fun _ => RunsTo.of_final hc rfl, fun hn => absurd ⟨_, rfl, rfl⟩ hn⟩
  | @token w raw rest t looks ts hw hm hgo _ ih =>
      have hgo' : looks = false ∨ rest ≠ [] ∨ stop = .piece [] := hgo.imp_right Or.inl
      have hc := consume_munch hm hw hb (Outcome.chars_of_fault hf) hgo'
      rw [← hr.consume o] at hc
      rw [← List.append_assoc] at hb
      obtain ⟨herror, hno⟩ := ih hb.drop (leave_standsAt_of_shows hb.drop hgo')
      rw [endsInError_cons_of_ok hm.isFinal]
      constructor
      · intro he
        exact RunsTo.of_ok hc hm.isFinal (herror he)
      · intro hn
        exact RunsTo.of_ok hc hm.isFinal (hno hn)

theorem Decides.continued (h : Decides o text ts) (more : List Char)
    (hb : base.Delivers (text ++ more)) (hr : base.StandsAt r) :
    ∃ us, RunsTo o r (ts ++ us) ∧ (EndsInError ts → us = []) := by
  induction h generalizing base r with
  | blanks _ =>
      obtain ⟨calls, -, hrun⟩ := exists_sweep o hb hr
      exact ⟨_, hrun, fun he => absurd he not_endsInError_nil⟩
  | pending _ _ =>
      obtain ⟨calls, -, hrun⟩ := exists_sweep o hb hr
      exact ⟨_, hrun, fun he => absurd he not_endsInError_nil⟩
  | error hw hm hgo =>
      rw [List.append_assoc, List.append_assoc] at hb
      have hc := consume_rule (hm.extend hgo more) hw hb hr
      exact ⟨[], RunsTo.of_final hc rfl, fun _ => rfl⟩
  | token hw hm hgo _ ih =>
      rw [List.append_assoc, List.append_assoc] at hb
      have hc := consume_rule (hm.extend hgo more) hw hb hr
      rw [← List.append_assoc] at hb
      obtain ⟨us, hrun, hend⟩ := ih hb.drop (leave_standsAt _ hb.drop)
      refine ⟨us, RunsTo.of_ok hc hm.isFinal hrun, ?_⟩
      rwa [endsInError_cons_of_ok hm.isFinal]

end Runs

/-! ## The tokens that the calls decide -/

section Calls

variable {c : Call} {calls : List Call}

theorem decidedTokens_of_pending (h : ¬ c.decided = true) : decidedTokens (c :: calls) = [] := by
  unfold decidedTokens
  rw [if_neg h]

theorem decidedTokens_of_error (h : c.decided = true) (hk : c.token.kind = .error) :
    decidedTokens (c :: calls) = [c.token] := by
  unfold decidedTokens
  rw [if_pos h, if_pos hk]

theorem decidedTokens_of_ok (h : c.decided = true) (hk : c.token.kind ≠ .error) :
    decidedTokens (c :: calls) = c.token :: decidedTokens calls := by
  rw [decidedTokens, if_pos h, if_neg hk]

theorem Call.decided_of_munch {w : List Char} {r r' : Reader} (hw : ∀ c ∈ w, blank c = true)
    (hm : Munch o raw rest result looks) (hr : r.Faces (w ++ (raw ++ rest)))
    (hr' : r'.Faces rest) :
    (Call.mk r (report result) r').decided = true ↔ looks = false ∨ rest ≠ [] := by
  unfold Call.decided
  rw [(Call.of_munch (t := report result) hw hm hr hr').2.2,
    Call.selfContained_of_munch hw hm hr hr' rfl]
  simp [or_comm]

/-- The calls of a text, and the tokens that they decide by its text. -/
theorem exists_decides {base r : Reader} (o : Options) (hb : base.Delivers text)
    (hr : base.StandsAt r) : ∃ calls, Sweep o r calls ∧ Decides o text (decidedTokens calls) := by
  induction text using text_induction o generalizing base r with
  | blanks w hw => exact ⟨[], Sweep.done (consume_end hw hb hr), Decides.blanks hw⟩
  | rule w raw rest result looks hw hm ih =>
      have hc := consume_rule hm hw hb hr
      have hbefore : r.Faces (w ++ (raw ++ rest)) := ⟨_, hb, hr⟩
      rw [← List.append_assoc] at hb
      have hstands := leave_standsAt looks hb.drop
      have hdecided := Call.decided_of_munch hw hm hbefore ⟨_, hb.drop, hstands⟩
      obtain ⟨calls, hsweep, hdecides⟩ := ih hb.drop hstands
      refine ⟨_, Sweep.call hc hm.report_ne_end hsweep, ?_⟩
      by_cases hgo : looks = false ∨ rest ≠ []
      · cases result with
        | ok t =>
            have hk : t.kind ≠ .error := by
              intro hk
              have hfinal := hm.isFinal
              simp [Token.isFinal, hk] at hfinal
            rw [decidedTokens_of_ok (hdecided.mpr hgo) hk]
            exact Decides.token hw hm hgo hdecides
        | error e =>
            rw [decidedTokens_of_error (hdecided.mpr hgo) rfl]
            exact Decides.error hw hm hgo
      -- the token ends where the text does, and what follows could change it
      · rw [decidedTokens_of_pending (fun h => hgo (hdecided.mp h))]
        obtain ⟨rfl, rfl⟩ : looks = true ∧ rest = [] := by simpa using hgo
        rw [List.append_nil]
        exact Decides.pending hw hm

end Calls

/-! ## What a failing source delivers -/

theorem quoted_mark (s : List Char) : Text.Quoted.mark s = '"' ∨ Text.Quoted.mark s = '\'' := by
  unfold Text.Quoted.mark
  split
  · exact Or.inl rfl
  · exact Or.inr rfl

/-- A character that is there is not described as the end of the input. -/
theorem describe_ne_end (c : Char) : Piece.describe [c] ≠ Token.endLexeme := by
  intro h
  have hlist : Text.Quoted.encode [c] = ['<', 'E', 'O', 'F', '>'] := by
    have hchars := congrArg String.toList h
    rwa [show Piece.describe [c] = String.ofList (Text.Quoted.encode [c]) from rfl,
      String.toList_ofList] at hchars
  have hmark : Text.Quoted.mark [c] = '<' := (List.cons.inj hlist).1
  rcases quoted_mark [c] with hm | hm
  · exact absurd (hm.symm.trans hmark) (by decide)
  · exact absurd (hm.symm.trans hmark) (by decide)

theorem append_ne {a b x : String} (h : ¬ a.toList <+: b.toList) : a ++ x ≠ b := by
  rintro rfl
  rw [String.toList_append] at h
  exact h (List.prefix_append _ _)

/-- No decided error has the message of one that a text gives at its end. -/
theorem message_inside (h : (∃ c, e = .expectedDigit [c]) ∨ ∃ a, e = .unexpectedPunctuation [a]) :
    e.message ≠ "unterminated string literal" ∧
      e.message ≠ "expected digit, found " ++ Token.endLexeme := by
  rcases h with ⟨c, rfl⟩ | ⟨a, rfl⟩
  · constructor
    · exact append_ne (by decide)
    · intro heq
      have hlist : "expected digit, found ".toList ++ (Piece.describe [c]).toList =
          "expected digit, found ".toList ++ Token.endLexeme.toList := by
        rw [← String.toList_append, ← String.toList_append]
        exact congrArg String.toList heq
      exact describe_ne_end c (String.toList_inj.mp (List.append_cancel_left hlist))
  · constructor
    · exact append_ne (by decide)
    · exact append_ne (by decide)

/-- No decided token is one that only the end of a text can give. -/
theorem Decides.inside (h : Decides o text ts) : ∀ u ∈ ts, u.kind ≠ .eof ∧
    u ≠ Token.ofError "unterminated string literal" ∧
    u ≠ Token.ofError ("expected digit, found " ++ Token.endLexeme) := by
  induction h with
  | blanks _ => simp
  | pending _ _ => simp
  | error _ hm hgo =>
      intro u hu
      rw [List.mem_singleton.mp hu]
      obtain ⟨hopen, hpoint⟩ := message_inside (hm.error_cases hgo rfl)
      refine ⟨hm.kind_ne_eof, ?_, ?_⟩
      · intro heq
        exact hopen (congrArg Token.lexeme heq)
      · intro heq
        exact hpoint (congrArg Token.lexeme heq)
  | @token w raw rest t looks ts _ hm hgo _ ih =>
      intro u hu
      rcases List.mem_cons.mp hu with rfl | hu
      · have hfinal := hm.isFinal
        refine ⟨hm.kind_ne_eof, ?_, ?_⟩
        · rintro rfl
          cases hfinal
        · rintro rfl
          cases hfinal
      · exact ih u hu

/-- What the tokens `ts` that a text decides say of a source that fails behind it with
the given message, and of the texts that go on from it. -/
structure FailsWith (o : Options) (text : String) (source : Source) (message : String)
    (ts : List Token) : Prop where
  /-- A decided error ends the run. -/
  onError : EndsInError ts → TokenizesTo o source ts
  /-- Otherwise the failure is reported behind the decided tokens. -/
  onFailure : ¬ EndsInError ts → TokenizesTo o source (ts ++ [Token.ofError message])
  /-- The decided tokens stand in front, whatever the text goes on with. -/
  onMore : ∀ more : String, ∃ us, TokenizesTo o (.text (text ++ more)) (ts ++ us) ∧
    (EndsInError ts → us = [])
  inside : ∀ t ∈ ts, t.kind ≠ .eof ∧ t ≠ Token.ofError "unterminated string literal" ∧
    t ≠ Token.ofError ("expected digit, found " ++ Token.endLexeme)

/-- **A source that fails never yields a wrong token.** It yields the tokens that its text
decides, and the failure after them unless they end in an error; every text that goes on
from this text yields the same tokens first. -/
theorem tokenize_failing (o : Options) (text : String) (f : Feed) (message : String)
    (hf : f.FailsAfter text.toList message) :
    ∃ calls, Sweep o { feed := Feed.ofString text } calls ∧
      TokenizesTo o (.text text) (runTokens calls) ∧
      FailsWith o text (.feed f) message (decidedTokens calls) := by
  obtain ⟨later, fault, hahead, hfault, hrep, rfl⟩ := hf
  have hb := Reader.delivers_ofChars text.toList
  obtain ⟨calls, hsweep, hdecides⟩ := exists_decides o hb (Or.inl rfl)
  obtain ⟨calls', hsweep', hrun⟩ := exists_sweep o hb (Or.inl rfl)
  rw [hsweep'.unique hsweep] at hrun
  have hshows : ({ feed := f } : Reader).Shows text.toList (later.headD f.tail.outcome) :=
    ⟨later, hahead, rfl⟩
  obtain ⟨herror, hfailure⟩ := hdecides.failing hshows (Or.inl rfl) hfault hrep
  refine ⟨calls, hsweep, tokenizesTo_feed.mpr hrun, ?_⟩
  constructor
  case onError =>
    intro he
    exact tokenizesTo_feed.mpr (herror he)
  case onFailure =>
    intro hn
    exact tokenizesTo_feed.mpr (hfailure hn)
  case onMore =>
    intro more
    have hb : ({ feed := Feed.ofString (text ++ more) } : Reader).Delivers
        (text.toList ++ more.toList) := by
      unfold Feed.ofString
      rw [String.toList_append]
      exact Reader.delivers_ofChars _
    obtain ⟨us, hrun, hend⟩ := hdecides.continued more.toList hb (Or.inl rfl)
    exact ⟨us, tokenizesTo_feed.mpr hrun, hend⟩
  case inside => exact hdecides.inside

/-- A device that breaks behind the text `a 1`, which decides the name but not the number. -/
theorem tokenize_failing_device :
    (Feed.ofScript [.piece ['a'], .piece [' '], .piece ['1']]
        (.fault ⟨.device "OSError", "device failed"⟩)).FailsAfter "a 1".toList "device failed" ∧
      ∃ calls, Sweep {} { feed := Feed.ofString "a 1" } calls ∧
        TokenizesTo {} (.text "a 1") (runTokens calls) ∧
        FailsWith {} "a 1" (.feed (Feed.ofScript [.piece ['a'], .piece [' '], .piece ['1']]
          (.fault ⟨.device "OSError", "device failed"⟩))) "device failed" (decidedTokens calls) := by
  have hf : (Feed.ofScript [.piece ['a'], .piece [' '], .piece ['1']]
      (.fault ⟨.device "OSError", "device failed"⟩)).FailsAfter "a 1".toList "device failed" :=
    ⟨[], ⟨.source, "device failed"⟩, by decide, rfl, rfl, rfl⟩
  exact ⟨hf, tokenize_failing {} "a 1" _ "device failed" hf⟩

end Lexer

end FilterLex
