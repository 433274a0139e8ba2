import FilterLex.Proofs.FailingSource

/-!
# The tokens of a text

A run over a text does not depend on how the reader came to the text, nor on what it holds
back. So a text has tokens of its own, and they follow its rules one by one.

- `Lexes`: the tokens of a text. They exist (`exists_lexes`) and there are no others
  (`Lexes.unique`).
- `Lexes.blanks`, `Lexes.error`, `Lexes.cons`: the tokens along the rules.
- `Lexes.behind`: blanks in front make no difference.
- `tokenizesTo_text`: the same for strings as sources.
-/

namespace FilterLex

open CharClass

namespace Lexer

variable {o : Options} {w raw rest text : List Char} {looks : Bool} {t : Token}
  {ts us : List Token}

/-- Every reader of the text runs to these tokens, whatever it holds back. -/
def Lexes (o : Options) (text : List Char) (ts : List Token) : Prop :=
  ∀ base r : Reader, base.Delivers text → base.StandsAt r → RunsTo o r ts

theorem Lexes.unique (h : Lexes o text ts) (h' : Lexes o text us) : ts = us := by
  have hb := Reader.delivers_ofChars text
  exact (h _ _ hb (Or.inl rfl)).1.symm.trans (h' _ _ hb (Or.inl rfl)).1

theorem Lexes.blanks (hw : ∀ c ∈ w, blank c = true) : Lexes o w [Token.endOfInput] := by
  intro base r hb hr
  exact RunsTo.of_final (consume_end hw hb hr) rfl

theorem Lexes.error {e : LexicalError} (hm : Munch o raw rest (.error e) looks)
    (hw : ∀ c ∈ w, blank c = true) : Lexes o (w ++ (raw ++ rest)) [report (.error e)] := by
  intro base r hb hr
  exact RunsTo.of_final (consume_rule hm hw hb hr) rfl

theorem Lexes.cons (hm : Munch o raw rest (.ok t) looks) (hw : ∀ c ∈ w, blank c = true)
    (h : Lexes o rest ts) : Lexes o (w ++ (raw ++ rest)) (t :: ts) := by
  intro base r hb hr
  have hc := consume_rule hm hw hb hr
  rw [← List.append_assoc] at hb
  exact RunsTo.of_ok hc hm.isFinal (h _ _ hb.drop (leave_standsAt looks hb.drop))

theorem append_blanks {v : List Char} (hv : ∀ c ∈ v, blank c = true)
    (hw : ∀ c ∈ w, blank c = true) : ∀ c ∈ v ++ w, blank c = true := by
  intro c hc
  rcases List.mem_append.mp hc with hc | hc
  · exact hv c hc
  · exact hw c hc

/-- Each text has its tokens, and has the same behind blanks. -/
theorem exists_lexes_behind (o : Options) (text : List Char) :
    ∃ ts, ∀ w, (∀ c ∈ w, blank c = true) → Lexes o (w ++ text) ts := by
  -- blanks in front join those that the first rule skips, so that one induction gives both
  induction text using text_induction o with
  | blanks v hv => exact ⟨_, fun w hw => Lexes.blanks (append_blanks hw hv)⟩
  | rule v raw rest result looks hv hm ih =>
      cases result with
      | error e =>
          refine ⟨[report (.error e)], fun w hw => ?_⟩
          rw [← List.append_assoc]
          exact Lexes.error hm (append_blanks hw hv)
      | ok t =>
          obtain ⟨ts, hts⟩ := ih
          refine ⟨t :: ts, fun w hw => ?_⟩
          rw [← List.append_assoc]
          exact Lexes.cons hm (append_blanks hw hv) (hts [] (by simp))

theorem exists_lexes (o : Options) (text : List Char) : ∃ ts, Lexes o text ts := by
  obtain ⟨ts, h⟩ := exists_lexes_behind o text
  exact ⟨ts, h [] (by simp)⟩

theorem Lexes.behind (h : Lexes o text ts) (hw : ∀ c ∈ w, blank c = true) :
    Lexes o (w ++ text) ts := by
  obtain ⟨us, hus⟩ := exists_lexes_behind o text
  rw [h.unique (hus [] (by simp))]
  exact hus w hw

theorem Lexes.ne_nil (h : Lexes o text ts) : ts ≠ [] := by
  rintro rfl
  rcases text_cases o text with hw | ⟨w, raw, rest, result, looks, rfl, hw, hm⟩
  · cases h.unique (Lexes.blanks hw)
  · cases result with
    | error e => cases h.unique (Lexes.error hm hw)
    | ok t =>
        obtain ⟨us, hus⟩ := exists_lexes o rest
        cases h.unique (Lexes.cons hm hw hus)

theorem tokenizesTo_text {s : String} :
    TokenizesTo o (.text s) ts ↔ Lexes o s.toList ts := by
  have hb := Reader.delivers_ofChars s.toList
  unfold Source.text Feed.ofString
  rw [tokenizesTo_feed]
  constructor
  · intro h
    obtain ⟨us, hus⟩ := exists_lexes o s.toList
    have heq : ts = us := h.1.symm.trans (hus _ _ hb (Or.inl rfl)).1
    rwa [heq]
  · intro h
    exact h _ _ hb (Or.inl rfl)

end Lexer

end FilterLex
