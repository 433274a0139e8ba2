import FilterLex.Proofs.RoundTrip
import FilterLex.Proofs.Strictness
import FilterLex.Proofs.TextTokens

/-!
# Texts joined by blanks

A text whose strict run comes to the end of the input is a list of whole tokens. Blanks end
the last of them as the end of the input does, so whatever is behind the blanks is tokenized
as if it stood alone, errors included, and in either mode.

- `Munch.spelling`: what a strict rule delivers is written out in full.
- `Munch.stops_append_blanks`: where the rule stops, it stops with blanks behind.
- `Lexes.append`: the induction along the rules of the text in front.
- `tokenize_joined`: the law for strings.
-/

namespace FilterLex

open CharClass

namespace Lexer

variable {o : Options} {raw rest text : List Char} {looks : Bool} {t : Token}
  {ts : List Token}

/-! ## A text in front of blanks -/

/-- What a strict rule delivers is written out in full: only a lenient one takes a string that
lacks its quote. So the rule is one of both modes, in front of all that stops it. -/
theorem Munch.spelling (h : Munch .strict raw rest (.ok t) looks) : Spelling raw t := by
  generalize hresult : Except.ok t = result at h
  cases h with
  | int hne hds _ _ =>
      cases hresult
      exact Spelling.lexeme (Lexeme.int hne hds)
  | float hne hds hfe hfs _ =>
      cases hresult
      exact Spelling.lexeme (Lexeme.float hne hds hfe hfs)
  | point _ _ _ => cases hresult
  | word hc hw _ =>
      cases hresult
      exact Spelling.lexeme (Lexeme.word hc hw)
  | closed hq hb =>
      cases hresult
      exact Spelling.lexeme (Lexeme.string hq hb)
  | unclosed _ _ => cases hresult
  | pair _ hp =>
      cases hresult
      exact Spelling.lexeme (Lexeme.operator hp)
  | mark _ _ h1 =>
      cases hresult
      exact Spelling.lexeme (Lexeme.operator h1)
  | stray _ _ _ => cases hresult
  | unknown hc hw _ =>
      cases hresult
      exact Spelling.unknown hc hw

/-- Blanks stop every rule where the end of the text did. -/
theorem Munch.stops_append_blanks {sep more : List Char}
    (h : Munch o raw rest (.ok t) looks) (hsep : sep ≠ []) (hblank : ∀ c ∈ sep, blank c = true) :
    Stops t.kind.absorbs (rest ++ (sep ++ more)) := by
  by_cases hrest : rest = []
  · obtain ⟨c, tail, rfl⟩ := List.exists_cons_of_ne_nil hsep
    rw [hrest]
    exact stops_cons.mpr (Kind.absorbs_of_blank _ (hblank c List.mem_cons_self))
  · exact (stops_append _ hrest).mpr h.stops

/-- **A text in front of blanks.** Where its strict tokens end in the end of the input, they
are its tokens in both modes, and all but the last are in front of those of what is behind
the blanks. -/
theorem Lexes.append (h : Lexes .strict text ts) (hend : ∃ t ∈ ts.getLast?, t.kind = .eof) :
    ∃ init, ts = init ++ [Token.endOfInput] ∧ ∀ o : Options,
      Lexes o text (init ++ [Token.endOfInput]) ∧
      ∀ sep more us, sep ≠ [] → (∀ c ∈ sep, blank c = true) → Lexes o more us →
        Lexes o (text ++ (sep ++ more)) (init ++ us) := by
  -- a rule of the strict run applies in both modes, and behind it blanks stop what the end of
  -- the text stopped
  induction text using text_induction .strict generalizing ts with
  | blanks w hw =>
      refine ⟨[], h.unique (Lexes.blanks hw), fun o => ⟨Lexes.blanks hw, ?_⟩⟩
      intro sep more us _ hsep hmore
      exact (hmore.behind hsep).behind hw
  | rule w raw rest result looks hw hm ih =>
      cases result with
      | error e =>
          rw [h.unique (Lexes.error hm hw)] at hend
          obtain ⟨t, ht, hkind⟩ := hend
          obtain rfl : report (.error e) = t := Option.some.inj ht
          cases hkind
      | ok t =>
          obtain ⟨ts', hts'⟩ := exists_lexes .strict rest
          obtain rfl : ts = t :: ts' := h.unique (Lexes.cons hm hw hts')
          rw [List.getLast?_cons_of_ne_nil hts'.ne_nil] at hend
          obtain ⟨init, hinit, hboth⟩ := ih hts' hend
          refine ⟨t :: init, congrArg (t :: ·) hinit, fun o => ⟨?_, ?_⟩⟩
          · obtain ⟨looks', hm'⟩ := hm.spelling.munch o hm.stops
            exact Lexes.cons hm' hw (hboth o).1
          · intro sep more us hsep hblank hmore
            obtain ⟨looks', hm'⟩ := hm.spelling.munch o (hm.stops_append_blanks hsep hblank)
            rw [List.append_assoc, List.append_assoc]
            exact Lexes.cons hm' hw ((hboth o).2 sep more us hsep hblank hmore)

end Lexer

open Lexer

/-! ## Strings joined by blanks -/

def ComesToEnd (s : String) : Prop :=
  ∃ ts, TokenizesTo .strict (.text s) ts ∧ ∃ t ∈ ts.getLast?, t.kind = .eof

structure Separates (w : String) : Prop where
  nonempty : w ≠ ""
  blank : ∀ c ∈ w.toList, blank c = true

/-- **Tokenizing distributes over texts joined by blanks.** Behind a text whose strict run
comes to the end of the input, and blanks, any text has the tokens it has alone, in both
modes; and it makes no difference which blanks these are. -/
theorem tokenize_joined (o : Options) {s : String} (t : String) (hs : ComesToEnd s) :
    ∃ ts us, TokenizesTo .strict (.text s) (ts ++ [Token.endOfInput]) ∧
      TokenizesTo o (.text s) (ts ++ [Token.endOfInput]) ∧
      TokenizesTo o (.text t) us ∧
      ∀ w, Separates w → TokenizesTo o (.text (s ++ w ++ t)) (ts ++ us) := by
  obtain ⟨ts, hts, hend⟩ := hs
  obtain ⟨init, rfl, hboth⟩ := (tokenizesTo_text.mp hts).append hend
  obtain ⟨us, hus⟩ := exists_lexes o t.toList
  refine ⟨init, us, hts, tokenizesTo_text.mpr (hboth o).1, tokenizesTo_text.mpr hus, ?_⟩
  intro w hw
  rw [tokenizesTo_text, String.toList_append, String.toList_append, List.append_assoc]
  refine (hboth o).2 _ _ us ?_ hw.blank hus
  rw [Ne, String.toList_eq_nil_iff]
  exact hw.nonempty

/-- An operator that an equals sign would continue, a line end, and an open string. -/
theorem tokenize_joined_less : ComesToEnd "1<" ∧ Separates "\n" ∧
    ∃ ts us, TokenizesTo .strict (.text "1<") (ts ++ [Token.endOfInput]) ∧
      TokenizesTo {} (.text "1<") (ts ++ [Token.endOfInput]) ∧
      TokenizesTo {} (.text "='x") us ∧
      ∀ w, Separates w → TokenizesTo {} (.text ("1<" ++ w ++ "='x")) (ts ++ us) := by
  have hless : Munch .strict ['<'] [] (.ok (Token.ofChars .less ['<'])) true :=
    Munch.mark (by decide) (by decide) (by decide)
  have hone : Munch .strict ['1'] ['<'] (.ok (Token.ofChars .int ['1'])) true :=
    Munch.int (by simp) (List.forall_mem_singleton.mpr (by decide))
      (stops_cons.mpr (by decide)) (by decide)
  have htokens := Lexes.cons (w := []) hone (by simp)
    (Lexes.cons (w := []) hless (by simp) (Lexes.blanks (w := []) (by simp)))
  have hs : ComesToEnd "1<" := ⟨_, tokenizesTo_text.mpr htokens, Token.endOfInput, rfl, rfl⟩
  exact ⟨hs, ⟨by decide, List.forall_mem_singleton.mpr (by decide)⟩, tokenize_joined {} "='x" hs⟩

end FilterLex
