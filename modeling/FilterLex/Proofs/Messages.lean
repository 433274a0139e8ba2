import FilterLex.Command.Answer
import FilterLex.Proofs.PrintedTokens
import FilterLex.Proofs.TokenForm

/-!
# Messages stay on their line

An error token quotes what it could not read, be it a line feed, as an escape; and the faults of
documents are told in numbers. So no message has a line break in it, whatever the input is.

- `inline_lexical`, `inline_decodeError`: the messages of malformed text and of malformed bytes.
- `FaultsInline`: a reader all of whose faults are reported, each on one line.
- `run_inline`: no fault cuts a run of such a reader short, and no error token of it breaks a line.
- `feed_faultsInline`: the inputs of the command have no other faults.
-/

namespace FilterLex

open Text

/-! ## The messages -/

theorem inline_concat {a b : String} (ha : Inline a.toList) (hb : Inline b.toList) :
    Inline (a ++ b).toList := by
  rw [String.toList_append]
  exact inline_append ha hb

theorem inline_literal {s : String} (h : s.toList.all isPrintable = true) : Inline s.toList :=
  inline_of_printable (List.all_eq_true.mp h)

theorem inline_quoted (s : List Char) : Inline (String.ofList (Quoted.encode s)).toList := by
  rw [String.toList_ofList]
  exact inline_encode s

theorem inline_lexical (e : LexicalError) : Inline e.message.toList := by
  cases e with
  | expectedDigit found =>
      refine inline_concat (inline_literal (by decide +kernel)) ?_
      unfold Piece.describe
      split
      · exact inline_literal (by decide +kernel)
      · exact inline_quoted found
  | unexpectedPunctuation mark =>
      exact inline_concat (inline_literal (by decide +kernel)) (inline_quoted mark)
  | unterminatedString => exact inline_literal (by decide +kernel)

namespace Text.Utf8

theorem inline_toString (n : Nat) : Inline (toString n).toList := by
  rw [Nat.toString_eq_repr, Nat.toList_repr]
  intro c hc
  have hdigit := Nat.isDigit_of_mem_toDigits (by decide) (by decide) hc
  rw [Char.isDigit_iff_toNat, show '0'.toNat = 48 from rfl, show '9'.toNat = 57 from rfl]
    at hdigit
  unfold IsControl IsSeparator
  omega

theorem inline_hexByte (b : UInt8) : Inline (hexByte b).toList := by
  have hlt := b.toNat_lt
  unfold hexByte
  rw [String.toList_ofList]
  refine inline_of_printable ?_
  simp only [List.forall_mem_cons]
  exact ⟨Quoted.printable_digitChar _ (by omega), Quoted.printable_digitChar _ (by omega),
    by simp⟩

theorem inline_reason (reason : Reason) : Inline reason.text.toList := by
  cases reason <;> exact inline_literal (by decide +kernel)

theorem inline_decodeError (e : DecodeError) : Inline e.message.toList := by
  unfold DecodeError.message
  refine inline_concat (inline_concat ?_ (inline_literal (by decide +kernel))) (inline_reason _)
  split
  · exact inline_concat (inline_concat (inline_concat (inline_literal (by decide +kernel))
      (inline_hexByte _)) (inline_literal (by decide +kernel))) (inline_toString _)
  · exact inline_concat (inline_concat (inline_concat (inline_literal (by decide +kernel))
      (inline_toString _)) (inline_literal (by decide +kernel))) (inline_toString _)

end Text.Utf8

/-! ## Readers whose faults are told on one line -/

/-- A fault that is reported, with a message that breaks no line. -/
structure Fault.OneLine (f : Fault) : Prop where
  reported : f.isReported = true
  inline : Inline f.message.toList

namespace Reader

variable {r : Reader} {f : Fault}

/-- Whatever the reader meets, its fault is told on one line. -/
def FaultsInline (r : Reader) : Prop :=
  ∀ u, u ∈ r.upcoming ∨ u = r.feed.tail.outcome → ∀ f, u.fault? = some f → f.OneLine

theorem FaultsInline.next (h : r.FaultsInline) (hf : r.next.fault? = some f) : f.OneLine := by
  refine h r.next ?_ f hf
  unfold Reader.next
  cases r.upcoming with
  | nil => exact Or.inr rfl
  | cons u us => exact Or.inl List.mem_cons_self

theorem FaultsInline.drop (h : r.FaultsInline) (n : Nat) : (r.drop n).FaultsInline := by
  intro u hu
  rw [upcoming_drop, tail_drop] at hu
  exact h u (hu.imp_left List.mem_of_mem_drop)

theorem FaultsInline.hold (h : r.FaultsInline) (p : Piece) : (r.hold p).FaultsInline := by
  rintro u hu f hf
  have hdrop : (r.drop 1).upcoming = (r.drop 1).feed.ahead := by
    unfold Reader.upcoming
    rw [drop_pending r Nat.one_pos]
  rcases hu with hu | hu
  · rcases List.mem_cons.mp hu with rfl | hu
    · cases hf
    · exact h.drop 1 u (Or.inl (hdrop ▸ hu)) f hf
  · exact h.drop 1 u (Or.inr hu) f hf

end Reader

namespace Lexer

variable {o : Options} {r s : Reader} {t : Token}

def ErrorInline (t : Token) : Prop := t.kind = .error → Inline t.lexeme.toList

theorem verdict_inline (o : Options) (ps : List Piece) : ErrorInline (verdict o ps).token := by
  intro herror
  unfold Verdict.token report at herror ⊢
  cases hresult : (verdict o ps).result with
  | ok t =>
      rw [hresult] at herror
      exact absurd herror (verdict_sound o ps t hresult).2.1
  | error e => exact inline_lexical e

theorem consume_inline (o : Options) (h : r.FaultsInline) :
    ∃ t s, consume o r = .ok t s ∧ s.FaultsInline ∧ ErrorInline t := by
  cases hlooks : (verdict o r.pieces).looks with
  | false =>
      exact ⟨_, _, consume_of_not_looks hlooks, h.drop _, verdict_inline o r.pieces⟩
  | true =>
      rcases (r.drop (verdict o r.pieces).taken).next.piece_or_fault with ⟨p, hp⟩ | ⟨f, hf⟩
      · exact ⟨_, _, consume_of_piece hlooks hp, (h.drop _).hold p, verdict_inline o r.pieces⟩
      · have hline := (h.drop _).next hf
        have hc := consume_of_fault hlooks hf
        rw [if_pos hline.reported] at hc
        exact ⟨_, _, hc, h.drop _, fun _ => hline.inline⟩

/-- **No error token of a run breaks a line,** and no fault cuts the run short. -/
theorem run_inline (o : Options) (h : r.FaultsInline) :
    (run o r).fault = none ∧ ∀ t ∈ (run o r).tokens, ErrorInline t := by
  induction hn : r.remaining using Nat.strong_induction_on generalizing r with
  | _ n ih =>
      obtain ⟨t, s, hc, hs, ht⟩ := consume_inline o h
      cases hfinal : t.isFinal with
      | true =>
          rw [run_of_final hc hfinal]
          refine ⟨rfl, ?_⟩
          intro u hu
          rw [List.mem_singleton.mp hu]
          exact ht
      | false =>
          obtain ⟨hfault, htokens⟩ := ih s.remaining (hn ▸ consume_lt hc hfinal) hs rfl
          rw [run_of_ok hc hfinal]
          exact ⟨hfault, List.forall_mem_cons.mpr ⟨ht, htokens⟩⟩

end Lexer

/-! ## The inputs of the command -/

theorem faultsInline_ofChars (text : List Char) :
    ({ feed := Feed.ofChars text } : Reader).FaultsInline := by
  rintro u (hu | rfl) f hf
  · obtain ⟨c, -, rfl⟩ := List.mem_map.mp hu
    cases hf
  · cases hf

theorem piece_of_mem_textReads {text : List Char} {u : Outcome} (hu : u ∈ Feed.textReads text) :
    ∃ p, u = .piece p := by
  obtain ⟨c, -, rfl⟩ := List.mem_map.mp hu
  exact ⟨[c], rfl⟩

/-- The reads of a document bring text, or tell of bytes that are none. -/
theorem documentReads_cases {held : List UInt8} {waiting : List Char}
    {blocks : List (List UInt8)} {u : Outcome}
    (hu : u ∈ (Feed.documentReads held waiting blocks).1 ∨
      u = (Feed.documentReads held waiting blocks).2.outcome) :
    (∃ p, u = .piece p) ∨ ∃ e, u = .fault (Feed.decodeFault e) := by
  fun_induction Feed.documentReads held waiting blocks with
  | case1 held waiting cs hdecode =>
      rcases hu with hu | rfl
      · exact Or.inl (piece_of_mem_textReads hu)
      · exact Or.inl ⟨[], rfl⟩
  | case2 held waiting e hdecode | case3 held waiting cs e hdecode =>
      rcases hu with hu | rfl
      · cases hu
      · exact Or.inr ⟨e, rfl⟩
  | case4 held waiting chunk blocks e hdecode later ih =>
      rcases hu with hu | hu
      · rcases List.mem_cons.mp hu with rfl | hu
        · exact Or.inr ⟨e, rfl⟩
        · exact ih (Or.inl hu)
      · exact ih (Or.inr hu)
  | case5 held waiting chunk blocks cs hdecode later ih
  | case6 held waiting chunk blocks cs e hdecode later ih =>
      rcases hu with hu | hu
      · rcases List.mem_append.mp hu with hu | hu
        · exact Or.inl (piece_of_mem_textReads hu)
        · exact ih (Or.inl hu)
      · exact ih (Or.inr hu)

theorem faultsInline_ofDocument (bytes : List UInt8) :
    ({ feed := Feed.ofDocument bytes } : Reader).FaultsInline := by
  intro u hu f hf
  rcases documentReads_cases hu with ⟨p, rfl⟩ | ⟨e, rfl⟩
  · cases hf
  · cases hf
    exact ⟨rfl, Utf8.inline_decodeError e⟩

namespace Command

theorem feed_faultsInline {input : Input} {files : String → Lookup} {stdin : List UInt8}
    {feed : Feed} (h : input.feed files stdin = .ok feed) :
    ({ feed } : Reader).FaultsInline := by
  cases input with
  | file name =>
      have h : (files name).feed name = .ok feed := h
      cases hfile : files name with
      | content bytes =>
          rw [hfile] at h
          cases h
          exact faultsInline_ofDocument bytes
      | problem p =>
          rw [hfile] at h
          cases h
  | expression text =>
      cases h
      exact faultsInline_ofChars text.toList
  | standard =>
      cases h
      exact faultsInline_ofDocument stdin

end Command

end FilterLex
