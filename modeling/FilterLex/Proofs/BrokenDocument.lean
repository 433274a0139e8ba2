import FilterLex.Proofs.Accounting
import FilterLex.Proofs.FailingSource
import FilterLex.Proofs.Documents

/-!
# Documents that are not UTF-8

A document that is not UTF-8 is a source that fails. Where it is read in one chunk and its bytes
are refused, it fails at once, and the error is the only token; where bytes are held back at the
end it fails behind its text, and the tokens that the text decides come first.

- `Feed.failsAfter_malformed`, `Feed.failsAfter_truncated`: the document as a failing source.
- `CutShort`: the tokens of calls that are cut short by a failure.
- `Broken`: the tokens of a document that is not UTF-8.
- `answer_broken`: the command reports them, and says by its exit status that it failed.
-/

namespace FilterLex

open Text Text.Utf8

/-! ## The document as a source -/

namespace Feed

variable {bytes : List UInt8} {cs : List Char} {e : DecodeError}

theorem failsAfter_malformed (hsize : bytes.length ≤ chunkSize)
    (h : decode bytes = .malformed e) : (ofDocument bytes).FailsAfter [] e.message :=
  ⟨[.fault (decodeFault e)], _, ofDocument_malformed hsize h, rfl, rfl, rfl⟩

theorem failsAfter_truncated (hsize : bytes.length ≤ chunkSize)
    (h : decode bytes = .truncated cs e) :
    (ofDocument bytes).FailsAfter (toLineFeeds (withoutHeldReturn cs)) e.message := by
  obtain ⟨hahead, htail⟩ := ofDocument_truncated hsize h
  refine ⟨[], (decodeFault e).atReader, ?_, ?_, rfl, rfl⟩
  · rw [hahead, List.append_nil, textReads]
  · rw [htail]
    rfl

/-- A document that is not UTF-8 fails behind some text, be it empty. -/
theorem failsAfter_of_not_wellFormed (hsize : bytes.length ≤ chunkSize)
    (h : ¬ WellFormed bytes) :
    ∃ text message, (ofDocument bytes).FailsAfter text message := by
  cases hdecode : decode bytes with
  | text cs => exact absurd (wellFormed_iff_decode.mpr ⟨cs, hdecode⟩) h
  | malformed e => exact ⟨_, _, failsAfter_malformed hsize hdecode⟩
  | truncated cs e => exact ⟨_, _, failsAfter_truncated hsize hdecode⟩

end Feed

namespace Lexer

variable {o : Options} {ts : List Token}

/-! ## Its tokens -/

/-- The tokens that the calls decide, up to the first error; without an error among them, the
message of the failure comes last. -/
structure CutShort (calls : List Call) (message : String) (ts : List Token) : Prop where
  onError : EndsInError (decidedTokens calls) → ts = decidedTokens calls
  onFailure : ¬ EndsInError (decidedTokens calls) →
    ts = decidedTokens calls ++ [Token.ofError message]

theorem endsInError_append (init : List Token) (message : String) :
    EndsInError (init ++ [Token.ofError message]) :=
  ⟨Token.ofError message, by rw [List.getLast?_concat]; rfl, rfl⟩

theorem CutShort.endsInError {calls : List Call} {message : String}
    (h : CutShort calls message ts) : EndsInError ts := by
  by_cases herror : EndsInError (decidedTokens calls)
  · rw [h.onError herror]
    exact herror
  · rw [h.onFailure herror]
    exact endsInError_append _ _

theorem run_failsAfter (o : Options) {text : List Char} {f : Feed} {message : String}
    (hf : f.FailsAfter text message) :
    ∃ calls, Sweep o { feed := Feed.ofChars text } calls ∧
      CutShort calls message (run o { feed := f }).tokens := by
  obtain ⟨later, fault, hahead, hfault, hrep, rfl⟩ := hf
  obtain ⟨calls, hsweep, hdecides⟩ :=
    exists_decides o (Reader.delivers_ofChars text) (Or.inl rfl)
  have hshows : ({ feed := f } : Reader).Shows text (later.headD f.tail.outcome) :=
    ⟨later, hahead, rfl⟩
  obtain ⟨herror, hfailure⟩ := hdecides.failing hshows (Or.inl rfl) hfault hrep
  exact ⟨calls, hsweep, fun he => (herror he).1, fun hn => (hfailure hn).1⟩

theorem run_failsAfter_nil (o : Options) {f : Feed} {message : String}
    (hf : f.FailsAfter [] message) :
    (run o { feed := f }).tokens = [Token.ofError message] := by
  obtain ⟨calls, hsweep, hshort⟩ := run_failsAfter o hf
  have hend : Sweep o { feed := Feed.ofChars [] } [] :=
    Sweep.done (consume_end (w := []) (by simp) (Reader.delivers_ofChars []) (Or.inl rfl))
  rw [hsweep.unique hend] at hshort
  exact hshort.onFailure not_endsInError_nil

structure Broken (o : Options) (bytes : List UInt8) (ts : List Token) : Prop where
  ends : EndsInError ts
  /-- Bytes that are wrong, and not only cut off, are reported and nothing else is. -/
  refused : ¬ CutOff bytes → ¬ EndsInSurrogate bytes →
    ∃ n e, LongestText bytes n ∧ Rejects n (bytes.drop n) e ∧ ts = [Token.ofError e.message]
  /-- A text that is followed by the beginning of a character. -/
  cutOff : ∀ (text : String) (b : UInt8) (part : List UInt8), Incomplete (b :: part) →
    bytes = text.toUTF8.data.toList ++ b :: part → text.toList.getLast? ≠ some '\r' →
      ∃ calls, Sweep o { feed := Feed.ofString (withLineFeeds text) } calls ∧
        CutShort calls (cutOffError b part).message ts
  /-- A text that is followed by the beginning of a surrogate. -/
  surrogate : ∀ (text : String) (b : UInt8), (0xA0 ≤ b ∧ b ≤ 0xBF) →
    bytes = text.toUTF8.data.toList ++ [0xED, b] → text.toList.getLast? ≠ some '\r' →
      ∃ calls, Sweep o { feed := Feed.ofString (withLineFeeds text) } calls ∧
        CutShort calls surrogateError.message ts

/-- Bytes held back behind a text whose last character is no carriage return. -/
theorem run_heldBack (o : Options) {bytes : List UInt8} {text : String} {e : DecodeError}
    (hsize : bytes.length ≤ Feed.chunkSize) (h : decode bytes = .truncated text.toList e)
    (hlast : text.toList.getLast? ≠ some '\r') :
    ∃ calls, Sweep o { feed := Feed.ofString (withLineFeeds text) } calls ∧
      CutShort calls e.message (run o { feed := Feed.ofDocument bytes }).tokens := by
  have hfails := Feed.failsAfter_truncated hsize h
  unfold withoutHeldReturn at hfails
  rw [if_neg hlast, toLineFeeds_eq] at hfails
  unfold Feed.ofString withLineFeeds
  rw [String.toList_ofList]
  exact run_failsAfter o hfails

theorem run_broken (o : Options) {bytes : List UInt8} (hsize : bytes.length ≤ Feed.chunkSize)
    (h : ¬ WellFormed bytes) :
    Broken o bytes (run o { feed := Feed.ofDocument bytes }).tokens where
  ends := by
    obtain ⟨text, message, hfails⟩ := Feed.failsAfter_of_not_wellFormed hsize h
    obtain ⟨calls, -, hshort⟩ := run_failsAfter o hfails
    exact hshort.endsInError
  refused := by
    intro hcut hsurrogate
    obtain ⟨n, e, hdecode, hlongest, hrejects⟩ := decode_refused h hcut hsurrogate
    exact ⟨n, e, hlongest, hrejects,
      run_failsAfter_nil o (Feed.failsAfter_malformed hsize hdecode)⟩
  cutOff := by
    rintro text b part hpart rfl hlast
    rw [bytes_toUTF8] at hsize ⊢
    exact run_heldBack o hsize (decode_cutOff text.toList hpart) hlast
  surrogate := by
    rintro text b hrange rfl hlast
    rw [bytes_toUTF8] at hsize ⊢
    exact run_heldBack o hsize (decode_surrogate text.toList hrange) hlast

end Lexer

namespace Command

open Lexer

variable {arguments : List String} {settings : Settings} {files : String → Lookup}
  {stdin bytes : List UInt8} {ts : List Token}

/-! ## The report -/

def Input.IsDocument (files : String → Lookup) (stdin bytes : List UInt8) : Input → Prop
  | .file name => files name = .content bytes
  | .expression _ => False
  | .standard => stdin = bytes

theorem feed_of_isDocument {input : Input} (h : input.IsDocument files stdin bytes) :
    input.feed files stdin = .ok (Feed.ofDocument bytes) := by
  unfold Input.IsDocument at h
  split at h
  · next name =>
      show (files name).feed name = _
      rw [h]
      rfl
  · exact h.elim
  · rw [← h]
    rfl

/-- **A document that is not UTF-8 is reported, and none of its text is read wrongly.** Whatever
the arguments, the command fails with an error as its last token. Bytes that are wrong are named
by their place, and no token comes before; where bytes are only missing at the end, the tokens
come first that the text before them decides. The document is one chunk: of a longer one, the
tokens of the chunks before come first, and the place is one within its chunk. -/
theorem answer_broken (hparse : parse arguments = .ok settings)
    (hdocument : settings.input.IsDocument files stdin bytes)
    (hsize : bytes.length < Feed.chunkSize) (hbytes : ¬ WellFormed bytes) :
    ∃ r ts, answer arguments files stdin = .report r ∧ r.exitCode = 1 ∧ Legible r.stdout ts ∧
      Broken settings.options bytes ts := by
  have hbroken := run_broken settings.options (Nat.le_of_lt hsize) hbytes
  exact ⟨_, _, answer_of_parse hparse (feed_of_isDocument hdocument),
    (exitCode_eq_one_iff settings.verbose _).mpr hbroken.ends, legible_stdout settings.verbose _,
    hbroken⟩

theorem not_wellFormed_of_truncated {cs : List Char} {e : DecodeError}
    (h : decode bytes = .truncated cs e) : ¬ WellFormed bytes := by
  rw [wellFormed_iff_decode, h]
  rintro ⟨_, ⟨⟩⟩

/-- Two bytes of a euro sign behind the text `a 1`, with a flag. -/
theorem cutOff_euro_broken :
    parse ["--verbose"] = .ok (settingsFor .standard ["--verbose"]) ∧
      Input.IsDocument (fun _ => .problem .missing) [0x61, 0x20, 0x31, 0xE2, 0x82]
        [0x61, 0x20, 0x31, 0xE2, 0x82] .standard ∧
      [0x61, 0x20, 0x31, 0xE2, (0x82 : UInt8)].length < Feed.chunkSize ∧
      ¬ WellFormed [0x61, 0x20, 0x31, 0xE2, 0x82] ∧
      ∃ r ts, answer ["--verbose"] (fun _ => .problem .missing) [0x61, 0x20, 0x31, 0xE2, 0x82] =
          .report r ∧ r.exitCode = 1 ∧ Legible r.stdout ts ∧
        Broken { strictStrings := true } [0x61, 0x20, 0x31, 0xE2, 0x82] ts := by
  have hparse : parse ["--verbose"] = .ok (settingsFor .standard ["--verbose"]) := rfl
  have hdecode : decode [0x61, 0x20, 0x31, 0xE2, 0x82] =
      .truncated ['a', ' ', '1'] (cutOffError 0xE2 [0x82]) := by decide
  have hsize : [0x61, 0x20, 0x31, 0xE2, (0x82 : UInt8)].length < Feed.chunkSize := by decide
  have hbytes := not_wellFormed_of_truncated hdecode
  exact ⟨hparse, rfl, hsize, hbytes, answer_broken hparse rfl hsize hbytes⟩

/-- At the end, the beginning of a surrogate is not named by its place, and does not stand alone,
although no character begins like it. -/
theorem surrogate_not_alone :
    ¬ WellFormed [0x61, 0x20, 0xED, 0xA0] ∧ ¬ CutOff [0x61, 0x20, 0xED, 0xA0] ∧
      LongestText [0x61, 0x20, 0xED, 0xA0] 2 ∧
      answer [] (fun _ => .problem .missing) [0x61, 0x20, 0xED, 0xA0] = .report {
        exitCode := 1
        stdout := "ident\t'a'\n" ++ "error\t\"'utf-8' codec can't decode byte 0xed " ++
          "in position 0: invalid continuation byte\"\n"
        stderr := "[error] 'utf-8' codec can't decode byte 0xed " ++
          "in position 0: invalid continuation byte\n" } ∧
      ¬ ∃ r t, answer [] (fun _ => .problem .missing) [0x61, 0x20, 0xED, 0xA0] = .report r ∧
        Legible r.stdout [t] := by
  have hdecode : decode [0x61, 0x20, 0xED, 0xA0] = .truncated ['a', ' '] surrogateError := by
    decide
  have hill := not_wellFormed_of_truncated hdecode
  have hanswer : answer [] (fun _ => .problem .missing) [0x61, 0x20, 0xED, 0xA0] =
      .report (Report.ofTokens false [⟨.ident, "a"⟩, Token.ofError surrogateError.message]) := by
    decide +kernel
  refine ⟨hill, ?_, ⟨by decide, ?_, ?_⟩, by decide +kernel, ?_⟩
  · rintro ⟨cs, part, hpart, hbytes⟩
    obtain ⟨b, part, rfl⟩ := List.exists_cons_of_ne_nil hpart.1
    rw [hbytes, decode_cutOff cs hpart] at hdecode
    have hreason := congrArg DecodeError.reason (Decoded.truncated.inj hdecode).2
    cases hreason
  · exact wellFormed_iff_decode.mpr ⟨['a', ' '], by decide⟩
  · intro m hm hwell
    have hthree : decode [0x61, 0x20, 0xED] = .truncated ['a', ' '] (cutOffError 0xED []) := by
      decide
    match m, hm with
    | 0, _ => decide
    | 1, _ => decide
    | 2, _ => decide
    | 3, _ => exact absurd hwell (not_wellFormed_of_truncated hthree)
    | 4, _ => exact absurd hwell hill
  · rintro ⟨r, t, hr, hlegible⟩
    rw [hanswer] at hr
    cases hr
    have htwo := hlegible.readBack.symm.trans (readTokens?_stdout false _)
    cases Option.some.inj htwo

end Command

end FilterLex
