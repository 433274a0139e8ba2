import FilterLex.Proofs.Asking
import FilterLex.Proofs.TokenForm

/-!
# What becomes of a read that fails

A call that meets a failing read makes no further read, and what it delivers is settled by
that read alone: trouble of the device, the data, the source or the scanning becomes an
error token with the message as it is, data other than text becomes an error token that
names the type of the data, and any other fault leaves the call as it came. A call without
a failing read delivers a token, and if that is an error it reports malformed input.

- `FailedRead`, `FailedRead.delivery`: the reads that bring no text, and what is due to each.
- `Reports`: a call reports its reads.
-/

namespace FilterLex

/-- The causes that are reported as tokens. -/
def FaultKind.isReported : FaultKind → Bool
  | .device _ | .lexer _ => true
  | .exhaustion _ | .other _ => false

inductive FailedRead
  | foreign (t : ForeignType)
  | fault (f : Fault)
  deriving DecidableEq, Repr

namespace FailedRead

def outcome : FailedRead → Outcome
  | .foreign t => .foreign t
  | .fault f => .fault f

/-- What a call delivers whose last read failed. -/
def delivery : FailedRead → Delivery
  | .foreign t => .ok (Token.ofError ("expected a text stream, got " ++ t.name ++ " data"))
  | .fault f => if f.kind.isReported then .ok (Token.ofError f.message) else .error f

theorem not_isText (x : FailedRead) : x.outcome.isText = false := by
  cases x <;> rfl

theorem delivery_reported {f : Fault} (h : f.kind.isReported = true) :
    (FailedRead.fault f).delivery = .ok (Token.ofError f.message) := by
  show (if f.kind.isReported then Except.ok (Token.ofError f.message) else .error f) = _
  rw [if_pos h]

theorem delivery_escaping {f : Fault} (h : f.kind.isReported = false) :
    (FailedRead.fault f).delivery = .error f := by
  show (if f.kind.isReported then Except.ok (Token.ofError f.message) else .error f) = _
  rw [h]
  rfl

/-- A failing outcome is a failed read, and what the lexer makes of its fault is due to it. -/
theorem of_fault {o : Outcome} {f : Fault} (h : o.fault? = some f) :
    ∃ x : FailedRead, o = x.outcome ∧
      (if f.isReported then .ok (Token.ofError f.message) else .error f) = x.delivery := by
  cases o with
  | piece p => cases h
  | foreign t =>
      cases h
      exact ⟨.foreign t, rfl, rfl⟩
  | fault g =>
      cases h
      obtain ⟨kind, message⟩ := g
      refine ⟨.fault ⟨kind, message⟩, rfl, ?_⟩
      cases kind <;> rfl

theorem delivery_of_fault (x : FailedRead) :
    ∃ f, x.outcome.fault? = some f ∧
      (if f.isReported then .ok (Token.ofError f.message) else .error f) = x.delivery := by
  have hfault : ∃ f, x.outcome.fault? = some f := by
    cases x with
    | foreign t => exact ⟨_, rfl⟩
    | fault f => exact ⟨_, rfl⟩
  obtain ⟨f, hf⟩ := hfault
  obtain ⟨y, hy, hdelivery⟩ := of_fault hf
  have hxy : x = y := by
    cases x <;> cases y <;> cases hy <;> rfl
  exact ⟨f, hf, hxy ▸ hdelivery⟩

/-- A fault that leaves a call is the one that the read brought. -/
theorem delivery_eq_error {x : FailedRead} {f : Fault} (h : x.delivery = .error f) :
    x = .fault f ∧ f.kind.isReported = false := by
  cases x with
  | foreign t => cases h
  | fault g =>
      cases hkind : g.kind.isReported with
      | true =>
          rw [delivery_reported hkind] at h
          cases h
      | false =>
          rw [delivery_escaping hkind] at h
          cases h
          exact ⟨rfl, hkind⟩

end FailedRead

def IsLexicalMessage (message : String) : Prop :=
  (∃ found : Piece, message = "expected digit, found " ++ found.describe) ∨
    (∃ mark : Piece,
      message = "unexpected punctuation: " ++ String.ofList (Text.Quoted.encode mark)) ∨
    message = "unterminated string literal"

theorem isLexicalMessage (e : LexicalError) : IsLexicalMessage e.message := by
  cases e with
  | expectedDigit found => exact Or.inl ⟨found, rfl⟩
  | unexpectedPunctuation mark => exact Or.inr (Or.inl ⟨mark, rfl⟩)
  | unterminatedString => exact Or.inr (Or.inr rfl)

namespace Lexer

open Reader

/-- How a call from `r` to `r'` reports its reads by what it delivers. -/
structure Reports (r r' : Reader) (d : Delivery) : Prop where
  /-- The feed goes on by the reads that are made, and by nothing else. -/
  feed : r'.feed = r.feed.advance (r.readsUntil r').length
  /-- At most one read fails, and it is the last. -/
  onlyLast : ∀ x ∈ (r.readsUntil r').dropLast, x.isText = true
  /-- A fault leaves the call just if a read brought it and it is none to be reported. -/
  escapes : ∀ f, d = .error f ↔ .fault f ∈ r.readsUntil r' ∧ f.kind.isReported = false
  /-- Any other fault is reported with its own message. -/
  reported : ∀ f, .fault f ∈ r.readsUntil r' → f.kind.isReported = true →
    d = .ok (Token.ofError f.message)
  /-- Data other than text is reported with its type. -/
  foreign : ∀ t, .foreign t ∈ r.readsUntil r' →
    d = .ok (Token.ofError ("expected a text stream, got " ++ t.name ++ " data"))
  /-- Without a failing read there is a token, and an error is one of the input. -/
  clean : (∀ x ∈ r.readsUntil r', x.isText = true) →
    ∃ t, d = .ok t ∧ (t.kind = .error → IsLexicalMessage t.lexeme)

variable {r r' : Reader} {os : List Outcome} {d : Delivery}

theorem not_mem_of_isText {x : FailedRead} (htext : ∀ o ∈ os, o.isText = true) :
    x.outcome ∉ os := by
  intro hmem
  have h := htext _ hmem
  rw [x.not_isText] at h
  cases h

theorem Reports.of_text {t : Token} (htext : ∀ o ∈ os, o.isText = true) (h : r.Reads os r')
    (ht : t.kind = .error → IsLexicalMessage t.lexeme) : Reports r r' (.ok t) := by
  have hreads := h.readsUntil_eq
  constructor
  case feed =>
    rw [hreads]
    exact h.feed
  case onlyLast =>
    rw [hreads]
    exact fun x hx => htext x (List.dropLast_subset os hx)
  case escapes =>
    intro f
    rw [hreads]
    constructor
    · rintro ⟨⟩
    · rintro ⟨hmem, -⟩
      exact absurd hmem (not_mem_of_isText (x := .fault f) htext)
  case reported =>
    intro f hmem
    rw [hreads] at hmem
    exact absurd hmem (not_mem_of_isText (x := .fault f) htext)
  case foreign =>
    intro u hmem
    rw [hreads] at hmem
    exact absurd hmem (not_mem_of_isText (x := .foreign u) htext)
  case clean => exact fun _ => ⟨t, rfl, ht⟩

theorem Reports.of_failed {x : FailedRead} (htext : ∀ o ∈ os, o.isText = true)
    (h : r.Reads (os ++ [x.outcome]) r') : Reports r r' x.delivery := by
  have hreads := h.readsUntil_eq
  have hlast : ∀ {y : FailedRead}, y.outcome ∈ os ++ [x.outcome] → y = x := by
    intro y hy
    rcases List.mem_append.mp hy with hy | hy
    · exact absurd hy (not_mem_of_isText htext)
    · have heq := List.mem_singleton.mp hy
      cases x <;> cases y <;> cases heq <;> rfl
  constructor
  case feed =>
    rw [hreads]
    exact h.feed
  case onlyLast =>
    rw [hreads, List.dropLast_concat]
    exact htext
  case escapes =>
    intro f
    rw [hreads]
    constructor
    · intro hd
      obtain ⟨rfl, hkind⟩ := FailedRead.delivery_eq_error hd
      exact ⟨List.mem_append_right os List.mem_cons_self, hkind⟩
    · rintro ⟨hmem, hkind⟩
      rw [← hlast (y := .fault f) hmem]
      exact FailedRead.delivery_escaping hkind
  case reported =>
    intro f hmem hkind
    rw [hreads] at hmem
    rw [← hlast (y := .fault f) hmem]
    exact FailedRead.delivery_reported hkind
  case foreign =>
    intro u hmem
    rw [hreads] at hmem
    rw [← hlast (y := .foreign u) hmem]
    rfl
  case clean =>
    intro hall
    rw [hreads] at hall
    have hx := hall _ (List.mem_append_right os List.mem_cons_self)
    rw [x.not_isText] at hx
    cases hx

/-- **A failing read is the last of its call, and settles what the call delivers.** Faults
that are none of the device, the data, the source or the scanning leave the call, and
nothing else does. -/
theorem ask_reports (o : Options) (r : Reader) : Reports r (ask o r).2 (ask o r).1 := by
  have hend := scan_stopsAtFailure o r
  generalize hres : scan o r = res at hend
  cases hend with
  | @ok t os s htext h =>
      rw [ask_of_scan hres]
      have herror := (scan_sound hres).2.1
      exact Reports.of_text htext h fun hkind => absurd hkind herror
  | lexical htext h =>
      rw [ask_of_lexical hres]
      exact Reports.of_text htext h fun _ => isLexicalMessage _
  | reading htext hf h _ =>
      rw [ask_of_reading hres]
      obtain ⟨x, rfl, hdelivery⟩ := FailedRead.of_fault hf
      rw [hdelivery]
      exact Reports.of_failed htext h

end Lexer

end FilterLex
