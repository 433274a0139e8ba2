import FilterLex.Proofs.Iteration
import FilterLex.Proofs.TokenForm

/-!
# The form of the tokens that are answered

Whatever a source brings, the tokens that are answered to those who ask for them have the
form of their kind, and lists and complete iterations end in the one final token that they
hold.

- `ask_sound`, `askEach_sound`: calls of the lexer.
- `SoundStep`, `soundStep`: the tokens in the answer to a step.
- `EndsOnce`, `run_endsOnce`, `Course.endsOnce`: lists and iterations.
- `SoundRun`, `SoundSession`: all of it, for a source and for a session.
-/

namespace FilterLex

/-- One token of the list ends a run, and it is the last one. -/
def EndsOnce (ts : List Token) : Prop :=
  ∃ init last, ts = init ++ [last] ∧ (last.kind = .eof ∨ last.kind = .error) ∧
    ∀ t ∈ init, t.kind ≠ .eof ∧ t.kind ≠ .error

/-- What the source has delivered on the way from `r` to `r'` are single characters. -/
def Reader.SinglesUntil (r r' : Reader) : Prop := ∀ p, .piece p ∈ r.delivered r' → p.length ≤ 1

/-- The form of a token that is delivered on the way from `r` to `r'`. -/
structure SoundToken (r r' : Reader) (t : Token) : Prop where
  wellFormed : t.WellFormed
  plain : r.SinglesUntil r' → t.Plain

namespace Lexer

open Reader

variable {o : Options} {r : Reader} {t : Token}

/-! ## Calls -/

theorem soundToken_ofError (r r' : Reader) (message : String) :
    SoundToken r r' (Token.ofError message) :=
  ⟨Token.wellFormed_ofError message, fun _ => Token.plain_of_ne (by rintro ⟨⟩) (by rintro ⟨⟩)⟩

theorem ask_sound (h : (ask o r).1 = .ok t) : SoundToken r (ask o r).2 t := by
  cases hscan : scan o r with
  | ok u s =>
      rw [ask_of_scan hscan] at h ⊢
      cases h
      exact ⟨(scan_sound hscan).1, (scan_sound hscan).2.2⟩
  | error e s =>
      cases e with
      | lexical e =>
          rw [ask_of_lexical hscan] at h
          cases h
          exact soundToken_ofError _ _ _
      | reading f =>
          rw [ask_of_reading hscan] at h
          simp only [] at h
          by_cases hrep : f.isReported = true
          · rw [if_pos hrep] at h
            cases h
            exact soundToken_ofError _ _ _
          · rw [if_neg hrep] at h
            cases h

theorem askEach_sound (os : List Options) (h : .ok t ∈ (askEach os r).1) :
    SoundToken r (askEach os r).2 t := by
  induction os generalizing r with
  | nil => cases h
  | cons o os ih =>
      obtain ⟨us, hfirst⟩ := ask_reads o r
      obtain ⟨us', hrest⟩ := askEach_reads os (ask o r).2
      rw [askEach_cons] at h ⊢
      rcases List.mem_cons.mp h with h | h
      · obtain ⟨hform, hplain⟩ := ask_sound h.symm
        exact ⟨hform, fun hsingles =>
          hplain fun p hp => hsingles p (hfirst.delivered_left hrest hp)⟩
      · obtain ⟨hform, hplain⟩ := ih h
        exact ⟨hform, fun hsingles =>
          hplain fun p hp => hsingles p (hfirst.delivered_right hrest hp)⟩

theorem isFinal_iff : t.isFinal = true ↔ t.kind = .eof ∨ t.kind = .error := by
  simp [Token.isFinal]

theorem not_isFinal_iff : t.isFinal = false ↔ t.kind ≠ .eof ∧ t.kind ≠ .error := by
  simp [Token.isFinal]

/-- A run that no fault cuts short ends in its only final token. -/
theorem run_endsOnce (h : (run o r).fault = none) : EndsOnce (run o r).tokens := by
  obtain ⟨init, last, heq, hlast, hinit⟩ := run_ends o r
  have htokens : (run o r).tokens.map Except.ok = init ++ [last] := by
    rw [← heq]
    unfold Run.deliveries
    rw [h]
    exact (List.append_nil _).symm
  obtain ⟨ts, us, hts, rfl, hus⟩ := List.map_eq_append_iff.mp htokens
  obtain ⟨u, rfl, rfl⟩ := List.map_eq_singleton_iff.mp hus
  refine ⟨ts, u, hts, isFinal_iff.mp hlast, ?_⟩
  intro t ht
  exact not_isFinal_iff.mp (hinit _ (List.mem_map_of_mem ht))

end Lexer

namespace Session

open Lexer

variable {s : Session} {st : Step} {l : LexerState} {q : Request} {t : Token}

/-! ## Steps -/

def Step.asks : Step → Bool
  | .scan _ .next => true
  | st => st.delivers

theorem scan_of_asks (hst : st.asks = true) (hdelivers : ¬ st.delivers = true) :
    ∃ n, st = .scan n .next := by
  unfold Step.asks at hst
  split at hst
  case h_1 n => exact ⟨n, rfl⟩
  case h_2 => exact absurd hst hdelivers

structure SoundStep (s : Session) (st : Step) : Prop where
  wellFormed : ∀ t ∈ (s.step st).answer.toTokens, t.WellFormed
  /-- The reader that is asked, before the step and after it, says what was delivered. -/
  plain : ∀ q, s.request? st = some q →
    ∃ r, (s.step st).session.reader? q.id = some r ∧
      (q.reader.SinglesUntil r → ∀ t ∈ (s.step st).answer.toTokens, t.Plain)
  scanned : ∀ n, st = .scan n .next → ∀ t ∈ (s.step st).answer.toTokens, t.kind ≠ .error
  /-- Without a reader to be asked, there is only the error that says so. -/
  unbound : s.request? st = none →
    ∀ t ∈ (s.step st).answer.toTokens, t = Token.ofError unboundMessage

theorem mem_deliveries {a : Answer} (h : t ∈ a.toTokens) : .ok t ∈ a.deliveries := by
  cases a with
  | token u =>
      cases List.mem_singleton.mp h
      exact List.mem_cons_self
  | tokens ts fault => exact List.mem_append_left _ (List.mem_map_of_mem h)
  | _ => cases h

theorem lexerRequest?_eq_none (h : s.lexerRequest? l = none) :
    l.reader = none ∨ ∃ id, l.reader = some id ∧ s.reader? id = none := by
  rcases hl : l.reader with _ | id
  · exact Or.inl rfl
  · rcases hr : s.reader? id with _ | r
    · exact Or.inr ⟨id, rfl, hr⟩
    · rw [lexerRequest?_of_reader hl hr] at h
      cases h

/-- A lexer without a reader reports that; one whose reader is gone cannot be asked. -/
theorem consume_without_request (h : s.lexerRequest? l = none) :
    s.consume l = none ∨ s.consume l = some (.ok (Token.ofError unboundMessage), s) := by
  unfold consume
  rcases lexerRequest?_eq_none h with hl | ⟨id, hl, hr⟩
  · rw [hl]
    exact Or.inr rfl
  · rw [hl]
    simp [withReader, hr]

theorem run_without_request (h : s.lexerRequest? l = none) :
    s.run l = none ∨ s.run l = some (([Token.ofError unboundMessage], none), s) := by
  unfold run
  rcases lexerRequest?_eq_none h with hl | ⟨id, hl, hr⟩
  · rw [hl]
    exact Or.inr rfl
  · rw [hl]
    simp [hr]

theorem advance_without_request {i : Nat} {it : IteratorState} {e : Effect}
    (hl : s.lexers[it.lexer]? = some l) (h : s.lexerRequest? l = none)
    (he : s.advance i it = some e) : e.answer.toTokens = [Token.ofError unboundMessage] := by
  rcases consume_without_request h with hc | hc
  · unfold advance at he
    simp [hl, hc] at he
  · rw [advance_of_consume hl hc] at he
    cases he
    rfl

/-- An iterator that reaches no reader answers the error that says so, or no token. -/
theorem next_without_request {i : Nat} {e : Effect} (h : s.request? (.next i) = none)
    (he : s.next i = some e) (ht : t ∈ e.answer.toTokens) : t = Token.ofError unboundMessage := by
  obtain ⟨it, hit, hphase⟩ := Option.bind_eq_some_iff.mp he
  rcases hready : s.ready? it with _ | s'
  · exfalso
    unfold ready? at hready
    split at hphase
    case h_1 =>
      cases hphase
      cases ht
    case h_2 hrunning =>
      rw [hrunning] at hready
      cases hready
    case h_3 b hunstarted =>
      rw [hunstarted] at hready
      obtain ⟨l, hl, hphase⟩ := Option.bind_eq_some_iff.mp hphase
      rcases hload : s.load it.lexer l b with e' | s'
      · rw [hload] at hphase
        cases hphase
        cases ht
      · simp [hl, hload, Except.toOption] at hready
  · rw [next_of_ready hit hready] at he
    obtain ⟨l, hl, -⟩ := Option.bind_eq_some_iff.mp he
    have hq : s'.lexerRequest? l = none := by
      simpa [request?, hit, hready, hl] using h
    rw [advance_without_request hl hq he] at ht
    exact List.mem_singleton.mp ht

theorem scan_without_request {n : Nat} (h : s.request? (.scan n .next) = none) :
    s.step? (.scan n .next) = none := by
  rcases hs : s.step? (.scan n .next) with _ | e
  · rfl
  · obtain ⟨l, hl, hs⟩ := Option.bind_eq_some_iff.mp hs
    obtain ⟨id, hid, hs⟩ := Option.bind_eq_some_iff.mp hs
    obtain ⟨⟨result, s'⟩, hread, -⟩ := Option.bind_eq_some_iff.mp hs
    obtain ⟨r, hr, -⟩ := Option.map_eq_some_iff.mp hread
    have hq : s.lexerRequest? l = none := by simpa [request?, hl] using h
    rw [lexerRequest?_of_reader hid hr] at hq
    cases hq

theorem tokens_without_request (hst : st.asks = true) (h : s.request? st = none)
    (ht : t ∈ (s.step st).answer.toTokens) : t = Token.ofError unboundMessage := by
  unfold step at ht
  rcases hs : s.step? st with _ | e
  · rw [hs] at ht
    cases ht
  rw [hs, Option.getD_some] at ht
  cases st with
  | consume n =>
      obtain ⟨l, hl, hs⟩ := Option.bind_eq_some_iff.mp hs
      have hq : s.lexerRequest? l = none := by simpa [request?, hl] using h
      rcases consume_without_request hq with hc | hc
      · simp [hc] at hs
      · simp only [hc] at hs
        cases hs
        exact List.mem_singleton.mp ht
  | list n =>
      obtain ⟨l, hl, hs⟩ := Option.bind_eq_some_iff.mp hs
      have hq : s.lexerRequest? l = none := by simpa [request?, hl] using h
      rcases run_without_request hq with hr | hr
      · simp [hr] at hs
      · simp only [hr] at hs
        cases hs
        exact List.mem_singleton.mp ht
  | next n => exact next_without_request h hs ht
  | scan n rule =>
      cases rule with
      | next =>
          rw [scan_without_request h] at hs
          cases hs
      | _ => cases hst
  | _ => cases hst

theorem answered_sound (hst : st.delivers = true) (hq : s.request? st = some q) :
    ∃ r, (s.step st).session.reader? q.id = some r ∧
      ∀ t ∈ (s.step st).answer.toTokens, SoundToken q.reader r t := by
  obtain ⟨ds, r, hcalls, hds, hr⟩ := answered hst hq
  refine ⟨r, hr, ?_⟩
  intro t ht
  have hdelivered : .ok t ∈ ds.map st.delivered := hds ▸ mem_deliveries ht
  obtain ⟨d, hd, hdt⟩ := List.mem_map.mp hdelivered
  have hmem : .ok t ∈ (askEach (List.replicate (s.step st).answer.deliveries.length q.options)
      q.reader).1 := by
    rw [hcalls, ← Step.delivered_eq_ok.mp hdt]
    exact hd
  have hsound := askEach_sound _ hmem
  rwa [hcalls] at hsound

theorem scan_answered_sound {n : Nat} (hq : s.request? (.scan n .next) = some q) :
    ∃ r, (s.step (.scan n .next)).session.reader? q.id = some r ∧
      ∀ t ∈ (s.step (.scan n .next)).answer.toTokens,
        SoundToken q.reader r t ∧ t.kind ≠ .error := by
  obtain ⟨l, hl, hlq⟩ := request_of_lexer hq
  have hput : ∀ r, (s.putReader q.id r).reader? q.id = some r :=
    fun r => reader?_putReader (lexerRequest?_eq_some hlq).2.1
  rw [step_scan hl hlq]
  rcases hscan : Lexer.scan q.options q.reader with ⟨u, r⟩ | ⟨e, r⟩
  · refine ⟨r, hput r, ?_⟩
    intro t ht
    rw [List.mem_singleton.mp ht]
    obtain ⟨hform, herror, hplain⟩ := scan_sound hscan
    exact ⟨⟨hform, hplain⟩, herror⟩
  · refine ⟨r, hput r, ?_⟩
    rintro t ⟨⟩

/-- **The tokens in the answer to a step have their form.** -/
theorem soundStep (s : Session) (hst : st.asks = true) : SoundStep s st := by
  rcases hq : s.request? st with _ | q
  · have hall : ∀ t ∈ (s.step st).answer.toTokens, t = Token.ofError unboundMessage :=
      fun t ht => tokens_without_request hst hq ht
    constructor
    case wellFormed =>
      intro t ht
      rw [hall t ht]
      exact Token.wellFormed_ofError _
    case plain =>
      intro q hsome
      cases hq.symm.trans hsome
    case scanned =>
      rintro n rfl t ht
      unfold step at ht
      rw [scan_without_request hq] at ht
      cases ht
    case unbound => exact fun _ => hall
  · have hsound : ∃ r, (s.step st).session.reader? q.id = some r ∧
        ∀ t ∈ (s.step st).answer.toTokens,
          SoundToken q.reader r t ∧ ((∃ n, st = .scan n .next) → t.kind ≠ .error) := by
      by_cases hdelivers : st.delivers = true
      · obtain ⟨r, hr, hall⟩ := answered_sound hdelivers hq
        refine ⟨r, hr, fun t ht => ⟨hall t ht, ?_⟩⟩
        rintro ⟨n, rfl⟩
        cases hdelivers
      · obtain ⟨n, rfl⟩ := scan_of_asks hst hdelivers
        obtain ⟨r, hr, hall⟩ := scan_answered_sound hq
        exact ⟨r, hr, fun t ht => ⟨(hall t ht).1, fun _ => (hall t ht).2⟩⟩
    obtain ⟨r, hr, hall⟩ := hsound
    constructor
    case wellFormed => exact fun t ht => (hall t ht).1.wellFormed
    case plain =>
      intro q' hsome
      cases hq.symm.trans hsome
      exact ⟨r, hr, fun hsingles t ht => (hall t ht).1.plain hsingles⟩
    case scanned => exact fun n hn t ht => (hall t ht).2 ⟨n, hn⟩
    case unbound =>
      intro hnone
      cases hq.symm.trans hnone

/-- Several characters at once are of no class, so a blank among them ends nothing: without
single characters an unknown run may hold one. -/
example :
    (Session.step
      { feeds := #[Feed.ofScript [.piece ['a', ' ', 'b']]], readers := #[{ feed := 0 }],
        lexers := #[{ reader := some 0 }] }
      (.consume 0)).answer = .token ⟨.unknown, "a b"⟩ := by
  decide +kernel

/-! ## Lists and iterations -/

theorem endsOnce_ofError (message : String) : EndsOnce [Token.ofError message] :=
  ⟨[], _, rfl, Or.inr rfl, by simp⟩

/-- A list that no fault cuts short is a run of the lexer, or the error of a lexer without
a reader. -/
theorem list_endsOnce {n : Nat} {ts : List Token}
    (h : (s.step (.list n)).answer = .tokens ts none) : EndsOnce ts := by
  unfold step at h
  rcases hs : s.step? (.list n) with _ | e
  · rw [hs] at h
    cases h
  rw [hs, Option.getD_some] at h
  obtain ⟨l, hl, hs'⟩ := Option.bind_eq_some_iff.mp hs
  rcases hq : s.lexerRequest? l with _ | q
  · rcases run_without_request hq with hr | hr
    · simp [hr] at hs'
    · simp only [hr] at hs'
      cases hs'
      cases h
      exact endsOnce_ofError _
  · simp only [run_of_request hq] at hs'
    cases hs'
    injection h with htokens hfault
    rw [← htokens]
    exact run_endsOnce hfault

/-- An iterator is followed from a time at which it is not finished to one at which it is,
and no fault or rejected source comes between. -/
structure CompleteIteration (s : Session) (i : Nat) (sts : List Step) : Prop where
  starts : ∃ it, s.iterators[i]? = some it ∧ it.phase ≠ .finished
  finishes : ∃ it, (s.after sts).iterators[i]? = some it ∧ it.phase = .finished
  clean : ∀ e, .error e ∉ answersOf i (s.history sts)

theorem Answer.GoesOn.toTokens {a : Answer} (h : a.GoesOn) :
    ∀ t ∈ a.toTokens, t.kind ≠ .eof ∧ t.kind ≠ .error := by
  intro t ht
  cases a with
  | token u =>
      rw [List.mem_singleton.mp ht]
      exact not_isFinal_iff.mp h
  | tokens ts fault => cases h
  | _ => cases ht

theorem Course.endsOnce {as : List Answer} (h : Course as true) (hclean : ∀ e, .error e ∉ as) :
    EndsOnce (as.flatMap Answer.toTokens) := by
  cases h with
  | @finished as last n has hlast =>
      cases last with
      | token u =>
          refine ⟨as.flatMap Answer.toTokens, u, ?_, isFinal_iff.mp hlast, ?_⟩
          · have hdone : (List.replicate n Answer.finished).flatMap Answer.toTokens = [] := by
              rw [List.flatMap_eq_nil_iff]
              intro a ha
              rw [List.eq_of_mem_replicate ha]
              rfl
            rw [List.flatMap_append, List.flatMap_cons, hdone]
            rfl
          · intro t ht
            obtain ⟨a, ha, hta⟩ := List.mem_flatMap.mp ht
            exact (has a ha).toTokens t hta
      | error e => exact absurd (List.mem_append_right as List.mem_cons_self) (hclean e)
      | _ => cases hlast

theorem CompleteIteration.endsOnce {i : Nat} {sts : List Step} (h : CompleteIteration s i sts) :
    EndsOnce ((answersOf i (s.history sts)).flatMap Answer.toTokens) := by
  obtain ⟨it, hit, hphase⟩ := h.starts
  obtain ⟨it', hit', hfinished⟩ := h.finishes
  obtain ⟨it'', hit'', hcourse⟩ := iterator_course hit hphase sts
  cases hit'.symm.trans hit''
  rw [decide_eq_true hfinished] at hcourse
  exact hcourse.endsOnce h.clean

structure SoundSession (s : Session) : Prop where
  steps : ∀ st, st.asks = true → SoundStep s st
  lists : ∀ n ts, (s.step (.list n)).answer = .tokens ts none → EndsOnce ts
  iterations : ∀ i sts, CompleteIteration s i sts →
    EndsOnce ((answersOf i (s.history sts)).flatMap Answer.toTokens)

end Session

structure SoundRun (source : Source) (run : Run) : Prop where
  tokens : ∃ r, source.load = .ok r ∧ ∀ t ∈ run.tokens, SoundToken r run.reader t
  last : run.fault = none → EndsOnce run.tokens

theorem soundRun {o : Options} {source : Source} {run : Run}
    (h : tokenize o source = .ok run) : SoundRun source run := by
  unfold tokenize at h
  rcases hload : source.load with e | r
  · rw [hload] at h
    cases h
  · rw [hload] at h
    cases h
    refine ⟨⟨r, hload, ?_⟩, Lexer.run_endsOnce⟩
    intro t ht
    obtain ⟨ds, hcalls, hds⟩ := Lexer.askEach_run o r
    have hdelivered : .ok t ∈ ds.map Delivery.iterated :=
      hds ▸ List.mem_append_left _ (List.mem_map_of_mem ht)
    obtain ⟨d, hd, hdt⟩ := List.mem_map.mp hdelivered
    have hmem : .ok t ∈ (Lexer.askEach
        (List.replicate (Lexer.run o r).deliveries.length o) r).1 := by
      rw [hcalls, ← Delivery.iterated_eq_ok.mp hdt]
      exact hd
    have hsound := Lexer.askEach_sound _ hmem
    rwa [hcalls] at hsound

/-- **The tokens of every source have their form.** Whatever a source brings, its tokens
have the form of their kind, in a run and in every answer of a session; and a list or a
complete iteration that nothing cuts short holds one final token, at its end. -/
theorem tokens_sound :
    (∀ (o : Options) (source : Source) (run : Run),
      tokenize o source = .ok run → SoundRun source run) ∧
      ∀ s : Session, s.SoundSession := by
  refine ⟨fun o source run h => soundRun h, ?_⟩
  intro s
  constructor
  case steps => exact fun st hst => Session.soundStep s hst
  case lists => exact fun n ts h => Session.list_endsOnce h
  case iterations => exact fun i sts h => h.endsOnce

end FilterLex
