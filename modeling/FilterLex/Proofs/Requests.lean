import FilterLex.Session
import FilterLex.Proofs.Asking

/-!
# Requests for tokens in a session

A step that asks for tokens comes down to calls on one reader: `consume` and `next` make
one, `list` makes calls up to the first final token. `request?` finds the reader and the
options, and the step delivers what the calls deliver and leaves the reader as they do.

- `Request`, `request?`: the reader that a step asks, and the options it asks with.
- `reader?_putReader`: what is put back is found again.
- `step_consume`, `step_list`, `step_next`, `step_scan`: the steps, by their requests.
- `Step.delivered`: what a step makes of what a call delivers.
- `answered`: a step delivers what its calls deliver.
-/

namespace FilterLex.Session

open Lexer

/-! ## What answers deliver -/

def Answer.deliveries : Answer → List Delivery
  | .token t => [.ok t]
  | .tokens ts fault => ts.map .ok ++ fault.toList.map .error
  | .error (.failed (.reading f)) => [.error f]
  | _ => []

def Answer.toTokens : Answer → List Token
  | .token t => [t]
  | .tokens ts _ => ts
  | _ => []

/-! ## Requests -/

structure Request where
  options : Options
  id : Nat
  reader : Reader

variable {s s' : Session} {l : LexerState} {it : IteratorState} {q : Request} {r : Reader}

def lexerRequest? (s : Session) (l : LexerState) : Option Request := do
  let id ← l.reader
  let reader ← s.reader? id
  return { options := l.options, id, reader }

/-- The session in which an iterator asks: an unstarted one binds its lexer first. -/
def ready? (s : Session) (it : IteratorState) : Option Session :=
  match it.phase with
  | .finished => none
  | .running => some s
  | .unstarted b => do
      let l ← s.lexers[it.lexer]?
      (s.load it.lexer l b).toOption

/-- The request of a step that asks for tokens. -/
def request? (s : Session) : Step → Option Request
  | .consume lexer | .list lexer | .scan lexer .next => do
      s.lexerRequest? (← s.lexers[lexer]?)
  | .next iterator => do
      let it ← s.iterators[iterator]?
      let s ← s.ready? it
      s.lexerRequest? (← s.lexers[it.lexer]?)
  | _ => none

theorem lexerRequest?_eq_some (h : s.lexerRequest? l = some q) :
    l.reader = some q.id ∧ s.reader? q.id = some q.reader ∧ q.options = l.options := by
  unfold lexerRequest? at h
  cases hl : l.reader with
  | none =>
      rw [hl] at h
      cases h
  | some id =>
      cases hr : s.reader? id with
      | none => simp [hl, hr] at h
      | some r =>
          have hq : (⟨l.options, id, r⟩ : Request) = q := by simpa [hl, hr] using h
          subst hq
          exact ⟨rfl, hr, rfl⟩

theorem lexerRequest?_of_reader {id : Nat} (hl : l.reader = some id) (hr : s.reader? id = some r) :
    s.lexerRequest? l = some ⟨l.options, id, r⟩ := by
  unfold lexerRequest?
  simp [hl, hr]

/-! ## Readers are put back -/

/-- What is put back is found again. -/
theorem reader?_putReader {id : Nat} {r' : Reader} (h : s.reader? id = some r) :
    (s.putReader id r').reader? id = some r' := by
  unfold reader? at h
  cases hs : s.readers[id]? with
  | none => simp [hs] at h
  | some shared =>
      cases hf : s.feeds[shared.feed]? with
      | none => simp [hs, hf] at h
      | some feed =>
          obtain ⟨hid, -⟩ := Array.getElem?_eq_some_iff.mp hs
          obtain ⟨hfeed, -⟩ := Array.getElem?_eq_some_iff.mp hf
          have hreaders : (s.readers.setIfInBounds id { shared with pending := r'.pending })[id]? =
              some { shared with pending := r'.pending } :=
            Array.getElem?_setIfInBounds_self_of_lt hid
          have hfeeds : (s.feeds.setIfInBounds shared.feed r'.feed)[shared.feed]? =
              some r'.feed := Array.getElem?_setIfInBounds_self_of_lt hfeed
          unfold putReader reader?
          rw [hs]
          show ((s.readers.setIfInBounds id { shared with pending := r'.pending })[id]?.bind _) = _
          rw [hreaders]
          show ((s.feeds.setIfInBounds shared.feed r'.feed)[shared.feed]?.bind _) = _
          rw [hfeeds]
          rfl

@[simp] theorem lexers_putReader (s : Session) (id : Nat) (r : Reader) :
    (s.putReader id r).lexers = s.lexers := by
  unfold putReader
  cases s.readers[id]? <;> rfl

@[simp] theorem iterators_putReader (s : Session) (id : Nat) (r : Reader) :
    (s.putReader id r).iterators = s.iterators := by
  unfold putReader
  cases s.readers[id]? <;> rfl

/-! ## A lexer asks -/

theorem consume_of_request (h : s.lexerRequest? l = some q) :
    s.consume l =
      some ((ask q.options q.reader).1, s.putReader q.id (ask q.options q.reader).2) := by
  obtain ⟨hl, hr, ho⟩ := lexerRequest?_eq_some h
  unfold consume withReader
  rw [hl, ho]
  simp only [hr, Option.map_some]
  unfold ask
  cases Lexer.consume l.options q.reader <;> rfl

theorem run_of_request (h : s.lexerRequest? l = some q) :
    s.run l = some (((Lexer.run q.options q.reader).tokens, (Lexer.run q.options q.reader).fault),
      s.putReader q.id (Lexer.run q.options q.reader).reader) := by
  obtain ⟨hl, hr, ho⟩ := lexerRequest?_eq_some h
  unfold run
  rw [hl, ho]
  simp only [hr, Option.map_some]

/-! ## Steps that ask -/

theorem step_consume {n : Nat} (hl : s.lexers[n]? = some l) (h : s.lexerRequest? l = some q) :
    s.step (.consume n) = Effect.ofConsume l.debug
      ((ask q.options q.reader).1, s.putReader q.id (ask q.options q.reader).2) := by
  unfold step step?
  simp [hl, consume_of_request h]

theorem step_list {n : Nat} (hl : s.lexers[n]? = some l) (h : s.lexerRequest? l = some q) :
    s.step (.list n) =
      { answer := .tokens (Lexer.run q.options q.reader).tokens (Lexer.run q.options q.reader).fault
        log := Log.records l.debug (Lexer.run q.options q.reader).tokens
        session := s.putReader q.id (Lexer.run q.options q.reader).reader } := by
  unfold step step?
  simp [hl, run_of_request h]

/-- An iterator that is not finished asks in the session that it is ready in. -/
theorem next_of_ready {n : Nat} (hit : s.iterators[n]? = some it) (h : s.ready? it = some s') :
    s.next n = s'.advance n it := by
  unfold ready? at h
  unfold next
  simp only [hit, Option.bind_eq_bind, Option.bind_some]
  cases hphase : it.phase with
  | finished => rw [hphase] at h; cases h
  | running =>
      rw [hphase] at h
      cases h
      rfl
  | unstarted b =>
      rw [hphase] at h
      cases hl : s.lexers[it.lexer]? with
      | none => simp [hl] at h
      | some l =>
          cases hload : s.load it.lexer l b with
          | error e => simp [hl, hload, Except.toOption] at h
          | ok t =>
              have ht : t = s' := by simpa [hl, hload, Except.toOption] using h
              subst ht
              simp [hload]

def phaseAfter (d : Delivery) : Phase := if d.ends then .finished else .running

theorem advance_of_consume {n : Nat} {d : Delivery} (hl : s.lexers[it.lexer]? = some l)
    (h : s.consume l = some (d, s')) :
    s.advance n it = some (Effect.ofConsume l.debug (d.iterated, { s' with
      iterators := s'.iterators.setIfInBounds n { it with phase := phaseAfter d } })) := by
  unfold advance
  simp only [hl, h, Option.bind_eq_bind, Option.bind_some]
  cases d with
  | error f => rfl
  | ok t => cases hfinal : t.isFinal <;> simp [phaseAfter, Delivery.ends, Delivery.iterated, hfinal]

theorem step_next {n : Nat} (hit : s.iterators[n]? = some it) (hready : s.ready? it = some s')
    (hl : s'.lexers[it.lexer]? = some l) (h : s'.lexerRequest? l = some q) :
    s.step (.next n) = Effect.ofConsume l.debug ((ask q.options q.reader).1.iterated,
      { s'.putReader q.id (ask q.options q.reader).2 with
        iterators := s'.iterators.setIfInBounds n
          { it with phase := phaseAfter (ask q.options q.reader).1 } }) := by
  unfold step step?
  simp only [next_of_ready hit hready, advance_of_consume hl (consume_of_request h),
    iterators_putReader, Option.getD_some]

theorem step_scan {n : Nat} (hl : s.lexers[n]? = some l) (h : s.lexerRequest? l = some q) :
    s.step (.scan n .next) =
      match Lexer.scan q.options q.reader with
      | .ok t r => { answer := .token t, session := s.putReader q.id r }
      | .error e r => { answer := .error (.failed e), session := s.putReader q.id r } := by
  obtain ⟨hreader, hr, ho⟩ := lexerRequest?_eq_some h
  unfold step step?
  simp only [hl, hreader, withReader, hr, ho, scanWith, Option.bind_eq_bind, Option.bind_some,
    Option.map_some]
  cases Lexer.scan l.options q.reader <;> rfl

/-! ## Deliveries -/

theorem deliveries_ofConsume (debug : Bool) (d : Delivery) (s : Session) :
    (Effect.ofConsume debug (d, s)).answer.deliveries = [d] := by
  cases d <;> rfl

theorem session_ofConsume (debug : Bool) (d : Delivery) (s : Session) :
    (Effect.ofConsume debug (d, s)).session = s := by
  cases d <;> rfl

/-- The steps that ask for tokens and errors; `scan` asks for a token only. -/
def Step.delivers : Step → Bool
  | .consume _ | .list _ | .next _ => true
  | _ => false

/-- What a step makes of what a call delivers: an iterator and a list are iterations. -/
def Step.delivered : Step → Delivery → Delivery
  | .next _, d | .list _, d => d.iterated
  | _, d => d

@[simp] theorem Step.delivered_ok (st : Step) (t : Token) : st.delivered (.ok t) = .ok t := by
  cases st <;> rfl

theorem Step.delivered_eq_ok {st : Step} {d : Delivery} {t : Token} :
    st.delivered d = .ok t ↔ d = .ok t := by
  cases d with
  | ok u => rw [Step.delivered_ok]
  | error f => cases st <;> simp [Step.delivered]

theorem Step.delivered_error (st : Step) {f : Fault} (h : ∀ name, f.kind ≠ .exhaustion name) :
    st.delivered (.error f) = .error f := by
  cases st with
  | next n => rw [Step.delivered, Delivery.iterated_error, Fault.leavingIteration_eq h]
  | list n => rw [Step.delivered, Delivery.iterated_error, Fault.leavingIteration_eq h]
  | _ => rfl

/-- The deliveries of a request are those of calls on its reader, one call for each, as the
step delivers them, and the reader is left as the calls leave it. -/
def Answered (q : Request) (st : Step) (e : Effect) : Prop :=
  ∃ ds r, askEach (List.replicate e.answer.deliveries.length q.options) q.reader = (ds, r) ∧
    e.answer.deliveries = ds.map st.delivered ∧ e.session.reader? q.id = some r

theorem Answered.of_ask (st : Step) {debug : Bool} {t : Session}
    (h : t.reader? q.id = some (ask q.options q.reader).2) :
    Answered q st (Effect.ofConsume debug (st.delivered (ask q.options q.reader).1, t)) := by
  refine ⟨[(ask q.options q.reader).1], (ask q.options q.reader).2, ?_, ?_, ?_⟩
  · rw [deliveries_ofConsume]
    rfl
  · rw [deliveries_ofConsume]
    rfl
  · rw [session_ofConsume]
    exact h

theorem request_of_lexer {n : Nat}
    (h : (s.lexers[n]?.bind fun l => s.lexerRequest? l) = some q) :
    ∃ l, s.lexers[n]? = some l ∧ s.lexerRequest? l = some q :=
  Option.bind_eq_some_iff.mp h

theorem request_of_iterator {n : Nat} (h : s.request? (.next n) = some q) :
    ∃ it s' l, s.iterators[n]? = some it ∧ s.ready? it = some s' ∧
      s'.lexers[it.lexer]? = some l ∧ s'.lexerRequest? l = some q := by
  obtain ⟨it, hit, h⟩ := Option.bind_eq_some_iff.mp h
  obtain ⟨s', hready, h⟩ := Option.bind_eq_some_iff.mp h
  obtain ⟨l, hl, h⟩ := Option.bind_eq_some_iff.mp h
  exact ⟨it, s', l, hit, hready, hl, h⟩

/-- **A step delivers what its calls deliver.** -/
theorem answered {st : Step} (hst : st.delivers = true) (h : s.request? st = some q) :
    Answered q st (s.step st) := by
  cases st with
  | consume n =>
      obtain ⟨l, hl, hq⟩ := request_of_lexer h
      rw [step_consume hl hq]
      exact Answered.of_ask (.consume n) (reader?_putReader (lexerRequest?_eq_some hq).2.1)
  | list n =>
      obtain ⟨l, hl, hq⟩ := request_of_lexer h
      rw [step_list hl hq]
      obtain ⟨ds, hcalls, hds⟩ := askEach_run q.options q.reader
      exact ⟨ds, _, hcalls, hds, reader?_putReader (lexerRequest?_eq_some hq).2.1⟩
  | next n =>
      obtain ⟨it, s', l, hit, hready, hl, hq⟩ := request_of_iterator h
      rw [step_next hit hready hl hq]
      exact Answered.of_ask (.next n) (reader?_putReader (lexerRequest?_eq_some hq).2.1)
  | _ => cases hst

/-- A request is never left without a delivery. -/
theorem deliveries_ne_nil {st : Step} (hst : st.delivers = true) (h : s.request? st = some q) :
    (s.step st).answer.deliveries ≠ [] := by
  cases st with
  | consume n =>
      obtain ⟨l, hl, hq⟩ := request_of_lexer h
      rw [step_consume hl hq, deliveries_ofConsume]
      exact List.cons_ne_nil _ _
  | list n =>
      obtain ⟨l, hl, hq⟩ := request_of_lexer h
      obtain ⟨init, last, heq, -, -⟩ := run_ends q.options q.reader
      rw [step_list hl hq]
      show (Lexer.run q.options q.reader).deliveries ≠ []
      rw [heq]
      exact List.append_ne_nil_of_right_ne_nil init (List.cons_ne_nil last [])
  | next n =>
      obtain ⟨it, s', l, hit, hready, hl, hq⟩ := request_of_iterator h
      rw [step_next hit hready hl hq, deliveries_ofConsume]
      exact List.cons_ne_nil _ _
  | _ => cases hst

end FilterLex.Session
