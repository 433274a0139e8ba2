import Mathlib.Data.List.Forall2
import FilterLex.Proofs.Iteration

/-!
# Handles that share a reader

Lexers that are bound to one reader, and the iterators made from them, hold nothing of the
input themselves. Whoever asks next gets what is next: the deliveries of any interleaving
are those of one lexer that is asked again and again, with the options of the one asked.
Only the end of another iteration tells the handles apart: it leaves a lexer as it is, and an
iterator or a list as an error of its own.

- `Uses`: a step by one of the handles of a reader.
- `asked`: whose options the calls of a history are made with, call by call.
- `Passed`: a delivery, and what the same call delivers to a single lexer.
- `uses_step`, `shared_history`: one step, and the whole history.
- `alone`, `alone_history`: the same calls made by a single lexer.
- `Transparent`: the two agree, and each iterator ends by its own answers.
-/

namespace FilterLex.Session

open Lexer

/-- A step by a lexer that is bound to the reader, or by an iterator of one. The iterator
may have been made by binding its lexer to the same reader, when it starts. -/
def Uses (s : Session) (rd : Nat) : Step → Prop
  | .consume n | .list n => s.BoundTo rd n
  | .next i => ∃ it, s.iterators[i]? = some it ∧ s.BoundTo rd it.lexer ∧
      (it.phase = .running ∨ it.phase = .finished ∨ it.phase = .unstarted (.shared rd))
  | _ => False

def optionsOf (s : Session) : Step → Option Options
  | .consume n | .list n => (s.lexers[n]?).map (·.options)
  | .next i => do
      let it ← s.iterators[i]?
      (s.lexers[it.lexer]?).map (·.options)
  | _ => none

def deliveriesOf (h : List (Step × Effect)) : List Delivery :=
  h.flatMap fun p => p.2.answer.deliveries

/-- The same with the step that each of them came from. -/
def deliveriesBy (h : List (Step × Effect)) : List (Step × Delivery) :=
  h.flatMap fun p => p.2.answer.deliveries.map (p.1, ·)

/-- A delivery is what its step makes of the delivery of a call. -/
def Passed (x : Step × Delivery) (d : Delivery) : Prop := x.2 = x.1.delivered d

/-- The options that the calls of a step are made with, one entry for each delivery. -/
def askedBy (s : Session) (st : Step) : List Options :=
  (s.optionsOf st).toList.flatMap (List.replicate (s.step st).answer.deliveries.length)

/-- The options that the calls of a history are made with: at each step, those that the
lexer that is asked has at the time. -/
def asked : Session → List Step → List Options
  | _, [] => []
  | s, st :: sts => s.askedBy st ++ asked (s.step st).session sts

variable {s : Session} {rd : Nat} {r : Reader} {st : Step} {it : IteratorState}
  {l : LexerState} {o : Options}

/-! ## One step of a handle -/

theorem load_shared {n : Nat} (hl : s.lexers[n]? = some l) (hr : l.reader = some rd) :
    s.load n l (.shared rd) = .ok s := by
  have hsame : s.lexers.setIfInBounds n { l with reader := some rd } = s.lexers := by
    rw [← hr]
    exact setIfInBounds_of_some hl
  show Except.ok { s with lexers := s.lexers.setIfInBounds n { l with reader := some rd } } = _
  rw [hsame]

theorem ready?_shared (hl : s.lexers[it.lexer]? = some l) (hr : l.reader = some rd)
    (hphase : it.phase = .running ∨ it.phase = .unstarted (.shared rd)) :
    s.ready? it = some s := by
  unfold ready?
  rcases hphase with hphase | hphase
  · rw [hphase]
  · rw [hphase]
    simp [hl, load_shared hl hr, Except.toOption]

/-- What a step of a handle does. A finished iterator is left alone; any other handle asks
the reader, with the options of its lexer. -/
theorem uses_cases (hr : s.reader? rd = some r) (h : s.Uses rd st) :
    (∃ i it, st = .next i ∧ s.iterators[i]? = some it ∧ it.phase = .finished) ∨
      (st.delivers = true ∧ (s.step st).session.lexers = s.lexers ∧
        ∃ o, s.optionsOf st = some o ∧ s.request? st = some ⟨o, rd, r⟩) := by
  cases st with
  | consume n =>
      obtain ⟨l, hl, hreader⟩ := h
      have hq := lexerRequest?_of_reader hreader hr
      refine Or.inr ⟨rfl, ?_, l.options, ?_, ?_⟩
      · rw [step_consume hl hq, session_ofConsume, lexers_putReader]
      · simp [optionsOf, hl]
      · simp [request?, hl, hq]
  | list n =>
      obtain ⟨l, hl, hreader⟩ := h
      have hq := lexerRequest?_of_reader hreader hr
      refine Or.inr ⟨rfl, ?_, l.options, ?_, ?_⟩
      · rw [step_list hl hq, lexers_putReader]
      · simp [optionsOf, hl]
      · simp [request?, hl, hq]
  | next i =>
      obtain ⟨it, hit, ⟨l, hl, hreader⟩, hphase⟩ := h
      have hq := lexerRequest?_of_reader hreader hr
      by_cases hfinished : it.phase = .finished
      · exact Or.inl ⟨i, it, rfl, hit, hfinished⟩
      · have hready := ready?_shared hl hreader
          (hphase.imp_right fun hor => hor.resolve_left hfinished)
        refine Or.inr ⟨rfl, ?_, l.options, ?_, ?_⟩
        · rw [step_next hit hready hl hq, session_ofConsume]
          exact lexers_putReader s rd _
        · simp [optionsOf, hit, hl]
        · simp [request?, hit, hready, hl, hq]
  | _ => cases h

/-- After any step an iterator has its lexer still, and no phase but its own and later ones. -/
theorem iterator_later {i : Nat} (hit : s.iterators[i]? = some it) (st : Step) :
    ∃ it', (s.step st).session.iterators[i]? = some it' ∧ it'.lexer = it.lexer ∧
      (it'.phase = it.phase ∨ it'.phase = .running ∨ it'.phase = .finished) := by
  by_cases hst : st = .next i
  · subst hst
    unfold step
    rcases hs : s.step? (.next i) with _ | e
    · exact ⟨it, hit, rfl, Or.inl rfl⟩
    · obtain ⟨it', hit', hcases⟩ := next_eq_some hs
      cases hit.symm.trans hit'
      rcases hcases with ⟨-, rfl⟩ | ⟨-, -, he⟩
      · exact ⟨it, hit, rfl, Or.inl rfl⟩
      · obtain ⟨hi, -⟩ := Array.getElem?_eq_some_iff.mp hit
        refine ⟨it.answering e.answer, ?_, rfl, ?_⟩
        · rw [Option.getD_some, he]
          exact Array.getElem?_setIfInBounds_self_of_lt hi
        · unfold IteratorState.answering
          cases e.answer.ends
          · exact Or.inr (Or.inl rfl)
          · exact Or.inr (Or.inr rfl)
  · exact ⟨it, iterators_step hit hst, rfl, Or.inl rfl⟩

/-- The handles of a reader stay its handles, where a step leaves the lexers as they are. -/
theorem Uses.later {st' : Step} (h : s.Uses rd st')
    (hlexers : (s.step st).session.lexers = s.lexers) : (s.step st).session.Uses rd st' := by
  have hbound : ∀ n, s.BoundTo rd n → (s.step st).session.BoundTo rd n := by
    rintro n ⟨l, hl, hr⟩
    rw [← hlexers] at hl
    exact ⟨l, hl, hr⟩
  cases st' with
  | consume n => exact hbound n h
  | list n => exact hbound n h
  | next i =>
      obtain ⟨it, hit, hlexer, hphase⟩ := h
      obtain ⟨it', hit', hsame, hphase'⟩ := iterator_later hit st
      refine ⟨it', hit', ?_, ?_⟩
      · rw [hsame]
        exact hbound _ hlexer
      · rcases hphase' with heq | hrunning | hfinished
        · rwa [heq]
        · exact Or.inl hrunning
        · exact Or.inr (Or.inl hfinished)
  | _ => cases h

theorem passed_map (st : Step) (ds : List Delivery) :
    List.Forall₂ Passed ((ds.map st.delivered).map (st, ·)) ds := by
  rw [List.forall₂_map_left_iff, List.forall₂_map_left_iff]
  exact List.forall₂_same.mpr fun _ _ => rfl

/-- **One step of a handle** makes its calls on the reader, and leaves the other handles. -/
theorem uses_step (hr : s.reader? rd = some r) (h : s.Uses rd st) :
    ∃ ds r', askEach (s.askedBy st) r = (ds, r') ∧
      List.Forall₂ Passed ((s.step st).answer.deliveries.map (st, ·)) ds ∧
      (s.step st).session.reader? rd = some r' ∧
      ∀ st', s.Uses rd st' → (s.step st).session.Uses rd st' := by
  unfold askedBy
  rcases uses_cases hr h with ⟨i, it, rfl, hit, hphase⟩ | ⟨hst, hlexers, o, ho, hq⟩
  · rw [step_finished hit hphase]
    refine ⟨[], r, ?_, List.Forall₂.nil, hr, fun st' h' => h'⟩
    show askEach ((s.optionsOf (.next i)).toList.flatMap (List.replicate 0)) r = ([], r)
    rcases s.optionsOf (.next i) with _ | o
    · rfl
    · rfl
  · obtain ⟨ds, r', hcalls, hds, hr'⟩ := answered hst hq
    refine ⟨ds, r', ?_, ?_, hr', fun st' h' => h'.later hlexers⟩
    · rw [ho, Option.toList_some, List.flatMap_singleton]
      exact hcalls
    · rw [hds]
      exact passed_map st ds

/-! ## Whole histories -/

theorem deliveriesOf_cons (p : Step × Effect) (h : List (Step × Effect)) :
    deliveriesOf (p :: h) = p.2.answer.deliveries ++ deliveriesOf h := rfl

theorem deliveriesBy_cons (p : Step × Effect) (h : List (Step × Effect)) :
    deliveriesBy (p :: h) = p.2.answer.deliveries.map (p.1, ·) ++ deliveriesBy h := rfl

theorem map_snd_deliveriesBy (h : List (Step × Effect)) :
    (deliveriesBy h).map Prod.snd = deliveriesOf h := by
  induction h with
  | nil => rfl
  | cons p h ih =>
      rw [deliveriesBy_cons, deliveriesOf_cons, List.map_append, ih, List.map_map]
      exact congrArg (· ++ _) (List.map_id' _)

/-- **The handles of a reader, in any order,** make calls on it one after another, and stay
its handles. -/
theorem shared_history (hr : s.reader? rd = some r) (sts : List Step)
    (h : ∀ st ∈ sts, s.Uses rd st) :
    ∃ ds r', askEach (s.asked sts) r = (ds, r') ∧
      List.Forall₂ Passed (deliveriesBy (s.history sts)) ds ∧
      (s.after sts).reader? rd = some r' ∧
      ∀ st', s.Uses rd st' → (s.after sts).Uses rd st' := by
  induction sts generalizing s r with
  | nil => exact ⟨[], r, rfl, List.Forall₂.nil, hr, fun st' h' => h'⟩
  | cons st sts ih =>
      obtain ⟨ds, r', hcalls, hpassed, hr', hlater⟩ := uses_step hr (h st List.mem_cons_self)
      obtain ⟨ds', r'', hrest, hpassed', hr'', hafter⟩ :=
        ih hr' fun st' hst' => hlater st' (h st' (List.mem_cons_of_mem st hst'))
      refine ⟨ds ++ ds', r'', ?_, ?_, hr'', fun st' h' => hafter st' (hlater st' h')⟩
      · unfold asked
        rw [askEach_append, hcalls, hrest]
      · rw [history_cons, deliveriesBy_cons]
        exact List.rel_append hpassed hpassed'

/-- Where no other iteration has ended, what is passed on is the same. -/
theorem Passed.snd_eq {xs : List (Step × Delivery)} {ds : List Delivery}
    (h : List.Forall₂ Passed xs ds) (hds : ∀ f name, .error f ∈ ds → f.kind ≠ .exhaustion name) :
    xs.map Prod.snd = ds := by
  induction h with
  | nil => rfl
  | @cons x d xs ds hx _ ih =>
      have hsame : x.1.delivered d = d := by
        cases d with
        | ok t => exact Step.delivered_ok x.1 t
        | error f => exact Step.delivered_error x.1 fun name => hds f name List.mem_cons_self
      rw [List.map_cons, hx, hsame, ih fun f name hf => hds f name (List.mem_cons_of_mem d hf)]

def Finished (s : Session) (i : Nat) : Prop :=
  ∃ it, s.iterators[i]? = some it ∧ it.phase = .finished

/-- A handle that is asked delivers, unless it is a finished iterator. -/
theorem uses_delivers (hr : s.reader? rd = some r) (h : s.Uses rd st)
    (hst : ∀ i, st = .next i → ¬ s.Finished i) : (s.step st).answer.deliveries ≠ [] := by
  rcases uses_cases hr h with ⟨i, it, rfl, hit, hphase⟩ | ⟨hdelivers, -, o, -, hq⟩
  · exact absurd ⟨it, hit, hphase⟩ (hst i rfl)
  · exact deliveries_ne_nil hdelivers hq

/-- The calls of a single lexer, which gets its options before each of them. -/
def alone (n : Nat) (os : List Options) : List Step :=
  os.flatMap fun o => [.configure n none (some o.strictStrings), .consume n]

def setOptions (s : Session) (n : Nat) (l : LexerState) (o : Options) : Session :=
  { s with lexers := s.lexers.setIfInBounds n { l with options := o } }

theorem step_configure {n : Nat} (hl : s.lexers[n]? = some l) (o : Options) :
    s.step (.configure n none (some o.strictStrings)) =
      { answer := .done, session := s.setOptions n l o } := by
  unfold step step? setOptions
  simp [hl]

theorem alone_step {n : Nat} (hr : s.reader? rd = some r) (hn : s.BoundTo rd n) (o : Options) :
    ∃ t : Session, t.reader? rd = some (ask o r).2 ∧ t.BoundTo rd n ∧
      ∀ sts, deliveriesOf (s.history
            (.configure n none (some o.strictStrings) :: .consume n :: sts)) =
          (ask o r).1 :: deliveriesOf (t.history sts) ∧
        s.after (.configure n none (some o.strictStrings) :: .consume n :: sts) = t.after sts := by
  obtain ⟨l, hl, hreader⟩ := hn
  obtain ⟨hsize, -⟩ := Array.getElem?_eq_some_iff.mp hl
  have hset : (s.setOptions n l o).lexers[n]? = some { l with options := o } :=
    Array.getElem?_setIfInBounds_self_of_lt hsize
  have hr' : (s.setOptions n l o).reader? rd = some r := hr
  have hq : (s.setOptions n l o).lexerRequest? { l with options := o } = some ⟨o, rd, r⟩ :=
    lexerRequest?_of_reader (l := { l with options := o }) hreader hr'
  refine ⟨(s.setOptions n l o).putReader rd (ask o r).2, reader?_putReader hr', ?_, ?_⟩
  · refine ⟨{ l with options := o }, ?_, hreader⟩
    rw [lexers_putReader, hset]
  · intro sts
    simp only [history_cons, after_cons, deliveriesOf_cons]
    rw [step_configure hl, step_consume hset hq, session_ofConsume, deliveries_ofConsume]
    exact ⟨rfl, rfl⟩

theorem alone_history {n : Nat} (hr : s.reader? rd = some r) (hn : s.BoundTo rd n)
    (os : List Options) :
    ∃ r', askEach os r = (deliveriesOf (s.history (alone n os)), r') ∧
      (s.after (alone n os)).reader? rd = some r' := by
  induction os generalizing s r with
  | nil => exact ⟨r, rfl, hr⟩
  | cons o os ih =>
      obtain ⟨t, htr, htn, hstep⟩ := alone_step hr hn o
      obtain ⟨r', hcalls, hr'⟩ := ih htr htn
      obtain ⟨hdeliveries, hafter⟩ := hstep (alone n os)
      refine ⟨r', ?_, ?_⟩
      · show _ = (deliveriesOf (s.history (_ :: _ :: alone n os)), r')
        rw [hdeliveries, askEach_cons, hcalls]
      · show (s.after (_ :: _ :: alone n os)).reader? rd = some r'
        rw [hafter, hr']

/-! ## Sharing -/

/-- The session with one more lexer on the reader; its number is that of the lexers before. -/
def withLexer (s : Session) (rd : Nat) (o : Options) (debug : Bool) : Session :=
  (s.step (.openLexer (some (.shared rd)) o debug)).session

/-- What a history of handles that share the reader comes to. -/
structure Transparent (s : Session) (rd : Nat) (sts : List Step) : Prop where
  /-- A new lexer on the reader, asked with the options of each that was asked, makes the calls
  whose deliveries are passed on, in the same order, -/
  deliveries : ∀ o debug, List.Forall₂ Passed (deliveriesBy (s.history sts))
    (deliveriesOf ((s.withLexer rd o debug).history (alone s.lexers.size (s.asked sts))))
  /-- which are the same deliveries unless a call met the end of another iteration, -/
  same : ∀ o debug,
    (∀ f name, .error f ∈
        deliveriesOf ((s.withLexer rd o debug).history (alone s.lexers.size (s.asked sts))) →
      f.kind ≠ .exhaustion name) →
    deliveriesOf (s.history sts) =
      deliveriesOf ((s.withLexer rd o debug).history (alone s.lexers.size (s.asked sts)))
  /-- and leaves the reader and its feed the same. -/
  reader : ∀ o debug, (s.after sts).reader? rd =
    ((s.withLexer rd o debug).after (alone s.lexers.size (s.asked sts))).reader? rd
  /-- Whoever is asked delivers, a finished iterator excepted. -/
  delivers : ∀ before st later, sts = before ++ st :: later →
    (∀ i, st = .next i → ¬ (s.after before).Finished i) →
      ((s.after before).step st).answer.deliveries ≠ []
  /-- An iterator goes on until it has delivered an end itself. -/
  courses : ∀ i it, s.iterators[i]? = some it → it.phase ≠ .finished →
    ∃ it', (s.after sts).iterators[i]? = some it' ∧
      Course (answersOf i (s.history sts)) (decide (it'.phase = .finished))
  /-- A finished iterator says so, and touches nothing. -/
  finished : ∀ before i later, sts = before ++ .next i :: later → (s.after before).Finished i →
    (s.after before).step (.next i) = { answer := .finished, session := s.after before }

theorem shared_alone {sts : List Step} (hr : s.reader? rd = some r)
    (h : ∀ st ∈ sts, s.Uses rd st) (o : Options) (debug : Bool) :
    List.Forall₂ Passed (deliveriesBy (s.history sts))
        (deliveriesOf ((s.withLexer rd o debug).history (alone s.lexers.size (s.asked sts)))) ∧
      (s.after sts).reader? rd =
        ((s.withLexer rd o debug).after (alone s.lexers.size (s.asked sts))).reader? rd := by
  have hnew : (s.withLexer rd o debug).reader? rd = some r := hr
  have hbound : (s.withLexer rd o debug).BoundTo rd s.lexers.size :=
    ⟨{ options := o, debug, reader := some rd }, Array.getElem?_push_size, rfl⟩
  obtain ⟨ds, r', hcalls, hpassed, hr', -⟩ := shared_history hr sts h
  obtain ⟨r'', halone, hr''⟩ := alone_history hnew hbound (s.asked sts)
  rw [hcalls] at halone
  obtain ⟨rfl, rfl⟩ := Prod.mk.inj halone
  exact ⟨hpassed, hr'.trans hr''.symm⟩

/-- A strict and a lenient lexer on one reader, an iterator of the first, and one of the
second that is yet to be bound to the reader. -/
def twoLexers : Session :=
  { feeds := #[Feed.ofString "a b 'c"]
    readers := #[{ feed := 0 }]
    lexers := #[{ reader := some 0 },
      { options := { strictStrings := false }, reader := some 0 }]
    iterators := #[{ lexer := 0, phase := .running },
      { lexer := 1, phase := .unstarted (.shared 0) }] }

/-- An iterator over a feed whose read ends another iteration. -/
def cutShort : Session :=
  { feeds := #[Feed.ofScript [.fault ⟨.exhaustion "StopIteration", "done"⟩]]
    readers := #[{ feed := 0 }]
    lexers := #[{ reader := some 0 }]
    iterators := #[{ lexer := 0, phase := .running }] }

end FilterLex.Session
