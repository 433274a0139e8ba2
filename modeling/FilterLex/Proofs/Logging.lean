import FilterLex.Proofs.Iteration

/-!
# Logging

The log follows the tokens that are delivered, and nothing follows the log. Sessions are compared
with the same sessions where every lexer is muted: step for step they answer the same and leave
the same readers and feeds, and the muted log is the other one without the records that are made
on demand.

- `muted`: a session, or a step, with the demand for records taken away.
- `step_muted`: muting commutes with steps.
- `calls`, `Mirrors`: the deliveries of a history, and the log that they ask for.
- `logging_mirrors`: the log is that one, and muting changes nothing else.
-/

namespace FilterLex

/-! ## Records -/

namespace Log

def onDemand (record : String) : Bool := "Token: ".toList.isPrefixOf record.toList

theorem onDemand_error (message : String) : onDemand ("Error token: " ++ message) = false := by
  unfold onDemand
  rw [String.toList_append]
  rfl

theorem onDemand_token (text : String) : onDemand ("Token: " ++ text) = true := by
  unfold onDemand
  rw [String.toList_append, List.isPrefixOf_iff_prefix]
  exact List.prefix_append _ _

/-- Without the records made on demand, there are those made in any case. -/
theorem filter_record? (debug : Bool) (t : Token) :
    (record? debug t).filter (!onDemand ·) = record? false t := by
  unfold record?
  by_cases ht : t.kind = .error
  · rw [if_pos ht, if_pos ht, Option.filter_some, onDemand_error]
    rfl
  · rw [if_neg ht, if_neg ht]
    cases debug with
    | false => rfl
    | true =>
        rw [if_pos rfl, Option.filter_some, onDemand_token]
        rfl

theorem filter_records (debug : Bool) (ts : List Token) :
    (records debug ts).filter (!onDemand ·) = records false ts := by
  unfold records
  rw [List.filter_filterMap]
  simp only [filter_record?]

end Log

namespace Session

open Lexer

variable {s : Session} {l : LexerState} {it : IteratorState}

/-! ## Muting -/

def LexerState.muted (l : LexerState) : LexerState := { l with debug := false }

def muted (s : Session) : Session := { s with lexers := s.lexers.map LexerState.muted }

def Step.muted : Step → Step
  | .openLexer b options _ => .openLexer b options false
  | .configure n debug strictStrings => .configure n (debug.map fun _ => false) strictStrings
  | st => st

def Effect.muted (e : Effect) : Effect :=
  { answer := e.answer, log := e.log.filter (!Log.onDemand ·), session := e.session.muted }

@[simp] theorem getElem?_muted (s : Session) (n : Nat) :
    s.muted.lexers[n]? = s.lexers[n]?.map LexerState.muted := Array.getElem?_map

@[simp] theorem size_lexers_muted (s : Session) : s.muted.lexers.size = s.lexers.size :=
  Array.size_map

@[simp] theorem reader?_muted (s : Session) (id : Nat) : s.muted.reader? id = s.reader? id := rfl

@[simp] theorem putReader_muted (s : Session) (id : Nat) (r : Reader) :
    s.muted.putReader id r = (s.putReader id r).muted := by
  unfold putReader
  rw [show s.muted.readers = s.readers from rfl]
  cases s.readers[id]? <;> rfl

theorem withReader_muted {ε α : Type} (s : Session) (id : Nat) (act : EStateM ε Reader α) :
    s.muted.withReader id act = (s.withReader id act).map (Prod.map (fun x => x) muted) := by
  unfold withReader
  rw [reader?_muted, Option.map_map]
  congr 1
  funext r
  simp only [Function.comp, putReader_muted]
  cases act r <;> rfl

theorem bind_muted (s : Session) (b : Binding) :
    s.muted.bind b = (s.bind b).map (Prod.map (fun x => x) muted) := by
  rcases b with (source | id) | id
  · unfold bind
    simp only []
    cases source.load <;> rfl
  · rfl
  · rfl

theorem pushLexer_muted (s : Session) (l : LexerState) :
    { s.muted with lexers := s.muted.lexers.push l.muted } =
      muted { s with lexers := s.lexers.push l } := by
  unfold muted
  rw [Array.map_push]

theorem setLexer_muted (s : Session) (n : Nat) (l : LexerState) :
    { s.muted with lexers := s.muted.lexers.setIfInBounds n l.muted } =
      muted { s with lexers := s.lexers.setIfInBounds n l } := by
  unfold muted
  rw [Array.map_setIfInBounds]

theorem load_muted (s : Session) (n : Nat) (l : LexerState) (b : Binding) :
    s.muted.load n l.muted b = (s.load n l b).map muted := by
  unfold load
  rw [bind_muted]
  cases s.bind b with
  | error e => rfl
  | ok bound =>
      obtain ⟨id, t⟩ := bound
      exact congrArg Except.ok (setLexer_muted t n { l with reader := some id })

theorem consume_muted (s : Session) (l : LexerState) :
    s.muted.consume l.muted = (s.consume l).map (Prod.map (fun x => x) muted) := by
  unfold consume
  rw [show l.muted.reader = l.reader from rfl]
  cases l.reader with
  | none => rfl
  | some id => exact withReader_muted s id _

theorem run_muted (s : Session) (l : LexerState) :
    s.muted.run l.muted = (s.run l).map (Prod.map (fun x => x) muted) := by
  unfold run
  rw [show l.muted.reader = l.reader from rfl]
  cases l.reader with
  | none => rfl
  | some id =>
      simp only [reader?_muted, putReader_muted, Option.map_map]
      rfl

theorem ofConsume_muted (debug : Bool) (d : Delivery) (s : Session) :
    Effect.ofConsume false (d, s.muted) = (Effect.ofConsume debug (d, s)).muted := by
  cases d with
  | ok t =>
      show Effect.mk (.token t) (Log.records false [t]) s.muted = _
      rw [← Log.filter_records debug]
      rfl
  | error f => rfl

/-! ## Muted steps -/

theorem asking_muted {f g : LexerState → Option Effect} (s : Session) (n : Nat)
    (h : ∀ l, g l.muted = (f l).map Effect.muted) :
    (s.muted.lexers[n]?).bind g = ((s.lexers[n]?).bind f).map Effect.muted := by
  rw [getElem?_muted]
  cases s.lexers[n]? with
  | none => rfl
  | some l => exact h l

theorem advance_muted (s : Session) (i : Nat) (it : IteratorState) :
    s.muted.advance i it = (s.advance i it).map Effect.muted := by
  refine asking_muted s it.lexer fun l => ?_
  rw [consume_muted]
  cases s.consume l with
  | none => rfl
  | some result =>
      obtain ⟨d, t⟩ := result
      simp only [Option.map_some, Option.bind_eq_bind, Option.bind_some, Option.pure_def,
        ← ofConsume_muted l.debug]
      rfl

theorem next_muted (s : Session) (i : Nat) :
    s.muted.next i = (s.next i).map Effect.muted := by
  unfold next
  rw [show s.muted.iterators = s.iterators from rfl]
  cases s.iterators[i]? with
  | none => rfl
  | some it =>
      simp only [Option.bind_eq_bind, Option.bind_some]
      cases it.phase with
      | finished => rfl
      | running => exact advance_muted s i it
      | unstarted b =>
          refine asking_muted s it.lexer fun l => ?_
          rw [load_muted]
          cases s.load it.lexer l b with
          | error e => rfl
          | ok t => exact advance_muted t i it

theorem feedAt?_muted (s : Session) (place : Place) : s.muted.feedAt? place = s.feedAt? place := by
  cases place with
  | feed id => rfl
  | reader id => rfl
  | lexer id =>
      unfold feedAt?
      simp only [getElem?_muted, reader?_muted]
      cases s.lexers[id]? <;> rfl

theorem acting_muted {α : Type} (s : Session) (id : Option Nat) (act : ReadM α)
    (answer : Except Failure α → Answer) :
    (id.bind fun id => (s.muted.withReader id act).bind fun x =>
        some { answer := answer x.1, session := x.2 }) =
      (id.bind fun id => (s.withReader id act).bind fun x =>
        some { answer := answer x.1, session := x.2 }).map Effect.muted := by
  cases id with
  | none => rfl
  | some id =>
      rw [Option.bind_some, Option.bind_some, withReader_muted]
      cases s.withReader id act <;> rfl

theorem openLexer_muted (s : Session) (b : Option Binding) (options : Options) (debug : Bool) :
    s.muted.step? (.openLexer b options false) =
      (s.step? (.openLexer b options debug)).map Effect.muted := by
  cases b with
  | none =>
      have hpush := pushLexer_muted s { options, debug }
      simp only [step?, size_lexers_muted, Option.map_some, Effect.muted, ← hpush]
      rfl
  | some b =>
      simp only [step?, bind_muted]
      cases s.bind b with
      | error e => rfl
      | ok bound =>
          obtain ⟨id, t⟩ := bound
          have hpush := pushLexer_muted t { options, debug, reader := some id }
          simp only [Except.map, Prod.map, size_lexers_muted, Option.map_some, Effect.muted,
            ← hpush]
          rfl

theorem configure_muted (s : Session) (n : Nat) (debug strictStrings : Option Bool) :
    s.muted.step? (.configure n (debug.map fun _ => false) strictStrings) =
      (s.step? (.configure n debug strictStrings)).map Effect.muted := by
  refine asking_muted s n fun l => ?_
  have hset := setLexer_muted s n { l with
    debug := debug.getD l.debug
    options := { l.options with
      strictStrings := strictStrings.getD l.options.strictStrings } }
  have heffect := congrArg (fun t => some (Effect.mk .done [] t)) hset
  cases debug <;> exact heffect

theorem list_muted (s : Session) (n : Nat) :
    s.muted.step? (.list n) = (s.step? (.list n)).map Effect.muted := by
  refine asking_muted s n fun l => ?_
  rw [run_muted]
  cases s.run l with
  | none => rfl
  | some result =>
      obtain ⟨⟨ts, fault⟩, t⟩ := result
      have hlog := Log.filter_records l.debug ts
      simp only [Option.map_some, Option.bind_eq_bind, Option.bind_some, Option.pure_def,
        Effect.muted, hlog]
      rfl

theorem scan_muted (s : Session) (n : Nat) (rule : ScanRule) :
    s.muted.step? (.scan n rule) = (s.step? (.scan n rule)).map Effect.muted := by
  cases rule with
  | eof => exact asking_muted s n fun _ => rfl
  | _ =>
      exact asking_muted s n fun l => acting_muted s l.reader (scanWith l.options _)
        (Answer.ofRead .token)

theorem step?_muted (s : Session) (st : Step) :
    s.muted.step? st.muted = (s.step? st).map Effect.muted := by
  cases st with
  | openFeed f => rfl
  | openReader o =>
      cases o with
      | feed id => rfl
      | source source =>
          simp only [Step.muted, step?]
          cases source.toReader <;> rfl
  | openLexer b options debug => exact openLexer_muted s b options debug
  | load n b =>
      refine asking_muted s n fun l => ?_
      rw [load_muted]
      cases s.load n l b <;> rfl
  | configure n debug strictStrings => exact configure_muted s n debug strictStrings
  | close n =>
      simp only [Step.muted, step?, show s.muted.feeds = s.feeds from rfl]
      cases s.feeds[n]? <;> rfl
  | tell place =>
      simp only [Step.muted, step?, feedAt?_muted]
      cases s.feedAt? place with
      | none => rfl
      | some f =>
          simp only [Option.bind_eq_bind, Option.bind_some]
          cases f.tell <;> rfl
  | peek id => exact acting_muted s (some id) Reader.peek (Answer.ofRead .piece)
  | take id => exact acting_muted s (some id) Reader.take (Answer.ofRead .piece)
  | consume n =>
      refine asking_muted s n fun l => ?_
      rw [consume_muted]
      cases s.consume l with
      | none => rfl
      | some result => exact congrArg some (ofConsume_muted l.debug result.1 result.2)
  | list n => exact list_muted s n
  | iterate n => rfl
  | tokenize n b => rfl
  | next i => exact next_muted s i
  | takeRun n accept =>
      exact asking_muted s n fun l => acting_muted s l.reader (Reader.takeRun accept)
        (Answer.ofRead .text)
  | scan n rule => exact scan_muted s n rule
  | report n message =>
      refine asking_muted s n fun l => ?_
      have hlog := Log.filter_records l.debug [Token.ofError message]
      simp only [Option.map_some, Option.pure_def, Effect.muted, hlog]
      rfl

/-- **Muting commutes with steps.** -/
theorem step_muted (s : Session) (st : Step) :
    s.muted.step st.muted = (s.step st).muted := by
  unfold step
  rw [step?_muted]
  cases s.step? st <;> rfl

/-! ## The log of a step -/

/-- The steps that deliver tokens to those who ask, or report an error for them. -/
def Step.logs : Step → Bool
  | .report _ _ => true
  | st => st.delivers

/-- Whether the lexer that a step asks makes records on demand. -/
def debugOf (s : Session) : Step → Bool
  | .consume n | .list n | .report n _ => s.lexers[n]?.any (·.debug)
  | .next i => (s.iterators[i]?.bind fun it => s.lexers[it.lexer]?).any (·.debug)
  | _ => false

theorem log_ofConsume (debug : Bool) (d : Delivery) (s : Session) :
    (Effect.ofConsume debug (d, s)).log =
      Log.records debug (Effect.ofConsume debug (d, s)).answer.toTokens := by
  cases d <;> rfl

theorem log_advance {e : Effect} {i : Nat} (h : s.advance i it = some e) :
    ∃ l, s.lexers[it.lexer]? = some l ∧ e.log = Log.records l.debug e.answer.toTokens := by
  obtain ⟨l, hl, h'⟩ := Option.bind_eq_some_iff.mp h
  obtain ⟨⟨d, t⟩, hconsume, -⟩ := Option.bind_eq_some_iff.mp h'
  rw [advance_of_consume hl hconsume] at h
  cases h
  exact ⟨l, hl, log_ofConsume l.debug (Delivery.iterated d) _⟩

theorem debug_load {t : Session} {n : Nat} {b : Binding} (hl : s.lexers[n]? = some l)
    (h : s.load n l b = .ok t) : ∃ l', t.lexers[n]? = some l' ∧ l'.debug = l.debug := by
  obtain ⟨id, u, hb, rfl⟩ := load_eq_ok h
  obtain ⟨hlt, -⟩ := Array.getElem?_eq_some_iff.mp hl
  refine ⟨{ l with reader := some id }, ?_, rfl⟩
  show (u.lexers.setIfInBounds n _)[n]? = _
  rw [lexers_bind hb]
  exact Array.getElem?_setIfInBounds_self_of_lt hlt

theorem log_next {e : Effect} {i : Nat} (h : s.next i = some e) :
    e.log = Log.records (s.debugOf (.next i)) e.answer.toTokens := by
  obtain ⟨it, hit, h⟩ := Option.bind_eq_some_iff.mp h
  have hdebug : ∀ {l : LexerState}, s.lexers[it.lexer]? = some l →
      s.debugOf (.next i) = l.debug := by
    intro l hl
    unfold debugOf
    simp [hit, hl]
  cases hphase : it.phase with
  | finished =>
      rw [hphase] at h
      cases h
      rfl
  | running =>
      rw [hphase] at h
      obtain ⟨l, hl, hlog⟩ := log_advance h
      rw [hdebug hl]
      exact hlog
  | unstarted b =>
      rw [hphase] at h
      obtain ⟨l, hl, h⟩ := Option.bind_eq_some_iff.mp h
      split at h
      case h_1 t hload =>
        obtain ⟨l', hl', hsame⟩ := debug_load hl hload
        obtain ⟨m, hm, hlog⟩ := log_advance h
        cases hm.symm.trans hl'
        rw [hdebug hl, ← hsame]
        exact hlog
      case h_2 =>
        cases h
        rfl

/-- The steps that ask for no token, and do not report an error, log nothing. -/
theorem log_quiet {st : Step} {e : Effect} (hst : st.logs = false) (h : s.step? st = some e) :
    e.log = [] := by
  cases st with
  | openFeed f => cases h; rfl
  | openReader o =>
      rcases o with source | id
      · simp only [step?] at h
        cases hsource : source.toReader <;> rw [hsource] at h <;> cases h <;> rfl
      · cases h
        rfl
  | openLexer b options debug =>
      rcases b with _ | b
      · cases h
        rfl
      · simp only [step?] at h
        cases hb : s.bind b <;> rw [hb] at h <;> cases h <;> rfl
  | load n b =>
      obtain ⟨l, -, h⟩ := Option.bind_eq_some_iff.mp h
      cases hload : s.load n l b <;> rw [hload] at h <;> cases h <;> rfl
  | configure n debug strictStrings =>
      obtain ⟨l, -, h⟩ := Option.bind_eq_some_iff.mp h
      cases h
      rfl
  | close n =>
      obtain ⟨f, -, h⟩ := Option.bind_eq_some_iff.mp h
      cases h
      rfl
  | tell place =>
      obtain ⟨f, -, h⟩ := Option.bind_eq_some_iff.mp h
      cases hf : f.tell <;> rw [hf] at h <;> cases h <;> rfl
  | peek id =>
      obtain ⟨_, -, h⟩ := Option.bind_eq_some_iff.mp h
      cases h
      rfl
  | take id =>
      obtain ⟨_, -, h⟩ := Option.bind_eq_some_iff.mp h
      cases h
      rfl
  | iterate n => cases h; rfl
  | tokenize n b => cases h; rfl
  | takeRun n accept =>
      obtain ⟨l, -, h⟩ := Option.bind_eq_some_iff.mp h
      obtain ⟨id, -, h⟩ := Option.bind_eq_some_iff.mp h
      obtain ⟨_, -, h⟩ := Option.bind_eq_some_iff.mp h
      cases h
      rfl
  | scan n rule =>
      cases rule with
      | eof =>
          obtain ⟨l, -, h⟩ := Option.bind_eq_some_iff.mp h
          cases h
          rfl
      | _ =>
          obtain ⟨l, -, h⟩ := Option.bind_eq_some_iff.mp h
          obtain ⟨id, -, h⟩ := Option.bind_eq_some_iff.mp h
          obtain ⟨_, -, h⟩ := Option.bind_eq_some_iff.mp h
          cases h
          rfl
  | _ => cases hst

/-- A step logs the tokens in its answer, if it is one of those that log at all. -/
theorem log_step (s : Session) (st : Step) :
    (s.step st).log =
      if st.logs then Log.records (s.debugOf st) (s.step st).answer.toTokens else [] := by
  unfold step
  cases hs : s.step? st with
  | none => split <;> rfl
  | some e =>
      show e.log = if st.logs then Log.records (s.debugOf st) e.answer.toTokens else []
      cases hst : st.logs with
      | false => exact log_quiet hst hs
      | true =>
          rw [if_pos rfl]
          cases st with
          | consume n =>
              obtain ⟨l, hl, h⟩ := Option.bind_eq_some_iff.mp hs
              obtain ⟨⟨d, t⟩, -, h⟩ := Option.bind_eq_some_iff.mp h
              cases h
              have hdebug : s.debugOf (.consume n) = l.debug := by simp [debugOf, hl]
              rw [hdebug]
              exact log_ofConsume l.debug d t
          | list n =>
              obtain ⟨l, hl, h⟩ := Option.bind_eq_some_iff.mp hs
              obtain ⟨⟨⟨ts, fault⟩, t⟩, -, h⟩ := Option.bind_eq_some_iff.mp h
              cases h
              have hdebug : s.debugOf (.list n) = l.debug := by simp [debugOf, hl]
              rw [hdebug]
              rfl
          | next i => exact log_next hs
          | report n message =>
              obtain ⟨l, hl, h⟩ := Option.bind_eq_some_iff.mp hs
              cases h
              have hdebug : s.debugOf (.report n message) = l.debug := by simp [debugOf, hl]
              rw [hdebug]
              rfl
          | _ => cases hst

/-! ## The log of a history -/

/-- What the calls of the steps deliver, each with the setting of the lexer that was asked, as it
was at the time. -/
def calls : Session → List Step → List (Bool × Delivery)
  | _, [] => []
  | s, st :: sts =>
      (if st.logs then (s.step st).answer.deliveries.map (s.debugOf st, ·) else []) ++
        calls (s.step st).session sts

def logOf (s : Session) (sts : List Step) : List String :=
  (s.history sts).flatMap fun x => x.2.log

/-- The log that the calls ask for: one record for every error token and, where records are made
on demand, one for every other token. -/
inductive Mirrors : List (Bool × Delivery) → List String → Prop
  | nil : Mirrors [] []
  | error {debug t calls log} (ht : t.kind = .error) (h : Mirrors calls log) :
      Mirrors ((debug, .ok t) :: calls) (("Error token: " ++ t.lexeme) :: log)
  | token {t calls log} (ht : t.kind ≠ .error) (h : Mirrors calls log) :
      Mirrors ((true, .ok t) :: calls) (("Token: " ++ t.render) :: log)
  | silent {t calls log} (ht : t.kind ≠ .error) (h : Mirrors calls log) :
      Mirrors ((false, .ok t) :: calls) log
  | fault {debug f calls log} (h : Mirrors calls log) :
      Mirrors ((debug, .error f) :: calls) log

theorem Mirrors.append {calls calls' : List (Bool × Delivery)} {log log' : List String}
    (h : Mirrors calls log) (h' : Mirrors calls' log') :
    Mirrors (calls ++ calls') (log ++ log') := by
  induction h with
  | nil => exact h'
  | error ht _ ih => exact Mirrors.error ht ih
  | token ht _ ih => exact Mirrors.token ht ih
  | silent ht _ ih => exact Mirrors.silent ht ih
  | fault _ ih => exact Mirrors.fault ih

theorem mirrors_records (debug : Bool) (ts : List Token) :
    Mirrors (ts.map fun t => (debug, .ok t)) (Log.records debug ts) := by
  induction ts with
  | nil => exact Mirrors.nil
  | cons t ts ih =>
      unfold Log.records at ih ⊢
      rw [List.map_cons, List.filterMap_cons]
      unfold Log.record? at ih ⊢
      by_cases ht : t.kind = .error
      · rw [if_pos ht]
        exact Mirrors.error ht ih
      · rw [if_neg ht]
        cases debug with
        | true => exact Mirrors.token ht ih
        | false => exact Mirrors.silent ht ih

theorem mirrors_faults (debug : Bool) (faults : List Fault) :
    Mirrors (faults.map fun f => (debug, .error f)) [] := by
  induction faults with
  | nil => exact Mirrors.nil
  | cons f faults ih => exact Mirrors.fault ih

/-- The records of the tokens in an answer are the ones that its deliveries ask for. -/
theorem mirrors_deliveries (debug : Bool) (a : Answer) :
    Mirrors (a.deliveries.map (debug, ·)) (Log.records debug a.toTokens) := by
  cases a with
  | token t => exact mirrors_records debug [t]
  | tokens ts fault =>
      have hboth := (mirrors_records debug ts).append (mirrors_faults debug fault.toList)
      rw [List.append_nil] at hboth
      unfold Answer.deliveries
      rw [List.map_append, List.map_map, List.map_map]
      exact hboth
  | error e =>
      rcases e with e | ⟨e | f⟩
      · exact Mirrors.nil
      · exact Mirrors.nil
      · exact mirrors_faults debug [f]
  | _ => exact Mirrors.nil

theorem mirrors_calls (s : Session) (sts : List Step) : Mirrors (s.calls sts) (s.logOf sts) := by
  induction sts generalizing s with
  | nil => exact Mirrors.nil
  | cons st sts ih =>
      refine Mirrors.append ?_ (ih (s.step st).session)
      show Mirrors _ (s.step st).log
      rw [log_step]
      cases st.logs with
      | false => exact Mirrors.nil
      | true => exact mirrors_deliveries (s.debugOf st) _

theorem debugOf_muted (s : Session) (st : Step) : s.muted.debugOf st.muted = false := by
  have hlexer : ∀ n : Nat, (s.muted.lexers[n]?).any (·.debug) = false := by
    intro n
    rw [getElem?_muted]
    cases s.lexers[n]? <;> rfl
  cases st with
  | consume n => exact hlexer n
  | list n => exact hlexer n
  | report n message => exact hlexer n
  | next i =>
      show ((s.iterators[i]?).bind fun it => s.muted.lexers[it.lexer]?).any (·.debug) = false
      cases s.iterators[i]? with
      | none => rfl
      | some it => exact hlexer it.lexer
  | _ => rfl

/-- In a muted session, no call is made with a demand for records. -/
theorem calls_muted (s : Session) (sts : List Step) :
    ∀ call ∈ s.muted.calls (sts.map Step.muted), call.1 = false := by
  induction sts generalizing s with
  | nil => simp [calls]
  | cons st sts ih =>
      intro call hcall
      rcases List.mem_append.mp hcall with hcall | hcall
      · split at hcall
        · obtain ⟨d, -, rfl⟩ := List.mem_map.mp hcall
          exact debugOf_muted s st
        · cases hcall
      · rw [step_muted] at hcall
        exact ih (s.step st).session call hcall

/-- **Muting commutes with histories.** -/
theorem history_muted (s : Session) (sts : List Step) :
    (s.muted.history (sts.map Step.muted)).map (·.2) = (s.history sts).map (·.2.muted) := by
  induction sts generalizing s with
  | nil => rfl
  | cons st sts ih =>
      rw [List.map_cons, history_cons, history_cons, List.map_cons, List.map_cons, step_muted]
      exact congrArg ((s.step st).muted :: ·) (ih (s.step st).session)

theorem after_muted (s : Session) (sts : List Step) :
    s.muted.after (sts.map Step.muted) = (s.after sts).muted := by
  induction sts generalizing s with
  | nil => rfl
  | cons st sts ih =>
      rw [List.map_cons, after_cons, after_cons, step_muted]
      exact ih (s.step st).session

/-- What the log has to do with the steps of a session. -/
structure LogsOnly (s : Session) (sts : List Step) : Prop where
  /-- Every step answers as it does where nothing is logged on demand. -/
  answers : (s.muted.history (sts.map Step.muted)).map (·.2.answer) =
    (s.history sts).map (·.2.answer)
  /-- So are the readers and feeds left, and all else but the settings themselves. -/
  session : s.muted.after (sts.map Step.muted) = (s.after sts).muted
  log : Mirrors (s.calls sts) (s.logOf sts)
  off : ∀ call ∈ s.muted.calls (sts.map Step.muted), call.1 = false
  muted : s.muted.logOf (sts.map Step.muted) = (s.logOf sts).filter (!Log.onDemand ·)

/-- **Logging mirrors the tokens and influences nothing.** -/
theorem logging_mirrors (s : Session) (sts : List Step) : LogsOnly s sts := by
  have hhistory := history_muted s sts
  constructor
  case answers =>
    have hanswers := congrArg (List.map Effect.answer) hhistory
    rw [List.map_map, List.map_map] at hanswers
    exact hanswers
  case session => exact after_muted s sts
  case log => exact mirrors_calls s sts
  case off => exact calls_muted s sts
  case muted =>
    have hlogs := congrArg (List.flatMap Effect.log) hhistory
    rw [List.flatMap_map, List.flatMap_map] at hlogs
    unfold logOf
    rw [hlogs, List.filter_flatMap]
    rfl

end Session

end FilterLex
