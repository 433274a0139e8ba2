import FilterLex.Proofs.Bystanders
import FilterLex.Proofs.SoundTokens
import FilterLex.Proofs.Taking

/-!
# The end of the input is sticky

A call that reads the end of the input holds it back, and no call takes it. So once a reader
has met the end it answers by itself: whoever is bound to it gets the end of the input, and
nothing is read, whatever the feed would bring next. Only those steps give the end away that
take a piece without looking at it first.

- `scan_end`, `run_end`, `leaves_end`: a reader that holds the end back is left as it is.
- `askEach_holds_end`: calls that read the end hold it back.
- `Releases`, `step_holds_end`: the steps that give it away, and that no others do.
- `Quiet`, `quiet_reads`: steps that read nothing while it is held back.
- `EndSticks`, `end_sticks`: what holds from then on, along any steps.
-/

namespace FilterLex

namespace Reader

variable {r : Reader}

/-! ## A reader that holds the end back -/

theorem peek_end (h : r.pending = some []) : peek r = .ok [] r := by
  obtain ⟨feed, pending⟩ := r
  cases h
  rfl

theorem takeRun_end (accept : Piece → Bool) (h : r.pending = some []) :
    takeRun accept r = .ok [] r := by
  obtain ⟨feed, pending⟩ := r
  cases h
  rfl

end Reader

namespace Lexer

open Reader

variable {r s : Reader} {o : Options}

theorem scan_end (o : Options) (h : r.pending = some []) :
    scan o r = .ok Token.endOfInput r := by
  have hrun := takeRun_end Piece.isBlank h
  unfold scan
  rw [bind_of_ok hrun, bind_of_ok (peek_end h)]
  rfl

theorem scanNumber_end (h : r.pending = some []) :
    scanNumber r = .ok (Token.ofChars .int []) r := by
  unfold scanNumber
  rw [bind_of_ok (takeRun_end _ h), bind_of_ok (peek_end h)]
  rfl

theorem scanIdent_end (h : r.pending = some []) : ∃ t, scanIdent r = .ok t r := by
  unfold scanIdent
  rw [bind_of_ok (takeRun_end _ h)]
  exact ⟨_, rfl⟩

theorem consume_held_end (o : Options) (h : r.pending = some []) :
    consume o r = .ok Token.endOfInput r := by
  unfold consume
  rw [scan_end o h]

theorem ask_end (o : Options) (h : r.pending = some []) :
    ask o r = (.ok Token.endOfInput, r) :=
  ask_of_ok (consume_held_end o h)

theorem run_end (o : Options) (h : r.pending = some []) :
    run o r = { tokens := [Token.endOfInput], reader := r } :=
  run_of_final (consume_held_end o h) rfl

/-- Calls that read the end of the input hold it back. -/
theorem askEach_holds_end (os : List Options) (r : Reader)
    (h : r.pending = some [] ∨ .piece [] ∈ r.readsUntil (askEach os r).2) :
    (askEach os r).2.pending = some [] := by
  induction os generalizing r with
  | nil =>
      rcases h with h | h
      · exact h
      · have h : .piece [] ∈ r.readsUntil r := h
        rw [(Reads.refl r).readsUntil_eq] at h
        cases h
  | cons o os ih =>
      rw [askEach_cons] at h ⊢
      apply ih
      rcases h with h | h
      · rw [ask_end o h]
        exact Or.inl h
      · -- the end was read by the first call, or by a later one
        obtain ⟨us, hfirst⟩ := ask_reads o r
        obtain ⟨us', hrest⟩ := askEach_reads os (ask o r).2
        rw [(hfirst.trans hrest).readsUntil_eq] at h
        rcases List.mem_append.mp h with h | h
        · rw [← hfirst.readsUntil_eq] at h
          exact Or.inl ((ask_goes o r).holds_end h)
        · rw [← hrest.readsUntil_eq] at h
          exact Or.inr h

end Lexer

namespace Session

open Lexer

variable {s t : Session} {rd n id : Nat} {r : Reader} {st : Step} {q : Request} {sts : List Step}

/-! ## Steps that give the end away -/

/-- The step may take a piece off the reader without looking at it: a piece is asked for, or
a scanning action that takes its first piece is used by itself. -/
def Releases (s : Session) (rd : Nat) : Step → Prop
  | .take id => id = rd
  | .scan n (.string _) | .scan n (.punctuation _) => s.BoundTo rd n
  | _ => False

def HoldsEnd (s : Session) (rd : Nat) : Prop := ∃ r, s.reader? rd = some r ∧ r.pending = some []

theorem left_of_ok {ε α : Type} {act : EStateM ε Reader α} {a : α} (h : act r = .ok a r) :
    r.left act = r := by
  unfold Reader.left
  rw [h]

theorem leaves_end (o : Options) (h : r.pending = some []) (hst : s.Through rd st)
    (hkeeps : ¬ s.Releases rd st) : st.leaves o r = r := by
  cases st with
  | peek id => exact left_of_ok (Reader.peek_end h)
  | take id => exact absurd hst hkeeps
  | consume n =>
      show (ask o r).2 = r
      rw [ask_end o h]
  | next i =>
      show (ask o r).2 = r
      rw [ask_end o h]
  | list n =>
      show (Lexer.run o r).reader = r
      rw [run_end o h]
  | takeRun n accept => exact left_of_ok (Reader.takeRun_end _ h)
  | scan n rule =>
      cases rule with
      | next => exact left_of_ok (scan_end o h)
      | eof => rfl
      | number => exact left_of_ok (scanNumber_end h)
      | ident =>
          obtain ⟨t, ht⟩ := scanIdent_end h
          exact left_of_ok ht
      | string quote => exact absurd hst hkeeps
      | punctuation mark => exact absurd hst hkeeps
  | _ => rfl

theorem Aside.holdsEnd {subject : Subject} (h : Aside subject s t) (hend : s.HoldsEnd rd) :
    t.HoldsEnd rd := by
  obtain ⟨r, hr, hp⟩ := hend
  obtain ⟨r', hr', hpending⟩ := h.reader? hr
  exact ⟨r', hr', hpending.trans hp⟩

/-- To give the end away a step does not bind a lexer first. -/
theorem Releases.rebinds? (h : t.Releases rd st) (s : Session) : s.rebinds? st = none := by
  cases st with
  | take id => rfl
  | scan n rule => rfl
  | _ => cases h

/-- **All other steps keep the end.** -/
theorem step_holds_end (hend : s.HoldsEnd rd) (hst : ¬ s.Releases rd st) :
    (s.step st).session.HoldsEnd rd := by
  cases step_parts s st with
  | aside h => exact h.holdsEnd hend
  | @through t u id r o hbefore hsame hthrough hr hafter =>
      refine hafter.holdsEnd ?_
      obtain ⟨q, hq, hp⟩ := hbefore.holdsEnd hend
      by_cases hid : id = rd
      · subst hid
        cases hr.symm.trans hq
        have hkeeps : ¬ t.Releases id st := by
          intro hrel
          rw [hsame (hrel.rebinds? s)] at hrel
          exact hst hrel
        rw [leaves_end o hp hthrough hkeeps, putReader_self hr]
        exact ⟨r, hr, hp⟩
      · obtain ⟨q', hq', hp'⟩ := reader?_putReader_ne (st.leaves o r) hid hq
        exact ⟨q', hq', hp'.trans hp⟩

/-! ## Steps that read nothing -/

/-- The step binds no lexer. It asks the reader, if it asks one, and looks at what is in
front. -/
def Quiet (s : Session) (rd : Nat) : Step → Prop
  | .take _ | .scan _ (.string _) | .scan _ (.punctuation _) | .load _ _ => False
  | .consume n | .list n | .takeRun n _ | .scan n _ => s.BoundTo rd n
  | .next i => ∃ it, s.iterators[i]? = some it ∧ s.BoundTo rd it.lexer ∧
      (it.phase = .running ∨ it.phase = .finished)
  | .peek id => id = rd
  | _ => True

theorem BoundTo.unique (h : s.BoundTo rd n) (h' : s.BoundTo id n) : id = rd := by
  obtain ⟨l, hl, hreader⟩ := h
  obtain ⟨l', hl', hreader'⟩ := h'
  cases hl.symm.trans hl'
  exact Option.some.inj (hreader'.symm.trans hreader)

theorem Quiet.keeps (h : s.Quiet rd st) : ¬ s.Releases rd st := by
  cases st with
  | take id => cases h
  | scan n rule =>
      cases rule with
      | string quote => cases h
      | punctuation mark => cases h
      | _ => exact id
  | _ => exact id

theorem Quiet.rebinds? (h : s.Quiet rd st) : s.rebinds? st = none := by
  cases st with
  | load n b => cases h
  | next i =>
      obtain ⟨it, hit, -, hphase⟩ := h
      unfold Session.rebinds?
      rcases hphase with hphase | hphase <;> simp [hit, hphase]
  | _ => rfl

theorem Quiet.through (h : s.Quiet rd st) (hthrough : s.Through id st) : id = rd := by
  cases st with
  | peek n => exact hthrough.symm.trans h
  | take n => cases h
  | next i =>
      obtain ⟨it, hit, hbound, -⟩ := h
      obtain ⟨it', hit', hbound'⟩ := hthrough
      cases hit.symm.trans hit'
      exact hbound.unique hbound'
  | scan n rule =>
      cases rule with
      | string quote => cases h
      | punctuation mark => cases h
      | _ => exact BoundTo.unique h hthrough
  | consume n => exact BoundTo.unique h hthrough
  | list n => exact BoundTo.unique h hthrough
  | takeRun n accept => exact BoundTo.unique h hthrough
  | _ => cases hthrough

/-- **A quiet step reads nothing,** while the end is held back. -/
theorem quiet_reads {k : Nat} {f : Feed} (hend : s.HoldsEnd rd) (hst : s.Quiet rd st)
    (hf : s.feeds[k]? = some f) :
    ∃ f', (s.step st).session.feeds[k]? = some f' ∧ f'.reads = f.reads := by
  cases step_parts s st with
  | aside h => exact h.feeds hf
  | @through t u id r o hbefore hsame hthrough hr hafter =>
      obtain rfl := hsame hst.rebinds?
      obtain rfl := hst.through hthrough
      obtain ⟨q, hq, hp⟩ := hend
      cases hr.symm.trans hq
      rw [leaves_end o hp hthrough hst.keeps, putReader_self hr] at hafter
      exact hafter.feeds hf

theorem boundTo_of_rebinds (hn : s.BoundTo id n) (hne : s.rebinds? st ≠ some n) :
    (s.step st).session.BoundTo id n := by
  cases step_parts s st with
  | aside h => exact h.boundTo hne hn
  | @through t u k r o hbefore hsame hthrough hr hafter =>
      refine hafter.boundTo (by rintro ⟨⟩) ?_
      obtain ⟨l, hl, hreader⟩ := hbefore.boundTo hne hn
      refine ⟨l, ?_, hreader⟩
      rw [lexers_putReader]
      exact hl

theorem boundTo_step (hn : s.BoundTo id n) (hst : s.Quiet rd st) :
    (s.step st).session.BoundTo id n := by
  refine boundTo_of_rebinds hn ?_
  rw [hst.rebinds?]
  rintro ⟨⟩

/-! ## From then on -/

/-- Every step has the property, in the session that it finds. -/
def Along (P : Session → Step → Prop) : Session → List Step → Prop
  | _, [] => True
  | s, st :: sts => P s st ∧ Along P (s.step st).session sts

/-- What every step keeps, all of them keep. -/
theorem Along.after {P : Session → Step → Prop} {I : Session → Prop}
    (hstep : ∀ {s : Session} {st : Step}, I s → P s st → I (s.step st).session)
    (hs : I s) (h : s.Along P sts) : I (s.after sts) := by
  induction sts generalizing s with
  | nil => exact hs
  | cons st sts ih => exact ih (hstep hs h.1) h.2

theorem Along.imp {P Q : Session → Step → Prop}
    (hPQ : ∀ {s : Session} {st : Step}, P s st → Q s st) (h : s.Along P sts) : s.Along Q sts := by
  induction sts generalizing s with
  | nil => trivial
  | cons st sts ih => exact ⟨hPQ h.1, ih h.2⟩

/-- What becomes of a reader that has met the end of its input, when steps follow. -/
structure EndSticks (s : Session) (rd : Nat) (sts : List Step) : Prop where
  /-- After quiet steps, the lexers on the reader get the end of the input, -/
  ends : s.Along (fun s st => s.Quiet rd st) sts → ∀ n, s.BoundTo rd n →
    ((s.after sts).step (.consume n)).answer = .token Token.endOfInput
  /-- and no feed has been read any further. -/
  unread : s.Along (fun s st => s.Quiet rd st) sts → ∀ (k : Nat) (f : Feed),
    s.feeds[k]? = some f → ∃ f' : Feed, (s.after sts).feeds[k]? = some f' ∧ f'.reads = f.reads
  /-- After whatever steps that do not give the end away, every lexer that is on the reader
  then gets it, and nothing else is changed. -/
  consumes : s.Along (fun s st => ¬ s.Releases rd st) sts →
    ∀ n l, (s.after sts).lexers[n]? = some l → l.reader = some rd →
      (s.after sts).step (.consume n) =
        { answer := .token Token.endOfInput
          log := Log.records l.debug [Token.endOfInput]
          session := s.after sts }

/-- A lexer on a reader that holds the end back gets the end. -/
theorem step_consume_end (hend : s.HoldsEnd rd) {l : LexerState} (hl : s.lexers[n]? = some l)
    (hreader : l.reader = some rd) :
    s.step (.consume n) = { answer := .token Token.endOfInput
                            log := Log.records l.debug [Token.endOfInput]
                            session := s } := by
  obtain ⟨r, hr, hp⟩ := hend
  rw [step_consume hl (lexerRequest?_of_reader hreader hr)]
  show Effect.ofConsume l.debug ((ask l.options r).1, s.putReader rd (ask l.options r).2) = _
  rw [ask_end _ hp, putReader_self hr]
  rfl

theorem HoldsEnd.sticks (hend : s.HoldsEnd rd) (sts : List Step) : EndSticks s rd sts := by
  constructor
  case ends =>
    intro hsts n hn
    have hkeeps : s.Along (fun s st => ¬ s.Releases rd st) sts := hsts.imp Quiet.keeps
    obtain ⟨l, hl, hreader⟩ := hsts.after (I := fun t => t.BoundTo rd n) boundTo_step hn
    rw [step_consume_end (hkeeps.after step_holds_end hend) hl hreader]
  case unread =>
    intro hsts k f hf
    refine (hsts.after (I := fun t => t.HoldsEnd rd ∧
      ∃ f', t.feeds[k]? = some f' ∧ f'.reads = f.reads) ?_ ⟨hend, f, hf, rfl⟩).2
    rintro t st ⟨ht, f', hf', hreads⟩ hst
    obtain ⟨f'', hf'', hreads'⟩ := quiet_reads ht hst hf'
    exact ⟨step_holds_end ht hst.keeps, f'', hf'', hreads'.trans hreads⟩
  case consumes =>
    intro hsts n l hl hreader
    exact step_consume_end (hsts.after step_holds_end hend) hl hreader

/-! ## The call that meets the end -/

/-- A scan by itself leaves the reader as a call does. -/
theorem left_scan (o : Options) (r : Reader) : r.left (Lexer.scan o) = (ask o r).2 := by
  unfold Reader.left
  rcases hscan : Lexer.scan o r with ⟨t, r'⟩ | ⟨e, r'⟩
  · rw [ask_of_scan hscan]
  · cases e with
    | lexical e => rw [ask_of_lexical hscan]
    | reading f => rw [ask_of_reading hscan]

theorem session_step_scan {l : LexerState} (hl : s.lexers[n]? = some l)
    (hq : s.lexerRequest? l = some q) :
    (s.step (.scan n .next)).session = s.putReader q.id (ask q.options q.reader).2 := by
  rw [step_scan hl hq, ← left_scan]
  unfold Reader.left
  cases Lexer.scan q.options q.reader <;> rfl

/-- A call that reads the end holds it back, and so the step leaves it held back. -/
theorem holdsEnd_of_read (hq : s.request? st = some q) (hst : st.asks = true)
    (hr : (s.step st).session.reader? q.id = some r)
    (hend : .piece [] ∈ q.reader.readsUntil r) : (s.step st).session.HoldsEnd q.id := by
  refine ⟨r, hr, ?_⟩
  by_cases hdelivers : st.delivers = true
  · obtain ⟨ds, r', hcalls, -, hr'⟩ := answered hdelivers hq
    cases hr.symm.trans hr'
    have hholds := askEach_holds_end
      (List.replicate (s.step st).answer.deliveries.length q.options) q.reader
    rw [hcalls] at hholds
    exact hholds (Or.inr hend)
  · obtain ⟨n, rfl⟩ := scan_of_asks hst hdelivers
    obtain ⟨l, hl, hlq⟩ := request_of_lexer hq
    rw [session_step_scan hl hlq, reader?_putReader (lexerRequest?_eq_some hlq).2.1] at hr
    cases hr
    exact (ask_goes _ _).holds_end hend

/-- **The end of the input is sticky.** Once a call has read the end from the feed, it stays
the end, whatever the feed would bring next and whatever steps follow. -/
theorem end_sticks (hq : s.request? st = some q) (hst : st.asks = true)
    (hr : (s.step st).session.reader? q.id = some r)
    (hend : .piece [] ∈ q.reader.readsUntil r) (sts : List Step) :
    EndSticks (s.step st).session q.id sts :=
  (holdsEnd_of_read hq hst hr hend).sticks sts

/-- A reader of a feed that would go on behind its end, and fail behind that. -/
def atStart : Reader :=
  { feed := {
      ahead := [.piece ['1'], .piece [], .piece ['2']]
      tail := .fault ⟨.device "ValueError", "lost"⟩ } }

def atEnd : Reader :=
  { feed := {
      ahead := [.piece ['2']]
      tail := .fault ⟨.device "ValueError", "lost"⟩
      reads := 2 }
    pending := some [] }

def goingOn : Session :=
  { feeds := #[atStart.feed], readers := #[{ feed := 0 }], lexers := #[{ reader := some 0 }] }

/-- The number is delivered, and the end behind it is held back, also when the feed is closed. -/
theorem goingOn_sticks :
    goingOn.request? (.consume 0) = some ⟨{}, 0, atStart⟩ ∧
      Step.asks (.consume 0) = true ∧
      (goingOn.step (.consume 0)).session.reader? 0 = some atEnd ∧
      .piece [] ∈ atStart.readsUntil atEnd ∧
      Along (fun s st => s.Quiet 0 st) (goingOn.step (.consume 0)).session
        [.peek 0, .close 0, .list 0, .scan 0 .number] ∧
      EndSticks (goingOn.step (.consume 0)).session 0
        [.peek 0, .close 0, .list 0, .scan 0 .number] := by
  have hq : goingOn.request? (.consume 0) = some ⟨{}, 0, atStart⟩ := rfl
  have hr : (goingOn.step (.consume 0)).session.reader? 0 = some atEnd := by decide +kernel
  have hend : .piece [] ∈ atStart.readsUntil atEnd := by decide
  have hquiet : Along (fun s st => s.Quiet 0 st) (goingOn.step (.consume 0)).session
      [.peek 0, .close 0, .list 0, .scan 0 .number] :=
    ⟨rfl, trivial, ⟨_, rfl, rfl⟩, ⟨_, rfl, rfl⟩, trivial⟩
  exact ⟨hq, rfl, hr, hend, hquiet, end_sticks hq rfl hr hend _⟩

end Session

end FilterLex
