import FilterLex.Proofs.Loading

/-!
# Binding a lexer again

Once a lexer is bound, the source that it had before plays no part any more: what it was bound to
makes no difference to any later step, and the iterators that were running go on with the new
source. The old source plays no part until it is asked for again, and is then found as it was
left.

- `Binds`, `sourceOf?`: the steps that bind a lexer, and to what.
- `AgreeBut`, `history_bound`: a step that binds a lexer makes up for all differences in what the
  lexer was bound to.
- `AskedAt`, `Switches`: the lexer and its iterators ask the new source.
- `Spares`, `after_spares`: what all steps spare is left as it was.
- `LoadContract`, `load_contract`: all of this for a lexer of a session.
-/

namespace FilterLex.Session

open Lexer

variable {D : Region} {s t u : Session} {n i j : Nat} {rd : Option Nat} {l : LexerState}
  {b : Binding} {r : Reader} {st : Step} {sts : List Step} {q : Request}

/-! ## Steps that bind -/

/-- The step binds the lexer: a load, or the first step of an iterator that is to bind it. -/
inductive Binds (s : Session) (n : Nat) (b : Binding) : Step → Prop
  | load : Binds s n b (.load n b)
  | next {i : Nat} (hit : s.iterators[i]? = some { lexer := n, phase := .unstarted b }) :
      Binds s n b (.next i)

/-- The reader that a lexer comes to ask when it is bound to this. -/
def sourceOf? (s : Session) : Binding → Option Reader
  | .fresh (.source source) => source.load.toOption
  | .fresh (.feed k) => s.feeds[k]?.map fun f => { feed := f }
  | .shared j => s.reader? j

theorem bind_source (h : s.sourceOf? b = some r) :
    ∃ j u, s.bind b = .ok (j, u) ∧ u.reader? j = some r := by
  cases b with
  | shared j => exact ⟨j, s, rfl, h⟩
  | fresh o =>
      cases o with
      | feed k =>
          obtain ⟨f, hf, rfl⟩ := Option.map_eq_some_iff.mp h
          exact ⟨_, _, rfl, reader?_eq_some.mpr ⟨{ feed := k }, Array.getElem?_push_size, hf, rfl⟩⟩
      | source source =>
          cases source with
          | nothing => cases h
          | foreign t => cases h
          | feed f =>
              cases h
              exact ⟨_, _, rfl, reader?_eq_some.mpr
                ⟨{ feed := s.feeds.size }, Array.getElem?_push_size, Array.getElem?_push_size, rfl⟩⟩

/-- The session as it is when the lexer is bound to a reader. -/
theorem load_of_bind (hl : s.lexers[n]? = some l) (hb : s.bind b = .ok (j, u))
    (hr : u.reader? j = some r) :
    ∃ v, s.load n l b = .ok v ∧ v.lexers[n]? = some { l with reader := some j } ∧
      v.reader? j = some r := by
  refine ⟨{ u with lexers := u.lexers.setIfInBounds n { l with reader := some j } }, ?_, ?_, hr⟩
  · unfold load
    rw [hb]
    rfl
  · rw [← lexers_bind hb] at hl
    obtain ⟨hlt, -⟩ := Array.getElem?_eq_some_iff.mp hl
    exact Array.getElem?_setIfInBounds_self_of_lt hlt

theorem step_load_of_ok (hl : s.lexers[n]? = some l) (h : s.load n l b = .ok u) :
    s.step (.load n b) = { answer := .done, session := u } := by
  unfold step step?
  simp [hl, h]

theorem ready?_of_load (hl : s.lexers[n]? = some l) (h : s.load n l b = .ok u) :
    s.ready? { lexer := n, phase := .unstarted b } = some u := by
  unfold ready?
  simp [hl, h, Except.toOption]

/-! ## What the lexer was bound to -/

def bound (s : Session) (n : Nat) (rd : Option Nat) : Session :=
  { s with lexers := s.lexers.modify n fun l => { l with reader := rd } }

theorem setIfInBounds_modify {α : Type} (xs : Array α) (f : α → α) (x : α) :
    (xs.modify n f).setIfInBounds n x = xs.setIfInBounds n x := by
  apply Array.ext_getElem?
  intro k
  rw [Array.getElem?_setIfInBounds, Array.getElem?_setIfInBounds, Array.size_modify]
  by_cases hk : n = k
  · rw [if_pos hk, if_pos hk]
  · rw [if_neg hk, if_neg hk, Array.getElem?_modify, if_neg hk]

theorem lexers_bound (hl : s.lexers[n]? = some l) (rd : Option Nat) :
    (s.bound n rd).lexers[n]? = some { l with reader := rd } := by
  show (s.lexers.modify n _)[n]? = _
  rw [Array.getElem?_modify, if_pos rfl, hl]
  rfl

theorem exists_of_lexers_bound (h : (s.bound n rd).lexers[n]? = some l) :
    ∃ l', s.lexers[n]? = some l' := by
  cases hl : s.lexers[n]? with
  | some l' => exact ⟨l', rfl⟩
  | none =>
      have hnone : (s.lexers.modify n fun l => { l with reader := rd })[n]? = none := by
        rw [Array.getElem?_modify, if_pos rfl, hl]
        rfl
      cases hnone.symm.trans h

theorem bind_bound (s : Session) (n : Nat) (rd : Option Nat) (b : Binding) :
    (s.bound n rd).bind b = (s.bind b).map fun x => (x.1, x.2.bound n rd) := by
  cases b with
  | shared j => rfl
  | fresh o =>
      cases o with
      | feed k => rfl
      | source source => cases source <;> rfl

theorem load_bound (s : Session) (n : Nat) (l : LexerState) (rd : Option Nat) (b : Binding) :
    (s.bound n rd).load n { l with reader := rd } b = s.load n l b := by
  unfold load
  rw [bind_bound]
  cases s.bind b with
  | error e => rfl
  | ok x =>
      obtain ⟨j, u⟩ := x
      exact congrArg (fun ls => Except.ok { u with lexers := ls })
        (setIfInBounds_modify u.lexers _ { l with reader := some j })

theorem step_bound (hl : s.lexers[n]? = some l) (hst : s.Binds n b st)
    (hb : s.sourceOf? b = some r) (rd : Option Nat) : (s.bound n rd).step st = s.step st := by
  obtain ⟨j, u, hbind, hr⟩ := bind_source hb
  obtain ⟨v, hload, hlexer, hr⟩ := load_of_bind hl hbind hr
  have hbound : (s.bound n rd).load n { l with reader := rd } b = .ok v :=
    (load_bound s n l rd b).trans hload
  cases hst with
  | load => rw [step_load_of_ok hl hload, step_load_of_ok (lexers_bound hl rd) hbound]
  | next hit =>
      have hit' : (s.bound n rd).iterators[_]? = _ := hit
      have hq := lexerRequest?_of_reader (l := { l with reader := some j }) rfl hr
      rw [step_next hit (ready?_of_load hl hload) hlexer hq,
        step_next hit' (ready?_of_load (lexers_bound hl rd) hbound) hlexer hq]

/-- The sessions agree outside the region, but for what the lexer is bound to. -/
def AgreeBut (D : Region) (n : Nat) (s t : Session) : Prop := ∃ rd, Agree D id s (t.bound n rd)

theorem Agree.sourceOf? {ρ : Nat → Nat} (h : Agree D ρ s t) (hb : b.Avoids D) :
    t.sourceOf? b = s.sourceOf? b := by
  cases b with
  | shared j => exact h.reader? hb
  | fresh o =>
      cases o with
      | feed k => exact congrArg (Option.map fun f => ({ feed := f } : Reader)) (h.feeds k hb)
      | source source => rfl

theorem sourceOf?_bound (s : Session) (n : Nat) (rd : Option Nat) (b : Binding) :
    (s.bound n rd).sourceOf? b = s.sourceOf? b := by
  cases b with
  | shared j => rfl
  | fresh o => cases o <;> rfl

theorem Binds.avoids (hst : s.Binds n b st) (havoids : s.Avoids D st) : b.Avoids D := by
  cases hst with
  | load => exact havoids
  | next hit => exact havoids.2 _ hit

theorem AgreeBut.binds (h : AgreeBut D n s t) (hst : s.Binds n b st) (havoids : s.Avoids D st) :
    t.Binds n b st := by
  obtain ⟨rd, hagree⟩ := h
  cases hst with
  | load => exact .load
  | next hit => exact .next ((hagree.iterators _ havoids.1).trans hit)

/-- **What the lexer was bound to is forgotten.** The sessions may have different things in the
region, and the lexer may be bound to any of them, or to nothing. -/
theorem history_bound (h : AgreeBut D n s t) (hl : s.lexers[n]? = some l) (hst : s.Binds n b st)
    (hb : s.sourceOf? b = some r) (havoids : s.AvoidsAll D (st :: sts)) :
    told (t.history (st :: sts)) = told (s.history (st :: sts)) ∧
      Onward D id s (s.after (st :: sts)) (t.after (st :: sts)) := by
  have hst' := h.binds hst havoids.1
  obtain ⟨rd, hagree⟩ := h
  have hb' : t.sourceOf? b = some r := by
    rw [← sourceOf?_bound t n rd, hagree.sourceOf? (hst.avoids havoids.1), hb]
  obtain ⟨l', hl'⟩ := exists_of_lexers_bound ((congrArg (·[n]?) hagree.lexers).trans hl)
  have hstep := step_bound hl' hst' hb' rd
  have hsame := history_same hagree havoids
  -- `hsame` is about `t` with the lexer bound as in `s`, and the first step makes up for that
  have hhistory : (t.bound n rd).history (st :: sts) = t.history (st :: sts) := by
    rw [history_cons, history_cons, hstep]
  have hafter : (t.bound n rd).after (st :: sts) = t.after (st :: sts) := by
    rw [after_cons, after_cons, hstep]
  rwa [hhistory, hafter] at hsame

/-! ## The new source -/

/-- The step that binds, seen from the lexer and its reader. -/
theorem step_binds (hl : s.lexers[n]? = some l) (hst : s.Binds n b st)
    (hbind : s.bind b = .ok (j, u)) (hr : u.reader? j = some r) :
    (s.step st).session.lexers[n]? = some { l with reader := some j } ∧
      (s.step st).session.reader? j = some (st.leaves l.options r) := by
  obtain ⟨v, hload, hlexer, hr⟩ := load_of_bind hl hbind hr
  cases hst with
  | load =>
      rw [step_load_of_ok hl hload]
      exact ⟨hlexer, hr⟩
  | next hit =>
      rw [step_next hit (ready?_of_load hl hload) hlexer (lexerRequest?_of_reader rfl hr),
        session_ofConsume]
      refine ⟨?_, reader?_putReader hr⟩
      show (v.putReader _ _).lexers[n]? = _
      rw [lexers_putReader]
      exact hlexer

/-- The step comes down to calls on this reader. -/
def Asks (s : Session) (q : Request) (st : Step) : Prop :=
  s.request? st = some q ∧ Answered q st (s.step st)

/-- The lexer asks this reader, and so do the iterators of it that are running. -/
structure AskedAt (s : Session) (n : Nat) (q : Request) : Prop where
  consume : s.Asks q (.consume n)
  list : s.Asks q (.list n)
  next : ∀ {i : Nat}, s.iterators[i]? = some { lexer := n, phase := .running } →
    s.Asks q (.next i)

theorem asks_of_request (hst : st.delivers = true) (h : s.request? st = some q) : s.Asks q st :=
  ⟨h, answered hst h⟩

theorem askedAt_of_lexer (hl : s.lexers[n]? = some l) (hq : s.lexerRequest? l = some q) :
    s.AskedAt n q := by
  have hlexer : (s.lexers[n]?.bind fun l => s.lexerRequest? l) = some q := by
    rw [hl]
    exact hq
  refine ⟨asks_of_request rfl hlexer, asks_of_request rfl hlexer, fun hit => ?_⟩
  refine asks_of_request rfl ?_
  unfold request?
  simp [hit, ready?, hl, hq]

/-- As long as the lexer is not bound again, it asks the same reader. -/
theorem askedAt_after (h : s.AskedAt n q)
    (hsts : s.Along (fun u st => u.rebinds? st ≠ some n) sts) :
    ∃ q', q'.id = q.id ∧ (s.after sts).AskedAt n q' := by
  obtain ⟨l, hl, hlq⟩ := request_of_lexer h.consume.1
  obtain ⟨hreader, hr, -⟩ := lexerRequest?_eq_some hlq
  -- what every step keeps: the lexer is bound to the reader, and the reader is there
  have hstart : s.BoundTo q.id n ∧ ∃ r, s.reader? q.id = some r := ⟨⟨l, hl, hreader⟩, _, hr⟩
  obtain ⟨⟨l', hl', hreader'⟩, r', hr'⟩ :=
    hsts.after (I := fun u => u.BoundTo q.id n ∧ ∃ r, u.reader? q.id = some r)
      (fun hu hne => ⟨boundTo_of_rebinds hu.1 hne, reader?_step hu.2.choose_spec⟩) hstart
  exact ⟨⟨l'.options, q.id, r'⟩, rfl, askedAt_of_lexer hl' (lexerRequest?_of_reader hreader' hr')⟩

/-- The step makes the lexer ask a reader, and the iterators that are running go on with it. -/
structure Switches (s : Session) (n : Nat) (st : Step) (q : Request) : Prop where
  asked : (s.step st).session.AskedAt n q
  /-- Other iterators are as far as they were. -/
  iterators : ∀ {i : Nat} {it : IteratorState}, s.iterators[i]? = some it → st ≠ .next i →
    (s.step st).session.iterators[i]? = some it
  /-- It stays so until the lexer is bound again. -/
  stays : ∀ {sts : List Step},
    (s.step st).session.Along (fun u st => u.rebinds? st ≠ some n) sts →
      ∃ q', q'.id = q.id ∧ (s.after (st :: sts)).AskedAt n q'

/-- **A step that binds a lexer switches it over.** -/
theorem switches_of_bind (hl : s.lexers[n]? = some l) (hst : s.Binds n b st)
    (hbind : s.bind b = .ok (j, u)) (hr : u.reader? j = some r) :
    s.Switches n st ⟨l.options, j, st.leaves l.options r⟩ := by
  obtain ⟨hlexer, hreader⟩ := step_binds hl hst hbind hr
  have hasked := askedAt_of_lexer hlexer (lexerRequest?_of_reader rfl hreader)
  exact ⟨hasked, iterators_step, askedAt_after hasked⟩

/-! ## What is left alone -/

/-- The step uses nothing in the region, or only asks for a position. -/
def Spares (s : Session) (D : Region) (st : Step) : Prop := s.Avoids D st ∨ ∃ p, st = .tell p

theorem session_step_tell (s : Session) (p : Place) : (s.step (.tell p)).session = s := by
  unfold step
  simp only [step?]
  cases s.feedAt? p with
  | none => rfl
  | some f =>
      simp only [Option.bind_eq_bind, Option.bind_some]
      cases f.tell <;> rfl

theorem step_spares (h : Encloses D s) (hst : s.Spares D st) :
    Encloses D (s.step st).session ∧ Keeps D s (s.step st).session := by
  rcases hst with hst | ⟨p, rfl⟩
  · have hstep := step_follows (agree_refl h) hst
    exact ⟨hstep.onward.agree.encloses, hstep.onward.keeps⟩
  · rw [session_step_tell]
    exact ⟨h, Keeps.refl D s⟩

/-- **What all steps spare is left as it was.** -/
theorem after_spares (h : Encloses D s) (hsts : s.Along (fun u st => u.Spares D st) sts) :
    Keeps D s (s.after sts) := by
  refine (hsts.after (I := fun u => Encloses D u ∧ Keeps D s u) ?_ ⟨h, Keeps.refl D s⟩).2
  intro u st hu hst
  obtain ⟨hencloses, hkeeps⟩ := step_spares hu.1 hst
  exact ⟨hencloses, hu.2.trans hkeeps⟩

/-! ## The contract -/

/-- Once it is bound outside a region, a lexer stays outside, as long as steps avoid the region. -/
theorem lexers_after_avoid (h : Encloses D s) (hl : s.lexers[n]? = some l)
    (hst : s.Binds n b st) (hb : s.sourceOf? b = some r) (havoids : s.AvoidsAll D (st :: sts)) :
    ∃ l', (s.after (st :: sts)).lexers[n]? = some l' ∧ l'.Avoids D := by
  obtain ⟨j, u, hbind, hr⟩ := bind_source hb
  obtain ⟨hlexer, -⟩ := step_binds hl hst hbind hr
  have hj : j ∉ D.readers := by
    rcases bind_cases (agree_refl h) (hst.avoids havoids.1) with
      ⟨e, he, -⟩ | ⟨id, u', -, hid, -, hout, -⟩
    · cases hbind.symm.trans he
    · cases hbind.symm.trans hid
      exact hout
  have hencloses := (step_spares h (Or.inl havoids.1)).1
  refine (after_spares hencloses (havoids.2.imp Or.inl)).lexers hlexer ?_
  rintro k ⟨⟩
  exact hj

/-- What loading a lexer and iterating over it do, and what they leave alone. -/
structure LoadContract (s : Session) (n : Nat) (l : LexerState) : Prop where
  /-- A load that is rejected might as well not have been made. -/
  rejected : ∀ {b : Binding} {e : LoadError}, b.Rejects e → ∀ sts : List Step,
    s.history (.load n b :: sts) =
      (.load n b, { answer := .error (.rejected e), session := s }) :: s.history sts
  /-- An iterator whose source is rejected is finished. -/
  rejectedNext : ∀ {b : Binding} {e : LoadError} {i : Nat}, b.Rejects e →
    s.iterators[i]? = some { lexer := n, phase := .unstarted b } →
      s.step (.next i) = { answer := .error (.rejected e), session := s.finishing i n } ∧
        ∀ sts, FinishedIn s (s.finishing i n) i sts
  /-- To make an iterator binds nothing and reads nothing, whatever it is to be bound to. -/
  made : ∀ {st : Step} {it : IteratorState}, st.Makes n it →
    s.step st = { answer := .made s.iterators.size, session := s.withIterator it } ∧
      ∀ sts, s.MadeIn it sts
  /-- What is not rejected is loaded, as it is. -/
  loaded : ∀ {b : Binding} {r : Reader}, s.sourceOf? b = some r →
    ∃ j u, s.step (.load n b) = { answer := .done, session := u } ∧
      s.Switches n (.load n b) ⟨l.options, j, r⟩
  /-- The first step of an iterator loads what the iterator was made with, and asks. -/
  started : ∀ {b : Binding} {r : Reader} {i : Nat}, s.sourceOf? b = some r →
    s.iterators[i]? = some { lexer := n, phase := .unstarted b } →
      ∃ j, s.Asks ⟨l.options, j, r⟩ (.next i) ∧
        s.Switches n (.next i) ⟨l.options, j, (ask l.options r).2⟩
  /-- The old source is forgotten. It may be any region that the new source is not in. -/
  forgets : ∀ {D : Region} {t : Session} {b : Binding} {r : Reader} {st : Step} {sts : List Step},
    AgreeBut D n s t → s.Binds n b st → s.sourceOf? b = some r → s.AvoidsAll D (st :: sts) →
      told (t.history (st :: sts)) = told (s.history (st :: sts)) ∧
        Agree D id (s.after (st :: sts)) (t.after (st :: sts)) ∧
        ∃ l', (s.after (st :: sts)).lexers[n]? = some l' ∧ l'.Avoids D
  /-- A reader that is spared holds back what it did. If its feed is spared as well, the lexer
  goes on from where the reader was left. -/
  resumes : ∀ {D : Region} {j : Nat} {x : SharedReader} {sts : List Step}, Encloses D s →
    j ∈ D.readers → s.readers[j]? = some x → s.Along (fun u st => u.Spares D st) sts →
      (s.after sts).readers[j]? = some x ∧
        ∀ {l' : LexerState} {r : Reader}, (s.after sts).lexers[n]? = some l' →
          x.feed ∈ D.feeds → s.reader? j = some r →
            (s.after sts).Switches n (.load n (.shared j)) ⟨l'.options, j, r⟩

/-- **All or nothing, and not before it is needed.** -/
theorem load_contract (hl : s.lexers[n]? = some l) : s.LoadContract n l := by
  constructor
  case rejected =>
    intro b e h sts
    rw [history_cons, step_load_rejected hl h]
  case rejectedNext =>
    exact fun h hit => ⟨step_next_rejected hl h hit, finishing_finishedIn hit n⟩
  case made => exact fun h => ⟨step_makes h, history_made s _⟩
  case loaded =>
    intro b r hb
    obtain ⟨j, u, hbind, hr⟩ := bind_source hb
    obtain ⟨v, hload, -⟩ := load_of_bind hl hbind hr
    exact ⟨j, v, step_load_of_ok hl hload, switches_of_bind hl .load hbind hr⟩
  case started =>
    intro b r i hb hit
    obtain ⟨j, u, hbind, hr⟩ := bind_source hb
    refine ⟨j, asks_of_request rfl ?_, switches_of_bind hl (.next hit) hbind hr⟩
    obtain ⟨v, hload, hlexer, hr⟩ := load_of_bind hl hbind hr
    unfold request?
    simp [hit, ready?_of_load hl hload, hlexer,
      lexerRequest?_of_reader (l := { l with reader := some j }) rfl hr]
  case forgets =>
    intro D t b r st sts h hst hb havoids
    obtain ⟨htold, honward⟩ := history_bound h hl hst hb havoids
    obtain ⟨rd, hagree⟩ := h
    exact ⟨htold, honward.agree, lexers_after_avoid hagree.encloses hl hst hb havoids⟩
  case resumes =>
    intro D j x sts hD hj hx hsts
    have hkeeps := after_spares hD hsts
    refine ⟨(hkeeps.readers j hj).trans hx, fun hl' hfeed hr => ?_⟩
    have hr' := (hkeeps.reader? hj hx hfeed).trans hr
    exact switches_of_bind hl' .load rfl hr'

/-- A lexer amid its input, with a piece held back. Of its iterators one is running, one is yet to
bind it to nothing, and one to another feed. -/
def amid : Session :=
  { feeds := #[Feed.ofChars ['b'], Feed.ofChars ['1', ' ', '2']]
    readers := #[{ feed := 0, pending := some ['a'] }]
    lexers := #[{ reader := some 0 }]
    iterators := #[{ lexer := 0, phase := .running },
      { lexer := 0, phase := .unstarted (.fresh (.source .nothing)) },
      { lexer := 0, phase := .unstarted (.fresh (.feed 1)) }] }

def amidUnbound : Session :=
  { amid with
    feeds := #[Feed.ofChars ['c'], Feed.ofChars ['1', ' ', '2']]
    readers := #[{ feed := 0 }]
    lexers := #[{}] }

def oldSource : Region := { feeds := {0}, readers := {0} }

theorem amid_encloses : Encloses oldSource amid := by
  constructor
  case feeds =>
    rintro k rfl
    decide
  case readers =>
    rintro j rfl
    decide
  case apart =>
    intro j x hx hj
    have hsome : j < amid.readers.size := (Array.getElem?_eq_some_iff.mp hx).1
    have hj : j ≠ 0 := hj
    have hsize : amid.readers.size = 1 := rfl
    omega

theorem amid_agreeBut : AgreeBut oldSource 0 amid amidUnbound := by
  refine ⟨some 0, amid_encloses, rfl, rfl, ?_, ?_, rfl, fun _ _ => rfl, fun _ => rfl,
    Function.injective_id⟩
  · intro k hk
    cases k with
    | zero => exact absurd rfl hk
    | succ k => rfl
  · intro j hj
    cases j with
    | zero => exact absurd rfl hj
    | succ j => rfl

/-- The iterator that binds the lexer to the other feed may come, and then the one that was running
before. -/
theorem amid_avoidsAll : amid.AvoidsAll oldSource [.next 2, .next 0] := by
  have hout : 1 ∉ ({0} : Set Nat) := Nat.one_ne_zero
  have hlexer : (amid.step (.next 2)).session.lexers[0]? = some { reader := some 1 } := by
    decide +kernel
  have hrunning : (amid.step (.next 2)).session.iterators[0]? =
      some { lexer := 0, phase := .running } := by
    decide +kernel
  refine ⟨⟨Set.notMem_empty 2, ?_⟩, ⟨Set.notMem_empty 0, ?_⟩, trivial⟩
  · rintro it ⟨⟩
    exact hout
  · intro it hit
    cases hrunning.symm.trans hit
    intro l hl
    cases hlexer.symm.trans hl
    rintro j ⟨⟩
    exact hout

/-- The iterators are told the same, whatever the lexer was bound to; and when it is bound to its
old reader again, that reader still holds back its piece. -/
theorem amid_contract :
    amid.lexers[0]? = some { reader := some 0 } ∧ amid.LoadContract 0 { reader := some 0 } ∧
      told (amidUnbound.history [.next 2, .next 0]) = told (amid.history [.next 2, .next 0]) ∧
      (amid.after [.next 2, .next 0]).readers[0]? = some { feed := 0, pending := some ['a'] } ∧
      amid.step (.next 1) =
        { answer := .error (.rejected .noSource), session := amid.finishing 1 0 } := by
  have hl : amid.lexers[0]? = some { reader := some 0 } := rfl
  have hcontract := load_contract hl
  have hsource : amid.sourceOf? (.fresh (.feed 1)) =
      some { feed := Feed.ofChars ['1', ' ', '2'] } := rfl
  obtain ⟨htold, -, -⟩ :=
    hcontract.forgets amid_agreeBut (.next rfl) hsource amid_avoidsAll
  obtain ⟨hkept, -⟩ :=
    hcontract.resumes amid_encloses rfl rfl (amid_avoidsAll.imp Or.inl)
  exact ⟨hl, hcontract, htold, hkept, (hcontract.rejectedNext .nothing rfl).1⟩

end FilterLex.Session
