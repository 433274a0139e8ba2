import FilterLex.Proofs.Requests

/-!
# What a step leaves alone

A step of a session acts on one reader at most. What it does besides is done aside: objects
are added, settings and phases change, a feed is closed, one lexer at most is bound to
another reader, and one iterator at most comes on. Nothing of this touches a reader or reads
a feed.

- `Aside`: changes that touch no reader, and no lexer and iterator but those they are about.
- `Through`, `Step.leaves`: the reader that a step acts on, and how it leaves it.
- `Parts`, `step_parts`: each step is made of these.
- `iterators_step`: a step that is not the iterator's own leaves it as it is.
- `reader?_step`: readers stay.
-/

namespace FilterLex

/-- The reader as an action leaves it, be it with a failure. -/
def Reader.left {ε α : Type} (act : EStateM ε Reader α) (r : Reader) : Reader :=
  match act r with
  | .ok _ s => s
  | .error _ s => s

namespace Session

open Lexer

variable {s t u : Session} {n i id : Nat} {r : Reader} {l : LexerState} {it : IteratorState}
  {st : Step}

def BoundTo (s : Session) (rd n : Nat) : Prop :=
  ∃ l, s.lexers[n]? = some l ∧ l.reader = some rd

/-! ## Readers and their feeds -/

theorem getElem?_push_of_some {α : Type} {xs : Array α} {x y : α} (h : xs[i]? = some x) :
    (xs.push y)[i]? = some x := by
  obtain ⟨hi, rfl⟩ := Array.getElem?_eq_some_iff.mp h
  exact Array.getElem?_push_lt hi

theorem setIfInBounds_of_some {α : Type} {xs : Array α} {x : α} (h : xs[i]? = some x) :
    xs.setIfInBounds i x = xs := by
  obtain ⟨hi, rfl⟩ := Array.getElem?_eq_some_iff.mp h
  rw [Array.setIfInBounds_def, dif_pos hi, Array.set_getElem_self]

theorem reader?_eq_some : s.reader? id = some r ↔ ∃ x, s.readers[id]? = some x ∧
    s.feeds[x.feed]? = some r.feed ∧ x.pending = r.pending := by
  unfold reader?
  constructor
  · intro h
    obtain ⟨x, hx, h⟩ := Option.bind_eq_some_iff.mp h
    obtain ⟨f, hf, h⟩ := Option.bind_eq_some_iff.mp h
    cases h
    exact ⟨x, hx, hf, rfl⟩
  · rintro ⟨x, hx, hf, hp⟩
    simp [hx, hf, hp]

theorem putReader_self (h : s.reader? id = some r) : s.putReader id r = s := by
  obtain ⟨x, hx, hf, hp⟩ := reader?_eq_some.mp h
  unfold putReader
  rw [hx, ← hp]
  show { s with
    readers := s.readers.setIfInBounds id x
    feeds := s.feeds.setIfInBounds x.feed r.feed } = s
  rw [setIfInBounds_of_some hx, setIfInBounds_of_some hf]

/-- Another reader holds back what it did. -/
theorem reader?_putReader_ne {other : Nat} (r' : Reader) (hne : other ≠ id)
    (h : s.reader? id = some r) :
    ∃ r'', (s.putReader other r').reader? id = some r'' ∧ r''.pending = r.pending := by
  obtain ⟨x, hx, hf, hp⟩ := reader?_eq_some.mp h
  unfold putReader
  cases hother : s.readers[other]? with
  | none => exact ⟨r, h, rfl⟩
  | some y =>
      -- the feed may be shared, and then it has been put back as well
      obtain ⟨f, hfeed⟩ : ∃ f, (s.feeds.setIfInBounds y.feed r'.feed)[x.feed]? = some f := by
        obtain ⟨hlt, -⟩ := Array.getElem?_eq_some_iff.mp hf
        exact ⟨_, Array.getElem?_eq_getElem (by rwa [Array.size_setIfInBounds])⟩
      refine ⟨⟨f, r.pending⟩, reader?_eq_some.mpr ⟨x, ?_, hfeed, hp⟩, rfl⟩
      rw [Array.getElem?_setIfInBounds_ne hne]
      exact hx

theorem exists_reader?_putReader {other : Nat} (r' : Reader) (h : s.reader? id = some r) :
    ∃ r'', (s.putReader other r').reader? id = some r'' := by
  by_cases hid : other = id
  · subst hid
    exact ⟨r', reader?_putReader h⟩
  · obtain ⟨r'', hr'', -⟩ := reader?_putReader_ne r' hid h
    exact ⟨r'', hr''⟩

/-! ## Changes aside -/

structure Subject where
  lexer : Option Nat := none
  iterator : Option Nat := none

variable {subject : Subject}

/-- The changes from `s` to `t` touch no reader and read no feed. No lexer is bound to another
reader and no iterator comes on, except perhaps those that the changes are about. -/
structure Aside (subject : Subject) (s t : Session) : Prop where
  readers : ∀ {id : Nat} {x : SharedReader}, s.readers[id]? = some x → t.readers[id]? = some x
  feeds : ∀ {k : Nat} {f : Feed}, s.feeds[k]? = some f →
    ∃ f', t.feeds[k]? = some f' ∧ f'.reads = f.reads
  lexers : ∀ {n : Nat} {l : LexerState}, s.lexers[n]? = some l → subject.lexer ≠ some n →
    ∃ l', t.lexers[n]? = some l' ∧ l'.reader = l.reader
  iterators : ∀ {i : Nat} {it : IteratorState}, s.iterators[i]? = some it →
    subject.iterator ≠ some i → t.iterators[i]? = some it

theorem Aside.refl (subject : Subject) (s : Session) : Aside subject s s :=
  ⟨fun h => h, fun h => ⟨_, h, rfl⟩, fun h _ => ⟨_, h, rfl⟩, fun h _ => h⟩

theorem Aside.trans (h : Aside subject s t) (h' : Aside subject t u) : Aside subject s u := by
  constructor
  case readers => exact fun hx => h'.readers (h.readers hx)
  case feeds =>
    intro k f hf
    obtain ⟨f', hf', hreads⟩ := h.feeds hf
    obtain ⟨f'', hf'', hreads'⟩ := h'.feeds hf'
    exact ⟨f'', hf'', hreads'.trans hreads⟩
  case lexers =>
    intro n l hl hne
    obtain ⟨l', hl', hreader⟩ := h.lexers hl hne
    obtain ⟨l'', hl'', hreader'⟩ := h'.lexers hl' hne
    exact ⟨l'', hl'', hreader'.trans hreader⟩
  case iterators => exact fun hit hne => h'.iterators (h.iterators hit hne) hne

theorem Aside.boundTo (h : Aside subject s t) (hne : subject.lexer ≠ some n)
    (hb : s.BoundTo id n) : t.BoundTo id n := by
  obtain ⟨l, hl, hreader⟩ := hb
  obtain ⟨l', hl', hsame⟩ := h.lexers hl hne
  exact ⟨l', hl', hsame.trans hreader⟩

/-- Beside a reader nothing is done to what it holds back. -/
theorem Aside.reader? (h : Aside subject s t) (hr : s.reader? id = some r) :
    ∃ r', t.reader? id = some r' ∧ r'.pending = r.pending := by
  obtain ⟨x, hx, hf, hpending⟩ := reader?_eq_some.mp hr
  obtain ⟨f, hf', -⟩ := h.feeds hf
  exact ⟨⟨f, r.pending⟩, reader?_eq_some.mpr ⟨x, h.readers hx, hf', hpending⟩, rfl⟩

theorem aside_pushFeed (subject : Subject) (s : Session) (f : Feed) :
    Aside subject s { s with feeds := s.feeds.push f } :=
  ⟨fun h => h, fun h => ⟨_, getElem?_push_of_some h, rfl⟩, fun h _ => ⟨_, h, rfl⟩, fun h _ => h⟩

theorem aside_pushReader (subject : Subject) (s : Session) (x : SharedReader) :
    Aside subject s { s with readers := s.readers.push x } :=
  ⟨getElem?_push_of_some, fun h => ⟨_, h, rfl⟩, fun h _ => ⟨_, h, rfl⟩, fun h _ => h⟩

theorem aside_pushLexer (subject : Subject) (s : Session) (l : LexerState) :
    Aside subject s { s with lexers := s.lexers.push l } :=
  ⟨fun h => h, fun h => ⟨_, h, rfl⟩, fun h _ => ⟨_, getElem?_push_of_some h, rfl⟩, fun h _ => h⟩

theorem aside_pushIterator (subject : Subject) (s : Session) (it : IteratorState) :
    Aside subject s { s with iterators := s.iterators.push it } :=
  ⟨fun h => h, fun h => ⟨_, h, rfl⟩, fun h _ => ⟨_, h, rfl⟩, fun h _ => getElem?_push_of_some h⟩

/-- A lexer is changed: it keeps its reader, or it is the one that may be bound again. -/
theorem aside_setLexer {l' : LexerState} (hl : s.lexers[n]? = some l)
    (hsame : l'.reader = l.reader ∨ subject.lexer = some n) :
    Aside subject s { s with lexers := s.lexers.setIfInBounds n l' } := by
  refine ⟨fun h => h, fun h => ⟨_, h, rfl⟩, ?_, fun h _ => h⟩
  intro m k hk hne
  by_cases hm : n = m
  · subst hm
    cases hl.symm.trans hk
    obtain ⟨hlt, -⟩ := Array.getElem?_eq_some_iff.mp hl
    exact ⟨l', Array.getElem?_setIfInBounds_self_of_lt hlt, hsame.resolve_right hne⟩
  · refine ⟨k, ?_, rfl⟩
    show (s.lexers.setIfInBounds n l')[m]? = some k
    rw [Array.getElem?_setIfInBounds_ne hm]
    exact hk

theorem aside_setIterator (s : Session) (it : IteratorState)
    (hsubject : subject.iterator = some i) :
    Aside subject s { s with iterators := s.iterators.setIfInBounds i it } := by
  refine ⟨fun h => h, fun h => ⟨_, h, rfl⟩, fun h _ => ⟨_, h, rfl⟩, ?_⟩
  intro j it' hit' hne
  have hj : i ≠ j := by
    rintro rfl
    exact hne hsubject
  show (s.iterators.setIfInBounds i it)[j]? = some it'
  rw [Array.getElem?_setIfInBounds_ne hj]
  exact hit'

theorem aside_close {f : Feed} (hf : s.feeds[n]? = some f) :
    Aside subject s { s with feeds := s.feeds.setIfInBounds n f.close } := by
  refine ⟨fun h => h, ?_, fun h _ => ⟨_, h, rfl⟩, fun h _ => h⟩
  intro k g hg
  by_cases hk : n = k
  · subst hk
    cases hf.symm.trans hg
    obtain ⟨hlt, -⟩ := Array.getElem?_eq_some_iff.mp hf
    exact ⟨f.close, Array.getElem?_setIfInBounds_self_of_lt hlt, rfl⟩
  · refine ⟨g, ?_, rfl⟩
    show (s.feeds.setIfInBounds n f.close)[k]? = some g
    rw [Array.getElem?_setIfInBounds_ne hk]
    exact hg

/-! ## Binding -/

/-- What it takes to bind: nothing, a reader, or a feed and a reader. -/
theorem bind_eq_ok {b : Binding} (h : s.bind b = .ok (id, t)) :
    t = s ∨ (∃ k, t = (s.addReader k).2) ∨ ∃ r, t = (s.addFeedReader r).2 := by
  cases b with
  | shared reader =>
      cases h
      exact Or.inl rfl
  | fresh o =>
      cases o with
      | feed k =>
          cases h
          exact Or.inr (Or.inl ⟨k, rfl⟩)
      | source source =>
          simp only [bind] at h
          cases hload : source.load with
          | error e =>
              rw [hload] at h
              cases h
          | ok r =>
              rw [hload] at h
              cases h
              exact Or.inr (Or.inr ⟨r, rfl⟩)

theorem load_eq_ok {b : Binding} (h : s.load n l b = .ok t) :
    ∃ id u, s.bind b = .ok (id, u) ∧
      t = { u with lexers := u.lexers.setIfInBounds n { l with reader := some id } } := by
  unfold load at h
  cases hb : s.bind b with
  | error e =>
      rw [hb] at h
      cases h
  | ok bound =>
      obtain ⟨id, u⟩ := bound
      rw [hb] at h
      cases h
      exact ⟨id, u, rfl, rfl⟩

theorem aside_bind {b : Binding} (h : s.bind b = .ok (id, t)) : Aside subject s t := by
  rcases bind_eq_ok h with rfl | ⟨k, rfl⟩ | ⟨q, rfl⟩
  · exact Aside.refl subject _
  · exact aside_pushReader subject s _
  · exact (aside_pushFeed subject s q.feed).trans (aside_pushReader subject _ _)

theorem lexers_bind {b : Binding} (h : s.bind b = .ok (id, t)) : t.lexers = s.lexers := by
  rcases bind_eq_ok h with rfl | ⟨k, rfl⟩ | ⟨q, rfl⟩ <;> rfl

theorem aside_load {b : Binding} (hl : s.lexers[n]? = some l) (h : s.load n l b = .ok t)
    (hsubject : subject.lexer = some n) : Aside subject s t := by
  obtain ⟨id, u, hb, rfl⟩ := load_eq_ok h
  rw [← lexers_bind hb] at hl
  exact (aside_bind hb).trans (aside_setLexer hl (Or.inr hsubject))

theorem iterators_load {b : Binding} (h : s.load n l b = .ok t) : t.iterators = s.iterators := by
  obtain ⟨id, u, hb, rfl⟩ := load_eq_ok h
  rcases bind_eq_ok hb with rfl | ⟨k, rfl⟩ | ⟨q, rfl⟩ <;> rfl

/-! ## Acting on a reader -/

/-- The step acts on the reader, if it acts on one. -/
def Through (s : Session) (id : Nat) : Step → Prop
  | .peek n | .take n => n = id
  | .consume n | .list n | .takeRun n _ | .scan n _ => s.BoundTo id n
  | .next i => ∃ it, s.iterators[i]? = some it ∧ s.BoundTo id it.lexer
  | _ => False

/-- The reader as a step leaves it that acts on it with the given options. -/
def Step.leaves (o : Options) : Step → Reader → Reader
  | .peek _, r => r.left Reader.peek
  | .take _, r => r.left Reader.take
  | .consume _, r | .next _, r => (ask o r).2
  | .list _, r => (Lexer.run o r).reader
  | .takeRun _ accept, r => r.left (Reader.takeRun accept)
  | .scan _ rule, r => r.left (scanWith o rule)
  | _, r => r

def Step.iterator? : Step → Option Nat
  | .next i => some i
  | _ => none

theorem Step.iterator?_eq_some : st.iterator? = some i ↔ st = .next i := by
  cases st <;> simp [Step.iterator?]

def rebinds? (s : Session) : Step → Option Nat
  | .load n _ => some n
  | .next i => do
      let it ← s.iterators[i]?
      match it.phase with
      | .unstarted _ => some it.lexer
      | _ => none
  | _ => none

def subjectOf (s : Session) (st : Step) : Subject :=
  { lexer := s.rebinds? st, iterator := st.iterator? }

/-- What a step is made of: changes aside, and it may be one action on a reader. Before the
action there are only the changes of a lexer that is bound first, and after it no lexer is
bound. -/
inductive Parts (s : Session) (st : Step) : Session → Prop
  | aside {t : Session} (h : Aside (s.subjectOf st) s t) : Parts s st t
  | through {t u : Session} {id : Nat} {r : Reader} {o : Options}
      (hbefore : Aside (s.subjectOf st) s t) (hsame : s.rebinds? st = none → t = s)
      (hst : t.Through id st) (hr : t.reader? id = some r)
      (hafter : Aside { iterator := st.iterator? } (t.putReader id (st.leaves o r)) u) :
      Parts s st u

theorem Parts.act {o : Options} (hst : s.Through id st) (hr : s.reader? id = some r) :
    Parts s st (s.putReader id (st.leaves o r)) :=
  .through (Aside.refl _ s) (fun _ => rfl) hst hr (Aside.refl _ _)

theorem withReader_eq_some {ε α : Type} {act : EStateM ε Reader α} {res : Except ε α}
    (h : s.withReader id act = some (res, t)) :
    ∃ r, s.reader? id = some r ∧ t = s.putReader id (r.left act) := by
  obtain ⟨r, hr, h⟩ := Option.map_eq_some_iff.mp h
  refine ⟨r, hr, ?_⟩
  unfold Reader.left
  cases hact : act r with
  | ok a q =>
      rw [hact] at h
      cases h
      rfl
  | error e q =>
      rw [hact] at h
      cases h
      rfl

theorem left_consume (o : Options) (r : Reader) : r.left (Lexer.consume o) = (ask o r).2 := by
  unfold Reader.left ask
  cases Lexer.consume o r <;> rfl

/-- What it takes for a lexer to be asked for a token: nothing, or a call on its reader. -/
theorem consume_eq_some {d : Delivery} (hl : s.lexers[n]? = some l)
    (h : s.consume l = some (d, t)) :
    t = s ∨ ∃ id r, s.BoundTo id n ∧ s.reader? id = some r ∧
      t = s.putReader id (ask l.options r).2 := by
  unfold consume at h
  cases hreader : l.reader with
  | none =>
      rw [hreader] at h
      cases h
      exact Or.inl rfl
  | some id =>
      rw [hreader] at h
      obtain ⟨r, hr, rfl⟩ := withReader_eq_some h
      rw [left_consume]
      exact Or.inr ⟨id, r, ⟨l, hl, hreader⟩, hr, rfl⟩

theorem run_eq_some {ts : List Token × Option Fault} (hl : s.lexers[n]? = some l)
    (h : s.run l = some (ts, t)) :
    t = s ∨ ∃ id r, s.BoundTo id n ∧ s.reader? id = some r ∧
      t = s.putReader id (Lexer.run l.options r).reader := by
  unfold run at h
  cases hreader : l.reader with
  | none =>
      rw [hreader] at h
      cases h
      exact Or.inl rfl
  | some id =>
      rw [hreader] at h
      obtain ⟨r, hr, h⟩ := Option.map_eq_some_iff.mp h
      cases h
      exact Or.inr ⟨id, r, ⟨l, hl, hreader⟩, hr, rfl⟩

theorem iterators_consume {d : Delivery} (hl : s.lexers[n]? = some l)
    (h : s.consume l = some (d, t)) : t.iterators = s.iterators := by
  rcases consume_eq_some hl h with rfl | ⟨id, r, -, -, rfl⟩
  · rfl
  · exact iterators_putReader s id _

/-! ## The parts of a step -/

/-- An iterator that asks its lexer, in the session that it is ready in. -/
theorem advance_parts {e : Effect}
    (hbefore : Aside (s.subjectOf (.next i)) s t) (hsame : s.rebinds? (.next i) = none → t = s)
    (hit : t.iterators[i]? = some it) (h : t.advance i it = some e) :
    Parts s (.next i) e.session := by
  obtain ⟨l, hl, h'⟩ := Option.bind_eq_some_iff.mp h
  obtain ⟨⟨d, u⟩, hconsume, -⟩ := Option.bind_eq_some_iff.mp h'
  rw [advance_of_consume hl hconsume] at h
  cases h
  rw [session_ofConsume]
  rcases consume_eq_some hl hconsume with rfl | ⟨id, r, hbound, hr, rfl⟩
  · exact .aside (hbefore.trans (aside_setIterator _ _ rfl))
  · exact .through hbefore hsame ⟨it, hit, hbound⟩ hr (aside_setIterator _ _ rfl)

theorem next_parts {e : Effect} (h : s.next i = some e) : Parts s (.next i) e.session := by
  obtain ⟨it, hit, h⟩ := Option.bind_eq_some_iff.mp h
  cases hphase : it.phase with
  | finished =>
      rw [hphase] at h
      cases h
      exact .aside (Aside.refl _ s)
  | running =>
      rw [hphase] at h
      exact advance_parts (Aside.refl _ s) (fun _ => rfl) hit h
  | unstarted b =>
      have hrebinds : s.rebinds? (.next i) = some it.lexer := by
        unfold rebinds?
        simp [hit, hphase]
      rw [hphase] at h
      obtain ⟨l, hl, h⟩ := Option.bind_eq_some_iff.mp h
      split at h
      case h_1 t hload =>
        refine advance_parts (aside_load hl hload hrebinds) ?_ ?_ h
        · rw [hrebinds]
          rintro ⟨⟩
        · rw [iterators_load hload]
          exact hit
      case h_2 =>
        cases h
        exact .aside (aside_setIterator s _ rfl)

theorem openReader_parts {o : Origin} {e : Effect} (h : s.step? (.openReader o) = some e) :
    Parts s (.openReader o) e.session := by
  cases o with
  | feed k =>
      cases h
      exact .aside (aside_pushReader _ s _)
  | source source =>
      simp only [step?] at h
      split at h
      case h_1 q _ =>
        cases h
        exact .aside ((aside_pushFeed _ s q.feed).trans (aside_pushReader _ _ _))
      case h_2 =>
        cases h
        exact .aside (Aside.refl _ s)

theorem openLexer_parts {b : Option Binding} {o : Options} {debug : Bool} {e : Effect}
    (h : s.step? (.openLexer b o debug) = some e) : Parts s (.openLexer b o debug) e.session := by
  cases b with
  | none =>
      cases h
      exact .aside (aside_pushLexer _ s _)
  | some b =>
      simp only [step?] at h
      split at h
      case h_1 id t hb =>
        cases h
        exact .aside ((aside_bind hb).trans (aside_pushLexer _ t _))
      case h_2 =>
        cases h
        exact .aside (Aside.refl _ s)

theorem load_parts {b : Binding} {e : Effect} (h : s.step? (.load n b) = some e) :
    Parts s (.load n b) e.session := by
  obtain ⟨l, hl, h⟩ := Option.bind_eq_some_iff.mp h
  split at h
  case h_1 t hload =>
    cases h
    exact .aside (aside_load hl hload rfl)
  case h_2 =>
    cases h
    exact .aside (Aside.refl _ s)

theorem tell_parts {place : Place} {e : Effect} (h : s.step? (.tell place) = some e) :
    Parts s (.tell place) e.session := by
  obtain ⟨f, -, h⟩ := Option.bind_eq_some_iff.mp h
  split at h
  · cases h
    exact .aside (Aside.refl _ s)
  · cases h
    exact .aside (Aside.refl _ s)

theorem consume_parts {e : Effect} (h : s.step? (.consume n) = some e) :
    Parts s (.consume n) e.session := by
  obtain ⟨l, hl, h⟩ := Option.bind_eq_some_iff.mp h
  obtain ⟨⟨d, t⟩, hconsume, h⟩ := Option.bind_eq_some_iff.mp h
  cases h
  rw [session_ofConsume]
  rcases consume_eq_some hl hconsume with rfl | ⟨id, r, hbound, hr, rfl⟩
  · exact .aside (Aside.refl _ _)
  · exact Parts.act hbound hr

theorem list_parts {e : Effect} (h : s.step? (.list n) = some e) :
    Parts s (.list n) e.session := by
  obtain ⟨l, hl, h⟩ := Option.bind_eq_some_iff.mp h
  obtain ⟨⟨ts, t⟩, hrun, h⟩ := Option.bind_eq_some_iff.mp h
  cases h
  rcases run_eq_some hl hrun with rfl | ⟨id, r, hbound, hr, rfl⟩
  · exact .aside (Aside.refl _ _)
  · exact Parts.act hbound hr

theorem parts_of_withReader {α : Type} {act : EStateM Failure Reader α} {answer : α → Answer}
    {o : Options} {e : Effect} (hst : s.Through id st) (hact : ∀ r, st.leaves o r = r.left act)
    (h : (do
      let (result, t) ← s.withReader id act
      return { answer := .ofRead answer result, session := t }) = some e) :
    Parts s st e.session := by
  obtain ⟨⟨result, t⟩, hread, h⟩ := Option.bind_eq_some_iff.mp h
  cases h
  obtain ⟨r, hr, rfl⟩ := withReader_eq_some hread
  rw [← hact]
  exact Parts.act hst hr

/-- A step of the lexer `n` that only acts on its reader. -/
theorem parts_of_lexer {α : Type} {act : Options → EStateM Failure Reader α}
    {answer : α → Answer} {e : Effect} (hst : ∀ id, s.BoundTo id n → s.Through id st)
    (hact : ∀ o r, st.leaves o r = r.left (act o))
    (h : (do
      let l ← s.lexers[n]?
      let (result, t) ← s.withReader (← l.reader) (act l.options)
      return { answer := .ofRead answer result, session := t }) = some e) :
    Parts s st e.session := by
  obtain ⟨l, hl, h⟩ := Option.bind_eq_some_iff.mp h
  obtain ⟨id, hid, h⟩ := Option.bind_eq_some_iff.mp h
  exact parts_of_withReader (hst id ⟨l, hl, hid⟩) (hact l.options) h

theorem scan_parts {rule : ScanRule} {e : Effect} (h : s.step? (.scan n rule) = some e) :
    Parts s (.scan n rule) e.session := by
  cases rule with
  | eof =>
      obtain ⟨l, -, h⟩ := Option.bind_eq_some_iff.mp h
      cases h
      exact .aside (Aside.refl _ s)
  | _ => exact parts_of_lexer (fun _ => id) (fun _ _ => rfl) h

theorem step?_parts {e : Effect} (h : s.step? st = some e) : Parts s st e.session := by
  cases st with
  | openFeed f =>
      cases h
      exact .aside (aside_pushFeed _ s f)
  | openReader o => exact openReader_parts h
  | openLexer b options debug => exact openLexer_parts h
  | load n b => exact load_parts h
  | configure n debug strictStrings =>
      obtain ⟨l, hl, h⟩ := Option.bind_eq_some_iff.mp h
      cases h
      exact .aside (aside_setLexer hl (Or.inl rfl))
  | close n =>
      obtain ⟨f, hf, h⟩ := Option.bind_eq_some_iff.mp h
      cases h
      exact .aside (aside_close hf)
  | tell place => exact tell_parts h
  | peek id => exact parts_of_withReader (o := {}) rfl (fun _ => rfl) h
  | take id => exact parts_of_withReader (o := {}) rfl (fun _ => rfl) h
  | consume n => exact consume_parts h
  | list n => exact list_parts h
  | iterate n =>
      cases h
      exact .aside (aside_pushIterator _ s _)
  | tokenize n b =>
      cases h
      exact .aside (aside_pushIterator _ s _)
  | next i => exact next_parts h
  | takeRun n accept => exact parts_of_lexer (fun _ => id) (fun _ _ => rfl) h
  | scan n rule => exact scan_parts h
  | report n message =>
      obtain ⟨l, -, h⟩ := Option.bind_eq_some_iff.mp h
      cases h
      exact .aside (Aside.refl _ s)

/-- **What a step is made of.** -/
theorem step_parts (s : Session) (st : Step) : Parts s st (s.step st).session := by
  unfold step
  cases hs : s.step? st with
  | none => exact .aside (Aside.refl _ s)
  | some e => exact step?_parts hs

/-- A step that is not the iterator's own leaves it as it is. -/
theorem iterators_step (hit : s.iterators[i]? = some it) (hst : st ≠ .next i) :
    (s.step st).session.iterators[i]? = some it := by
  have hother : st.iterator? ≠ some i := fun h => hst (Step.iterator?_eq_some.mp h)
  cases step_parts s st with
  | aside h => exact h.iterators hit hother
  | @through t u id r o hbefore hsame hthrough hr hafter =>
      refine hafter.iterators ?_ hother
      rw [iterators_putReader]
      exact hbefore.iterators hit hother

theorem reader?_step (h : s.reader? id = some r) :
    ∃ r', (s.step st).session.reader? id = some r' := by
  cases step_parts s st with
  | aside haside =>
      obtain ⟨r', hr', -⟩ := haside.reader? h
      exact ⟨r', hr'⟩
  | @through t u other q o hbefore hsame hthrough hq hafter =>
      obtain ⟨r₁, hr₁, -⟩ := hbefore.reader? h
      obtain ⟨r₂, hr₂⟩ := exists_reader?_putReader (st.leaves o q) hr₁
      obtain ⟨r₃, hr₃, -⟩ := hafter.reader? hr₂
      exact ⟨r₃, hr₃⟩

end Session

end FilterLex
