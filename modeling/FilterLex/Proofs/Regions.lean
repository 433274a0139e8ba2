import Mathlib.Data.Set.Basic
import Mathlib.Logic.Function.Basic
import FilterLex.Proofs.StickyEnd

/-!
# Sessions that agree outside a region

A region is a set of feeds, readers and iterators. Steps that use nothing in a region cannot
tell what is in it: in two sessions that agree outside the region they answer the same, log the
same, and leave sessions that agree outside it. Nor do they change what is in it.

One of the sessions may have iterators that the other lacks, so an iterator may have another
number there.

- `Region`, `Avoids`: what a step uses.
- `Agree`, `Keeps`: two sessions that agree outside a region, and a session that is left as it
  was inside.
- `Onward`: both at once, for each change that a step is made of.
- `step_follows`, `history_follows`: the law for a step, and for steps one after another.
-/

namespace FilterLex.Session

open Lexer

/-! ## Regions -/

structure Region where
  feeds : Set Nat := ∅
  readers : Set Nat := ∅
  iterators : Set Nat := ∅

def Binding.Avoids (D : Region) : Binding → Prop
  | .fresh (.source _) => True
  | .fresh (.feed k) => k ∉ D.feeds
  | .shared j => j ∉ D.readers

def LexerState.Avoids (D : Region) (l : LexerState) : Prop := ∀ j ∈ l.reader, j ∉ D.readers

/-- The lexer with this number, if there is one, is bound to nothing in the region. -/
def LexerAvoids (s : Session) (D : Region) (n : Nat) : Prop := ∀ l ∈ s.lexers[n]?, l.Avoids D

/-- The step uses nothing in the region. What an iterator that is not started uses is what it is
to be bound to. -/
def Avoids (s : Session) (D : Region) : Step → Prop
  | .openReader (.feed k) | .close k | .tell (.feed k) => k ∉ D.feeds
  | .tell (.reader j) | .peek j | .take j => j ∉ D.readers
  | .openLexer (some b) _ _ | .load _ b => b.Avoids D
  | .tell (.lexer n) | .consume n | .list n | .takeRun n _ | .scan n _ => s.LexerAvoids D n
  | .next i => i ∉ D.iterators ∧ ∀ it ∈ s.iterators[i]?,
      match it.phase with
      | .unstarted b => b.Avoids D
      | .running => s.LexerAvoids D it.lexer
      | .finished => True
  | _ => True

/-- The region lies inside the session, and no reader outside is over a feed inside. -/
structure Encloses (D : Region) (s : Session) : Prop where
  feeds : ∀ k ∈ D.feeds, k < s.feeds.size
  readers : ∀ j ∈ D.readers, j < s.readers.size
  apart : ∀ {j : Nat} {x : SharedReader}, s.readers[j]? = some x → j ∉ D.readers →
    x.feed ∉ D.feeds

/-- The sessions agree outside the region. The iterator `i` of the first is the iterator `ρ i` of
the second. -/
structure Agree (D : Region) (ρ : Nat → Nat) (s t : Session) : Prop where
  encloses : Encloses D s
  feedsSize : t.feeds.size = s.feeds.size
  readersSize : t.readers.size = s.readers.size
  feeds : ∀ k ∉ D.feeds, t.feeds[k]? = s.feeds[k]?
  readers : ∀ j ∉ D.readers, t.readers[j]? = s.readers[j]?
  lexers : t.lexers = s.lexers
  iterators : ∀ i ∉ D.iterators, t.iterators[ρ i]? = s.iterators[i]?
  /-- Iterators made later get numbers in the same order. -/
  later : ∀ i, ρ (s.iterators.size + i) = t.iterators.size + i
  injective : Function.Injective ρ

/-- The session `s'` has the same in the region as the session `s`, and no lexer has come to be
bound to something in it. -/
structure Keeps (D : Region) (s s' : Session) : Prop where
  feeds : ∀ k ∈ D.feeds, s'.feeds[k]? = s.feeds[k]?
  readers : ∀ j ∈ D.readers, s'.readers[j]? = s.readers[j]?
  lexers : ∀ {n : Nat} {l : LexerState}, s.lexers[n]? = some l → l.Avoids D →
    ∃ l', s'.lexers[n]? = some l' ∧ l'.Avoids D

/-- On the way from `s` to `s'` the region is left alone, and `s'` agrees with `t'` outside. -/
structure Onward (D : Region) (ρ : Nat → Nat) (s s' t' : Session) : Prop where
  agree : Agree D ρ s' t'
  keeps : Keeps D s s'

section Changes

variable {D : Region} {ρ : Nat → Nat} {s s' s'' t t' t'' : Session} {i j k n : Nat}

theorem Keeps.refl (D : Region) (s : Session) : Keeps D s s :=
  ⟨fun _ _ => rfl, fun _ _ => rfl, fun hl hav => ⟨_, hl, hav⟩⟩

theorem Keeps.trans (h : Keeps D s s') (h' : Keeps D s' s'') : Keeps D s s'' := by
  refine ⟨fun k hk => (h'.feeds k hk).trans (h.feeds k hk),
    fun j hj => (h'.readers j hj).trans (h.readers j hj), fun hl hav => ?_⟩
  obtain ⟨l, hl, hav⟩ := h.lexers hl hav
  exact h'.lexers hl hav

theorem Agree.onward (h : Agree D ρ s t) : Onward D ρ s s t := ⟨h, Keeps.refl D s⟩

theorem Onward.trans (h : Onward D ρ s s' t') (h' : Onward D ρ s' s'' t'') :
    Onward D ρ s s'' t'' := ⟨h'.agree, h.keeps.trans h'.keeps⟩

theorem agree_refl (h : Encloses D s) : Agree D id s s :=
  ⟨h, rfl, rfl, fun _ _ => rfl, fun _ _ => rfl, rfl, fun _ _ => rfl, fun _ => rfl,
    Function.injective_id⟩

theorem Keeps.reader? {x : SharedReader} (h : Keeps D s s') (hj : j ∈ D.readers)
    (hx : s.readers[j]? = some x) (hfeed : x.feed ∈ D.feeds) : s'.reader? j = s.reader? j := by
  unfold Session.reader?
  rw [h.readers j hj, hx]
  simp only [Option.bind_eq_bind, Option.bind_some, h.feeds _ hfeed]

/-! ## The changes that steps are made of -/

theorem getElem?_push_eq {α : Type} {xs ys : Array α} (x : α) (hsize : ys.size = xs.size)
    (h : ys[k]? = xs[k]?) : (ys.push x)[k]? = (xs.push x)[k]? := by
  rw [Array.getElem?_push, Array.getElem?_push, hsize, h]

theorem getElem?_set_eq {α : Type} {xs ys : Array α} (x : α) (hsize : ys.size = xs.size)
    (h : ys[k]? = xs[k]?) : (ys.setIfInBounds j x)[k]? = (xs.setIfInBounds j x)[k]? := by
  rw [Array.getElem?_setIfInBounds, Array.getElem?_setIfInBounds, hsize, h]

theorem onward_pushFeed (h : Agree D ρ s t) (f : Feed) :
    Onward D ρ s { s with feeds := s.feeds.push f } { t with feeds := t.feeds.push f } := by
  constructor
  case agree =>
    refine { h with encloses := ?_, feedsSize := ?_, feeds := ?_ }
    · refine ⟨fun k hk => ?_, h.encloses.readers, h.encloses.apart⟩
      have := h.encloses.feeds k hk
      rw [Array.size_push]
      omega
    · rw [Array.size_push, Array.size_push, h.feedsSize]
    · exact fun k hk => getElem?_push_eq f h.feedsSize (h.feeds k hk)
  case keeps =>
    refine ⟨fun k hk => ?_, fun _ _ => rfl, fun hl hav => ⟨_, hl, hav⟩⟩
    have hlt := h.encloses.feeds k hk
    exact (Array.getElem?_push_lt hlt).trans (Array.getElem?_eq_getElem hlt).symm

theorem onward_pushReader (h : Agree D ρ s t) (hk : k ∉ D.feeds) :
    Onward D ρ s (s.addReader k).2 (t.addReader k).2 := by
  constructor
  case agree =>
    refine { h with encloses := ?_, readersSize := ?_, readers := ?_ }
    · refine ⟨h.encloses.feeds, fun j hj => ?_, ?_⟩
      · have := h.encloses.readers j hj
        show j < (s.readers.push _).size
        rw [Array.size_push]
        omega
      · intro j x hx hj
        rcases eq_or_ne j s.readers.size with rfl | hne
        · cases Array.getElem?_push_size.symm.trans hx
          exact hk
        · have hx : (s.readers.push { feed := k })[j]? = some x := hx
          rw [Array.getElem?_push, if_neg hne] at hx
          exact h.encloses.apart hx hj
    · show (t.readers.push _).size = (s.readers.push _).size
      rw [Array.size_push, Array.size_push, h.readersSize]
    · exact fun j hj => getElem?_push_eq _ h.readersSize (h.readers j hj)
  case keeps =>
    refine ⟨fun _ _ => rfl, fun j hj => ?_, fun hl hav => ⟨_, hl, hav⟩⟩
    have hlt := h.encloses.readers j hj
    exact (Array.getElem?_push_lt hlt).trans (Array.getElem?_eq_getElem hlt).symm

theorem onward_setFeed (h : Agree D ρ s t) (hk : k ∉ D.feeds) (f : Feed) :
    Onward D ρ s { s with feeds := s.feeds.setIfInBounds k f }
      { t with feeds := t.feeds.setIfInBounds k f } := by
  constructor
  case agree =>
    refine { h with encloses := ?_, feedsSize := ?_, feeds := ?_ }
    · refine ⟨fun k' hk' => ?_, h.encloses.readers, h.encloses.apart⟩
      rw [Array.size_setIfInBounds]
      exact h.encloses.feeds k' hk'
    · rw [Array.size_setIfInBounds, Array.size_setIfInBounds, h.feedsSize]
    · exact fun k' hk' => getElem?_set_eq f h.feedsSize (h.feeds k' hk')
  case keeps =>
    refine ⟨fun k' hk' => ?_, fun _ _ => rfl, fun hl hav => ⟨_, hl, hav⟩⟩
    have hne : k ≠ k' := by
      rintro rfl
      exact hk hk'
    exact Array.getElem?_setIfInBounds_ne hne

/-- A reader outside the region is changed, and stays over its feed. -/
theorem onward_setReader {x y : SharedReader} (h : Agree D ρ s t) (hj : j ∉ D.readers)
    (hx : s.readers[j]? = some x) (hfeed : y.feed = x.feed) :
    Onward D ρ s { s with readers := s.readers.setIfInBounds j y }
      { t with readers := t.readers.setIfInBounds j y } := by
  constructor
  case agree =>
    refine { h with encloses := ?_, readersSize := ?_, readers := ?_ }
    · refine ⟨h.encloses.feeds, fun j' hj' => ?_, ?_⟩
      · rw [Array.size_setIfInBounds]
        exact h.encloses.readers j' hj'
      · intro j' z hz hj'
        have hz : (s.readers.setIfInBounds j y)[j']? = some z := hz
        rw [Array.getElem?_setIfInBounds] at hz
        by_cases hsame : j = j'
        · obtain ⟨hlt, -⟩ := Array.getElem?_eq_some_iff.mp hx
          rw [if_pos hsame, if_pos hlt] at hz
          cases hz
          rw [hfeed]
          exact h.encloses.apart hx hj
        · rw [if_neg hsame] at hz
          exact h.encloses.apart hz hj'
    · rw [Array.size_setIfInBounds, Array.size_setIfInBounds, h.readersSize]
    · exact fun j' hj' => getElem?_set_eq y h.readersSize (h.readers j' hj')
  case keeps =>
    refine ⟨fun _ _ => rfl, fun j' hj' => ?_, fun hl hav => ⟨_, hl, hav⟩⟩
    have hne : j ≠ j' := by
      rintro rfl
      exact hj hj'
    exact Array.getElem?_setIfInBounds_ne hne

theorem Agree.reader? (h : Agree D ρ s t) (hj : j ∉ D.readers) : t.reader? j = s.reader? j := by
  unfold Session.reader?
  rw [h.readers j hj]
  cases hx : s.readers[j]? with
  | none => rfl
  | some x =>
      have hfeed := h.feeds x.feed (h.encloses.apart hx hj)
      simp only [Option.bind_eq_bind, Option.bind_some, hfeed]

theorem onward_putReader (h : Agree D ρ s t) (hj : j ∉ D.readers) (r : Reader) :
    Onward D ρ s (s.putReader j r) (t.putReader j r) := by
  unfold putReader
  rw [h.readers j hj]
  cases hx : s.readers[j]? with
  | none => exact h.onward
  | some x =>
      have hset := onward_setReader (y := { x with pending := r.pending }) h hj hx rfl
      exact hset.trans (onward_setFeed hset.agree (h.encloses.apart hx hj) r.feed)

theorem Agree.lexers_change (h : Agree D ρ s t) (change : Array LexerState → Array LexerState) :
    Agree D ρ { s with lexers := change s.lexers } { t with lexers := change t.lexers } :=
  { h with encloses := ⟨h.encloses.feeds, h.encloses.readers, h.encloses.apart⟩
           lexers := congrArg change h.lexers }

theorem onward_pushLexer (h : Agree D ρ s t) (l : LexerState) :
    Onward D ρ s { s with lexers := s.lexers.push l } { t with lexers := t.lexers.push l } :=
  ⟨h.lexers_change (·.push l), fun _ _ => rfl, fun _ _ => rfl,
    fun hl hav => ⟨_, getElem?_push_of_some hl, hav⟩⟩

/-- A lexer is changed, and is not bound to anything in the region by this. -/
theorem onward_setLexer {l l' : LexerState} (h : Agree D ρ s t) (hl : s.lexers[n]? = some l)
    (hav : l.Avoids D → l'.Avoids D) :
    Onward D ρ s { s with lexers := s.lexers.setIfInBounds n l' }
      { t with lexers := t.lexers.setIfInBounds n l' } := by
  refine ⟨h.lexers_change (·.setIfInBounds n l'), fun _ _ => rfl, fun _ _ => rfl, ?_⟩
  intro m k hk hkav
  by_cases hm : n = m
  · subst hm
    cases hl.symm.trans hk
    obtain ⟨hlt, -⟩ := Array.getElem?_eq_some_iff.mp hl
    exact ⟨l', Array.getElem?_setIfInBounds_self_of_lt hlt, hav hkav⟩
  · exact ⟨k, (Array.getElem?_setIfInBounds_ne hm).trans hk, hkav⟩

theorem Agree.size_iterators (h : Agree D ρ s t) : ρ s.iterators.size = t.iterators.size :=
  h.later 0

theorem keeps_iterators (D : Region) (s : Session) (its : Array IteratorState) :
    Keeps D s { s with iterators := its } :=
  ⟨fun _ _ => rfl, fun _ _ => rfl, fun hl hav => ⟨_, hl, hav⟩⟩

theorem onward_pushIterator (h : Agree D ρ s t) (it : IteratorState) :
    Onward D ρ s { s with iterators := s.iterators.push it }
      { t with iterators := t.iterators.push it } := by
  refine ⟨{ h with encloses := ⟨h.encloses.feeds, h.encloses.readers, h.encloses.apart⟩
                   iterators := ?_, later := ?_ }, keeps_iterators D s _⟩
  · intro i hi
    rw [Array.getElem?_push, Array.getElem?_push, ← h.size_iterators]
    by_cases hsize : i = s.iterators.size
    · rw [if_pos hsize, if_pos (congrArg ρ hsize)]
    · rw [if_neg hsize, if_neg fun heq => hsize (h.injective heq)]
      exact h.iterators i hi
  · intro i
    have := h.later (1 + i)
    rw [Array.size_push, Array.size_push, Nat.add_assoc, this]
    omega

theorem onward_setIterator (h : Agree D ρ s t) (hi : i ∉ D.iterators) (it : IteratorState) :
    Onward D ρ s { s with iterators := s.iterators.setIfInBounds i it }
      { t with iterators := t.iterators.setIfInBounds (ρ i) it } := by
  refine ⟨{ h with encloses := ⟨h.encloses.feeds, h.encloses.readers, h.encloses.apart⟩
                   iterators := ?_, later := ?_ }, keeps_iterators D s _⟩
  · intro i' hi'
    rw [Array.getElem?_setIfInBounds, Array.getElem?_setIfInBounds]
    by_cases hsame : i = i'
    · subst hsame
      have hiff : ρ i < t.iterators.size ↔ i < s.iterators.size := by
        rw [← Nat.not_le, ← Nat.not_le, ← Array.getElem?_eq_none_iff,
          ← Array.getElem?_eq_none_iff, h.iterators i hi]
      simp only [if_true, hiff]
    · rw [if_neg hsame, if_neg fun heq => hsame (h.injective heq)]
      exact h.iterators i' hi'
  · intro i
    rw [Array.size_setIfInBounds, Array.size_setIfInBounds]
    exact h.later i

end Changes

/-! ## Actions -/

section Actions

variable {D : Region} {ρ : Nat → Nat} {s t : Session} {i j n : Nat} {l : LexerState}
  {it : IteratorState} {α β : Type}

structure Alike (D : Region) (ρ : Nat → Nat) (s : Session) (x y : α × Session) : Prop where
  value : y.1 = x.1
  onward : Onward D ρ s x.2 y.2

/-- The effects of a step, and of the same step in the other session. Where the step makes an
iterator, its number is another there. -/
def Step.answered (ρ : Nat → Nat) : Step → Answer → Answer
  | .iterate _, .made i | .tokenize _ _, .made i => .made (ρ i)
  | _, a => a

structure Follows (D : Region) (ρ : Nat → Nat) (s : Session) (st : Step) (e e' : Effect) :
    Prop where
  answer : e'.answer = st.answered ρ e.answer
  log : e'.log = e.log
  onward : Onward D ρ s e.session e'.session

theorem rel_bind {γ δ : Type} {r : α → β → Prop} {q : γ → δ → Prop} {x : Option α} {y : Option β}
    {f : α → Option γ} {g : β → Option δ} (h : Option.Rel r x y)
    (hf : ∀ a b, r a b → Option.Rel q (f a) (g b)) : Option.Rel q (x.bind f) (y.bind g) := by
  cases h with
  | some hab => exact hf _ _ hab
  | none => exact .none

theorem rel_imp {r q : α → β → Prop} {x : Option α} {y : Option β} (h : Option.Rel r x y)
    (himp : ∀ a b, r a b → q a b) : Option.Rel q x y := by
  cases h with
  | some hab => exact .some (himp _ _ hab)
  | none => exact .none

theorem Follows.behind {s' t' : Session} {st : Step} {e e' : Effect}
    (h : Follows D ρ s' st e e') (h' : Onward D ρ s s' t') : Follows D ρ s st e e' :=
  ⟨h.answer, h.log, h'.trans h.onward⟩

theorem alike_withReader {ε : Type} (h : Agree D ρ s t) (hj : j ∉ D.readers)
    (act : EStateM ε Reader α) :
    Option.Rel (Alike D ρ s) (s.withReader j act) (t.withReader j act) := by
  unfold withReader
  rw [h.reader? hj]
  cases s.reader? j with
  | none => exact .none
  | some r =>
      rw [Option.map_some, Option.map_some]
      cases act r with
      | ok a r' => exact .some ⟨rfl, onward_putReader h hj r'⟩
      | error e r' => exact .some ⟨rfl, onward_putReader h hj r'⟩

theorem alike_consume (h : Agree D ρ s t) (hl : l.Avoids D) :
    Option.Rel (Alike D ρ s) (s.consume l) (t.consume l) := by
  unfold consume
  cases hreader : l.reader with
  | none => exact .some ⟨rfl, h.onward⟩
  | some j => exact alike_withReader h (hl j hreader) _

theorem alike_run (h : Agree D ρ s t) (hl : l.Avoids D) :
    Option.Rel (Alike D ρ s) (s.run l) (t.run l) := by
  unfold Session.run
  cases hreader : l.reader with
  | none => exact .some ⟨rfl, h.onward⟩
  | some j =>
      have hj := hl j hreader
      simp only [h.reader? hj]
      cases s.reader? j with
      | none => exact .none
      | some r => exact .some ⟨rfl, onward_putReader h hj _⟩

theorem onward_addFeedReader (h : Agree D ρ s t) (r : Reader) :
    (t.addFeedReader r).1 = (s.addFeedReader r).1 ∧ (s.addFeedReader r).1 ∉ D.readers ∧
      Onward D ρ s (s.addFeedReader r).2 (t.addFeedReader r).2 := by
  have hfeed := onward_pushFeed h r.feed
  -- what is new has numbers past all those in the region
  have hsize : s.feeds.size ∉ D.feeds :=
    fun hin => absurd (h.encloses.feeds _ hin) (Nat.lt_irrefl _)
  refine ⟨h.readersSize, fun hin => absurd (h.encloses.readers _ hin) (Nat.lt_irrefl _), ?_⟩
  unfold addFeedReader
  rw [h.feedsSize]
  exact hfeed.trans (onward_pushReader hfeed.agree hsize)

/-- To bind fails for the same reason in both sessions, or leads to the same reader, which is not
in the region. -/
theorem bind_cases {b : Binding} (h : Agree D ρ s t) (hb : b.Avoids D) :
    (∃ e, s.bind b = .error e ∧ t.bind b = .error e) ∨
      ∃ id s' t', s.bind b = .ok (id, s') ∧ t.bind b = .ok (id, t') ∧ id ∉ D.readers ∧
        Onward D ρ s s' t' := by
  cases b with
  | shared j => exact Or.inr ⟨j, s, t, rfl, rfl, hb, h.onward⟩
  | fresh o =>
      cases o with
      | feed k =>
          refine Or.inr ⟨s.readers.size, _, _, rfl, ?_, ?_, onward_pushReader h hb⟩
          · exact congrArg (fun id => Except.ok (id, (t.addReader k).2)) h.readersSize
          · exact fun hin => absurd (h.encloses.readers _ hin) (Nat.lt_irrefl _)
      | source source =>
          have hbind : ∀ u : Session,
              u.bind (.fresh (.source source)) = source.load.map u.addFeedReader := fun _ => rfl
          rw [hbind, hbind]
          cases source.load with
          | error e => exact Or.inl ⟨e, rfl, rfl⟩
          | ok r =>
              obtain ⟨hid, hout, honward⟩ := onward_addFeedReader h r
              refine Or.inr ⟨_, _, _, rfl, ?_, hout, honward⟩
              exact congrArg (fun id => Except.ok (id, (t.addFeedReader r).2)) hid

theorem load_cases {b : Binding} (h : Agree D ρ s t) (hb : b.Avoids D)
    (hl : s.lexers[n]? = some l) :
    (∃ e, s.load n l b = .error e ∧ t.load n l b = .error e) ∨
      ∃ s' t', s.load n l b = .ok s' ∧ t.load n l b = .ok t' ∧ s'.LexerAvoids D n ∧
        Onward D ρ s s' t' := by
  unfold load
  rcases bind_cases h hb with ⟨e, hs, ht⟩ | ⟨id, s', t', hs, ht, hid, honward⟩
  · rw [hs, ht]
    exact Or.inl ⟨e, rfl, rfl⟩
  · rw [hs, ht]
    have hav : ({ l with reader := some id } : LexerState).Avoids D := by
      rintro j ⟨⟩
      exact hid
    rw [← lexers_bind hs] at hl
    refine Or.inr ⟨_, _, rfl, rfl, ?_,
      honward.trans (onward_setLexer honward.agree hl fun _ => hav)⟩
    intro l' hl'
    obtain ⟨hlt, -⟩ := Array.getElem?_eq_some_iff.mp hl
    cases (Array.getElem?_setIfInBounds_self_of_lt hlt).symm.trans hl'
    exact hav

theorem follows_ofConsume {st : Step} {x y : Except Fault Token × Session} (debug : Bool)
    (hst : ∀ a, st.answered ρ a = a) (h : Alike D ρ s x y) :
    Follows D ρ s st (Effect.ofConsume debug x) (Effect.ofConsume debug y) := by
  obtain ⟨result, s'⟩ := x
  obtain ⟨result', t'⟩ := y
  obtain ⟨hvalue, honward⟩ := h
  obtain rfl : result' = result := hvalue
  cases result' <;> exact ⟨(hst _).symm, rfl, honward⟩

theorem follows_advance (h : Agree D ρ s t) (hi : i ∉ D.iterators)
    (hl : s.LexerAvoids D it.lexer) :
    Option.Rel (Follows D ρ s (.next i)) (s.advance i it) (t.advance (ρ i) it) := by
  unfold advance
  rw [h.lexers]
  cases hlexer : s.lexers[it.lexer]? with
  | none => exact .none
  | some l =>
      simp only [Option.bind_eq_bind, Option.bind_some]
      refine rel_bind (alike_consume h (hl l hlexer)) ?_
      rintro ⟨result, s'⟩ ⟨result', t'⟩ ⟨hvalue, honward⟩
      obtain rfl : result' = result := hvalue
      exact .some (follows_ofConsume _ (fun _ => rfl)
        ⟨rfl, honward.trans (onward_setIterator honward.agree hi _)⟩)

theorem follows_next (h : Agree D ρ s t) (hst : s.Avoids D (.next i)) :
    Option.Rel (Follows D ρ s (.next i)) (s.next i) (t.next (ρ i)) := by
  obtain ⟨hi, hphase⟩ := hst
  unfold next
  rw [h.iterators i hi]
  cases hit : s.iterators[i]? with
  | none => exact .none
  | some it =>
      obtain ⟨n, phase⟩ := it
      have huses := hphase _ hit
      cases phase with
      | finished => exact .some ⟨rfl, rfl, h.onward⟩
      | running => exact follows_advance h hi huses
      | unstarted b =>
          have hlexer : t.lexers[n]? = s.lexers[n]? := by rw [h.lexers]
          simp only [Option.bind_eq_bind, Option.bind_some, hlexer]
          cases hl : s.lexers[n]? with
          | none => exact .none
          | some l =>
              simp only [Option.bind_some]
              rcases load_cases h huses hl with ⟨e, hs, ht⟩ | ⟨s', t', hs, ht, hlexer, honward⟩
              · rw [hs, ht]
                exact .some ⟨rfl, rfl, onward_setIterator h hi _⟩
              · -- the lexer is bound first, and to nothing in the region
                rw [hs, ht]
                exact rel_imp (follows_advance honward.agree hi hlexer)
                  fun _ _ hf => hf.behind honward

/-! ## Steps -/

/-- The step in the other session, where iterators may have other numbers. -/
def Step.renumber (ρ : Nat → Nat) : Step → Step
  | .next i => .next (ρ i)
  | st => st

theorem follows_lexer {st : Step} {f g : LexerState → Option Effect} (h : Agree D ρ s t)
    (hf : ∀ l, s.lexers[n]? = some l → Option.Rel (Follows D ρ s st) (f l) (g l)) :
    Option.Rel (Follows D ρ s st) (s.lexers[n]?.bind f) (t.lexers[n]?.bind g) := by
  rw [h.lexers]
  cases hl : s.lexers[n]? with
  | none => exact .none
  | some l => exact hf l hl

theorem follows_read {st : Step} {x y : Option (Except Failure α × Session)} (answer : α → Answer)
    (hst : ∀ a, st.answered ρ a = a) (h : Option.Rel (Alike D ρ s) x y) :
    Option.Rel (Follows D ρ s st)
      (x.bind fun (result, s') => some { answer := .ofRead answer result, session := s' })
      (y.bind fun (result, t') => some { answer := .ofRead answer result, session := t' }) := by
  refine rel_bind h ?_
  rintro ⟨result, s'⟩ ⟨result', t'⟩ ⟨hvalue, honward⟩
  obtain rfl : result' = result := hvalue
  exact .some ⟨(hst _).symm, rfl, honward⟩

theorem feedAt?_eq {p : Place} (h : Agree D ρ s t) (hp : s.Avoids D (.tell p)) :
    t.feedAt? p = s.feedAt? p := by
  cases p with
  | feed k => exact h.feeds k hp
  | reader j => exact congrArg (Option.map (·.feed)) (h.reader? hp)
  | lexer n =>
      unfold feedAt?
      rw [h.lexers]
      cases hl : s.lexers[n]? with
      | none => simp [hl]
      | some l =>
          cases hreader : l.reader with
          | none => simp [hl, hreader]
          | some j => simp [hl, hreader, h.reader? (hp l hl j hreader)]

theorem follows_step? {st : Step} (h : Agree D ρ s t) (hst : s.Avoids D st) :
    Option.Rel (Follows D ρ s st) (s.step? st) (t.step? (st.renumber ρ)) := by
  cases st with
  | openFeed f => exact .some ⟨congrArg Answer.made h.feedsSize, rfl, onward_pushFeed h f⟩
  | openReader o =>
      cases o with
      | feed k => exact .some ⟨congrArg Answer.made h.readersSize, rfl, onward_pushReader h hst⟩
      | source source =>
          simp only [Step.renumber, step?]
          cases source.toReader with
          | error e => exact .some ⟨rfl, rfl, h.onward⟩
          | ok r =>
              obtain ⟨hid, -, honward⟩ := onward_addFeedReader h r
              exact .some ⟨congrArg Answer.made hid, rfl, honward⟩
  | openLexer b options debug =>
      have hsize : Answer.made t.lexers.size = .made s.lexers.size := by rw [h.lexers]
      cases b with
      | none => exact .some ⟨hsize, rfl, onward_pushLexer h _⟩
      | some b =>
          simp only [Step.renumber, step?]
          rcases bind_cases h hst with ⟨e, hs, ht⟩ | ⟨id, s', t', hs, ht, -, honward⟩
          · rw [hs, ht]
            exact .some ⟨rfl, rfl, h.onward⟩
          · rw [hs, ht]
            refine .some ⟨?_, rfl, honward.trans (onward_pushLexer honward.agree _)⟩
            exact congrArg (fun ls => Answer.made ls.size) honward.agree.lexers
  | load n b =>
      refine follows_lexer h fun l hl => ?_
      rcases load_cases h hst hl with ⟨e, hs, ht⟩ | ⟨s', t', hs, ht, -, honward⟩
      · rw [hs, ht]
        exact .some ⟨rfl, rfl, h.onward⟩
      · rw [hs, ht]
        exact .some ⟨rfl, rfl, honward⟩
  | configure n debug strictStrings =>
      refine follows_lexer h fun l hl => ?_
      exact .some ⟨rfl, rfl, onward_setLexer h hl fun hav => hav⟩
  | close k =>
      simp only [Step.renumber, step?, h.feeds k hst]
      cases s.feeds[k]? with
      | none => exact .none
      | some f => exact .some ⟨rfl, rfl, onward_setFeed h hst _⟩
  | tell p =>
      simp only [Step.renumber, step?, feedAt?_eq h hst]
      cases s.feedAt? p with
      | none => exact .none
      | some f =>
          simp only [Option.bind_eq_bind, Option.bind_some]
          cases f.tell <;> exact .some ⟨rfl, rfl, h.onward⟩
  | peek j => exact follows_read Answer.piece (fun _ => rfl) (alike_withReader h hst _)
  | take j => exact follows_read Answer.piece (fun _ => rfl) (alike_withReader h hst _)
  | consume n =>
      refine follows_lexer h fun l hl => ?_
      refine rel_bind (alike_consume h (hst l hl)) fun x y hxy => ?_
      exact .some (follows_ofConsume l.debug (fun _ => rfl) hxy)
  | list n =>
      refine follows_lexer h fun l hl => ?_
      refine rel_bind (alike_run h (hst l hl)) ?_
      rintro ⟨result, s'⟩ ⟨result', t'⟩ ⟨hvalue, honward⟩
      obtain rfl : result' = result := hvalue
      exact .some ⟨rfl, rfl, honward⟩
  | iterate n =>
      exact .some ⟨congrArg Answer.made h.size_iterators.symm, rfl, onward_pushIterator h _⟩
  | tokenize n b =>
      exact .some ⟨congrArg Answer.made h.size_iterators.symm, rfl, onward_pushIterator h _⟩
  | next i => exact follows_next h hst
  | takeRun n accept =>
      refine follows_lexer h fun l hl => ?_
      cases hreader : l.reader with
      | none => exact .none
      | some j =>
          exact follows_read Answer.text (fun _ => rfl) (alike_withReader h (hst l hl j hreader) _)
  | scan n rule =>
      cases rule with
      | eof => exact follows_lexer h fun l _ => .some ⟨rfl, rfl, h.onward⟩
      | _ =>
          refine follows_lexer h fun l hl => ?_
          cases hreader : l.reader with
          | none => exact .none
          | some j =>
              exact follows_read Answer.token (fun _ => rfl)
                (alike_withReader h (hst l hl j hreader) _)
  | report n message =>
      refine follows_lexer h fun l hl => ?_
      exact .some ⟨rfl, rfl, h.onward⟩

/-- **One step.** What uses nothing in the region brings about the same in both sessions, and
leaves the region alone. -/
theorem step_follows {st : Step} (h : Agree D ρ s t) (hst : s.Avoids D st) :
    Follows D ρ s st (s.step st) (t.step (st.renumber ρ)) := by
  have hrel := follows_step? h hst
  unfold step
  generalize s.step? st = x at hrel ⊢
  generalize t.step? (st.renumber ρ) = y at hrel ⊢
  cases hrel with
  | some hfollows => exact hfollows
  | none => exact ⟨by cases st <;> rfl, rfl, h.onward⟩

end Actions

/-! ## Steps one after another -/

section Histories

variable {D : Region} {ρ : Nat → Nat} {s t : Session} {sts : List Step}

def told (events : List (Step × Effect)) : List (Answer × List String) :=
  events.map fun d => (d.2.answer, d.2.log)

def toldAs (ρ : Nat → Nat) (events : List (Step × Effect)) : List (Answer × List String) :=
  events.map fun d => (d.1.answered ρ d.2.answer, d.2.log)

abbrev AvoidsAll (s : Session) (D : Region) (sts : List Step) : Prop :=
  s.Along (fun u st => u.Avoids D st) sts

/-- **Steps one after another.** As long as they use nothing in the region, they bring about the
same in both sessions, and leave the region alone. -/
theorem history_follows (h : Agree D ρ s t) (hsts : s.AvoidsAll D sts) :
    told (t.history (sts.map (·.renumber ρ))) = toldAs ρ (s.history sts) ∧
      Onward D ρ s (s.after sts) (t.after (sts.map (·.renumber ρ))) := by
  induction sts generalizing s t with
  | nil => exact ⟨rfl, h.onward⟩
  | cons st sts ih =>
      obtain ⟨hst, hlater⟩ := hsts
      have hstep := step_follows h hst
      obtain ⟨htold, honward⟩ := ih hstep.onward.agree hlater
      refine ⟨?_, hstep.onward.trans honward⟩
      show ((t.step _).answer, (t.step _).log) :: told _ =
        (st.answered ρ (s.step st).answer, (s.step st).log) :: toldAs ρ _
      rw [hstep.answer, hstep.log, htold]

theorem renumber_id (st : Step) : st.renumber id = st := by
  cases st <;> rfl

theorem answered_id (st : Step) (a : Answer) : st.answered id a = a := by
  cases st <;> cases a <;> rfl

/-- The same where all iterators have the same number in both sessions. -/
theorem history_same (h : Agree D id s t) (hsts : s.AvoidsAll D sts) :
    told (t.history sts) = told (s.history sts) ∧
      Onward D id s (s.after sts) (t.after sts) := by
  have hsame : ∀ events, toldAs id events = told events :=
    fun events => List.map_congr_left fun d _ => by rw [answered_id]
  have hfollows := history_follows h hsts
  simpa only [renumber_id, List.map_id', hsame] using hfollows

end Histories

end FilterLex.Session
