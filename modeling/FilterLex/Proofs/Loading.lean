import FilterLex.Proofs.Iteration
import FilterLex.Proofs.Regions

/-!
# What is rejected, and what is made

To bind a lexer to a source that cannot be read changes nothing, and neither does it to make an
iterator: an iterator that is to bind its lexer does so in its first step only. Where that fails
the iterator is finished, and nothing else has changed.

- `Binding.Rejects`, `load_eq_error`: what a lexer cannot be bound to.
- `step_load_rejected`, `step_next_rejected`: the two steps that try to.
- `FinishedIn`, `history_finished`: other steps cannot tell that an iterator is finished.
- `Step.Makes`, `history_made`: an iterator that is made waits, and other steps cannot tell, but
  for its number.
-/

namespace FilterLex.Session

open Lexer

variable {D : Region} {s t : Session} {n i : Nat} {l : LexerState} {b : Binding}
  {it : IteratorState} {e : LoadError} {st : Step} {sts : List Step}

/-! ## What is rejected -/

/-- A lexer cannot be bound to it, for this reason. -/
inductive Binding.Rejects : Binding → LoadError → Prop
  | nothing : Rejects (.fresh (.source .nothing)) .noSource
  | foreign (t : ForeignType) : Rejects (.fresh (.source (.foreign t))) (.notReadable t)

/-- Binding fails for what is rejected, and for nothing else. -/
theorem load_eq_error : s.load n l b = .error e ↔ b.Rejects e := by
  constructor
  · intro h
    cases b with
    | shared j => cases h
    | fresh o =>
        cases o with
        | feed k => cases h
        | source source =>
            cases source with
            | nothing => cases h; exact .nothing
            | foreign t => cases h; exact .foreign t
            | feed f => cases h
  · rintro (_ | _) <;> rfl

theorem step_load_rejected (hl : s.lexers[n]? = some l) (h : b.Rejects e) :
    s.step (.load n b) = { answer := .error (.rejected e), session := s } := by
  unfold step step?
  simp [hl, load_eq_error.mpr h]

def finishing (s : Session) (i n : Nat) : Session :=
  { s with iterators := s.iterators.setIfInBounds i { lexer := n, phase := .finished } }

theorem step_next_rejected (hl : s.lexers[n]? = some l) (h : b.Rejects e)
    (hit : s.iterators[i]? = some { lexer := n, phase := .unstarted b }) :
    s.step (.next i) = { answer := .error (.rejected e), session := s.finishing i n } := by
  unfold step step? next
  simp [hit, hl, load_eq_error.mpr h, finishing]

/-! ## Regions without feeds and readers -/

theorem encloses_of_empty (hfeeds : D.feeds = ∅) (hreaders : D.readers = ∅) : Encloses D s := by
  constructor
  case feeds => simp [hfeeds]
  case readers => simp [hreaders]
  case apart => simp [hfeeds]

theorem Binding.avoids_of_empty (hfeeds : D.feeds = ∅) (hreaders : D.readers = ∅)
    (b : Binding) : b.Avoids D := by
  cases b with
  | shared j => simp [Binding.Avoids, hreaders]
  | fresh o => cases o <;> simp [Binding.Avoids, hfeeds]

theorem lexerAvoids_of_empty (hreaders : D.readers = ∅) (s : Session) (n : Nat) :
    s.LexerAvoids D n := by
  intro l _ j _
  simp [hreaders]

/-- A region of iterators alone is avoided by all steps but theirs. -/
theorem avoids_of_empty (hfeeds : D.feeds = ∅) (hreaders : D.readers = ∅)
    (hst : ∀ i ∈ D.iterators, st ≠ .next i) : s.Avoids D st := by
  have hbinding := Binding.avoids_of_empty hfeeds hreaders
  have hlexer := lexerAvoids_of_empty hreaders s
  cases st with
  | next i =>
      refine ⟨fun hi => hst i hi rfl, fun it _ => ?_⟩
      split
      · exact hbinding _
      · exact hlexer _
      · trivial
  | openReader o => cases o <;> simp [Avoids, hfeeds]
  | openLexer b options debug =>
      cases b with
      | none => trivial
      | some b => exact hbinding b
  | load n b => exact hbinding b
  | close k => simp [Avoids, hfeeds]
  | tell p =>
      cases p with
      | feed k => simp [Avoids, hfeeds]
      | reader j => simp [Avoids, hreaders]
      | lexer n => exact hlexer n
  | peek j => simp [Avoids, hreaders]
  | take j => simp [Avoids, hreaders]
  | consume n => exact hlexer n
  | list n => exact hlexer n
  | takeRun n accept => exact hlexer n
  | scan n rule => exact hlexer n
  | _ => trivial

/-! ## An iterator that is finished -/

/-- The steps in the session `t`, where the iterator is finished, beside the steps other than its
own in the session `s`. -/
structure FinishedIn (s t : Session) (i : Nat) (sts : List Step) : Prop where
  own : ∀ d ∈ t.history sts, d.1 = .next i → d.2.answer = .finished ∧ d.2.log = []
  others : told ((t.history sts).filter fun d => d.1.iterator? ≠ some i) =
    told (s.history (sts.filter (·.iterator? ≠ some i)))
  agree : Agree { iterators := {i} } id (s.after (sts.filter (·.iterator? ≠ some i)))
    (t.after sts)

/-- **An iterator that is finished is no one else's concern.** -/
theorem history_finished (h : Agree { iterators := {i} } id s t)
    (hit : t.iterators[i]? = some it) (hphase : it.phase = .finished) (sts : List Step) :
    FinishedIn s t i sts := by
  induction sts generalizing s t with
  | nil => exact ⟨by simp [history], rfl, h⟩
  | cons st sts ih =>
      by_cases hst : st = .next i
      · subst hst
        obtain ⟨hown, hothers, hagree⟩ := ih h hit
        have hfilter : (Step.next i :: sts).filter (·.iterator? ≠ some i) =
            sts.filter (·.iterator? ≠ some i) :=
          List.filter_cons_of_neg (by simp [Step.iterator?])
        have hstep := step_finished hit hphase
        refine ⟨?_, ?_, ?_⟩
        · rw [history_cons, hstep, List.forall_mem_cons]
          exact ⟨fun _ => ⟨rfl, rfl⟩, hown⟩
        · rw [history_cons, hstep, hfilter, List.filter_cons_of_neg (by simp [Step.iterator?])]
          exact hothers
        · rw [after_cons, hstep, hfilter]
          exact hagree
      · -- any other step is made in both sessions
        have havoids : s.Avoids { iterators := {i} } st := by
          refine avoids_of_empty rfl rfl ?_
          rintro j rfl
          exact hst
        have hstep := step_follows h havoids
        rw [renumber_id] at hstep
        obtain ⟨hown, hothers, hagree⟩ := ih hstep.onward.agree (iterators_step hit hst)
        have hother : st.iterator? ≠ some i := fun heq => hst (Step.iterator?_eq_some.mp heq)
        have hfilter : (st :: sts).filter (·.iterator? ≠ some i) =
            st :: sts.filter (·.iterator? ≠ some i) :=
          List.filter_cons_of_pos (by simpa using hother)
        refine ⟨?_, ?_, ?_⟩
        · rw [history_cons, List.forall_mem_cons]
          exact ⟨fun heq => absurd heq hst, hown⟩
        · rw [history_cons, hfilter, List.filter_cons_of_pos (by simpa using hother)]
          show ((t.step st).answer, (t.step st).log) :: told _ =
            ((s.step st).answer, (s.step st).log) :: told _
          rw [hstep.answer, hstep.log, answered_id, hothers]
        · rw [after_cons, hfilter, after_cons]
          exact hagree

theorem agree_finishing (s : Session) (i n : Nat) :
    Agree { iterators := {i} } id s (s.finishing i n) := by
  constructor
  case encloses => exact encloses_of_empty rfl rfl
  case feedsSize => rfl
  case readersSize => rfl
  case feeds => exact fun _ _ => rfl
  case readers => exact fun _ _ => rfl
  case lexers => rfl
  case iterators => exact fun j hj => Array.getElem?_setIfInBounds_ne (Ne.symm hj)
  case later =>
    intro j
    show s.iterators.size + j = (s.iterators.setIfInBounds i _).size + j
    rw [Array.size_setIfInBounds]
  case injective => exact Function.injective_id

/-- Whether the iterator has been finished makes no difference to other steps. -/
theorem finishing_finishedIn (hit : s.iterators[i]? = some it) (n : Nat) (sts : List Step) :
    FinishedIn s (s.finishing i n) i sts := by
  obtain ⟨hi, -⟩ := Array.getElem?_eq_some_iff.mp hit
  exact history_finished (agree_finishing s i n) (Array.getElem?_setIfInBounds_self_of_lt hi)
    rfl sts

/-! ## An iterator that is made -/

inductive Step.Makes (n : Nat) : Step → IteratorState → Prop
  | iterate : Makes n (.iterate n) { lexer := n, phase := .running }
  | tokenize (b : Binding) : Makes n (.tokenize n b) { lexer := n, phase := .unstarted b }

def withIterator (s : Session) (it : IteratorState) : Session :=
  { s with iterators := s.iterators.push it }

theorem step_makes (h : st.Makes n it) :
    s.step st = { answer := .made s.iterators.size, session := s.withIterator it } := by
  cases h <;> rfl

/-- The numbers of other iterators beside the one with the number `m`. -/
def skip (m i : Nat) : Nat := if i < m then i else i + 1

theorem skip_injective (m : Nat) : Function.Injective (skip m) := by
  intro i j h
  unfold skip at h
  split at h <;> split at h <;> omega

theorem agree_withIterator (s : Session) (it : IteratorState) :
    Agree {} (skip s.iterators.size) s (s.withIterator it) := by
  constructor
  case encloses => exact encloses_of_empty rfl rfl
  case feedsSize => rfl
  case readersSize => rfl
  case feeds => exact fun _ _ => rfl
  case readers => exact fun _ _ => rfl
  case lexers => rfl
  case iterators =>
    intro i _
    show (s.iterators.push it)[skip s.iterators.size i]? = s.iterators[i]?
    unfold skip
    split
    case isTrue hlt => rw [Array.getElem?_push_lt hlt, Array.getElem?_eq_getElem hlt]
    case isFalse hge =>
      rw [Array.getElem?_eq_none (by rw [Array.size_push]; omega),
        Array.getElem?_eq_none (by omega)]
  case later =>
    intro i
    show skip s.iterators.size (s.iterators.size + i) = (s.iterators.push it).size + i
    rw [Array.size_push, skip, if_neg (by omega)]
    omega
  case injective => exact skip_injective _

theorem avoidsAll_empty (s : Session) (sts : List Step) : s.AvoidsAll {} sts := by
  induction sts generalizing s with
  | nil => trivial
  | cons st sts ih => exact ⟨avoids_of_empty rfl rfl (by simp), ih _⟩

/-- An iterator stays as it is until it is asked. -/
theorem iterators_after (hit : s.iterators[i]? = some it) (hsts : ∀ st ∈ sts, st ≠ .next i) :
    (s.after sts).iterators[i]? = some it := by
  induction sts generalizing s with
  | nil => exact hit
  | cons st sts ih =>
      obtain ⟨hst, hlater⟩ := List.forall_mem_cons.mp hsts
      exact ih (iterators_step hit hst) hlater

theorem renumber_skip_ne (m : Nat) (st : Step) : st.renumber (skip m) ≠ .next m := by
  have hskip : ∀ i, skip m i ≠ m := by
    intro i h
    unfold skip at h
    split at h <;> omega
  cases st with
  | next i => exact fun h => hskip i (Step.next.inj h)
  | _ => rintro ⟨⟩

/-- The steps in a session with one more iterator, which they do not ask, beside the same steps
without it. -/
structure MadeIn (s : Session) (it : IteratorState) (sts : List Step) : Prop where
  waits : ((s.withIterator it).after (sts.map (·.renumber (skip s.iterators.size)))).iterators[
    s.iterators.size]? = some it
  told : told ((s.withIterator it).history (sts.map (·.renumber (skip s.iterators.size)))) =
    toldAs (skip s.iterators.size) (s.history sts)
  agree : Agree {} (skip s.iterators.size) (s.after sts)
    ((s.withIterator it).after (sts.map (·.renumber (skip s.iterators.size))))

/-- **To make an iterator changes nothing.** -/
theorem history_made (s : Session) (it : IteratorState) (sts : List Step) : s.MadeIn it sts := by
  obtain ⟨htold, honward⟩ := history_follows (agree_withIterator s it) (avoidsAll_empty s sts)
  have hnew : (s.withIterator it).iterators[s.iterators.size]? = some it := Array.getElem?_push_size
  refine ⟨iterators_after hnew fun st hst => ?_, htold, honward.agree⟩
  obtain ⟨st, -, rfl⟩ := List.mem_map.mp hst
  exact renumber_skip_ne _ st

end FilterLex.Session
