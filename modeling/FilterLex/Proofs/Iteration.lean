import FilterLex.Proofs.Bystanders

/-!
# Iterators over a history

An iterator is finished by what it answers itself, and by nothing else: whatever other
steps come between its own, it goes on until one of its answers is a final token or an
error, and from then on it answers that it is finished and changes nothing.

- `history`, `after`: the effects of steps one after another, and the session they leave.
- `next_eq_some`: the step of an iterator goes by its answer.
- `answersOf`, `Course`: the answers of one iterator, and how they can go.
- `iterator_course`: they do go like this, in every history.
-/

namespace FilterLex.Session

open Lexer

def history : Session → List Step → List (Step × Effect)
  | _, [] => []
  | s, st :: sts => (st, s.step st) :: history (s.step st).session sts

def after : Session → List Step → Session
  | s, [] => s
  | s, st :: sts => after (s.step st).session sts

theorem history_cons (s : Session) (st : Step) (sts : List Step) :
    s.history (st :: sts) = (st, s.step st) :: (s.step st).session.history sts := rfl

theorem after_cons (s : Session) (st : Step) (sts : List Step) :
    s.after (st :: sts) = (s.step st).session.after sts := rfl

variable {s s' : Session} {l : LexerState} {it : IteratorState} {st : Step} {i : Nat}

/-! ## The iterator's own steps -/

/-- An answer that finishes an iterator: a final token, or any error. -/
def Answer.ends : Answer → Bool
  | .token t => t.isFinal
  | .error _ => true
  | _ => false

/-- An answer after which an iterator goes on: a token that is not final, or none at all
where the step could not be made. -/
def Answer.GoesOn : Answer → Prop
  | .token t => t.isFinal = false
  | .dangling => True
  | _ => False

/-- The iterator after an answer of its own. -/
def IteratorState.answering (it : IteratorState) (a : Answer) : IteratorState :=
  { it with phase := if a.ends then .finished else .running }

theorem advance_eq_some {e : Effect} (h : s.advance i it = some e) :
    (e.answer.ends = false → e.answer.GoesOn) ∧
      e.session.iterators = s.iterators.setIfInBounds i (it.answering e.answer) := by
  obtain ⟨l, hl, h'⟩ := Option.bind_eq_some_iff.mp h
  obtain ⟨⟨d, t⟩, hconsume, -⟩ := Option.bind_eq_some_iff.mp h'
  have hiterators : t.iterators = s.iterators := iterators_consume hl hconsume
  rw [advance_of_consume hl hconsume] at h
  cases h
  rw [session_ofConsume, hiterators]
  cases d with
  | ok t => exact ⟨fun hends => hends, rfl⟩
  | error f => exact ⟨by rintro ⟨⟩, rfl⟩

/-- What the step of an iterator does to the iterators: a finished one changes nothing, and
any other goes by its answer. -/
theorem next_eq_some {e : Effect} (h : s.next i = some e) :
    ∃ it, s.iterators[i]? = some it ∧
      ((it.phase = .finished ∧ e = { answer := .finished, session := s }) ∨
        (it.phase ≠ .finished ∧ (e.answer.ends = false → e.answer.GoesOn) ∧
          e.session.iterators = s.iterators.setIfInBounds i (it.answering e.answer))) := by
  obtain ⟨it, hit, h⟩ := Option.bind_eq_some_iff.mp h
  refine ⟨it, hit, ?_⟩
  cases hphase : it.phase with
  | finished =>
      rw [hphase] at h
      cases h
      exact Or.inl ⟨rfl, rfl⟩
  | running =>
      rw [hphase] at h
      exact Or.inr ⟨by rintro ⟨⟩, advance_eq_some h⟩
  | unstarted b =>
      rw [hphase] at h
      obtain ⟨l, hl, h⟩ := Option.bind_eq_some_iff.mp h
      refine Or.inr ⟨by rintro ⟨⟩, ?_⟩
      split at h
      case h_1 t hload =>
        rw [← iterators_load hload]
        exact advance_eq_some h
      case h_2 =>
        cases h
        exact ⟨by rintro ⟨⟩, rfl⟩

/-! ## One step, seen from an iterator -/

theorem step_finished (hit : s.iterators[i]? = some it) (hphase : it.phase = .finished) :
    s.step (.next i) = { answer := .finished, session := s } := by
  unfold step step? next
  simp [hit, hphase]

theorem step_unfinished (hit : s.iterators[i]? = some it) (hphase : it.phase ≠ .finished) :
    ((s.step (.next i)).answer.ends = false → (s.step (.next i)).answer.GoesOn) ∧
      ∃ it', (s.step (.next i)).session.iterators[i]? = some it' ∧
        (it'.phase = .finished ↔ (s.step (.next i)).answer.ends = true) := by
  unfold step
  cases hs : s.step? (.next i) with
  | none => exact ⟨fun _ => True.intro, it, hit, by simp [hphase, Answer.ends]⟩
  | some e =>
      obtain ⟨it', hit', hcases⟩ := next_eq_some hs
      cases hit.symm.trans hit'
      rcases hcases with ⟨hfinished, -⟩ | ⟨-, hanswer, he⟩
      · exact absurd hfinished hphase
      · obtain ⟨hi, -⟩ := Array.getElem?_eq_some_iff.mp hit
        refine ⟨hanswer, it.answering e.answer, ?_, ?_⟩
        · rw [Option.getD_some, he]
          exact Array.getElem?_setIfInBounds_self_of_lt hi
        · show (if e.answer.ends then Phase.finished else .running) = .finished ↔ _
          rw [Option.getD_some]
          cases e.answer.ends <;> simp

/-! ## Whole histories -/

def answersOf (i : Nat) (h : List (Step × Effect)) : List Answer :=
  h.filterMap fun p => if p.1.iterator? = some i then some p.2.answer else none

/-- How the answers of an iterator go, and whether they finish it. -/
inductive Course : List Answer → Bool → Prop
  | running {as} (h : ∀ a ∈ as, a.GoesOn) : Course as false
  | finished {as last} (n : Nat) (h : ∀ a ∈ as, a.GoesOn) (hlast : last.ends = true) :
      Course (as ++ last :: List.replicate n .finished) true

theorem Course.cons {a : Answer} {as : List Answer} {finished : Bool} (ha : a.GoesOn)
    (h : Course as finished) : Course (a :: as) finished := by
  have hcons : ∀ {as : List Answer}, (∀ b ∈ as, b.GoesOn) → ∀ b ∈ a :: as, b.GoesOn := by
    intro as has b hb
    rcases List.mem_cons.mp hb with rfl | hb
    · exact ha
    · exact has b hb
  cases h with
  | running has => exact Course.running (hcons has)
  | finished n has hlast => exact Course.finished n (hcons has) hlast

theorem answersOf_cons_self (e : Effect) (h : List (Step × Effect)) :
    answersOf i ((.next i, e) :: h) = e.answer :: answersOf i h := by
  unfold answersOf
  rw [List.filterMap_cons_some (b := e.answer) (by simp [Step.iterator?])]

theorem answersOf_cons_of_ne (hst : st ≠ .next i) (e : Effect) (h : List (Step × Effect)) :
    answersOf i ((st, e) :: h) = answersOf i h := by
  unfold answersOf
  rw [List.filterMap_cons_none (by simp [Step.iterator?_eq_some, hst])]

/-- A finished iterator stays finished and answers nothing else. -/
theorem finished_stays (hit : s.iterators[i]? = some it) (hphase : it.phase = .finished)
    (sts : List Step) : (s.after sts).iterators[i]? = some it ∧
      ∃ n, answersOf i (s.history sts) = List.replicate n .finished := by
  induction sts generalizing s with
  | nil => exact ⟨hit, 0, rfl⟩
  | cons st sts ih =>
      by_cases hst : st = .next i
      · subst hst
        have hstep := step_finished hit hphase
        obtain ⟨hlater, n, hanswers⟩ :=
          ih (s := (s.step (.next i)).session) (by rw [hstep]; exact hit)
        refine ⟨hlater, n + 1, ?_⟩
        rw [history_cons, answersOf_cons_self, hanswers, hstep]
        rfl
      · obtain ⟨hlater, n, hanswers⟩ := ih (iterators_step hit hst)
        refine ⟨hlater, n, ?_⟩
        rw [history_cons, answersOf_cons_of_ne hst, hanswers]

/-- **An iterator is finished by its own answers.** Whatever steps come between, it goes on
until it has answered a final token or an error itself, and then it is finished. -/
theorem iterator_course (hit : s.iterators[i]? = some it) (hphase : it.phase ≠ .finished)
    (sts : List Step) : ∃ it', (s.after sts).iterators[i]? = some it' ∧
      Course (answersOf i (s.history sts)) (decide (it'.phase = .finished)) := by
  -- by induction on the steps; once the iterator is finished, `finished_stays` says the rest
  induction sts generalizing s it with
  | nil =>
      refine ⟨it, hit, ?_⟩
      rw [decide_eq_false hphase]
      exact Course.running (by simp [history, answersOf])
  | cons st sts ih =>
      by_cases hst : st = .next i
      · subst hst
        obtain ⟨hanswer, it', hit', hiff⟩ := step_unfinished hit hphase
        rw [history_cons, answersOf_cons_self, after_cons]
        by_cases hends : (s.step (.next i)).answer.ends = true
        · obtain ⟨hlater, n, hanswers⟩ := finished_stays hit' (hiff.mpr hends) sts
          refine ⟨it', hlater, ?_⟩
          rw [hanswers, decide_eq_true (hiff.mpr hends)]
          have hnone : ∀ a ∈ ([] : List Answer), a.GoesOn := by simp
          exact Course.finished n hnone hends
        · obtain ⟨it'', hit'', hcourse⟩ := ih hit' (fun hp => hends (hiff.mp hp))
          exact ⟨it'', hit'', Course.cons (hanswer (by simpa using hends)) hcourse⟩
      · obtain ⟨it', hit', hcourse⟩ := ih (iterators_step hit hst) hphase
        refine ⟨it', hit', ?_⟩
        rwa [history_cons, answersOf_cons_of_ne hst]

end FilterLex.Session
