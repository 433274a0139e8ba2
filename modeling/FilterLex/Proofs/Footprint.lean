import Mathlib.Data.List.TakeWhile
import FilterLex.Lexer.Scan
import FilterLex.Proofs.Lookahead

/-!
# What an action reads

Every action of the lexer goes forward through its feed, one read at a time. This module
says which outcomes were read on the way from one reader to another, and that a read which
fails is the last of its action: the action ends there with that failure and holds
nothing back.

- `Feed.outcomes`: what the next reads of a feed bring.
- `Reader.Reads`: a reader comes from another by reads that bring the given outcomes.
- `StopsAtFailure`: an action reads text only, until it ends or a read fails.
- `scan_stopsAtFailure`: the lexer is built of such actions.
-/

namespace FilterLex

/-- An outcome that is text, the end of the input included. -/
def Outcome.isText : Outcome → Bool
  | .piece _ => true
  | _ => false

namespace Feed

/-! ## The next reads of a feed -/

def outcomes : Nat → Feed → List Outcome
  | 0, _ => []
  | n + 1, f => f.read.1 :: outcomes n f.read.2

variable (f : Feed)

theorem read_snd : f.read.2 = f.advance 1 := by
  obtain ⟨ahead, tail, backing, reads, isOpen⟩ := f
  cases ahead <;> rfl

theorem advance_zero : f.advance 0 = f := rfl

theorem outcomes_add (m n : Nat) :
    f.outcomes (m + n) = f.outcomes m ++ (f.advance m).outcomes n := by
  induction m generalizing f with
  | zero => rw [Nat.zero_add, advance_zero]; rfl
  | succ m ih =>
      rw [show m + 1 + n = (m + n) + 1 by omega]
      show f.read.1 :: f.read.2.outcomes (m + n) =
        (f.read.1 :: f.read.2.outcomes m) ++ (f.advance (m + 1)).outcomes n
      rw [ih, read_snd, Reader.advance_advance, Nat.add_comm 1 m]
      rfl

/-- As far as outcomes are listed, they are what the reads bring. -/
theorem outcomes_of_le {n : Nat} (h : n ≤ f.ahead.length) : f.outcomes n = f.ahead.take n := by
  induction n generalizing f with
  | zero => rfl
  | succ n ih =>
      obtain ⟨ahead, tail, backing, reads, isOpen⟩ := f
      cases ahead with
      | nil => simp at h
      | cons o ahead =>
          simp only [List.length_cons, Nat.add_le_add_iff_right] at h
          rw [List.take_succ_cons]
          exact congrArg (o :: ·) (ih _ h)

theorem take_subset_outcomes {m n : Nat} (h : m ≤ n) : f.ahead.take m ⊆ f.outcomes n := by
  intro o ho
  have hmin : min m f.ahead.length ≤ f.ahead.length := Nat.min_le_right _ _
  have htake : f.ahead.take m = f.outcomes (min m f.ahead.length) := by
    rw [f.outcomes_of_le hmin, List.take_eq_take_iff]
    omega
  have hn : n = min m f.ahead.length + (n - min m f.ahead.length) := by omega
  rw [htake] at ho
  rw [hn, outcomes_add]
  exact List.mem_append_left _ ho

end Feed

namespace Reader

/-! ## From one reader to another -/

/-- `r'` comes from `r` by reads that bring `os`. What `r'` holds back was held back by `r`
or is one of these. -/
structure Reads (r : Reader) (os : List Outcome) (r' : Reader) : Prop where
  outcomes : r.feed.outcomes os.length = os
  feed : r'.feed = r.feed.advance os.length
  held : ∀ p, r'.pending = some p → r.pending = some p ∨ .piece p ∈ os

variable {r s t : Reader} {os us : List Outcome}

theorem Reads.refl (r : Reader) : r.Reads [] r := ⟨rfl, rfl, fun _ hp => Or.inl hp⟩

theorem Reads.trans (h : r.Reads os s) (h' : s.Reads us t) : r.Reads (os ++ us) t := by
  constructor
  · rw [List.length_append, Feed.outcomes_add, ← h.feed, h.outcomes, h'.outcomes]
  · rw [h'.feed, h.feed, advance_advance, List.length_append]
  · intro p hp
    rcases h'.held p hp with hs | hus
    · rcases h.held p hs with hr | hos
      · exact Or.inl hr
      · exact Or.inr (List.mem_append_left us hos)
    · exact Or.inr (List.mem_append_right os hus)

theorem Reads.clear (h : r.Reads os s) : r.Reads os { s with pending := none } :=
  ⟨h.outcomes, h.feed, fun _ hp => by cases hp⟩

/-- The outcomes read on the way to `r'`, which the feeds tell by their counts. -/
def readsUntil (r r' : Reader) : List Outcome :=
  r.feed.outcomes (r'.feed.reads - r.feed.reads)

theorem Reads.readsUntil_eq (h : r.Reads os s) : r.readsUntil s = os := by
  have hn : s.feed.reads - r.feed.reads = os.length := by
    rw [h.feed]
    show r.feed.reads + os.length - r.feed.reads = os.length
    omega
  unfold readsUntil
  rw [hn, h.outcomes]

/-- What the source has delivered of what the reader uses on the way to `r'`: the piece
that is held back, and what is read. -/
def delivered (r r' : Reader) : List Outcome :=
  r.pending.toList.map .piece ++ r.readsUntil r'

theorem Reads.delivered_eq (h : r.Reads os s) :
    r.delivered s = r.pending.toList.map .piece ++ os := by
  unfold delivered
  rw [h.readsUntil_eq]

theorem Reads.delivered_left {o : Outcome} (h : r.Reads os s) (h' : s.Reads us t)
    (ho : o ∈ r.delivered s) : o ∈ r.delivered t := by
  rw [h.delivered_eq] at ho
  rw [(h.trans h').delivered_eq, ← List.append_assoc]
  exact List.mem_append_left us ho

theorem Reads.delivered_right {o : Outcome} (h : r.Reads os s) (h' : s.Reads us t)
    (ho : o ∈ s.delivered t) : o ∈ r.delivered t := by
  rw [h'.delivered_eq] at ho
  rw [(h.trans h').delivered_eq]
  rcases List.mem_append.mp ho with ho | ho
  · -- what is held back in between was held back before, or has been read since
    obtain ⟨p, hp, rfl⟩ := List.mem_map.mp ho
    rcases h.held p (Option.mem_toList.mp hp) with hr | hos
    · exact List.mem_append_left _ (List.mem_map.mpr ⟨p, Option.mem_toList.mpr hr, rfl⟩)
    · exact List.mem_append_right _ (List.mem_append_left us hos)
  · exact List.mem_append_right _ (List.mem_append_right os ho)

theorem mem_delivered_of_taken {n : Nat} {o : Outcome} {r' : Reader}
    (ho : o ∈ r.upcoming.take n) (hreads : (r.drop n).feed.reads ≤ r'.feed.reads) :
    o ∈ r.delivered r' := by
  obtain ⟨feed, pending⟩ := r
  unfold delivered readsUntil
  cases n with
  | zero => simp at ho
  | succ n =>
      cases pending with
      | none =>
          have hle : feed.reads + (n + 1) ≤ r'.feed.reads := hreads
          exact feed.take_subset_outcomes (by show n + 1 ≤ r'.feed.reads - feed.reads; omega) ho
      | some p =>
          have hle : feed.reads + n ≤ r'.feed.reads := hreads
          rcases List.mem_cons.mp ho with rfl | ho
          · exact List.mem_append_left _ List.mem_cons_self
          · refine List.mem_append_right _ ?_
            exact feed.take_subset_outcomes (by show n ≤ r'.feed.reads - feed.reads; omega) ho

theorem reads_le_hold (p : Piece) (r : Reader) : r.feed.reads ≤ (r.hold p).feed.reads := by
  obtain ⟨feed, pending⟩ := r
  cases pending with
  | none => exact Nat.le_add_right feed.reads 1
  | some q => exact Nat.le_refl feed.reads

/-- Dropping text from the front reads it, but for a piece that was held back. -/
theorem reads_drop {n : Nat} (hn : n ≤ r.upcoming.length)
    (htext : ∀ o ∈ r.upcoming.take n, o.isText = true) :
    ∃ os, (∀ o ∈ os, o.isText = true) ∧ r.Reads os (r.drop n) := by
  obtain ⟨feed, pending⟩ := r
  cases n with
  | zero => exact ⟨[], by simp, Reads.refl _⟩
  | succ n =>
      have hreads : ∀ m, m ≤ feed.ahead.length →
          (⟨feed, pending⟩ : Reader).Reads (feed.ahead.take m) ⟨feed.advance m, none⟩ := by
        intro m hm
        have hlen : (feed.ahead.take m).length = m := List.length_take_of_le hm
        refine ⟨?_, ?_, fun p hp => by cases hp⟩
        · rw [hlen]
          exact feed.outcomes_of_le hm
        · rw [hlen]
      cases pending with
      | none =>
          have hm : n + 1 ≤ feed.ahead.length := hn
          exact ⟨feed.ahead.take (n + 1), htext, hreads _ hm⟩
      | some p =>
          have hm : n ≤ feed.ahead.length := Nat.le_of_succ_le_succ hn
          refine ⟨feed.ahead.take n, ?_, hreads _ hm⟩
          intro o ho
          exact htext o (List.mem_cons_of_mem _ ho)

/-! ## Actions that stop at a failure -/

/-- How an action ends, with regard to its reads: it reads text only, or the last of its
reads fails, and then it ends with that failure and holds nothing back. -/
inductive EndsAt {α : Type} (r : Reader) : EStateM.Result Failure Reader α → Prop
  | ok {a os s} (htext : ∀ o ∈ os, o.isText = true) (h : r.Reads os s) : EndsAt r (.ok a s)
  | lexical {e os s} (htext : ∀ o ∈ os, o.isText = true) (h : r.Reads os s) :
      EndsAt r (.error (.lexical e) s)
  | reading {f os o s} (htext : ∀ o ∈ os, o.isText = true) (hf : o.fault? = some f)
      (h : r.Reads (os ++ [o]) s) (hp : s.pending = none) : EndsAt r (.error (.reading f) s)

/-- An action that reads text only, up to the first read that fails. -/
def StopsAtFailure {α : Type} (m : ReadM α) : Prop := ∀ r, EndsAt r (m r)

variable {α β : Type} {m : ReadM α} {k : α → ReadM β}

theorem EndsAt.after {res : EStateM.Result Failure Reader α}
    (htext : ∀ o ∈ os, o.isText = true) (h : r.Reads os s) (hend : EndsAt s res) :
    EndsAt r res := by
  have hboth : ∀ {us : List Outcome}, (∀ o ∈ us, o.isText = true) →
      ∀ o ∈ os ++ us, o.isText = true := by
    intro us hus o ho
    rcases List.mem_append.mp ho with ho | ho
    · exact htext o ho
    · exact hus o ho
  cases hend with
  | ok hus h' => exact EndsAt.ok (hboth hus) (h.trans h')
  | lexical hus h' => exact EndsAt.lexical (hboth hus) (h.trans h')
  | reading hus hf h' hp =>
      have hread := h.trans h'
      rw [← List.append_assoc] at hread
      exact EndsAt.reading (hboth hus) hf hread hp

theorem StopsAtFailure.bind (hm : StopsAtFailure m) (hk : ∀ a, StopsAtFailure (k a)) :
    StopsAtFailure (m >>= k) := by
  intro r
  have hend := hm r
  generalize hres : m r = res at hend
  cases hend with
  | ok htext h =>
      rw [bind_of_ok hres]
      exact (hk _ _).after htext h
  | lexical htext h =>
      rw [bind_of_error hres]
      exact EndsAt.lexical htext h
  | reading htext hf h hp =>
      rw [bind_of_error hres]
      exact EndsAt.reading htext hf h hp

theorem stopsAtFailure_pure (a : α) : StopsAtFailure (pure a) :=
  fun r => EndsAt.ok (by simp) (Reads.refl r)

theorem stopsAtFailure_throw (e : LexicalError) :
    StopsAtFailure (throw (.lexical e) : ReadM α) :=
  fun r => EndsAt.lexical (by simp) (Reads.refl r)

theorem reads_next {feed after : Feed} {o : Outcome} {pending : Option Piece}
    (hread : feed.read = (o, after)) (hpending : ∀ p, pending = some p → o = .piece p) :
    (⟨feed, none⟩ : Reader).Reads ([] ++ [o]) ⟨after, pending⟩ := by
  have ho : feed.read.1 = o := congrArg Prod.fst hread
  have hafter : feed.read.2 = after := congrArg Prod.snd hread
  refine ⟨congrArg (fun x => [x]) ho, ?_, ?_⟩
  · rw [← hafter]
    exact feed.read_snd
  · intro p hp
    rw [hpending p hp]
    exact Or.inr List.mem_cons_self

theorem stopsAtFailure_peek : StopsAtFailure peek := by
  rintro ⟨feed, pending⟩
  cases pending with
  | some p => exact EndsAt.ok (by simp) (Reads.refl _)
  | none =>
      unfold peek
      cases hread : feed.read with
      | mk o after =>
          cases o with
          | piece p => exact EndsAt.ok (by simp [Outcome.isText]) (reads_next hread (by simp))
          | foreign t => exact EndsAt.reading (by simp) rfl (reads_next hread (by simp)) rfl
          | fault f => exact EndsAt.reading (by simp) rfl (reads_next hread (by simp)) rfl

theorem stopsAtFailure_take : StopsAtFailure take := by
  refine stopsAtFailure_peek.bind fun p => ?_
  intro r
  have hnone : ∀ o ∈ ([] : List Outcome), o.isText = true := by simp
  exact EndsAt.ok hnone (Reads.refl r).clear

theorem stopsAtFailure_takeRun (accept : Piece → Bool) : StopsAtFailure (takeRun accept) := by
  intro r
  have hle : r.runLength accept ≤ r.upcoming.length :=
    (List.takeWhile_prefix _).length_le
  have htake : r.upcoming.take (r.runLength accept) =
      r.upcoming.takeWhile (·.accepted accept) :=
    (List.prefix_iff_eq_take.mp (List.takeWhile_prefix _)).symm
  have htext : ∀ o ∈ r.upcoming.take (r.runLength accept), o.isText = true := by
    rw [htake]
    intro o ho
    have haccepted := List.mem_takeWhile_imp ho
    cases o with
    | piece p => rfl
    | foreign t => cases haccepted
    | fault f => cases haccepted
  obtain ⟨os, hos, hreads⟩ := reads_drop hle htext
  rw [takeRun_eq]
  have hpeek : StopsAtFailure (peek >>= fun _ => pure (r.runText accept)) :=
    StopsAtFailure.bind stopsAtFailure_peek fun _ => stopsAtFailure_pure _
  exact (hpeek _).after hos hreads

end Reader

namespace Lexer

open Reader

/-! ## The lexer stops at a failure -/

theorem scanNumber_stopsAtFailure : StopsAtFailure scanNumber := by
  refine StopsAtFailure.bind (stopsAtFailure_takeRun _) fun whole => ?_
  refine StopsAtFailure.bind stopsAtFailure_peek fun p => ?_
  split
  · refine StopsAtFailure.bind stopsAtFailure_take fun _ => ?_
    refine StopsAtFailure.bind stopsAtFailure_peek fun next => ?_
    split
    · exact StopsAtFailure.bind (stopsAtFailure_takeRun _) fun _ => stopsAtFailure_pure _
    · exact stopsAtFailure_throw _
  · exact stopsAtFailure_pure _

theorem scanString_stopsAtFailure (o : Options) (quote : Piece) :
    StopsAtFailure (scanString o quote) := by
  refine StopsAtFailure.bind stopsAtFailure_take fun _ => ?_
  refine StopsAtFailure.bind (stopsAtFailure_takeRun _) fun body => ?_
  refine StopsAtFailure.bind stopsAtFailure_peek fun p => ?_
  split
  · split
    · exact stopsAtFailure_throw _
    · exact stopsAtFailure_pure _
  · exact StopsAtFailure.bind stopsAtFailure_take fun _ => stopsAtFailure_pure _

theorem scanPunctuation_stopsAtFailure (mark : Piece) :
    StopsAtFailure (scanPunctuation mark) := by
  refine StopsAtFailure.bind stopsAtFailure_take fun _ => ?_
  refine StopsAtFailure.bind stopsAtFailure_peek fun following => ?_
  split
  · exact StopsAtFailure.bind stopsAtFailure_take fun _ => stopsAtFailure_pure _
  · split
    · exact stopsAtFailure_pure _
    · exact stopsAtFailure_throw _

theorem scanFrom_stopsAtFailure (o : Options) (first : Piece) :
    StopsAtFailure (scanFrom o first) := by
  unfold scanFrom
  split
  · exact stopsAtFailure_pure _
  split
  · exact scanNumber_stopsAtFailure
  split
  · exact StopsAtFailure.bind (stopsAtFailure_takeRun _) fun _ => stopsAtFailure_pure _
  split
  · exact scanString_stopsAtFailure o first
  split
  · exact scanPunctuation_stopsAtFailure first
  · exact StopsAtFailure.bind (stopsAtFailure_takeRun _) fun _ => stopsAtFailure_pure _

/-- **Scanning stops at the first read that fails.** -/
theorem scan_stopsAtFailure (o : Options) : StopsAtFailure (scan o) := by
  refine StopsAtFailure.bind (stopsAtFailure_takeRun _) fun _ => ?_
  exact StopsAtFailure.bind stopsAtFailure_peek fun p => scanFrom_stopsAtFailure o p

end Lexer

end FilterLex
