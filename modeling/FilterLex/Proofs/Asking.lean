import FilterLex.Lexer.Run
import FilterLex.Proofs.Footprint

/-!
# Asking for tokens, call after call

What a caller sees of a lexer is one delivery for each call: a token, or the fault that
left the call. Calls made one after another, each with options of its own, are the plain
form that longer histories are compared with: a run up to the first final token, a source
with failures in the middle, and handles that share a reader.

- `ask`, `askEach`: one call, and calls one after another.
- `Delivery.iterated`: a delivery as it leaves an iteration.
- `Run.deliveries`, `askEach_run`: a run is a row of calls with the same options.
- `askEach_reads`: calls go forward through the feed, read by read.
-/

namespace FilterLex

/-- What one call delivers: a token, or the fault that leaves it. -/
abbrev Delivery := Except Fault Token

def Run.deliveries (run : Run) : List Delivery :=
  run.tokens.map .ok ++ run.fault.toList.map .error

theorem Fault.leavingIteration_eq {f : Fault} (h : ∀ name, f.kind ≠ .exhaustion name) :
    f.leavingIteration = f := by
  unfold leavingIteration
  split
  case h_1 name hname => exact absurd hname (h name)
  case h_2 => rfl

namespace Delivery

/-- A delivery that ends an iteration: a final token, or a fault. -/
def ends : Delivery → Bool
  | .ok t => t.isFinal
  | .error _ => true

/-- A delivery as it leaves an iteration. -/
def iterated (d : Delivery) : Delivery := d.mapError Fault.leavingIteration

@[simp] theorem iterated_ok (t : Token) : iterated (.ok t) = .ok t := rfl

@[simp] theorem iterated_error (f : Fault) : iterated (.error f) = .error f.leavingIteration := rfl

theorem iterated_eq_ok {d : Delivery} {t : Token} : d.iterated = .ok t ↔ d = .ok t := by
  cases d <;> simp

end Delivery

namespace Lexer

open Reader

/-- One call: what it delivers, and the reader that it leaves. -/
def ask (o : Options) (r : Reader) : Delivery × Reader :=
  match consume o r with
  | .ok t s => (.ok t, s)
  | .error f s => (.error f, s)

/-- Calls one after another, each with options of its own. -/
def askEach : List Options → Reader → List Delivery × Reader
  | [], r => ([], r)
  | o :: os, r =>
      ((ask o r).1 :: (askEach os (ask o r).2).1, (askEach os (ask o r).2).2)

variable {o : Options} {r s : Reader} {t : Token} {f : Fault}

theorem ask_of_ok (h : consume o r = .ok t s) : ask o r = (.ok t, s) := by
  unfold ask
  rw [h]

theorem ask_of_error (h : consume o r = .error f s) : ask o r = (.error f, s) := by
  unfold ask
  rw [h]

theorem askEach_cons (os : List Options) (r : Reader) : askEach (o :: os) r =
    ((ask o r).1 :: (askEach os (ask o r).2).1, (askEach os (ask o r).2).2) := rfl

theorem askEach_append (os us : List Options) (r : Reader) : askEach (os ++ us) r =
    ((askEach os r).1 ++ (askEach us (askEach os r).2).1,
      (askEach us (askEach os r).2).2) := by
  induction os generalizing r with
  | nil => rfl
  | cons o os ih =>
      rw [List.cons_append, askEach_cons, askEach_cons, ih]
      rfl

/-! ## Runs -/

/-- **A run is a row of calls.** It delivers what the calls deliver, as it leaves an
iteration, and leaves the reader that they leave. -/
theorem askEach_run (o : Options) (r : Reader) :
    ∃ ds, askEach (List.replicate (run o r).deliveries.length o) r = (ds, (run o r).reader) ∧
      (run o r).deliveries = ds.map Delivery.iterated := by
  -- by induction on what is left of the input, which every token that is not final takes from
  induction hn : r.remaining using Nat.strong_induction_on generalizing r with
  | _ n ih =>
      cases hc : consume o r with
      | error f s =>
          refine ⟨[.error f], ?_, ?_⟩
          · rw [run_of_error hc]
            show askEach [o] r = ([.error f], s)
            rw [askEach_cons, ask_of_error hc]
            rfl
          · rw [run_of_error hc]
            rfl
      | ok t s =>
          cases ht : t.isFinal with
          | true =>
              refine ⟨[.ok t], ?_, ?_⟩
              · rw [run_of_final hc ht]
                show askEach [o] r = ([.ok t], s)
                rw [askEach_cons, ask_of_ok hc]
                rfl
              · rw [run_of_final hc ht]
                rfl
          | false =>
              have hless : s.remaining < n := hn ▸ consume_lt hc ht
              obtain ⟨ds, hcalls, hds⟩ := ih s.remaining hless s rfl
              have hcons : (run o r).deliveries = .ok t :: (run o s).deliveries := by
                rw [run_of_ok hc ht]
                rfl
              have hreader : (run o r).reader = (run o s).reader := by
                rw [run_of_ok hc ht]
                rfl
              refine ⟨.ok t :: ds, ?_, ?_⟩
              · rw [hcons, hreader, List.length_cons, List.replicate_succ, askEach_cons,
                  ask_of_ok hc, hcalls]
              · rw [hcons, hds]
                rfl

/-- Only the last delivery of a run ends it. -/
theorem run_ends (o : Options) (r : Reader) :
    ∃ init last, (run o r).deliveries = init ++ [last] ∧ last.ends = true ∧
      ∀ d ∈ init, d.ends = false := by
  induction hn : r.remaining using Nat.strong_induction_on generalizing r with
  | _ n ih =>
      cases hc : consume o r with
      | error f s =>
          rw [run_of_error hc]
          exact ⟨[], .error f.leavingIteration, rfl, rfl, by simp⟩
      | ok t s =>
          cases ht : t.isFinal with
          | true =>
              rw [run_of_final hc ht]
              exact ⟨[], .ok t, rfl, ht, by simp⟩
          | false =>
              have hless : s.remaining < n := hn ▸ consume_lt hc ht
              obtain ⟨init, last, heq, hlast, hinit⟩ := ih s.remaining hless s rfl
              refine ⟨.ok t :: init, last, ?_, hlast, ?_⟩
              · rw [run_of_ok hc ht]
                exact congrArg (.ok t :: ·) heq
              · intro d hd
                rcases List.mem_cons.mp hd with rfl | hd
                · exact ht
                · exact hinit d hd

/-! ## Reads -/

theorem ask_of_reading {s : Reader} (h : scan o r = .error (.reading f) s) :
    ask o r = (if f.isReported then .ok (Token.ofError f.message) else .error f, s) := by
  unfold ask consume
  rw [h]
  unfold Failure.toToken?
  simp only []
  by_cases hrep : f.isReported = true
  · rw [if_pos hrep]
  · rw [if_neg hrep]

theorem ask_of_lexical {e : LexicalError} {s : Reader} (h : scan o r = .error (.lexical e) s) :
    ask o r = (.ok (Token.ofError e.message), s) := by
  unfold ask consume
  rw [h]
  rfl

theorem ask_of_scan {s : Reader} (h : scan o r = .ok t s) : ask o r = (.ok t, s) := by
  unfold ask consume
  rw [h]

theorem ask_reads (o : Options) (r : Reader) : ∃ os, r.Reads os (ask o r).2 := by
  have hend := scan_stopsAtFailure o r
  generalize hres : scan o r = res at hend
  cases hend with
  | ok _ h =>
      rw [ask_of_scan hres]
      exact ⟨_, h⟩
  | lexical _ h =>
      rw [ask_of_lexical hres]
      exact ⟨_, h⟩
  | reading _ _ h _ =>
      rw [ask_of_reading hres]
      exact ⟨_, h⟩

theorem askEach_reads (os : List Options) (r : Reader) :
    ∃ us, r.Reads us (askEach os r).2 := by
  induction os generalizing r with
  | nil => exact ⟨[], Reads.refl r⟩
  | cons o os ih =>
      obtain ⟨us, hfirst⟩ := ask_reads o r
      obtain ⟨us', hrest⟩ := ih (ask o r).2
      exact ⟨us ++ us', hfirst.trans hrest⟩

end Lexer

end FilterLex
