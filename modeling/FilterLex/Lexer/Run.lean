import FilterLex.Lexer.Progress

/-!
# Runs of tokens

A run takes tokens one after another, up to and including the first final one. A fault
that leaves the lexer cuts the run short. Runs end because each token that is not
final makes progress.
-/

namespace FilterLex

/-- The outcome of a run: the tokens delivered, the fault that cut it short, and the
reader as it was left. -/
structure Run where
  tokens : List Token
  fault : Option Fault := none
  reader : Reader
  deriving DecidableEq, Repr

/-- A run with one more token in front. -/
def Run.cons (t : Token) (run : Run) : Run := { run with tokens := t :: run.tokens }

namespace Lexer

/-- The tokens up to the end of the input or the first error. -/
def run (options : Options) (r : Reader) : Run :=
  match h : consume options r with
  | .error fault s => { tokens := [], fault := some fault.leavingIteration, reader := s }
  | .ok token s =>
      if ht : token.isFinal = true then { tokens := [token], reader := s }
      else
        have : s.remaining < r.remaining := consume_lt h (by simpa using ht)
        (run options s).cons token
termination_by r.remaining

theorem run_of_error {o : Options} {r s : Reader} {f : Fault}
    (h : consume o r = .error f s) :
    run o r = { tokens := [], fault := some f.leavingIteration, reader := s } := by
  rw [run]
  split <;> simp_all

theorem run_of_final {o : Options} {r s : Reader} {t : Token}
    (h : consume o r = .ok t s) (ht : t.isFinal = true) :
    run o r = { tokens := [t], reader := s } := by
  rw [run]
  split <;> simp_all

theorem run_of_ok {o : Options} {r s : Reader} {t : Token}
    (h : consume o r = .ok t s) (ht : t.isFinal = false) :
    run o r = (run o s).cons t := by
  rw [run]
  split <;> simp_all

end Lexer

end FilterLex
