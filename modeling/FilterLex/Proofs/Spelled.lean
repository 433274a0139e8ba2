import Mathlib.Data.List.TakeWhile
import FilterLex.Proofs.Classes
import FilterLex.Proofs.Verdict

/-!
# Readers in front of a text

`r.Shows text stop`: the reader is about to deliver `text` character by character, and
what comes after the text is the outcome `stop`, which is the end of the input or a
failure of the source. Everything that the lexer does on a text is stated for both
kinds of `stop` at once.
-/

namespace FilterLex

def Piece.spell (text : List Char) : List Piece := text.map fun c => [c]

/-- `rest` does not go on with a character that passes the test. -/
def Stops (test : Char → Bool) (rest : List Char) : Prop := ∀ c ∈ rest.head?, test c = false

theorem stops_nil (test : Char → Bool) : Stops test [] := by
  intro c hc
  cases hc

theorem stops_cons {test : Char → Bool} {c : Char} {rest : List Char} :
    Stops test (c :: rest) ↔ test c = false := by
  constructor
  · intro h
    exact h c rfl
  · intro h d hd
    cases hd
    exact h

theorem stops_append {test : Char → Bool} {rest : List Char} (more : List Char)
    (hne : rest ≠ []) : Stops test (rest ++ more) ↔ Stops test rest := by
  cases rest with
  | nil => exact absurd rfl hne
  | cons c rest => rw [List.cons_append, stops_cons, stops_cons]

theorem stops_dropWhile (test : Char → Bool) (text : List Char) :
    Stops test (text.dropWhile test) := by
  cases h : text.dropWhile test with
  | nil => exact stops_nil test
  | cons c rest =>
      have hn := List.head?_dropWhile_not test text
      rw [h] at hn
      exact stops_cons.mpr (by simpa using hn)

theorem takeWhile_of_stops {test : Char → Bool} {run rest : List Char}
    (hrun : ∀ c ∈ run, test c = true) (hstop : Stops test rest) :
    (run ++ rest).takeWhile test = run := by
  rw [List.takeWhile_append_of_pos hrun]
  cases rest with
  | nil => simp
  | cons c rest => simp [stops_cons.mp hstop]

theorem dropWhile_of_stops {test : Char → Bool} {run rest : List Char}
    (hrun : ∀ c ∈ run, test c = true) (hstop : Stops test rest) :
    (run ++ rest).dropWhile test = rest := by
  rw [List.dropWhile_append_of_pos hrun]
  cases rest with
  | nil => rfl
  | cons c rest => simp [stops_cons.mp hstop]

theorem not_run {test : Char → Bool} {run : List Char} (h : ∀ c ∈ run, test c = false) :
    ∀ c ∈ run, (!test c) = true := by
  intro c hc
  rw [h c hc]
  rfl

theorem bne_of_not_mem {q : Char} {body : List Char} (hb : q ∉ body) :
    ∀ c ∈ body, (c != q) = true := by
  intro c hc
  have hne : c ≠ q := by
    rintro rfl
    exact hb hc
  simpa using hne

namespace Piece

theorem spell_append (a b : List Char) : spell (a ++ b) = spell a ++ spell b := by
  simp [spell]

theorem length_spell (text : List Char) : (spell text).length = text.length := by
  simp [spell]

theorem flatten_spell (text : List Char) : (spell text).flatten = text := by
  induction text with
  | nil => rfl
  | cons c text ih =>
      show [c] ++ (spell text).flatten = c :: text
      rw [ih]
      rfl

theorem headD_spell {more : List Piece} (text : List Char) (hmore : more.headD [] = []) :
    (spell text ++ more).headD [] = text.take 1 := by
  cases text with
  | nil => exact hmore
  | cons c text => rfl

/-- The run at the front of a text ends where the text stops it, and at the latest where
the text ends. -/
theorem run_spell {accept : Piece → Bool} {test : Char → Bool} {more : List Piece}
    {run rest : List Char} (hsame : ∀ c, accept [c] = test c)
    (hrun : ∀ c ∈ run, test c = true) (hstop : Stops test rest)
    (hmore : more.headD [] = []) :
    Piece.run accept (spell run ++ (spell rest ++ more)) = spell run := by
  unfold Piece.run
  rw [List.takeWhile_append_of_pos]
  · cases rest with
    | cons c rest =>
        have hc : accept [c] = false := (hsame c).trans (stops_cons.mp hstop)
        simp [spell, hc]
    | nil =>
        cases more with
        | nil => simp [spell]
        | cons p more =>
            have hp : p = [] := hmore
            simp [spell, hp, isEnd]
  · intro p hp
    obtain ⟨c, hc, rfl⟩ := List.mem_map.mp hp
    rw [hsame c, hrun c hc]
    rfl

end Piece

namespace Reader

/-- `text` is ahead, character by character, and then comes the outcome `stop`. -/
def Shows (r : Reader) (text : List Char) (stop : Outcome) : Prop :=
  ∃ later, r.upcoming = text.map (fun c => .piece [c]) ++ later ∧
    later.headD r.feed.tail.outcome = stop

variable {r : Reader} {text rest : List Char} {stop : Outcome}

theorem Shows.next_nil (h : r.Shows [] stop) : r.next = stop := by
  obtain ⟨later, hu, hs⟩ := h
  unfold next
  rw [hu]
  exact hs

theorem Shows.next_cons {c : Char} (h : r.Shows (c :: rest) stop) : r.next = .piece [c] := by
  obtain ⟨later, hu, hs⟩ := h
  unfold next
  rw [hu]
  rfl

/-- What is in front, if it is text at all, is the first character or the end. -/
theorem Shows.next_take (h : r.Shows text stop) (hgo : text ≠ [] ∨ stop = .piece []) :
    r.next = .piece (text.take 1) := by
  cases text with
  | cons c rest => exact h.next_cons
  | nil =>
      rcases hgo with hne | hs
      · exact absurd rfl hne
      · rw [h.next_nil, hs]
        rfl

theorem Shows.drop (h : r.Shows (text ++ rest) stop) : (r.drop text.length).Shows rest stop := by
  obtain ⟨later, hu, hs⟩ := h
  refine ⟨later, ?_, ?_⟩
  · rw [upcoming_drop, hu, List.map_append, List.append_assoc]
    have hl : text.length = (text.map fun c => Outcome.piece [c]).length := by simp
    rw [hl, List.drop_left]
  · rw [tail_drop]
    exact hs

theorem Shows.pieces (h : r.Shows text stop) (hstop : stop.chars = []) :
    ∃ more, r.pieces = Piece.spell text ++ more ∧ more.headD [] = [] := by
  obtain ⟨later, hu, hs⟩ := h
  refine ⟨later.map Outcome.chars, ?_, ?_⟩
  · unfold Reader.pieces Piece.spell
    rw [hu, List.map_append, List.map_map]
    rfl
  · cases later with
    | nil => rfl
    | cons o later =>
        have ho : o = stop := hs
        rw [ho]
        exact hstop

/-! ## Text yet to be taken -/

/-- The characters ahead of a reader, the one held back included. -/
def unread (r : Reader) : List Char := r.upcoming.flatMap Outcome.chars

/-- `r` stands where `base` stands. It may hold back the piece in front of `base`. -/
def StandsAt (base r : Reader) : Prop :=
  r = base ∨ ∃ p, base.next = .piece p ∧ r = base.hold p

theorem StandsAt.consume {base r : Reader} (h : base.StandsAt r) (o : Options) :
    Lexer.consume o r = Lexer.consume o base := by
  rcases h with rfl | ⟨p, hp, rfl⟩
  · rfl
  · exact Lexer.consume_hold o hp

theorem StandsAt.unread {base r : Reader} (h : base.StandsAt r) : r.unread = base.unread := by
  rcases h with rfl | ⟨p, hp, rfl⟩
  · rfl
  · unfold Reader.unread
    cases hu : base.upcoming with
    | nil =>
        rw [hold_upcoming_nil hp hu]
        rfl
    | cons o us => rw [hold_upcoming hp hu, hu]

end Reader

end FilterLex
