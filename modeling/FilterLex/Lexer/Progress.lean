import FilterLex.Lexer.Scan

/-!
# Progress

What is left of an input is measured by the outcomes that a reader has ahead of it, a
held-back end of the input not counted. No action that succeeds adds to it, and a
token that is not final takes from it at least one piece. So a run of tokens over any
feed ends.
-/

namespace FilterLex

namespace Reader

/-- The number of outcomes ahead of a reader. -/
def remaining (r : Reader) : Nat :=
  r.feed.ahead.length +
    match r.pending with
    | some (_ :: _) => 1
    | _ => 0

/-! ## Actions that succeed add nothing -/

/-- An action after whose success no more is left than before. -/
def NeverAdds {α : Type} (m : ReadM α) : Prop :=
  ∀ r a r', m r = .ok a r' → r'.remaining ≤ r.remaining

theorem bind_eq_ok {α β : Type} {m : ReadM α} {f : α → ReadM β} {r r' : Reader} {b : β}
    (h : (m >>= f) r = .ok b r') : ∃ a s, m r = .ok a s ∧ f a s = .ok b r' := by
  change EStateM.bind m f r = _ at h
  unfold EStateM.bind at h
  split at h
  · next a s hm => exact ⟨a, s, hm, h⟩
  · cases h

theorem neverAdds_pure {α : Type} (a : α) : NeverAdds (pure a) := by
  intro r b r' h
  cases h
  exact Nat.le_refl _

theorem neverAdds_throw {α : Type} (e : Failure) :
    NeverAdds (throw e : ReadM α) := by
  intro r b r' h
  cases h

theorem peek_eq_ok {r r' : Reader} {p : Piece} (h : peek r = .ok p r') :
    r'.pending = some p ∧ r'.remaining ≤ r.remaining := by
  unfold peek at h
  split at h
  · next q hq =>
    cases h
    exact ⟨hq, Nat.le_refl _⟩
  · next hq =>
    unfold Feed.read at h
    cases ha : r.feed.ahead with
    | nil =>
      rw [ha] at h
      cases ht : r.feed.tail <;> simp only [ht, Tail.outcome] at h
      · cases h
        refine ⟨rfl, ?_⟩
        simp [remaining, ha]
      · cases h
      · cases h
    | cons o rest =>
      rw [ha] at h
      cases o <;> simp only at h
      · cases h
        refine ⟨rfl, ?_⟩
        simp only [remaining, ha, List.length_cons, hq]
        split <;> omega
      · cases h
      · cases h

theorem take_eq_ok {r r' : Reader} {p : Piece} (h : take r = .ok p r') :
    ∃ s, peek r = .ok p s ∧ r' = { s with pending := none } := by
  obtain ⟨q, s, h₁, h₂⟩ := bind_eq_ok h
  obtain ⟨_, t, h₃, h₄⟩ := bind_eq_ok h₂
  cases h₃
  cases h₄
  exact ⟨s, h₁, rfl⟩

theorem remaining_clear_le (r : Reader) :
    ({ r with pending := none } : Reader).remaining ≤ r.remaining := by
  unfold remaining
  simp

theorem neverAdds_take : NeverAdds take := by
  intro r p r' h
  obtain ⟨s, hs, rfl⟩ := take_eq_ok h
  exact Nat.le_trans (remaining_clear_le s) (peek_eq_ok hs).2

theorem remaining_drop_le (n : Nat) (r : Reader) : (r.drop n).remaining ≤ r.remaining := by
  unfold drop
  split
  · exact Nat.le_refl _
  · simp only [remaining, Feed.advance, List.length_drop]
    omega
  · next hp =>
    simp only [remaining, Feed.advance, List.length_drop, hp]
    omega

theorem takeRun_eq_ok {accept : Piece → Bool} {r r' : Reader} {text : List Char}
    (h : takeRun accept r = .ok text r') :
    ∃ p, peek (r.drop (r.upcoming.takeWhile (·.accepted accept)).length) = .ok p r' := by
  obtain ⟨_, _, h₁, h⟩ := bind_eq_ok h
  cases h₁
  obtain ⟨_, _, h₁, h⟩ := bind_eq_ok h
  cases h₁
  obtain ⟨p, s, h₁, h⟩ := bind_eq_ok h
  cases h
  exact ⟨p, h₁⟩

theorem neverAdds_takeRun (accept : Piece → Bool) : NeverAdds (takeRun accept) := by
  intro r text r' h
  obtain ⟨p, hp⟩ := takeRun_eq_ok h
  exact Nat.le_trans (peek_eq_ok hp).2 (remaining_drop_le _ _)

/-! ## Where a run ends -/

theorem upcoming_drop (n : Nat) (r : Reader) : (r.drop n).upcoming = r.upcoming.drop n := by
  unfold drop
  split
  · rfl
  · next hp => simp [upcoming, Feed.advance, hp]
  · next hp => simp [upcoming, Feed.advance, hp]

theorem peek_upcoming {r r' : Reader} {p : Piece} (h : peek r = .ok p r') :
    r.upcoming.head? = some (.piece p) ∨ r.upcoming = [] ∧ p = [] := by
  unfold peek at h
  unfold upcoming
  split at h
  · next q hq =>
    cases h
    simp
  · next hq =>
    unfold Feed.read at h
    cases ha : r.feed.ahead with
    | nil =>
      rw [ha] at h
      cases ht : r.feed.tail <;> simp only [ht, Tail.outcome] at h <;> cases h
      simp
    | cons o rest =>
      rw [ha] at h
      cases o <;> simp only at h <;> cases h
      simp

theorem drop_length_takeWhile {α : Type} (test : α → Bool) (l : List α) :
    l.drop (l.takeWhile test).length = l.dropWhile test := by
  induction l with
  | nil => rfl
  | cons a l ih =>
    by_cases h : test a = true
    · simp [h, ih]
    · simp [h]

/-- A run ends in front of a piece that is held back and fails the test, or at the end
of the input. -/
theorem takeRun_stop {accept : Piece → Bool} {r r' : Reader} {text : List Char}
    (h : takeRun accept r = .ok text r') :
    ∃ p, r'.pending = some p ∧ (p.isEnd = true ∨ accept p = false) := by
  obtain ⟨p, hp⟩ := takeRun_eq_ok h
  refine ⟨p, (peek_eq_ok hp).1, ?_⟩
  rcases peek_upcoming hp with hh | ⟨_, rfl⟩
  · rw [upcoming_drop] at hh
    rw [drop_length_takeWhile] at hh
    have hn := List.head?_dropWhile_not (·.accepted accept) r.upcoming
    rw [hh] at hn
    change (!p.isEnd && accept p) = false at hn
    cases he : p.isEnd
    · rw [he] at hn
      exact Or.inr hn
    · exact Or.inl rfl
  · exact Or.inl rfl

/-! ## Taking text leaves less -/

theorem remaining_clear_lt {r : Reader} {p : Piece} (hp : r.pending = some p)
    (hne : p.isEnd = false) : ({ r with pending := none } : Reader).remaining < r.remaining := by
  cases p with
  | nil => simp [Piece.isEnd] at hne
  | cons c cs => simp [remaining, hp]

theorem take_lt {r r' : Reader} {p q : Piece} (hp : r.pending = some p)
    (hne : p.isEnd = false) (h : take r = .ok q r') : r'.remaining < r.remaining := by
  obtain ⟨s, hs, rfl⟩ := take_eq_ok h
  unfold peek at hs
  rw [hp] at hs
  cases hs
  exact remaining_clear_lt hp hne

theorem takeRun_lt {accept : Piece → Bool} {r r' : Reader} {p : Piece} {text : List Char}
    (hp : r.pending = some p) (hne : p.isEnd = false) (ha : accept p = true)
    (h : takeRun accept r = .ok text r') : r'.remaining < r.remaining := by
  obtain ⟨q, hq⟩ := takeRun_eq_ok h
  refine Nat.lt_of_le_of_lt (peek_eq_ok hq).2 ?_
  have hrun : r.upcoming.takeWhile (·.accepted accept) =
      .piece p :: r.feed.ahead.takeWhile (·.accepted accept) := by
    simp [upcoming, hp, Outcome.accepted, hne, ha]
  rw [hrun]
  refine Nat.lt_of_le_of_lt ?_ (remaining_clear_lt hp hne)
  simp only [List.length_cons, drop, hp, remaining, Feed.advance, List.length_drop]
  omega

end Reader

namespace Lexer

open Reader

/-! ## A token that is not final takes text -/

theorem scanNumber_lt {r r' : Reader} {p : Piece} {t : Token} (hp : r.pending = some p)
    (hne : p.isEnd = false) (hd : p.isDigit = true) (h : scanNumber r = .ok t r') :
    r'.remaining < r.remaining := by
  obtain ⟨whole, s, h₁, h⟩ := bind_eq_ok h
  refine Nat.lt_of_le_of_lt ?_ (takeRun_lt hp hne hd h₁)
  obtain ⟨q, s', h₂, h⟩ := bind_eq_ok h
  refine Nat.le_trans ?_ (peek_eq_ok h₂).2
  split at h
  · obtain ⟨_, u, h₃, h⟩ := bind_eq_ok h
    refine Nat.le_trans ?_ (neverAdds_take _ _ _ h₃)
    obtain ⟨next, u', h₄, h⟩ := bind_eq_ok h
    refine Nat.le_trans ?_ (peek_eq_ok h₄).2
    split at h
    · obtain ⟨fraction, v, h₅, h⟩ := bind_eq_ok h
      refine Nat.le_trans ?_ (neverAdds_takeRun _ _ _ _ h₅)
      exact neverAdds_pure _ _ _ _ h
    · exact neverAdds_throw _ _ _ _ h
  · exact neverAdds_pure _ _ _ _ h

theorem scanIdent_lt {r r' : Reader} {p : Piece} {t : Token} (hp : r.pending = some p)
    (hne : p.isEnd = false) (hi : p.isIdent = true) (h : scanIdent r = .ok t r') :
    r'.remaining < r.remaining := by
  obtain ⟨word, s, h₁, h⟩ := bind_eq_ok h
  exact Nat.lt_of_le_of_lt (neverAdds_pure _ _ _ _ h) (takeRun_lt hp hne hi h₁)

theorem scanUnknown_lt {r r' : Reader} {p : Piece} {t : Token} (hp : r.pending = some p)
    (hne : p.isEnd = false) (hb : p.isNotBlank = true) (h : scanUnknown r = .ok t r') :
    r'.remaining < r.remaining := by
  obtain ⟨word, s, h₁, h⟩ := bind_eq_ok h
  exact Nat.lt_of_le_of_lt (neverAdds_pure _ _ _ _ h) (takeRun_lt hp hne hb h₁)

theorem scanString_lt {o : Options} {r r' : Reader} {p quote : Piece} {t : Token}
    (hp : r.pending = some p) (hne : p.isEnd = false)
    (h : scanString o quote r = .ok t r') : r'.remaining < r.remaining := by
  obtain ⟨_, s, h₁, h⟩ := bind_eq_ok h
  refine Nat.lt_of_le_of_lt ?_ (take_lt hp hne h₁)
  obtain ⟨body, s', h₂, h⟩ := bind_eq_ok h
  refine Nat.le_trans ?_ (neverAdds_takeRun _ _ _ _ h₂)
  obtain ⟨q, u, h₃, h⟩ := bind_eq_ok h
  refine Nat.le_trans ?_ (peek_eq_ok h₃).2
  split at h
  · split at h
    · exact neverAdds_throw _ _ _ _ h
    · exact neverAdds_pure _ _ _ _ h
  · obtain ⟨_, v, h₄, h⟩ := bind_eq_ok h
    exact Nat.le_trans (neverAdds_pure _ _ _ _ h) (neverAdds_take _ _ _ h₄)

theorem scanPunctuation_lt {r r' : Reader} {p mark : Piece} {t : Token}
    (hp : r.pending = some p) (hne : p.isEnd = false)
    (h : scanPunctuation mark r = .ok t r') : r'.remaining < r.remaining := by
  obtain ⟨_, s, h₁, h⟩ := bind_eq_ok h
  refine Nat.lt_of_le_of_lt ?_ (take_lt hp hne h₁)
  obtain ⟨q, s', h₂, h⟩ := bind_eq_ok h
  refine Nat.le_trans ?_ (peek_eq_ok h₂).2
  cases hpair : Vocabulary.pair? (mark ++ q) with
  | some kind =>
    rw [hpair] at h
    obtain ⟨_, u, h₃, h⟩ := bind_eq_ok h
    exact Nat.le_trans (neverAdds_pure _ _ _ _ h) (neverAdds_take _ _ _ h₃)
  | none =>
    rw [hpair] at h
    cases hone : Vocabulary.operator? (String.ofList mark) with
    | some kind =>
      rw [hone] at h
      exact neverAdds_pure _ _ _ _ h
    | none =>
      rw [hone] at h
      exact neverAdds_throw _ _ _ _ h

/-- A token other than the end of the input takes the piece that it begins with. -/
theorem scanFrom_lt {o : Options} {r r' : Reader} {p : Piece} {t : Token}
    (hp : r.pending = some p) (hb : p.isEnd = true ∨ p.isBlank = false)
    (h : scanFrom o p r = .ok t r') (ht : t.isFinal = false) :
    r'.remaining < r.remaining := by
  unfold scanFrom at h
  split at h
  · cases h
    simp [Token.isFinal, Token.endOfInput] at ht
  · next hne =>
    have hne : p.isEnd = false := by simpa using hne
    split at h
    · next hd => exact scanNumber_lt hp hne hd h
    · split at h
      · next hi =>
        refine scanIdent_lt hp hne ?_ h
        cases p with
        | nil => cases hi
        | cons c cs =>
          cases cs with
          | nil =>
            simp only [Piece.isIdentStart, Piece.single] at hi
            simp [Piece.isIdent, Piece.single, CharClass.ident, hi]
          | cons _ _ => cases hi
      · split at h
        · exact scanString_lt hp hne h
        · split at h
          · exact scanPunctuation_lt hp hne h
          · refine scanUnknown_lt hp hne ?_ h
            rcases hb with hb | hb
            · rw [hne] at hb
              cases hb
            · simp [Piece.isNotBlank, hb]

theorem scan_lt {o : Options} {r r' : Reader} {t : Token}
    (h : scan o r = .ok t r') (ht : t.isFinal = false) : r'.remaining < r.remaining := by
  obtain ⟨blanks, s, h₁, h⟩ := bind_eq_ok h
  obtain ⟨q, hq, hstop⟩ := takeRun_stop h₁
  obtain ⟨p, s', h₂, h⟩ := bind_eq_ok h
  obtain ⟨hp, hle⟩ := peek_eq_ok h₂
  have hpq : p = q := by
    unfold peek at h₂
    rw [hq] at h₂
    cases h₂
    rfl
  subst hpq
  refine Nat.lt_of_lt_of_le (scanFrom_lt hp hstop h ht) ?_
  exact Nat.le_trans hle (neverAdds_takeRun _ _ _ _ h₁)

/-- **Progress.** A token that is not final leaves less of the input than there was. -/
theorem consume_lt {o : Options} {r r' : Reader} {t : Token}
    (h : consume o r = .ok t r') (ht : t.isFinal = false) : r'.remaining < r.remaining := by
  unfold consume at h
  split at h
  · next hs =>
    cases h
    exact scan_lt hs ht
  · next failure s hs =>
    unfold Failure.toToken? at h
    cases failure with
    | lexical e =>
      cases h
      simp [Token.isFinal, Token.ofError] at ht
    | reading f =>
      simp only at h
      split at h
      · next hf =>
        split at hf <;> cases hf
        cases h
        simp [Token.isFinal, Token.ofError] at ht
      · cases h

end Lexer

end FilterLex
