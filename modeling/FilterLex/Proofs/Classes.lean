import FilterLex.Piece

/-!
# The classes of characters are disjoint

The lexer tries its classes in a fixed order. The order does not matter, because no
character is in two of them: each class is a set of ASCII code points, and the sets do
not meet. The second half says what the vocabulary is made of in terms of the classes.
-/

namespace FilterLex

namespace CharClass

/-! ## Classes as sets of code points -/

theorem digit_iff (c : Char) : digit c = true ↔ 48 ≤ c.toNat ∧ c.toNat ≤ 57 := by
  unfold digit
  rw [decide_eq_true_eq, Char.le_def, Char.le_def]
  rfl

theorem identStart_iff (c : Char) : identStart c = true ↔
    c.toNat = 95 ∨ (97 ≤ c.toNat ∧ c.toNat ≤ 122) ∨ (65 ≤ c.toNat ∧ c.toNat ≤ 90) := by
  unfold identStart
  rw [decide_eq_true_eq, Char.le_def, Char.le_def, Char.le_def, Char.le_def, ← Char.toNat_inj]
  rfl

theorem quote_iff (c : Char) : quote c = true ↔ c.toNat = 39 ∨ c.toNat = 34 := by
  unfold quote
  rw [decide_eq_true_eq, ← Char.toNat_inj, ← Char.toNat_inj]
  rfl

theorem punctuation_iff (c : Char) : punctuation c = true ↔
    c.toNat = 33 ∨ c.toNat = 38 ∨ c.toNat = 40 ∨ c.toNat = 41 ∨ c.toNat = 44 ∨
    c.toNat = 45 ∨ c.toNat = 46 ∨ c.toNat = 60 ∨ c.toNat = 61 ∨ c.toNat = 62 ∨
    c.toNat = 63 ∨ c.toNat = 91 ∨ c.toNat = 93 ∨ c.toNat = 124 := by
  unfold punctuation Vocabulary.punctuation
  simp only [List.contains_iff_mem, List.mem_cons, ← Char.toNat_inj, List.not_mem_nil, or_false]
  rfl

theorem blank_iff (c : Char) :
    blank c = true ↔ c.toNat = 32 ∨ c.toNat = 9 ∨ c.toNat = 10 ∨ c.toNat = 13 := by
  unfold blank
  rw [decide_eq_true_eq]
  simp only [← Char.toNat_inj]
  rfl

/-! ## No character is in two classes -/

variable {c : Char}

theorem digit_only (h : digit c = true) :
    identStart c = false ∧ quote c = false ∧ punctuation c = false ∧ blank c = false := by
  rw [digit_iff] at h
  simp only [← Bool.not_eq_true, identStart_iff, quote_iff, punctuation_iff, blank_iff]
  omega

theorem identStart_only (h : identStart c = true) :
    digit c = false ∧ quote c = false ∧ punctuation c = false ∧ blank c = false := by
  rw [identStart_iff] at h
  simp only [← Bool.not_eq_true, digit_iff, quote_iff, punctuation_iff, blank_iff]
  omega

theorem quote_only (h : quote c = true) :
    digit c = false ∧ identStart c = false ∧ punctuation c = false ∧ blank c = false := by
  rw [quote_iff] at h
  simp only [← Bool.not_eq_true, digit_iff, identStart_iff, punctuation_iff, blank_iff]
  omega

theorem punctuation_only (h : punctuation c = true) :
    digit c = false ∧ identStart c = false ∧ quote c = false ∧ blank c = false := by
  rw [punctuation_iff] at h
  simp only [← Bool.not_eq_true, digit_iff, identStart_iff, quote_iff, blank_iff]
  omega

theorem blank_only (h : blank c = true) :
    digit c = false ∧ identStart c = false ∧ quote c = false ∧ punctuation c = false := by
  rw [blank_iff] at h
  simp only [← Bool.not_eq_true, digit_iff, identStart_iff, quote_iff, punctuation_iff]
  omega

/-- The characters that begin a lexeme: letters, the underscore, digits, quotes and marks. -/
def starts (c : Char) : Bool := identStart c || digit c || quote c || punctuation c

theorem starts_cases (h : starts c = true) :
    identStart c = true ∨ digit c = true ∨ quote c = true ∨ punctuation c = true := by
  simpa [starts, or_assoc] using h

theorem not_starts (h : starts c = false) :
    identStart c = false ∧ digit c = false ∧ quote c = false ∧ punctuation c = false := by
  simpa [starts, and_assoc] using h

theorem ne_of_punctuation {a : Char} (ha : punctuation a = true) (hc : punctuation c = false) :
    c ≠ a := by
  rintro rfl
  exact absurd ha (Bool.eq_false_iff.mp hc)

theorem ident_of_start (h : identStart c = true) : ident c = true := by
  simp [ident, h]

/-- A word is a run of identifier characters from its start on. -/
theorem ident_run {w : List Char} (hc : identStart c = true) (hw : ∀ x ∈ w, ident x = true) :
    ∀ x ∈ c :: w, ident x = true := by
  intro x hx
  rcases List.mem_cons.mp hx with rfl | hx
  · exact ident_of_start hc
  · exact hw x hx

end CharClass

end FilterLex
