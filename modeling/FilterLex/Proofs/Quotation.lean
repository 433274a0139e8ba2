import Mathlib.Algebra.Group.Nat.Defs
import FilterLex.Text.Quoted

/-!
# Quoted text is read back

What stands between the marks is either a character as it is, or a backslash and what names
the character behind it. The letter behind the backslash tells how long the escape is, so the
reader finds the next character, whatever it is.

- `unhex?_hex`: a code point is read back from its hexadecimal digits.
- `decodeBody_escape`: each character is read back, with anything behind it.
- `decode_encode`: and so is the whole text.
- `printable_encode`: all that is written is printable, and so stays on one line.
-/

namespace FilterLex.Text

/-! ## What is printable -/

def IsControl (c : Char) : Prop := c.toNat ≤ 0x1F ∨ 0x7F ≤ c.toNat ∧ c.toNat ≤ 0x9F

/-- The line separator or the paragraph separator. -/
def IsSeparator (c : Char) : Prop := c.toNat = 0x2028 ∨ c.toNat = 0x2029

theorem not_control_of_printable {c : Char} (h : isPrintable c = true) : ¬ IsControl c := by
  have hlow : ∀ n, n ≤ 0x1F → inRanges n unprintableRanges = true := by decide +kernel
  have hhigh : ∀ n, n ≤ 0x9F → 0x7F ≤ n → inRanges n unprintableRanges = true := by
    decide +kernel
  unfold isPrintable at h
  rintro (hc | ⟨hge, hle⟩)
  · rw [hlow _ hc] at h
    cases h
  · rw [hhigh _ hle hge] at h
    cases h

theorem not_separator_of_printable {c : Char} (h : isPrintable c = true) : ¬ IsSeparator c := by
  have hline : inRanges 0x2028 unprintableRanges = true := by decide +kernel
  have hparagraph : inRanges 0x2029 unprintableRanges = true := by decide +kernel
  unfold isPrintable at h
  rintro (hc | hc)
  · rw [hc, hline] at h
    cases h
  · rw [hc, hparagraph] at h
    cases h

namespace Quoted

variable {q c x : Char} {s rest : List Char}

/-! ## Hexadecimal digits -/

theorem hexValue?_digitChar : ∀ d, d < 16 → hexValue? (Nat.digitChar d) = some d := by decide

theorem printable_digitChar : ∀ d, d < 16 → isPrintable (Nat.digitChar d) = true := by decide

theorem printable_hex {w n : Nat} (h : x ∈ hex w n) : isPrintable x = true := by
  induction w generalizing n with
  | zero => cases h
  | succ w ih =>
      rcases List.mem_append.mp h with h | h
      · exact ih h
      · rw [List.mem_singleton.mp h]
        exact printable_digitChar _ (Nat.mod_lt n (by decide))

theorem foldlM_hex (w n acc : Nat) :
    (hex w n).foldlM (fun n d => (hexValue? d).map (16 * n + ·)) acc =
      some (16 ^ w * acc + n % 16 ^ w) := by
  induction w generalizing n with
  | zero => simp [hex, Nat.mod_one]
  | succ w ih =>
      have hdigit : n % 16 ^ (w + 1) = 16 * (n / 16 % 16 ^ w) + n % 16 := by
        rw [Nat.pow_succ, Nat.mul_comm, Nat.mod_mul, Nat.add_comm]
      unfold hex
      rw [List.foldlM_append, ih]
      simp only [Option.bind_eq_bind, Option.bind_some, List.foldlM_cons, List.foldlM_nil,
        hexValue?_digitChar _ (Nat.mod_lt n (by decide : 0 < 16)), Option.map_some, hdigit]
      rw [Nat.pow_succ, Nat.mul_comm (16 ^ w) 16, Nat.mul_add, Nat.mul_assoc, Nat.add_assoc]
      rfl

theorem unhex?_hex {w : Nat} (c : Char) (hw : c.toNat < 16 ^ w) :
    unhex? (hex w c.toNat) = some c := by
  have hvalid : c.toNat.isValidChar := c.valid
  unfold unhex?
  rw [foldlM_hex, Nat.mul_zero, Nat.zero_add, Nat.mod_eq_of_lt hw]
  simp [hvalid, Char.ofNat_toNat]

/-! ## Reading -/

def IsMark (q : Char) : Prop := q = '\'' ∨ q = '"'

theorem isMark_mark (s : List Char) : IsMark (mark s) := by
  unfold mark IsMark
  split
  · exact Or.inr rfl
  · exact Or.inl rfl

theorem toNat_lt_of_valid (c : Char) : c.toNat < 16 ^ 8 := by
  have hvalid : c.toNat.isValidChar := c.valid
  unfold Nat.isValidChar at hvalid
  omega

/-- What is read first goes in front of what is read behind it. -/
theorem bind_cons (o : Option (List Char)) (c : Char) :
    (some c >>= fun x => o >>= fun xs => pure (x :: xs)) = o.map (c :: ·) := by
  cases o <;> rfl

theorem decodeBody_escapeCode (q c : Char) (rest : List Char) :
    decodeBody q (escapeCode c.toNat ++ rest) = (decodeBody q rest).map (c :: ·) := by
  -- the letter says how many digits are to come, and there are as many
  unfold escapeCode
  split
  · next h =>
    rw [← bind_cons, ← unhex?_hex (w := 2) c h]
    rfl
  · split
    · next h =>
      rw [← bind_cons, ← unhex?_hex (w := 4) c h]
      rfl
    · rw [← bind_cons, ← unhex?_hex (w := 8) c (toNat_lt_of_valid c)]
      rfl

theorem decodeBody_cons (hslash : c ≠ '\\') (hq : c ≠ q) (rest : List Char) :
    decodeBody q (c :: rest) = (decodeBody q rest).map (c :: ·) := by
  rw [decodeBody.eq_def]
  simp [hslash, hq]

/-- **Each character is read back,** whatever is behind it. -/
theorem decodeBody_escape (hq : IsMark q) (c : Char) (rest : List Char) :
    decodeBody q (escape q c ++ rest) = (decodeBody q rest).map (c :: ·) := by
  unfold escape
  split
  · next hmark =>
    -- neither a mark nor the backslash is a letter of an escape
    have hc : c = '\'' ∨ c = '"' ∨ c = '\\' := by
      rcases hmark with rfl | rfl
      · rcases hq with rfl | rfl
        · exact Or.inl rfl
        · exact Or.inr (Or.inl rfl)
      · exact Or.inr (Or.inr rfl)
    show decodeBody q ('\\' :: c :: rest) = _
    rcases hc with rfl | rfl | rfl
    · exact if_pos hmark
    · exact if_pos hmark
    · exact if_pos hmark
  · next hmark =>
    split
    · next hc =>
      subst hc
      rfl
    split
    · next hc =>
      subst hc
      rfl
    split
    · next hc =>
      subst hc
      rfl
    split
    · obtain ⟨hq', hslash⟩ := not_or.mp hmark
      exact decodeBody_cons hslash hq' rest
    · exact decodeBody_escapeCode q c rest

theorem decodeBody_flatMap (hq : IsMark q) (s rest : List Char) :
    decodeBody q (s.flatMap (escape q) ++ rest) = (decodeBody q rest).map (s ++ ·) := by
  induction s with
  | nil => simp
  | cons c s ih =>
      rw [List.flatMap_cons, List.append_assoc, decodeBody_escape hq, ih, Option.map_map]
      rfl

theorem decodeBody_mark (hq : IsMark q) : decodeBody q [q] = some [] := by
  rcases hq with rfl | rfl <;> rfl

/-- **A text is read back** from its quoted form. -/
theorem decode_encode (s : List Char) : decode (encode s) = some s := by
  have hq := isMark_mark s
  calc decode (encode s)
      = decodeBody (mark s) (s.flatMap (escape (mark s)) ++ [mark s]) := if_pos hq
    _ = (decodeBody (mark s) [mark s]).map (s ++ ·) := decodeBody_flatMap hq s _
    _ = some s := by rw [decodeBody_mark hq, Option.map_some, List.append_nil]

example : quote "it's a\tb\u00e9\u0085" = "\"it's a\\tb\u00e9\\x85\"" := by decide +kernel
example : decode (encode "a'\"\\\n\u2028".toList) = some "a'\"\\\n\u2028".toList := by
  decide +kernel

theorem encode_injective {s t : List Char} (h : encode s = encode t) : s = t := by
  have hread := decode_encode s
  rw [h, decode_encode t] at hread
  exact (Option.some.inj hread).symm

/-! ## Printable text -/

theorem printable_mark (hq : IsMark q) : isPrintable q = true := by
  rcases hq with rfl | rfl <;> decide +kernel

theorem printable_backslash : isPrintable '\\' = true := by decide +kernel

theorem printable_pair (hc : isPrintable c = true) (h : x ∈ ['\\', c]) :
    isPrintable x = true := by
  rcases List.mem_cons.mp h with rfl | h
  · exact printable_backslash
  · rw [List.mem_singleton.mp h]
    exact hc

theorem printable_escapeCode {n : Nat} (h : x ∈ escapeCode n) : isPrintable x = true := by
  have hletters : ['x', 'u', 'U'].all isPrintable = true := by decide +kernel
  obtain ⟨letter, w, hletter, hx⟩ :
      ∃ letter w, letter ∈ ['x', 'u', 'U'] ∧ x ∈ ['\\', letter] ++ hex w n := by
    unfold escapeCode at h
    split at h
    · exact ⟨'x', 2, by decide, h⟩
    split at h
    · exact ⟨'u', 4, by decide, h⟩
    · exact ⟨'U', 8, by decide, h⟩
  rcases List.mem_append.mp hx with hx | hx
  · exact printable_pair (List.all_eq_true.mp hletters _ hletter) hx
  · exact printable_hex hx

theorem printable_escape (hq : IsMark q) (h : x ∈ escape q c) : isPrintable x = true := by
  unfold escape at h
  split at h
  · next hmark =>
    refine printable_pair ?_ h
    rcases hmark with rfl | rfl
    · exact printable_mark hq
    · exact printable_backslash
  split at h
  · exact printable_pair (by decide +kernel) h
  split at h
  · exact printable_pair (by decide +kernel) h
  split at h
  · exact printable_pair (by decide +kernel) h
  split at h
  · next hprintable =>
    rw [List.mem_singleton.mp h]
    exact hprintable
  · exact printable_escapeCode h

/-- **All that is written is printable.** -/
theorem printable_encode (h : x ∈ encode s) : isPrintable x = true := by
  have hq := isMark_mark s
  rcases List.mem_cons.mp h with rfl | h
  · exact printable_mark hq
  rcases List.mem_append.mp h with h | h
  · obtain ⟨c, -, hx⟩ := List.mem_flatMap.mp h
    exact printable_escape hq hx
  · rw [List.mem_singleton.mp h]
    exact printable_mark hq

end Quoted

end FilterLex.Text
