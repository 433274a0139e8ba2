import Mathlib.Algebra.Group.Nat.Defs
import FilterLex.Source

/-!
# Encoded text is decoded

A text in UTF-8 is a row of characters, each a lead byte and as many continuation bytes as the
lead announces. The decoder keeps the part of the code point that has been read; every byte
adds six bits to it, until it is the whole code point.

- `Announces`: an unfinished character is the beginning of a given code point.
- `decodeFrom_parts`: then its other bytes finish it.
- `decode_utf8`: encoded text is decoded, whatever characters it holds.
- `toLineFeeds_eq`: line ends are made line feeds in two passes.
-/

namespace FilterLex

namespace Text.Utf8

/-! ## Continuation bytes -/

/-- The continuation byte that is followed by `k` others. -/
def part (k v : Nat) : UInt8 := UInt8.ofNat (v / 64 ^ k % 64 + 0x80)

/-- The last `k + 1` continuation bytes of a code point. -/
def parts : (k : Nat) → Nat → List UInt8
  | 0, v => [part 0 v]
  | k + 1, v => part (k + 1) v :: parts k v

theorem length_parts (k v : Nat) : (parts k v).length = k + 1 := by
  induction k with
  | zero => rfl
  | succ k ih => rw [parts, List.length_cons, ih]

theorem head?_parts (k v : Nat) : (parts k v).head? = some (part k v) := by
  rcases k <;> rfl

theorem toNat_part (k v : Nat) : (part k v).toNat = v / 64 ^ k % 64 + 0x80 := by
  unfold part
  rw [UInt8.toNat_ofNat']
  omega

namespace Unfinished

variable {u : Unfinished} {v k : Nat}

theorem codeWith_part (h : u.code = v / 64 ^ (k + 1)) : u.codeWith (part k v) = v / 64 ^ k := by
  unfold codeWith
  rw [h, toNat_part, Nat.pow_succ, ← Nat.div_div_eq_div_mul]
  omega

/-- The character is the beginning of the code point `v`: what has been read of it is right,
and the next byte of it is acceptable. -/
structure Announces (u : Unfinished) (v : Nat) : Prop where
  code : u.code = v / 64 ^ (u.owed + 1)
  next : u.accepts (part u.owed v) = true

theorem accepts_part_iff : u.accepts (part k v) = true ↔
    u.low.toNat ≤ v / 64 ^ k % 64 + 0x80 ∧ v / 64 ^ k % 64 + 0x80 ≤ u.high.toNat := by
  unfold accepts
  simp only [UInt8.le_iff_toNat_le, toNat_part, decide_eq_true_eq]

/-- Every continuation byte is acceptable, unless the range is narrowed. -/
theorem accepts_part (hlow : u.low = 0x80) (hhigh : u.high = 0xBF) :
    u.accepts (part k v) = true := by
  rw [accepts_part_iff, hlow, hhigh]
  show 0x80 ≤ _ ∧ _ ≤ 0xBF
  omega

end Unfinished

/-- **The bytes that are owed finish the character,** and what is behind them is decoded. -/
theorem decodeFrom_parts {u : Unfinished} {v k : Nat} (h : u.Announces v) (hk : u.owed = k)
    (start : Nat) (rest : List UInt8) :
    decodeFrom start (some u) (parts k v ++ rest) =
      (decodeFrom (start + u.size + k + 1) none rest).cons (Char.ofNat v) := by
  induction k generalizing u with
  | zero =>
      obtain ⟨hcode, hnext⟩ := h
      rw [hk] at hcode hnext
      show decodeFrom start (some u) (part 0 v :: rest) = _
      rw [decodeFrom, if_pos hnext, hk]
      simp only [Unfinished.codeWith_part hcode, Nat.pow_zero, Nat.div_one, Nat.add_zero]
  | succ k ih =>
      obtain ⟨hcode, hnext⟩ := h
      rw [hk] at hcode hnext
      show decodeFrom start (some u) (part (k + 1) v :: (parts k v ++ rest)) = _
      rw [decodeFrom, if_pos hnext, hk]
      simp only []
      have hgoes : Unfinished.Announces
          { first := u.first, size := u.size + 1, code := u.codeWith (part (k + 1) v), owed := k }
          v := ⟨Unfinished.codeWith_part hcode, Unfinished.accepts_part rfl rfl⟩
      rw [ih hgoes rfl]
      congr 2
      show start + (u.size + 1) + k + 1 = start + u.size + (k + 1) + 1
      omega

/-! ## Lead bytes -/

/-- The byte begins the code point `v`, of which `k + 1` bytes are still to come. -/
structure Leads (b : UInt8) (k v : Nat) : Prop where
  high : 0x80 ≤ b.toNat
  begins : ∃ u, lead? b = some u ∧ u.owed = k ∧ u.size = 1 ∧ u.Announces v

theorem Leads.decodeFrom {b : UInt8} {k v : Nat} (h : Leads b k v) (start : Nat)
    (rest : List UInt8) :
    decodeFrom start none (b :: (parts k v ++ rest)) =
      (decodeFrom (start + k + 2) none rest).cons (Char.ofNat v) := by
  obtain ⟨hhigh, u, hlead, hk, hsize, hv⟩ := h
  rw [Utf8.decodeFrom, if_neg (Nat.not_lt.mpr hhigh), hlead]
  simp only []
  rw [decodeFrom_parts hv hk, hsize]
  congr 2
  omega

theorem leads_two {v : Nat} (hlow : 0x80 ≤ v) (hhigh : v ≤ 0x7FF) :
    Leads (UInt8.ofNat (v / 64 % 32 + 0xC0)) 0 v := by
  have hb : (UInt8.ofNat (v / 64 % 32 + 0xC0)).toNat = v / 64 + 0xC0 := by
    rw [UInt8.toNat_ofNat']
    omega
  refine ⟨by omega, ?_⟩
  unfold lead?
  simp only [hb]
  rw [if_pos (by omega)]
  refine ⟨_, rfl, rfl, rfl, ?_, Unfinished.accepts_part rfl rfl⟩
  show v / 64 + 0xC0 - 0xC0 = v / 64 ^ 1
  omega

/-- The first two of the leads narrow the next byte: the one keeps out what two bytes hold, the
other keeps out the surrogates. -/
theorem leads_three {v : Nat} (hlow : 0x800 ≤ v) (hhigh : v ≤ 0xFFFF)
    (hvalid : v < 0xD800 ∨ 0xDFFF < v) :
    Leads (UInt8.ofNat (v / 4096 % 16 + 0xE0)) 1 v := by
  have hb : (UInt8.ofNat (v / 4096 % 16 + 0xE0)).toNat = v / 4096 + 0xE0 := by
    rw [UInt8.toNat_ofNat']
    omega
  refine ⟨by omega, ?_⟩
  unfold lead?
  simp only [hb]
  rw [if_neg (by omega)]
  split
  · refine ⟨_, rfl, rfl, rfl, ?_, Unfinished.accepts_part_iff.mpr ?_⟩
    · show 0 = v / 64 ^ 2
      omega
    · show 0xA0 ≤ v / 64 ^ 1 % 64 + 0x80 ∧ v / 64 ^ 1 % 64 + 0x80 ≤ 0xBF
      omega
  split
  · refine ⟨_, rfl, rfl, rfl, ?_, Unfinished.accepts_part_iff.mpr ?_⟩
    · show 0xD = v / 64 ^ 2
      omega
    · show 0x80 ≤ v / 64 ^ 1 % 64 + 0x80 ∧ v / 64 ^ 1 % 64 + 0x80 ≤ 0x9F
      omega
  · rw [if_pos (by omega)]
    refine ⟨_, rfl, rfl, rfl, ?_, Unfinished.accepts_part rfl rfl⟩
    show v / 4096 + 0xE0 - 0xE0 = v / 64 ^ 2
    omega

/-- The first of the leads keeps out what three bytes hold, the last what is beyond the last
code point. -/
theorem leads_four {v : Nat} (hlow : 0x10000 ≤ v) (hhigh : v < 0x110000) :
    Leads (UInt8.ofNat (v / 262144 % 8 + 0xF0)) 2 v := by
  have hb : (UInt8.ofNat (v / 262144 % 8 + 0xF0)).toNat = v / 262144 + 0xF0 := by
    rw [UInt8.toNat_ofNat']
    omega
  refine ⟨by omega, ?_⟩
  unfold lead?
  simp only [hb]
  rw [if_neg (by omega), if_neg (by omega), if_neg (by omega), if_neg (by omega)]
  split
  · refine ⟨_, rfl, rfl, rfl, ?_, Unfinished.accepts_part_iff.mpr ?_⟩
    · show 0 = v / 64 ^ 3
      omega
    · show 0x90 ≤ v / 64 ^ 2 % 64 + 0x80 ∧ v / 64 ^ 2 % 64 + 0x80 ≤ 0xBF
      omega
  split
  · refine ⟨_, rfl, rfl, rfl, ?_, Unfinished.accepts_part rfl rfl⟩
    show v / 262144 + 0xF0 - 0xF0 = v / 64 ^ 3
    omega
  · rw [if_pos (by omega)]
    refine ⟨_, rfl, rfl, rfl, ?_, Unfinished.accepts_part_iff.mpr ?_⟩
    · show 4 = v / 64 ^ 3
      omega
    · show 0x80 ≤ v / 64 ^ 2 % 64 + 0x80 ∧ v / 64 ^ 2 % 64 + 0x80 ≤ 0x8F
      omega

/-! ## Whole texts -/

theorem decodeFrom_ascii {v : Nat} (h : v ≤ 0x7F) (start : Nat) (rest : List UInt8) :
    decodeFrom start none (UInt8.ofNat v :: rest) =
      (decodeFrom (start + 1) none rest).cons (Char.ofNat v) := by
  have hb : (UInt8.ofNat v).toNat = v := by
    rw [UInt8.toNat_ofNat']
    omega
  rw [decodeFrom, hb, if_pos (by omega)]

theorem encodeChar_eq (c : Char) :
    String.utf8EncodeChar c =
      if c.toNat ≤ 0x7F then [UInt8.ofNat c.toNat]
      else if c.toNat ≤ 0x7FF then
        UInt8.ofNat (c.toNat / 64 % 32 + 0xC0) :: parts 0 c.toNat
      else if c.toNat ≤ 0xFFFF then
        UInt8.ofNat (c.toNat / 4096 % 16 + 0xE0) :: parts 1 c.toNat
      else UInt8.ofNat (c.toNat / 262144 % 8 + 0xF0) :: parts 2 c.toNat := by
  unfold String.utf8EncodeChar
  simp only [parts, part, Char.toNat_val, Nat.pow_zero, Nat.div_one, Nat.pow_one,
    Nat.reducePow, Nat.reduceAdd]

/-- The bytes of a character: it stands alone, or a lead byte and its continuation. -/
theorem encodeChar_cases (c : Char) :
    (c.toNat ≤ 0x7F ∧ String.utf8EncodeChar c = [UInt8.ofNat c.toNat]) ∨
      ∃ b k, Leads b k c.toNat ∧ String.utf8EncodeChar c = b :: parts k c.toNat := by
  have hvalid : c.toNat.isValidChar := c.valid
  unfold Nat.isValidChar at hvalid
  rw [encodeChar_eq]
  split
  · next h => exact Or.inl ⟨h, rfl⟩
  right
  split
  · exact ⟨_, 0, leads_two (by omega) (by omega), rfl⟩
  split
  · exact ⟨_, 1, leads_three (by omega) (by omega) (by omega), rfl⟩
  · exact ⟨_, 2, leads_four (by omega) (by omega), rfl⟩

/-- **A character is decoded,** whatever is behind it. -/
theorem decodeFrom_encodeChar (start : Nat) (c : Char) (rest : List UInt8) :
    decodeFrom start none (String.utf8EncodeChar c ++ rest) =
      (decodeFrom (start + (String.utf8EncodeChar c).length) none rest).cons c := by
  rcases encodeChar_cases c with ⟨hascii, hbytes⟩ | ⟨b, k, hleads, hbytes⟩
  · rw [hbytes, List.singleton_append, decodeFrom_ascii hascii, Char.ofNat_toNat]
    rfl
  · rw [hbytes, List.cons_append, hleads.decodeFrom, Char.ofNat_toNat, List.length_cons,
      length_parts]
    rfl

theorem decodeFrom_utf8 (start : Nat) (cs : List Char) :
    decodeFrom start none (cs.flatMap String.utf8EncodeChar) = .text cs := by
  induction cs generalizing start with
  | nil => rfl
  | cons c cs ih =>
      rw [List.flatMap_cons, decodeFrom_encodeChar, ih]
      rfl

theorem bytes_toUTF8 (s : String) :
    s.toUTF8.data.toList = s.toList.flatMap String.utf8EncodeChar := by
  rw [String.toUTF8_eq_toByteArray, ← String.utf8Encode_toList]
  exact List.toList_data_toByteArray

/-- **Encoded text is decoded.** -/
theorem decode_utf8 (s : String) : decode s.toUTF8.data.toList = .text s.toList := by
  rw [bytes_toUTF8]
  exact decodeFrom_utf8 0 s.toList

end Text.Utf8

/-! ## Line ends -/

namespace Text

/-- Every carriage return with a line feed behind it gives way to the line feed. -/
def joinLineEnds : List Char → List Char
  | [] => []
  | '\r' :: '\n' :: rest => '\n' :: joinLineEnds rest
  | c :: rest => c :: joinLineEnds rest

/-- The text with line feeds in the place of the pairs, and then of the carriage returns that
are left. -/
def withLineFeeds (s : String) : String :=
  String.ofList ((joinLineEnds s.toList).map fun c => if c = '\r' then '\n' else c)

theorem toLineFeeds_eq (cs : List Char) :
    toLineFeeds cs = (joinLineEnds cs).map fun c => if c = '\r' then '\n' else c := by
  fun_induction toLineFeeds cs with
  | case1 => rfl
  | case2 rest ih =>
      rw [ih]
      rfl
  | case3 c rest hpair ih =>
      rw [joinLineEnds, ih]
      · rfl
      · exact hpair

end Text

end FilterLex
