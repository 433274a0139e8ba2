import FilterLex.Proofs.DecodedText

/-!
# Bytes that are no text

The decoder goes through well-formed characters and stops at the first byte that fits none. What
it says of the bytes there is compared with the encoding of characters, of which the decoder
itself knows nothing: the bytes it holds back are the beginning of some character, and the byte
it refuses goes on none.

- `Behind`: the bytes that an unfinished character was read from.
- `Behind.spells`, `Behind.announced`: the characters that begin with these bytes are those that
  the unfinished character announces.
- `decodeFrom_says`: what the decoder says is right, whatever the bytes.
- `decode_refused`: bytes that are no text and are not cut off are refused as a whole, at the end
  of the longest text they begin with.
- `decode_cutOff`, `decode_surrogate`: at the end, the beginning of a character is held back, and
  so is the beginning of a surrogate.
-/

namespace FilterLex.Text.Utf8

/-! ## Well-formed and ill-formed bytes -/

def bytesOf (cs : List Char) : List UInt8 := cs.flatMap String.utf8EncodeChar

@[simp] theorem bytesOf_nil : bytesOf [] = [] := rfl

theorem bytesOf_cons (c : Char) (cs : List Char) :
    bytesOf (c :: cs) = String.utf8EncodeChar c ++ bytesOf cs := List.flatMap_cons

def WellFormed (bytes : List UInt8) : Prop := bytes.toByteArray.IsValidUTF8

theorem wellFormed_iff {bytes : List UInt8} : WellFormed bytes ↔ ∃ cs, bytes = bytesOf cs := by
  constructor
  · rintro ⟨cs, hcs⟩
    refine ⟨cs, ?_⟩
    have hlists := congrArg (fun b : ByteArray => b.data.toList) hcs
    rwa [List.utf8Encode, List.toList_data_toByteArray, List.toList_data_toByteArray] at hlists
  · rintro ⟨cs, rfl⟩
    exact ⟨cs, rfl⟩

/-- The beginning of a character, but not all of it. -/
def Incomplete (part : List UInt8) : Prop :=
  part ≠ [] ∧ ∃ c back, back ≠ [] ∧ String.utf8EncodeChar c = part ++ back

def BeginsNone (part : List UInt8) : Prop := ∀ c, ¬ part <+: String.utf8EncodeChar c

/-- A text is followed by the beginning of one more character. -/
def CutOff (bytes : List UInt8) : Prop := ∃ cs part, Incomplete part ∧ bytes = bytesOf cs ++ part

/-- A text is followed by two bytes that would begin a surrogate. -/
def EndsInSurrogate (bytes : List UInt8) : Prop :=
  ∃ cs b, (0xA0 ≤ b ∧ b ≤ 0xBF) ∧ bytes = bytesOf cs ++ [0xED, b]

/-- The first `n` bytes are a text, and no more of them are. -/
structure LongestText (bytes : List UInt8) (n : Nat) : Prop where
  le : n ≤ bytes.length
  wellFormed : WellFormed (bytes.take n)
  longest : ∀ m ≤ bytes.length, WellFormed (bytes.take m) → m ≤ n

/-- An error that rightly rejects what `bytes` begin with: either their first byte, which begins no
character, or the part of a character that is in front of the first byte that no longer fits. The
bytes stand at position `start`. -/
inductive Rejects (start : Nat) : List UInt8 → DecodeError → Prop
  | byte {b : UInt8} {rest : List UInt8} (hbegins : BeginsNone [b]) :
      Rejects start (b :: rest) { first := b, start, size := 1, reason := .invalidStart }
  | beginning {b c : UInt8} {part rest : List UInt8} (hpart : Incomplete (b :: part))
      (hnext : BeginsNone (b :: part ++ [c])) :
      Rejects start (b :: part ++ c :: rest)
        { first := b, start, size := (b :: part).length, reason := .invalidContinuation }

theorem Rejects.start_eq {start : Nat} {bytes : List UInt8} {e : DecodeError}
    (h : Rejects start bytes e) : e.start = start := by
  rcases h <;> rfl

/-! ## The bytes that have been read of a character -/

theorem toNat_ofNat {v : Nat} (h : v.isValidChar) : (Char.ofNat v).toNat = v := by
  unfold Char.ofNat
  rw [dif_pos h]
  rfl

theorem ofNat_eq {n : Nat} {b : UInt8} (h : n = b.toNat) : UInt8.ofNat n = b := by
  rw [h, UInt8.ofNat_toNat]

namespace Unfinished

variable {u : Unfinished} {b : UInt8} {v : Nat}

theorem accepts_iff :
    u.accepts b = true ↔ u.low.toNat ≤ b.toNat ∧ b.toNat ≤ u.high.toNat := by
  unfold accepts
  simp only [UInt8.le_iff_toNat_le, decide_eq_true_eq]

theorem beginsSurrogate_iff : u.beginsSurrogate b = true ↔
    u.first = 0xED ∧ u.size = 1 ∧ 0xA0 ≤ b ∧ b ≤ 0xBF := by
  unfold beginsSurrogate
  exact decide_eq_true_iff

/-- The range of the next byte is a range of continuation bytes. -/
structure Within (u : Unfinished) : Prop where
  low : 0x80 ≤ u.low.toNat
  nonempty : u.low.toNat ≤ u.high.toNat
  high : u.high.toNat ≤ 0xBF

/-- An acceptable byte is announced by the code point that it leads to. -/
theorem Within.announces (h : u.Within) (hb : u.accepts b = true) :
    u.Announces (u.codeWith b * 64 ^ u.owed) ∧ part u.owed (u.codeWith b * 64 ^ u.owed) = b := by
  obtain ⟨hlow, -, hhigh⟩ := h
  have hrange := accepts_iff.mp hb
  have hpos : 0 < 64 ^ u.owed := Nat.pow_pos (by decide)
  have hpart : part u.owed (u.codeWith b * 64 ^ u.owed) = b := by
    unfold part codeWith
    rw [Nat.mul_div_cancel _ hpos]
    exact ofNat_eq (by omega)
  refine ⟨⟨?_, ?_⟩, hpart⟩
  · unfold codeWith
    rw [Nat.pow_succ, ← Nat.div_div_eq_div_mul, Nat.mul_div_cancel _ hpos]
    omega
  · rwa [hpart]

end Unfinished

/-! ### Lead bytes -/

theorem lead?_first {b : UInt8} {u : Unfinished} (h : lead? b = some u) :
    u.first = b ∧ u.size = 1 ∧ 0x80 ≤ b.toNat := by
  unfold lead? at h
  simp only [] at h
  repeat' split at h
  all_goals cases h
  all_goals exact ⟨rfl, rfl, by omega⟩

theorem lead?_within {b : UInt8} {u : Unfinished} (h : lead? b = some u) : u.Within := by
  unfold lead? at h
  simp only [] at h
  repeat' split at h
  all_goals cases h
  all_goals constructor <;> simp only [UInt8.reduceToNat, Nat.reduceLeDiff, Nat.le_refl]

theorem encodeChar_ascii {b : UInt8} (h : b.toNat < 0x80) :
    String.utf8EncodeChar (Char.ofNat b.toNat) = [b] := by
  rw [encodeChar_eq, toNat_ofNat (Or.inl (by omega)), if_pos (by omega), UInt8.ofNat_toNat]

theorem encodeChar_two {b : UInt8} {v : Nat} (hlow : 0x80 ≤ v) (hhigh : v ≤ 0x7FF)
    (hb : v / 64 + 0xC0 = b.toNat) :
    v.isValidChar ∧ String.utf8EncodeChar (Char.ofNat v) = b :: parts 0 v := by
  have hvalid : v.isValidChar := Or.inl (by omega)
  refine ⟨hvalid, ?_⟩
  rw [encodeChar_eq, toNat_ofNat hvalid, if_neg (by omega), if_pos hhigh,
    ofNat_eq (b := b) (by omega)]

theorem encodeChar_three {b : UInt8} {v : Nat} (hlow : 0x800 ≤ v) (hhigh : v ≤ 0xFFFF)
    (hsurrogate : v < 0xD800 ∨ 0xDFFF < v) (hb : v / 4096 + 0xE0 = b.toNat) :
    v.isValidChar ∧ String.utf8EncodeChar (Char.ofNat v) = b :: parts 1 v := by
  have hvalid : v.isValidChar := by
    unfold Nat.isValidChar
    omega
  refine ⟨hvalid, ?_⟩
  rw [encodeChar_eq, toNat_ofNat hvalid, if_neg (by omega), if_neg (by omega), if_pos hhigh,
    ofNat_eq (b := b) (by omega)]

theorem encodeChar_four {b : UInt8} {v : Nat} (hlow : 0x10000 ≤ v) (hhigh : v < 0x110000)
    (hb : v / 262144 + 0xF0 = b.toNat) :
    v.isValidChar ∧ String.utf8EncodeChar (Char.ofNat v) = b :: parts 2 v := by
  have hvalid : v.isValidChar := Or.inr (by omega)
  refine ⟨hvalid, ?_⟩
  rw [encodeChar_eq, toNat_ofNat hvalid, if_neg (by omega), if_neg (by omega), if_neg (by omega),
    ofNat_eq (b := b) (by omega)]

/-- A lead byte announces the code points of the characters that begin with it, and no other
number: none that fewer bytes can hold, no surrogate, and none beyond the last code point. -/
theorem lead?_spells {b : UInt8} {u : Unfinished} {v : Nat} (h : lead? b = some u)
    (hv : u.Announces v) :
    v.isValidChar ∧ String.utf8EncodeChar (Char.ofNat v) = b :: parts u.owed v := by
  obtain ⟨hcode, hnext⟩ := hv
  rw [Unfinished.accepts_part_iff] at hnext
  unfold lead? at h
  simp only [] at h
  repeat' split at h
  all_goals cases h
  all_goals
    simp only [Nat.reduceAdd, Nat.reducePow, UInt8.reduceToNat] at hcode hnext
  · exact encodeChar_two (by omega) (by omega) (by omega)
  · exact encodeChar_three (by omega) (by omega) (by omega) (by omega)
  · exact encodeChar_three (by omega) (by omega) (by omega) (by omega)
  · exact encodeChar_three (by omega) (by omega) (by omega) (by omega)
  · exact encodeChar_four (by omega) (by omega) (by omega)
  · exact encodeChar_four (by omega) (by omega) (by omega)
  · exact encodeChar_four (by omega) (by omega) (by omega)

/-- The bytes that an unfinished character was read from. -/
inductive Behind : List UInt8 → Unfinished → Prop
  | lead {b : UInt8} {u : Unfinished} (h : lead? b = some u) : Behind [b] u
  | next {seen : List UInt8} {u : Unfinished} {b : UInt8} {k : Nat} (h : Behind seen u)
      (howed : u.owed = k + 1) (hb : u.accepts b = true) :
      Behind (seen ++ [b])
        { first := u.first, size := u.size + 1, code := u.codeWith b, owed := k }

namespace Behind

variable {seen : List UInt8} {u : Unfinished}

theorem within (h : Behind seen u) : u.Within := by
  rcases h with hlead | _
  · exact lead?_within hlead
  · constructor <;> simp only [UInt8.reduceToNat, Nat.reduceLeDiff, Nat.le_refl]

theorem head (h : Behind seen u) : ∃ part, seen = u.first :: part := by
  induction h with
  | lead h =>
      obtain ⟨rfl, -⟩ := lead?_first h
      exact ⟨[], rfl⟩
  | next _ _ _ ih =>
      obtain ⟨part, rfl⟩ := ih
      exact ⟨_, rfl⟩

theorem size_eq (h : Behind seen u) : u.size = seen.length := by
  induction h with
  | lead h => exact (lead?_first h).2.1
  | next _ _ _ ih => rw [List.length_append, ← ih, List.length_singleton]

/-- **What the unfinished character announces is a character that begins with these bytes.** -/
theorem spells (h : Behind seen u) {v : Nat} (hv : u.Announces v) :
    v.isValidChar ∧ String.utf8EncodeChar (Char.ofNat v) = seen ++ parts u.owed v := by
  induction h with
  | lead h => exact lead?_spells h hv
  | @next seen u b k h howed hb ih =>
      have hrange := Unfinished.accepts_iff.mp hb
      obtain ⟨hlow, -, hhigh⟩ := h.within
      have hcode : u.codeWith b = v / 64 ^ (k + 1) := hv.code
      unfold Unfinished.codeWith at hcode
      have hpart : part (k + 1) v = b := ofNat_eq (by omega)
      have hbefore : u.Announces v := by
        refine ⟨?_, ?_⟩
        · rw [howed, Nat.pow_succ, ← Nat.div_div_eq_div_mul]
          omega
        · rw [howed, hpart]
          exact hb
      obtain ⟨hvalid, hbytes⟩ := ih hbefore
      refine ⟨hvalid, ?_⟩
      rw [hbytes, howed, parts, hpart, List.append_assoc, List.singleton_append]

/-- **A character that begins with these bytes is announced.** -/
theorem announced (h : Behind seen u) {c : Char} {back : List UInt8}
    (hc : String.utf8EncodeChar c = seen ++ back) :
    u.Announces c.toNat ∧ back = parts u.owed c.toNat := by
  induction h generalizing back with
  | @lead b u h =>
      obtain ⟨-, -, hhigh⟩ := lead?_first h
      rcases encodeChar_cases c with ⟨hascii, hbytes⟩ | ⟨b', k, hleads, hbytes⟩
      · rw [hbytes, List.singleton_append, List.cons.injEq] at hc
        rw [← hc.1, UInt8.toNat_ofNat'] at hhigh
        omega
      · rw [hbytes, List.singleton_append, List.cons.injEq] at hc
        obtain ⟨rfl, rfl⟩ := hc
        obtain ⟨-, u', hlead, hk, -, hv⟩ := hleads
        obtain rfl : u' = u := Option.some.inj (hlead.symm.trans h)
        exact ⟨hv, by rw [hk]⟩
  | @next seen u b k h howed hb ih =>
      rw [List.append_assoc] at hc
      obtain ⟨hv, hback⟩ := ih hc
      rw [howed, parts, List.singleton_append, List.cons.injEq] at hback
      obtain ⟨rfl, rfl⟩ := hback
      exact ⟨⟨Unfinished.codeWith_part (howed ▸ hv.code), Unfinished.accepts_part rfl rfl⟩, rfl⟩

/-- The bytes are the beginning of a character: of one that goes on with the least byte that is
acceptable. -/
theorem incomplete (h : Behind seen u) : Incomplete seen := by
  obtain ⟨hlow, hnonempty, hhigh⟩ := h.within
  have hleast : u.accepts u.low = true := Unfinished.accepts_iff.mpr ⟨Nat.le_refl _, hnonempty⟩
  obtain ⟨-, hbytes⟩ := h.spells (h.within.announces hleast).1
  refine ⟨?_, _, _, ?_, hbytes⟩
  · obtain ⟨part, rfl⟩ := h.head
    exact List.cons_ne_nil _ _
  · exact List.ne_nil_of_length_eq_add_one (length_parts _ _)

theorem finished (h : Behind seen u) (howed : u.owed = 0) {b : UInt8} (hb : u.accepts b = true) :
    String.utf8EncodeChar (Char.ofNat (u.codeWith b)) = seen ++ [b] := by
  obtain ⟨hv, hpart⟩ := h.within.announces hb
  obtain ⟨-, hbytes⟩ := h.spells hv
  rw [howed, Nat.pow_zero, Nat.mul_one] at hbytes hpart
  rw [hbytes, parts, hpart]

theorem refused (h : Behind seen u) {b : UInt8} (hb : ¬ u.accepts b = true) :
    BeginsNone (seen ++ [b]) := by
  rintro c ⟨back, hc⟩
  rw [List.append_assoc] at hc
  obtain ⟨⟨-, hnext⟩, hback⟩ := h.announced hc.symm
  have hpart : part u.owed c.toNat = b := by
    have hhead := congrArg List.head? hback
    rw [head?_parts] at hhead
    exact (Option.some.inj hhead).symm
  exact hb (hpart ▸ hnext)

end Behind

/-- No character begins with a byte that is neither a character nor a lead. -/
theorem beginsNone_of_lead? {b : UInt8} (hhigh : ¬ b.toNat < 0x80) (h : lead? b = none) :
    BeginsNone [b] := by
  rintro c ⟨back, hc⟩
  rcases encodeChar_cases c with ⟨hascii, hbytes⟩ | ⟨b', k, hleads, hbytes⟩
  · rw [hbytes, List.singleton_append, List.cons.injEq] at hc
    rw [hc.1, UInt8.toNat_ofNat'] at hhigh
    omega
  · rw [hbytes, List.singleton_append, List.cons.injEq] at hc
    obtain ⟨-, u, hlead, -⟩ := hleads
    rw [← hc.1, h] at hlead
    cases hlead

/-! ## What the decoder says -/

def cutOffError (b : UInt8) (part : List UInt8) : DecodeError :=
  { first := b, start := 0, size := (b :: part).length, reason := .unexpectedEnd }

def surrogateError : DecodeError :=
  { first := 0xED, start := 0, size := 1, reason := .invalidContinuation }

def Held : Option Unfinished → List UInt8 → Prop
  | none, seen => seen = []
  | some u, seen => Behind seen u

/-- A result that is right of bytes that stand at position `start`. -/
inductive Says (start : Nat) : List UInt8 → Decoded → Prop
  | text (cs : List Char) : Says start (bytesOf cs) (.text cs)
  | malformed (cs : List Char) {rest : List UInt8} {e : DecodeError}
      (h : Rejects (start + (bytesOf cs).length) rest e) :
      Says start (bytesOf cs ++ rest) (.malformed e)
  | cutOff (cs : List Char) {b : UInt8} {part : List UInt8} (h : Incomplete (b :: part)) :
      Says start (bytesOf cs ++ b :: part) (.truncated cs (cutOffError b part))
  | surrogate (cs : List Char) {b : UInt8} (h : 0xA0 ≤ b ∧ b ≤ 0xBF) :
      Says start (bytesOf cs ++ [0xED, b]) (.truncated cs surrogateError)

theorem Says.character {start : Nat} {c : Char} {front bytes : List UInt8} {d : Decoded}
    (hc : String.utf8EncodeChar c = front) (h : Says (start + front.length) bytes d) :
    Says start (front ++ bytes) (d.cons c) := by
  subst hc
  rcases h with cs | ⟨cs, h⟩ | ⟨cs, h⟩ | ⟨cs, h⟩
  · exact Says.text (c :: cs)
  · rw [← List.append_assoc, ← bytesOf_cons]
    refine Says.malformed (c :: cs) ?_
    rwa [bytesOf_cons, List.length_append, ← Nat.add_assoc]
  · rw [← List.append_assoc, ← bytesOf_cons]
    exact Says.cutOff (c :: cs) h
  · rw [← List.append_assoc, ← bytesOf_cons]
    exact Says.surrogate (c :: cs) h

/-- **What the decoder says is right,** of the bytes that it holds back and those that follow. -/
theorem decodeFrom_says (start : Nat) (held : Option Unfinished) (bytes seen : List UInt8)
    (h : Held held seen) : Says start (seen ++ bytes) (decodeFrom start held bytes) := by
  fun_induction decodeFrom start held bytes generalizing seen with
  | case1 start =>
      obtain rfl : seen = [] := h
      exact Says.text []
  | case2 start u =>
      obtain ⟨part, rfl⟩ := h.head
      rw [List.append_nil, Unfinished.error, h.size_eq]
      exact Says.cutOff [] h.incomplete
  | case3 start b rest hascii ih =>
      obtain rfl : seen = [] := h
      show Says start ([b] ++ rest) _
      exact Says.character (encodeChar_ascii hascii) (ih [] rfl)
  | case4 start b rest hhigh u hlead ih =>
      obtain rfl : seen = [] := h
      exact ih [b] (Behind.lead hlead)
  | case5 start b rest hhigh hlead =>
      obtain rfl : seen = [] := h
      exact Says.malformed [] (Rejects.byte (beginsNone_of_lead? hhigh hlead))
  | case6 start u b rest hb howed ih =>
      have hbytes := h.finished howed hb
      have hrest := ih [] rfl
      rw [h.size_eq] at hrest ⊢
      rw [List.append_cons]
      refine Says.character hbytes ?_
      rwa [List.length_append]
  | case7 start u b rest hb k howed ih =>
      rw [List.append_cons]
      exact ih _ (Behind.next h howed hb)
  | case8 start u b rest hb hends =>
      rw [Bool.and_eq_true, List.isEmpty_iff] at hends
      obtain ⟨hsurrogate, rfl⟩ := hends
      obtain ⟨hfirst, hsize, hrange⟩ := Unfinished.beginsSurrogate_iff.mp hsurrogate
      obtain ⟨part, rfl⟩ := h.head
      rw [h.size_eq, List.length_cons, Nat.add_eq_right, List.length_eq_zero_iff] at hsize
      subst hsize
      rw [Unfinished.error, h.size_eq, hfirst]
      exact Says.surrogate [] hrange
  | case9 start u b rest hb hends =>
      obtain ⟨part, rfl⟩ := h.head
      rw [Unfinished.error, h.size_eq]
      exact Says.malformed [] (Rejects.beginning h.incomplete (h.refused hb))

theorem le_of_malformed {start : Nat} {bytes : List UInt8} {e : DecodeError}
    (h : decodeFrom start none bytes = .malformed e) : start ≤ e.start := by
  have hsays := decodeFrom_says start none bytes [] rfl
  rw [h, List.nil_append] at hsays
  obtain _ | ⟨cs, hrejects⟩ := hsays
  rw [hrejects.start_eq]
  exact Nat.le_add_right _ _

/-! ## What is behind a text -/

def Decoded.after (cs : List Char) (d : Decoded) : Decoded := cs.foldr Decoded.cons d

theorem Decoded.after_truncated (cs before : List Char) (e : DecodeError) :
    Decoded.after cs (.truncated before e) = .truncated (cs ++ before) e := by
  induction cs with
  | nil => rfl
  | cons c cs ih =>
      show (Decoded.after cs (.truncated before e)).cons c = _
      rw [ih]
      rfl

/-- A refusal is one of what follows the text. -/
theorem Decoded.of_after_malformed {cs : List Char} {d : Decoded} {e : DecodeError}
    (h : Decoded.after cs d = .malformed e) : d = .malformed e := by
  induction cs with
  | nil => exact h
  | cons c cs ih =>
      refine ih ?_
      unfold Decoded.after at h ⊢
      rw [List.foldr_cons] at h
      cases hd : cs.foldr Decoded.cons d with
      | malformed e' =>
          rw [hd] at h
          exact h
      | text _ => rw [hd] at h; cases h
      | truncated _ _ => rw [hd] at h; cases h

theorem decodeFrom_bytesOf (start : Nat) (cs : List Char) (rest : List UInt8) :
    decodeFrom start none (bytesOf cs ++ rest) =
      (decodeFrom (start + (bytesOf cs).length) none rest).after cs := by
  induction cs generalizing start with
  | nil => rfl
  | cons c cs ih =>
      rw [bytesOf_cons, List.append_assoc, decodeFrom_encodeChar, ih, List.length_append,
        Nat.add_assoc]
      rfl

/-- The bytes that are decoded are the well-formed ones. -/
theorem wellFormed_iff_decode {bytes : List UInt8} :
    WellFormed bytes ↔ ∃ cs, decode bytes = .text cs := by
  rw [wellFormed_iff]
  constructor
  · rintro ⟨cs, rfl⟩
    exact ⟨cs, decodeFrom_utf8 0 cs⟩
  · rintro ⟨cs, hcs⟩
    have hsays : Says 0 bytes (decode bytes) := decodeFrom_says 0 none bytes [] rfl
    rw [hcs] at hsays
    cases hsays
    exact ⟨cs, rfl⟩

/-- What is refused stands at the end of the longest text. -/
theorem longestText_of_malformed {cs : List Char} {rest : List UInt8} {e : DecodeError}
    (h : decode (bytesOf cs ++ rest) = .malformed e) (he : e.start = (bytesOf cs).length) :
    LongestText (bytesOf cs ++ rest) (bytesOf cs).length where
  le := by rw [List.length_append]; exact Nat.le_add_right _ _
  wellFormed := wellFormed_iff.mpr ⟨cs, List.take_left⟩
  longest := by
    intro m hm hwell
    obtain ⟨ds, hds⟩ := wellFormed_iff.mp hwell
    have hlength : (bytesOf ds).length = m := by rw [← hds, List.length_take_of_le hm]
    rw [← List.take_append_drop m (bytesOf cs ++ rest), hds] at h
    unfold decode at h
    rw [decodeFrom_bytesOf, Nat.zero_add, hlength] at h
    rw [← he]
    exact le_of_malformed (Decoded.of_after_malformed h)

/-- **Bytes that are no text and are not cut off are refused as a whole.** The error names the
place where the longest text ends, and the bytes there that are rejected. -/
theorem decode_refused {bytes : List UInt8} (hbytes : ¬ WellFormed bytes)
    (hcut : ¬ CutOff bytes) (hsurrogate : ¬ EndsInSurrogate bytes) :
    ∃ n e, decode bytes = .malformed e ∧ LongestText bytes n ∧ Rejects n (bytes.drop n) e := by
  have hsays : Says 0 bytes (decode bytes) := decodeFrom_says 0 none bytes [] rfl
  generalize hd : decode bytes = d at hsays
  rcases hsays with cs | ⟨cs, hrejects⟩ | ⟨cs, hpart⟩ | ⟨cs, hrange⟩
  · exact absurd (wellFormed_iff_decode.mpr ⟨cs, hd⟩) hbytes
  · rw [Nat.zero_add] at hrejects
    refine ⟨_, _, rfl, longestText_of_malformed hd hrejects.start_eq, ?_⟩
    rwa [List.drop_left]
  · exact absurd ⟨cs, _, hpart, rfl⟩ hcut
  · exact absurd ⟨cs, _, hrange, rfl⟩ hsurrogate

/-! ## What is held back at the end -/

theorem decodeFrom_announced {u : Unfinished} {v start : Nat} {begun back : List UInt8}
    (hv : u.Announces v) (hparts : parts u.owed v = begun ++ back) (hback : back ≠ []) :
    decodeFrom start (some u) begun =
      .truncated [] { first := u.first, start := 0, size := u.size + begun.length,
                      reason := .unexpectedEnd } := by
  induction begun generalizing u with
  | nil => rfl
  | cons b begun ih =>
      obtain ⟨hcode, hnext⟩ := hv
      cases howed : u.owed with
      | zero =>
          rw [howed, parts, List.cons_append, List.cons.injEq] at hparts
          exact absurd (List.append_eq_nil_iff.mp hparts.2.symm).2 hback
      | succ k =>
          rw [howed] at hcode hnext hparts
          rw [parts, List.cons_append, List.cons.injEq] at hparts
          obtain ⟨rfl, hparts⟩ := hparts
          rw [decodeFrom, if_pos hnext, howed]
          simp only []
          have hgoes : Unfinished.Announces
              { first := u.first, size := u.size + 1, code := u.codeWith (part (k + 1) v),
                owed := k } v :=
            ⟨Unfinished.codeWith_part hcode, Unfinished.accepts_part rfl rfl⟩
          rw [ih hgoes hparts, List.length_cons, Nat.add_assoc, Nat.add_comm 1]

theorem decodeFrom_incomplete {b : UInt8} {part : List UInt8} (h : Incomplete (b :: part))
    (start : Nat) :
    decodeFrom start none (b :: part) = .truncated [] (cutOffError b part) := by
  obtain ⟨-, c, back, hback, hc⟩ := h
  rw [List.cons_append] at hc
  rcases encodeChar_cases c with ⟨-, hbytes⟩ | ⟨b', k, hleads, hbytes⟩
  · rw [hbytes, List.cons.injEq] at hc
    exact absurd (List.append_eq_nil_iff.mp hc.2.symm).2 hback
  · rw [hbytes, List.cons.injEq] at hc
    obtain ⟨rfl, hparts⟩ := hc
    obtain ⟨hhigh, u, hlead, rfl, hsize, hv⟩ := hleads
    rw [decodeFrom, if_neg (Nat.not_lt.mpr hhigh), hlead]
    simp only []
    rw [decodeFrom_announced hv hparts hback, (lead?_first hlead).1, hsize, cutOffError,
      List.length_cons, Nat.add_comm 1]

/-- **The beginning of a character is held back at the end,** and the text before it is
delivered. -/
theorem decode_cutOff (cs : List Char) {b : UInt8} {part : List UInt8}
    (h : Incomplete (b :: part)) :
    decode (bytesOf cs ++ b :: part) = .truncated cs (cutOffError b part) := by
  unfold decode
  rw [decodeFrom_bytesOf, decodeFrom_incomplete h, Decoded.after_truncated, List.append_nil]

/-- **So is the beginning of a surrogate,** although it begins no character. -/
theorem decode_surrogate (cs : List Char) {b : UInt8} (h : 0xA0 ≤ b ∧ b ≤ 0xBF) :
    decode (bytesOf cs ++ [0xED, b]) = .truncated cs surrogateError := by
  have hrefused : ¬ (0x80 ≤ b ∧ b ≤ 0x9F) := fun hb =>
    absurd (UInt8.le_trans h.1 hb.2) (by decide)
  have hheld : ∀ start, decodeFrom start none [0xED, b] = .truncated [] surrogateError := by
    intro start
    simp [decodeFrom, lead?, Unfinished.accepts, Unfinished.beginsSurrogate, Unfinished.error,
      surrogateError, h, hrefused]
  unfold decode
  rw [decodeFrom_bytesOf, hheld, Decoded.after_truncated, List.append_nil]

end FilterLex.Text.Utf8
