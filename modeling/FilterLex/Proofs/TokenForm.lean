import FilterLex.Proofs.Lexeme
import FilterLex.Proofs.Footprint

/-!
# The form of tokens

What the lexeme of a token is made of depends on its kind. For most kinds this holds
whatever the reads of the source bring: several characters at once, none, or failures.
Two kinds need single characters: an unknown run then holds no blank, and the body of a
string lacks one of the quotes.

- `Token.WellFormed`, `Token.Plain`: the two parts of the form.
- `Verdict.Sound`, `verdict_sound`: what is in front of any pieces has this form.
- `scan_sound`: so has every token that is scanned.
-/

namespace FilterLex

open CharClass

/-! ## Forms of lexemes -/

def IsDigits (cs : List Char) : Prop := cs ≠ [] ∧ ∀ c ∈ cs, digit c = true

def IsDecimal (cs : List Char) : Prop :=
  ∃ ds fs, cs = ds ++ '.' :: fs ∧ IsDigits ds ∧ IsDigits fs

def IsIdentifier (cs : List Char) : Prop :=
  ∃ c w, cs = c :: w ∧ identStart c = true ∧ ∀ x ∈ w, ident x = true

namespace Token

/-- The form of a lexeme, kind by kind. -/
structure WellFormed (t : Token) : Prop where
  int : t.kind = .int → IsDigits t.lexeme.toList
  float : t.kind = .float → IsDecimal t.lexeme.toList
  bool : t.kind = .bool → t.lexeme = "true" ∨ t.lexeme = "false"
  keyword : t.kind.isKeyword = true → Vocabulary.keyword? t.lexeme = some t.kind
  operator : t.kind.isOperator = true → Vocabulary.operator? t.lexeme = some t.kind
  ident : t.kind = .ident →
    IsIdentifier t.lexeme.toList ∧ Vocabulary.keyword? t.lexeme = none
  unknown : t.kind = .unknown → t.lexeme ≠ ""
  eof : t.kind = .eof → t.lexeme = "<EOF>"

/-- The form that a lexeme has besides if its source delivers single characters. -/
structure Plain (t : Token) : Prop where
  unknown : t.kind = .unknown → (∀ c ∈ t.lexeme.toList, blank c = false) ∧
    ∀ c ∈ t.lexeme.toList.head?, starts c = false
  string : t.kind = .string → ∃ q, quote q = true ∧ q ∉ t.lexeme.toList

variable {t : Token} {cs : List Char}

theorem plain_of_ne (hu : t.kind ≠ .unknown) (hs : t.kind ≠ .string) : t.Plain :=
  ⟨fun h => absurd h hu, fun h => absurd h hs⟩

/-! ## Tokens of a given kind -/

theorem wellFormed_ofError (message : String) : (ofError message).WellFormed := by
  constructor <;> rintro ⟨⟩

theorem wellFormed_endOfInput : endOfInput.WellFormed := by
  constructor
  case eof => exact fun _ => rfl
  all_goals rintro ⟨⟩

theorem wellFormed_int (h : IsDigits cs) : (ofChars .int cs).WellFormed := by
  constructor
  case int =>
    intro _
    unfold ofChars
    rwa [String.toList_ofList]
  all_goals rintro ⟨⟩

theorem wellFormed_float (h : IsDecimal cs) : (ofChars .float cs).WellFormed := by
  constructor
  case float =>
    intro _
    unfold ofChars
    rwa [String.toList_ofList]
  all_goals rintro ⟨⟩

theorem wellFormed_string (cs : List Char) : (ofChars .string cs).WellFormed := by
  constructor <;> rintro ⟨⟩

theorem wellFormed_unknown (h : cs ≠ []) : (ofChars .unknown cs).WellFormed := by
  constructor
  case unknown =>
    intro _ hempty
    apply h
    rw [← String.toList_ofList (l := cs)]
    exact congrArg String.toList hempty
  all_goals rintro ⟨⟩

theorem wellFormed_operator {kind : Kind} (h : Vocabulary.operator? (String.ofList cs) = some kind) :
    (ofChars kind cs).WellFormed := by
  obtain ⟨hop, -⟩ := Vocabulary.operator_cases h
  have hne : ∀ k : Kind, k.isOperator = false → kind ≠ k := by
    rintro k hk rfl
    rw [hk] at hop
    cases hop
  have hkey : kind.isKeyword = false := by
    cases kind <;> first | rfl | cases hop
  constructor
  case operator => exact fun _ => h
  case keyword => exact fun h => absurd h (Bool.eq_false_iff.mp hkey)
  all_goals exact fun hk => absurd hk (hne _ rfl)

theorem keywords_bool : ∀ p ∈ Vocabulary.keywords, p.2 = .bool → p.1 = "true" ∨ p.1 = "false" := by
  decide

theorem wellFormed_ofWord (h : IsIdentifier cs) : (ofWord cs).WellFormed := by
  cases hk : Vocabulary.keyword? (String.ofList cs) with
  | none =>
      have hword : ofWord cs = ⟨.ident, String.ofList cs⟩ := by
        unfold ofWord
        rw [hk]
        rfl
      rw [hword]
      constructor
      case ident =>
        intro _
        rw [String.toList_ofList]
        exact ⟨h, hk⟩
      all_goals rintro ⟨⟩
  | some kind =>
      have hword : ofWord cs = ⟨kind, String.ofList cs⟩ := by
        unfold ofWord
        rw [hk]
        rfl
      have hmem := Vocabulary.mem_of_keyword? hk
      have hkind : kind.isKeyword = true ∨ kind = .bool := Vocabulary.keywords_kind _ hmem
      have hne : ∀ k : Kind, k.isKeyword = false → k ≠ .bool → kind ≠ k := by
        rintro k hkey hbool rfl
        rcases hkind with hkind | hkind
        · rw [hkey] at hkind
          cases hkind
        · exact hbool hkind
      have hop : kind.isOperator = false := by
        have hisWord := Kind.ne_of_isWord (Lexer.isWord_ofWord cs)
        rw [hword] at hisWord
        exact hisWord.2.2.2
      rw [hword]
      constructor
      case bool => exact fun hbool => keywords_bool _ hmem hbool
      case keyword => exact fun _ => hk
      case operator => exact fun h => absurd h (Bool.eq_false_iff.mp hop)
      all_goals exact fun hk => absurd hk (hne _ rfl (by decide))

end Token

namespace Piece

/-! ## Runs of pieces -/

variable {accept : Piece → Bool} {test : Char → Bool} {ps : List Piece} {p : Piece}

theorem mem_run (h : p ∈ Piece.run accept ps) : p ≠ [] ∧ accept p = true := by
  have := List.mem_takeWhile_imp h
  rw [Bool.and_eq_true, Bool.not_eq_true'] at this
  obtain ⟨hend, haccept⟩ := this
  refine ⟨?_, haccept⟩
  rintro rfl
  cases hend

theorem single_run {c : Char} (h : c ∈ (Piece.run (Piece.single test) ps).flatten) :
    test c = true := by
  obtain ⟨p, hp, hc⟩ := List.mem_flatten.mp h
  have hsingle := (mem_run hp).2
  unfold single at hsingle
  split at hsingle
  · rw [List.mem_singleton.mp hc]
    exact hsingle
  · cases hsingle

/-- A run in front of which an accepted piece stands begins with it. -/
theorem run_of_head (hend : (ps.headD []).isEnd = false) (h : accept (ps.headD []) = true) :
    ∃ more, Piece.run accept ps = ps.headD [] :: more := by
  cases ps with
  | nil => cases hend
  | cons p ps =>
      refine ⟨Piece.run accept ps, ?_⟩
      have hp : (!p.isEnd && accept p) = true := by
        rw [show p.isEnd = false from hend, show accept p = true from h]
        rfl
      exact List.takeWhile_cons_of_pos hp

theorem single_eq (h : Piece.single test p = true) : ∃ c, p = [c] ∧ test c = true := by
  unfold single at h
  split at h
  · exact ⟨_, rfl, h⟩
  · cases h

theorem isEnd_of_single (h : Piece.single test p = true) : p.isEnd = false := by
  obtain ⟨c, rfl, -⟩ := single_eq h
  rfl

theorem isDigits_run (h : (ps.headD []).isDigit = true) :
    IsDigits (Piece.run Piece.isDigit ps).flatten := by
  obtain ⟨more, hrun⟩ := run_of_head (isEnd_of_single h) h
  constructor
  · rw [hrun]
    obtain ⟨c, hc, -⟩ := single_eq h
    rw [hc]
    simp
  · intro c hc
    exact single_run hc

theorem isIdentifier_run (h : (ps.headD []).isIdentStart = true) :
    IsIdentifier (Piece.run Piece.isIdent ps).flatten := by
  obtain ⟨c, hc, hstart⟩ := single_eq h
  have hident : Piece.isIdent (ps.headD []) = true := by
    rw [hc]
    exact ident_of_start hstart
  obtain ⟨more, hrun⟩ := run_of_head (isEnd_of_single h) hident
  refine ⟨c, more.flatten, ?_, hstart, ?_⟩
  · rw [hrun, hc]
    rfl
  · intro x hx
    have hmem : x ∈ (Piece.run Piece.isIdent ps).flatten := by
      rw [hrun]
      exact List.mem_append_right _ hx
    exact single_run hmem

theorem mem_take_of_run {n : Nat} (h : p ∈ Piece.run accept ps)
    (hn : (Piece.run accept ps).length ≤ n) : p ∈ ps.take n :=
  (List.prefix_take_iff.mpr ⟨List.takeWhile_prefix _, hn⟩).subset h

/-- A run of pieces of which none is longer than one character is spelled by characters
that are accepted one by one. -/
theorem accepted_of_short {c : Char} (hshort : ∀ p ∈ Piece.run accept ps, p.length ≤ 1)
    (hc : c ∈ (Piece.run accept ps).flatten) : accept [c] = true := by
  obtain ⟨p, hp, hmem⟩ := List.mem_flatten.mp hc
  obtain ⟨hne, haccept⟩ := mem_run hp
  obtain ⟨d, more, rfl⟩ := List.exists_cons_of_ne_nil hne
  have hlen := hshort _ hp
  have hnil : more = [] := by
    cases more with
    | nil => rfl
    | cons x more => simp at hlen
  subst hnil
  rw [List.mem_singleton.mp hmem]
  exact haccept

end Piece

namespace Lexer

/-! ## Verdicts -/

namespace Verdict

/-- The token of a verdict has its form, and it is no report of an error. -/
def Sound (ps : List Piece) (v : Verdict) : Prop :=
  ∀ t, v.result = .ok t → t.WellFormed ∧ t.kind ≠ .error ∧
    ((∀ p ∈ ps.take v.taken, p.length ≤ 1) → t.Plain)

variable {ps : List Piece} {v : Verdict}

theorem Sound.after {n : Nat} (h : v.Sound (ps.drop n)) : (v.after n).Sound ps := by
  intro t ht
  obtain ⟨hform, herror, hplain⟩ := h t ht
  refine ⟨hform, herror, fun hshort => hplain ?_⟩
  intro p hp
  apply hshort
  rw [show (v.after n).taken = n + v.taken from rfl, List.take_add]
  exact List.mem_append_right _ hp

theorem fraction_sound {whole : List Char} (hwhole : IsDigits whole) (ps : List Piece) :
    (fraction whole ps).Sound ps := by
  intro t ht
  unfold fraction at ht
  split at ht
  · next hd =>
    cases ht
    have hdecimal : IsDecimal (whole ++ '.' :: (Piece.run Piece.isDigit ps).flatten) :=
      ⟨_, _, rfl, hwhole, Piece.isDigits_run hd⟩
    exact ⟨Token.wellFormed_float hdecimal, by rintro ⟨⟩,
      fun _ => Token.plain_of_ne (by rintro ⟨⟩) (by rintro ⟨⟩)⟩
  · cases ht

theorem number_sound (h : (ps.headD []).isDigit = true) : (number ps).Sound ps := by
  have hwhole := Piece.isDigits_run h
  unfold number
  simp only []
  split
  · exact (fraction_sound hwhole _).after
  · rintro t ⟨⟩
    exact ⟨Token.wellFormed_int hwhole, by rintro ⟨⟩,
      fun _ => Token.plain_of_ne (by rintro ⟨⟩) (by rintro ⟨⟩)⟩

theorem word_sound (h : (ps.headD []).isIdentStart = true) : (word ps).Sound ps := by
  rintro t ⟨⟩
  have hword := isWord_ofWord (Piece.run Piece.isIdent ps).flatten
  obtain ⟨hstring, herror, -, -⟩ := Kind.ne_of_isWord hword
  have hunknown : (Token.ofWord (Piece.run Piece.isIdent ps).flatten).kind ≠ .unknown := by
    intro hkind
    rw [hkind] at hword
    cases hword
  exact ⟨Token.wellFormed_ofWord (Piece.isIdentifier_run h), herror,
    fun _ => Token.plain_of_ne hunknown hstring⟩

theorem body_sound (o : Options) {q : Char} (hq : quote q = true) (ps : List Piece) :
    (body o [q] ps).Sound ps := by
  have hstring : ∀ n, (Piece.run (· != [q]) ps).length ≤ n →
      (∀ p ∈ ps.take n, p.length ≤ 1) →
      (Token.ofChars .string (Piece.run (· != [q]) ps).flatten).Plain := by
    intro n hn hshort
    refine ⟨by rintro ⟨⟩, fun _ => ⟨q, hq, ?_⟩⟩
    unfold Token.ofChars
    rw [String.toList_ofList]
    intro hmem
    have haccept := Piece.accepted_of_short
      (fun p hp => hshort p (Piece.mem_take_of_run hp hn)) hmem
    simp at haccept
  intro t ht
  unfold body at ht ⊢
  simp only [] at ht ⊢
  split at ht
  · next hend =>
    rw [if_pos hend]
    simp only [] at ht
    split at ht
    · cases ht
    · cases ht
      exact ⟨Token.wellFormed_string _, by rintro ⟨⟩, hstring _ (Nat.le_refl _)⟩
  · next hend =>
    rw [if_neg hend]
    cases ht
    exact ⟨Token.wellFormed_string _, by rintro ⟨⟩, hstring _ (Nat.le_succ _)⟩

/-- A token that the table of operators names. -/
theorem operator_sound {kind : Kind} {cs : List Char}
    (h : Vocabulary.operator? (String.ofList cs) = some kind) :
    (Token.ofChars kind cs).WellFormed ∧ kind ≠ .error ∧ (Token.ofChars kind cs).Plain := by
  obtain ⟨hop, -⟩ := Vocabulary.operator_cases h
  obtain ⟨hstring, herror, -⟩ := Kind.ne_of_isOperator hop
  refine ⟨Token.wellFormed_operator h, herror, Token.plain_of_ne ?_ hstring⟩
  rintro rfl
  cases hop

theorem second_sound (mark : Piece) (ps : List Piece) : (second mark ps).Sound ps := by
  intro t ht
  unfold second at ht
  cases hpair : Vocabulary.pair? (mark ++ ps.headD []) with
  | some kind =>
      rw [hpair] at ht
      cases ht
      have hop : Vocabulary.operator? (String.ofList (mark ++ ps.headD [])) = some kind := by
        unfold Vocabulary.pair? at hpair
        split at hpair
        · exact hpair
        · cases hpair
      obtain ⟨hform, herror, hplain⟩ := operator_sound hop
      exact ⟨hform, herror, fun _ => hplain⟩
  | none =>
      rw [hpair] at ht
      cases hone : Vocabulary.operator? (String.ofList mark) with
      | some kind =>
          rw [hone] at ht
          cases ht
          obtain ⟨hform, herror, hplain⟩ := operator_sound hone
          exact ⟨hform, herror, fun _ => hplain⟩
      | none =>
          rw [hone] at ht
          cases ht

theorem unknown_sound (hend : (ps.headD []).isEnd = false)
    (hblank : (ps.headD []).isBlank = false)
    (hstarts : ∀ c, ps.headD [] = [c] → starts c = false) : (unknown ps).Sound ps := by
  have hnot : Piece.isNotBlank (ps.headD []) = true := by
    unfold Piece.isNotBlank
    rw [hblank]
    rfl
  obtain ⟨more, hrun⟩ := Piece.run_of_head hend hnot
  have hhead : ps.headD [] ≠ [] := by
    intro h
    rw [h] at hend
    cases hend
  rintro t ⟨⟩
  refine ⟨Token.wellFormed_unknown ?_, by rintro ⟨⟩, fun hshort => ⟨fun _ => ?_, by rintro ⟨⟩⟩⟩
  · rw [hrun]
    exact List.append_ne_nil_of_left_ne_nil hhead _
  · have hshort' : ∀ p ∈ Piece.run Piece.isNotBlank ps, p.length ≤ 1 :=
      fun p hp => hshort p (Piece.mem_take_of_run hp (Nat.le_refl _))
    unfold Token.ofChars
    rw [String.toList_ofList]
    constructor
    · intro c hc
      have hnotBlank := Piece.accepted_of_short hshort' hc
      unfold Piece.isNotBlank at hnotBlank
      rw [Bool.not_eq_true'] at hnotBlank
      exact hnotBlank
    · intro c hc
      have hlen := hshort' (ps.headD []) (by rw [hrun]; exact List.mem_cons_self)
      apply hstarts
      obtain ⟨d, tail, hcons⟩ := List.exists_cons_of_ne_nil hhead
      rw [hcons] at hlen
      have htail : tail = [] := by
        cases tail with
        | nil => rfl
        | cons x tail => simp at hlen
      rw [hrun, hcons, htail] at hc
      cases hc
      rw [hcons, htail]

theorem front_sound (o : Options) (hblank : (ps.headD []).isEnd = true ∨
    (ps.headD []).isBlank = false) : (front o ps).Sound ps := by
  unfold front
  simp only []
  by_cases hend : (ps.headD []).isEnd = true
  · rw [if_pos hend]
    rintro t ⟨⟩
    exact ⟨Token.wellFormed_endOfInput, by rintro ⟨⟩,
      fun _ => Token.plain_of_ne (by rintro ⟨⟩) (by rintro ⟨⟩)⟩
  rw [if_neg hend]
  by_cases hdigit : (ps.headD []).isDigit = true
  · rw [if_pos hdigit]
    exact number_sound hdigit
  rw [if_neg hdigit]
  by_cases hident : (ps.headD []).isIdentStart = true
  · rw [if_pos hident]
    exact word_sound hident
  rw [if_neg hident]
  by_cases hquote : (ps.headD []).isQuote = true
  · rw [if_pos hquote]
    obtain ⟨q, hhead, hq⟩ := Piece.single_eq hquote
    rw [hhead]
    exact (body_sound o hq _).after
  rw [if_neg hquote]
  by_cases hmark : (ps.headD []).isPunctuation = true
  · rw [if_pos hmark]
    exact (second_sound _ _).after
  rw [if_neg hmark]
  refine unknown_sound (by simpa using hend) ?_ ?_
  · rcases hblank with h | h
    · exact absurd h hend
    · exact h
  · intro c hc
    rw [hc] at hdigit hident hquote hmark
    have hd : digit c = false := Bool.eq_false_iff.mpr hdigit
    have hi : identStart c = false := Bool.eq_false_iff.mpr hident
    have hq : quote c = false := Bool.eq_false_iff.mpr hquote
    have hm : punctuation c = false := Bool.eq_false_iff.mpr hmark
    simp [starts, hd, hi, hq, hm]

end Verdict

/-- Behind the blanks in front stands the end, or a piece that is no blank. -/
theorem behind_blanks (ps : List Piece) :
    ((ps.drop (Piece.run Piece.isBlank ps).length).headD []).isEnd = true ∨
      ((ps.drop (Piece.run Piece.isBlank ps).length).headD []).isBlank = false := by
  have hdrop : ps.drop (Piece.run Piece.isBlank ps).length =
      ps.dropWhile fun p => !p.isEnd && p.isBlank :=
    Reader.drop_length_takeWhile _ ps
  have hstop := List.head?_dropWhile_not (fun p => !p.isEnd && p.isBlank) ps
  rw [hdrop]
  cases hrest : ps.dropWhile fun p => !p.isEnd && p.isBlank with
  | nil => exact Or.inl rfl
  | cons p rest =>
      rw [hrest] at hstop
      have hp : (!p.isEnd && p.isBlank) = false := by simpa using hstop
      cases hend : p.isEnd with
      | true => exact Or.inl hend
      | false =>
          rw [hend] at hp
          exact Or.inr hp

/-- **What is in front has its form,** whatever the pieces are. -/
theorem verdict_sound (o : Options) (ps : List Piece) : (verdict o ps).Sound ps :=
  (Verdict.front_sound o (behind_blanks ps)).after

/-! ## Scanned tokens -/

section Scan

variable {o : Options} {r r' : Reader} {t : Token}

theorem scan_eq_ok (h : scan o r = .ok t r') : (verdict o r.pieces).result = .ok t ∧
    (r.drop (verdict o r.pieces).taken).feed.reads ≤ r'.feed.reads := by
  have hfollows : scan o r =
      (verdict o r.pieces).settle (r.drop (verdict o r.pieces).taken) := scan_follows o r
  rw [hfollows] at h
  have hdeliver : ∀ {s : Reader}, (verdict o r.pieces).deliver s = .ok t r' →
      (verdict o r.pieces).result = .ok t ∧ r' = s := by
    intro s hs
    unfold Verdict.deliver at hs
    cases hresult : (verdict o r.pieces).result with
    | ok u =>
        rw [hresult] at hs
        cases hs
        exact ⟨rfl, rfl⟩
    | error e =>
        rw [hresult] at hs
        cases hs
  cases hlooks : (verdict o r.pieces).looks with
  | false =>
      rw [Verdict.settle_of_not_looks hlooks] at h
      obtain ⟨hresult, rfl⟩ := hdeliver h
      exact ⟨hresult, Nat.le_refl _⟩
  | true =>
      rcases (r.drop (verdict o r.pieces).taken).next.piece_or_fault with ⟨p, hp⟩ | ⟨f, hf⟩
      · rw [Verdict.settle_of_piece hlooks hp] at h
        obtain ⟨hresult, rfl⟩ := hdeliver h
        exact ⟨hresult, Reader.reads_le_hold p _⟩
      · rw [Verdict.settle_of_fault hlooks hf] at h
        cases h

/-- **Every token that is scanned has its form,** and is no report of an error. -/
theorem scan_sound (h : scan o r = .ok t r') : t.WellFormed ∧ t.kind ≠ .error ∧
    ((∀ p, .piece p ∈ r.delivered r' → p.length ≤ 1) → t.Plain) := by
  obtain ⟨hresult, hreads⟩ := scan_eq_ok h
  obtain ⟨hform, herror, hplain⟩ := verdict_sound o r.pieces t hresult
  refine ⟨hform, herror, fun hshort => hplain ?_⟩
  intro p hp
  unfold Reader.pieces at hp
  rw [← List.map_take] at hp
  obtain ⟨u, hu, rfl⟩ := List.mem_map.mp hp
  rcases u.piece_or_fault with ⟨q, rfl⟩ | ⟨f, hf⟩
  · exact hshort q (Reader.mem_delivered_of_taken hu hreads)
  · rw [Outcome.chars_of_fault hf]
    exact Nat.zero_le 1

end Scan

end Lexer

end FilterLex
