import FilterLex.Proofs.Calls

/-!
# The longest match

What one call delivers, said of the text alone and with no word about how it is read:
the token of the longest prefix that is a lexeme, unless that prefix is an integer in
front of a point. Where no prefix counts the text is malformed, and the call reports it.

- `LongestLexeme`, `IntBeforePoint`, `Remaining`: which texts have a longest match.
- `Malformed`: the reports, one constructor per kind of malformed text.
- `LongestMatch`: the law, which leaves one token only (`LongestMatch.unique`) and which
  every lexical rule obeys (`Munch.longestMatch`), and so every call of every run.
-/

namespace FilterLex

namespace Lexer

open CharClass

/-- A prefix that is a lexeme, and no longer prefix is one. -/
structure LongestLexeme (text raw : List Char) : Prop where
  front : raw <+: text
  lexeme : ∃ t, Lexeme raw t
  longest : ∀ other u, Lexeme other u → other <+: text → other.length ≤ raw.length

/-- An integer directly in front of a point. -/
def IntBeforePoint (text raw : List Char) : Prop :=
  (∀ c ∈ raw, digit c = true) ∧ raw ++ ['.'] <+: text

def Remaining (text : List Char) : Prop :=
  (∃ c ∈ text.head?, starts c = true) ∧
    ∀ raw, LongestLexeme text raw → IntBeforePoint text raw

/-- A string is left open and the options allow that. -/
def OpenAllowed (o : Options) (text : List Char) : Prop :=
  o.strictStrings = false ∧ ∃ c ∈ text.head?, quote c = true

/-- What is delivered for a text that no lexeme can be taken off. -/
inductive Malformed (o : Options) : List Char → Token → Prop
  | point {ds rest} (hne : ds ≠ []) (hds : ∀ c ∈ ds, digit c = true)
      (hstop : Stops digit rest) :
      Malformed o (ds ++ '.' :: rest)
        (Token.ofError ("expected digit, found " ++ Piece.describe (rest.take 1)))
  | mark {a rest} (ha : a ∈ ['!', '&', '|']) :
      Malformed o (a :: rest)
        (Token.ofError ("unexpected punctuation: '" ++ String.ofList [a] ++ "'"))
  | unterminated {q body} (hstrict : o.strictStrings = true) (hq : quote q = true)
      (hb : q ∉ body) :
      Malformed o (q :: body) (Token.ofError "unterminated string literal")
  | openString {q body} (hlenient : o.strictStrings = false) (hq : quote q = true)
      (hb : q ∉ body) :
      Malformed o (q :: body) (Token.ofChars .string body)

/-- **The law of the longest match** for the token `t` of a text that no blank is in
front of. The first four fields cover all texts; the last says when an error is
reported. -/
structure LongestMatch (o : Options) (text : List Char) (t : Token) : Prop where
  atEnd : text = [] → t = Token.endOfInput
  unclassified : ∀ c ∈ text.head?, starts c = false →
    t = Token.ofChars .unknown (text.takeWhile (!blank ·))
  longest : ∀ raw, LongestLexeme text raw → ¬ IntBeforePoint text raw → Lexeme raw t
  malformed : Remaining text → Malformed o text t
  error_iff : t.kind = .error ↔ Remaining text ∧ ¬ OpenAllowed o text

variable {o : Options} {raw rest text : List Char} {t : Token}

/-! ## Three ways to obey the law -/

theorem LongestLexeme.unique {raw' : List Char} (h : LongestLexeme text raw)
    (h' : LongestLexeme text raw') : raw = raw' := by
  obtain ⟨t, ht⟩ := h.lexeme
  obtain ⟨u, hu⟩ := h'.lexeme
  have hlen : raw.length = raw'.length :=
    Nat.le_antisymm (h'.longest raw t ht h.front) (h.longest raw' u hu h'.front)
  exact (List.prefix_of_prefix_length_le h.front h'.front (Nat.le_of_eq hlen)).eq_of_length hlen

theorem LongestMatch.of_lexeme (hl : LongestLexeme text raw) (ht : Lexeme raw t)
    (hpoint : ¬ IntBeforePoint text raw) : LongestMatch o text t := by
  obtain ⟨c, tail, rfl, hc⟩ := ht.starts_head hl.front
  have hnot : ¬ Remaining (c :: tail) := by
    intro hr
    exact hpoint (hr.2 raw hl)
  constructor
  case atEnd =>
    intro h
    cases h
  case unclassified =>
    intro d hd hn
    cases hd
    exact absurd hc (Bool.eq_false_iff.mp hn)
  case longest =>
    intro raw' hl' _
    rwa [hl'.unique hl]
  case malformed =>
    intro hr
    exact absurd hr hnot
  case error_iff =>
    constructor
    · intro hk
      exact absurd hk ht.kind_ne.1
    · rintro ⟨hr, -⟩
      exact absurd hr hnot

theorem LongestMatch.of_malformed {c : Char} {tail : List Char} (hc : starts c = true)
    (hpoint : ∀ raw, LongestLexeme (c :: tail) raw → IntBeforePoint (c :: tail) raw)
    (hm : Malformed o (c :: tail) t)
    (hopen : t.kind = .error ↔ ¬ OpenAllowed o (c :: tail)) :
    LongestMatch o (c :: tail) t := by
  have hr : Remaining (c :: tail) := ⟨⟨c, rfl, hc⟩, hpoint⟩
  constructor
  case atEnd =>
    intro h
    cases h
  case unclassified =>
    intro d hd hn
    cases hd
    exact absurd hc (Bool.eq_false_iff.mp hn)
  case longest =>
    intro raw hl hn
    exact absurd (hpoint raw hl) hn
  case malformed => exact fun _ => hm
  case error_iff =>
    constructor
    · intro hk
      exact ⟨hr, hopen.mp hk⟩
    · rintro ⟨-, ho⟩
      exact hopen.mpr ho

/-- Nothing that begins lexemes is in front, so the two fields about lexemes are void. -/
theorem LongestMatch.of_not_starts (hc : ∀ c ∈ text.head?, starts c = false)
    (hend : text = [] → t = Token.endOfInput)
    (hunknown : ∀ c ∈ text.head?, t = Token.ofChars .unknown (text.takeWhile (!blank ·)))
    (hk : t.kind ≠ .error) : LongestMatch o text t := by
  have hnot : ¬ Remaining text := by
    rintro ⟨⟨c, hmem, hs⟩, -⟩
    exact absurd hs (Bool.eq_false_iff.mp (hc c hmem))
  constructor
  case atEnd => exact hend
  case unclassified => exact fun c hmem _ => hunknown c hmem
  case longest =>
    intro raw hl _
    obtain ⟨u, hu⟩ := hl.lexeme
    obtain ⟨c, tail, rfl, hs⟩ := hu.starts_head hl.front
    exact absurd hs (Bool.eq_false_iff.mp (hc c rfl))
  case malformed =>
    intro hr
    exact absurd hr hnot
  case error_iff =>
    constructor
    · intro h
      exact absurd h hk
    · rintro ⟨hr, -⟩
      exact absurd hr hnot

/-! ## The law determines the token -/

/-- The first character of a malformed text says what is reported. -/
theorem Malformed.cases_head (h : Malformed o text t) : ∃ c tail, text = c :: tail ∧
    ((digit c = true ∧ t = Token.ofError ("expected digit, found " ++
        Piece.describe (((text.dropWhile digit).drop 1).take 1))) ∨
     (quote c = true ∧ t = if o.strictStrings then Token.ofError "unterminated string literal"
        else Token.ofChars .string tail) ∨
     (punctuation c = true ∧
        t = Token.ofError ("unexpected punctuation: '" ++ String.ofList [c] ++ "'"))) := by
  cases h with
  | @point ds rest hne hds hstop =>
      obtain ⟨d, ds, rfl⟩ := List.exists_cons_of_ne_nil hne
      have hpoint : Stops digit ('.' :: rest) := stops_cons.mpr (by decide)
      refine ⟨d, ds ++ '.' :: rest, rfl, Or.inl ⟨hds d List.mem_cons_self, ?_⟩⟩
      rw [dropWhile_of_stops hds hpoint]
      rfl
  | @mark a rest ha =>
      have hm : punctuation a = true := by
        simp only [List.mem_cons, List.not_mem_nil, or_false] at ha
        rcases ha with rfl | rfl | rfl <;> rfl
      exact ⟨a, rest, rfl, Or.inr (Or.inr ⟨hm, rfl⟩)⟩
  | @unterminated q body hstrict hq _ =>
      exact ⟨q, body, rfl, Or.inr (Or.inl ⟨hq, by rw [if_pos hstrict]⟩)⟩
  | @openString q body hlenient hq _ =>
      refine ⟨q, body, rfl, Or.inr (Or.inl ⟨hq, ?_⟩)⟩
      rw [hlenient]
      rfl

theorem Malformed.unique {u : Token} (h : Malformed o text t) (h' : Malformed o text u) :
    t = u := by
  obtain ⟨c, tail, htext, hform⟩ := h.cases_head
  obtain ⟨c', tail', htext', hform'⟩ := h'.cases_head
  obtain ⟨rfl, rfl⟩ := List.cons.inj (htext.symm.trans htext')
  rcases hform with ⟨hc, ht⟩ | ⟨hc, ht⟩ | ⟨hc, ht⟩
  · obtain ⟨-, hq, hm, -⟩ := digit_only hc
    rw [hq, hm] at hform'
    rcases hform' with ⟨-, hu⟩ | ⟨⟨⟩, -⟩ | ⟨⟨⟩, -⟩
    rw [ht, hu]
  · obtain ⟨hd, -, hm, -⟩ := quote_only hc
    rw [hd, hm] at hform'
    rcases hform' with ⟨⟨⟩, -⟩ | ⟨-, hu⟩ | ⟨⟨⟩, -⟩
    rw [ht, hu]
  · obtain ⟨hd, -, hq, -⟩ := punctuation_only hc
    rw [hd, hq] at hform'
    rcases hform' with ⟨⟨⟩, -⟩ | ⟨⟨⟩, -⟩ | ⟨-, hu⟩
    rw [ht, hu]

/-- **The law determines the token.** -/
theorem LongestMatch.unique {u : Token} (h : LongestMatch o text t) (h' : LongestMatch o text u) :
    t = u := by
  cases text with
  | nil => rw [h.atEnd rfl, h'.atEnd rfl]
  | cons c tail =>
      by_cases hs : starts c = true
      · by_cases hr : Remaining (c :: tail)
        · exact (h.malformed hr).unique (h'.malformed hr)
        · obtain ⟨raw, hl, hpoint⟩ : ∃ raw, LongestLexeme (c :: tail) raw ∧
              ¬ IntBeforePoint (c :: tail) raw := by
            by_contra hno
            apply hr
            refine ⟨⟨c, rfl, hs⟩, ?_⟩
            intro raw hl
            by_contra hpoint
            exact hno ⟨raw, hl, hpoint⟩
          exact (h.longest raw hl hpoint).unique (h'.longest raw hl hpoint)
      · have hn : starts c = false := by simpa using hs
        rw [h.unclassified c rfl hn, h'.unclassified c rfl hn]

/-! ## The longest lexeme of each rule -/

section Rules

variable {c d q : Char} {ds fs body : List Char}

/-- A lexeme in front of digits is among them, or a float whose whole part they are. -/
theorem digits_front {u : Token} {after other : List Char} (hne : ds ≠ [])
    (hds : ∀ c ∈ ds, digit c = true) (hstop : Stops digit after) (hu : Lexeme other u)
    (hp : other <+: ds ++ after) :
    other.length ≤ ds.length ∨ ∃ fs, other = ds ++ '.' :: fs ∧ '.' :: fs <+: after ∧
      fs ≠ [] ∧ ∀ c ∈ fs, digit c = true := by
  obtain ⟨d, tail, rfl⟩ := List.exists_cons_of_ne_nil hne
  have hd : digit d = true := hds d List.mem_cons_self
  rcases hu.of_digit hp hd with ⟨hall, -⟩ | ⟨⟨es, fs, rfl, hes, hfe, hfs⟩, -⟩
  · exact Or.inl (length_le_run hall hds hstop hp)
  · obtain ⟨more, hmore⟩ := hp
    have hpoint : Stops digit ('.' :: (fs ++ more)) := stops_cons.mpr (by decide)
    rw [List.append_assoc] at hmore
    obtain ⟨rfl, hafter⟩ := run_unique hes hds hpoint hstop hmore
    exact Or.inr ⟨fs, rfl, ⟨more, hafter⟩, hfe, hfs⟩

theorem longestLexeme_int (hne : ds ≠ []) (hds : ∀ c ∈ ds, digit c = true)
    (hstop : Stops digit rest) (hpoint : rest.take 1 ≠ ['.']) :
    LongestLexeme (ds ++ rest) ds := by
  refine ⟨List.prefix_append ds rest, ⟨_, Lexeme.int hne hds⟩, ?_⟩
  intro other u hu hp
  rcases digits_front hne hds hstop hu hp with hle | ⟨fs, -, ⟨more, rfl⟩, -⟩
  · exact hle
  · exact absurd rfl hpoint

theorem longestLexeme_float (hne : ds ≠ []) (hds : ∀ c ∈ ds, digit c = true) (hfe : fs ≠ [])
    (hfs : ∀ c ∈ fs, digit c = true) (hstop : Stops digit rest) :
    LongestLexeme ((ds ++ '.' :: fs) ++ rest) (ds ++ '.' :: fs) := by
  refine ⟨List.prefix_append _ rest, ⟨_, Lexeme.float hne hds hfe hfs⟩, ?_⟩
  intro other u hu hp
  have hafter : Stops digit ('.' :: (fs ++ rest)) := stops_cons.mpr (by decide)
  rw [List.append_assoc] at hp
  rw [List.length_append, List.length_cons]
  rcases digits_front hne hds hafter hu hp with hle | ⟨gs, rfl, hg, -, hgs⟩
  · omega
  · have hle := length_le_run hgs hfs hstop (List.cons_prefix_cons.mp hg).2
    rw [List.length_append, List.length_cons]
    omega

/-- Where no digit follows the point, the digits in front of it are the longest lexeme. -/
theorem longestLexeme_point (hne : ds ≠ []) (hds : ∀ c ∈ ds, digit c = true)
    (hstop : Stops digit rest) : LongestLexeme (ds ++ '.' :: rest) ds := by
  refine ⟨List.prefix_append ds _, ⟨_, Lexeme.int hne hds⟩, ?_⟩
  intro other u hu hp
  have hafter : Stops digit ('.' :: rest) := stops_cons.mpr (by decide)
  rcases digits_front hne hds hafter hu hp with hle | ⟨gs, -, hg, hge, hgs⟩
  · exact hle
  · obtain ⟨g, gs, rfl⟩ := List.exists_cons_of_ne_nil hge
    obtain ⟨more, rfl⟩ := (List.cons_prefix_cons.mp hg).2
    have hg : digit g = true := hgs g List.mem_cons_self
    exact absurd hg (Bool.eq_false_iff.mp (stops_cons.mp hstop))

theorem longestLexeme_word {w : List Char} (hc : identStart c = true)
    (hw : ∀ x ∈ w, ident x = true) (hstop : Stops ident rest) :
    LongestLexeme (c :: w ++ rest) (c :: w) := by
  refine ⟨List.prefix_append _ rest, ⟨_, Lexeme.word hc hw⟩, ?_⟩
  intro other u hu hp
  exact length_le_run (hu.of_identStart hp hc).1 (ident_run hc hw) hstop hp

theorem longestLexeme_closed (hq : quote q = true) (hb : q ∉ body) :
    LongestLexeme (q :: (body ++ [q]) ++ rest) (q :: (body ++ [q])) := by
  refine ⟨List.prefix_append _ rest, ⟨_, Lexeme.string hq hb⟩, ?_⟩
  intro other u hu hp
  obtain ⟨body', rfl, hb', -⟩ := hu.of_quote hp hq
  obtain ⟨more, hmore⟩ := hp
  have hstop : ∀ after, Stops (· != q) (q :: after) := by
    intro after
    exact stops_cons.mpr (by simp)
  have heq : body' ++ (q :: more) = body ++ (q :: rest) := by simpa using hmore
  obtain ⟨rfl, -⟩ := run_unique (bne_of_not_mem hb') (bne_of_not_mem hb) (hstop more)
    (hstop rest) heq
  exact Nat.le_refl _

theorem no_lexeme_unclosed (hq : quote q = true) (hb : q ∉ body) :
    ¬ LongestLexeme (q :: body) raw := by
  intro hl
  obtain ⟨u, hu⟩ := hl.lexeme
  obtain ⟨body', rfl, -⟩ := hu.of_quote hl.front hq
  obtain ⟨more, hmore⟩ := hl.front
  have heq : body' ++ (q :: more) = body := by simpa using hmore
  exact hb (by rw [← heq]; simp)

/-- A lexeme in front of a mark is the mark, or the mark and the next character where
these two are an operator. -/
theorem mark_front {u : Token} {other : List Char} {a : Char} (ha : punctuation a = true)
    (hu : Lexeme other u) (hp : other <+: a :: rest) :
    (other = [a] ∧ ∃ kind, Vocabulary.operator? (String.ofList [a]) = some kind) ∨
      (other = a :: rest.take 1 ∧ ∃ kind, Vocabulary.pair? (a :: rest.take 1) = some kind) := by
  obtain ⟨kind, hk, -⟩ := hu.of_punctuation hp ha
  obtain ⟨-, a', -, hraw⟩ := Vocabulary.operator_cases hk
  rcases hraw with rfl | ⟨b, rfl⟩
  · obtain ⟨rfl, -⟩ := List.cons_prefix_cons.mp hp
    exact Or.inl ⟨rfl, kind, hk⟩
  · obtain ⟨rfl, more, rfl⟩ := List.cons_prefix_cons.mp hp
    exact Or.inr ⟨rfl, kind, hk⟩

end Rules

/-! ## Every rule obeys the law -/

theorem marks_stray : (Vocabulary.punctuation.all fun a =>
    (Vocabulary.operator? (String.ofList [a])).isSome || ['!', '&', '|'].contains a) = true := by
  decide

theorem stray_mark {a : Char} (ha : punctuation a = true)
    (h : Vocabulary.operator? (String.ofList [a]) = none) : a ∈ ['!', '&', '|'] := by
  have hmem : a ∈ Vocabulary.punctuation := List.contains_iff_mem.mp ha
  have hmark := List.all_eq_true.mp marks_stray a hmem
  rw [h] at hmark
  exact List.contains_iff_mem.mp hmark

theorem stray_message {a : Char} (ha : a ∈ ['!', '&', '|']) :
    LexicalError.message (.unexpectedPunctuation [a]) =
      "unexpected punctuation: '" ++ String.ofList [a] ++ "'" := by
  simp only [List.mem_cons, List.not_mem_nil, or_false] at ha
  rcases ha with rfl | rfl | rfl <;> rfl

theorem not_intBeforePoint_of_head {c : Char} {tail : List Char} (hc : digit c = false) :
    ¬ IntBeforePoint text (c :: tail) := by
  rintro ⟨hall, -⟩
  exact absurd (hall c List.mem_cons_self) (Bool.eq_false_iff.mp hc)

/-- **Every lexical rule takes the longest match.** -/
theorem Munch.longestMatch {result : Except LexicalError Token} {looks : Bool}
    (h : Munch o raw rest result looks) : LongestMatch o (raw ++ rest) (report result) := by
  cases h with
  | int hne hds hstop hpoint =>
      refine LongestMatch.of_lexeme (longestLexeme_int hne hds hstop hpoint)
        (Lexeme.int hne hds) ?_
      rintro ⟨-, hp⟩
      obtain ⟨more, rfl⟩ := (List.prefix_append_right_inj raw).mp hp
      exact absurd rfl hpoint
  | @float ds fs rest hne hds hfe hfs hstop =>
      refine LongestMatch.of_lexeme (longestLexeme_float hne hds hfe hfs hstop)
        (Lexeme.float hne hds hfe hfs) ?_
      rintro ⟨hall, -⟩
      exact absurd (hall '.' (by simp)) (by decide)
  | @point ds rest hne hds hstop =>
      obtain ⟨d, tail, rfl⟩ := List.exists_cons_of_ne_nil hne
      have hd : digit d = true := hds d List.mem_cons_self
      have hs : starts d = true := by simp [starts, hd]
      have hlong := longestLexeme_point hne hds hstop
      rw [List.append_assoc, List.singleton_append]
      -- the digits are the longest lexeme, and the point behind them rules them out
      refine LongestMatch.of_malformed hs ?_ (Malformed.point hne hds hstop) ?_
      · intro raw hl
        rw [hl.unique hlong]
        exact ⟨hds, rest, by simp⟩
      · refine iff_of_true rfl ?_
        rintro ⟨-, c, hmem, hq⟩
        cases hmem
        exact absurd hq (Bool.eq_false_iff.mp (digit_only hd).2.1)
  | word hc hw hstop =>
      exact LongestMatch.of_lexeme (longestLexeme_word hc hw hstop) (Lexeme.word hc hw)
        (not_intBeforePoint_of_head (identStart_only hc).1)
  | closed hq hb =>
      exact LongestMatch.of_lexeme (longestLexeme_closed hq hb) (Lexeme.string hq hb)
        (not_intBeforePoint_of_head (quote_only hq).1)
  | @unclosed q body hq hb =>
      have hs : starts q = true := by simp [starts, hq]
      have hno : ∀ raw, LongestLexeme (q :: body) raw → IntBeforePoint (q :: body) raw := by
        intro raw hl
        exact absurd hl (no_lexeme_unclosed hq hb)
      rw [List.append_nil]
      cases hstrict : o.strictStrings with
      | true =>
          refine LongestMatch.of_malformed hs hno (Malformed.unterminated hstrict hq hb) ?_
          refine iff_of_true rfl ?_
          rintro ⟨hl, -⟩
          exact absurd hstrict (Bool.eq_false_iff.mp hl)
      | false =>
          refine LongestMatch.of_malformed hs hno (Malformed.openString hstrict hq hb) ?_
          refine iff_of_false ?_ ?_
          · rintro ⟨⟩
          · intro hn
            exact hn ⟨hstrict, q, rfl, hq⟩
  | @pair a b rest kind ha hp =>
      have hl : Lexeme [a, b] (Token.ofChars kind [a, b]) := Lexeme.operator hp
      refine LongestMatch.of_lexeme ⟨List.prefix_append _ rest, ⟨_, hl⟩, ?_⟩ hl
        (not_intBeforePoint_of_head (punctuation_only ha).1)
      intro other u hu hfront
      rcases mark_front ha hu hfront with ⟨rfl, -⟩ | ⟨rfl, -⟩
      · exact Nat.le_succ 1
      · exact Nat.le_refl 2
  | @mark a rest kind ha hp h1 =>
      have hl : Lexeme [a] (Token.ofChars kind [a]) := Lexeme.operator h1
      refine LongestMatch.of_lexeme ⟨List.prefix_append _ rest, ⟨_, hl⟩, ?_⟩ hl
        (not_intBeforePoint_of_head (punctuation_only ha).1)
      intro other u hu hfront
      -- a longer lexeme would be an operator of two characters, and there is none
      rcases mark_front ha hu hfront with ⟨rfl, -⟩ | ⟨-, k, hk⟩
      · exact Nat.le_refl 1
      · exact absurd (hp.symm.trans hk) (Option.some_ne_none k).symm
  | @stray a rest ha hp h1 =>
      have hs : starts a = true := by simp [starts, ha]
      have hmark := stray_mark ha h1
      have hm : Malformed o (a :: rest) (report (.error (.unexpectedPunctuation [a]))) := by
        show Malformed o (a :: rest) (Token.ofError _)
        rw [stray_message hmark]
        exact Malformed.mark hmark
      refine LongestMatch.of_malformed hs ?_ hm ?_
      · intro raw hl
        obtain ⟨u, hu⟩ := hl.lexeme
        rcases mark_front ha hu hl.front with ⟨-, k, hk⟩ | ⟨-, k, hk⟩
        · exact absurd (h1.symm.trans hk) (Option.some_ne_none k).symm
        · exact absurd (hp.symm.trans hk) (Option.some_ne_none k).symm
      · refine iff_of_true rfl ?_
        rintro ⟨-, c, hc, hq⟩
        cases hc
        exact absurd hq (Bool.eq_false_iff.mp (punctuation_only ha).2.2.1)
  | @unknown c w rest hc hw hstop =>
      refine LongestMatch.of_not_starts ?_ ?_ ?_ ?_
      · intro d hd
        cases hd
        exact hc
      · intro h
        cases h
      · intro d _
        rw [takeWhile_of_stops (not_run hw) hstop]
        rfl
      · rintro ⟨⟩

/-- **Every call takes the longest match.** After any number of calls on a text, errors
among them or not, the next call delivers a token, and the token obeys the law for what
is left of the text behind its blanks. -/
theorem consume_longestMatch (o : Options) (s : String) (n : Nat) :
    ∃ text t r', (readerAfter o n { feed := Feed.ofString s }).unread = text ∧
      text <:+ s.toList ∧
      consume o (readerAfter o n { feed := Feed.ofString s }) = .ok t r' ∧
      LongestMatch o (text.dropWhile blank) t := by
  have hstart : ({ feed := Feed.ofString s } : Reader).Faces s.toList :=
    ⟨_, Reader.delivers_ofChars s.toList, Or.inl rfl⟩
  obtain ⟨text, hfaces, hsuffix⟩ := readerAfter_faces o n hstart
  generalize readerAfter o n { feed := Feed.ofString s } = r at hfaces
  have hunread := hfaces.unread
  obtain ⟨base, hb, hr⟩ := hfaces
  rcases text_cases o text with hw | ⟨w, raw, rest, result, looks, rfl, hw, hm⟩
  · refine ⟨text, _, _, hunread, hsuffix, consume_end hw hb hr, ?_⟩
    have hnil : text.dropWhile blank = [] := List.dropWhile_eq_nil_iff.mpr hw
    rw [hnil]
    refine LongestMatch.of_not_starts ?_ (fun _ => rfl) ?_ ?_
    · rintro c ⟨⟩
    · rintro c ⟨⟩
    · rintro ⟨⟩
  · refine ⟨_, _, _, hunread, hsuffix, consume_rule hm hw hb hr, ?_⟩
    rw [dropWhile_of_stops hw hm.stops_blank]
    exact hm.longestMatch

end Lexer

end FilterLex
