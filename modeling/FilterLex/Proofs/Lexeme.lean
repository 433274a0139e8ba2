import FilterLex.Proofs.Munch

/-!
# Lexemes

`Lexeme raw t` says that `raw` is a way to write the token `t`. It knows nothing of what
follows: the same text has many prefixes that are lexemes. That the lexer takes the
longest of them rests on two facts about the characters of a text, `run_unique` and
`length_le_run`: a run that the text stops is determined by the text.
-/

namespace FilterLex

/-! ## Runs are determined by the text -/

theorem run_unique {test : Char → Bool} {a b u v : List Char} (ha : ∀ c ∈ a, test c = true)
    (hb : ∀ c ∈ b, test c = true) (hu : Stops test u) (hv : Stops test v)
    (h : a ++ u = b ++ v) : a = b ∧ u = v := by
  have hab : a = b := by
    have := congrArg (List.takeWhile test) h
    rwa [takeWhile_of_stops ha hu, takeWhile_of_stops hb hv] at this
  subst hab
  exact ⟨rfl, List.append_cancel_left h⟩

theorem length_le_run {test : Char → Bool} {l run rest : List Char}
    (hl : ∀ c ∈ l, test c = true) (hrun : ∀ c ∈ run, test c = true) (hstop : Stops test rest)
    (hp : l <+: run ++ rest) : l.length ≤ run.length := by
  obtain ⟨more, hmore⟩ := hp
  have h := congrArg (List.takeWhile test) hmore
  rw [takeWhile_of_stops hrun hstop, List.takeWhile_append_of_pos hl] at h
  rw [← h, List.length_append]
  exact Nat.le_add_right _ _

namespace Kind

/-- Kinds whose tokens are written like identifiers. -/
def isWord (k : Kind) : Bool := k = .ident ∨ k = .bool ∨ k.isKeyword

theorem ne_of_isWord {k : Kind} (h : k.isWord = true) :
    k ≠ .string ∧ k ≠ .error ∧ k ≠ .eof ∧ k.isOperator = false := by
  cases k <;> first | exact absurd h Bool.false_ne_true | decide

theorem ne_of_isOperator {k : Kind} (h : k.isOperator = true) :
    k ≠ .string ∧ k ≠ .error ∧ k ≠ .eof := by
  cases k <;> first | exact absurd h Bool.false_ne_true | decide

end Kind

namespace Vocabulary

/-! ## The words of the vocabulary -/

theorem mem_of_operator? {lexeme : String} {kind : Kind} (h : operator? lexeme = some kind) :
    (lexeme, kind) ∈ operators := by
  obtain ⟨l₁, l₂, heq, -⟩ := List.lookup_eq_some_iff.mp h
  rw [heq]
  simp

theorem mem_of_keyword? {word : String} {kind : Kind} (h : keyword? word = some kind) :
    (word, kind) ∈ keywords := by
  obtain ⟨l₁, l₂, heq, -⟩ := List.lookup_eq_some_iff.mp h
  rw [heq]
  simp

/-- One or two characters, of which the first is a punctuation mark. -/
def marks : List Char → Bool
  | [a] => CharClass.punctuation a
  | [a, _] => CharClass.punctuation a
  | _ => false

theorem operators_marks : ∀ p ∈ operators, marks p.1.toList = true ∧ p.2.isOperator = true := by
  decide

theorem keywords_kind : ∀ p ∈ keywords, p.2.isKeyword = true ∨ p.2 = .bool := by decide

theorem operator_cases {raw : List Char} {kind : Kind}
    (h : operator? (String.ofList raw) = some kind) :
    kind.isOperator = true ∧ ∃ a, CharClass.punctuation a = true ∧
      (raw = [a] ∨ ∃ b, raw = [a, b]) := by
  obtain ⟨hm, hk⟩ := operators_marks _ (mem_of_operator? h)
  rw [String.toList_ofList] at hm
  refine ⟨hk, ?_⟩
  unfold marks at hm
  split at hm
  · exact ⟨_, hm, Or.inl rfl⟩
  · exact ⟨_, hm, Or.inr ⟨_, rfl⟩⟩
  · cases hm

end Vocabulary

namespace Lexer

open CharClass

theorem isWord_ofWord (w : List Char) : (Token.ofWord w).kind.isWord = true := by
  unfold Token.ofWord Kind.isWord
  cases hk : Vocabulary.keyword? (String.ofList w) with
  | none => rfl
  | some kind =>
      have hkind : kind.isKeyword = true ∨ kind = .bool :=
        Vocabulary.keywords_kind _ (Vocabulary.mem_of_keyword? hk)
      rcases hkind with h | h <;> simp [h]

/-- The ways to write a token that is neither an unknown run nor a report. -/
inductive Lexeme : List Char → Token → Prop
  | word {c w} (hc : identStart c = true) (hw : ∀ x ∈ w, ident x = true) :
      Lexeme (c :: w) (Token.ofWord (c :: w))
  | int {ds} (hne : ds ≠ []) (hds : ∀ c ∈ ds, digit c = true) :
      Lexeme ds (Token.ofChars .int ds)
  | float {ds fs} (hne : ds ≠ []) (hds : ∀ c ∈ ds, digit c = true)
      (hfe : fs ≠ []) (hfs : ∀ c ∈ fs, digit c = true) :
      Lexeme (ds ++ '.' :: fs) (Token.ofChars .float (ds ++ '.' :: fs))
  | string {q body} (hq : quote q = true) (hb : q ∉ body) :
      Lexeme (q :: (body ++ [q])) (Token.ofChars .string body)
  | operator {raw kind} (h : Vocabulary.operator? (String.ofList raw) = some kind) :
      Lexeme raw (Token.ofChars kind raw)

variable {raw text : List Char} {t u : Token}

/-- The first character of a lexeme says how the lexeme was formed. -/
theorem Lexeme.cases_head (h : Lexeme raw t) : ∃ c tail, raw = c :: tail ∧
    ((identStart c = true ∧ (∀ x ∈ raw, ident x = true) ∧ t = Token.ofWord raw) ∨
     (digit c = true ∧ (∀ x ∈ raw, digit x = true) ∧ t = Token.ofChars .int raw) ∨
     (digit c = true ∧ (∃ ds fs, raw = ds ++ '.' :: fs ∧ (∀ x ∈ ds, digit x = true) ∧
        fs ≠ [] ∧ ∀ x ∈ fs, digit x = true) ∧ t = Token.ofChars .float raw) ∨
     (quote c = true ∧ ∃ body, raw = c :: (body ++ [c]) ∧ c ∉ body ∧
        t = Token.ofChars .string body) ∨
     (punctuation c = true ∧ ∃ kind, Vocabulary.operator? (String.ofList raw) = some kind ∧
        t = Token.ofChars kind raw)) := by
  cases h with
  | @word c w hc hw =>
      exact ⟨c, w, rfl, Or.inl ⟨hc, ident_run hc hw, rfl⟩⟩
  | int hne hds =>
      cases raw with
      | nil => exact absurd rfl hne
      | cons d ds => exact ⟨d, ds, rfl, Or.inr (Or.inl ⟨hds d List.mem_cons_self, hds, rfl⟩)⟩
  | @float ds fs hne hds hfe hfs =>
      cases ds with
      | nil => exact absurd rfl hne
      | cons d ds =>
          have hd : digit d = true := hds d List.mem_cons_self
          exact ⟨d, ds ++ '.' :: fs, rfl,
            Or.inr (Or.inr (Or.inl ⟨hd, ⟨d :: ds, fs, rfl, hds, hfe, hfs⟩, rfl⟩))⟩
  | @string q body hq hb =>
      exact ⟨q, body ++ [q], rfl, Or.inr (Or.inr (Or.inr (Or.inl ⟨hq, body, rfl, hb, rfl⟩)))⟩
  | @operator raw kind h =>
      obtain ⟨-, a, ha, hraw⟩ := Vocabulary.operator_cases h
      have hor : punctuation a = true ∧ ∃ k, Vocabulary.operator? (String.ofList raw) = some k ∧
          Token.ofChars kind raw = Token.ofChars k raw := ⟨ha, kind, h, rfl⟩
      rcases hraw with rfl | ⟨b, rfl⟩
      · exact ⟨a, [], rfl, Or.inr (Or.inr (Or.inr (Or.inr hor)))⟩
      · exact ⟨a, [b], rfl, Or.inr (Or.inr (Or.inr (Or.inr hor)))⟩

/-! ## A lexeme in front of a text

The first character of the text is that of the lexeme, so the text says which of the
five forms the lexeme has. -/

section Head

variable {c : Char}

theorem Lexeme.of_identStart (h : Lexeme raw t) (hp : raw <+: c :: text)
    (hc : identStart c = true) : (∀ x ∈ raw, ident x = true) ∧ t = Token.ofWord raw := by
  obtain ⟨d, tail, rfl, hform⟩ := h.cases_head
  obtain ⟨rfl, -⟩ := List.cons_prefix_cons.mp hp
  obtain ⟨hd, hq, hm, -⟩ := identStart_only hc
  rw [hd, hq, hm] at hform
  simpa [hc] using hform

theorem Lexeme.of_digit (h : Lexeme raw t) (hp : raw <+: c :: text) (hc : digit c = true) :
    ((∀ x ∈ raw, digit x = true) ∧ t = Token.ofChars .int raw) ∨
    (∃ ds fs, raw = ds ++ '.' :: fs ∧ (∀ x ∈ ds, digit x = true) ∧ fs ≠ [] ∧
      ∀ x ∈ fs, digit x = true) ∧ t = Token.ofChars .float raw := by
  obtain ⟨d, tail, rfl, hform⟩ := h.cases_head
  obtain ⟨rfl, -⟩ := List.cons_prefix_cons.mp hp
  obtain ⟨hi, hq, hm, -⟩ := digit_only hc
  rcases hform with ⟨h', -⟩ | ⟨-, hint⟩ | ⟨-, hfloat⟩ | ⟨h', -⟩ | ⟨h', -⟩
  · exact absurd h' (by rw [hi]; exact Bool.false_ne_true)
  · exact Or.inl hint
  · exact Or.inr hfloat
  · exact absurd h' (by rw [hq]; exact Bool.false_ne_true)
  · exact absurd h' (by rw [hm]; exact Bool.false_ne_true)

theorem Lexeme.of_quote (h : Lexeme raw t) (hp : raw <+: c :: text) (hc : quote c = true) :
    ∃ body, raw = c :: (body ++ [c]) ∧ c ∉ body ∧ t = Token.ofChars .string body := by
  obtain ⟨d, tail, rfl, hform⟩ := h.cases_head
  obtain ⟨rfl, -⟩ := List.cons_prefix_cons.mp hp
  obtain ⟨hd, hi, hm, -⟩ := quote_only hc
  rw [hd, hi, hm] at hform
  simpa [hc] using hform

theorem Lexeme.of_punctuation (h : Lexeme raw t) (hp : raw <+: c :: text)
    (hc : punctuation c = true) :
    ∃ kind, Vocabulary.operator? (String.ofList raw) = some kind ∧
      t = Token.ofChars kind raw := by
  obtain ⟨d, tail, rfl, hform⟩ := h.cases_head
  obtain ⟨rfl, -⟩ := List.cons_prefix_cons.mp hp
  obtain ⟨hd, hi, hq, -⟩ := punctuation_only hc
  rw [hd, hi, hq] at hform
  simpa [hc] using hform

theorem Lexeme.starts_head (h : Lexeme raw t) (hp : raw <+: text) :
    ∃ c tail, text = c :: tail ∧ starts c = true := by
  obtain ⟨c, rest, rfl, hform⟩ := h.cases_head
  obtain ⟨more, rfl⟩ := hp
  refine ⟨c, rest ++ more, rfl, ?_⟩
  unfold starts
  rcases hform with ⟨hc, -⟩ | ⟨hc, -⟩ | ⟨hc, -⟩ | ⟨hc, -⟩ | ⟨hc, -⟩ <;> simp [hc]

end Head

/-- **A text is the lexeme of one token only.** -/
theorem Lexeme.unique (h : Lexeme raw t) (h' : Lexeme raw u) : t = u := by
  have hself : raw <+: raw := List.prefix_refl raw
  obtain ⟨c, tail, rfl, hc⟩ := h.starts_head hself
  rcases starts_cases hc with hi | hd | hq | hm
  · rw [(h.of_identStart hself hi).2, (h'.of_identStart hself hi).2]
  · -- a text of digits holds no point, so it is not an integer and a float at once
    have hpoint : ∀ {ds fs : List Char}, c :: tail = ds ++ '.' :: fs →
        ¬ ∀ x ∈ c :: tail, digit x = true := by
      intro ds fs heq hall
      rw [heq] at hall
      exact absurd (hall '.' (by simp)) (by decide)
    rcases h.of_digit hself hd with ⟨hall, ht⟩ | ⟨⟨ds, fs, heq, -⟩, ht⟩ <;>
      rcases h'.of_digit hself hd with ⟨hall', hu⟩ | ⟨⟨ds', fs', heq', -⟩, hu⟩
    · rw [ht, hu]
    · exact absurd hall (hpoint heq')
    · exact absurd hall' (hpoint heq)
    · rw [ht, hu]
  · obtain ⟨body, heq, -, ht⟩ := h.of_quote hself hq
    obtain ⟨body', heq', -, hu⟩ := h'.of_quote hself hq
    have hbody : body = body' := List.append_cancel_right (List.cons.inj (heq.symm.trans heq')).2
    rw [ht, hu, hbody]
  · obtain ⟨kind, hk, ht⟩ := h.of_punctuation hself hm
    obtain ⟨kind', hk', hu⟩ := h'.of_punctuation hself hm
    have hkind : kind = kind' := Option.some.inj (hk.symm.trans hk')
    rw [ht, hu, hkind]

theorem Lexeme.kind_ne (h : Lexeme raw t) : t.kind ≠ .error ∧ t.kind ≠ .eof := by
  cases h with
  | @word c w _ _ =>
      obtain ⟨-, herror, hend, -⟩ := Kind.ne_of_isWord (isWord_ofWord (c :: w))
      exact ⟨herror, hend⟩
  | int _ _ => constructor <;> rintro ⟨⟩
  | float _ _ _ _ => constructor <;> rintro ⟨⟩
  | string _ _ => constructor <;> rintro ⟨⟩
  | operator h => exact (Kind.ne_of_isOperator (Vocabulary.operator_cases h).1).2

/-! ## What a rule says of its text -/

section Rule

variable {o : Options} {rest : List Char} {result : Except LexicalError Token} {looks : Bool}

/-- Only strings and errors are written differently from their lexemes. -/
theorem Munch.raw_eq (h : Munch o raw rest result looks)
    (hstring : (report result).kind ≠ .string) (herror : (report result).kind ≠ .error) :
    raw = (report result).lexeme.toList := by
  cases h with
  | int _ _ _ _ => exact String.toList_ofList.symm
  | float _ _ _ _ _ => exact String.toList_ofList.symm
  | point _ _ _ => exact absurd rfl herror
  | word _ _ _ => exact String.toList_ofList.symm
  | closed _ _ => exact absurd rfl hstring
  | unclosed _ _ =>
      cases hs : o.strictStrings with
      | true =>
          rw [hs] at herror
          exact absurd rfl herror
      | false =>
          rw [hs] at hstring
          exact absurd rfl hstring
  | pair _ _ => exact String.toList_ofList.symm
  | mark _ _ _ => exact String.toList_ofList.symm
  | stray _ _ _ => exact absurd rfl herror
  | unknown _ _ _ => exact String.toList_ofList.symm

/-- The lexer need not look behind a closed string or an operator of two characters, and
behind everything else it has to. -/
theorem Munch.looks_iff (h : Munch o raw rest result looks) :
    looks = false ↔
      ((report result).kind = .string ∧
        raw.length = (report result).lexeme.toList.length + 2) ∨
      ((report result).kind.isOperator = true ∧ raw.length = 2) := by
  cases h with
  | int _ _ _ _ => simp [report, Token.ofChars, Kind.isOperator]
  | float _ _ _ _ _ => simp [report, Token.ofChars, Kind.isOperator]
  | point _ _ _ => simp [report, Token.ofError, Kind.isOperator]
  | @word c w rest _ _ _ =>
      obtain ⟨hstring, -, -, hop⟩ := Kind.ne_of_isWord (isWord_ofWord (c :: w))
      simp [report, hstring, hop]
  | closed _ _ => simp [report, Token.ofChars]
  | unclosed _ _ =>
      cases hs : o.strictStrings with
      | true => simp [report, Token.ofError, Kind.isOperator]
      | false => simp [report, Token.ofChars, Kind.isOperator]
  | pair _ hp => simp [report, Token.ofChars, (Vocabulary.operator_cases hp).1]
  | mark _ _ h1 =>
      have hstring := (Kind.ne_of_isOperator (Vocabulary.operator_cases h1).1).1
      simp [report, Token.ofChars, hstring]
  | stray _ _ _ => simp [report, Token.ofError, Kind.isOperator]
  | unknown _ _ _ => simp [report, Token.ofChars, Kind.isOperator]

theorem Munch.kind_ne_eof (h : Munch o raw rest result looks) : (report result).kind ≠ .eof := by
  cases h with
  | int _ _ _ _ => rintro ⟨⟩
  | float _ _ _ _ _ => rintro ⟨⟩
  | point _ _ _ => rintro ⟨⟩
  | @word c w _ _ _ _ => exact (Kind.ne_of_isWord (isWord_ofWord (c :: w))).2.2.1
  | closed _ _ => rintro ⟨⟩
  | unclosed _ _ => cases o.strictStrings <;> rintro ⟨⟩
  | pair _ hp => exact (Kind.ne_of_isOperator (Vocabulary.operator_cases hp).1).2.2
  | mark _ _ h1 => exact (Kind.ne_of_isOperator (Vocabulary.operator_cases h1).1).2.2
  | stray _ _ _ => rintro ⟨⟩
  | unknown _ _ _ => rintro ⟨⟩

theorem Munch.report_ne_end (h : Munch o raw rest result looks) :
    report result ≠ Token.endOfInput := by
  intro hend
  apply h.kind_ne_eof
  rw [hend]
  rfl

end Rule

end Lexer

end FilterLex
