import Mathlib.Data.List.Chain
import FilterLex.Proofs.Calls

/-!
# Writing tokens and reading them back

A list of tokens is written with blanks between them, or without. Reading the text gives
the tokens back exactly where every two neighbours that fuse are kept apart.

- `Spelling`, `Written`, `render`: how a list of tokens is written.
- `Kind.fuses`: which neighbours fuse, by their kinds alone.
- `Kind.absorbs`: the same by the character that follows. A spelling is read as its token
  where the text does not go on with a character that its kind absorbs (`Spelling.munch`),
  and no rule delivers the token otherwise (`Munch.stops`).
- `runsTo_render_iff`: the law of the round trip, for a reader of the text.
-/

namespace FilterLex

open CharClass

/-! ## Kinds that run into each other -/

namespace Kind

/-- A token of the first kind and one of the second fuse where nothing is between them. -/
def fuses : Kind → Kind → Bool
  | .int, u => u = .int ∨ u = .float ∨ u = .dot
  | .float, u => u = .int ∨ u = .float
  | .less, u => u = .equal
  | .greater, u => u = .equal
  | .unknown, _ => true
  | k, u => k.isWord && (u.isWord || u = .int || u = .float)

/-- A token of the kind does not end in front of the character. -/
def absorbs : Kind → Char → Bool
  | .int, c => digit c || c = '.'
  | .float, c => digit c
  | .less, c => c = '='
  | .greater, c => c = '='
  | .unknown, c => !blank c
  | k, c => k.isWord && CharClass.ident c

section Absorbs

variable {c : Char}

theorem absorbs_of_blank (k : Kind) (h : blank c = true) : k.absorbs c = false := by
  obtain ⟨hd, hi, -, hm⟩ := blank_only h
  have hpoint : c ≠ '.' := ne_of_punctuation (by decide) hm
  have hequal : c ≠ '=' := ne_of_punctuation (by decide) hm
  cases k <;> simp [absorbs, CharClass.ident, h, hd, hi, hpoint, hequal]

theorem absorbs_of_identStart (k : Kind) (h : identStart c = true) :
    k.absorbs c = (k.isWord || k = .unknown) := by
  obtain ⟨hd, -, hm, hb⟩ := identStart_only h
  have hpoint : c ≠ '.' := ne_of_punctuation (by decide) hm
  have hequal : c ≠ '=' := ne_of_punctuation (by decide) hm
  cases k <;>
    simp [absorbs, isWord, isKeyword, ident_of_start h, hb, hd, hpoint, hequal]

theorem absorbs_of_digit (k : Kind) (h : digit c = true) :
    k.absorbs c = (k.isWord || k = .int || k = .float || k = .unknown) := by
  obtain ⟨-, -, hm, hb⟩ := digit_only h
  have hequal : c ≠ '=' := ne_of_punctuation (by decide) hm
  cases k <;> simp [absorbs, isWord, isKeyword, CharClass.ident, h, hb, hequal]

/-- A mark that is not part of words or numbers is absorbed by its own operators only. -/
theorem absorbs_of_punctuation (k : Kind) (h : punctuation c = true) :
    k.absorbs c = (k = .unknown || (k = .int && c = '.') ||
      ((k = .less || k = .greater) && c = '=')) := by
  obtain ⟨hd, hi, -, hb⟩ := punctuation_only h
  cases k <;> simp [absorbs, CharClass.ident, hd, hi, hb]

theorem absorbs_of_other (k : Kind) (hi : identStart c = false) (hd : digit c = false)
    (hm : punctuation c = false) (hb : blank c = false) :
    k.absorbs c = decide (k = .unknown) := by
  have hpoint : c ≠ '.' := ne_of_punctuation (by decide) hm
  have hequal : c ≠ '=' := ne_of_punctuation (by decide) hm
  cases k <;> simp [absorbs, CharClass.ident, hd, hi, hb, hpoint, hequal]

theorem absorbs_of_isWord {k : Kind} (h : k.isWord = true) (c : Char) :
    k.absorbs c = CharClass.ident c := by
  cases k <;> first | exact absurd h Bool.false_ne_true | rfl

theorem absorbs_of_isOperator {k : Kind} (h : k.isOperator = true) (c : Char) :
    k.absorbs c = ((k = .less || k = .greater) && c = '=') := by
  cases k <;> first | exact absurd h Bool.false_ne_true | simp [absorbs, isWord, isKeyword]

end Absorbs

section Fuses

variable {u : Kind}

theorem fuses_of_isWord (k : Kind) (h : u.isWord = true) :
    k.fuses u = (k.isWord || k = .unknown) := by
  cases u <;> first | exact absurd h Bool.false_ne_true | cases k <;> rfl

theorem fuses_of_isOperator (k : Kind) (h : u.isOperator = true) :
    k.fuses u = (k = .unknown || (k = .int && u = .dot) ||
      ((k = .less || k = .greater) && u = .equal)) := by
  cases u <;> first | exact absurd h Bool.false_ne_true | cases k <;> rfl

end Fuses

end Kind

namespace Vocabulary

/-! ## Operators that begin alike -/

/-- An operator of one character that begins another is continued by an equals sign. -/
theorem operators_extend : ∀ p ∈ operators, ∀ q ∈ operators,
    q.1.toList.length = 2 → q.1.toList.take 1 = p.1.toList →
      (p.2 = .less ∨ p.2 = .greater) ∧ q.1.toList.drop 1 = ['='] := by
  decide

theorem operators_angle : ∀ p ∈ operators, p.2 = .less ∨ p.2 = .greater →
    p.1.toList.length = 1 ∧ operator? (String.ofList (p.1.toList ++ ['='])) ≠ none := by
  decide

theorem operators_head : ∀ p ∈ operators,
    (p.1.toList.head? = some '.' ↔ p.2 = .dot) ∧
      (p.1.toList.head? = some '=' ↔ p.2 = .equal) := by
  decide

end Vocabulary

/-! ## Spellings -/

namespace Lexer

inductive Spelling : List Char → Token → Prop
  | lexeme {raw t} (h : Lexeme raw t) : Spelling raw t
  | unknown {c w} (hc : starts c = false) (hw : ∀ x ∈ c :: w, blank x = false) :
      Spelling (c :: w) (Token.ofChars .unknown (c :: w))

variable {o : Options} {raw rest : List Char} {t u : Token}

theorem Spelling.isFinal (h : Spelling raw t) : t.isFinal = false := by
  cases h with
  | lexeme hl =>
      obtain ⟨herror, hend⟩ := hl.kind_ne
      simp [Token.isFinal, herror, hend]
  | unknown _ _ => rfl

/-- Only a string is written differently from its lexeme. -/
theorem Spelling.raw_eq (h : Spelling raw t) (hk : t.kind ≠ .string) :
    raw = t.lexeme.toList := by
  cases h with
  | unknown _ _ => exact String.toList_ofList.symm
  | lexeme hl =>
      cases hl with
      | word _ _ => exact String.toList_ofList.symm
      | int _ _ => exact String.toList_ofList.symm
      | float _ _ _ _ => exact String.toList_ofList.symm
      | string _ _ => exact absurd rfl hk
      | operator _ => exact String.toList_ofList.symm

/-- The first character of a spelling decides which kinds run into it. -/
theorem Spelling.absorbs_head (h : Spelling raw u) :
    ∃ c tail, raw = c :: tail ∧ blank c = false ∧
      ∀ k : Kind, k.absorbs c = k.fuses u.kind := by
  have hnumber : ∀ {ds : List Char} (more : List Char) {k' : Kind}, k' = .int ∨ k' = .float →
      ds ≠ [] → (∀ c ∈ ds, digit c = true) → ∃ c tail, ds ++ more = c :: tail ∧
        blank c = false ∧ ∀ k : Kind, k.absorbs c = k.fuses k' := by
    intro ds more k' hk' hne hds
    obtain ⟨d, ds, rfl⟩ := List.exists_cons_of_ne_nil hne
    have hd : digit d = true := hds d List.mem_cons_self
    refine ⟨d, ds ++ more, rfl, (digit_only hd).2.2.2, ?_⟩
    intro k
    rw [Kind.absorbs_of_digit k hd]
    rcases hk' with rfl | rfl <;> cases k <;> rfl
  cases h with
  | unknown hc hw =>
      obtain ⟨hi, hd, -, hm⟩ := not_starts hc
      have hb := hw _ List.mem_cons_self
      refine ⟨_, _, rfl, hb, ?_⟩
      intro k
      rw [Kind.absorbs_of_other k hi hd hm hb]
      cases k <;> rfl
  | lexeme hl =>
      cases hl with
      | word hc hw =>
          refine ⟨_, _, rfl, (identStart_only hc).2.2.2, ?_⟩
          intro k
          rw [Kind.absorbs_of_identStart k hc, Kind.fuses_of_isWord k (isWord_ofWord _)]
      | int hne hds =>
          have := hnumber [] (Or.inl rfl) hne hds
          rwa [List.append_nil] at this
      | float hne hds _ _ => exact hnumber _ (Or.inr rfl) hne hds
      | string hq _ =>
          obtain ⟨hd, hi, hm, hb⟩ := quote_only hq
          refine ⟨_, _, rfl, hb, ?_⟩
          intro k
          rw [Kind.absorbs_of_other k hi hd hm hb]
          cases k <;> rfl
      | @operator raw kind hop =>
          obtain ⟨hkind, a, ha, hraw⟩ := Vocabulary.operator_cases hop
          obtain ⟨hdot, hequal⟩ := Vocabulary.operators_head _ (Vocabulary.mem_of_operator? hop)
          obtain ⟨tail, rfl⟩ : ∃ tail, raw = a :: tail := by
            rcases hraw with rfl | ⟨b, rfl⟩
            · exact ⟨[], rfl⟩
            · exact ⟨[b], rfl⟩
          rw [String.toList_ofList, List.head?_cons, Option.some_inj] at hdot hequal
          refine ⟨a, tail, rfl, (punctuation_only ha).2.2.2, ?_⟩
          intro k
          rw [Kind.absorbs_of_punctuation k ha]
          simp only [Token.ofChars, Kind.fuses_of_isOperator k hkind, hdot, hequal]

/-! ## Where a rule stops -/

/-- **A rule stops in front of a character that its token does not absorb.** -/
theorem Munch.stops {result : Except LexicalError Token} {looks : Bool}
    (h : Munch o raw rest result looks) : Stops (report result).kind.absorbs rest := by
  cases h with
  | int _ _ hstop hpoint =>
      cases rest with
      | nil => exact stops_nil _
      | cons c rest =>
          have hc : c ≠ '.' := by
            rintro rfl
            exact hpoint rfl
          have hd : digit c = false := stops_cons.mp hstop
          exact stops_cons.mpr (by simp [report, Token.ofChars, Kind.absorbs, hd, hc])
  | float _ _ _ _ hstop => exact hstop
  | point _ _ _ => exact fun _ _ => rfl
  | word _ _ hstop =>
      intro c hc
      exact (Kind.absorbs_of_isWord (isWord_ofWord _) c).trans (hstop c hc)
  | closed _ _ => exact fun _ _ => rfl
  | unclosed _ _ => exact stops_nil _
  | @pair a b rest kind _ hp =>
      intro c _
      obtain ⟨hkind, -⟩ := Vocabulary.operator_cases hp
      have hangle : ¬ (kind = .less ∨ kind = .greater) := by
        intro hk
        have hlen := (Vocabulary.operators_angle _ (Vocabulary.mem_of_operator? hp) hk).1
        rw [String.toList_ofList] at hlen
        cases hlen
      obtain ⟨hless, hgreater⟩ := not_or.mp hangle
      rw [show (report (.ok (Token.ofChars kind [a, b]))).kind = kind from rfl,
        Kind.absorbs_of_isOperator hkind]
      simp [hless, hgreater]
  | @mark a rest kind _ hp h1 =>
      intro c hc
      obtain ⟨hkind, -⟩ := Vocabulary.operator_cases h1
      rw [show (report (.ok (Token.ofChars kind [a]))).kind = kind from rfl,
        Kind.absorbs_of_isOperator hkind]
      obtain ⟨tail, rfl⟩ : ∃ tail, rest = c :: tail := by
        cases rest with
        | nil => cases hc
        | cons d tail => exact ⟨tail, by rw [Option.some.inj hc]⟩
      by_contra hn
      obtain ⟨hangle, rfl⟩ : (kind = .less ∨ kind = .greater) ∧ c = '=' := by simpa using hn
      have hsome := (Vocabulary.operators_angle _ (Vocabulary.mem_of_operator? h1) hangle).2
      rw [String.toList_ofList] at hsome
      exact hsome hp
  | stray _ _ _ => exact fun _ _ => rfl
  | unknown _ _ hstop => exact hstop

/-- A spelling is read as its token where its kind does not absorb what follows. -/
theorem Spelling.munch (o : Options) (h : Spelling raw t) (hstop : Stops t.kind.absorbs rest) :
    ∃ looks, Munch o raw rest (.ok t) looks := by
  cases h with
  | unknown hc hw => exact ⟨_, Munch.unknown hc hw hstop⟩
  | lexeme hl =>
      cases hl with
      | word hc hw =>
          refine ⟨_, Munch.word hc hw ?_⟩
          intro x hx
          exact (Kind.absorbs_of_isWord (isWord_ofWord _) x).symm.trans (hstop x hx)
      | int hne hds =>
          cases rest with
          | nil => exact ⟨_, Munch.int hne hds (stops_nil _) (by simp)⟩
          | cons c rest =>
              have hc : (digit c || c = '.') = false := stops_cons.mp hstop
              obtain ⟨hd, hpoint⟩ : digit c = false ∧ c ≠ '.' := by simpa using hc
              exact ⟨_, Munch.int hne hds (stops_cons.mpr hd) (by simpa using hpoint)⟩
      | float hne hds hfe hfs => exact ⟨_, Munch.float hne hds hfe hfs hstop⟩
      | string hq hb => exact ⟨_, Munch.closed hq hb⟩
      | @operator raw kind hop =>
          obtain ⟨hkind, a, ha, hraw⟩ := Vocabulary.operator_cases hop
          rcases hraw with rfl | ⟨b, rfl⟩
          · refine ⟨_, Munch.mark ha ?_ hop⟩
            cases rest with
            | nil => rfl
            | cons c rest =>
                cases hp : Vocabulary.pair? [a, c] with
                | none => exact hp
                | some k =>
                    obtain ⟨hangle, hequal⟩ := Vocabulary.operators_extend _
                      (Vocabulary.mem_of_operator? hop) _ (Vocabulary.mem_of_operator? hp)
                      (by simp) (by simp)
                    have hc : c = '=' := by simpa using hequal
                    have hno : kind.absorbs c = false := stops_cons.mp hstop
                    rw [Kind.absorbs_of_isOperator hkind, hc] at hno
                    have hneither : ¬ (kind = .less ∨ kind = .greater) := by simpa using hno
                    exact absurd hangle hneither
          · exact ⟨_, Munch.pair ha hop⟩

/-! ## Writing a list of tokens -/

structure Gap where
  chars : List Char
  blank : ∀ c ∈ chars, blank c = true

/-- A token as it is written: a gap and one of its spellings. -/
structure Written where
  gap : Gap
  raw : List Char
  token : Token
  spelled : Spelling raw token

def render (parts : List Written) (last : Gap) : List Char :=
  parts.flatMap (fun p => p.gap.chars ++ p.raw) ++ last.chars

/-- Neighbours that fuse are kept apart. -/
def Apart (p q : Written) : Prop := p.token.kind.fuses q.token.kind = true → q.gap.chars ≠ []

section Render

variable {parts : List Written} {p : Written}

theorem render_cons (last : Gap) :
    render (p :: parts) last = p.gap.chars ++ (p.raw ++ render parts last) := by
  simp [render]

/-- What follows a written token begins with a character that the token absorbs exactly
where the next token fuses with it and touches it. -/
theorem stops_render_iff (last : Gap) :
    Stops p.token.kind.absorbs (render parts last) ↔ ∀ q ∈ parts.head?, Apart p q := by
  have hgap : ∀ (gap : Gap) (more : List Char), gap.chars ≠ [] →
      Stops p.token.kind.absorbs (gap.chars ++ more) := by
    intro gap more hne
    obtain ⟨c, tail, hchars⟩ := List.exists_cons_of_ne_nil hne
    have hc : blank c = true := gap.blank c (by rw [hchars]; exact List.mem_cons_self)
    rw [hchars]
    exact stops_cons.mpr (Kind.absorbs_of_blank _ hc)
  cases parts with
  | nil =>
      refine iff_of_true ?_ ?_
      · show Stops p.token.kind.absorbs last.chars
        by_cases hne : last.chars = []
        · rw [hne]
          exact stops_nil _
        · have := hgap last [] hne
          rwa [List.append_nil] at this
      · rintro q ⟨⟩
  | cons q parts =>
      obtain ⟨c, tail, hraw, -, habsorbs⟩ := q.spelled.absorbs_head
      have hhead : (∀ q' ∈ (q :: parts).head?, Apart p q') ↔ Apart p q := by simp
      rw [hhead, render_cons]
      by_cases hne : q.gap.chars = []
      · rw [hne, List.nil_append, hraw, List.cons_append, stops_cons, habsorbs]
        unfold Apart
        simp [hne]
      · exact iff_of_true (hgap q.gap _ hne) (fun _ => hne)

end Render

/-! ## Reading it back -/

variable {base r : Reader}

/-- Where the text goes on with a character that the token absorbs, the first call
delivers something else. -/
theorem report_ne {raw' rest' : List Char} {result : Except LexicalError Token}
    {looks : Bool} (ht : Spelling raw t) (hno : ¬ Stops t.kind.absorbs rest)
    (hm : Munch o raw' rest' result looks) (htext : raw ++ rest = raw' ++ rest') :
    report result ≠ t := by
  intro heq
  -- strings and errors absorb nothing, so the token is written like its lexeme
  have hstring : t.kind ≠ .string := by
    intro hk
    rw [hk] at hno
    exact hno (fun _ _ => rfl)
  have herror : t.kind ≠ .error := by
    intro hk
    rw [hk] at hno
    exact hno (fun _ _ => rfl)
  have hraw' : raw' = t.lexeme.toList := by
    have := hm.raw_eq
    rw [heq] at this
    exact this hstring herror
  rw [hraw', ← ht.raw_eq hstring] at htext
  have hstops := hm.stops
  rw [heq, ← List.append_cancel_left htext] at hstops
  exact hno hstops

/-- **Reading back.** The run over written tokens delivers them exactly where neighbours
that fuse are kept apart. -/
theorem runsTo_render_iff (o : Options) (parts : List Written) (last : Gap)
    (hb : base.Delivers (render parts last)) (hr : base.StandsAt r) :
    RunsTo o r (parts.map Written.token ++ [Token.endOfInput]) ↔ List.IsChain Apart parts := by
  induction parts generalizing base r with
  | nil =>
      have hend := consume_end (o := o) last.blank hb hr
      exact iff_of_true (RunsTo.of_final hend rfl) List.IsChain.nil
  | cons p parts ih =>
      rw [render_cons] at hb
      rw [List.isChain_cons, ← stops_render_iff last]
      by_cases hstop : Stops p.token.kind.absorbs (render parts last)
      · obtain ⟨looks, hm⟩ := p.spelled.munch o hstop
        have hc := consume_rule hm p.gap.blank hb hr
        rw [← List.append_assoc] at hb
        have hrest := ih hb.drop (leave_standsAt looks hb.drop)
        rw [List.map_cons, List.cons_append, RunsTo.cons_iff hc p.spelled.isFinal]
        constructor
        · rintro ⟨-, hrun⟩
          exact ⟨hstop, hrest.mp hrun⟩
        · rintro ⟨-, hchain⟩
          exact ⟨rfl, hrest.mpr hchain⟩
      -- the first call takes too much or fails, so both sides are false
      · obtain ⟨c, tail, hraw, hblank, -⟩ := p.spelled.absorbs_head
        obtain ⟨raw, rest, result, looks, htext, hm⟩ :=
          exists_munch o (tail ++ render parts last) hblank
        rw [← List.cons_append, ← hraw] at htext
        rw [htext] at hb
        have hc := consume_rule hm p.gap.blank hb hr
        refine iff_of_false ?_ ?_
        · intro hrun
          exact report_ne p.spelled hstop hm htext (hrun.head hc)
        · rintro ⟨h, -⟩
          exact hstop h

/-- **The round trip.** The written form of a list of tokens is tokenized to this list and
the end of the input exactly where neighbours that fuse have blanks between them. -/
theorem tokenize_render_iff (o : Options) (parts : List Written) (last : Gap) :
    TokenizesTo o (.text (String.ofList (render parts last)))
        (parts.map Written.token ++ [Token.endOfInput]) ↔
      List.IsChain Apart parts := by
  unfold Source.text Feed.ofString
  rw [String.toList_ofList, tokenizesTo_feed]
  exact runsTo_render_iff o parts last (Reader.delivers_ofChars _) (Or.inl rfl)

end Lexer

end FilterLex
