import Mathlib.Logic.Equiv.Basic
import Mathlib.Data.List.Forall2
import FilterLex.Proofs.TextTokens

/-!
# Only the classes of characters matter

The lexer knows letters, digits, the underscore, punctuation marks and blanks by name, and it
knows which characters are quotes. All else is one character like another. So a bijection of
the characters that keeps what the lexer knows can be carried through it: the tokens of the
renamed text are the renamed tokens.

- `Renaming`: such a bijection. No class notices it (`Renaming.same_of_named`,
  `Renaming.quote_char`), nor does the vocabulary (`Renaming.operator?_map`).
- `Munch.rename`: a rule divides the renamed text like the text.
- `Renamed`: a token and its counterpart. An error that shows the character it found shows the
  renamed one.
- `exists_lexes_rename`: the tokens of the renamed text.
- `classes_only`: the law for strings, and what it says of exchanged quotes.
-/

namespace FilterLex

open CharClass

/-- Characters that the lexer knows by name. -/
def CharClass.named (c : Char) : Bool := identStart c || digit c || punctuation c || blank c

/-- A bijection of the characters that keeps those known by name and turns quotes into quotes.
The remaining characters are mapped onto each other. -/
structure Renaming where
  char : Equiv.Perm Char
  keeps : ∀ c, named c = true → char c = c
  quotes : ∀ c, quote c = true → quote (char c) = true

def Token.map (g : Char → Char) (t : Token) : Token := ⟨t.kind, t.lexeme.map g⟩

/-- The error with the character that it found replaced. The other errors show no character
that the lexer does not know by name. -/
def LexicalError.map (g : Char → Char) : LexicalError → LexicalError
  | .expectedDigit found => .expectedDigit (found.map g)
  | e => e

theorem Token.map_ofChars (g : Char → Char) (kind : Kind) (text : List Char) :
    (Token.ofChars kind text).map g = Token.ofChars kind (text.map g) := by
  have hlexeme : (String.ofList text).map g = String.ofList (text.map g) :=
    String.toList_inj.mp (by simp)
  unfold Token.map Token.ofChars
  rw [hlexeme]

namespace Vocabulary

theorem operators_punctuation : ∀ p ∈ operators,
    p.1.toList.all CharClass.punctuation = true := by
  decide

theorem punctuation_of_operator? {text : List Char} {kind : Kind}
    (h : operator? (String.ofList text) = some kind) :
    ∀ c ∈ text, CharClass.punctuation c = true := by
  have hall := operators_punctuation _ (mem_of_operator? h)
  rwa [String.toList_ofList, List.all_eq_true] at hall

end Vocabulary

namespace Renaming

variable (f : Renaming) {test : Char → Bool} {text rest : List Char}

/-! ## A renaming keeps the classes -/

/-- What is known by name after the renaming was so before. -/
theorem eq_of_named {c : Char} (h : named (f.char c) = true) : f.char c = c :=
  f.char.injective (f.keeps _ h)

theorem map_eq_self (h : ∀ c ∈ text, named c = true) : text.map f.char = text := by
  rw [List.map_congr_left fun c hc => f.keeps c (h c hc), List.map_id']

/-- No class of characters known by name notices the renaming. -/
theorem same_of_named (h : ∀ c, test c = true → named c = true) (c : Char) :
    test (f.char c) = test c := by
  rw [Bool.eq_iff_iff]
  constructor
  · intro hc
    rwa [f.eq_of_named (h _ hc)] at hc
  · intro hc
    rwa [f.keeps _ (h _ hc)]

theorem digit_char : ∀ c, digit (f.char c) = digit c :=
  f.same_of_named fun c h => by simp [named, h]

theorem identStart_char : ∀ c, identStart (f.char c) = identStart c :=
  f.same_of_named fun c h => by simp [named, h]

theorem punctuation_char : ∀ c, punctuation (f.char c) = punctuation c :=
  f.same_of_named fun c h => by simp [named, h]

theorem blank_char : ∀ c, blank (f.char c) = blank c :=
  f.same_of_named fun c h => by simp [named, h]

theorem ident_char (c : Char) : ident (f.char c) = ident c := by
  unfold ident
  rw [f.identStart_char, f.digit_char]

/-- There are two quotes only, and the renaming already has something to turn into each. -/
theorem quote_char (c : Char) : quote (f.char c) = quote c := by
  rw [Bool.eq_iff_iff]
  refine ⟨fun h => ?_, f.quotes c⟩
  have hiff : ∀ x, quote x = true ↔ x = '\'' ∨ x = '"' := fun x => decide_eq_true_iff
  have hsingle := (hiff _).mp (f.quotes '\'' (by decide))
  have hdouble := (hiff _).mp (f.quotes '"' (by decide))
  have hne : f.char '\'' ≠ f.char '"' := f.char.injective.ne (by decide)
  rw [hiff, ← f.char.injective.eq_iff (a := c), ← f.char.injective.eq_iff (a := c)]
  rcases hsingle with hs | hs <;> rcases hdouble with hd | hd <;>
    rcases (hiff _).mp h with hc | hc <;> simp_all

theorem starts_char (c : Char) : starts (f.char c) = starts c := by
  unfold starts
  rw [f.identStart_char, f.digit_char, f.quote_char, f.punctuation_char]

section Texts

variable (hsame : ∀ c, test (f.char c) = test c)
include hsame

theorem all_map {b : Bool} (h : ∀ c ∈ text, test c = b) :
    ∀ c ∈ text.map f.char, test c = b := by
  rw [List.forall_mem_map]
  intro c hc
  rw [hsame, h c hc]

theorem stops_map (h : Stops test rest) : Stops test (rest.map f.char) := by
  cases rest with
  | nil => exact stops_nil test
  | cons c rest =>
      rw [List.map_cons, stops_cons, hsame]
      exact stops_cons.mp h

end Texts

/-! ## A renaming keeps the vocabulary -/

/-- The operators consist of marks, so no other text is turned into one. -/
theorem operator?_map (text : List Char) :
    Vocabulary.operator? (String.ofList (text.map f.char)) =
      Vocabulary.operator? (String.ofList text) := by
  have hnamed : ∀ c, punctuation c = true → named c = true := fun c h => by simp [named, h]
  cases h : Vocabulary.operator? (String.ofList text) with
  | some kind =>
      have hmarks := Vocabulary.punctuation_of_operator? h
      rw [f.map_eq_self fun c hc => hnamed c (hmarks c hc), h]
  | none =>
      cases h' : Vocabulary.operator? (String.ofList (text.map f.char)) with
      | none => rfl
      | some kind =>
          have hmarks := Vocabulary.punctuation_of_operator? h'
          rw [List.forall_mem_map] at hmarks
          have hself : text.map f.char = text := by
            refine f.map_eq_self fun c hc => hnamed c ?_
            rw [← f.punctuation_char]
            exact hmarks c hc
          rw [hself, h] at h'
          cases h'

theorem pair?_map (text : List Char) :
    Vocabulary.pair? (text.map f.char) = Vocabulary.pair? text := by
  unfold Vocabulary.pair?
  rw [List.length_map, f.operator?_map]

def result : Except LexicalError Token → Except LexicalError Token
  | .ok t => .ok (t.map f.char)
  | .error e => .error (e.map f.char)

theorem result_ofChars (kind : Kind) (text : List Char) :
    f.result (.ok (Token.ofChars kind text)) = .ok (Token.ofChars kind (text.map f.char)) :=
  congrArg Except.ok (Token.map_ofChars f.char kind text)

end Renaming

namespace Lexer

variable {f : Renaming} {o : Options} {raw rest text : List Char}
  {result : Except LexicalError Token} {looks : Bool} {ts : List Token}

/-! ## A rule divides the renamed text like the text -/

/-- The words are known by name throughout. -/
theorem map_ofWord (h : ∀ c ∈ text, ident c = true) :
    (Token.ofWord text).map f.char = Token.ofWord (text.map f.char) := by
  have hself : text.map f.char = text := by
    refine f.map_eq_self fun c hc => ?_
    rcases Bool.or_eq_true_iff.mp (h c hc) with hc | hc <;> simp [named, hc]
  have hlexeme : (String.ofList text).map f.char = String.ofList text :=
    String.toList_inj.mp (by simp [hself])
  rw [hself]
  exact congrArg (Token.mk _) hlexeme

theorem take_one_ne {c : Char} (hc : f.char c = c) (h : rest.take 1 ≠ [c]) :
    (rest.map f.char).take 1 ≠ [c] := by
  intro heq
  apply h
  rw [← List.map_take, ← hc, ← List.map_singleton] at heq
  exact List.map_injective_iff.mpr f.char.injective heq

/-- **The rules are those of the classes.** -/
theorem Munch.rename (h : Munch o raw rest result looks) :
    Munch o (raw.map f.char) (rest.map f.char) (f.result result) looks := by
  have hpoint : f.char '.' = '.' := f.keeps _ (by decide)
  have hfront : ∀ {a}, Vocabulary.pair? (a :: rest.take 1) = none →
      Vocabulary.pair? (f.char a :: (rest.map f.char).take 1) = none := by
    intro a hp
    rw [← List.map_take, ← List.map_cons, f.pair?_map, hp]
  have hnot : ∀ {q : Char} {body : List Char}, q ∉ body → f.char q ∉ body.map f.char := by
    intro q body hb hmem
    obtain ⟨c, hc, heq⟩ := List.mem_map.mp hmem
    exact hb (f.char.injective heq ▸ hc)
  cases h with
  | int hne hds hstop hafter =>
      rw [f.result_ofChars]
      exact Munch.int (List.map_eq_nil_iff.not.mpr hne) (f.all_map f.digit_char hds)
        (f.stops_map f.digit_char hstop) (take_one_ne hpoint hafter)
  | float hne hds hfe hfs hstop =>
      rw [f.result_ofChars, List.map_append, List.map_cons, hpoint]
      exact Munch.float (List.map_eq_nil_iff.not.mpr hne) (f.all_map f.digit_char hds)
        (List.map_eq_nil_iff.not.mpr hfe) (f.all_map f.digit_char hfs)
        (f.stops_map f.digit_char hstop)
  | point hne hds hstop =>
      rw [List.map_append, List.map_singleton, hpoint]
      have hm := Munch.point (o := o) (List.map_eq_nil_iff.not.mpr hne)
        (f.all_map f.digit_char hds) (f.stops_map f.digit_char hstop)
      rwa [← List.map_take] at hm
  | word hc hw hstop =>
      have hm := Munch.word (o := o) ((f.identStart_char _).trans hc)
        (f.all_map f.ident_char hw) (f.stops_map f.ident_char hstop)
      rwa [← List.map_cons, ← map_ofWord (ident_run hc hw)] at hm
  | closed hq hb =>
      rw [f.result_ofChars, List.map_cons, List.map_append, List.map_singleton]
      exact Munch.closed (f.quotes _ hq) (hnot hb)
  | unclosed hq hb =>
      rw [apply_ite f.result, f.result_ofChars]
      exact Munch.unclosed (f.quotes _ hq) (hnot hb)
  | @pair a b rest kind ha hp =>
      rw [f.result_ofChars]
      exact Munch.pair ((f.punctuation_char a).trans ha) ((f.pair?_map [a, b]).trans hp)
  | @mark a rest kind ha hp h1 =>
      rw [f.result_ofChars]
      exact Munch.mark ((f.punctuation_char a).trans ha) (hfront hp)
        ((f.operator?_map [a]).trans h1)
  | @stray a rest ha hp h1 =>
      -- the message shows this character, but it is one that is kept
      have hself : f.char a = a := f.keeps a (by simp [named, ha])
      have hpair := hfront hp
      rw [hself] at hpair
      rw [List.map_singleton, hself]
      exact Munch.stray ha hpair h1
  | unknown hc hw hstop =>
      rw [f.result_ofChars]
      exact Munch.unknown ((f.starts_char _).trans hc) (f.all_map f.blank_char hw)
        (f.stops_map (fun c => congrArg not (f.blank_char c)) hstop)

/-! ## A token and its counterpart -/

/-- The first token belongs to a text, and the second to the renamed text. -/
inductive Renamed (f : Renaming) : Token → Token → Prop
  | ended : Renamed f Token.endOfInput Token.endOfInput
  | lexeme {t} (herror : t.kind ≠ .error) (hend : t.kind ≠ .eof) : Renamed f t (t.map f.char)
  /-- The error that shows the character it found in place of a digit. -/
  | found (c : Char) :
      Renamed f (Token.ofError ("expected digit, found " ++ Piece.describe [c]))
        (Token.ofError ("expected digit, found " ++ Piece.describe [f.char c]))
  /-- Every other error. -/
  | message {m : String} (h : ∀ c, m ≠ "expected digit, found " ++ Piece.describe [c]) :
      Renamed f (Token.ofError m) (Token.ofError m)

theorem Renamed.kind {t u : Token} (h : Renamed f t u) : u.kind = t.kind := by
  have herror : ∀ m, (Token.ofError m).kind = .error := fun _ => rfl
  cases h with
  | ended => rfl
  | lexeme _ _ => rfl
  | found c => rw [herror, herror]
  | message _ => rfl

theorem Renamed.kinds {us : List Token} (h : List.Forall₂ (Renamed f) ts us) :
    us.map Token.kind = ts.map Token.kind := by
  induction h with
  | nil => rfl
  | cons h _ ih => rw [List.map_cons, List.map_cons, h.kind, ih]

theorem Munch.found_length {found : List Char}
    (h : Munch o raw rest (.error (.expectedDigit found)) looks) : found.length ≤ 1 := by
  generalize hresult : Except.error (LexicalError.expectedDigit found) = result at h
  cases h with
  | point _ _ _ =>
      cases hresult
      exact List.length_take_le 1 _
  | unclosed _ _ => split at hresult <;> cases hresult
  | _ => cases hresult

theorem append_ne_append {a b x y : String} (h : ¬ a.toList <+: b.toList)
    (h' : ¬ b.toList <+: a.toList) : a ++ x ≠ b ++ y := by
  intro heq
  have hlist := congrArg String.toList heq
  rw [String.toList_append, String.toList_append] at hlist
  have hb : b.toList <+: a.toList ++ x.toList := hlist ▸ List.prefix_append _ _
  rcases List.prefix_or_prefix_of_prefix (List.prefix_append _ x.toList) hb with ha | hb
  · exact h ha
  · exact h' hb

theorem Renamed.expectedDigit (c : Char) :
    Renamed f (report (.error (.expectedDigit [c])))
      (report (.error (.expectedDigit [f.char c]))) := Renamed.found c

theorem Renamed.self {e : LexicalError}
    (h : ∀ c, e.message ≠ (LexicalError.expectedDigit [c]).message) :
    Renamed f (report (.error e)) (report (.error e)) := Renamed.message h

theorem renamed_error {e : LexicalError} (h : Munch o raw rest (.error e) looks) :
    Renamed f (report (.error e)) (report (.error (e.map f.char))) := by
  have hinside := fun c => message_inside (e := .expectedDigit [c]) (Or.inl ⟨c, rfl⟩)
  cases e with
  | expectedDigit found =>
      have hlength := h.found_length
      unfold LexicalError.map
      cases found with
      | nil =>
          exact Renamed.self fun c => (hinside c).2.symm
      | cons c found =>
          obtain rfl : found = [] := by simpa using hlength
          exact Renamed.expectedDigit c
  | unexpectedPunctuation mark =>
      exact Renamed.self fun c => append_ne_append (by decide) (by decide)
  | unterminatedString => exact Renamed.self fun c => (hinside c).1.symm

/-! ## The tokens of the renamed text -/

/-- **A renamed text has the renamed tokens.** -/
theorem exists_lexes_rename (f : Renaming) (o : Options) (text : List Char) :
    ∃ ts us, Lexes o text ts ∧ Lexes o (text.map f.char) us ∧ List.Forall₂ (Renamed f) ts us := by
  induction text using text_induction o with
  | blanks w hw =>
      exact ⟨_, _, Lexes.blanks hw, Lexes.blanks (f.all_map f.blank_char hw),
        .cons Renamed.ended .nil⟩
  | rule w raw rest result looks hw hm ih =>
      rw [List.map_append, List.map_append]
      have hw' := f.all_map f.blank_char hw
      cases result with
      | error e =>
          exact ⟨_, _, Lexes.error hm hw, Lexes.error hm.rename hw', .cons (renamed_error hm) .nil⟩
      | ok t =>
          obtain ⟨ts, us, hts, hus, hall⟩ := ih
          have hfinal := hm.isFinal
          have ht : Renamed f t (t.map f.char) := by
            refine Renamed.lexeme ?_ hm.kind_ne_eof
            intro herror
            simp [Token.isFinal, herror] at hfinal
          exact ⟨_, _, Lexes.cons hm hw hts, Lexes.cons hm.rename hw' hus, .cons ht hall⟩

end Lexer

open Lexer

/-! ## Exchanged quotes -/

def exchangedQuotes : Renaming where
  char := Equiv.swap '\'' '"'
  keeps := by
    intro c hc
    apply Equiv.swap_apply_of_ne_of_ne <;>
      rintro rfl <;> exact absurd hc (by decide)
  quotes := by
    intro c hc
    rcases of_decide_eq_true hc with rfl | rfl <;> decide

/-- A token, and its counterpart where the quotes are exchanged. -/
structure QuotesExchanged (t u : Token) : Prop where
  kind : u.kind = t.kind
  lexeme : t.kind ≠ .error → u = t.map exchangedQuotes.char
  /-- The message is the same unless it shows a quote. -/
  message : t.kind = .error → u = t ∨ ∃ q, quote q = true ∧
    t = Token.ofError ("expected digit, found " ++ Piece.describe [q]) ∧
    u = Token.ofError ("expected digit, found " ++ Piece.describe [exchangedQuotes.char q])

theorem Lexer.Renamed.quotesExchanged {t u : Token} (h : Renamed exchangedQuotes t u) :
    QuotesExchanged t u := by
  refine ⟨h.kind, ?_, ?_⟩
  · intro hkind
    cases h with
    | ended =>
        have hlexeme : Token.endLexeme.map exchangedQuotes.char = Token.endLexeme := by
          rw [← String.toList_inj, String.toList_map]
          decide
        exact (congrArg (Token.mk .eof) hlexeme).symm
    | lexeme _ _ => rfl
    | found c => exact absurd rfl hkind
    | message _ => exact absurd rfl hkind
  · intro hkind
    cases h with
    | ended => cases hkind
    | lexeme herror _ => exact absurd hkind herror
    | message _ => exact Or.inl rfl
    | found c =>
        by_cases hq : quote c = true
        · exact Or.inr ⟨c, hq, rfl, rfl⟩
        · obtain ⟨hsingle, hdouble⟩ := not_or.mp (of_decide_eq_false (Bool.eq_false_iff.mpr hq))
          have hself : exchangedQuotes.char c = c := Equiv.swap_apply_of_ne_of_ne hsingle hdouble
          rw [hself]
          exact Or.inl rfl

/-- **Only the classes of characters matter.** A renamed text has as many tokens as the text,
of the same kinds, with renamed lexemes; an error keeps its message, but for the character that
it found in place of a digit. So exchanged quotes are exchanged in the lexemes, and nothing else
changes. -/
theorem classes_only :
    (∀ (f : Renaming) (o : Options) (s : String), ∃ ts us,
      TokenizesTo o (.text s) ts ∧ TokenizesTo o (.text (s.map f.char)) us ∧
      us.map Token.kind = ts.map Token.kind ∧ List.Forall₂ (Renamed f) ts us) ∧
    ∀ (o : Options) (s : String), ∃ ts us,
      TokenizesTo o (.text s) ts ∧ TokenizesTo o (.text (s.map exchangedQuotes.char)) us ∧
      List.Forall₂ QuotesExchanged ts us := by
  have hrename : ∀ (f : Renaming) (o : Options) (s : String), ∃ ts us,
      TokenizesTo o (.text s) ts ∧ TokenizesTo o (.text (s.map f.char)) us ∧
      List.Forall₂ (Renamed f) ts us := by
    intro f o s
    obtain ⟨ts, us, hts, hus, hall⟩ := exists_lexes_rename f o s.toList
    refine ⟨ts, us, tokenizesTo_text.mpr hts, tokenizesTo_text.mpr ?_, hall⟩
    rwa [String.toList_map]
  constructor
  · intro f o s
    obtain ⟨ts, us, hts, hus, hall⟩ := hrename f o s
    exact ⟨ts, us, hts, hus, Renamed.kinds hall, hall⟩
  · intro o s
    obtain ⟨ts, us, hts, hus, hall⟩ := hrename exchangedQuotes o s
    exact ⟨ts, us, hts, hus, hall.imp fun _ _ h => h.quotesExchanged⟩

end FilterLex
