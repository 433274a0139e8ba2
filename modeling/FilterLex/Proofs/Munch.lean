import FilterLex.Proofs.Spelled

/-!
# The lexical rules of a text

`Munch o raw rest result looks` is the lexical grammar, one constructor per rule: in
front of the text `raw ++ rest` the lexer takes `raw` and makes `result` of it, and
`looks` says whether what follows `raw` has a say in it. Each rule states what `rest`
must not go on with; this is what makes `raw` as long as it can be.

- `exists_munch`: every text that no blank is in front of is divided by some rule.
- `Munch.front`: the scanner's verdict is the one that the rule says.
- `consume_munch`, `consume_blanks`: what the next token of a reader is.
-/

namespace FilterLex

def Token.ofWord (text : List Char) : Token :=
  ⟨(Vocabulary.keyword? (String.ofList text)).getD .ident, String.ofList text⟩

namespace Lexer

open CharClass

/-- The lexical rules. -/
inductive Munch (o : Options) :
    List Char → List Char → Except LexicalError Token → Bool → Prop
  | int {ds rest} (hne : ds ≠ []) (hds : ∀ c ∈ ds, digit c = true)
      (hstop : Stops digit rest) (hpoint : rest.take 1 ≠ ['.']) :
      Munch o ds rest (.ok (Token.ofChars .int ds)) true
  | float {ds fs rest} (hne : ds ≠ []) (hds : ∀ c ∈ ds, digit c = true)
      (hfe : fs ≠ []) (hfs : ∀ c ∈ fs, digit c = true) (hstop : Stops digit rest) :
      Munch o (ds ++ '.' :: fs) rest (.ok (Token.ofChars .float (ds ++ '.' :: fs))) true
  | point {ds rest} (hne : ds ≠ []) (hds : ∀ c ∈ ds, digit c = true)
      (hstop : Stops digit rest) :
      Munch o (ds ++ ['.']) rest (.error (.expectedDigit (rest.take 1))) true
  | word {c w rest} (hc : identStart c = true) (hw : ∀ x ∈ w, ident x = true)
      (hstop : Stops ident rest) :
      Munch o (c :: w) rest (.ok (Token.ofWord (c :: w))) true
  | closed {q body rest} (hq : quote q = true) (hb : q ∉ body) :
      Munch o (q :: (body ++ [q])) rest (.ok (Token.ofChars .string body)) false
  | unclosed {q body} (hq : quote q = true) (hb : q ∉ body) :
      Munch o (q :: body) []
        (if o.strictStrings then .error .unterminatedString
         else .ok (Token.ofChars .string body)) true
  | pair {a b rest kind} (ha : punctuation a = true)
      (hp : Vocabulary.pair? [a, b] = some kind) :
      Munch o [a, b] rest (.ok (Token.ofChars kind [a, b])) false
  | mark {a rest kind} (ha : punctuation a = true)
      (hp : Vocabulary.pair? (a :: rest.take 1) = none)
      (h1 : Vocabulary.operator? (String.ofList [a]) = some kind) :
      Munch o [a] rest (.ok (Token.ofChars kind [a])) true
  | stray {a rest} (ha : punctuation a = true)
      (hp : Vocabulary.pair? (a :: rest.take 1) = none)
      (h1 : Vocabulary.operator? (String.ofList [a]) = none) :
      Munch o [a] rest (.error (.unexpectedPunctuation [a])) true
  | unknown {c w rest} (hc : starts c = false) (hw : ∀ x ∈ c :: w, blank x = false)
      (hstop : Stops (!blank ·) rest) :
      Munch o (c :: w) rest (.ok (Token.ofChars .unknown (c :: w))) true

variable {o : Options} {raw rest : List Char} {result : Except LexicalError Token}
  {looks : Bool}

/-- No rule takes nothing, and none starts at a blank. -/
theorem Munch.raw_cons (h : Munch o raw rest result looks) :
    ∃ c tail, raw = c :: tail ∧ blank c = false := by
  have hdigit : ∀ {ds : List Char} (more : List Char), ds ≠ [] → (∀ c ∈ ds, digit c = true) →
      ∃ c tail, ds ++ more = c :: tail ∧ blank c = false := by
    intro ds more hne hds
    cases ds with
    | nil => exact absurd rfl hne
    | cons d ds => exact ⟨d, ds ++ more, rfl, (digit_only (hds d List.mem_cons_self)).2.2.2⟩
  cases h with
  | int hne hds _ _ =>
      have := hdigit [] hne hds
      rwa [List.append_nil] at this
  | float hne hds _ _ _ => exact hdigit _ hne hds
  | point hne hds _ => exact hdigit _ hne hds
  | word hc _ _ => exact ⟨_, _, rfl, (identStart_only hc).2.2.2⟩
  | closed hq _ => exact ⟨_, _, rfl, (quote_only hq).2.2.2⟩
  | unclosed hq _ => exact ⟨_, _, rfl, (quote_only hq).2.2.2⟩
  | pair ha _ => exact ⟨_, _, rfl, (punctuation_only ha).2.2.2⟩
  | mark ha _ _ => exact ⟨_, _, rfl, (punctuation_only ha).2.2.2⟩
  | stray ha _ _ => exact ⟨_, _, rfl, (punctuation_only ha).2.2.2⟩
  | unknown _ hw _ => exact ⟨_, _, rfl, hw _ List.mem_cons_self⟩

theorem Munch.text_ne {w : List Char} (h : Munch o raw rest result looks) : w ++ raw ≠ [] := by
  obtain ⟨c, tail, hcons, -⟩ := h.raw_cons
  rw [hcons]
  exact List.append_ne_nil_of_right_ne_nil w (List.cons_ne_nil c tail)

theorem Munch.stops_blank (h : Munch o raw rest result looks) : Stops blank (raw ++ rest) := by
  obtain ⟨c, tail, hcons, hc⟩ := h.raw_cons
  rw [hcons]
  exact stops_cons.mpr hc

/-! ## Every text is divided by a rule -/

theorem exists_number {c : Char} {text : List Char} (hc : digit c = true) :
    ∃ raw rest result, c :: text = raw ++ rest ∧ Munch o raw rest result true := by
  have hsplit : (c :: text).takeWhile digit ++ (c :: text).dropWhile digit = c :: text :=
    List.takeWhile_append_dropWhile
  have hne : (c :: text).takeWhile digit ≠ [] := by simp [hc]
  have hds : ∀ x ∈ (c :: text).takeWhile digit, digit x = true :=
    fun x hx => List.mem_takeWhile_imp hx
  have hstop := stops_dropWhile digit (c :: text)
  generalize (c :: text).takeWhile digit = ds at hsplit hne hds
  generalize (c :: text).dropWhile digit = after at hsplit hstop
  by_cases hpoint : after.take 1 = ['.']
  · obtain ⟨rest, rfl⟩ : ∃ rest, after = '.' :: rest := by
      cases after with
      | nil => simp at hpoint
      | cons d rest => exact ⟨rest, by simpa using hpoint⟩
    have hfsplit : rest.takeWhile digit ++ rest.dropWhile digit = rest :=
      List.takeWhile_append_dropWhile
    have hfs : ∀ x ∈ rest.takeWhile digit, digit x = true :=
      fun x hx => List.mem_takeWhile_imp hx
    have hfstop := stops_dropWhile digit rest
    by_cases hfe : rest.takeWhile digit = []
    · rw [hfe, List.nil_append] at hfsplit
      rw [hfsplit] at hfstop
      refine ⟨ds ++ ['.'], rest, _, ?_, Munch.point hne hds hfstop⟩
      rw [← hsplit]
      simp
    · refine ⟨_, rest.dropWhile digit, _, ?_, Munch.float hne hds hfe hfs hfstop⟩
      rw [← hsplit, List.append_assoc, List.cons_append, hfsplit]
  · exact ⟨ds, after, _, hsplit.symm, Munch.int hne hds hstop hpoint⟩

theorem exists_string {q : Char} {text : List Char} (hq : quote q = true) :
    ∃ raw rest result looks, q :: text = raw ++ rest ∧ Munch o raw rest result looks := by
  have hsplit : text.takeWhile (· != q) ++ text.dropWhile (· != q) = text :=
    List.takeWhile_append_dropWhile
  have hb : q ∉ text.takeWhile (· != q) := by
    intro hmem
    have := List.mem_takeWhile_imp hmem
    simp at this
  have hstop := stops_dropWhile (· != q) text
  cases hafter : text.dropWhile (· != q) with
  | nil =>
      rw [hafter, List.append_nil] at hsplit
      refine ⟨q :: text.takeWhile (· != q), [], _, _, ?_, Munch.unclosed hq hb⟩
      rw [hsplit, List.append_nil]
  | cons d rest =>
      rw [hafter] at hstop hsplit
      have hd : d = q := by simpa using stops_cons.mp hstop
      rw [hd] at hsplit
      refine ⟨q :: (text.takeWhile (· != q) ++ [q]), rest, _, _, ?_, Munch.closed hq hb⟩
      rw [List.cons_append, List.append_assoc]
      exact congrArg (q :: ·) hsplit.symm

theorem exists_operator {a : Char} {text : List Char} (ha : punctuation a = true) :
    ∃ raw rest result looks, a :: text = raw ++ rest ∧ Munch o raw rest result looks := by
  cases hp : Vocabulary.pair? (a :: text.take 1) with
  | some kind =>
      cases text with
      | nil =>
          unfold Vocabulary.pair? at hp
          rw [if_neg (by simp)] at hp
          cases hp
      | cons b rest => exact ⟨[a, b], rest, _, _, rfl, Munch.pair ha hp⟩
  | none =>
      cases h1 : Vocabulary.operator? (String.ofList [a]) with
      | some kind => exact ⟨[a], text, _, _, rfl, Munch.mark ha hp h1⟩
      | none => exact ⟨[a], text, _, _, rfl, Munch.stray ha hp h1⟩

theorem exists_munch (o : Options) {c : Char} (text : List Char) (hc : blank c = false) :
    ∃ raw rest result looks, c :: text = raw ++ rest ∧ Munch o raw rest result looks := by
  by_cases hs : starts c = true
  · rcases starts_cases hs with hi | hd | hq | hp
    · refine ⟨c :: text.takeWhile ident, text.dropWhile ident, _, _, ?_,
        Munch.word hi (fun x hx => List.mem_takeWhile_imp hx) (stops_dropWhile ident text)⟩
      rw [List.cons_append, List.takeWhile_append_dropWhile]
    · obtain ⟨raw, rest, result, heq, h⟩ := exists_number (o := o) hd
      exact ⟨raw, rest, result, true, heq, h⟩
    · exact exists_string hq
    · exact exists_operator hp
  · refine ⟨c :: text.takeWhile (!blank ·), text.dropWhile (!blank ·), _, _, ?_,
      Munch.unknown (by simpa using hs) ?_ (stops_dropWhile _ text)⟩
    · rw [List.cons_append, List.takeWhile_append_dropWhile]
    · intro x hx
      rcases List.mem_cons.mp hx with rfl | hx
      · exact hc
      · simpa using List.mem_takeWhile_imp hx

/-! ## The verdict is the one of the rule -/

section Front

variable {c : Char} {ps : List Piece}

theorem front_of_digit (h : digit c = true) :
    Verdict.front o ([c] :: ps) = Verdict.number ([c] :: ps) := by
  simp [Verdict.front, Piece.isEnd, Piece.isDigit, Piece.single, h]

theorem front_of_identStart (h : identStart c = true) :
    Verdict.front o ([c] :: ps) = Verdict.word ([c] :: ps) := by
  simp [Verdict.front, Piece.isEnd, Piece.isDigit, Piece.isIdentStart, Piece.single, h,
    (identStart_only h).1]

theorem front_of_quote (h : quote c = true) :
    Verdict.front o ([c] :: ps) = (Verdict.body o [c] ps).after 1 := by
  obtain ⟨hd, hi, -, -⟩ := quote_only h
  simp [Verdict.front, Piece.isEnd, Piece.isDigit, Piece.isIdentStart, Piece.isQuote,
    Piece.single, h, hd, hi]

theorem front_of_punctuation (h : punctuation c = true) :
    Verdict.front o ([c] :: ps) = (Verdict.second [c] ps).after 1 := by
  obtain ⟨hd, hi, hq, -⟩ := punctuation_only h
  simp [Verdict.front, Piece.isEnd, Piece.isDigit, Piece.isIdentStart, Piece.isQuote,
    Piece.isPunctuation, Piece.single, h, hd, hi, hq]

theorem front_of_not_starts (h : starts c = false) :
    Verdict.front o ([c] :: ps) = Verdict.unknown ([c] :: ps) := by
  obtain ⟨hi, hd, hq, hp⟩ := not_starts h
  simp [Verdict.front, Piece.isEnd, Piece.isDigit, Piece.isIdentStart, Piece.isQuote,
    Piece.isPunctuation, Piece.single, hd, hi, hq, hp]

end Front

section Rules

variable {more : List Piece}

theorem front_number {ds after : List Char} (hne : ds ≠ []) (hds : ∀ c ∈ ds, digit c = true)
    (hstop : Stops digit after) (hmore : more.headD [] = []) :
    Verdict.front o (Piece.spell (ds ++ after) ++ more) =
      if after.take 1 = ['.'] then
        (Verdict.fraction ds (Piece.spell (after.drop 1) ++ more)).after (ds.length + 1)
      else { result := .ok (Token.ofChars .int ds), taken := ds.length } := by
  have hfront : Verdict.front o (Piece.spell (ds ++ after) ++ more) =
      Verdict.number (Piece.spell ds ++ (Piece.spell after ++ more)) := by
    rw [Piece.spell_append, List.append_assoc]
    cases ds with
    | nil => exact absurd rfl hne
    | cons d ds => exact front_of_digit (hds d List.mem_cons_self)
  have hrun : Piece.run Piece.isDigit (Piece.spell ds ++ (Piece.spell after ++ more)) =
      Piece.spell ds := Piece.run_spell (fun _ => rfl) hds hstop hmore
  rw [hfront]
  unfold Verdict.number
  simp only [hrun, Piece.flatten_spell, List.drop_left, Piece.headD_spell after hmore]
  by_cases hpoint : after.take 1 = ['.']
  · obtain ⟨rest, rfl⟩ : ∃ rest, after = '.' :: rest := by
      cases after with
      | nil => simp at hpoint
      | cons d rest => exact ⟨rest, by simpa using hpoint⟩
    rw [if_pos hpoint, if_pos hpoint, ← List.drop_drop, List.drop_left, Piece.length_spell]
    rfl
  · rw [if_neg hpoint, if_neg hpoint, Piece.length_spell]

theorem fraction_spell {whole fs rest : List Char} (hfs : ∀ c ∈ fs, digit c = true)
    (hstop : Stops digit rest) (hmore : more.headD [] = []) :
    Verdict.fraction whole (Piece.spell fs ++ (Piece.spell rest ++ more)) =
      if fs = [] then { result := .error (.expectedDigit (rest.take 1)), taken := 0 }
      else { result := .ok (Token.ofChars .float (whole ++ '.' :: fs)), taken := fs.length } := by
  have hrun : Piece.run Piece.isDigit (Piece.spell fs ++ (Piece.spell rest ++ more)) =
      Piece.spell fs := Piece.run_spell (fun _ => rfl) hfs hstop hmore
  unfold Verdict.fraction
  rw [hrun, Piece.flatten_spell, Piece.length_spell]
  cases fs with
  | cons d fs =>
      have hhead : (Piece.spell (d :: fs) ++ (Piece.spell rest ++ more)).headD [] = [d] := rfl
      have hd : Piece.isDigit [d] = true := hfs d List.mem_cons_self
      rw [hhead, if_pos hd, if_neg (List.cons_ne_nil d fs)]
  | nil =>
      have hn : Piece.isDigit (rest.take 1) = false := by
        cases rest with
        | nil => rfl
        | cons d rest => exact stops_cons.mp hstop
      rw [show Piece.spell [] ++ (Piece.spell rest ++ more) = Piece.spell rest ++ more from rfl]
      rw [Piece.headD_spell rest hmore, hn, if_pos rfl]
      rfl

theorem body_spell {q : Char} {body rest : List Char} (hb : q ∉ body)
    (hstop : Stops (· != q) rest) (hmore : more.headD [] = []) :
    Verdict.body o [q] (Piece.spell body ++ (Piece.spell rest ++ more)) =
      if rest = [] then
        { result :=
            if o.strictStrings then .error .unterminatedString
            else .ok (Token.ofChars .string body)
          taken := body.length }
      else
        { result := .ok (Token.ofChars .string body)
          taken := body.length + 1
          looks := false } := by
  have hrun : Piece.run (· != [q]) (Piece.spell body ++ (Piece.spell rest ++ more)) =
      Piece.spell body := by
    have hsame : ∀ c : Char, ([c] != [q]) = (c != q) := by
      intro c
      simp [bne]
    exact Piece.run_spell hsame (bne_of_not_mem hb) hstop hmore
  dsimp only [Verdict.body]
  rw [hrun, Piece.flatten_spell, List.drop_left, Piece.headD_spell rest hmore]
  cases rest with
  | nil =>
      rw [if_pos rfl, Piece.length_spell]
      rfl
  | cons d rest =>
      rw [if_neg (List.cons_ne_nil d rest), Piece.length_spell]
      rfl

theorem second_spell {a : Char} {rest : List Char} (hmore : more.headD [] = []) :
    Verdict.second [a] (Piece.spell rest ++ more) =
      match Vocabulary.pair? (a :: rest.take 1) with
      | some kind =>
          { result := .ok (Token.ofChars kind (a :: rest.take 1)), taken := 1, looks := false }
      | none =>
          match Vocabulary.operator? (String.ofList [a]) with
          | some kind => { result := .ok (Token.ofChars kind [a]), taken := 0 }
          | none => { result := .error (.unexpectedPunctuation [a]), taken := 0 } := by
  unfold Verdict.second
  rw [Piece.headD_spell rest hmore]
  rfl

/-- **The verdict is the one of the rule.** What comes after the text has no say in it. -/
theorem Munch.front (h : Munch o raw rest result looks) (hmore : more.headD [] = []) :
    Verdict.front o (Piece.spell (raw ++ rest) ++ more) =
      { result, taken := raw.length, looks } := by
  obtain ⟨c, tail, hraw, -⟩ := h.raw_cons
  -- the scanner chooses by the first character, which all rules have
  have hfirst : Piece.spell (raw ++ rest) ++ more =
      [c] :: (Piece.spell (tail ++ rest) ++ more) := by
    rw [hraw]
    rfl
  cases h with
  | @int ds rest hne hds hstop hpoint =>
      rw [front_number hne hds hstop hmore, if_neg hpoint]
  | @float ds fs rest hne hds hfe hfs hstop =>
      have hpoint : Stops digit ('.' :: (fs ++ rest)) := stops_cons.mpr (by decide)
      rw [List.append_assoc, List.cons_append, front_number hne hds hpoint hmore]
      rw [if_pos (show ('.' :: (fs ++ rest)).take 1 = ['.'] from rfl), List.drop_one,
        List.tail_cons, Piece.spell_append, List.append_assoc]
      rw [fraction_spell hfs hstop hmore, if_neg hfe]
      simp only [Verdict.after, List.length_append, List.length_cons]
      congr 1
      omega
  | @point ds rest hne hds hstop =>
      have hpoint : Stops digit ('.' :: rest) := stops_cons.mpr (by decide)
      have hno : ∀ c ∈ ([] : List Char), digit c = true := by
        intro c hc
        cases hc
      rw [List.append_assoc, List.singleton_append, front_number hne hds hpoint hmore]
      rw [if_pos (show ('.' :: rest).take 1 = ['.'] from rfl), List.drop_one, List.tail_cons]
      rw [show Piece.spell rest ++ more = Piece.spell [] ++ (Piece.spell rest ++ more) from rfl]
      rw [fraction_spell hno hstop hmore, if_pos rfl]
      simp [Verdict.after]
  | @word c' w rest hc hw hstop =>
      cases hraw
      rw [hfirst, front_of_identStart hc, ← hfirst, Piece.spell_append, List.append_assoc]
      unfold Verdict.word
      rw [Piece.run_spell (fun _ => rfl) (ident_run hc hw) hstop hmore, Piece.flatten_spell,
        Piece.length_spell]
      rfl
  | @closed q body rest hq hb =>
      cases hraw
      have hstop : Stops (· != c) (c :: rest) := stops_cons.mpr (by simp)
      rw [hfirst, front_of_quote hq, List.append_assoc, Piece.spell_append, List.append_assoc]
      rw [List.singleton_append, body_spell hb hstop hmore, if_neg (List.cons_ne_nil _ _)]
      simp only [Verdict.after, List.length_cons, List.length_append, List.length_nil]
      congr 1
      omega
  | @unclosed q body hq hb =>
      cases hraw
      rw [hfirst, front_of_quote hq, Piece.spell_append, List.append_assoc]
      rw [body_spell hb (stops_nil _) hmore, if_pos rfl]
      simp only [Verdict.after, List.length_cons]
      congr 1
      omega
  | @pair a b rest kind ha hp =>
      cases hraw
      rw [hfirst, front_of_punctuation ha, second_spell hmore]
      rw [show ([b] ++ rest).take 1 = [b] from rfl, hp]
      rfl
  | @mark a rest kind ha hp h1 =>
      cases hraw
      rw [hfirst, front_of_punctuation ha, List.nil_append, second_spell hmore, hp, h1]
      rfl
  | @stray a rest ha hp h1 =>
      cases hraw
      rw [hfirst, front_of_punctuation ha, List.nil_append, second_spell hmore, hp, h1]
      rfl
  | @unknown c' w rest hc hw hstop =>
      cases hraw
      rw [hfirst, front_of_not_starts hc, ← hfirst, Piece.spell_append, List.append_assoc]
      unfold Verdict.unknown
      rw [Piece.run_spell (fun _ => rfl) (not_run hw) hstop hmore, Piece.flatten_spell,
        Piece.length_spell]

end Rules

/-! ## The next token of a reader in front of a text -/

section Consume

variable {r : Reader} {w text : List Char} {stop : Outcome}

theorem verdict_munch (h : Munch o raw rest result looks) (hw : ∀ c ∈ w, blank c = true)
    (hr : r.Shows (w ++ (raw ++ rest)) stop) (hstop : stop.chars = []) :
    verdict o r.pieces = { result, taken := (w ++ raw).length, looks } := by
  obtain ⟨more, hp, hmore⟩ := hr.pieces hstop
  have hrun : Piece.run Piece.isBlank r.pieces = Piece.spell w := by
    rw [hp, Piece.spell_append, List.append_assoc]
    exact Piece.run_spell (fun _ => rfl) hw h.stops_blank hmore
  have hdrop : r.pieces.drop (Piece.spell w).length = Piece.spell (raw ++ rest) ++ more := by
    rw [hp, Piece.spell_append, List.append_assoc, List.drop_left]
  unfold verdict
  simp only [hrun, hdrop, h.front hmore]
  simp [Verdict.after, Piece.length_spell]

theorem verdict_blanks (hw : ∀ c ∈ w, blank c = true) (hr : r.Shows w stop)
    (hstop : stop.chars = []) :
    verdict o r.pieces = { result := .ok Token.endOfInput, taken := w.length } := by
  obtain ⟨more, hp, hmore⟩ := hr.pieces hstop
  have hrun : Piece.run Piece.isBlank r.pieces = Piece.spell w := by
    have hsame : ∀ c, Piece.isBlank [c] = blank c := fun _ => rfl
    rw [hp]
    exact Piece.run_spell hsame hw (stops_nil blank) hmore
  have hdrop : r.pieces.drop (Piece.spell w).length = more := by rw [hp, List.drop_left]
  have hfront : Verdict.front o more = { result := .ok Token.endOfInput, taken := 0 } := by
    unfold Verdict.front
    rw [hmore]
    rfl
  unfold verdict
  simp only [hrun, hdrop, hfront]
  simp [Verdict.after, Piece.length_spell]

/-- The reader as a rule leaves it. It holds back what it had to look at. -/
def leave (looks : Bool) (rest : List Char) (r : Reader) : Reader :=
  if looks then r.hold (rest.take 1) else r

/-- **The next token of a text.** After blanks it is the one that a rule says, where the
rule need not look at what follows, or something follows, or the input ends there. -/
theorem consume_munch (h : Munch o raw rest result looks) (hw : ∀ c ∈ w, blank c = true)
    (hr : r.Shows (w ++ (raw ++ rest)) stop) (hstop : stop.chars = [])
    (hgo : looks = false ∨ rest ≠ [] ∨ stop = .piece []) :
    consume o r = .ok (report result) (leave looks rest (r.drop (w ++ raw).length)) := by
  have hv := verdict_munch h hw hr hstop
  have hdrop : (r.drop (w ++ raw).length).Shows rest stop := by
    rw [← List.append_assoc] at hr
    exact hr.drop
  have ht : (verdict o r.pieces).token = report result := by rw [hv, Verdict.token]
  cases looks with
  | false =>
      have hc := consume_of_not_looks (o := o) (r := r) (by rw [hv])
      rw [ht, hv] at hc
      exact hc
  | true =>
      have hrest : rest ≠ [] ∨ stop = .piece [] := by simpa using hgo
      have hc := consume_of_piece (o := o) (r := r) (p := rest.take 1) (by rw [hv])
        (by rw [hv]; exact hdrop.next_take hrest)
      rw [ht, hv] at hc
      exact hc

/-- Where the rule has to look at what follows and the source fails there, the token is
lost. -/
theorem consume_munch_fault {f : Fault} (h : Munch o raw [] result true)
    (hw : ∀ c ∈ w, blank c = true) (hr : r.Shows (w ++ raw) stop)
    (hf : stop.fault? = some f) (hrep : f.isReported = true) :
    consume o r = .ok (Token.ofError f.message) (r.drop ((w ++ raw).length + 1)) := by
  have hstop := Outcome.chars_of_fault hf
  have hr' : r.Shows (w ++ (raw ++ [])) stop := by rwa [List.append_nil]
  have hv := verdict_munch h hw hr' hstop
  have hdrop : (r.drop (w ++ raw).length).Shows [] stop := by
    rw [← List.append_nil (w ++ raw)] at hr
    exact hr.drop
  have hc := consume_of_fault (o := o) (r := r) (by rw [hv])
    (by rw [hv, hdrop.next_nil]; exact hf)
  rw [hv, if_pos hrep] at hc
  exact hc

theorem consume_blanks (hw : ∀ c ∈ w, blank c = true) (hr : r.Shows w (.piece [])) :
    consume o r = .ok Token.endOfInput ((r.drop w.length).hold []) := by
  have hv := verdict_blanks (o := o) hw hr rfl
  have hdrop : (r.drop w.length).Shows [] (.piece []) := by
    rw [← List.append_nil w] at hr
    exact hr.drop
  have hc := consume_of_piece (o := o) (r := r) (p := []) (by rw [hv])
    (by rw [hv]; exact hdrop.next_nil)
  rw [hv] at hc
  exact hc

theorem consume_blanks_fault {f : Fault} (hw : ∀ c ∈ w, blank c = true)
    (hr : r.Shows w stop) (hf : stop.fault? = some f) (hrep : f.isReported = true) :
    consume o r = .ok (Token.ofError f.message) (r.drop (w.length + 1)) := by
  have hv := verdict_blanks (o := o) hw hr (Outcome.chars_of_fault hf)
  have hdrop : (r.drop w.length).Shows [] stop := by
    rw [← List.append_nil w] at hr
    exact hr.drop
  have hc := consume_of_fault (o := o) (r := r) (by rw [hv])
    (by rw [hv, hdrop.next_nil]; exact hf)
  rw [hv, if_pos hrep] at hc
  exact hc

/-- Every text is blanks only, or a rule divides it after its blanks. -/
theorem text_cases (o : Options) (text : List Char) :
    (∀ c ∈ text, blank c = true) ∨
      ∃ w raw rest result looks, text = w ++ (raw ++ rest) ∧ (∀ c ∈ w, blank c = true) ∧
        Munch o raw rest result looks := by
  have hsplit : text.takeWhile blank ++ text.dropWhile blank = text :=
    List.takeWhile_append_dropWhile
  have hw : ∀ c ∈ text.takeWhile blank, blank c = true := fun c hc => List.mem_takeWhile_imp hc
  have hstop := stops_dropWhile blank text
  cases hafter : text.dropWhile blank with
  | nil =>
      rw [hafter, List.append_nil] at hsplit
      rw [hsplit] at hw
      exact Or.inl hw
  | cons c after =>
      rw [hafter] at hsplit hstop
      obtain ⟨raw, rest, result, looks, heq, h⟩ := exists_munch o after (stops_cons.mp hstop)
      rw [heq] at hsplit
      exact Or.inr ⟨_, raw, rest, result, looks, hsplit.symm, hw, h⟩

/-- **Induction along the rules.** What holds of blanks, and holds in front of a text where
it holds of the text, holds of every text. -/
@[elab_as_elim]
theorem text_induction (o : Options) {motive : List Char → Prop}
    (blanks : ∀ w, (∀ c ∈ w, blank c = true) → motive w)
    (rule : ∀ w raw rest result looks, (∀ c ∈ w, blank c = true) →
      Munch o raw rest result looks → motive rest → motive (w ++ (raw ++ rest)))
    (text : List Char) : motive text := by
  induction hn : text.length using Nat.strong_induction_on generalizing text with
  | _ n ih =>
      rcases text_cases o text with hw | ⟨w, raw, rest, result, looks, rfl, hw, hm⟩
      · exact blanks text hw
      · have hpos : 0 < (w ++ raw).length := List.length_pos_iff.mpr hm.text_ne
        have hless : rest.length < n := by
          rw [← hn, ← List.append_assoc, List.length_append]
          omega
        apply rule w raw rest result looks hw hm
        exact ih rest.length hless rest rfl

end Consume

end Lexer

end FilterLex
