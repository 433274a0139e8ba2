import FilterLex.Lexer.Scan
import FilterLex.Proofs.Lookahead

/-!
# What the lexer makes of the pieces ahead

A second form of the scanner, as a function of the pieces ahead. `verdict` says which
token or lexical error is in front, how many pieces it takes, and whether the piece
after these has to be looked at; it reads nothing. `scan_follows` proves the two forms
equal on every reader: scanning is to drop what the verdict takes, to look at the next piece
where the verdict asks for it, and to deliver.

Outcomes that are not text stand here as the empty piece, like the end of the input.
This loses nothing: neither is ever taken, and a verdict that stops at one of them looks
at it, which is where the scanner fails.
-/

namespace FilterLex

namespace Piece

def run (accept : Piece → Bool) (ps : List Piece) : List Piece :=
  ps.takeWhile fun p => !p.isEnd && accept p

end Piece

namespace Reader

/-- What is ahead of a reader, as pieces. -/
def pieces (r : Reader) : List Piece := r.upcoming.map Outcome.chars

theorem pieces_drop (n : Nat) (r : Reader) : (r.drop n).pieces = r.pieces.drop n := by
  unfold pieces
  rw [upcoming_drop, List.map_drop]

theorem pieces_headD (r : Reader) : r.pieces.headD [] = r.next.chars := by
  unfold pieces next
  cases r.upcoming with
  | nil => exact (Tail.chars_outcome _).symm
  | cons o us => rfl

theorem run_pieces (accept : Piece → Bool) (r : Reader) :
    Piece.run accept r.pieces =
      (r.upcoming.takeWhile (·.accepted accept)).map Outcome.chars := by
  have hsame : (fun p : Piece => !p.isEnd && accept p) ∘ Outcome.chars =
      (·.accepted accept) := by
    funext o
    cases o <;> rfl
  unfold Piece.run pieces
  rw [List.takeWhile_map, hsame]

theorem runLength_eq (accept : Piece → Bool) (r : Reader) :
    r.runLength accept = (Piece.run accept r.pieces).length := by
  rw [run_pieces, List.length_map]
  rfl

theorem runText_eq (accept : Piece → Bool) (r : Reader) :
    r.runText accept = (Piece.run accept r.pieces).flatten := by
  rw [run_pieces, ← List.flatMap_def]
  rfl

end Reader

namespace Lexer

open Reader

/-! ## Verdicts -/

/-- What is in front: a token or a lexical error, the number of pieces it takes, and
whether the piece after these has to be looked at. -/
structure Verdict where
  result : Except LexicalError Token
  taken : Nat
  looks : Bool := true

namespace Verdict

/-- The same verdict after `n` pieces more. -/
def after (n : Nat) (v : Verdict) : Verdict := { v with taken := n + v.taken }

def deliver (v : Verdict) : ReadM Token :=
  match v.result with
  | .ok t => pure t
  | .error e => throw (.lexical e)

/-- Looks at the next piece, where that is needed, and delivers. -/
def settle (v : Verdict) : ReadM Token :=
  if v.looks then peek >>= fun _ => v.deliver else v.deliver

variable {v : Verdict} {r : Reader}

theorem settle_of_piece {p : Piece} (hl : v.looks = true) (h : r.next = .piece p) :
    v.settle r = v.deliver (r.hold p) := by
  unfold settle
  rw [if_pos hl, bind_of_ok (peek_of_piece h)]

theorem settle_of_fault {f : Fault} (hl : v.looks = true) (h : r.next.fault? = some f) :
    v.settle r = .error (.reading f) (r.drop 1) := by
  unfold settle
  rw [if_pos hl, bind_of_error (peek_of_fault h)]

theorem settle_of_not_looks (hl : v.looks = false) : v.settle r = v.deliver r := by
  unfold settle
  rw [hl]
  rfl

theorem settle_after (n : Nat) (v : Verdict) : (v.after n).settle = v.settle := rfl

theorem taken_after (n : Nat) (v : Verdict) : (v.after n).taken = n + v.taken := rfl

end Verdict

namespace Verdict

def fraction (whole : List Char) (ps : List Piece) : Verdict :=
  if Piece.isDigit (ps.headD []) then
    { result := .ok (Token.ofChars .float
        (whole ++ '.' :: (Piece.run Piece.isDigit ps).flatten))
      taken := (Piece.run Piece.isDigit ps).length }
  else
    { result := .error (.expectedDigit (ps.headD [])), taken := 0 }

def number (ps : List Piece) : Verdict :=
  let whole := Piece.run Piece.isDigit ps
  if (ps.drop whole.length).headD [] = ['.'] then
    (fraction whole.flatten (ps.drop (whole.length + 1))).after (whole.length + 1)
  else
    { result := .ok (Token.ofChars .int whole.flatten), taken := whole.length }

def word (ps : List Piece) : Verdict :=
  let text := String.ofList (Piece.run Piece.isIdent ps).flatten
  { result := .ok ⟨(Vocabulary.keyword? text).getD .ident, text⟩
    taken := (Piece.run Piece.isIdent ps).length }

def body (o : Options) (quote : Piece) (ps : List Piece) : Verdict :=
  let text := Piece.run (· != quote) ps
  if Piece.isEnd ((ps.drop text.length).headD []) then
    { result :=
        if o.strictStrings then .error .unterminatedString
        else .ok (Token.ofChars .string text.flatten)
      taken := text.length }
  else
    { result := .ok (Token.ofChars .string text.flatten)
      taken := text.length + 1
      looks := false }

def second (mark : Piece) (ps : List Piece) : Verdict :=
  match Vocabulary.pair? (mark ++ ps.headD []) with
  | some kind =>
      { result := .ok (Token.ofChars kind (mark ++ ps.headD [])), taken := 1, looks := false }
  | none =>
      match Vocabulary.operator? (String.ofList mark) with
      | some kind => { result := .ok (Token.ofChars kind mark), taken := 0 }
      | none => { result := .error (.unexpectedPunctuation mark), taken := 0 }

def unknown (ps : List Piece) : Verdict :=
  { result := .ok (Token.ofChars .unknown (Piece.run Piece.isNotBlank ps).flatten)
    taken := (Piece.run Piece.isNotBlank ps).length }

/-- The verdict on pieces that no blank is in front of. -/
def front (o : Options) (ps : List Piece) : Verdict :=
  let first := ps.headD []
  if first.isEnd then { result := .ok Token.endOfInput, taken := 0 }
  else if first.isDigit then number ps
  else if first.isIdentStart then word ps
  else if first.isQuote then (body o first (ps.drop 1)).after 1
  else if first.isPunctuation then (second first (ps.drop 1)).after 1
  else unknown ps

end Verdict

/-- The verdict on the pieces ahead. The blanks in front are taken, too. -/
def verdict (o : Options) (ps : List Piece) : Verdict :=
  let blanks := (Piece.run Piece.isBlank ps).length
  (Verdict.front o (ps.drop blanks)).after blanks

/-! ## The scanner follows its verdict -/

/-- On this reader, the action does what the verdict says. -/
def Follows (m : ReadM Token) (v : Verdict) (r : Reader) : Prop :=
  m r = v.settle (r.drop v.taken)

theorem follows_after {m m' : ReadM Token} {v : Verdict} {n : Nat} {r : Reader}
    (hstep : m r = m' (r.drop n)) (h : Follows m' v (r.drop n)) :
    Follows m (v.after n) r := by
  unfold Follows at h ⊢
  rw [hstep, h, drop_drop, Verdict.settle_after, Verdict.taken_after]

theorem headD_run (accept : Piece → Bool) (r : Reader) :
    (r.pieces.drop (Piece.run accept r.pieces).length).headD [] =
      (r.drop (r.runLength accept)).next.chars := by
  rw [← runLength_eq, ← pieces_drop, pieces_headD]

/-- An action that only takes a run and names it. -/
theorem follows_run {accept : Piece → Bool} (name : List Char → Token) (r : Reader) :
    Follows (takeRun accept >>= fun cs => pure (name cs))
      { result := .ok (name (Piece.run accept r.pieces).flatten)
        taken := (Piece.run accept r.pieces).length } r := by
  unfold Follows
  rw [← runLength_eq, ← runText_eq]
  rcases (r.drop (r.runLength accept)).next.piece_or_fault with ⟨p, hp⟩ | ⟨f, hf⟩
  · rw [bind_of_ok (takeRun_of_piece hp), Verdict.settle_of_piece rfl hp]
    rfl
  · rw [bind_of_error (takeRun_of_fault hf), Verdict.settle_of_fault rfl hf, drop_drop]

theorem scanIdent_follows (r : Reader) : Follows scanIdent (Verdict.word r.pieces) r :=
  follows_run (fun cs => ⟨(Vocabulary.keyword? (String.ofList cs)).getD .ident,
    String.ofList cs⟩) r

theorem scanUnknown_follows (r : Reader) : Follows scanUnknown (Verdict.unknown r.pieces) r :=
  follows_run (Token.ofChars .unknown) r

def scanFraction (whole : List Char) : ReadM Token :=
  peek >>= fun next =>
    if next.isDigit then
      takeRun Piece.isDigit >>= fun digits =>
        pure (Token.ofChars .float (whole ++ '.' :: digits))
    else throw (.lexical (.expectedDigit next))

theorem scanFraction_follows (whole : List Char) (r : Reader) :
    Follows (scanFraction whole) (Verdict.fraction whole r.pieces) r := by
  unfold Follows scanFraction Verdict.fraction
  rw [pieces_headD]
  rcases r.next.piece_or_fault with ⟨p, hp⟩ | ⟨f, hf⟩
  · rw [bind_of_ok (peek_of_piece hp), hp]
    by_cases hd : p.isDigit = true
    · rw [if_pos hd, if_pos (show Piece.isDigit (Outcome.piece p).chars = true from hd)]
      rw [takeRun_bind_hold hp]
      exact follows_run (fun digits => Token.ofChars .float (whole ++ '.' :: digits)) r
    · rw [if_neg hd, if_neg (show ¬ Piece.isDigit (Outcome.piece p).chars = true from hd)]
      rw [drop_zero, Verdict.settle_of_piece rfl hp]
      rfl
  · rw [bind_of_error (peek_of_fault hf), Outcome.chars_of_fault hf, if_neg (by decide)]
    rw [drop_zero, Verdict.settle_of_fault rfl hf]

theorem scanNumber_follows (r : Reader) : Follows scanNumber (Verdict.number r.pieces) r := by
  have hstep : scanNumber r = (takeRun Piece.isDigit >>= fun whole => peek >>= fun p =>
      if p = ['.'] then take >>= fun _ => scanFraction whole
      else pure (Token.ofChars .int whole) : ReadM Token) r := rfl
  unfold Follows Verdict.number
  rw [hstep]
  simp only [headD_run]
  rw [← runText_eq, ← runLength_eq]
  rcases (r.drop (r.runLength Piece.isDigit)).next.piece_or_fault with ⟨p, hp⟩ | ⟨f, hf⟩
  · rw [bind_of_ok (takeRun_of_piece hp), bind_of_ok (peek_hold p _), hp]
    by_cases hpoint : p = ['.']
    · rw [if_pos hpoint, if_pos (show (Outcome.piece p).chars = ['.'] from hpoint)]
      rw [bind_of_ok (take_hold p _), drop_drop, scanFraction_follows, pieces_drop, drop_drop]
      rfl
    · rw [if_neg hpoint, if_neg (show ¬ (Outcome.piece p).chars = ['.'] from hpoint)]
      rw [Verdict.settle_of_piece rfl hp]
      rfl
  · rw [bind_of_error (takeRun_of_fault hf), Outcome.chars_of_fault hf, if_neg (by simp)]
    rw [Verdict.settle_of_fault rfl hf, drop_drop]

def scanBody (o : Options) (quote : Piece) : ReadM Token :=
  takeRun (· != quote) >>= fun text => peek >>= fun p =>
    if p.isEnd then
      if o.strictStrings then throw (.lexical .unterminatedString)
      else pure (Token.ofChars .string text)
    else take >>= fun _ => pure (Token.ofChars .string text)

theorem scanBody_follows (o : Options) (quote : Piece) (r : Reader) :
    Follows (scanBody o quote) (Verdict.body o quote r.pieces) r := by
  unfold Follows scanBody Verdict.body
  simp only [headD_run]
  rw [← runText_eq, ← runLength_eq]
  rcases (r.drop (r.runLength (· != quote))).next.piece_or_fault with ⟨p, hp⟩ | ⟨f, hf⟩
  · rw [bind_of_ok (takeRun_of_piece hp), bind_of_ok (peek_hold p _), hp]
    by_cases hend : p.isEnd = true
    · rw [if_pos hend, if_pos (show Piece.isEnd (Outcome.piece p).chars = true from hend)]
      rw [Verdict.settle_of_piece rfl hp]
      cases hs : o.strictStrings <;> rfl
    · rw [if_neg hend, if_neg (show ¬ Piece.isEnd (Outcome.piece p).chars = true from hend)]
      rw [bind_of_ok (take_hold p _), Verdict.settle_of_not_looks rfl, drop_drop]
      rfl
  · rw [bind_of_error (takeRun_of_fault hf), Outcome.chars_of_fault hf]
    rw [if_pos (show Piece.isEnd [] = true from rfl), Verdict.settle_of_fault rfl hf, drop_drop]

theorem scanString_follows (o : Options) {r : Reader} {quote : Piece}
    (h : r.next = .piece quote) :
    Follows (scanString o quote) ((Verdict.body o quote (r.pieces.drop 1)).after 1) r := by
  rw [← pieces_drop]
  refine follows_after ?_ (scanBody_follows o quote (r.drop 1))
  show (take >>= fun _ => scanBody o quote) r = _
  rw [bind_of_ok (take_of_piece h)]

def scanSecond (mark : Piece) : ReadM Token :=
  peek >>= fun following =>
    match Vocabulary.pair? (mark ++ following) with
    | some kind => take >>= fun _ => pure (Token.ofChars kind (mark ++ following))
    | none =>
        match Vocabulary.operator? (String.ofList mark) with
        | some kind => pure (Token.ofChars kind mark)
        | none => throw (.lexical (.unexpectedPunctuation mark))

/-- The first mark has to be a character: then no operator consists of it and of what is
not text. -/
theorem scanSecond_follows {mark : Piece} (hmark : mark.length = 1) (r : Reader) :
    Follows (scanSecond mark) (Verdict.second mark r.pieces) r := by
  unfold Follows scanSecond Verdict.second
  rw [pieces_headD]
  rcases r.next.piece_or_fault with ⟨p, hp⟩ | ⟨f, hf⟩
  · rw [bind_of_ok (peek_of_piece hp), hp, show (Outcome.piece p).chars = p from rfl]
    cases hpair : Vocabulary.pair? (mark ++ p) with
    | some kind =>
        simp only []
        rw [bind_of_ok (take_hold p r), Verdict.settle_of_not_looks rfl]
        rfl
    | none =>
        cases hone : Vocabulary.operator? (String.ofList mark) with
        | some kind =>
            simp only []
            rw [drop_zero, Verdict.settle_of_piece rfl hp]
            rfl
        | none =>
            simp only []
            rw [drop_zero, Verdict.settle_of_piece rfl hp]
            rfl
  · have hpair : Vocabulary.pair? (mark ++ []) = none := by
      unfold Vocabulary.pair?
      rw [if_neg (by simp [hmark])]
    rw [bind_of_error (peek_of_fault hf), Outcome.chars_of_fault hf, hpair]
    cases hone : Vocabulary.operator? (String.ofList mark) with
    | some kind => rw [drop_zero, Verdict.settle_of_fault rfl hf]
    | none => rw [drop_zero, Verdict.settle_of_fault rfl hf]

theorem scanPunctuation_follows {r : Reader} {mark : Piece} (h : r.next = .piece mark)
    (hmark : mark.length = 1) :
    Follows (scanPunctuation mark) ((Verdict.second mark (r.pieces.drop 1)).after 1) r := by
  rw [← pieces_drop]
  refine follows_after ?_ (scanSecond_follows hmark (r.drop 1))
  show (take >>= fun _ => scanSecond mark) r = _
  rw [bind_of_ok (take_of_piece h)]

theorem single_length {test : Char → Bool} {p : Piece} (h : Piece.single test p = true) :
    p.length = 1 := by
  unfold Piece.single at h
  split at h
  · rfl
  · cases h

/-- The piece that decides which action follows is held back. Each action starts with a
run or takes that piece, so this makes no difference. -/
theorem scanFrom_follows (o : Options) {r : Reader} {p : Piece} (h : r.next = .piece p) :
    scanFrom o p (r.hold p) =
      (Verdict.front o r.pieces).settle (r.drop (Verdict.front o r.pieces).taken) := by
  unfold scanFrom Verdict.front
  rw [pieces_headD, h, show (Outcome.piece p).chars = p from rfl]
  simp only []
  by_cases hend : p.isEnd = true
  · rw [if_pos hend, if_pos hend, drop_zero, Verdict.settle_of_piece rfl h]
    rfl
  rw [if_neg hend, if_neg hend]
  by_cases hdigit : p.isDigit = true
  · rw [if_pos hdigit, if_pos hdigit]
    exact (takeRun_bind_hold h).trans (scanNumber_follows r)
  rw [if_neg hdigit, if_neg hdigit]
  by_cases hident : p.isIdentStart = true
  · rw [if_pos hident, if_pos hident]
    exact (takeRun_bind_hold h).trans (scanIdent_follows r)
  rw [if_neg hident, if_neg hident]
  by_cases hquote : p.isQuote = true
  · rw [if_pos hquote, if_pos hquote]
    exact (take_bind_hold h).trans (scanString_follows o h)
  rw [if_neg hquote, if_neg hquote]
  by_cases hmark : p.isPunctuation = true
  · rw [if_pos hmark, if_pos hmark]
    exact (take_bind_hold h).trans (scanPunctuation_follows h (single_length hmark))
  rw [if_neg hmark, if_neg hmark]
  exact (takeRun_bind_hold h).trans (scanUnknown_follows r)

/-- **The two forms of the scanner agree**, on every reader. -/
theorem scan_follows (o : Options) (r : Reader) : Follows (scan o) (verdict o r.pieces) r := by
  unfold verdict
  simp only []
  rw [← runLength_eq, ← pieces_drop]
  generalize hs : r.drop (r.runLength Piece.isBlank) = s
  have hstep : scan o r =
      (peek >>= fun p => scanFrom o p : ReadM Token) (r.drop (r.runLength Piece.isBlank)) := by
    show (takeRun Piece.isBlank >>= fun _ => peek >>= fun p => scanFrom o p) r = _
    rcases (r.drop (r.runLength Piece.isBlank)).next.piece_or_fault with ⟨p, hp⟩ | ⟨f, hf⟩
    · rw [bind_of_ok (takeRun_of_piece hp), bind_of_ok (peek_hold p _)]
      rw [bind_of_ok (peek_of_piece hp)]
    · rw [bind_of_error (takeRun_of_fault hf), bind_of_error (peek_of_fault hf), drop_drop]
  refine follows_after hstep ?_
  rw [hs]
  unfold Follows
  rcases s.next.piece_or_fault with ⟨p, hp⟩ | ⟨f, hf⟩
  · rw [bind_of_ok (peek_of_piece hp), scanFrom_follows o hp]
  · have hfront : Verdict.front o s.pieces = { result := .ok Token.endOfInput, taken := 0 } := by
      unfold Verdict.front
      rw [pieces_headD, Outcome.chars_of_fault hf]
      rfl
    rw [bind_of_error (peek_of_fault hf), hfront, drop_zero, Verdict.settle_of_fault rfl hf]

/-! ## Consuming -/

/-- The token that was found, or the error token that reports the lexical error. -/
def report : Except LexicalError Token → Token
  | .ok t => t
  | .error e => Token.ofError e.message

def Verdict.token (v : Verdict) : Token := report v.result

theorem consume_deliver {o : Options} {r s : Reader} {v : Verdict}
    (h : scan o r = v.deliver s) : consume o r = .ok v.token s := by
  unfold consume
  rw [h]
  unfold Verdict.deliver Verdict.token report
  cases v.result with
  | ok t => rfl
  | error e => rfl

variable {o : Options} {r : Reader}

theorem consume_of_not_looks (hl : (verdict o r.pieces).looks = false) :
    consume o r =
      .ok (verdict o r.pieces).token (r.drop (verdict o r.pieces).taken) := by
  apply consume_deliver
  rw [scan_follows, Verdict.settle_of_not_looks hl]

theorem consume_of_piece {p : Piece} (hl : (verdict o r.pieces).looks = true)
    (hp : (r.drop (verdict o r.pieces).taken).next = .piece p) :
    consume o r =
      .ok (verdict o r.pieces).token ((r.drop (verdict o r.pieces).taken).hold p) := by
  apply consume_deliver
  rw [scan_follows, Verdict.settle_of_piece hl hp]

theorem consume_of_fault {f : Fault} (hl : (verdict o r.pieces).looks = true)
    (hf : (r.drop (verdict o r.pieces).taken).next.fault? = some f) :
    consume o r =
      if f.isReported then
        .ok (Token.ofError f.message) (r.drop ((verdict o r.pieces).taken + 1))
      else .error f (r.drop ((verdict o r.pieces).taken + 1)) := by
  unfold consume
  rw [scan_follows, Verdict.settle_of_fault hl hf, drop_drop]
  unfold Failure.toToken?
  simp only []
  by_cases hrep : f.isReported = true
  · rw [if_pos hrep, if_pos hrep]
  · rw [if_neg hrep, if_neg hrep]

/-- A piece held back makes no difference to the next token. -/
theorem consume_hold (o : Options) {p : Piece} (h : r.next = .piece p) :
    consume o (r.hold p) = consume o r := by
  unfold consume
  rw [show scan o (r.hold p) = scan o r from takeRun_bind_hold h]

end Lexer

end FilterLex
