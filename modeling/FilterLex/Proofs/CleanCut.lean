import FilterLex.Proofs.FailingSource
import FilterLex.Proofs.Reporting

/-!
# Sources that fail and go on

A source may fail in the middle of its text and be read again. Every failed read is a clean
cut: the text in front of it delivers the tokens that it delivers alone, the failure is
delivered once, and the calls go on as they would in front of the text behind it. What the
lexer had collected of a token when the read failed is gone, and so is its lookahead.

- `Segment`, `interrupted`: texts with a failed read behind each, and a last text.
- `Yields`, `exists_yields`: the calls in front of a segment, whatever comes after it.
- `DeliversToEnd`: the calls up to the end of the input.
- `exists_parts`: the calls on the whole are those on the parts.
-/

namespace FilterLex

/-- A text, and the failed read behind it. -/
structure Segment where
  text : List Char
  failed : FailedRead
  deriving DecidableEq, Repr

namespace Segment

def outcomes (g : Segment) : List Outcome :=
  g.text.map (fun c => .piece [c]) ++ [g.failed.outcome]

def reader (g : Segment) : Reader := { feed := Feed.ofScript g.outcomes }

end Segment

def interrupted (segments : List Segment) (last : List Char) : Reader :=
  { feed := Feed.ofScript
      (segments.flatMap Segment.outcomes ++ last.map fun c => .piece [c]) }

namespace Lexer

open CharClass

/-- On the segment alone, the calls before the one that makes the failed read deliver `ts`. -/
structure Gives (o : Options) (g : Segment) (ts : List Token) : Prop where
  tokens : (askEach (List.replicate ts.length o) g.reader).1 = ts.map .ok
  before : (askEach (List.replicate ts.length o) g.reader).2.feed.reads ≤ g.text.length
  failing : (ask o (askEach (List.replicate ts.length o) g.reader).2).2.feed.reads =
    g.text.length + 1

/-- The calls deliver `ds`, none of which is the end of the input, and then the end. -/
structure DeliversToEnd (o : Options) (r : Reader) (ds : List Delivery) : Prop where
  calls : (askEach (List.replicate (ds.length + 1) o) r).1 = ds ++ [.ok Token.endOfInput]
  inside : ∀ t, .ok t ∈ ds → t.kind ≠ .eof

def cutDeliveries (part : Segment × List Token) : List Delivery :=
  part.2.map .ok ++ [part.1.failed.delivery]

variable {o : Options} {base r s : Reader} {text : List Char} {x : FailedRead}
  {ts : List Token} {ds us : List Delivery}

/-! ## A call that fails -/

theorem chars_outcome (x : FailedRead) : x.outcome.chars = [] := by
  cases x <;> rfl

/-- Where the lexer has to look behind what it takes and the read fails there, the call
delivers the failure and nothing else. -/
theorem ask_of_failed {result : Except LexicalError Token} {n : Nat}
    (hv : verdict o base.pieces = { result, taken := n })
    (hx : (base.drop n).Shows [] x.outcome) (hr : base.StandsAt r) :
    ask o r = (x.delivery, base.drop (n + 1)) := by
  obtain ⟨f, hf, hdelivery⟩ := x.delivery_of_fault
  rw [← hx.next_nil] at hf
  have hc := consume_of_fault (o := o) (r := base) (by rw [hv]) (by rw [hv]; exact hf)
  rw [hv, ← hr.consume o] at hc
  rw [← hdelivery]
  by_cases hrep : f.isReported = true
  · rw [if_pos hrep] at hc ⊢
    exact ask_of_ok hc
  · rw [if_neg hrep] at hc ⊢
    exact ask_of_error hc

theorem ask_blanks_failed {w : List Char} (hw : ∀ c ∈ w, blank c = true)
    (hb : base.Shows w x.outcome) (hr : base.StandsAt r) :
    ask o r = (x.delivery, base.drop (w.length + 1)) := by
  have hv := verdict_blanks (o := o) hw hb (chars_outcome x)
  rw [← List.append_nil w] at hb
  exact ask_of_failed hv hb.drop hr

theorem ask_munch_failed {w raw : List Char} {result : Except LexicalError Token}
    (hm : Munch o raw [] result true) (hw : ∀ c ∈ w, blank c = true)
    (hb : base.Shows (w ++ raw) x.outcome) (hr : base.StandsAt r) :
    ask o r = (x.delivery, base.drop ((w ++ raw).length + 1)) := by
  rw [← List.append_nil (w ++ raw)] at hb
  have hv := verdict_munch hm hw (by rwa [← List.append_assoc]) (chars_outcome x)
  exact ask_of_failed hv hb.drop hr

/-! ## The calls in front of a failed read -/

/-- From the reader `r`, which stands where `base` does, the calls deliver `ts` and have
read nothing behind `text`; the next one delivers the failed read and leaves nothing of it. -/
def Yields (o : Options) (base r : Reader) (text : List Char) (x : FailedRead)
    (ts : List Token) : Prop :=
  ∃ s, askEach (List.replicate ts.length o) r = (ts.map .ok, s) ∧
    s.feed.reads ≤ base.feed.reads + text.length ∧
    ask o s = (x.delivery, base.drop (text.length + 1))

theorem reads_drop_of_pending (n : Nat) (h : base.pending = none) :
    (base.drop n).feed.reads = base.feed.reads + n := by
  obtain ⟨feed, pending⟩ := base
  cases h
  cases n with
  | zero => rfl
  | succ n => rfl

/-- In front of a failed read, only a character of the text can be held back. -/
theorem reads_le_of_standsAt (hp : base.pending = none) (hb : base.Shows text x.outcome)
    (hr : base.StandsAt r) : r.feed.reads ≤ base.feed.reads + text.length := by
  rcases hr with rfl | ⟨p, hnext, rfl⟩
  · omega
  · have hhold : (base.hold p).feed.reads = base.feed.reads + 1 := reads_drop_of_pending 1 hp
    cases text with
    | nil =>
        have hx : x.outcome = .piece p := hb.next_nil.symm.trans hnext
        cases x <;> cases hx
    | cons c text =>
        rw [hhold, List.length_cons]
        omega

theorem Yields.of_failed (hp : base.pending = none) (hb : base.Shows text x.outcome)
    (hr : base.StandsAt r) (h : ask o r = (x.delivery, base.drop (text.length + 1))) :
    Yields o base r text x [] :=
  ⟨r, rfl, reads_le_of_standsAt hp hb hr, h⟩

theorem Yields.cons {taken rest : List Char} {t : Token} (hp : base.pending = none)
    (hask : ask o r = (.ok t, s)) (h : Yields o (base.drop taken.length) s rest x ts) :
    Yields o base r (taken ++ rest) x (t :: ts) := by
  obtain ⟨s', hcalls, hreads, hlast⟩ := h
  refine ⟨s', ?_, ?_, ?_⟩
  · rw [List.length_cons, List.replicate_succ, askEach_cons, hask, hcalls]
    rfl
  · rw [reads_drop_of_pending taken.length hp] at hreads
    rw [List.length_append]
    omega
  · rw [hlast, Reader.drop_drop, List.length_append, Nat.add_assoc]

/-- **The tokens in front of a failed read.** They are those of the text, whatever stands
behind the failure and whatever was read before. -/
theorem exists_yields (o : Options) (text : List Char) (x : FailedRead) :
    ∃ ts : List Token, (∀ t ∈ ts, t.kind ≠ .eof) ∧
      ∀ base r : Reader, base.pending = none → base.Shows text x.outcome → base.StandsAt r →
        Yields o base r text x ts := by
  induction text using text_induction o with
  | blanks w hw =>
      refine ⟨[], by simp, ?_⟩
      intro base r hp hb hr
      exact Yields.of_failed hp hb hr (ask_blanks_failed hw hb hr)
  | rule w raw rest result looks hw hm ih =>
      by_cases hgo : looks = false ∨ rest ≠ []
      · obtain ⟨ts, hinside, hyields⟩ := ih
        refine ⟨report result :: ts, ?_, ?_⟩
        · intro t ht
          rcases List.mem_cons.mp ht with rfl | ht
          · exact hm.kind_ne_eof
          · exact hinside t ht
        · intro base r hp hb hr
          have hgo' : looks = false ∨ rest ≠ [] ∨ x.outcome = .piece [] := hgo.imp_right Or.inl
          have hc := consume_munch hm hw hb (chars_outcome x) hgo'
          rw [← hr.consume o] at hc
          rw [← List.append_assoc] at hb ⊢
          have hpos : 0 < (w ++ raw).length := List.length_pos_iff.mpr hm.text_ne
          exact Yields.cons hp (ask_of_ok hc)
            (hyields _ _ (Reader.drop_pending base hpos) hb.drop
              (leave_standsAt_of_shows hb.drop hgo'))
      -- the token ends where the text does, and the lexer looks at what follows
      · obtain ⟨rfl, rfl⟩ : looks = true ∧ rest = [] := by simpa using hgo
        refine ⟨[], by simp, ?_⟩
        intro base r hp hb hr
        rw [List.append_nil] at hb ⊢
        exact Yields.of_failed hp hb hr (ask_munch_failed hm hw hb hr)

/-- The segment alone gives what it yields anywhere. -/
theorem Yields.gives {g : Segment} (h : Yields o g.reader g.reader g.text g.failed ts) :
    Gives o g ts := by
  obtain ⟨s, hcalls, hreads, hlast⟩ := h
  constructor
  case tokens => rw [hcalls]
  case before =>
    rw [hcalls]
    rwa [show g.reader.feed.reads = 0 from rfl, Nat.zero_add] at hreads
  case failing =>
    rw [hcalls, hlast]
    exact (reads_drop_of_pending _ rfl).trans (Nat.zero_add _)

/-! ## The calls up to the end of the input -/

theorem DeliversToEnd.nil (h : ask o r = (.ok Token.endOfInput, s)) : DeliversToEnd o r [] := by
  constructor
  case calls =>
    show (askEach [o] r).1 = [.ok Token.endOfInput]
    rw [askEach_cons, h]
    rfl
  case inside => simp

theorem DeliversToEnd.append (hcalls : askEach (List.replicate ds.length o) r = (ds, s))
    (hinside : ∀ t, .ok t ∈ ds → t.kind ≠ .eof) (h : DeliversToEnd o s us) :
    DeliversToEnd o r (ds ++ us) := by
  constructor
  case calls =>
    rw [List.length_append, Nat.add_assoc, ← List.replicate_append_replicate, askEach_append,
      hcalls, List.append_assoc]
    exact congrArg (ds ++ ·) h.calls
  case inside =>
    intro t ht
    rcases List.mem_append.mp ht with ht | ht
    · exact hinside t ht
    · exact h.inside t ht

theorem DeliversToEnd.cons {d : Delivery} (hask : ask o r = (d, s))
    (hd : ∀ t, d = .ok t → t.kind ≠ .eof) (h : DeliversToEnd o s us) :
    DeliversToEnd o r (d :: us) := by
  have hcalls : askEach (List.replicate [d].length o) r = ([d], s) := by
    show askEach [o] r = ([d], s)
    rw [askEach_cons, hask]
    rfl
  refine DeliversToEnd.append hcalls ?_ h
  intro t ht
  exact hd t (List.mem_singleton.mp ht).symm

/-- What a last text delivers, whatever was read before. -/
theorem exists_deliversToEnd (o : Options) (text : List Char) :
    ∃ ts : List Token, ∀ base r : Reader, base.Delivers text → base.StandsAt r →
      DeliversToEnd o r (ts.map .ok) := by
  induction text using text_induction o with
  | blanks w hw =>
      exact ⟨[], fun base r hb hr => DeliversToEnd.nil (ask_of_ok (consume_end hw hb hr))⟩
  | rule w raw rest result looks hw hm ih =>
      obtain ⟨ts, hts⟩ := ih
      refine ⟨report result :: ts, ?_⟩
      intro base r hb hr
      have hask := ask_of_ok (consume_rule hm hw hb hr)
      rw [← List.append_assoc] at hb
      refine DeliversToEnd.cons hask ?_ (hts _ _ hb.drop (leave_standsAt looks hb.drop))
      rintro t ⟨⟩
      exact hm.kind_ne_eof

/-! ## Segment after segment -/

theorem delivery_ne_eof (x : FailedRead) : ∀ t, x.delivery = .ok t → t.kind ≠ .eof := by
  intro t ht
  cases x with
  | foreign u =>
      cases ht
      rintro ⟨⟩
  | fault f =>
      cases hkind : f.kind.isReported with
      | true =>
          rw [FailedRead.delivery_reported hkind] at ht
          cases ht
          rintro ⟨⟩
      | false =>
          rw [FailedRead.delivery_escaping hkind] at ht
          cases ht

theorem DeliversToEnd.segment (hts : ∀ t ∈ ts, t.kind ≠ .eof)
    (hyields : Yields o base r text x ts)
    (h : DeliversToEnd o (base.drop (text.length + 1)) us) :
    DeliversToEnd o r ((ts.map .ok ++ [x.delivery]) ++ us) := by
  obtain ⟨s, hcalls, -, hlast⟩ := hyields
  rw [List.append_assoc]
  refine DeliversToEnd.append ?_ ?_ (DeliversToEnd.cons hlast (delivery_ne_eof x) h)
  · rwa [List.length_map]
  · intro t ht
    obtain ⟨u, hu, heq⟩ := List.mem_map.mp ht
    cases heq
    exact hts _ hu

theorem shows_segment {g : Segment} {later : List Outcome}
    (hb : base.upcoming = g.outcomes ++ later) :
    base.Shows g.text g.failed.outcome ∧
      (base.drop (g.text.length + 1)).upcoming = later := by
  constructor
  · refine ⟨g.failed.outcome :: later, ?_, rfl⟩
    rw [hb]
    unfold Segment.outcomes
    rw [List.append_assoc]
    rfl
  · have hlen : g.text.length + 1 = g.outcomes.length := by
      unfold Segment.outcomes
      rw [List.length_append, List.length_map]
      rfl
    rw [Reader.upcoming_drop, hb, hlen, List.drop_left]

/-- From any reader that has the segments and the last text ahead, each segment adds what it
gives alone. -/
theorem exists_parts {last : List Char}
    (hlast : ∀ base : Reader, base.Delivers last → DeliversToEnd o base (ts.map .ok))
    (segments : List Segment) :
    ∃ parts : List (Segment × List Token), parts.map Prod.fst = segments ∧
      (∀ p ∈ parts, Gives o p.1 p.2) ∧ ∀ base : Reader, base.pending = none →
        base.feed.tail = .ended →
        base.upcoming = segments.flatMap Segment.outcomes ++ last.map (fun c => .piece [c]) →
        DeliversToEnd o base (parts.flatMap cutDeliveries ++ ts.map .ok) := by
  induction segments with
  | nil =>
      refine ⟨[], rfl, by simp, ?_⟩
      intro base _ htail hb
      exact hlast base ⟨hb, htail⟩
  | cons g segments ih =>
      obtain ⟨parts, hparts, hgives, hrest⟩ := ih
      obtain ⟨us, hinside, hyields⟩ := exists_yields o g.text g.failed
      refine ⟨(g, us) :: parts, by rw [List.map_cons, hparts], ?_, ?_⟩
      · intro p hmem
        rcases List.mem_cons.mp hmem with rfl | hmem
        · have halone : g.reader.upcoming = g.outcomes ++ [] := (List.append_nil _).symm
          exact (hyields _ _ rfl (shows_segment halone).1 (Or.inl rfl)).gives
        · exact hgives p hmem
      · intro base hp htail hb
        rw [List.flatMap_cons, List.append_assoc] at hb
        obtain ⟨hshows, hdrop⟩ := shows_segment hb
        have hgo := hrest (base.drop (g.text.length + 1))
          (Reader.drop_pending base (Nat.succ_pos _)) (by rw [Reader.tail_drop, htail]) hdrop
        rw [List.flatMap_cons, List.append_assoc]
        exact DeliversToEnd.segment hinside (hyields _ _ hp hshows (Or.inl rfl)) hgo

/-- **Each failed read is a clean cut.** On a source that is interrupted, the calls up to
the end of the input deliver, segment after segment, the tokens that the segment gives
alone and then its failure; behind the last failure they deliver what the last text does. -/
theorem ask_interrupted (o : Options) (segments : List Segment) (last : List Char) :
    ∃ parts : List (Segment × List Token), parts.map Prod.fst = segments ∧
      (∀ p ∈ parts, Gives o p.1 p.2) ∧
      ∃ ts : List Token, DeliversToEnd o { feed := Feed.ofChars last } (ts.map .ok) ∧
        DeliversToEnd o (interrupted segments last)
          (parts.flatMap cutDeliveries ++ ts.map .ok) := by
  obtain ⟨ts, hts⟩ := exists_deliversToEnd o last
  have hlast : ∀ base : Reader, base.Delivers last → DeliversToEnd o base (ts.map .ok) :=
    fun base hb => hts base base hb (Or.inl rfl)
  obtain ⟨parts, hparts, hgives, hall⟩ := exists_parts hlast segments
  exact ⟨parts, hparts, hgives, ts, hlast _ (Reader.delivers_ofChars last),
    hall _ rfl rfl rfl⟩

/-- A number is cut in two by a broken device: its first digit is gone, its second is a
number by itself. -/
example :
    (askEach [{}, {}, {}]
      (interrupted [⟨['1'], .fault ⟨.device "OSError", "device failed"⟩⟩] ['2'])).1 =
      [.ok (Token.ofError "device failed"), .ok ⟨.int, "2"⟩, .ok Token.endOfInput] := by
  decide +kernel

end Lexer

end FilterLex
