import FilterLex.Command.Answer
import FilterLex.Proofs.Quotation

/-!
# Printed tokens are read back

A printed token is a name, a tab and a quoted text, and takes one line. The names are letters
and quoted text is printable, so the line feeds and tabs that are printed are those between
the tokens and their parts, and the output can be taken apart at them.

- `Inline`, `TwoFields`: text that stays on its line, and lines with one tab.
- `readTokens?`: the tokens of printed text.
- `toList_stdout`, `readTokens?_stdout`: what is printed, and that it is read back.
- `render_injective`: the one-line form of a token is that of no other.
-/

namespace FilterLex

/-! ## Names -/

namespace Kind

def ofDisplayName? (name : String) : Option Kind := all.find? (·.displayName == name)

@[simp] theorem ofDisplayName?_displayName (k : Kind) :
    ofDisplayName? k.displayName = some k := by
  have hall : ∀ k ∈ all, ofDisplayName? k.displayName = some k := by decide +kernel
  exact hall k (mem_all k)

theorem displayName_injective {k k' : Kind} (h : k.displayName = k'.displayName) : k = k' := by
  have hread := ofDisplayName?_displayName k
  rw [h, ofDisplayName?_displayName] at hread
  exact (Option.some.inj hread).symm

theorem printable_displayName (k : Kind) :
    ∀ c ∈ k.displayName.toList, Text.isPrintable c = true := by
  have hall : k.displayName.toList.all Text.isPrintable = true := by
    cases k <;> decide +kernel
  exact List.all_eq_true.mp hall

theorem not_mem_displayName (k : Kind) : '(' ∉ k.displayName.toList := by
  cases k <;> decide +kernel

end Kind

/-! ## Text on one line -/

namespace Text

/-- Nothing in the text is a control character, a tab or a line feed among them, and nothing
separates lines or paragraphs. -/
def Inline (s : List Char) : Prop := ∀ c ∈ s, ¬ IsControl c ∧ ¬ IsSeparator c

theorem inline_append {s t : List Char} (hs : Inline s) (ht : Inline t) : Inline (s ++ t) := by
  intro c hc
  rcases List.mem_append.mp hc with hc | hc
  · exact hs c hc
  · exact ht c hc

theorem inline_of_printable {s : List Char} (h : ∀ c ∈ s, isPrintable c = true) : Inline s :=
  fun c hc => ⟨not_control_of_printable (h c hc), not_separator_of_printable (h c hc)⟩

theorem Inline.not_mem {s : List Char} {c : Char} (h : Inline s) (hc : IsControl c) : c ∉ s :=
  fun hmem => (h c hmem).1 hc

theorem inline_encode (s : List Char) : Inline (Quoted.encode s) :=
  inline_of_printable fun _ => Quoted.printable_encode

theorem inline_displayName (k : Kind) : Inline k.displayName.toList :=
  inline_of_printable k.printable_displayName

/-- A line of two fields: nothing but the tab between them is on it that ends a line or goes
for another tab. -/
def TwoFields (line : List Char) : Prop :=
  ∃ name text, line = name ++ '\t' :: text ∧ Inline name ∧ Inline text

theorem TwoFields.not_mem {line : List Char} (h : TwoFields line) : '\n' ∉ line := by
  obtain ⟨name, text, rfl, hname, htext⟩ := h
  have hfeed : IsControl '\n' := Or.inl (by decide)
  simp [hname.not_mem hfeed, htext.not_mem hfeed]

/-- Lines of text, each ended by a line feed, are found again. -/
theorem splitOn_lines {lines : List (List Char)} (h : ∀ line ∈ lines, '\n' ∉ line) :
    (lines.flatMap (· ++ ['\n'])).splitOn '\n' = lines ++ [[]] := by
  induction lines with
  | nil => rfl
  | cons line lines ih =>
      rw [List.forall_mem_cons] at h
      rw [List.flatMap_cons, List.append_assoc, List.singleton_append,
        List.splitOn_append_cons_self_of_not_mem h.1, ih h.2]
      rfl

end Text

open Text

variable {t u : Token}

/-! ## Reading -/

def readToken? (line : List Char) : Option Token :=
  match line.splitOn '\t' with
  | [name, text] => do
      let kind ← Kind.ofDisplayName? (String.ofList name)
      let lexeme ← Quoted.decode text
      return Token.ofChars kind lexeme
  | _ => none

def readTokens? (text : String) : Option (List Token) :=
  let lines := text.toList.splitOn '\n'
  if lines.getLast? = some [] then lines.dropLast.mapM readToken? else none

namespace Token

def line (t : Token) : List Char :=
  t.kind.displayName.toList ++ '\t' :: Quoted.encode t.lexeme.toList

theorem twoFields_line (t : Token) : TwoFields t.line :=
  ⟨_, _, rfl, inline_displayName t.kind, inline_encode _⟩

theorem readToken?_line (t : Token) : readToken? t.line = some t := by
  have htab : IsControl '\t' := Or.inl (by decide)
  unfold readToken? line
  rw [List.splitOn_append_cons_self_of_not_mem ((inline_displayName _).not_mem htab),
    List.splitOn_eq_singleton ((inline_encode _).not_mem htab)]
  simp [Quoted.decode_encode, ofChars]

theorem toList_tokenLine (t : Token) : (Command.tokenLine t).toList = t.line ++ ['\n'] := by
  unfold Command.tokenLine line Quoted.quote
  simp

/-! ## The one-line form -/

theorem toList_render (t : Token) :
    t.render.toList =
      t.kind.displayName.toList ++ '(' :: (Quoted.encode t.lexeme.toList ++ [')']) := by
  unfold render Quoted.quote
  simp

theorem inline_render (t : Token) : Inline t.render.toList := by
  rw [toList_render]
  refine inline_append (inline_displayName t.kind) (inline_of_printable ?_)
  intro c hc
  rcases List.mem_cons.mp hc with rfl | hc
  · decide +kernel
  rcases List.mem_append.mp hc with hc | hc
  · exact Quoted.printable_encode hc
  · rw [List.mem_singleton.mp hc]
    decide +kernel

/-- Up to the first parenthesis there is the name, which no other kind has. -/
theorem kind_of_render (h : t.render = u.render) : t.kind = u.kind := by
  have hsplit := congrArg (fun s => s.toList.splitOn '(') h
  simp only [toList_render] at hsplit
  rw [List.splitOn_append_cons_self_of_not_mem t.kind.not_mem_displayName,
    List.splitOn_append_cons_self_of_not_mem u.kind.not_mem_displayName] at hsplit
  have hname := (List.cons.inj hsplit).1
  exact Kind.displayName_injective (String.toList_inj.mp hname)

theorem render_injective (h : t.render = u.render) : t = u := by
  have hkind := kind_of_render h
  have hlist := congrArg String.toList h
  rw [toList_render, toList_render, hkind] at hlist
  have htext := (List.cons.inj (List.append_cancel_left hlist)).2
  have hlexeme := Quoted.encode_injective (List.append_cancel_right htext)
  cases t
  cases u
  exact congr (congrArg Token.mk hkind) (String.toList_inj.mp hlexeme)

end Token

namespace Command

theorem toList_stdout (verbose : Bool) (ts : List Token) :
    (Report.ofTokens verbose ts).stdout.toList = (ts.map Token.line).flatMap (· ++ ['\n']) := by
  show (String.join (ts.map tokenLine)).toList = _
  rw [String.toList_join, List.flatMap_map, List.flatMap_map]
  simp only [Token.toList_tokenLine]

theorem mapM_readToken? (ts : List Token) : (ts.map Token.line).mapM readToken? = some ts := by
  induction ts with
  | nil => rfl
  | cons t ts ih =>
      rw [List.map_cons, List.mapM_cons, Token.readToken?_line, ih]
      rfl

theorem readTokens?_stdout (verbose : Bool) (ts : List Token) :
    readTokens? (Report.ofTokens verbose ts).stdout = some ts := by
  have hlines : ∀ line ∈ ts.map Token.line, '\n' ∉ line := by
    simp only [List.forall_mem_map]
    exact fun t _ => t.twoFields_line.not_mem
  unfold readTokens?
  simp only [toList_stdout, splitOn_lines hlines, List.getLast?_concat, if_true,
    List.dropLast_concat, mapM_readToken?]

/-- The text lists the tokens, one on each line, and can be read. -/
structure Legible (text : String) (ts : List Token) : Prop where
  readBack : readTokens? text = some ts
  lines : text.toList = (ts.map Token.line).flatMap (· ++ ['\n'])
  fields : ∀ t ∈ ts, TwoFields t.line

theorem legible_stdout (verbose : Bool) (ts : List Token) :
    Legible (Report.ofTokens verbose ts).stdout ts :=
  ⟨readTokens?_stdout verbose ts, toList_stdout verbose ts, fun t _ => t.twoFields_line⟩

/-- **Printed tokens are read back.** Whatever the lexemes are, the lines that are printed give
the tokens again; and the one-line form of a token stays on its line and is no other's. -/
theorem printed_tokens_legible :
    (∀ verbose ts, Legible (Report.ofTokens verbose ts).stdout ts) ∧
      (∀ t : Token, Inline t.render.toList) ∧
      ∀ t u : Token, t.render = u.render ↔ t = u :=
  ⟨legible_stdout, Token.inline_render,
    fun _ _ => ⟨Token.render_injective, fun h => congrArg Token.render h⟩⟩

/-- A lexeme with a tab, an apostrophe and a line separator. -/
example : (Report.ofTokens false [⟨.string, "a\t'\u2028"⟩]).stdout =
    "string\t\"a\\t'\\u2028\"\n" := by
  decide +kernel

end Command

end FilterLex
