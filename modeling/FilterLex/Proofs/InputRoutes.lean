import FilterLex.Proofs.CommandLines
import FilterLex.Proofs.Documents
import FilterLex.Proofs.Exhaustion

/-!
# The routes of an input agree

A text reaches the command in a file, on the standard input, or as an argument. The arguments
differ, but they come to the same settings, and a document in UTF-8 is the feed of its text;
so the answer is the same.

- `flagItem`, `routeLine`: flags as items, and flags around the name of a file.
- `parse_named`, `parse_attached`, `parse_standard`, `parse_expression`: the settings.
- `Agree`, `routes_agree`: the answer, on every route.
-/

namespace FilterLex.Command

open Text

variable {s name text a : String} {flags before after : List String} {items : List Item}

/-! ## Flags -/

/-- A switch that changes how the text is read or reported. -/
def IsFlag (a : String) : Prop := a = "--verbose" ∨ a = "--lenient-strings"

def flagItem (a : String) : Item := if a = "--verbose" then .verbose else .lenientStrings

theorem isFlag_flagItem (a : String) : (flagItem a).isFlag = true := by
  unfold flagItem
  split <;> rfl

theorem wellFormed_flagItem (a : String) : (flagItem a).WellFormed := by
  unfold flagItem
  split <;> trivial

theorem arguments_flags (hflags : ∀ a ∈ flags, IsFlag a) :
    (flags.map flagItem).flatMap Item.arguments = flags := by
  induction flags with
  | nil => rfl
  | cons a flags ih =>
      rw [List.forall_mem_cons] at hflags
      rw [List.map_cons, List.flatMap_cons, ih hflags.2]
      rcases hflags.1 with rfl | rfl
      · rfl
      · rfl

theorem verbose_flags (flags : List String) :
    decide (.verbose ∈ flags.map flagItem) = flags.contains "--verbose" := by
  rw [Bool.eq_iff_iff, decide_eq_true_iff, List.contains_iff_mem, List.mem_map]
  constructor
  · rintro ⟨a, ha, hitem⟩
    unfold flagItem at hitem
    split at hitem
    case isTrue heq => exact heq ▸ ha
    case isFalse => cases hitem
  · exact fun h => ⟨_, h, rfl⟩

theorem lenientStrings_flags (hflags : ∀ a ∈ flags, IsFlag a) :
    decide (.lenientStrings ∈ flags.map flagItem) = flags.contains "--lenient-strings" := by
  rw [Bool.eq_iff_iff, decide_eq_true_iff, List.contains_iff_mem, List.mem_map]
  constructor
  · rintro ⟨a, ha, hitem⟩
    rcases hflags a ha with rfl | rfl
    · cases hitem
    · exact ha
  · exact fun h => ⟨_, h, rfl⟩

/-! ## Settings -/

def settingsFor (input : Input) (flags : List String) : Settings :=
  { input
    verbose := flags.contains "--verbose"
    lenientStrings := flags.contains "--lenient-strings" }

/-- Items that name files, and nothing else. -/
def NameFiles (items : List Item) : Prop :=
  ∀ i ∈ items, i.WellFormed ∧ i.isFlag = false ∧ i.text? = none

theorem filterMap_flags {α : Type} (g : Item → Option α) (h : ∀ i, i.isFlag = true → g i = none)
    (flags : List String) : (flags.map flagItem).filterMap g = [] := by
  rw [List.filterMap_eq_nil_iff]
  rintro i hi
  obtain ⟨a, -, rfl⟩ := List.mem_map.mp hi
  exact h _ (isFlag_flagItem a)

theorem texts_flags (flags : List String) : (flags.map flagItem).filterMap Item.text? = [] :=
  filterMap_flags Item.text? (fun _ hi => (Item.of_isFlag hi).2) flags

theorem names_flags (flags : List String) : (flags.map flagItem).filterMap Item.name? = [] :=
  filterMap_flags Item.name? (fun _ hi => (Item.of_isFlag hi).1) flags

theorem NameFiles.texts (h : NameFiles items) : items.filterMap Item.text? = [] :=
  List.filterMap_eq_nil_iff.mpr fun i hi => (h i hi).2.2

def routeLine (before after : List String) (items : List Item) (h : NameFiles items) :
    CommandLine where
  items := before.map flagItem ++ (items ++ after.map flagItem)
  wellFormed := by
    intro i hi
    rcases List.mem_append.mp hi with hi | hi
    · obtain ⟨a, -, rfl⟩ := List.mem_map.mp hi
      exact wellFormed_flagItem a
    rcases List.mem_append.mp hi with hi | hi
    · exact (h i hi).1
    · obtain ⟨a, -, rfl⟩ := List.mem_map.mp hi
      exact wellFormed_flagItem a
  single := by
    rw [List.filterMap_append, List.filterMap_append, texts_flags, texts_flags, h.texts]
    exact Nat.zero_le 1

theorem arguments_routeLine (h : NameFiles items) (hbefore : ∀ a ∈ before, IsFlag a)
    (hafter : ∀ a ∈ after, IsFlag a) : (routeLine before after items h).arguments =
      before ++ (items.flatMap Item.arguments ++ after) := by
  unfold CommandLine.arguments routeLine
  rw [List.flatMap_append, List.flatMap_append, arguments_flags hbefore, arguments_flags hafter]

theorem expression_routeLine (h : NameFiles items) :
    (routeLine before after items h).expression = none := by
  unfold CommandLine.expression routeLine
  rw [List.filterMap_append, List.filterMap_append, texts_flags, texts_flags, h.texts]
  rfl

theorem file_routeLine (h : NameFiles items) :
    (routeLine before after items h).file = (items.filterMap Item.name?).getLastD "" := by
  unfold CommandLine.file CommandLine.names routeLine
  rw [List.filterMap_append, List.filterMap_append, names_flags, names_flags, List.nil_append,
    List.append_nil]

/-- Only the flags around them say how the text is read and reported. -/
theorem mem_routeLine {i : Item} (h : NameFiles items) (hi : i.isFlag = true) :
    i ∈ (routeLine before after items h).items ↔ i ∈ (before ++ after).map flagItem := by
  have hitems : i ∉ items := by
    intro hmem
    rw [(h i hmem).2.1] at hi
    cases hi
  show i ∈ before.map flagItem ++ (items ++ after.map flagItem) ↔ _
  rw [List.map_append, List.mem_append, List.mem_append, List.mem_append]
  exact or_congr_right (or_iff_right hitems)

theorem settings_routeLine (h : NameFiles items) (hflags : ∀ a ∈ before ++ after, IsFlag a) :
    (routeLine before after items h).settings =
      settingsFor (routeLine before after items h).input (before ++ after) := by
  unfold CommandLine.settings settingsFor
  rw [decide_eq_decide.mpr (mem_routeLine h rfl), decide_eq_decide.mpr (mem_routeLine h rfl),
    verbose_flags, lenientStrings_flags hflags]

/-- **Flags around the names of files** ask for the last of these files. -/
theorem parse_route (h : NameFiles items) (hbefore : ∀ a ∈ before, IsFlag a)
    (hafter : ∀ a ∈ after, IsFlag a) :
    parse (before ++ (items.flatMap Item.arguments ++ after)) =
      .ok (settingsFor (routeLine before after items h).input (before ++ after)) := by
  have hconflict : ¬ (routeLine before after items h).Conflicting := by
    rintro ⟨hsome, -⟩
    rw [expression_routeLine] at hsome
    cases hsome
  have hflags : ∀ a ∈ before ++ after, IsFlag a := List.forall_mem_append.mpr ⟨hbefore, hafter⟩
  rw [← arguments_routeLine h hbefore hafter, (parse_line _).2 hconflict,
    settings_routeLine h hflags]

theorem input_routeLine (h : NameFiles items)
    (hname : (items.filterMap Item.name?).getLastD "" = name) (hne : name ≠ "") :
    (routeLine before after items h).input = .file name := by
  unfold CommandLine.input
  rw [file_routeLine, hname, if_pos hne]

theorem parse_standard (hflags : ∀ a ∈ flags, IsFlag a) :
    parse flags = .ok (settingsFor .standard flags) := by
  have hnone : NameFiles [] := by simp [NameFiles]
  have hparse := parse_route hnone hflags (List.forall_mem_nil _)
  have hinput : (routeLine flags [] [] hnone).input = .standard := by
    unfold CommandLine.input
    rw [file_routeLine, expression_routeLine, if_neg (by simp)]
  rwa [hinput, List.append_nil, List.flatMap_nil, List.append_nil] at hparse

def IsName (name : String) : Prop := name ≠ "" ∧ name.toList.head? ≠ some '-'

theorem classify_name (h : IsName name) : classify name = .ok (.plain name) := by
  obtain ⟨-, hhead⟩ := h
  unfold classify
  split
  · next hlist => simp [hlist] at hhead
  · next hlist => simp [hlist] at hhead
  · next hlist => simp [hlist] at hhead
  · rfl

theorem parse_named (hname : IsName name) (hbefore : ∀ a ∈ before, IsFlag a)
    (hafter : ∀ a ∈ after, IsFlag a) :
    parse (before ++ (["--file", name] ++ after)) =
      .ok (settingsFor (.file name) (before ++ after)) := by
  have hnames : NameFiles [.named name] :=
    List.forall_mem_singleton.mpr ⟨classify_name hname, rfl, rfl⟩
  have hparse := parse_route hnames hbefore hafter
  rwa [input_routeLine hnames rfl hname.1] at hparse

theorem parse_attached (hname : name ≠ "") (hdashes : name ≠ "--")
    (hbefore : ∀ a ∈ before, IsFlag a) (hafter : ∀ a ∈ after, IsFlag a) :
    parse (before ++ (["--file=" ++ name] ++ after)) =
      .ok (settingsFor (.file name) (before ++ after)) := by
  have hnames : NameFiles [.attached name] := List.forall_mem_singleton.mpr ⟨trivial, rfl, rfl⟩
  have hparse := parse_route hnames hbefore hafter
  rwa [input_routeLine hnames (if_neg hdashes) hname] at hparse

/-- Behind a separator, any word is the expression. -/
theorem interpret_separated {g : Gathered} (hplace : g.place = .free) (text : String) :
    interpret g [.separator, .plain text] =
      .ok { g with place := .closed, expression := some text } := by
  obtain ⟨place, expression, file, verbose, lenientStrings, surplus⟩ := g
  cases hplace
  rfl

theorem parse_expression (hflags : ∀ a ∈ flags, IsFlag a) (text : String) :
    parse (flags ++ ["--", text]) = .ok (settingsFor (.expression text) flags) := by
  have hnone := texts_flags flags
  have hsingle : ((flags.map flagItem).filterMap Item.text?).length ≤ 1 := by
    rw [hnone]
    exact Nat.zero_le 1
  obtain ⟨-, hsurplus, hplace⟩ := gathered_expression hsingle
  have hfile := gathered_file (flags.map flagItem)
  obtain ⟨hverbose, hlenient⟩ := gathered_flags (flags.map flagItem)
  rw [names_flags] at hfile
  rw [verbose_flags] at hverbose
  rw [lenientStrings_flags hflags] at hlenient
  have hwords : words (flags ++ ["--", text]) =
      .ok ((flags.map flagItem).flatMap Item.words ++ [.separator, .plain text]) := by
    have hitems : ∀ i ∈ flags.map flagItem, i.WellFormed :=
      List.forall_mem_map.mpr fun a _ => wellFormed_flagItem a
    have hend : words ["--", text] = .ok [.separator, .plain text] := rfl
    have hwords := words_items hitems hend
    rwa [arguments_flags hflags] at hwords
  have hgathered := (interpret_items {} (flags.map flagItem) [.separator, .plain text]).trans
    (interpret_separated (hplace hnone) text)
  rw [parse_of_gathered hwords hgathered]
  unfold Gathered.settings Gathered.input?
  simp only [hsurplus, hfile, hverbose, hlenient]
  rfl

/-! ## Answers -/

theorem answer_of_parse {arguments : List String} {settings : Settings}
    {files : String → Lookup} {stdin : List UInt8} {feed : Feed}
    (hparse : parse arguments = .ok settings)
    (hfeed : settings.input.feed files stdin = .ok feed) :
    answer arguments files stdin = .report (settings.report feed) := by
  unfold answer
  rw [hparse]
  simp only [hfeed]

/-- Every route of the text `s` comes to the answer. The flags stand before a file and
after it, and before an expression. -/
structure Agree (s : String) (before after : List String) (a : Answer) : Prop where
  named : ∀ (name : String) (files : String → Lookup) (stdin : List UInt8), IsName name →
    files name = .content s.toUTF8.data.toList →
      answer (before ++ (["--file", name] ++ after)) files stdin = a
  attached : ∀ (name : String) (files : String → Lookup) (stdin : List UInt8), name ≠ "" →
    name ≠ "--" → files name = .content s.toUTF8.data.toList →
      answer (before ++ (["--file=" ++ name] ++ after)) files stdin = a
  standard : ∀ files : String → Lookup,
    answer (before ++ after) files s.toUTF8.data.toList = a
  expression : ∀ (files : String → Lookup) (stdin : List UInt8),
    answer (before ++ after ++ ["--", withLineFeeds s]) files stdin = a

theorem feed_of_content {files : String → Lookup} {stdin : List UInt8}
    (h : files name = .content s.toUTF8.data.toList) :
    (Input.file name).feed files stdin = .ok (Feed.ofString (withLineFeeds s)) := by
  show (files name).feed name = _
  rw [h, ← Feed.ofDocument_utf8]
  rfl

/-- **The routes of an input agree.** A text in a file, on the standard input, or as an
expression with line feeds for its line ends: the answer is the report on its tokens, which
no fault cuts short. -/
theorem routes_agree (s : String) (before after : List String)
    (hflags : ∀ a ∈ before ++ after, IsFlag a) :
    ∃ run : Run,
      tokenize { strictStrings := !(before ++ after).contains "--lenient-strings" }
          (.text (withLineFeeds s)) = .ok run ∧
        run.fault = none ∧
        Agree s before after
          (.report (Report.ofTokens ((before ++ after).contains "--verbose") run.tokens)) := by
  have hbefore : ∀ a ∈ before, IsFlag a := fun a ha => hflags a (List.mem_append_left after ha)
  have hafter : ∀ a ∈ after, IsFlag a := fun a ha => hflags a (List.mem_append_right before ha)
  refine ⟨_, rfl, Lexer.run_text _ _, ?_⟩
  constructor
  case named =>
    intro name files stdin hname hfile
    exact answer_of_parse (parse_named hname hbefore hafter) (feed_of_content hfile)
  case attached =>
    intro name files stdin hname hdashes hfile
    exact answer_of_parse (parse_attached hname hdashes hbefore hafter) (feed_of_content hfile)
  case standard =>
    intro files
    refine answer_of_parse (parse_standard hflags) ?_
    rw [← Feed.ofDocument_utf8]
    rfl
  case expression =>
    intro files stdin
    exact answer_of_parse (parse_expression hflags _) rfl

/-- An open string over two lines, with a return at the end, is accepted by the flags around
the file. -/
theorem open_string_agree :
    (∀ a ∈ ["--verbose"] ++ ["--lenient-strings"], IsFlag a) ∧
      ∃ run : Run,
        tokenize { strictStrings := false } (.text (withLineFeeds "'\u00e9\r\nb\r")) = .ok run ∧
          run.fault = none ∧
          Agree "'\u00e9\r\nb\r" ["--verbose"] ["--lenient-strings"]
            (.report (Report.ofTokens true run.tokens)) := by
  have hflags : ∀ a ∈ ["--verbose"] ++ ["--lenient-strings"], IsFlag a := by
    simp [IsFlag]
  exact ⟨hflags, routes_agree _ _ _ hflags⟩

end FilterLex.Command
