import Mathlib.Data.List.Induction
import FilterLex.Command.Answer

/-!
# Command lines

A command line is made of items: flags, names of files in either form, and at most one
expression, in any order. What it asks for depends on which flags occur, on the last name and
on the expression; where they stand among each other makes no difference.

- `Item`, `CommandLine`: the items and the arguments they stand for.
- `words_items`, `interpret_items`: the arguments of items, sorted and interpreted.
- `gathered_flags`, `gathered_file`, `gathered_expression`: what is gathered from items,
  one part of it at a time.
- `parse_line`: what a command line asks for.
-/

namespace FilterLex.Command

/-- A word that is neither a switch nor the separator, so that it can name a file or be the
expression. -/
def IsPlain (word : String) : Prop := classify word = .ok (.plain word)

instance (word : String) : Decidable (IsPlain word) :=
  inferInstanceAs (Decidable (classify word = .ok (.plain word)))

/-! ## Items -/

/-- What a command line is made of. The name of a file is an argument of its own or attached
to its switch. -/
inductive Item
  | verbose
  | lenientStrings
  | named (name : String)
  | attached (name : String)
  | expression (text : String)
  deriving DecidableEq, Repr

namespace Item

def arguments : Item → List String
  | .verbose => ["--verbose"]
  | .lenientStrings => ["--lenient-strings"]
  | .named name => ["--file", name]
  | .attached name => ["--file=" ++ name]
  | .expression text => [text]

def words : Item → List Word
  | .verbose => [.long .verbose none]
  | .lenientStrings => [.long .lenientStrings none]
  | .named name => [.long .file none, .plain name]
  | .attached name => [.long .file (some name.toList)]
  | .expression text => [.plain text]

/-- What stands as an argument of its own has to be a plain word. -/
def WellFormed : Item → Prop
  | .named name => IsPlain name
  | .expression text => IsPlain text
  | _ => True

instance : (i : Item) → Decidable i.WellFormed
  | .named name => inferInstanceAs (Decidable (IsPlain name))
  | .expression text => inferInstanceAs (Decidable (IsPlain text))
  | .verbose | .lenientStrings | .attached _ => inferInstanceAs (Decidable True)

def isFlag : Item → Bool
  | .verbose | .lenientStrings => true
  | _ => false

/-- The name of a file. An attached separator is dropped and leaves the empty name. -/
def name? : Item → Option String
  | .named name => some name
  | .attached name => some (if name = "--" then "" else name)
  | _ => none

def text? : Item → Option String
  | .expression text => some text
  | _ => none

theorem of_isFlag {i : Item} (h : i.isFlag = true) : i.name? = none ∧ i.text? = none := by
  cases i with
  | verbose => exact ⟨rfl, rfl⟩
  | lenientStrings => exact ⟨rfl, rfl⟩
  | _ => cases h

end Item

/-- Items in any order, at most one of them an expression. -/
structure CommandLine where
  items : List Item
  wellFormed : ∀ i ∈ items, i.WellFormed
  single : (items.filterMap Item.text?).length ≤ 1

namespace CommandLine

def arguments (line : CommandLine) : List String := line.items.flatMap Item.arguments

def names (line : CommandLine) : List String := line.items.filterMap Item.name?

/-- The last name counts. No name at all is as good as the empty one. -/
def file (line : CommandLine) : String := line.names.getLastD ""

def expression (line : CommandLine) : Option String := (line.items.filterMap Item.text?).head?

def Conflicting (line : CommandLine) : Prop := line.expression.isSome = true ∧ line.file ≠ ""

def input (line : CommandLine) : Input :=
  if line.file ≠ "" then .file line.file
  else
    match line.expression with
    | some text => .expression text
    | none => .standard

def settings (line : CommandLine) : Settings :=
  { input := line.input
    verbose := decide (.verbose ∈ line.items)
    lenientStrings := decide (.lenientStrings ∈ line.items) }

end CommandLine

variable {i : Item} {items : List Item} {line : CommandLine} {rest : List String}
  {ws : List Word} {g : Gathered}

/-! ## Sorting and interpreting items -/

theorem IsPlain.ne_separator {word : String} (h : IsPlain word) : word ≠ "--" := by
  rintro rfl
  cases h

theorem words_cons {w : Word} (ha : a ≠ "--") (hw : classify a = .ok w)
    (hws : words rest = .ok ws) : words (a :: rest) = .ok (w :: ws) := by
  unfold words
  rw [if_neg ha, hw, hws]
  rfl

/-- The equals sign ends the spelling of the switch. -/
theorem classify_attached (name : String) :
    classify ("--file=" ++ name) = .ok (.long .file (some name.toList)) := by
  have hlist : ("--file=" ++ name).toList =
      '-' :: '-' :: 'f' :: 'i' :: 'l' :: 'e' :: '=' :: name.toList := by
    rw [String.toList_append]
    rfl
  unfold classify
  rw [hlist]
  show classifyLong ('-' :: '-' :: 'f' :: 'i' :: 'l' :: 'e' :: '=' :: name.toList) = _
  rfl

theorem words_attached (name : String) (hws : words rest = .ok ws) :
    words (["--file=" ++ name] ++ rest) = .ok ([.long .file (some name.toList)] ++ ws) := by
  refine words_cons ?_ (classify_attached name) hws
  intro h
  have hlength := congrArg String.length h
  rw [String.length_append] at hlength
  have : "--file=".length = 7 := by decide
  have : "--".length = 2 := by decide
  omega

theorem words_item (hi : i.WellFormed) (hws : words rest = .ok ws) :
    words (i.arguments ++ rest) = .ok (i.words ++ ws) := by
  cases i with
  | verbose => exact words_cons (by decide) rfl hws
  | lenientStrings => exact words_cons (by decide) rfl hws
  | named name => exact words_cons (by decide) rfl (words_cons hi.ne_separator hi hws)
  | attached name => exact words_attached name hws
  | expression text => exact words_cons hi.ne_separator hi hws

/-- The arguments of items, whatever follows them. -/
theorem words_items (h : ∀ i ∈ items, i.WellFormed) (hws : words rest = .ok ws) :
    words (items.flatMap Item.arguments ++ rest) = .ok (items.flatMap Item.words ++ ws) := by
  induction items with
  | nil => exact hws
  | cons i items ih =>
      rw [List.forall_mem_cons] at h
      rw [List.flatMap_cons, List.flatMap_cons, List.append_assoc, List.append_assoc]
      exact words_item h.1 (ih h.2)

def Gathered.add (g : Gathered) : Item → Gathered
  | .verbose => g.flag .verbose
  | .lenientStrings => g.flag .lenientStrings
  | .named name => g.withFile name.toList
  | .attached name => g.withFile (attachedName name.toList)
  | .expression text => g.plain text

theorem interpret_item (g : Gathered) (i : Item) (ws : List Word) :
    interpret g (i.words ++ ws) = interpret (g.add i) ws := by
  cases i <;> rfl

theorem interpret_items (g : Gathered) (items : List Item) (ws : List Word) :
    interpret g (items.flatMap Item.words ++ ws) =
      interpret (items.foldl Gathered.add g) ws := by
  induction items generalizing g with
  | nil => rfl
  | cons i items ih =>
      rw [List.flatMap_cons, List.append_assoc, interpret_item, ih]
      rfl

/-! ## What is gathered -/

def gathered (items : List Item) : Gathered := items.foldl Gathered.add {}

theorem gathered_concat (items : List Item) (i : Item) :
    gathered (items ++ [i]) = (gathered items).add i := by
  unfold gathered
  rw [List.foldl_append]
  rfl

theorem attachedName_toList (name : String) :
    attachedName name.toList = (if name = "--" then "" else name).toList := by
  unfold attachedName
  by_cases h : name = "--"
  · rw [h]
    rfl
  · have hlist : name.toList ≠ ['-', '-'] := fun hlist => h (String.toList_inj.mp hlist)
    rw [if_neg h, if_neg hlist]

theorem plain_options (g : Gathered) (text : String) :
    (g.plain text).verbose = g.verbose ∧ (g.plain text).lenientStrings = g.lenientStrings ∧
      (g.plain text).file = g.file := by
  unfold Gathered.plain
  split <;> exact ⟨rfl, rfl, rfl⟩

/-- Flags and names are gathered wherever they stand. -/
theorem add_options (g : Gathered) (i : Item) :
    (g.add i).verbose = (g.verbose || decide (i = .verbose)) ∧
      (g.add i).lenientStrings = (g.lenientStrings || decide (i = .lenientStrings)) ∧
      (g.add i).file = (i.name?.map String.toList).getD g.file := by
  cases i with
  | expression text =>
      obtain ⟨hverbose, hlenient, hfile⟩ := plain_options g text
      simp [Gathered.add, Item.name?, hverbose, hlenient, hfile]
  | attached name =>
      simp [Gathered.add, Gathered.withFile, Gathered.afterSwitch, Item.name?,
        attachedName_toList]
  | _ => simp [Gathered.add, Gathered.withFile, Gathered.flag, Gathered.afterSwitch, Item.name?]

theorem add_switch (g : Gathered) (hi : i.text? = none) :
    (g.add i).expression = g.expression ∧ (g.add i).surplus = g.surplus ∧
      (g.add i).place = g.place.afterSwitch := by
  cases i with
  | expression text => cases hi
  | _ => exact ⟨rfl, rfl, rfl⟩

theorem add_expression (text : String) (hplace : g.place = .free) :
    g.add (.expression text) = { g with place := .justTaken, expression := some text } := by
  unfold Gathered.add Gathered.plain
  rw [hplace]

theorem gathered_flags (items : List Item) :
    (gathered items).verbose = decide (.verbose ∈ items) ∧
      (gathered items).lenientStrings = decide (.lenientStrings ∈ items) := by
  induction items using List.reverseRecOn with
  | nil => exact ⟨rfl, rfl⟩
  | append_singleton items i ih =>
      obtain ⟨hverbose, hlenient, -⟩ := add_options (gathered items) i
      rw [gathered_concat, hverbose, hlenient, ih.1, ih.2]
      simp [eq_comm]

theorem gathered_file (items : List Item) :
    (gathered items).file = ((items.filterMap Item.name?).getLastD "").toList := by
  induction items using List.reverseRecOn with
  | nil => rfl
  | append_singleton items i ih =>
      rw [gathered_concat, (add_options _ i).2.2, ih, List.filterMap_append]
      cases hname : i.name? with
      | none => simp [hname]
      | some name => simp [hname]

/-- The one expression finds its place free, since a switch before it leaves the place as it
is; a switch behind it only closes the place. -/
theorem gathered_expression (h : (items.filterMap Item.text?).length ≤ 1) :
    (gathered items).expression = (items.filterMap Item.text?).head? ∧
      (gathered items).surplus = [] ∧
      (items.filterMap Item.text? = [] → (gathered items).place = .free) := by
  induction items using List.reverseRecOn with
  | nil => exact ⟨rfl, rfl, fun _ => rfl⟩
  | append_singleton items i ih =>
      rw [List.filterMap_append, List.length_append] at h
      obtain ⟨hexpression, hsurplus, hplace⟩ := ih (by omega)
      rw [gathered_concat, List.filterMap_append]
      cases htext : i.text? with
      | none =>
          obtain ⟨hexpression', hsurplus', hplace'⟩ := add_switch (gathered items) htext
          rw [hexpression', hsurplus', hplace', List.filterMap_cons_none htext, List.filterMap_nil,
            List.append_nil]
          refine ⟨hexpression, hsurplus, fun hnone => ?_⟩
          rw [hplace hnone]
          rfl
      | some text =>
          have hi : i = .expression text := by
            cases i <;> cases htext
            rfl
          subst hi
          have hnone : items.filterMap Item.text? = [] := by
            have hone : ([Item.expression text].filterMap Item.text?).length = 1 := rfl
            exact List.eq_nil_of_length_eq_zero (by omega)
          rw [add_expression text (hplace hnone), hnone]
          exact ⟨rfl, hsurplus, fun h => by cases h⟩

/-! ## What a command line asks for -/

theorem parse_of_gathered {arguments : List String} (hws : words arguments = .ok ws)
    (hg : interpret {} ws = .ok g) : parse arguments = g.settings.mapError .usage := by
  unfold parse
  rw [hws]
  show (interpret {} ws >>= fun g => g.settings.mapError .usage) = _
  rw [hg]
  rfl

theorem gathered_line (line : CommandLine) :
    (gathered line.items).expression = line.expression ∧
      (gathered line.items).file = line.file.toList ∧ (gathered line.items).surplus = [] := by
  obtain ⟨hexpression, hsurplus, -⟩ := gathered_expression line.single
  exact ⟨hexpression, gathered_file line.items, hsurplus⟩

theorem toList_ne_nil {name : String} (h : name ≠ "") : name.toList ≠ [] :=
  fun hnil => h (String.toList_eq_nil_iff.mp hnil)

theorem input?_of_conflicting (h : line.Conflicting) :
    (gathered line.items).input? = .error .twoInputs := by
  obtain ⟨hexpression, hfile, -⟩ := gathered_line line
  obtain ⟨text, htext⟩ := Option.isSome_iff_exists.mp h.1
  obtain ⟨c, cs, hname⟩ := List.exists_cons_of_ne_nil (toList_ne_nil h.2)
  unfold Gathered.input?
  rw [hexpression, hfile, htext, hname]

theorem input?_of_not_conflicting (h : ¬ line.Conflicting) :
    (gathered line.items).input? = .ok line.input := by
  obtain ⟨hexpression, hfile, -⟩ := gathered_line line
  unfold Gathered.input? CommandLine.input
  rw [hexpression, hfile]
  by_cases hname : line.file = ""
  · rw [hname, if_neg (by simp)]
    cases line.expression <;> rfl
  · have hnone : line.expression = none := by
      rw [← Option.not_isSome_iff_eq_none]
      exact fun hsome => h ⟨hsome, hname⟩
    obtain ⟨c, cs, hlist⟩ := List.exists_cons_of_ne_nil (toList_ne_nil hname)
    have hback : line.file = String.ofList (c :: cs) := by rw [← hlist, String.ofList_toList]
    rw [if_pos hname, hnone, hlist, hback]

/-- Nothing is left over, so only the inputs can be at odds. -/
theorem settings_line (line : CommandLine) :
    (gathered line.items).settings = (gathered line.items).input?.map fun input =>
      { line.settings with input } := by
  obtain ⟨-, -, hsurplus⟩ := gathered_line line
  obtain ⟨hverbose, hlenient⟩ := gathered_flags line.items
  unfold Gathered.settings
  rw [hsurplus, hverbose, hlenient]
  cases (gathered line.items).input? <;> rfl

/-- **What a command line asks for.** -/
theorem parse_line (line : CommandLine) :
    (line.Conflicting → parse line.arguments = .error (.usage .twoInputs)) ∧
      (¬ line.Conflicting → parse line.arguments = .ok line.settings) := by
  have hwords : words line.arguments = .ok (line.items.flatMap Item.words) := by
    have hnone : words [] = .ok [] := rfl
    have hwords := words_items line.wellFormed hnone
    rwa [List.append_nil, List.append_nil] at hwords
  have hgathered : interpret {} (line.items.flatMap Item.words) = .ok (gathered line.items) := by
    have hgathered := interpret_items {} line.items []
    rwa [List.append_nil] at hgathered
  rw [parse_of_gathered hwords hgathered, settings_line]
  constructor
  · intro h
    rw [input?_of_conflicting h]
    rfl
  · intro h
    rw [input?_of_not_conflicting h]
    rfl

end FilterLex.Command
