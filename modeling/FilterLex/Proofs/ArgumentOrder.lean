import FilterLex.Proofs.CommandLines

/-!
# The order of the arguments

What the command answers depends on which flags occur on the command line, on the last name
of a file and on the expression; where they stand among each other makes no difference.

- `Agrees`, `SameAnswer`: what counts of a command line, and answers that do not differ.
- `OrderFree`, `orderFree`: that nothing else counts, and which answer it is.
-/

namespace FilterLex.Command

variable {i : Item} {line other : CommandLine}

/-! ## Answers -/

def Settings.answer (s : Settings) (files : String → Lookup) (stdin : List UInt8) : Answer :=
  match s.input.feed files stdin with
  | .ok feed => .report (s.report feed)
  | .error e => .unreadable e

def refusal : Report :=
  { exitCode := 2
    stdout := ""
    stderr := usageLine ++
      "spacefilter: error: give either an expression or --file, not both\n" }

theorem answer_of_settings {arguments : List String} {s : Settings} (h : parse arguments = .ok s)
    (files : String → Lookup) (stdin : List UInt8) :
    answer arguments files stdin = s.answer files stdin := by
  unfold answer
  rw [h]
  rfl

theorem answer_of_twoInputs {arguments : List String}
    (h : parse arguments = .error (.usage .twoInputs)) (files : String → Lookup)
    (stdin : List UInt8) : answer arguments files stdin = .report refusal := by
  unfold answer
  rw [h]
  rfl

theorem Settings.answer_ne_refusal (s : Settings) (files : String → Lookup)
    (stdin : List UInt8) : s.answer files stdin ≠ .report refusal := by
  unfold Settings.answer
  split
  · next feed hfeed =>
    intro h
    have hexit : (s.report feed).exitCode = 2 := congrArg Report.exitCode (Answer.report.inj h)
    unfold Settings.report Report.ofTokens at hexit
    simp only at hexit
    split at hexit <;> cases hexit
  · intro h
    cases h

/-! ## What the answer depends on -/

/-- Both argument lists get the same answer, whatever the files and the standard input hold. -/
def SameAnswer (a b : List String) : Prop :=
  ∀ (files : String → Lookup) (stdin : List UInt8), answer a files stdin = answer b files stdin

theorem eq_of_perm_of_length_le_one {α : Type} {xs ys : List α} (h : xs.Perm ys)
    (hys : ys.length ≤ 1) : xs = ys := by
  match ys, hys with
  | [], _ => exact h.eq_nil
  | [y], _ => exact List.perm_singleton.mp h

namespace CommandLine

/-- The command lines agree in what counts: which flags occur, the last name, and the
expression. -/
structure Agrees (a b : CommandLine) : Prop where
  verbose : .verbose ∈ a.items ↔ .verbose ∈ b.items
  lenientStrings : .lenientStrings ∈ a.items ↔ .lenientStrings ∈ b.items
  file : a.file = b.file
  expression : a.expression = b.expression

theorem Agrees.settings_eq (h : other.Agrees line) : other.settings = line.settings := by
  unfold settings input
  rw [h.file, h.expression, decide_eq_decide.mpr h.verbose, decide_eq_decide.mpr h.lenientStrings]

theorem Agrees.sameAnswer (h : other.Agrees line) : SameAnswer other.arguments line.arguments := by
  intro files stdin
  have hconflict : other.Conflicting ↔ line.Conflicting := by
    unfold Conflicting
    rw [h.file, h.expression]
  have hparse : parse other.arguments = parse line.arguments := by
    by_cases hline : line.Conflicting
    · rw [(parse_line other).1 (hconflict.mpr hline), (parse_line line).1 hline]
    · rw [(parse_line other).2 (mt hconflict.mp hline), (parse_line line).2 hline, h.settings_eq]
  unfold answer
  rw [hparse]

theorem agrees_of_perm (hperm : other.items.Perm line.items) (hnames : other.names = line.names) :
    other.Agrees line where
  verbose := hperm.mem_iff
  lenientStrings := hperm.mem_iff
  file := congrArg (List.getLastD · "") hnames
  expression := congrArg List.head? (eq_of_perm_of_length_le_one (hperm.filterMap _) line.single)

/-- A flag that is already there adds nothing, wherever it is put. -/
theorem agrees_of_repeated {before after : List Item} (hflag : i.isFlag = true)
    (hi : i ∈ line.items) (hline : line.items = before ++ after)
    (hother : other.items = before ++ i :: after) : other.Agrees line := by
  have hperm : other.items.Perm (i :: line.items) := by
    rw [hother, hline]
    exact List.perm_middle
  have hmem : ∀ j, j ∈ other.items ↔ j ∈ line.items := by
    intro j
    rw [hperm.mem_iff, List.mem_cons]
    exact or_iff_right_of_imp fun h => h ▸ hi
  obtain ⟨hname, htext⟩ := Item.of_isFlag hflag
  constructor
  · exact hmem _
  · exact hmem _
  · unfold file names
    rw [hother, hline, List.filterMap_append, List.filterMap_cons_none hname,
      List.filterMap_append]
  · unfold expression
    rw [hother, hline, List.filterMap_append, List.filterMap_cons_none htext,
      List.filterMap_append]

/-- What the order of the arguments means for the answers. -/
structure OrderFree (line : CommandLine) : Prop where
  /-- Nothing else counts. -/
  determined : ∀ other : CommandLine, other.Agrees line →
    SameAnswer other.arguments line.arguments
  /-- The items may be put in any order that keeps the order of the names. -/
  reordered : ∀ other : CommandLine, other.items.Perm line.items → other.names = line.names →
    SameAnswer other.arguments line.arguments
  /-- A flag may be repeated anywhere. -/
  repeated : ∀ (other : CommandLine) (before after : List Item) (i : Item), i.isFlag = true →
    i ∈ line.items → line.items = before ++ after → other.items = before ++ i :: after →
      SameAnswer other.arguments line.arguments
  refused_iff : ∀ (files : String → Lookup) (stdin : List UInt8),
    answer line.arguments files stdin = .report refusal ↔ line.Conflicting
  /-- Whatever the files and the standard input would bring then, it does not count. -/
  refused_unread : line.Conflicting →
    ∀ (files files' : String → Lookup) (stdin stdin' : List UInt8),
      answer line.arguments files stdin = answer line.arguments files' stdin'
  answered : ¬ line.Conflicting → ∀ (files : String → Lookup) (stdin : List UInt8),
    answer line.arguments files stdin = line.settings.answer files stdin

/-- **The order of the arguments makes no difference.** -/
theorem orderFree (line : CommandLine) : line.OrderFree where
  determined _ h := h.sameAnswer
  reordered _ hperm hnames := (agrees_of_perm hperm hnames).sameAnswer
  repeated _ _ _ _ hflag hi hline hother := (agrees_of_repeated hflag hi hline hother).sameAnswer
  refused_iff files stdin := by
    constructor
    · intro h
      by_contra hconflict
      rw [answer_of_settings ((parse_line line).2 hconflict)] at h
      exact line.settings.answer_ne_refusal files stdin h
    · exact fun h => answer_of_twoInputs ((parse_line line).1 h) files stdin
  refused_unread h files files' stdin stdin' := by
    have hparse := (parse_line line).1 h
    rw [answer_of_twoInputs hparse, answer_of_twoInputs hparse]
  answered h files stdin := answer_of_settings ((parse_line line).2 h) files stdin

/-- Flags and names in both forms, and the empty expression between them. -/
def interleaved : CommandLine where
  items := [.attached "x", .verbose, .expression "", .named "f", .verbose, .lenientStrings]
  wellFormed := by decide
  single := by decide

/-- The empty expression and the last name are two inputs. -/
theorem interleaved_refused :
    interleaved.arguments =
        ["--file=x", "--verbose", "", "--file", "f", "--verbose", "--lenient-strings"] ∧
      interleaved.OrderFree ∧
      answer interleaved.arguments (fun _ => .problem .missing) [] = .report refusal := by
  have hconflict : interleaved.Conflicting := by
    unfold Conflicting
    decide
  exact ⟨rfl, orderFree interleaved, ((orderFree interleaved).refused_iff _ _).mpr hconflict⟩

/-- An attached separator is a name that is not empty, and still no name: beside an expression
it is not refused. -/
theorem separator_names_no_file :
    IsPlain "a" ∧ "--" ≠ "" ∧
      answer ["a", "--file=" ++ "--"] (fun _ => .problem .missing) [] =
        .report { stdout := "ident\t'a'\n" ++ "eof\t'<EOF>'\n" } ∧
      answer ["a", "--file=" ++ "--"] (fun _ => .problem .missing) [] ≠ .report refusal := by
  have hanswer : answer ["a", "--file=" ++ "--"] (fun _ => .problem .missing) [] =
      .report { stdout := "ident\t'a'\n" ++ "eof\t'<EOF>'\n" } := by
    decide +kernel
  refine ⟨by decide, by decide, hanswer, ?_⟩
  rw [hanswer]
  intro h
  cases congrArg Report.exitCode (Answer.report.inj h)

end CommandLine

end FilterLex.Command
