import Mathlib.Data.List.Basic
import FilterLex.Proofs.InputRoutes
import FilterLex.Proofs.Messages
import FilterLex.Proofs.SoundTokens

/-!
# What the command leaves behind

The standard output, the standard error and the exit status are three accounts of one run. The
standard output has a line for each token; the last of them decides on the exit status, and is
repeated on the standard error if it is an error; and with `--verbose` the lines of the log come
before that, again one for each token.

- `parse_louder`: the settings with `--verbose` added.
- `IsLines`: a text that consists of lines, none of which is broken.
- `Accounts`, `accounts_ofTokens`: how the three agree.
- `AddsLog`: what `--verbose` adds.
- `answer_accounts`: the answer of the command, for any arguments and inputs that lead to a run.
-/

namespace FilterLex

open Text

namespace Command

variable {arguments : List String} {settings : Settings} {g : Gathered}

/-! ## Adding a switch -/

def Gathered.louder (g : Gathered) : Gathered := { g with verbose := true }

def Settings.louder (s : Settings) : Settings := { s with verbose := true }

theorem plain_louder (g : Gathered) (text : String) :
    g.louder.plain text = (g.plain text).louder := by
  obtain ⟨place, expression, file, verbose, lenientStrings, surplus⟩ := g
  cases place <;> rfl

theorem separator_louder (g : Gathered) : g.louder.separator = g.separator.louder := by
  obtain ⟨place, expression, file, verbose, lenientStrings, surplus⟩ := g
  cases place <;> rfl

theorem flag_louder (g : Gathered) (s : Switch) : g.louder.flag s = (g.flag s).louder := by
  cases s <;> rfl

/-- The words are interpreted the same whether `--verbose` was met before or not. -/
theorem interpret_louder (g : Gathered) (ws : List Word) :
    interpret g.louder ws = (interpret g ws).map Gathered.louder := by
  fun_induction interpret g ws with
  | case1 g => rfl
  | case2 g text ws ih => rw [interpret, plain_louder, ih]
  | case3 g ws ih => rw [interpret, separator_louder, ih]
  | case4 g text ws ih => exact ih
  | case5 g attached ws => rfl
  | case6 g value ws ih => exact ih
  | case7 g name ws ih => exact ih
  -- from here on the order of the patterns matters, hence what they exclude
  | case8 g ws hname =>
      rw [interpret]
      · rfl
      · exact hname
  | case9 g s value ws hfile =>
      rw [interpret]
      · rfl
      · exact hfile
  | case10 g ws => rfl
  | case11 g s ws hname hfile hhelp ih =>
      rw [interpret, flag_louder, ih]
      all_goals assumption

theorem bind_eq_ok {ε α β : Type} {x : Except ε α} {f : α → Except ε β} {b : β}
    (h : x >>= f = .ok b) : ∃ a, x = .ok a ∧ f a = .ok b := by
  cases x with
  | error e => cases h
  | ok a => exact ⟨a, rfl, h⟩

theorem mapError_eq_ok {ε ε' α : Type} {x : Except ε α} {f : ε → ε'} {a : α}
    (h : x.mapError f = .ok a) : x = .ok a := by
  cases x with
  | error e => cases h
  | ok a =>
      cases h
      rfl

theorem settings_louder (h : g.settings = .ok settings) :
    g.louder.settings = .ok settings.louder := by
  unfold Gathered.settings at h ⊢
  split at h
  · next hempty =>
      obtain ⟨input, hinput, hsettings⟩ := bind_eq_ok h
      cases hsettings
      have hlouder : g.louder.input? = .ok input := hinput
      rw [hlouder]
      exact if_pos hempty
  · cases h

theorem parse_eq_ok (h : parse arguments = .ok settings) :
    ∃ ws g, words arguments = .ok ws ∧ interpret {} ws = .ok g ∧ g.settings = .ok settings := by
  obtain ⟨ws, hws, h⟩ := bind_eq_ok h
  obtain ⟨g, hg, h⟩ := bind_eq_ok h
  exact ⟨ws, g, mapError_eq_ok hws, hg, mapError_eq_ok h⟩

/-- **In front of the arguments, `--verbose` only makes the command louder.** -/
theorem parse_louder (h : parse arguments = .ok settings) :
    parse ("--verbose" :: arguments) = .ok settings.louder := by
  obtain ⟨ws, g, hwords, hg, hsettings⟩ := parse_eq_ok h
  have hlouder : words ("--verbose" :: arguments) = .ok (.long .verbose none :: ws) :=
    words_cons (by decide) rfl hwords
  have hgathered : interpret {} (.long .verbose none :: ws) = .ok g.louder := by
    show interpret (Gathered.louder {}) ws = _
    rw [interpret_louder, hg]
    rfl
  rw [parse_of_gathered hlouder hgathered, settings_louder hsettings]
  rfl

end Command

/-! ## Lines -/

/-- The text consists of these lines, and no line has a break in it. -/
structure IsLines (text : String) (lines : List String) : Prop where
  eq : text = String.join (lines.map (· ++ "\n"))
  unbroken : ∀ line ∈ lines, Inline line.toList

theorem IsLines.count {text : String} {lines : List String} (h : IsLines text lines) :
    text.toList.count '\n' = lines.length := by
  obtain ⟨rfl, hunbroken⟩ := h
  induction lines with
  | nil => rfl
  | cons line lines ih =>
      rw [List.forall_mem_cons] at hunbroken
      have hline : '\n' ∉ line.toList := hunbroken.1.not_mem (Or.inl (by decide))
      rw [List.map_cons, String.join_cons, String.toList_append, String.toList_append,
        List.count_append, List.count_append, List.count_eq_zero_of_not_mem hline, ih hunbroken.2,
        List.length_cons, Nat.zero_add, Nat.add_comm]
      rfl

namespace Log

def message (t : Token) : String :=
  if t.kind = .error then "Error token: " ++ t.lexeme else "Token: " ++ t.render

def tokenLine (t : Token) : String := "[DEBUG] spacefilter.tokenizer: " ++ message t

theorem record?_true (t : Token) : record? true t = some (message t) := by
  unfold record? message
  split <;> rfl

theorem lines_records (ts : List Token) :
    (records true ts).map line = (ts.map tokenLine).map (· ++ "\n") := by
  have hrecords : records true ts = ts.map message := by
    unfold records
    rw [funext record?_true]
    exact congrFun List.filterMap_eq_map' ts
  rw [hrecords, List.map_map, List.map_map]
  rfl

theorem inline_message {t : Token} (h : Lexer.ErrorInline t) : Inline (message t).toList := by
  unfold message
  split
  · next ht => exact inline_concat (inline_literal (by decide +kernel)) (h ht)
  · exact inline_concat (inline_literal (by decide +kernel)) t.inline_render

end Log

namespace Command

/-! ## Accounts of a run -/

variable {ts : List Token}

/-- The lines of the standard error for the last token: one where that is an error. -/
def finalLines (ts : List Token) : List String :=
  match ts.getLast? with
  | some t => if t.kind = .error then ["[error] " ++ t.lexeme] else []
  | none => []

/-- The lines of the standard error: those of the log, one for each token in their order, and
then the error. -/
def errorLines (verbose : Bool) (ts : List Token) : List String :=
  (if verbose then ts.map Log.tokenLine else []) ++ finalLines ts

structure Accounts (verbose : Bool) (ts : List Token) (r : Report) : Prop where
  /-- A line for each token, and one token at least: the last one, which alone ends the run. -/
  stdout : Legible r.stdout ts
  ends : EndsOnce ts
  success : r.exitCode = 0 ↔ ∃ t ∈ ts.getLast?, t.kind = .eof
  failure : r.exitCode = 1 ↔ ∃ t ∈ ts.getLast?, t.kind = .error
  stderr : IsLines r.stderr (errorLines verbose ts)
  messages : ∀ t ∈ ts, Inline (Log.message t).toList
  count : r.stderr.toList.count '\n' = (if verbose then ts.length else 0) + r.exitCode

/-- What `--verbose` adds to a report without it. -/
structure AddsLog (ts : List Token) (quiet loud : Report) : Prop where
  stdout : loud.stdout = quiet.stdout
  exitCode : loud.exitCode = quiet.exitCode
  stderr : loud.stderr = String.join (ts.map fun t => Log.tokenLine t ++ "\n") ++ quiet.stderr

theorem finalLines_concat (ts : List Token) (t : Token) :
    finalLines (ts ++ [t]) = if t.kind = .error then ["[error] " ++ t.lexeme] else [] := by
  unfold finalLines
  rw [List.getLast?_concat]

theorem lastError?_concat (ts : List Token) (t : Token) :
    lastError? (ts ++ [t]) = if t.kind = .error then some t else none := by
  unfold lastError?
  rw [List.getLast?_concat, Option.filter_some]
  simp

theorem stderr_ofTokens (verbose : Bool) (ts : List Token) :
    (Report.ofTokens verbose ts).stderr =
      String.join ((errorLines verbose ts).map (· ++ "\n")) := by
  have hfinal : (lastError? ts).toList.map errorLine = (finalLines ts).map (· ++ "\n") := by
    rcases List.eq_nil_or_concat' ts with rfl | ⟨init, last, rfl⟩
    · rfl
    · rw [lastError?_concat, finalLines_concat]
      split <;> rfl
  unfold errorLines
  rw [List.map_append, ← hfinal]
  cases verbose with
  | false => rfl
  | true =>
      rw [if_pos rfl, ← Log.lines_records]
      rfl

theorem unbroken_errorLines (verbose : Bool) (h : ∀ t ∈ ts, Lexer.ErrorInline t) :
    ∀ line ∈ errorLines verbose ts, Inline line.toList := by
  intro line hline
  rcases List.mem_append.mp hline with hline | hline
  · cases verbose with
    | false => cases hline
    | true =>
        obtain ⟨t, ht, rfl⟩ := List.mem_map.mp hline
        exact inline_concat (inline_literal (by decide +kernel)) (Log.inline_message (h t ht))
  · rcases List.eq_nil_or_concat' ts with rfl | ⟨init, last, rfl⟩
    · cases hline
    · rw [finalLines_concat] at hline
      split at hline
      · next herror =>
          rw [List.mem_singleton.mp hline]
          exact inline_concat (inline_literal (by decide +kernel))
            (h last List.mem_concat_self herror)
      · cases hline

theorem exitCode_concat (verbose : Bool) (ts : List Token) (t : Token) :
    (Report.ofTokens verbose (ts ++ [t])).exitCode = if t.kind = .error then 1 else 0 := by
  show (if (lastError? (ts ++ [t])).isSome then 1 else 0) = _
  rw [lastError?_concat]
  split <;> rfl

theorem exitCode_eq_one_iff (verbose : Bool) (ts : List Token) :
    (Report.ofTokens verbose ts).exitCode = 1 ↔ ∃ t ∈ ts.getLast?, t.kind = .error := by
  rcases List.eq_nil_or_concat' ts with rfl | ⟨init, last, rfl⟩
  · simp [Report.ofTokens, lastError?]
  · rw [exitCode_concat, List.getLast?_concat]
    simp

/-- The error is the one line that does not depend on `--verbose`, and decides on the exit. -/
theorem length_errorLines (verbose : Bool) (ts : List Token) (t : Token) :
    (errorLines verbose (ts ++ [t])).length =
      (if verbose then (ts ++ [t]).length else 0) +
        (Report.ofTokens verbose (ts ++ [t])).exitCode := by
  unfold errorLines
  rw [List.length_append, finalLines_concat, exitCode_concat]
  congr 1
  · cases verbose with
    | false => rfl
    | true => exact List.length_map ..
  · split <;> rfl

theorem accounts_ofTokens (verbose : Bool) (hends : EndsOnce ts)
    (hinline : ∀ t ∈ ts, Lexer.ErrorInline t) :
    Accounts verbose ts (Report.ofTokens verbose ts) := by
  have hlines : IsLines (Report.ofTokens verbose ts).stderr (errorLines verbose ts) :=
    ⟨stderr_ofTokens verbose ts, unbroken_errorLines verbose hinline⟩
  have hcount := hlines.count
  have hfailure := exitCode_eq_one_iff verbose ts
  obtain ⟨init, last, rfl, hlast, hinit⟩ := hends
  refine ⟨legible_stdout _ _, ⟨init, last, rfl, hlast, hinit⟩, ?success, hfailure, hlines,
    fun t ht => Log.inline_message (hinline t ht), hcount.trans (length_errorLines _ _ _)⟩
  rw [exitCode_concat, List.getLast?_concat]
  rcases hlast with h | h <;> simp [h]

theorem addsLog_ofTokens (ts : List Token) :
    AddsLog ts (Report.ofTokens false ts) (Report.ofTokens true ts) := by
  refine ⟨rfl, rfl, ?_⟩
  rw [stderr_ofTokens, stderr_ofTokens]
  unfold errorLines
  rw [if_pos rfl, List.map_append, String.join_append, List.map_map]
  rfl

/-! ## The command -/

variable {files : String → Lookup} {stdin : List UInt8} {feed : Feed}

/-- The report answers the arguments and accounts for the tokens; and so do the reports on all
arguments that ask for the same and for `--verbose`. -/
structure Accounted (arguments : List String) (files : String → Lookup) (stdin : List UInt8)
    (settings : Settings) (ts : List Token) (r : Report) : Prop where
  answers : answer arguments files stdin = .report r
  accounts : Accounts settings.verbose ts r
  louder : parse ("--verbose" :: arguments) = .ok settings.louder
  loud : ∀ arguments', parse arguments' = .ok settings.louder → ∃ r',
    answer arguments' files stdin = .report r' ∧ Accounts true ts r' ∧
      r'.stdout = r.stdout ∧ r'.exitCode = r.exitCode ∧
      (settings.verbose = false → AddsLog ts r r')

theorem accounted_report (hparse : parse arguments = .ok settings)
    (hfeed : settings.input.feed files stdin = .ok feed) :
    Accounted arguments files stdin settings (Lexer.run settings.options { feed }).tokens
      (settings.report feed) := by
  obtain ⟨hfault, hinline⟩ := Lexer.run_inline settings.options (feed_faultsInline hfeed)
  have hends := Lexer.run_endsOnce hfault
  have haccounts := fun verbose => accounts_ofTokens verbose hends hinline
  constructor
  case answers => exact answer_of_parse hparse hfeed
  case accounts => exact haccounts settings.verbose
  case louder => exact parse_louder hparse
  case loud =>
    intro arguments' hparse'
    refine ⟨_, answer_of_parse hparse' hfeed, haccounts true, rfl, rfl, ?_⟩
    intro hquiet
    unfold Settings.report
    rw [hquiet]
    exact addsLog_ofTokens _

theorem feed_of_readable (hparse : parse arguments = .ok settings)
    (hreadable : ∀ e, answer arguments files stdin ≠ .unreadable e) :
    ∃ feed, settings.input.feed files stdin = .ok feed := by
  cases hfeed : settings.input.feed files stdin with
  | ok feed => exact ⟨feed, rfl⟩
  | error e =>
      refine absurd ?_ (hreadable e)
      unfold answer
      rw [hparse]
      simp only [hfeed]

/-- **The command accounts for its tokens.** Where the arguments lead to a run and the input can
be opened, the standard output, the exit status and the standard error agree on the tokens, with
`--verbose` and without. -/
theorem answer_accounts (hparse : parse arguments = .ok settings)
    (hreadable : ∀ e, answer arguments files stdin ≠ .unreadable e) :
    ∃ feed r, settings.input.feed files stdin = .ok feed ∧
      (Lexer.run settings.options { feed }).fault = none ∧
      Accounted arguments files stdin settings (Lexer.run settings.options { feed }).tokens r := by
  obtain ⟨feed, hfeed⟩ := feed_of_readable hparse hreadable
  exact ⟨feed, settings.report feed, hfeed,
    (Lexer.run_inline settings.options (feed_faultsInline hfeed)).1, accounted_report hparse hfeed⟩

/-- A digit is missing behind the point, where a line ends; the message quotes the line feed. -/
theorem line_end_accounts :
    parse ["1.\n"] = .ok { input := .expression "1.\n" } ∧
      (∀ e, answer ["1.\n"] (fun _ => .problem .missing) [] ≠ .unreadable e) ∧
      ∃ feed r, (Input.expression "1.\n").feed (fun _ => .problem .missing) [] = .ok feed ∧
        (Lexer.run {} { feed }).fault = none ∧
        Accounted ["1.\n"] (fun _ => .problem .missing) [] { input := .expression "1.\n" }
          (Lexer.run {} { feed }).tokens r := by
  have hparse : parse ["1.\n"] = .ok { input := .expression "1.\n" } := rfl
  have hreadable : ∀ e, answer ["1.\n"] (fun _ => .problem .missing) [] ≠ .unreadable e := by
    rintro e ⟨⟩
  exact ⟨hparse, hreadable, answer_accounts hparse hreadable⟩

end Command

end FilterLex
