import Mathlib.Data.List.Basic
import Mathlib.Data.List.TakeDrop
import Mathlib.Tactic.Common
import ReminderFlow.CommandLine.Command

namespace ReminderFlow.CommandLine

def StartsWithHyphen (argument : String) : Prop := ∃ rest, argument.toList = '-' :: rest

/-- The argument is taken for a value, by the program itself and by its commands. -/
structure IsValue (argument : String) : Prop where
  noSeparator : argument ≠ "--"
  plain : ∀ p : Program, mark p.switches argument = .ok .plain

theorem startsWithHyphen_of_named {p : Program} {e : String × Switch} (h : e ∈ named p.switches) :
    StartsWithHyphen e.1 := by
  have hall : ∀ e ∈ named p.switches, e.1.toList.head? = some '-' := by
    cases p <;> decide
  obtain ⟨rest, heq⟩ := List.head?_eq_some_iff.1 (hall e h)
  exact ⟨rest, heq⟩

/-- Only what starts with a hyphen is the name of an option. -/
theorem lookup_named_eq_none {p : Program} {name : String} (h : ¬StartsWithHyphen name) :
    (named p.switches).lookup name = none := by
  rw [List.lookup_eq_none_iff]
  intro e he
  simp only [bne_iff_ne, ne_eq]
  rintro rfl
  exact h (startsWithHyphen_of_named he)

theorem not_startsWithHyphen_splitValue {argument : String} (h : ¬StartsWithHyphen argument) :
    ¬StartsWithHyphen (splitValue argument).1 := by
  rintro ⟨rest, heq⟩
  rw [splitValue, List.span_eq_takeWhile_dropWhile, String.toList_ofList] at heq
  obtain ⟨more, hprefix⟩ := List.takeWhile_prefix (l := argument.toList) fun c => c ≠ '='
  rw [heq] at hprefix
  exact h ⟨rest ++ more, hprefix.symm⟩

/-- What does not start with a hyphen is taken for a value. -/
theorem isValue_of_not_startsWithHyphen {argument : String} (h : ¬StartsWithHyphen argument) :
    IsValue argument := by
  refine ⟨?_, fun p => ?_⟩
  · rintro rfl
    exact h ⟨['-'], rfl⟩
  · have hstart : argument.startsWith "-" = false := by
      rw [Bool.eq_false_iff, ne_eq, String.startsWith_string_iff]
      rintro ⟨rest, heq⟩
      exact h ⟨rest, heq.symm⟩
    simp only [mark, lookup_named_eq_none h,
      lookup_named_eq_none (not_startsWithHyphen_splitValue h), hstart]
    rfl

theorem unpad_hyphen (rest : List Char) :
    ∃ body, Numeral.unpad ('-' :: rest) = '-' :: body := by
  have hhyphen : Numeral.isPadding '-' = false := by decide
  have hkept : ∀ s : List Char, ∃ body, ((s ++ ['-']).dropWhile Numeral.isPadding).reverse =
      '-' :: body := by
    intro s
    induction s with
    | nil => exact ⟨[], by simp [hhyphen]⟩
    | cons c s ih =>
      rw [List.cons_append, List.dropWhile_cons]
      split_ifs
      · exact ih
      · exact ⟨(c :: s).reverse, by simp⟩
  rw [Numeral.unpad, List.dropWhile_cons_of_neg (by simp [hhyphen]), List.reverse_cons]
  exact hkept rest.reverse

theorem plain?_hyphen {text : String} {s : List Char} (h : StartsWithHyphen text)
    (hs : Numeral.plain? text = some s) : ∃ body, s = '-' :: body := by
  obtain ⟨rest, htext⟩ := h
  obtain ⟨body, hbody⟩ := unpad_hyphen rest
  have hhyphen : Numeral.commonDigit '-' = '-' := by decide
  rw [Numeral.plain?, htext, hbody, List.map_cons, hhyphen,
    Numeral.dropSeparators.eq_3 _ _ _ (by simp), if_neg (by decide)] at hs
  obtain ⟨more, -, rfl⟩ := Option.map_eq_some_iff.1 hs
  exact ⟨more, rfl⟩

theorem zero_lt_finite_iff {negative : Bool} {rank : Fin Double.ranks} :
    (Number.whole 0).lt (.double (.finite negative rank)) = true ↔
      negative = false ∧ 0 < Double.unitsOf rank := by
  have hunits : (Number.whole 0).lt (.double (.finite negative rank)) =
      decide (0 * (twoTo Double.unitExponent : Int) < (Double.finite negative rank).scaled) := rfl
  rw [hunits, Int.zero_mul, decide_eq_true_iff]
  cases negative
  · simp only [Double.scaled, Bool.false_eq_true, if_false, true_and]
    omega
  · simp only [Double.scaled, if_true, Bool.true_eq_false, false_and, iff_false]
    omega

theorem not_lt_ofRank_negative (rank : Nat) :
    (Number.whole 0).lt (.double (Double.ofRank true rank)) = false := by
  unfold Double.ofRank
  split_ifs with hrank
  · rw [Bool.eq_false_iff, ne_eq, zero_lt_finite_iff]
    exact fun h => Bool.noConfusion h.1
  · rfl

theorem not_lt_ofDecimal_negative (mantissa : Nat) (exponent : Int) :
    (Number.whole 0).lt (.double (Double.ofDecimal true mantissa exponent)) = false := by
  unfold Double.ofDecimal
  split_ifs
  · exact not_lt_ofRank_negative 0
  · rfl
  · exact not_lt_ofRank_negative _
  · exact not_lt_ofRank_negative _

/-- What is written with a hyphen before it is not above zero. -/
theorem not_lt_double?_hyphen {body : List Char} {x : Double}
    (h : Numeral.double? ('-' :: body) = some x) : (Number.whole 0).lt (.double x) = false := by
  rw [Numeral.double?, Numeral.takeSign] at h
  dsimp only at h
  split_ifs at h
  · cases h
    rfl
  · cases h
    rfl
  · obtain ⟨power, -, rfl⟩ := Option.map_eq_some_iff.1 h
    exact not_lt_ofDecimal_negative _ _

/-- A number of seconds is finite and above zero. -/
theorem seconds_eq_ok {text : String} {x : Double} (h : seconds text = .ok x) :
    Numeral.commandDouble? text = some x ∧ x.isFinite = true ∧
      (Number.whole 0).lt (.double x) = true := by
  unfold seconds at h
  split at h
  · cases h
  · rename_i y hy
    split_ifs at h with hgood
    cases h
    exact ⟨hy, Bool.and_eq_true_iff.1 hgood⟩

theorem not_startsWithHyphen_of_seconds {text : String} {x : Double} (h : seconds text = .ok x) :
    ¬StartsWithHyphen text := by
  intro hhyphen
  obtain ⟨hread, -, hpositive⟩ := seconds_eq_ok h
  obtain ⟨s, hs, hdouble⟩ := Option.bind_eq_some_iff.1 hread
  obtain ⟨body, rfl⟩ := plain?_hyphen hhyphen hs
  rw [not_lt_double?_hyphen hdouble] at hpositive
  cases hpositive

theorem marked_of_mark {switches : List Switch} {argument : String} {m : Mark}
    (hne : argument ≠ "--") (h : mark switches argument = .ok m) (rest : List String) :
    marked switches (argument :: rest) = (marked switches rest).map ((argument, m) :: ·) := by
  rw [marked]
  · rw [h]
    rfl
  · exact hne

/-- The program itself does not know the options of a run. -/
theorem mark_main {argument : String} (h : argument ∈ ["--input", "--timeout-seconds"]) :
    mark Program.main.switches argument = .ok .unknown := by
  have hnone : (named Program.main.switches).lookup argument = none := by
    revert h argument
    decide +kernel
  have hname : splitValue argument = (argument, none) := by
    revert h argument
    decide +kernel
  have hnegative : isNegative argument = false := by
    revert h argument
    decide +kernel
  have hcandidates : candidates Program.main.switches argument = [] := by
    rcases List.mem_pair.1 h with rfl | rfl <;>
      simp [candidates, hname, named, Program.switches, Program.helpSwitch, Program.versionSwitch,
        String.startsWith_string_iff]
  rcases List.mem_pair.1 h with rfl | rfl <;>
    simp [mark, hname, hnone, hcandidates, hnegative]

section

variable {input text : String} (hinput : IsValue input) (htext : IsValue text)
include hinput htext

/-- The program itself only finds the name of the command, and leaves the rest to it. -/
theorem read_main : Options.read .main ["run", "--input", input, "--timeout-seconds", text] =
    .ok ({}, { command := ["run", "--input", input, "--timeout-seconds", text] }) := by
  have hrun : IsValue "run" := isValue_of_not_startsWithHyphen fun ⟨_, heq⟩ => by cases heq
  have hmarked : marked Program.main.switches
      ["run", "--input", input, "--timeout-seconds", text] =
        .ok [("run", .plain), ("--input", .unknown), (input, .plain),
          ("--timeout-seconds", .unknown), (text, .plain)] := by
    rw [marked_of_mark hrun.noSeparator (hrun.plain .main),
      marked_of_mark (by decide) (mark_main (by simp)),
      marked_of_mark hinput.noSeparator (hinput.plain .main),
      marked_of_mark (by decide) (mark_main (by simp)),
      marked_of_mark htext.noSeparator (htext.plain .main)]
    rfl
  rw [Options.read, scanAll, hmarked]
  rfl

theorem read_run {x : Double} (hseconds : seconds text = .ok x) :
    Options.read .run ["--input", input, "--timeout-seconds", text] =
      .ok ({ input := some input, timeout := some x },
        { uses := [⟨Program.inputSwitch, some input⟩, ⟨Program.timeoutSwitch, some text⟩] }) := by
  have hmarked : marked Program.run.switches ["--input", input, "--timeout-seconds", text] =
      .ok [("--input", .switch Program.inputSwitch none), (input, .plain),
        ("--timeout-seconds", .switch Program.timeoutSwitch none), (text, .plain)] := by
    rw [marked_of_mark (by decide) (m := .switch Program.inputSwitch none) rfl,
      marked_of_mark hinput.noSeparator (hinput.plain .run),
      marked_of_mark (by decide) (m := .switch Program.timeoutSwitch none) rfl,
      marked_of_mark htext.noSeparator (htext.plain .run)]
    rfl
  have hfound : scan Program.run.switches (Program.run = .main)
      [("--input", .switch Program.inputSwitch none), (input, .plain),
        ("--timeout-seconds", .switch Program.timeoutSwitch none), (text, .plain)] =
      { uses := [⟨Program.inputSwitch, some input⟩, ⟨Program.timeoutSwitch, some text⟩] } := rfl
  have htimeout : Options.apply .run { input := some input } ⟨Program.timeoutSwitch, some text⟩ =
      .ok { input := some input, timeout := some x } := by
    simp only [Options.apply, Option.getD_some, hseconds]
    rfl
  have hoptions : [⟨Program.inputSwitch, some input⟩, ⟨Program.timeoutSwitch, some text⟩].foldlM
      (Options.apply .run) {} = .ok { input := some input, timeout := some x } := by
    show [⟨Program.timeoutSwitch, some text⟩].foldlM (Options.apply .run) { input := some input } = _
    rw [List.foldlM_cons, htimeout]
    rfl
  simp only [Options.read, scanAll, hmarked, hfound]
  rw [hoptions]
  rfl

end

/-- A run with an input and a number of seconds is named as it is meant. -/
theorem Command.parse_run {input text : String} {x : Double} (hinput : IsValue input)
    (hseconds : seconds text = .ok x) :
    parse ["run", "--input", input, "--timeout-seconds", text] = .ok (.run input (some x)) := by
  have htext := isValue_of_not_startsWithHyphen (not_startsWithHyphen_of_seconds hseconds)
  simp only [parse, read_main hinput htext]
  show Except.bind (Options.read .run ["--input", input, "--timeout-seconds", text]) _ = _
  rw [read_run hinput htext hseconds]
  rfl

end ReminderFlow.CommandLine
