import ReminderFlow.Proofs.CommandLine.Command
import ReminderFlow.Proofs.CommandLine.Launch
import ReminderFlow.Proofs.Json.LongNumber
import ReminderFlow.Proofs.Record

namespace ReminderFlow

/-- The built-in machine is run, reminders are only logged, there are workers, and the level of the
log is one that there is. -/
structure Settings.IsDry (c : Settings) : Prop where
  builtIn : c.definitionPath = none
  email : c.emailMode = .log
  sms : c.smsMode = .log
  staffed : 0 < c.workers
  level : (Log.threshold? c.logLevel).isSome = true

def Settings.defaults : Settings where
  logLevel := "INFO"
  executionTimeout := Double.ofInt 300
  statePath := "reminder_state"
  definitionPath := none
  workers := 8
  emailMode := .log
  emailUrl := ""
  smsMode := .log
  smsUrl := ""
  webhookTimeout := Double.ofInt 30
  verifiedEmail := ""

theorem Settings.isDry_defaults : defaults.IsDry := ⟨rfl, rfl, rfl, by decide, by decide +kernel⟩

theorem Settings.read_of_unset {s : Source} (h : ∀ name, s.value? name = none) :
    read s = .valid defaults := by
  have hdefault {α : Type} (name : String) (default : α)
      (check : List String → String → Checked α) : s.field name default check = .valid default := by
    rw [Source.field, h]
  simp only [read, fields, hdefault]
  rfl

namespace CommandLine

/-- All executors of the registry only log. -/
def OnlyLogs (r : Registry) : Prop := ∀ e ∈ r.executors, ∃ n : Notifier, e.2 = n.executor

theorem OnlyLogs.isPrompt {r : Registry} (h : OnlyLogs r) : r.IsPrompt := by
  intro name executor hget i v
  obtain ⟨n, hn⟩ := h _ (Members.mem_of_lookup hget)
  obtain rfl : executor = n.executor := hn
  obtain ⟨f, hf⟩ := n.isFunction_executor
  exact (hf i v).2

theorem OnlyLogs.isPlain {r : Registry} (h : OnlyLogs r) : r.IsPlain := by
  rintro name input reply ⟨executor, i, hget, rfl⟩
  obtain ⟨n, hn⟩ := h _ (Members.mem_of_lookup hget)
  obtain rfl : executor = n.executor := hn
  exact n.exists_given input

/-- Channels that only log have executors. -/
theorem exists_registry {c : Settings} (h : c.IsDry) (network : Network) :
    ∃ r, (Channels.ofSettings c).registry network = .ok r ∧ OnlyLogs r ∧
      r.contains Machine.emailExecutor = true ∧ r.contains Machine.smsExecutor = true := by
  have hlog (name recipientField url sender : String) (timeout : Double) :
      Channel.executor ⟨name, recipientField, ChannelMode.log.name, url, timeout, sender⟩ network =
        .ok (Notifier.executor ⟨name, recipientField, sender⟩) := by
    rw [Channel.executor, ChannelMode.lookup_name]
  refine ⟨⟨[(Machine.emailExecutor, Notifier.executor ⟨"email", "email", c.verifiedEmail⟩),
    (Machine.smsExecutor, Notifier.executor ⟨"sms", "phone", ""⟩)]⟩, ?_, fun e he => ?_, rfl, rfl⟩
  · simp only [Channels.ofSettings, h.email, h.sms, Channels.registry, hlog]
    rfl
  · rcases List.mem_pair.1 he with rfl | rfl <;> exact ⟨_, rfl⟩

/-- The input is found, is UTF-8, and its text is read as the value. -/
def Holds (s : Surroundings) (input : String) (v : Value) : Prop :=
  ∃ text, inputText s input = .ok text ∧ s.room.reads text = true ∧ Json.read text = .ok v

/-- There is no value in the input. If it is not there, or is no JSON, the report says so. The
command breaks down over bytes that are no text, a whole number of too many digits and a text that
the stack has no room to read. Half of a surrogate pair is no fault of an input, but no value here
can hold it, and nothing is said of what comes of it. -/
inductive Misreads (s : Surroundings) (input : String) (r : Report) : Prop
  | missing {fault : FileFault} (found : inputText s input = .error fault) (other : fault ≠ .notUtf8)
      (refuses : r.Refuses (fault.message (FilePath.normal input)))
  | notUtf8 (found : inputText s input = .error .notUtf8) (breaks : r.BreaksDown .inputNotUtf8)
  | tooDeep {text : String} (found : inputText s input = .ok text)
      (deep : s.room.reads text = false) (breaks : r.BreaksDown .inputTooDeep)
  | malformed {text : String} {fault : Json.Fault} {offset : Nat}
      (found : inputText s input = .ok text) (read : Json.read text = .error (.malformed fault offset))
      (refuses : r.Refuses (fault.message text offset))
  | longNumber {text : String} {digits : Nat} (found : inputText s input = .ok text)
      (read : Json.read text = .error (.integerTooLong digits))
      (long : Json.HasLongNumber text.toList digits)
      (breaks : r.BreaksDown (.inputNumberTooLong digits))
  | halfPair {text : String} (found : inputText s input = .ok text)
      (read : Json.read text = .error .halfPair)

/-- An input either holds a value or is reported on. -/
theorem readInput_cases (s : Surroundings) (input : String) (log : List Log.Record) :
    (∃ v, readInput s input log = .ok v ∧ Holds s input v) ∨
      ∃ r, readInput s input log = .error r ∧ Misreads s input r := by
  cases hfound : inputText s input with
  | error fault =>
    refine .inr ?_
    by_cases hutf8 : fault = .notUtf8
    · subst hutf8
      exact ⟨_, by rw [readInput, hfound], .notUtf8 hfound (breaksDown_ofFault _ log)⟩
    · refine ⟨_, ?_, .missing hfound hutf8 (refuses_ofBadInput _ log)⟩
      rw [readInput, hfound]
      cases fault <;> first | rfl | exact absurd rfl hutf8
  | ok text =>
    cases hroom : s.room.reads text with
    | false =>
      refine .inr ⟨_, ?_, .tooDeep hfound hroom (breaksDown_ofFault _ log)⟩
      simp only [readInput, hfound, hroom, Bool.false_eq_true, if_false]
    | true =>
      cases hread : Json.read text with
      | ok v =>
        refine .inl ⟨v, ?_, text, hfound, hroom, hread⟩
        simp only [readInput, hfound, hroom, hread, if_true]
      | error e =>
        refine .inr ?_
        cases e with
        | malformed fault offset =>
          refine ⟨_, ?_, .malformed hfound hread (refuses_ofBadInput _ log)⟩
          simp only [readInput, hfound, hroom, hread, if_true]
        | integerTooLong digits =>
          refine ⟨_, ?_, .longNumber hfound hread (Json.hasLongNumber_of_read hread)
            (breaksDown_ofFault _ log)⟩
          simp only [readInput, hfound, hroom, hread, if_true]
        | halfPair =>
          refine ⟨.ofFault .inputHalfPair log, ?_, .halfPair hfound hread⟩
          simp only [readInput, hfound, hroom, hread, if_true]

theorem limit?_float {x : Double} (h : (Number.whole 0).lt (.double x) = true) :
    (Datum.float x).limit? = .ok (.double x) := by
  cases x with
  | nan => cases h
  | infinite negative =>
    cases negative
    · rfl
    · cases h
  | finite negative rank =>
    obtain ⟨rfl, hunits⟩ := zero_lt_finite_iff.1 h
    have hnegative : (Number.double (.finite false rank)).lt (.whole 0) = false := by
      have hscaled : (Number.double (.finite false rank)).lt (.whole 0) =
          decide ((Double.unitsOf rank : Int) < 0 * (twoTo Double.unitExponent : Int)) := rfl
      rw [hscaled, Int.zero_mul, decide_eq_false_iff_not]
      omega
    have hzero : (Double.finite false rank).isZero = false := by
      refine decide_eq_false fun hrank => ?_
      rw [hrank] at hunits
      cases hunits
    rw [Datum.limit?, hnegative, hzero]
    rfl

/-- A number of seconds is a time limit. -/
theorem isLimit_of_seconds {text : String} {x : Double} (h : seconds text = .ok x) :
    (Datum.float x).IsLimit (.double x) := by
  obtain ⟨-, hfinite, hpositive⟩ := seconds_eq_ok h
  exact ⟨limit?_float hpositive, hfinite⟩

section

variable {s : Surroundings} {c : Settings} {registry : Registry}

/-- With such settings nothing but the input and the start can go wrong. -/
theorem launch_eq (hdry : c.IsDry)
    (hregistry : (Channels.ofSettings c).registry s.network = .ok registry) (threshold : Nat)
    (input : String) (timeout : Double) :
    let log := [(Channels.ofSettings c).record]
    launch s c threshold input (some timeout) = (readInput s input []).bind fun v =>
      if s.room.walks (.ofValue v) then
        match (s.scheduler c registry).start (s.id 0) (some Machine.reminder) (.ofValue v)
            (.float timeout) with
        | .ok scheduler => .ok ⟨s.id 0, scheduler, log, threshold, c.executionsPath⟩
        | .error e => .error (.ofFault (.start e) log)
      else .error (.ofFault .inputTooDeep log) := by
  have hmachine : s.machine c = .ok (Machine.reminder, []) := by
    rw [Surroundings.machine, hdry.builtIn]
    rfl
  simp only [launch, hmachine, hregistry]
  show (readInput s input []).bind _ = _
  cases readInput s input [] with
  | error r => rfl
  | ok v =>
    rw [Except.bind.eq_2, Except.bind.eq_2]
    cases hroom : s.room.walks (.ofValue v) with
    | false => rfl
    | true =>
      show (((s.scheduler c registry).start (s.id 0) (some Machine.reminder) (.ofValue v)
        (.float timeout)).mapError _).bind _ = _
      cases (s.scheduler c registry).start (s.id 0) (some Machine.reminder) (.ofValue v)
        (.float timeout) <;> rfl

theorem instant_scheduler : (s.scheduler c registry).instant = s.now := by
  simp [Scheduler.instant, Surroundings.scheduler, Scheduler.make]

/-- An engine that has just been set up has no executions, and none is planned. -/
theorem calm_scheduler (hdry : c.IsDry) (hprompt : registry.IsPrompt) (id : String) :
    (s.scheduler c registry).Calm id where
  queued := rfl
  held := rfl
  staffed := hdry.staffed
  prompt := hprompt
  takes := rfl
  unclosed := rfl
  alone _ _ := rfl
  ready _ h := by cases h
  timers _ h := by cases h

end

namespace Plan

/-- What a run with an input and a number of seconds comes to, under the given settings. -/
inductive ComesOf (s : Surroundings) (c : Settings) (input : String) (timeout : Double) : Plan → Prop
  /-- There is no value in the input. -/
  | misread {r : Report} (misreads : Misreads s input r) : ComesOf s c input timeout (done r)
  /-- The stack has no room to go through the input. -/
  | tooDeep {v : Value} {r : Report} (holds : Holds s input v)
      (deep : s.room.walks (.ofValue v) = false) (breaks : r.BreaksDown .inputTooDeep) :
      ComesOf s c input timeout (done r)
  /-- The input holds a number that is not finite. -/
  | notFinite {v : Value} {x : Double} {r : Report} (holds : Holds s input v)
      (held : v.HoldsNonFinite) (beyond : x.isFinite = false)
      (breaks : r.BreaksDown (.start (.input (.nonFinite x)))) : ComesOf s c input timeout (done r)
  /-- The deadline lies beyond the calendar. -/
  | beyondCalendar {v : Value} {micros : Nat} {r : Report} (holds : Holds s input v)
      (finite : ¬v.HoldsNonFinite) (limit : (Number.double timeout).micros? = .ok micros)
      (beyond : s.now.after? micros = none) (breaks : r.BreaksDown (.start (.limit .tooLong))) :
      ComesOf s c input timeout (done r)
  | execution {v : Value} {registry : Registry} {l : Launch} {n : Nat} {o : Outcome}
      (holds : Holds s input v) (finite : ¬v.HoldsNonFinite)
      (channels : (Channels.ofSettings c).registry s.network = .ok registry)
      (ends : l.RunsToEnd (s.scheduler c registry) v timeout n o)
      (reports : (l.upTo n).Reports s.pace.turn o) : ComesOf s c input timeout (execution l)

variable {s : Surroundings} {c : Settings} {input : String} {timeout : Double}

theorem breaksDown_limited {r : Report} {f : Fault} (h : r.BreaksDown f) (threshold : Nat) :
    (r.limited threshold).BreaksDown f := ⟨h.ending, h.output, h.errors⟩

theorem refuses_limited {r : Report} {reason : String} (h : r.Refuses reason) (threshold : Nat) :
    (r.limited threshold).Refuses reason := ⟨h.ending, h.output, h.errors⟩

/-- What is left out of the log leaves the rest of a report as it is. -/
theorem ComesOf.limited {p : Plan} (h : ComesOf s c input timeout p) (threshold : Nat) :
    ComesOf s c input timeout (p.limited threshold) := by
  cases h with
  | misread misreads =>
    refine .misread ?_
    cases misreads with
    | missing found other refuses => exact .missing found other (refuses_limited refuses _)
    | notUtf8 found breaks => exact .notUtf8 found (breaksDown_limited breaks _)
    | tooDeep found deep breaks => exact .tooDeep found deep (breaksDown_limited breaks _)
    | malformed found read refuses => exact .malformed found read (refuses_limited refuses _)
    | longNumber found read long breaks =>
      exact .longNumber found read long (breaksDown_limited breaks _)
    | halfPair found read => exact .halfPair found read
  | tooDeep holds deep breaks => exact .tooDeep holds deep (breaksDown_limited breaks _)
  | notFinite holds held beyond breaks =>
    exact .notFinite holds held beyond (breaksDown_limited breaks _)
  | beyondCalendar holds finite limit beyond breaks =>
    exact .beyondCalendar holds finite limit beyond (breaksDown_limited breaks _)
  | execution holds finite channels ends reports => exact .execution holds finite channels ends reports

theorem comesOf_launch (hdry : c.IsDry) (hlimit : (Datum.float timeout).IsLimit (.double timeout))
    (threshold : Nat) :
    ComesOf s c input timeout (ofLaunch (launch s c threshold input (some timeout))) := by
  obtain ⟨registry, hregistry, hlogs, hemail, hsms⟩ := exists_registry hdry s.network
  rw [launch_eq hdry hregistry]
  obtain ⟨v, hread, hholds⟩ | ⟨r, hread, hmisreads⟩ := readInput_cases s input []
  · rw [hread, Except.bind.eq_2]
    cases hroom : s.room.walks (.ofValue v) with
    | false => exact .tooDeep hholds hroom (breaksDown_ofFault _ _)
    | true =>
      rw [if_pos rfl]
      obtain ⟨e, hdoc, hstart⟩ | ⟨doc, micros, hdoc, hmicros, ⟨hafter, hstart⟩ | ⟨started, hstart⟩⟩ :=
        Trigger.start_cases (s := s.scheduler c registry) rfl (s.id 0) Machine.reminder (.ofValue v)
          hlimit
      · rw [hstart]
        obtain ⟨hheld, x, rfl, hx⟩ := Datum.holdsNonFinite_of_toValue v (map_eq_error_iff.1 hdoc)
        exact .notFinite hholds hheld hx (breaksDown_ofFault _ _)
      · rw [hstart]
        exact .beyondCalendar hholds (Datum.not_holdsNonFinite_of_ofDatum hdoc) hmicros
          (instant_scheduler ▸ hafter) (breaksDown_ofFault _ _)
      · rw [hstart]
        obtain ⟨n, o, hends, hreports⟩ := Launch.runsToEnd
          (l := ⟨s.id 0, started, [(Channels.ofSettings c).record], threshold, c.executionsPath⟩)
          (Scheduler.sound_make _ _ _ _) (calm_scheduler hdry hlogs.isPrompt _) rfl rfl rfl
          hlogs.isPlain hemail hsms hstart
        exact .execution hholds (Datum.not_holdsNonFinite_of_ofDatum hdoc) hregistry hends hreports
  · rw [hread]
    exact .misread hmisreads

theorem make_run {text : String} {threshold : Nat} (hread : Settings.read s.source = .valid c)
    (hthreshold : Log.threshold? c.logLevel = some threshold) (hinput : IsValue input)
    (hseconds : seconds text = .ok timeout) :
    make s ["run", "--input", input, "--timeout-seconds", text] =
      (ofLaunch (launch s c threshold input (some timeout))).limited threshold := by
  simp only [make, Command.parse_run hinput hseconds, hread, hthreshold]
  rfl

/-- With settings under which reminders are only logged, a run with an input and a number of seconds
comes to one of these ends, whatever the input holds. -/
theorem run_ends {text : String} (hread : Settings.read s.source = .valid c) (hdry : c.IsDry)
    (hinput : IsValue input) (hseconds : seconds text = .ok timeout) :
    ComesOf s c input timeout
      (make s ["run", "--input", input, "--timeout-seconds", text]) := by
  obtain ⟨threshold, hthreshold⟩ := Option.isSome_iff_exists.1 hdry.level
  rw [make_run hread hthreshold hinput hseconds]
  exact (comesOf_launch hdry (isLimit_of_seconds hseconds) threshold).limited threshold

def lone (text : String) : Surroundings where
  environment := []
  files := fun name => if name = "r" then some (.ofText text) else none
  input := ""
  folder := fun _ => .absent
  network := fun _ => .failed "There is no network"
  room := .ample
  codec := .usual
  pace := .usual
  now := .ofUnixMicros 0
  id := fun _ => "e"

theorem read_lone (text : String) : Settings.read (lone text).source = .valid .defaults :=
  Settings.read_of_unset fun _ => rfl

theorem holds_lone {text : String} {v : Value} (hplain : '\r' ∉ text.toList)
    (hread : Json.read text = .ok v) : Holds (lone text) "r" v := by
  have hsplit : "r".splitOn "/" = ["r"] := by
    rw [String.splitOn, if_neg (by decide), String.splitOnAux, if_neg (by decide +kernel),
      if_neg (by decide +kernel), String.splitOnAux, if_pos (by decide +kernel)]
    decide +kernel
  have hname : FilePath.normal "r" = "r" := by
    rw [FilePath.normal, FilePath.parts, hsplit]
    decide +kernel
  refine ⟨text, ?_, rfl, hread⟩
  rw [inputText, if_neg (by decide), hname]
  exact Entry.readText_ofText hplain

theorem isValue_r : IsValue "r" := isValue_of_not_startsWithHyphen fun ⟨_, heq⟩ => by cases heq

theorem exists_seconds : ∃ x, seconds "5" = .ok x := ⟨_, eq_ok_get (by decide +kernel)⟩

theorem run_ends_faxed :
    let s := lone "\x7b\"waitSeconds\": 0, \"preference\": \"fax\"\x7d"
    ∃ x, Settings.read s.source = .valid .defaults ∧ Settings.defaults.IsDry ∧ IsValue "r" ∧
      seconds "5" = .ok x ∧ ComesOf s .defaults "r" x
        (make s ["run", "--input", "r", "--timeout-seconds", "5"]) := by
  obtain ⟨x, hseconds⟩ := exists_seconds
  exact ⟨x, read_lone _, Settings.isDry_defaults, isValue_r, hseconds,
    run_ends (read_lone _) Settings.isDry_defaults isValue_r hseconds⟩

/-- Over a number that is not finite a run breaks down before anything is started. -/
theorem ComesOf.breaksDown {p : Plan} (h : ComesOf s c input timeout p) {v : Value}
    (hholds : Holds s input v) (hheld : v.HoldsNonFinite) :
    ∃ r f, p = done r ∧ r.BreaksDown f := by
  obtain ⟨text, hfound, hroom, hread⟩ := hholds
  have hsame {w : Value} (h : Holds s input w) : w = v := by
    obtain ⟨text', hfound', -, hread'⟩ := h
    cases hfound.symm.trans hfound'
    exact Except.ok.inj (hread'.symm.trans hread)
  cases h with
  | misread misreads =>
    cases misreads with
    | missing found => cases hfound.symm.trans found
    | notUtf8 found => cases hfound.symm.trans found
    | tooDeep found deep breaks => exact ⟨_, _, rfl, breaks⟩
    | malformed found read =>
      cases hfound.symm.trans found
      cases hread.symm.trans read
    | longNumber found read =>
      cases hfound.symm.trans found
      cases hread.symm.trans read
    | halfPair found read =>
      cases hfound.symm.trans found
      cases hread.symm.trans read
  | tooDeep holds deep breaks => exact ⟨_, _, rfl, breaks⟩
  | notFinite holds held beyond breaks => exact ⟨_, _, rfl, breaks⟩
  | beyondCalendar holds finite => exact absurd hheld (hsame holds ▸ finite)
  | execution holds finite => exact absurd hheld (hsame holds ▸ finite)

/-- Not every run that comes to nothing ends with a code, though nothing is set. -/
theorem not_always_exits :
    ¬∀ (s : Surroundings) (input text : String) (timeout : Double) (r : Report),
      Settings.read s.source = .valid .defaults → IsValue input → seconds text = .ok timeout →
      make s ["run", "--input", input, "--timeout-seconds", text] = done r →
      ∃ code, r.ending = .exit code := by
  intro h
  obtain ⟨x, hseconds⟩ := exists_seconds
  let s := lone "\x7b\"a\": NaN\x7d"
  obtain ⟨threshold, hthreshold⟩ := Option.isSome_iff_exists.1 Settings.isDry_defaults.level
  have hcomes : ComesOf s .defaults "r" x
      (make s ["run", "--input", "r", "--timeout-seconds", "5"]) := by
    rw [make_run (read_lone _) hthreshold isValue_r hseconds]
    exact (comesOf_launch Settings.isDry_defaults (isLimit_of_seconds hseconds) threshold).limited _
  have hholds : Holds s "r" (.obj [("a", .float .nan)]) := holds_lone (by decide) rfl
  obtain ⟨r, f, hr, hbreaks⟩ :=
    hcomes.breaksDown hholds (.member (m := ("a", .float .nan)) List.mem_cons_self (.float rfl))
  obtain ⟨code, hcode⟩ := h s "r" "5" x r (read_lone _) isValue_r hseconds hr
  cases hcode.symm.trans hbreaks.ending

end Plan

end CommandLine

end ReminderFlow
