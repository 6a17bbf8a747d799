import Chip8.Proofs.ExitStatus
import Chip8.Proofs.Flags
import Chip8.Proofs.Log

/-!
# What verbosity and pacing change

A line of the log begins with its level (`Level.ofLine?`). A log that goes down to some level has
the lines of the levels up to that one (`Level.upTo`), so it can be told from the lines of a deeper
log, which it is a part of (`CommandLine.logLines_eq_filter`). A rate is recorded once, where a run
starts, and the cycles and the end of the run do not depend on it (`Session.run_rate`).

The program hence leaves the same for every level and every rate, but for the lines that its log
does not go down to and one line that states the period (`CommandLine.execute_flags`). A line of
another record is never taken for that one (`CommandLine.line_ne_periodLine`). The picture is that
of the machine in the end, if it is asked for (`CommandLine.pictures_execute`).

`CommandLine.run_flags` puts this together, and says it last of the command line, for the flags that
ask for a level and a rate.
-/

namespace Chip8

/-! ## The level of a line -/

namespace Level

/-- The levels whose records a log shows that goes down to a level. -/
def upTo : Level → List Level
  | error => [error]
  | warning => [error, warning]
  | info => [error, warning, info]
  | debug => [error, warning, info, debug]
  | trace => [error, warning, info, debug, trace]

theorem shownAt_eq (level threshold : Level) :
    level.shownAt threshold = decide (level ∈ threshold.upTo) := by
  cases level <;> cases threshold <;> rfl

/-- The level that a line of the log begins with, filled up to five characters. -/
def ofLine? (line : String) : Option Level :=
  match String.ofList (line.toList.take 5) with
  | "ERROR" => some error
  | "WARN " => some warning
  | "INFO " => some info
  | "DEBUG" => some debug
  | "TRACE" => some trace
  | _ => none

/-- The line is one of those that a log down to `threshold` shows. -/
def shows (threshold : Level) (line : String) : Bool :=
  (ofLine? line).any (· ∈ threshold.upTo)

end Level

namespace CommandLine

/-- A record is of the level that its line begins with. -/
theorem ofLine?_line (n : Notice) : Level.ofLine? n.line = some n.level := by
  have hpad : n.line.toList.take 5 = n.level.name.toList.rightpad 5 ' ' := by
    have hlen : (n.level.name.toList.rightpad 5 ' ').length = 5 := by
      cases n.level <;> rfl
    simp only [Notice.line, String.toList_append, String.toList_ofList, List.append_assoc]
    exact List.take_left' hlen
  rw [Level.ofLine?, hpad]
  cases n.level <;> rfl

theorem shows_line (threshold : Level) (n : Notice) :
    threshold.shows n.line = n.level.shownAt threshold := by
  rw [Level.shows, ofLine?_line, Level.shownAt_eq]
  rfl

theorem shows_trace (n : Notice) : Level.trace.shows n.line = true := by
  rw [shows_line]
  cases n.level <;> rfl

/-- A log that goes down to some level shows the lines of that level and of those above it. -/
theorem logLines_eq_filter (threshold : Level) (notices : List Notice) :
    logLines threshold notices = (notices.map Notice.line).filter threshold.shows := by
  rw [List.filter_map, logLines]
  refine congrArg _ (List.filter_congr fun n _ => ?_)
  rw [Function.comp_apply, shows_line]

/-- The line that states the period of a rate. -/
def periodLine (rate : UInt32) : String :=
  "DEBUG [minichip::runner] one instruction every " ++ (Period.ofRate rate).text

/-- The line tells the period. -/
theorem periodLine_inj {rate rate' : UInt32} :
    periodLine rate = periodLine rate' ↔ Period.ofRate rate = Period.ofRate rate' :=
  (String.append_right_inj _).trans Period.text_inj

theorem line_paced (rate : UInt32) :
    (Notice.event (.paced (Period.ofRate rate))).line = periodLine rate := by
  have hpad : ∀ text, String.ofList (Level.debug.name.toList.rightpad 5 ' ') ++ " [" ++
      "minichip::runner" ++ "] " ++ ("one instruction every " ++ text) =
        "DEBUG [minichip::runner] one instruction every " ++ text := by
    intro text
    refine String.toList_inj.1 ?_
    simp [Level.name, List.rightpad]
  exact hpad _

/-- No other record has a line that states a period. -/
theorem line_ne_periodLine {n : Notice} (hn : ∀ period, n ≠ .event (.paced period))
    (rate : UInt32) : n.line ≠ periodLine rate := by
  intro he
  have hdebug : n.level = .debug := by
    have hlevel := ofLine?_line n
    rw [he, ← line_paced, ofLine?_line] at hlevel
    exact (Option.some.inj hlevel).symm
  -- Of the records of this level only those of a run come from the runner.
  have hsource : n.source = "minichip::memory" ∨ n.source = "minichip::emulator" := by
    cases n with
    | fileRead | unreadable | refused => exact nomatch hdebug
    | event e =>
      cases e with
      | paced period => exact (hn period rfl).elim
      | imageLoaded => exact Or.inl rfl
      | called | returned => exact Or.inr rfl
      | fetched | cancelled | budgetReached | halted => exact nomatch hdebug
  have hrunner : n.line.toList[17]? = some 'r' := by
    have hletter : ∀ text, ("DEBUG [minichip::runner] one instruction every " ++ text).toList[17]? =
        some 'r' := fun text => by simp
    rw [he]
    exact hletter _
  rw [Notice.line, hdebug] at hrunner
  rcases hsource with hs | hs <;> rw [hs] at hrunner <;>
    simp [Level.name, List.rightpad] at hrunner

end CommandLine

/-! ## The records of a run -/

namespace Machine

variable {m : Machine} {period : Period}

theorem paced_not_mem_stepEvents : .paced period ∉ m.stepEvents :=
  fun h => nomatch isOfCycle_of_mem_stepEvents h

theorem paced_not_mem_recounted (n : Nat) : .paced period ∉ m.recounted n :=
  fun h => nomatch isOfCycle_of_mem_recounted h

theorem paced_not_mem_closing (result : Except Fault Ending) :
    .paced period ∉ m.closing result := by
  rcases result with fault | ending
  · simp [closing, paced_not_mem_stepEvents]
  · cases ending <;> simp [closing]

end Machine

namespace Session

variable {σ : Type}

/-- A rate adds a record in front of the log of a run and changes nothing else, neither the result
nor the machine nor the other records, of which none tells of a rate. -/
theorem run_rate (c : Control) (o : Observer σ) (m : Machine) (view : σ) :
    (run c o m view).result = (run { c with rate := none } o m view).result ∧
      (run c o m view).session.machine = (run { c with rate := none } o m view).session.machine ∧
      (run c o m view).session.log.toList =
        c.opening ++ (run { c with rate := none } o m view).session.log.toList ∧
      ∀ period, .paced period ∉ (run { c with rate := none } o m view).session.log.toList := by
  obtain ⟨n, hn⟩ := exists_endsAfter_finish o (start c m view)
  -- Both runs go through the same rounds, as the observer answers alike.
  have halike : Alike (start c m view) (start { c with rate := none } m view) := ⟨rfl, rfl, rfl⟩
  obtain ⟨report, hreport, hresult, hmachine⟩ := hn.of_alike halike rfl
  have hfree : run { c with rate := none } o m view = report := hreport.finish_eq
  have hlog := hn.log_eq
  have hfreelog := hreport.log_eq
  rw [Control.opening, Option.map_none, Option.toList_none, List.nil_append] at hfreelog
  rw [hfree]
  refine ⟨hresult, hmachine, ?_, fun period => ?_⟩
  · rw [hfreelog, ← hresult, ← List.append_assoc]
    exact hlog
  · rw [hfreelog]
    simp [Machine.paced_not_mem_recounted, Machine.paced_not_mem_closing]

end Session

/-! ## The log of the program -/

namespace CommandLine

/-- The lines that state the period of a run : one if it has a rate and the image fits, and none
otherwise. -/
def periodLines (file : Except ReadError (List UInt8)) (rate : Option UInt32) : List String :=
  match file with
  | .ok image => if image.length ≤ 3584 then (rate.map periodLine).toList else []
  | .error _ => []

/-- The log has those of the lines that a log down to `threshold` shows, and the rest is as `other`
leaves it. -/
structure Completion.Shows (c : Completion) (lines : List String) (threshold : Level)
    (other : Completion) : Prop where
  log_eq : c.log = lines.filter threshold.shows
  status_eq : c.status = other.status
  shown_eq : c.shown = other.shown
  complaint_eq : c.complaint = other.complaint

/-- Whether a run is made, and behind which records, depends on neither the level nor the rate. -/
theorem execute_cases (options : Options) (file : Except ReadError (List UInt8)) :
    (∃ notices, (∀ n ∈ notices, ∀ period, n ≠ .event (.paced period)) ∧
      (∀ image, file = .ok image → ¬image.length ≤ 3584) ∧
      ∀ threshold rate, execute { options with threshold, rate } file =
        ⟨1, logLines threshold notices, "", ""⟩) ∨
    ∃ image m, file = .ok image ∧ image.length ≤ 3584 ∧
      Machine.boot image options.stackLimit = .ok m ∧
      ∀ threshold rate, execute { options with threshold, rate } file =
        conclude { options with threshold, rate }
          [.fileRead options.rom image.length, .event (.imageLoaded image.length 0x200)]
          ((Control.ofLimits rate options.budget).run m) := by
  cases file with
  | error error =>
    exact Or.inl ⟨[.unreadable options.rom error], by simp, nofun, fun _ _ => rfl⟩
  | ok image =>
    cases hm : Machine.boot image options.stackLimit with
    | error fault =>
      refine Or.inl ⟨[.fileRead options.rom image.length, .refused fault], by simp, ?_,
        fun threshold rate => @execute_of_refused { options with threshold, rate } image fault hm⟩
      rintro _ ⟨⟩ hle
      obtain ⟨m, hboot⟩ := Machine.exists_boot hle options.stackLimit
      exact nomatch hm.symm.trans hboot
    | ok m =>
      exact Or.inr ⟨image, m, rfl, Memory.length_of_load (Machine.of_boot hm).1, hm,
        fun threshold rate => @execute_of_boot { options with threshold, rate } image m hm⟩

/-- The lines of the log of a run without a rate before nobody. -/
def runLines (budget : Option UInt64) (m : Machine) : List String :=
  ((Control.ofLimits none budget).run m).session.log.toList.map fun e => (Notice.event e).line

/-- The lines around the one that states the period, which are those of other records. If the image
fits, those of the file and of the image stand in front of it, and those of the cycles and of the
end of the run behind it. -/
structure Surround (options : Options) (file : Except ReadError (List UInt8))
    (before after : List String) : Prop where
  of_fits : ∀ image, file = .ok image → image.length ≤ 3584 →
    ∃ m, Machine.boot image options.stackLimit = .ok m ∧
      before = [(Notice.fileRead options.rom image.length).line,
        (Notice.event (.imageLoaded image.length 0x200)).line] ∧
      after = runLines options.budget m
  other : ∀ line ∈ before ++ after, ∃ n : Notice,
    (∀ period, n ≠ .event (.paced period)) ∧ n.line = line

theorem Surround.not_mem {options : Options} {file : Except ReadError (List UInt8)}
    {before after : List String} (h : Surround options file before after) (rate : UInt32) :
    periodLine rate ∉ before ++ after := by
  intro hmem
  obtain ⟨n, hn, he⟩ := h.other _ hmem
  exact line_ne_periodLine hn rate he

/-- All lines are of a level that a log down to the last level shows. -/
theorem Surround.filter_trace {options : Options} {file : Except ReadError (List UInt8)}
    {before after : List String} (h : Surround options file before after) (rate : Option UInt32) :
    (before ++ periodLines file rate ++ after).filter Level.trace.shows =
      before ++ periodLines file rate ++ after := by
  refine List.filter_eq_self.2 fun line hmem => ?_
  have hcases : line ∈ before ++ after ∨ line ∈ periodLines file rate := by
    simp only [List.mem_append] at hmem ⊢
    rcases hmem with (hb | hp) | ha
    · exact Or.inl (Or.inl hb)
    · exact Or.inr hp
    · exact Or.inl (Or.inr ha)
  rcases hcases with hmem | hmem
  · obtain ⟨n, -, rfl⟩ := h.other _ hmem
    exact shows_trace n
  · obtain ⟨r, rfl⟩ : ∃ r, line = periodLine r := by
      unfold periodLines at hmem
      split at hmem
      · split at hmem
        · cases rate with
          | none => simp at hmem
          | some r => exact ⟨r, by simpa using hmem⟩
        · simp at hmem
      · simp at hmem
    rw [← line_paced]
    exact shows_trace _

section ready

variable {options : Options} {image : List UInt8} {m : Machine}

theorem surround_of_boot (hm : Machine.boot image options.stackLimit = .ok m) :
    Surround options (.ok image) [(Notice.fileRead options.rom image.length).line,
      (Notice.event (.imageLoaded image.length 0x200)).line] (runLines options.budget m) where
  of_fits := by
    rintro _ ⟨⟩ -
    exact ⟨m, hm, rfl, rfl⟩
  other := by
    intro line hmem
    obtain ⟨-, -, -, hnone⟩ := Session.run_rate (.ofLimits none options.budget) .absent m ()
    simp only [List.mem_append, List.mem_cons, List.not_mem_nil, or_false, runLines,
      List.mem_map] at hmem
    rcases hmem with (rfl | rfl) | ⟨e, hin, rfl⟩
    · exact ⟨_, by simp, rfl⟩
    · exact ⟨_, by simp, rfl⟩
    · refine ⟨_, fun period hp => hnone period ?_, rfl⟩
      rw [← Notice.event.inj hp]
      exact hin

/-- What is left of a run, by its level and its rate. -/
theorem conclude_flags (options : Options) (notices : List Notice) (m : Machine)
    (threshold : Level) (rate : Option UInt32) :
    (conclude { options with threshold, rate } notices
      ((Control.ofLimits rate options.budget).run m)).Shows
        (notices.map Notice.line ++ (rate.map periodLine).toList ++ runLines options.budget m)
        threshold
        (conclude options notices ((Control.ofLimits options.rate options.budget).run m)) := by
  have hopening : (Control.ofLimits rate options.budget).opening.map
      (fun e => (Notice.event e).line) = (rate.map periodLine).toList := by
    cases rate with
    | none => rfl
    | some rate => exact congrArg (fun line => [line]) (line_paced rate)
  -- Both runs come to the end of the run without a rate.
  obtain ⟨hresult, hmachine, hlog, -⟩ :=
    Session.run_rate (.ofLimits rate options.budget) .absent m ()
  obtain ⟨hresult', hmachine', -⟩ :=
    Session.run_rate (.ofLimits options.rate options.budget) .absent m ()
  refine ⟨?_, congrArg exitStatus (hresult.trans hresult'.symm),
    congrArg (picture options) (hmachine.trans hmachine'.symm), rfl⟩
  have hlines : ((Control.ofLimits rate options.budget).run m).session.log.toList.map
      (fun e => (Notice.event e).line) =
        (rate.map periodLine).toList ++ runLines options.budget m := by
    rw [← hopening, runLines, ← List.map_append]
    exact congrArg _ hlog
  rw [List.append_assoc, ← hlines]
  simp [conclude, logLines_eq_filter, Function.comp_def]

end ready

/-- Nothing but the log depends on the level and the rate, and the log only by the lines that it
shows and the line of the rate. -/
theorem execute_flags (options : Options) (file : Except ReadError (List UInt8)) :
    ∃ before after, Surround options file before after ∧
      ∀ threshold rate, (execute { options with threshold, rate } file).Shows
        (before ++ periodLines file rate ++ after) threshold (execute options file) := by
  rcases execute_cases options file with
    ⟨notices, hother, hfits, hexecute⟩ | ⟨image, m, rfl, hfits, hm, hexecute⟩
  · have hnone : ∀ rate, periodLines file rate = [] := by
      intro rate
      cases file with
      | error error => rfl
      | ok image => exact if_neg (hfits image rfl)
    have hplain : execute options file = _ := hexecute options.threshold options.rate
    refine ⟨notices.map Notice.line, [], ⟨fun image hf hle => (hfits image hf hle).elim,
      fun line hmem => ?_⟩, fun threshold rate => ?_⟩
    · rw [List.append_nil] at hmem
      obtain ⟨n, hn, rfl⟩ := List.mem_map.1 hmem
      exact ⟨n, hother n hn, rfl⟩
    · rw [hnone, hexecute threshold rate, hplain]
      exact ⟨by simp [logLines_eq_filter], rfl, rfl, rfl⟩
  · have hplain : execute options (.ok image) = _ := hexecute options.threshold options.rate
    refine ⟨_, _, surround_of_boot hm, fun threshold rate => ?_⟩
    rw [hexecute threshold rate, hplain, periodLines, if_pos hfits]
    exact conclude_flags options _ m threshold rate

/-- What is shown behind the log is the picture at the end of the run, if it is asked for and a run
is made. -/
structure Completion.Pictures (c : Completion) (options : Options)
    (file : Except ReadError (List UInt8)) : Prop where
  of_dumpDisplay : options.dumpDisplay = true → ∀ image m, file = .ok image →
    Machine.boot image options.stackLimit = .ok m →
      c.shown = ((Control.ofLimits none options.budget).run m).session.machine.picture.text
  of_not_dumpDisplay : options.dumpDisplay = false → c.shown = ""
  of_not_fits : (∀ image, file = .ok image → ¬image.length ≤ 3584) → c.shown = ""

theorem pictures_execute (options : Options) (file : Except ReadError (List UInt8)) :
    (execute options file).Pictures options file := by
  rcases execute_cases options file with
    ⟨notices, -, hfits, hexecute⟩ | ⟨image, m, rfl, hfits, hm, hexecute⟩
  · have hplain : execute options file = _ := hexecute options.threshold options.rate
    rw [hplain]
    refine ⟨fun _ image m hf hm => ?_, fun _ => rfl, fun _ => rfl⟩
    exact (hfits image hf (Memory.length_of_load (Machine.of_boot hm).1)).elim
  · have hplain : execute options (.ok image) = _ := hexecute options.threshold options.rate
    have hshown : (execute options (.ok image)).shown =
        picture options ((Control.ofLimits none options.budget).run m).session.machine := by
      obtain ⟨-, hmachine, -⟩ :=
        Session.run_rate (.ofLimits options.rate options.budget) .absent m ()
      rw [hplain]
      exact congrArg (picture options) hmachine
    refine ⟨?_, fun hplain => ?_, fun hnot => (hnot image rfl hfits).elim⟩
    · rintro hdump _ t ⟨⟩ ht
      obtain rfl : m = t := Except.ok.inj (hm.symm.trans ht)
      rw [hshown, picture, if_pos hdump]
    · rw [hshown, picture, hplain]
      rfl

/-- Verbosity and pacing are observation only. For every level and every rate the log has the lines
of the levels up to that one, out of the same lines and the one that states the period, and the rest
of what is left is the same. Flags in front of a command line ask for a level and a rate. -/
theorem run_flags (options : Options) (file : Except ReadError (List UInt8)) :
    ∃ before after, Surround options file before after ∧
      (∀ rate, periodLine rate ∉ before ++ after) ∧
      (∀ rate rate', periodLine rate = periodLine rate' ↔
        Period.ofRate rate = Period.ofRate rate') ∧
      (∀ threshold rate, (execute { options with threshold, rate } file).Shows
        (before ++ periodLines file rate ++ after) threshold (execute options file)) ∧
      (∀ rate, (execute { options with threshold := .trace, rate } file).log =
        before ++ periodLines file rate ++ after) ∧
      (execute options file).Pictures options file ∧
      ∀ (read : String → Except ReadError (List UInt8)) (arguments : List String),
        Options.ofArguments arguments = .ok options → read options.rom = file →
          (∀ arguments' options', Options.ofArguments arguments' = .ok options' →
            options' = { options with threshold := options'.threshold, rate := options'.rate } →
              (run read arguments').Shows (before ++ periodLines file options'.rate ++ after)
                options'.threshold (run read arguments)) ∧
          (options.threshold = .info → options.rate = none → ∀ pacing rate, Paces pacing rate →
            (run read (["-vv"] ++ pacing ++ arguments)).log =
              before ++ periodLines file rate ++ after ∧
            ∀ flags level, Asks flags level → (run read (flags ++ pacing ++ arguments)).Shows
              (run read (["-vv"] ++ pacing ++ arguments)).log level (run read arguments)) := by
  obtain ⟨before, after, hsurround, hshows⟩ := execute_flags options file
  have htrace : ∀ rate, (execute { options with threshold := .trace, rate } file).log =
      before ++ periodLines file rate ++ after := by
    intro rate
    rw [(hshows .trace rate).log_eq, hsurround.filter_trace]
  refine ⟨before, after, hsurround, hsurround.not_mem, fun _ _ => periodLine_inj, hshows, htrace,
    pictures_execute options file, ?_⟩
  rintro read arguments hoptions rfl
  refine ⟨fun arguments' options' hoptions' hsame => ?_,
    fun hthreshold hrate pacing rate hpaces => ?_⟩
  · rw [run_of_accepted hoptions, run_of_accepted hoptions', hsame]
    exact hshows options'.threshold options'.rate
  · have hflags : ∀ {flags level}, Asks flags level → run read (flags ++ pacing ++ arguments) =
        execute { options with threshold := level, rate } (read options.rom) := fun hasks =>
      run_of_accepted (Options.ofArguments_flags hoptions hthreshold hrate hasks hpaces)
    rw [hflags .twice, htrace rate]
    refine ⟨rfl, fun flags level hasks => ?_⟩
    rw [hflags hasks, run_of_accepted hoptions]
    exact hshows level rate

/-- The lines of the run of a machine whose second cycle finds no instruction, and its end. -/
theorem exists_runLines_secondFault :
    ∃ m, Machine.boot [0x60, 0x01, 0x00, 0x00] 16 = .ok m ∧
      runLines (some 2) m =
        ["TRACE [minichip::emulator] 0x200: 6001  LD V0, 0x01",
          "TRACE [minichip::emulator] 0x202: 0000  ???",
          "ERROR [minichip::runner] halted at 0x202 after 1 cycles: " ++
            "opcode 0x0000 is not implemented"] ∧
      ((Control.ofLimits none (some 2)).run m).session.machine.picture = Picture.blank ∧
      ((Control.ofLimits none (some 2)).run m).result = .error (.unknownOpcode 0) := by
  obtain ⟨m, hm, hpc, hcycles, hw, hx, hpc', hcycles', hpicture, hw', hf, hrest⟩ :=
    exists_secondFault
  let s := Session.start (.ofLimits none (some 2)) m ()
  have hfirst : s.cycle .absent = .on (s.onward .absent) :=
    Session.cycle_of_executes rfl (by rw [show s.machine.cycles = 0 from hcycles]; rfl) hx
  obtain ⟨log, hlast⟩ := Session.cycle_of_faults (o := .absent) (s := s.onward .absent) rfl
    (by rw [show (s.onward .absent).machine.cycles = 1 from hcycles']; rfl) hf
  have hend : Session.EndsAfter .absent 1 s _ := .succ hfirst ⟨_, .zero _, hlast⟩
  have hset : m.stepEvents = [.fetched 0x200 0x6001 (some (.set 0 1))] := by
    have hfetch : m.fetch = .ok (.set 0 1) := (Machine.of_step_ok hx).1
    rw [Machine.stepEvents, hfetch, Machine.fetchEvents_of_word hw, hpc]
    rfl
  have hhalt : m.next.closing (.error (.unknownOpcode 0)) =
      [.fetched 0x202 0 none, .halted 0x202 1 (.unknownOpcode 0)] := by
    rw [Machine.closing, Machine.stepEvents_of_faults (Machine.faults_next.2 hf),
      Machine.fetchEvents_of_word hw', hrest, hpc', hcycles']
    rfl
  have hlog := hend.log_eq
  refine ⟨m, hm, ?_, ?_, by rw [Control.run, Session.run, hend.finish_eq]⟩
  · rw [runLines, Control.run, Session.run, hend.finish_eq, hlog]
    simp only [Machine.recounted, Machine.after_zero, Machine.after_succ, hset, hhalt]
    decide +kernel
  · rw [Control.run, Session.run, hend.finish_eq]
    exact (congrArg Machine.picture hrest).trans hpicture

/-- A program whose second cycle ends with a fault, under all flags and with the rate of 500. -/
theorem run_flags_secondFault :
    let read : String → Except ReadError (List UInt8) := fun _ => .ok [0x60, 0x01, 0x00, 0x00]
    let arguments := ["a", "--dump-display", "--max-cycles", "2"]
    (Options.ofArguments arguments = .ok ⟨"a", none, some 2, 16, true, .info⟩ ∧
      Asks ["-q"] .warning ∧ Asks [] .info ∧ Asks ["-v"] .debug ∧ Paces ["--hz=500"] (some 500)) ∧
    (run read ("-vv" :: "--hz=500" :: arguments)).log =
      ["INFO  [minichip] loaded a (4 bytes)",
        "DEBUG [minichip::memory] loaded 4 byte image at 0x200",
        "DEBUG [minichip::runner] one instruction every 2ms",
        "TRACE [minichip::emulator] 0x200: 6001  LD V0, 0x01",
        "TRACE [minichip::emulator] 0x202: 0000  ???",
        "ERROR [minichip::runner] halted at 0x202 after 1 cycles: " ++
          "opcode 0x0000 is not implemented"] ∧
    (run read ("-v" :: "--hz=500" :: arguments)).log =
      ["INFO  [minichip] loaded a (4 bytes)",
        "DEBUG [minichip::memory] loaded 4 byte image at 0x200",
        "DEBUG [minichip::runner] one instruction every 2ms",
        "ERROR [minichip::runner] halted at 0x202 after 1 cycles: " ++
          "opcode 0x0000 is not implemented"] ∧
    (run read ("--hz=500" :: arguments)).log =
      ["INFO  [minichip] loaded a (4 bytes)",
        "ERROR [minichip::runner] halted at 0x202 after 1 cycles: " ++
          "opcode 0x0000 is not implemented"] ∧
    (run read ("-q" :: "--hz=500" :: arguments)).log =
      ["ERROR [minichip::runner] halted at 0x202 after 1 cycles: " ++
          "opcode 0x0000 is not implemented"] ∧
    (run read ("-q" :: "--hz=500" :: arguments)).shown =
      String.ofList (List.replicate 32 (List.replicate 64 '.' ++ ['\n'])).flatten ∧
    (run read ("-q" :: "--hz=500" :: arguments)).status = (run read arguments).status := by
  intro read arguments
  let options : Options := ⟨"a", none, some 2, 16, true, .info⟩
  have hoptions : Options.ofArguments arguments = .ok options := rfl
  have hpaces : Paces ["--hz=500"] (some 500) := by
    have hnumber : Integer.readRate "500" = .ok 500 := by decide +kernel
    exact Paces.rate hnumber
  obtain ⟨m, hm, hlines, hpicture, -⟩ := exists_runLines_secondFault
  obtain ⟨before, after, hsurround, -, -, -, -, hpictures, hline⟩ :=
    run_flags options (read "a")
  obtain ⟨t, ht, rfl, rfl⟩ := hsurround.of_fits _ rfl (by decide)
  obtain rfl : m = t := Except.ok.inj (hm.symm.trans ht)
  obtain ⟨htrace, hshows⟩ := (hline read arguments hoptions rfl).2 rfl rfl _ _ hpaces
  rw [hlines] at htrace
  rw [htrace] at hshows
  have hquiet := hshows _ _ .quiet
  have hshown : (run read arguments).shown = Picture.blank.text := by
    rw [run_of_accepted hoptions, hpictures.of_dumpDisplay rfl _ m rfl hm, hpicture]
  refine ⟨⟨hoptions, .quiet, .nothing, .once, hpaces⟩, htrace.trans ?_,
    (hshows _ _ .once).log_eq.trans ?_, (hshows _ _ .nothing).log_eq.trans ?_,
    hquiet.log_eq.trans ?_, (hquiet.shown_eq.trans hshown).trans Picture.text_blank,
    hquiet.status_eq⟩
  all_goals decide +kernel

end CommandLine

end Chip8
