import Chip8.CommandLine.Options

/-!
# Flags in front of a command line

Arguments are read one after the other, and each finds what was accepted before it. Of that it looks
at three things : whether it was given already, whether an option still waits for its value, and
whether there is an image. So it does not matter to it what other options stand in front of the
command line, as long as they have their values. It is read behind them as it is without them
(`Scan.Passes`), step by step (`Scan.passes_argument`) and to its end (`Scan.passes_readAll`).

A command line that asks for no level of its log and for no rate accepts neither `-q` nor `-v` nor
`--hz`, for each of these would leave its mark (`Scan.Sound`). With flags that ask for a level
(`Asks`) and an option that asks for a rate (`Paces`) in front it therefore asks for the same as
before, and for that level and that rate (`Options.ofArguments_flags`).
-/

namespace Chip8.CommandLine

/-! ## Reading behind other arguments -/

namespace Scan

/-- A scan as it is if these arguments were accepted in front of all others, with a rate and so many
requests for more logging. -/
def behind (given : List Argument) (rate : Option UInt32) (verbosity : Nat) (s : Scan) : Scan :=
  { s with
    given := given ++ s.given
    rate := s.rate.or rate
    verbosity := verbosity + s.verbosity }

/-- The marks that accepted arguments leave : a request for more logging is counted, and a rate is
kept. Only an argument with a value can be waiting to be checked. -/
structure Sound (s : Scan) : Prop where
  verbosity_pos : .verbose ∈ s.given → 0 < s.verbosity
  rate_isSome : .hz ∈ s.given → s.rate.isSome
  takesValue : ∀ argument value, s.pending = some (argument, value) → argument.takesValue

theorem sound_start : start.Sound where
  verbosity_pos := by simp [start]
  rate_isSome := by simp [start]
  takesValue := by simp [start]

/-- Reading goes from one scan to the other, keeps what was accepted, and goes from the one to the
other also behind arguments that are accepted in neither, the image not among them. -/
structure Reads (read : Scan → Except Reply Scan) (s t : Scan) : Prop where
  sound : t.Sound
  subset : s.given ⊆ t.given
  behind : ∀ given rate verbosity, (∀ argument ∈ given, argument ∉ t.given) → .rom ∉ given →
    read (s.behind given rate verbosity) = .ok (t.behind given rate verbosity)

/-- What is read from a sound scan is read from it also behind other arguments. -/
def Passes (read : Scan → Except Reply Scan) : Prop :=
  ∀ ⦃s t⦄, s.Sound → read s = .ok t → Reads read s t

theorem passes_error (reply : Reply) : Passes fun _ => .error reply :=
  fun _ _ _ h => nomatch h

theorem passes_pure : Passes pure := by
  intro s t hs h
  obtain rfl := Except.ok.inj h
  exact ⟨hs, fun _ ha => ha, fun _ _ _ _ _ => rfl⟩

/-- Reading in another way that comes to the same, whatever is in front. -/
theorem Reads.congr {read other : Scan → Except Reply Scan} {s t : Scan} (h : Reads read s t)
    (hsame : ∀ given rate verbosity, .rom ∉ given →
      other (s.behind given rate verbosity) = read (s.behind given rate verbosity)) :
    Reads other s t :=
  ⟨h.sound, h.subset, fun given rate verbosity hd hrom =>
    (hsame given rate verbosity hrom).trans (h.behind given rate verbosity hd hrom)⟩

/-- The way of reading may depend on those parts of a scan that other arguments do not touch. -/
theorem Passes.reads_of {read other : Scan → Except Reply Scan} {s t : Scan} (h : Passes read)
    (hs : s.Sound) (ht : other s = .ok t) (hsame : ∀ u : Scan, u.separated = s.separated →
      u.waiting = s.waiting → u.pending = s.pending → other u = read u) : Reads other s t :=
  (h hs ((hsame s rfl rfl rfl).symm.trans ht)).congr fun _ _ _ _ => hsame _ rfl rfl rfl

theorem Passes.andThen {read later : Scan → Except Reply Scan} (h : Passes read)
    (hl : Passes later) : Passes fun s => read s >>= later := by
  intro s t hs ht
  cases hu : read s with
  | error reply => simp [hu, bind, Except.bind] at ht
  | ok u =>
    have hfirst := h hs hu
    have hsecond := hl hfirst.sound (by simpa [hu, bind, Except.bind] using ht)
    refine ⟨hsecond.sound, fun a ha => hsecond.subset (hfirst.subset ha),
      fun given rate verbosity hd hrom => ?_⟩
    have hd' : ∀ argument ∈ given, argument ∉ u.given :=
      fun argument ha hu => hd argument ha (hsecond.subset hu)
    simp only [hfirst.behind given rate verbosity hd' hrom, bind, Except.bind]
    exact hsecond.behind given rate verbosity hd hrom

/-! ## Values -/

theorem number_ok {α : Type} (argument : Argument) (text : String) (value : α) :
    number argument text (.ok value) = .ok value := rfl

theorem number_error {α : Type} (argument : Argument) (text : String) (reason : IntegerError) :
    (number argument text (.error reason) : Except Reply α) =
      .error (.refuse (.invalidValue text argument reason)) := rfl

/-- A value that is accepted is accepted, with what it changes, by every scan that does not have one
for the argument. -/
theorem exists_store {s t : Scan} {argument : Argument} {text : String}
    (h : s.store argument text = .ok t) : argument ∉ s.given ∧
      ∃ (rate : Option UInt32) (budget : Option UInt64) (stackLimit : Option Nat)
        (rom : Option String), (argument = .hz → rate.isSome) ∧
        ∀ u : Scan, argument ∉ u.given → u.store argument text =
          .ok { u with
            given := u.given ++ [argument]
            rate := rate.or u.rate
            budget := budget.or u.budget
            stackLimit := stackLimit.or u.stackLimit
            rom := rom.or u.rom } := by
  have hnew : argument ∉ s.given := by
    intro hin
    simp [store, hin] at h
  refine ⟨hnew, ?_⟩
  cases argument with
  | hz =>
    cases hr : Integer.readRate text with
    | error reason => simp [store, hnew, hr, number_error, bind, Except.bind] at h
    | ok rate =>
      refine ⟨some rate, none, none, none, by simp, fun u hu => ?_⟩
      simp [store, accept, hu, hr, number_ok, bind, Except.bind, pure, Except.pure]
  | maxCycles =>
    cases hr : Integer.readUnsigned text with
    | error reason => simp [store, hnew, hr, number_error, bind, Except.bind] at h
    | ok budget =>
      refine ⟨none, some (.ofNat budget), none, none, by simp, fun u hu => ?_⟩
      simp [store, accept, hu, hr, number_ok, bind, Except.bind, pure, Except.pure]
  | stackLimit =>
    cases hr : Integer.readUnsigned text with
    | error reason => simp [store, hnew, hr, number_error, bind, Except.bind] at h
    | ok limit =>
      refine ⟨none, none, some limit, none, by simp, fun u hu => ?_⟩
      simp [store, accept, hu, hr, number_ok, bind, Except.bind, pure, Except.pure]
  | rom =>
    cases he : text.isEmpty with
    | true => simp [store, hnew, he] at h
    | false =>
      refine ⟨none, none, none, some text, by simp, fun u hu => ?_⟩
      simp [store, accept, hu, he]
  | dumpDisplay | verbose | quiet | help | version =>
    refine ⟨none, none, none, none, by simp, fun u hu => ?_⟩
    simp [store, accept, hu]

theorem passes_store {argument : Argument} (ha : argument.takesValue) (text : String) :
    Passes (·.store argument text) := by
  intro s t hs h
  obtain ⟨hnew, r, budget, stackLimit, rom, hr, hstore⟩ := exists_store h
  obtain rfl := Except.ok.inj ((hstore s hnew).symm.trans h)
  refine ⟨⟨fun hv => ?_, fun hz => ?_, hs.takesValue⟩, List.subset_append_left _ _,
    fun given rate verbosity hd hrom => ?_⟩
  · rcases List.mem_append.1 hv with hv | hv
    · exact hs.verbosity_pos hv
    · rw [← List.mem_singleton.1 hv] at ha
      exact nomatch ha
  · rcases List.mem_append.1 hz with hz | hz
    · simp [hs.rate_isSome hz]
    · simp [hr (List.mem_singleton.1 hz).symm]
  · have hnew' : argument ∉ (s.behind given rate verbosity).given := by
      intro hm
      rcases List.mem_append.1 hm with hm | hm
      · exact hd argument hm (by simp)
      · exact hnew hm
    rw [hstore _ hnew']
    simp [behind, Option.or_assoc]

theorem passes_settle : Passes settle := by
  intro s t hs h
  have hrest : ({ s with pending := none, waiting := false } : Scan).Sound :=
    ⟨hs.verbosity_pos, hs.rate_isSome, nofun⟩
  cases hp : s.pending with
  | none =>
    obtain rfl : { s with waiting := false } = t := by simpa [settle, hp] using h
    refine ⟨⟨hs.verbosity_pos, hs.rate_isSome, hs.takesValue⟩, fun _ ha => ha,
      fun given rate verbosity _ _ => ?_⟩
    simp [settle, behind, hp]
  | some awaited =>
    obtain ⟨argument, value⟩ := awaited
    cases value with
    | none => simp [settle, hp, supply] at h
    | some text =>
      simp only [settle, hp, supply] at h
      have hreads := passes_store (hs.takesValue _ _ hp) text hrest h
      refine ⟨hreads.sound, hreads.subset, fun given rate verbosity hd hrom => ?_⟩
      rw [← hreads.behind given rate verbosity hd hrom]
      simp [settle, behind, hp, supply]

/-- An argument begins behind other arguments as it does without them. -/
theorem passes_await {argument : Argument} (ha : argument.takesValue) (value : Option String) :
    Passes fun s => pure (s.await argument value) := by
  intro s t hs h
  obtain rfl := Except.ok.inj h
  refine ⟨⟨hs.verbosity_pos, hs.rate_isSome, fun other value' ho => ?_⟩, fun _ ha => ha,
    fun given rate verbosity _ _ => rfl⟩
  obtain ⟨rfl, -⟩ := Prod.mk.inj (Option.some.inj ho)
  exact ha

/-! ## Arguments -/

/-- A flag that may be given once is accepted if it was not given before. -/
theorem passes_once {argument : Argument} (hv : argument ≠ .verbose) (hz : argument ≠ .hz) :
    Passes fun s => if argument ∈ s.given then .error (.refuse (.repeated argument))
      else .ok (s.accept argument) := by
  intro s t hs h
  by_cases hnew : argument ∈ s.given
  · simp [hnew] at h
  · obtain rfl : s.accept argument = t := by simpa [hnew] using h
    refine ⟨⟨fun hm => hs.verbosity_pos ?_, fun hm => hs.rate_isSome ?_, hs.takesValue⟩,
      List.subset_append_left _ _, fun given rate verbosity hd hrom => ?_⟩
    · exact (List.mem_append.1 hm).resolve_right (by simp [hv.symm])
    · exact (List.mem_append.1 hm).resolve_right (by simp [hz.symm])
    · have hnot : argument ∉ given := fun hm => hd argument hm (by simp [accept])
      simp [behind, accept, hnot, hnew]

theorem passes_flag {argument : Argument} (ha : argument.takesValue = false) :
    Passes (·.flag argument) := by
  cases argument with
  | rom | hz | maxCycles | stackLimit => exact nomatch ha
  | help => exact passes_settle.andThen (passes_error _)
  | version => exact passes_settle.andThen (passes_error _)
  | verbose =>
    refine passes_settle.andThen fun s t hs h => ?_
    obtain rfl := Except.ok.inj h
    refine ⟨⟨fun _ => Nat.succ_pos _, fun hm => hs.rate_isSome ?_, hs.takesValue⟩,
      fun a ha => ?_, fun given rate verbosity hd hrom => ?_⟩
    · simpa [accept, List.mem_erase_of_ne] using hm
    · by_cases hv : a = .verbose
      · simp [accept, hv]
      · simp [accept, List.mem_erase_of_ne hv, ha]
    · have hnot : .verbose ∉ given := fun hm => hd _ hm (by simp [accept])
      simp [behind, accept, List.erase_append_right _ hnot, Nat.add_assoc, pure, Except.pure]
  | dumpDisplay | quiet => exact passes_settle.andThen (passes_once (by decide) (by decide))

theorem passes_long (name : String) (value : Option String) : Passes (·.long name value) := by
  cases ha : Argument.ofLongName? name with
  | none =>
    simp only [long, ha]
    exact passes_error _
  | some argument =>
    simp only [long, ha]
    cases ht : argument.takesValue with
    | true =>
      cases value with
      | none => exact passes_settle.andThen (passes_await ht none)
      | some text => exact passes_settle.andThen (passes_store ht text)
    | false =>
      cases value with
      | none => exact passes_flag ht
      | some text => exact passes_error _

theorem takesValue_of_letter {c : Char} {argument : Argument}
    (h : Argument.ofLetter? c = some argument) : argument.takesValue = false := by
  unfold Argument.ofLetter? at h
  split at h
  case h_5 => exact nomatch h
  all_goals
    obtain rfl := Option.some.inj h
    rfl

theorem passes_letters : ∀ flags : List Char, Passes (·.letters flags)
  | [] => passes_pure
  | c :: rest => by
    cases ha : Argument.ofLetter? c with
    | none =>
      simp only [letters, ha]
      exact passes_error _
    | some argument =>
      simp only [letters, ha]
      exact (passes_flag (takesValue_of_letter ha)).andThen (passes_letters rest)

/-- There is no image in front, so that one can still be named. -/
theorem passes_positional (text : String) : Passes (·.positional text) := by
  intro s t hs h
  by_cases hrom : .rom ∈ s.given ∨ s.pending.any (·.1 = .rom)
  · simp [positional, if_pos hrom] at h
  · have hlater := passes_settle.andThen (@passes_await .rom rfl (some text)) hs
      (by simpa only [positional, if_neg hrom] using h)
    refine hlater.congr fun given rate verbosity hnot => ?_
    have hrom' : ¬(.rom ∈ (s.behind given rate verbosity).given ∨
        (s.behind given rate verbosity).pending.any (·.1 = .rom)) := by
      simpa [behind, hnot] using hrom
    simp only [positional, if_neg hrom']

theorem passes_plain (text : String) : Passes (·.plain text) := by
  intro s t hs h
  by_cases hw : s.waiting = true ∧ s.pending.isSome
  · obtain ⟨hwaiting, hpending⟩ := hw
    obtain ⟨⟨argument, value⟩, hp⟩ := Option.isSome_iff_exists.1 hpending
    refine (passes_await (hs.takesValue _ _ hp) (some text)).reads_of hs h fun u _ huw hup => ?_
    rw [hwaiting] at huw
    rw [hp] at hup
    simp only [plain, huw, hup]
    rfl
  · refine (passes_positional text).reads_of hs h fun u _ huw hup => ?_
    unfold plain
    split
    · rename_i hwaiting hp
      exact (hw ⟨huw ▸ hwaiting, by simp [← hup, hp]⟩).elim
    · rfl

theorem passes_argument (text : String) : Passes (·.argument text) := by
  intro s t hs h
  cases hseparated : s.separated with
  | true =>
    exact (passes_positional text).reads_of hs h fun u hu _ _ => by simp [argument, hu, hseparated]
  | false =>
    cases hword : Word.ofChars text.toList with
    | separator =>
      obtain rfl : { s with separated := true } = t := by
        simpa [argument, hseparated, hword] using h
      refine ⟨⟨hs.verbosity_pos, hs.rate_isSome, hs.takesValue⟩, fun _ ha => ha,
        fun given rate verbosity _ _ => ?_⟩
      simp [argument, behind, hseparated, hword]
    | long name value =>
      exact (passes_long name value).reads_of hs h fun u hu _ _ => by
        simp [argument, hu, hseparated, hword]
    | letters flags =>
      exact (passes_letters flags).reads_of hs h fun u hu _ _ => by
        simp [argument, hu, hseparated, hword]
    | plain =>
      exact (passes_plain text).reads_of hs h fun u hu _ _ => by
        simp [argument, hu, hseparated, hword]

/-! ## Command lines -/

/-- Reads arguments to their end and checks the last. -/
def readAll (arguments : List String) (s : Scan) : Except Reply Scan :=
  arguments.foldlM argument s >>= settle

theorem passes_foldlM : ∀ arguments : List String, Passes (arguments.foldlM argument ·)
  | [] => passes_pure
  | text :: arguments => by
    simp only [List.foldlM_cons]
    exact (passes_argument text).andThen (passes_foldlM arguments)

/-- Arguments are read behind others as they are without them. -/
theorem passes_readAll (arguments : List String) : Passes (readAll arguments) :=
  (passes_foldlM arguments).andThen passes_settle

theorem ofArguments_append {front : List String} {s : Scan}
    (h : front.foldlM argument start = .ok s) (arguments : List String) :
    Options.ofArguments (front ++ arguments) = readAll arguments s >>= Scan.options := by
  rw [Options.ofArguments, List.foldlM_append, h]
  exact (bind_assoc _ _ _).symm

end Scan

/-! ## Flags in front -/

/-- Flags in front of a command line, and the level that they ask for. -/
inductive Asks : List String → Level → Prop where
  | quiet : Asks ["-q"] .warning
  | nothing : Asks [] .info
  | once : Asks ["-v"] .debug
  | twice : Asks ["-vv"] .trace

/-- Options in front of a command line, and the rate that they ask for. -/
inductive Paces : List String → Option UInt32 → Prop where
  | nothing : Paces [] none
  | rate {text : String} {rate : UInt32} (h : Integer.readRate text = .ok rate) :
    Paces ["--hz=" ++ text] (some rate)

namespace Argument

/-- The flags for a level of the log, of which a command line has one at most. -/
def leveling (argument : Argument) : Bool := argument = .quiet ∨ argument = .verbose

end Argument

namespace Scan

variable {s : Scan} {options : Options} {level : Level} {flags pacing : List String}
  {rate : Option UInt32}

/-- A scan has options if it has an image and no two flags for a level, and they are what it has
kept. -/
theorem options_eq_ok_iff : s.options = .ok options ↔
    (s.given.filter Argument.leveling).length ≤ 1 ∧ s.rom = some options.rom ∧
      options = ⟨options.rom, s.rate, s.budget, s.stackLimit.getD CallStack.defaultLimit,
        .dumpDisplay ∈ s.given, s.threshold⟩ := by
  have hfilter : s.given.filter (fun argument => argument = .quiet ∨ argument = .verbose) =
      s.given.filter Argument.leveling := rfl
  unfold Scan.options
  rw [hfilter]
  rcases s.given.filter Argument.leveling with - | ⟨first, - | ⟨second, rest⟩⟩
  case cons.cons => simp
  all_goals
    cases s.rom with
    | none => simp
    | some rom =>
      simp only [Except.ok.injEq, Option.some.injEq]
      constructor
      · rintro rfl
        exact ⟨by simp, rfl, rfl⟩
      · rintro ⟨-, rfl, h⟩
        exact h.symm

/-- A sound scan that asks for no level and no rate has accepted no flag for a level and no option
for a rate. -/
theorem Sound.of_options (hs : s.Sound) (h : s.options = .ok options)
    (hthreshold : options.threshold = .info) (hrate : options.rate = none) :
    s.verbosity = 0 ∧ s.rate = none ∧
      ∀ argument ∈ s.given, argument.leveling = false ∧ argument ≠ .hz := by
  obtain ⟨-, -, ho⟩ := options_eq_ok_iff.1 h
  rw [ho] at hthreshold hrate
  have hrate : s.rate = none := hrate
  have hquiet : .quiet ∉ s.given := fun hm => by simp [threshold, hm] at hthreshold
  have hverbosity : s.verbosity = 0 := by
    simp only [threshold, hquiet, if_false] at hthreshold
    split at hthreshold
    · assumption
    · exact nomatch hthreshold
    · exact nomatch hthreshold
  have hverbose : .verbose ∉ s.given := fun hm =>
    Nat.ne_of_gt (hs.verbosity_pos hm) hverbosity
  have hhz : .hz ∉ s.given := fun hm => by simpa [hrate] using hs.rate_isSome hm
  refine ⟨hverbosity, hrate, fun argument hm => ⟨?_, ?_⟩⟩
  · have hq : argument ≠ .quiet := fun he => hquiet (he ▸ hm)
    have hv : argument ≠ .verbose := fun he => hverbose (he ▸ hm)
    simp [Argument.leveling, hq, hv]
  · exact fun he => hhz (he ▸ hm)

theorem argument_rate {text : String} {r : UInt32} (h : Integer.readRate text = .ok r)
    {given : List Argument} (hnew : .hz ∉ given) (verbosity : Nat) :
    (start.behind given none verbosity).argument ("--hz=" ++ text) =
      .ok (start.behind (given ++ [.hz]) (some r) verbosity) := by
  have hword : Word.ofChars ("--hz=" ++ text).toList = .long "hz" (some text) := by
    simp [Word.ofChars]
  have hlong : (start.behind given none verbosity).argument ("--hz=" ++ text) =
      (start.behind given none verbosity).store .hz text := by
    unfold argument
    rw [hword]
    rfl
  rw [hlong]
  simp [store, behind, start, accept, hnew, h, number_ok, bind, Except.bind, pure, Except.pure]

/-- The scan of flags and options in front of a command line : it has the level and the rate that
they ask for, and nothing else. -/
theorem exists_front (hasks : Asks flags level) (hpaces : Paces pacing rate) :
    ∃ given verbosity,
      (flags ++ pacing).foldlM argument start = .ok (start.behind given rate verbosity) ∧
        (∀ argument ∈ given, argument.leveling ∨ argument = .hz) ∧
          (given.filter Argument.leveling).length ≤ 1 ∧
            (start.behind given rate verbosity).threshold = level := by
  obtain ⟨asked, verbosity, hscan, hasked, hone, hlevel⟩ : ∃ asked verbosity,
      flags.foldlM argument start = .ok (start.behind asked none verbosity) ∧
        (∀ argument ∈ asked, argument.leveling) ∧ (asked.filter Argument.leveling).length ≤ 1 ∧
          (start.behind asked none verbosity).threshold = level := by
    cases hasks with
    | quiet => exact ⟨[.quiet], 0, rfl, by decide, by decide, rfl⟩
    | nothing => exact ⟨[], 0, rfl, by decide, by decide, rfl⟩
    | once => exact ⟨[.verbose], 1, rfl, by decide, by decide, rfl⟩
    | twice => exact ⟨[.verbose], 2, rfl, by decide, by decide, rfl⟩
  cases hpaces with
  | nothing =>
    exact ⟨asked, verbosity, by rw [List.append_nil, hscan], fun a ha => Or.inl (hasked a ha), hone,
      hlevel⟩
  | @rate text r h =>
    have hnew : .hz ∉ asked := fun hm => nomatch hasked _ hm
    refine ⟨asked ++ [.hz], verbosity, ?_, fun a ha => ?_, ?_, ?_⟩
    · rw [List.foldlM_append, hscan]
      change ([_].foldlM argument _ : Except Reply Scan) = _
      rw [List.foldlM_cons, argument_rate h hnew]
      rfl
    · exact (List.mem_append.1 ha).imp (hasked a) List.mem_singleton.1
    · simpa [List.filter_append, Argument.leveling] using hone
    · rw [← hlevel]
      simp [threshold, behind, start]

/-- Behind flags that ask for a level and a rate a scan that asks for neither has the options that
it has without them, with this level and this rate. -/
theorem options_behind {given : List Argument} {verbosity : Nat} (hs : s.Sound)
    (h : s.options = .ok options) (hthreshold : options.threshold = .info)
    (hrate : options.rate = none)
    (hgiven : ∀ argument ∈ given, argument.leveling ∨ argument = .hz)
    (hone : (given.filter Argument.leveling).length ≤ 1) :
    (s.behind given rate verbosity).options = .ok
      { options with threshold := (start.behind given rate verbosity).threshold, rate } := by
  obtain ⟨hverbosity, hfree, hnone⟩ := hs.of_options h hthreshold hrate
  obtain ⟨-, hrom, ho⟩ := options_eq_ok_iff.1 h
  have hquiet : .quiet ∉ s.given := fun hm => nomatch (hnone _ hm).1
  have hdump : .dumpDisplay ∉ given := fun hm => by simpa [Argument.leveling] using hgiven _ hm
  refine options_eq_ok_iff.2 ⟨?_, hrom, ?_⟩
  · have hfilter : s.given.filter Argument.leveling = [] :=
      List.filter_eq_nil_iff.2 fun argument hm => by simp [(hnone argument hm).1]
    simpa only [behind, List.filter_append, hfilter, List.append_nil] using hone
  · rw [ho]
    simp [behind, start, threshold, hfree, hverbosity, hquiet, hdump]

end Scan

open Scan in
/-- Flags and options in front of a command line that asks for no level and no rate are accepted,
and with them it asks for the same as without them, and for the level and the rate. -/
theorem Options.ofArguments_flags {options : Options} {arguments flags pacing : List String}
    {level : Level} {rate : Option UInt32} (h : Options.ofArguments arguments = .ok options)
    (hthreshold : options.threshold = .info) (hrate : options.rate = none)
    (hasks : Asks flags level) (hpaces : Paces pacing rate) :
    Options.ofArguments (flags ++ pacing ++ arguments) =
      .ok { options with threshold := level, rate } := by
  obtain ⟨given, verbosity, hfront, hgiven, hone, hlevel⟩ := exists_front hasks hpaces
  have hread : readAll arguments start >>= Scan.options = .ok options :=
    (@ofArguments_append [] start rfl arguments).symm.trans h
  cases hu : readAll arguments start with
  | error reply =>
    rw [hu] at hread
    exact nomatch hread
  | ok u =>
    have hoptions : u.options = .ok options := by
      rw [hu] at hread
      exact hread
    have hreads := passes_readAll arguments sound_start hu
    obtain ⟨-, -, hnone⟩ := hreads.sound.of_options hoptions hthreshold hrate
    -- What the flags in front are accepted as was not given behind them.
    have hapart : ∀ argument ∈ given, argument ∉ u.given := by
      intro argument hg hm
      obtain ⟨hl, hz⟩ := hnone argument hm
      rcases hgiven argument hg with hg | hg
      · rw [hl] at hg
        exact nomatch hg
      · exact hz hg
    have hrom : .rom ∉ given := fun hm => by simpa [Argument.leveling] using hgiven _ hm
    rw [ofArguments_append hfront, hreads.behind given rate verbosity hapart hrom, ← hlevel]
    exact options_behind hreads.sound hoptions hthreshold hrate hgiven hone

end Chip8.CommandLine
