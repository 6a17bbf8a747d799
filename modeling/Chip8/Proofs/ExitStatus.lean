import Chip8.CommandLine.Program
import Chip8.Proofs.RunOutcome
import Chip8.Proofs.Slices

/-!
# The exit status

Nobody looks at a run that the program makes, so it is never cancelled. If the cycles that the
budget allows all complete, it ends when they are made, and without a budget or with a cycle that
does not complete it ends with a fault (`Control.run_cases`).

Only the first of these ends is a success, and an image of which no machine can be made is not run
at all (`CommandLine.execute_of_refused`). So the exit status depends on the image, the stack limit
and the budget, and on nothing else that is asked for (`CommandLine.status_run`). The command line
comes last : it is read into the options, and the image is executed with these.
-/

namespace Chip8

/-! ## Runs before nobody -/

namespace Control

variable {c : Control} {m : Machine}

/-- There is a budget, and all cycles that it allows the machine complete. -/
def Lasts (c : Control) (m : Machine) : Prop :=
  ∃ n : ℕ, c.allowance m.cycles = n ∧ m.Completes n

/-- A fresh machine has its whole budget before it. -/
theorem lasts_iff (hm : m.cycles = 0) :
    c.Lasts m ↔ ∃ budget, c.budget = some budget ∧ m.Completes budget.toNat := by
  unfold Lasts allowance
  cases c.budget with
  | none => simp
  | some budget => simp [hm, eq_comm]

/-- A run before nobody that was not cancelled before ends with the budget used up if all cycles
that it allows complete, and with a fault if not. -/
theorem run_cases (hc : c.cancelled = false) (m : Machine) :
    (c.Lasts m ∧ (c.run m).result = .ok .budgetReached) ∨
      (¬c.Lasts m ∧ ∃ fault, (c.run m).result = .error fault) := by
  obtain ⟨n, hn⟩ := Session.exists_endsAfter_finish .absent (Session.start c m ())
  obtain ⟨hgo, hend⟩ := hn.concludes
  obtain ⟨hcomp, -, hallow, -⟩ := Session.le_of_goesOn hgo
  have hmachine : ((Session.start c m ()).along .absent n).machine = m.after n :=
    Session.machine_along _ _ n
  change Session.Concludes _ (c.run m) at hend
  generalize c.run m = report at hend ⊢
  cases hend with
  | cancelled hyes log =>
    rw [Session.control_along_absent] at hyes
    exact (Bool.false_ne_true (hc.symm.trans hyes)).elim
  | spent _ hb log =>
    rw [Session.spent_along, hmachine] at hb
    exact Or.inl ⟨⟨n, (spent_after_iff hcomp hallow).1 hb, hcomp⟩, rfl⟩
  | @fault _ hb fault hf log =>
    rw [Session.spent_along, hmachine] at hb
    rw [hmachine] at hf
    refine Or.inr ⟨fun ⟨k, hk, hall⟩ => ?_, fault, rfl⟩
    -- The budget is not used up yet, so it would have to last over the cycle with the fault.
    have hle : n ≤ k := Nat.cast_le.1 (hk ▸ hallow)
    have hne : n ≠ k := fun he => by
      subst he
      exact Bool.false_ne_true (hb.symm.trans ((spent_after_iff hcomp hallow).2 hk))
    obtain ⟨i, hi⟩ := hall n (lt_of_le_of_ne hle hne)
    exact hi.not_faults hf

end Control

/-! ## The program -/

namespace CommandLine

/-- What makes the program succeed : the image fits, a budget is given, and as many cycles of the
machine that it boots complete. -/
@[mk_iff succeeds_iff]
structure Options.Succeeds (options : Options) (image : List UInt8) : Prop where
  fits : image.length ≤ 3584
  lasts : ∃ m budget, Machine.boot image options.stackLimit = .ok m ∧
    options.budget = some budget ∧ m.Completes budget.toNat

section boot

variable {options : Options} {image : List UInt8} {m : Machine} {fault : Fault}

/-- An image of which no machine can be made is not run. -/
theorem execute_of_refused (h : Machine.boot image options.stackLimit = .error fault) :
    execute options (.ok image) = ⟨1, logLines options.threshold
      [.fileRead options.rom image.length, .refused fault], "", ""⟩ := by
  simp only [execute, begin, h]

/-- An image of which a machine can be made is run on it. -/
theorem execute_of_boot (hm : Machine.boot image options.stackLimit = .ok m) :
    execute options (.ok image) = conclude options
      [.fileRead options.rom image.length, .event (.imageLoaded image.length 0x200)]
      ((Control.ofLimits options.rate options.budget).run m) := by
  have hload := (Machine.of_boot hm).1
  simp only [execute, begin, hm, Machine.bootEvents, Memory.loadEvents, hload]
  rfl

end boot

theorem Options.succeeds_iff_lasts {options : Options} {image : List UInt8} {m : Machine}
    (hm : Machine.boot image options.stackLimit = .ok m) :
    options.Succeeds image ↔ (Control.ofLimits options.rate options.budget).Lasts m := by
  rw [Control.lasts_iff (Machine.cycles_boot hm), Options.succeeds_iff]
  constructor
  · rintro ⟨-, t, budget, ht, hbudget, hcomp⟩
    obtain rfl : m = t := Except.ok.inj (hm.symm.trans ht)
    exact ⟨budget, hbudget, hcomp⟩
  · rintro ⟨budget, hbudget, hcomp⟩
    exact ⟨Memory.length_of_load (Machine.of_boot hm).1, m, budget, hm, hbudget, hcomp⟩

open Classical in
/-- The program succeeds or fails, and there is no third way. -/
theorem status_execute (options : Options) (image : List UInt8) :
    (execute options (.ok image)).status = if options.Succeeds image then 0 else 1 := by
  cases hm : Machine.boot image options.stackLimit with
  | error fault =>
    rw [execute_of_refused hm, if_neg]
    rintro ⟨-, m, budget, ht, -⟩
    exact nomatch hm.symm.trans ht
  | ok m =>
    rw [execute_of_boot hm, conclude, Options.succeeds_iff_lasts hm]
    rcases Control.run_cases (c := .ofLimits options.rate options.budget) rfl m with
      ⟨hlasts, hr⟩ | ⟨hlasts, fault, hr⟩
    · rw [hr, if_pos hlasts, exitStatus]
    · rw [hr, if_neg hlasts, exitStatus]

/-- A command line that is accepted has its options executed. -/
theorem run_of_accepted {read : String → Except ReadError (List UInt8)} {arguments : List String}
    {options : Options} (hoptions : Options.ofArguments arguments = .ok options) :
    run read arguments = execute options (read options.rom) := by
  simp only [run, hoptions]

/-- The exit status is 0 if the image fits, a budget is given and the cycles that it counts all
complete, and 1 in every other case. An image that fits is run to an end. Nothing else that is asked
for matters, and a command line matters by the options that it is read into. -/
theorem status_run (options : Options) (image : List UInt8) :
    ((execute options (.ok image)).status = 0 ↔ options.Succeeds image) ∧
      ((execute options (.ok image)).status = 1 ↔ ¬options.Succeeds image) ∧
      (image.length ≤ 3584 → ∃ m notices n report,
        Machine.boot image options.stackLimit = .ok m ∧
        Session.EndsAfter .absent n
          (Session.start (.ofLimits options.rate options.budget) m ()) report ∧
        execute options (.ok image) = conclude options notices report) ∧
      (options.budget = none → (execute options (.ok image)).status = 1) ∧
      (options.budget = some 0 → image.length ≤ 3584 →
        (execute options (.ok image)).status = 0) ∧
      (∀ other : Options, other.stackLimit = options.stackLimit → other.budget = options.budget →
        (execute other (.ok image)).status = (execute options (.ok image)).status) ∧
      ∀ (read : String → Except ReadError (List UInt8)) (arguments : List String),
        Options.ofArguments arguments = .ok options → read options.rom = .ok image →
          run read arguments = execute options (.ok image) := by
  have hstatus := status_execute options image
  refine ⟨?zero, ?one, fun hfits => ?ends, fun hnone => ?unbounded, fun hzero hfits => ?nothing,
    fun other hlimit hbudget => ?same, fun read arguments hoptions hread => ?accepted⟩
  case zero => simp [hstatus]
  case one => simp [hstatus]
  case ends =>
    obtain ⟨m, hm⟩ := Machine.exists_boot hfits options.stackLimit
    obtain ⟨n, hn⟩ := Session.exists_endsAfter_finish .absent
      (Session.start (.ofLimits options.rate options.budget) m ())
    exact ⟨m, _, n, _, hm, hn, execute_of_boot hm⟩
  case unbounded =>
    rw [hstatus, if_neg]
    rintro ⟨-, m, budget, -, hbudget, -⟩
    simp [hnone] at hbudget
  case nothing =>
    obtain ⟨m, hm⟩ := Machine.exists_boot hfits options.stackLimit
    rw [hstatus, if_pos ⟨hfits, m, 0, hm, hzero, m.completes_zero⟩]
  case same =>
    have hsucceeds : other.Succeeds image ↔ options.Succeeds image := by
      simp only [Options.succeeds_iff, hlimit, hbudget]
    rw [hstatus, status_execute, hsucceeds]
  case accepted => rw [run_of_accepted hoptions, hread]

/-- A fresh machine that sets a register in its first cycle and finds no instruction in its
second. -/
theorem exists_secondFault : ∃ m, Machine.boot [0x60, 0x01, 0x00, 0x00] 16 = .ok m ∧
    m.pc = 0x200 ∧ m.cycles = 0 ∧ m.word = .ok 0x6001 ∧ m.Executes 0 (.set 0 1) ∧
      m.next.pc = 0x202 ∧ m.next.cycles = 1 ∧ m.next.picture = Picture.blank ∧
        m.next.word = .ok 0 ∧ m.Faults 1 (.unknownOpcode 0) ∧ m.next.next = m.next := by
  have hlen : ([0x60, 0x01, 0x00, 0x00] : List UInt8).length ≤ Memory.capacity := by decide
  obtain ⟨m, hm⟩ := Machine.exists_boot hlen 16
  obtain ⟨memory, -, hfresh⟩ := Machine.boot_eq_ok_iff.1 hm
  have hw : m.word = .ok 0x6001 :=
    (Machine.word_of_image 0 hm rfl (by rw [hfresh]; rfl) rfl rfl).trans rfl
  have hf : m.fetch = .ok (.set 0 1) := Machine.fetch_eq_ok_iff.2 ⟨_, hw, rfl⟩
  have hstep := Machine.step_of_execute_ok hf rfl
  have hnext : m.next = { (m.execute (.set 0 1)).state with cycles := 1 } := by
    rw [Machine.next, hstep, hfresh]
    rfl
  have hw' : m.next.word = .ok 0 :=
    (Machine.word_of_image 2 hm (Machine.memory_next_of_ne (by simp [hf]))
      (by rw [hnext, hfresh]; rfl) rfl rfl).trans rfl
  have hf' : m.next.fetch = .error (.unknownOpcode 0) := by
    rw [Machine.fetch, hw']
    rfl
  have hstep' := Machine.step_of_fetch_error hf'
  have hrest : m.next.step.state = m.next := by rw [hstep']
  exact ⟨m, hm, by rw [hfresh]; rfl, by rw [hfresh], hw, congrArg _ hstep,
    by rw [hnext, hfresh]; rfl, by rw [hnext], by rw [hnext, hfresh]; rfl, hw',
    congrArg _ hstep', hrest⟩

/-- A program whose second cycle ends with a fault, with a budget for one cycle or for two. -/
theorem status_run_secondFault :
    let read : String → Except ReadError (List UInt8) := fun _ => .ok [0x60, 0x01, 0x00, 0x00]
    (run read ["a", "--max-cycles", "1"]).status = 0 ∧
      (run read ["--hz=500", "-vv", "--dump-display", "--max-cycles", "1", "a"]).status = 0 ∧
        (run read ["a", "--max-cycles", "2"]).status = 1 := by
  intro read
  obtain ⟨m, hm, -, -, -, hx, -, -, -, -, hfault, -⟩ := exists_secondFault
  have hcomp : m.Completes 1 := Machine.completes_succ_of_next hx (Machine.completes_zero _)
  let options (budget : UInt64) : Options := ⟨"a", none, some budget, 16, false, .info⟩
  let others : Options := ⟨"a", some 500, some 1, 16, true, .trace⟩
  have hsucceeds : (options 1).Succeeds [0x60, 0x01, 0x00, 0x00] :=
    ⟨by decide, m, 1, hm, rfl, hcomp⟩
  have hfails : ¬(options 2).Succeeds [0x60, 0x01, 0x00, 0x00] := by
    rintro ⟨-, t, budget, ht, hbudget, hall⟩
    obtain rfl : m = t := Except.ok.inj (hm.symm.trans ht)
    obtain rfl : 2 = budget := Option.some.inj hbudget
    obtain ⟨i, hi⟩ := hall 1 (by decide)
    exact hi.not_faults hfault
  obtain ⟨hzero, -, -, -, -, hsame, hrun⟩ := status_run (options 1) [0x60, 0x01, 0x00, 0x00]
  obtain ⟨-, hone, -, -, -, -, hrun'⟩ := status_run (options 2) [0x60, 0x01, 0x00, 0x00]
  have hasked := (status_run others [0x60, 0x01, 0x00, 0x00]).2.2.2.2.2.2 read
    ["--hz=500", "-vv", "--dump-display", "--max-cycles", "1", "a"] rfl rfl
  rw [hrun read _ rfl rfl, hasked, hrun' read _ rfl rfl]
  exact ⟨hzero.2 hsucceeds, (hsame others rfl rfl).trans (hzero.2 hsucceeds), hone.2 hfails⟩

end CommandLine

end Chip8
