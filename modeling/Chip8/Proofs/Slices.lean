import Chip8.Proofs.Course
import Chip8.Proofs.Termination

/-!
# Runs in slices

A machine can be run until it is stopped, and run again from there, each time before another
observer and with another budget (`Slice`). As long as no fault ends it, a run leaves the machine
after the cycles whose pictures its observer was shown (`Session.of_run_ok`). So the slices together
make the cycles of one run, and show its pictures (`Slice.of_unfailing`).

A budget counts the cycles that the machine has made in its life. A run that has used up its budget
and is taken up with a greater one comes to the end of a run which had the greater one from the
start : before the same observer (`Session.run_resumed`), and also before any others that do not
stop it, because these come to the end that a run before nobody comes to
(`Session.run_of_not_cancelled`).
-/

namespace Chip8

namespace Session

variable {σ : Type} {o : Observer σ} {s : Session σ} {c : Control} {m : Machine} {view : σ}
  {ending : Ending} {report : Report σ}

/-! ## Runs without a fault -/

theorem Concludes.machine_eq (h : s.Concludes report) (hr : report.result = .ok ending) :
    report.session.machine = s.machine := by
  cases h with
  | cancelled hc log => rfl
  | spent hc hb log => rfl
  | fault hc hb hf log => exact nomatch hr

theorem Concludes.not_cancelled (h : s.Concludes report)
    (hr : report.result ≠ .ok .cancelled) : s.control.cancelled = false := by
  cases h with
  | cancelled hc log => exact (hr rfl).elim
  | spent hc hb log => exact hc
  | fault hc hb hf log => exact hc

/-- A run that ends without a fault leaves the machine after the cycles whose pictures it has
shown. -/
theorem of_run_ok (h : (run c o m view).result = .ok ending) :
    ∃ n, m.Completes n ∧ (run c o m view).session.machine = m.after n ∧
      seen c o m view = m.pictures n := by
  obtain ⟨n, hn⟩ := exists_endsAfter_finish o (start c m view)
  obtain ⟨hgo, hend⟩ := hn.concludes
  exact ⟨n, completes_of_goesOn hgo, (hend.machine_eq h).trans (machine_along o _ n), hn.seen_eq⟩

/-! ## Runs that nobody stops -/

theorem result_of_cancelled (hc : s.control.cancelled = true) :
    (s.finish o).result = .ok .cancelled := by
  obtain ⟨log, hover⟩ := cycle_of_cancelled (o := o) hc
  rw [finish_of_over hover]

/-- A run that is not cancelled comes to the end it would come to before nobody. -/
theorem run_of_not_cancelled (h : (run c o m view).result ≠ .ok .cancelled) :
    (c.run m).result = (run c o m view).result ∧
      (c.run m).session.machine = (run c o m view).session.machine := by
  obtain ⟨n, hn⟩ := exists_endsAfter_finish o (start c m view)
  obtain ⟨other, hother, hresult, hmachine⟩ := hn.simulate (p := .absent) (t := start c m ())
    (R := fun s t => Alike s t ∧ (s.finish o).result ≠ .ok .cancelled) (fun _ _ hst => hst.1)
    (fun s t ⟨hst, hno⟩ hgo => by
      rw [finish_of_on hgo.cycle_eq] at hno
      refine ⟨hst.onward ?_, hno⟩
      cases hlook : (o.look s.view s.machine.next.picture).2 with
      | true => rfl
      | false =>
        refine (hno (result_of_cancelled ?_)).elim
        rw [onward, hlook]
        rfl)
    ⟨⟨rfl, rfl, rfl⟩, h⟩
  rw [Control.run, run, hother.finish_eq]
  exact ⟨hresult.symm, hmachine.symm⟩

/-! ## Runs that are taken up again -/

section resumed

variable {a b : UInt64} {rate rate' rate'' : Option UInt32}

/-- Whether a run is cancelled on the way is decided by the answers alone. -/
theorem cancelled_along_ofLimits (o : Observer σ) (m : Machine) (view : σ) (n : Nat) :
    ((start (.ofLimits rate' (some b)) m view).along o n).control.cancelled =
      ((start (.ofLimits rate (some a)) m view).along o n).control.cancelled :=
  Bool.eq_iff_iff.2 ((cancelled_along o (start (.ofLimits rate' (some b)) m view) n).trans
    (cancelled_along o (start (.ofLimits rate (some a)) m view) n).symm)

/-- Rounds that go on with a budget go on with a greater one. -/
theorem GoesOn.of_budget_le {n : Nat} (hab : a ≤ b)
    (h : ((start (.ofLimits rate (some a)) m view).along o n).GoesOn) :
    ((start (.ofLimits rate' (some b)) m view).along o n).GoesOn := by
  obtain ⟨hc, hb, hi⟩ := goesOn_along_iff.1 h
  have hlt := UInt64.lt_of_lt_of_le (UInt64.not_le.1 (of_decide_eq_false hb)) hab
  refine goesOn_along_iff.2 ⟨(cancelled_along_ofLimits o m view n).trans hc, ?_, hi⟩
  exact decide_eq_false (UInt64.not_le.2 hlt)

/-- A run that has used up its budget and is taken up before the same observer with a greater one
comes to the end of a run which had the greater one from the start. -/
theorem run_resumed (hab : a ≤ b) (rate rate' rate'' : Option UInt32)
    (h : (run (.ofLimits rate (some a)) o m view).result = .ok .budgetReached) :
    let first := (run (.ofLimits rate (some a)) o m view).session
    let second := run (.ofLimits rate' (some b)) o first.machine first.view
    let whole := run (.ofLimits rate'' (some b)) o m view
    second.result = whole.result ∧ second.session.machine = whole.session.machine ∧
      second.session.view = whole.session.view := by
  intro first second whole
  obtain ⟨n, hn⟩ := exists_endsAfter_finish o (start (.ofLimits rate (some a)) m view)
  obtain ⟨hgo, hend⟩ := hn.concludes
  have hmachine : first.machine = m.after n := (hend.machine_eq h).trans (machine_along o _ n)
  have hview : first.view = o.shown view (m.pictures n) := hn.view_eq
  let s := start (.ofLimits rate'' (some b)) m view
  have hcancelled : (s.along o n).control.cancelled = false :=
    (cancelled_along_ofLimits o m view n).trans
      (hend.not_cancelled fun hc => nomatch h.symm.trans hc)
  -- Where the first run ends, the whole run is as the second at its start.
  have halike : Alike (start (.ofLimits rate' (some b)) first.machine first.view) (s.along o n) :=
    ⟨hcancelled.symm, (budget_along o s n).symm, hmachine.trans (machine_along o s n).symm⟩
  have hsame := halike.finish_same (hview.trans (view_along o s n).symm) o
  rw [finish_along fun k hk => (hgo k hk).of_budget_le hab] at hsame
  exact hsame

/-- The observers may also be others, as long as the run is not cancelled. -/
theorem run_resumed_of_not_cancelled {σ₁ σ₂ σ₃ : Type} {o₁ : Observer σ₁} {o₂ : Observer σ₂}
    {o₃ : Observer σ₃} {view₁ : σ₁} {view₂ : σ₂} {view₃ : σ₃} (hab : a ≤ b)
    (rate rate' rate'' : Option UInt32)
    (h : (run (.ofLimits rate (some a)) o₁ m view₁).result = .ok .budgetReached) :
    let first := (run (.ofLimits rate (some a)) o₁ m view₁).session
    let second := run (.ofLimits rate' (some b)) o₂ first.machine view₂
    let whole := run (.ofLimits rate'' (some b)) o₃ m view₃
    second.result ≠ .ok .cancelled → whole.result ≠ .ok .cancelled →
      second.result = whole.result ∧ second.session.machine = whole.session.machine := by
  intro first second whole hsecond hwhole
  obtain ⟨hr₁, hm₁⟩ := run_of_not_cancelled (fun hc => nomatch h.symm.trans hc)
  obtain ⟨hr₂, hm₂⟩ := run_of_not_cancelled hsecond
  obtain ⟨hr₃, hm₃⟩ := run_of_not_cancelled hwhole
  obtain ⟨hresult, hmachine, -⟩ := run_resumed (o := .absent) hab rate rate' rate'' (hr₁.trans h)
  change (run (.ofLimits rate (some a)) .absent m ()).session.machine = first.machine at hm₁
  rw [hm₁] at hresult hmachine
  exact ⟨hr₂.symm.trans (hresult.trans hr₃), hm₂.symm.trans (hmachine.trans hm₃)⟩

end resumed

/-! ## Runs before nobody -/

theorem control_along_absent (s : Session Unit) : ∀ n, (s.along .absent n).control = s.control
  | 0 => rfl
  | n + 1 => control_along_absent s n

/-- A run before nobody whose budget leaves `n` cycles ends when it is used up, if these cycles
complete. -/
theorem run_of_budget {n : Nat} (rate : Option UInt32) (budget : UInt64) (hcomp : m.Completes n)
    (hn : budget.toNat = m.cycles.toNat + n) :
    ((Control.ofLimits rate (some budget)).run m).result = .ok .budgetReached ∧
      ((Control.ofLimits rate (some budget)).run m).session.machine = m.after n ∧
        seen (.ofLimits rate (some budget)) .absent m () = m.pictures n := by
  let s := start (.ofLimits rate (some budget)) m ()
  have hbudget := budget.toNat_lt_size
  have hspent : ∀ k ≤ n, s.control.spent (m.after k).cycles = decide (n ≤ k) := fun k hk => by
    refine decide_eq_decide.2 (UInt64.le_iff_toNat_le.trans ?_)
    rw [Machine.toNat_cycles_after (hcomp.mono hk) (by omega)]
    omega
  have hcancelled : ∀ k, (s.along .absent k).control.cancelled = false := fun k =>
    congrArg Control.cancelled (control_along_absent s k)
  have hgo : ∀ k < n, (s.along .absent k).GoesOn := fun k hk => goesOn_along_iff.2
    ⟨hcancelled k, (hspent k (Nat.le_of_lt hk)).trans (decide_eq_false (by omega)), hcomp k hk⟩
  have hused : (s.along .absent n).control.spent (s.along .absent n).machine.cycles = true := by
    rw [spent_along, machine_along]
    exact (hspent n (Nat.le_refl n)).trans (decide_eq_true (Nat.le_refl n))
  obtain ⟨log, hover⟩ := cycle_of_spent (o := .absent) (hcancelled n) hused
  have hend := EndsAfter.of_along hgo ⟨_, .zero _, hover⟩
  rw [Control.run, run, hend.finish_eq]
  exact ⟨rfl, machine_along .absent s n, hend.seen_eq⟩

end Session

/-! ## Slices -/

/-- A run to be made on a machine : what it is held to, and who looks. -/
structure Slice where
  View : Type
  control : Control
  observer : Observer View
  view : View

namespace Slice

/-- The run of a slice. -/
def run (s : Slice) (m : Machine) : Report s.View :=
  Session.run s.control s.observer m s.view

/-- What is shown in the run of a slice. -/
def seen (s : Slice) (m : Machine) : List Picture :=
  Session.seen s.control s.observer m s.view

/-- The machine that the run of a slice leaves. -/
def leaves (s : Slice) (m : Machine) : Machine :=
  (s.run m).session.machine

/-- A run that nothing but a fault can end. -/
def unhindered : Slice := ⟨Unit, .ofLimits none none, .absent, ()⟩

/-- Slices that are run one after the other end without a fault, each of them. -/
def Unfailing : List Slice → Machine → Prop
  | [], _ => True
  | s :: slices, m => (∃ ending, (s.run m).result = .ok ending) ∧ Unfailing slices (s.leaves m)

/-- The machine that slices leave which are run one after the other. -/
def leftBy : List Slice → Machine → Machine
  | [], m => m
  | s :: slices, m => leftBy slices (s.leaves m)

/-- What is shown in slices that are run one after the other. -/
def shownIn : List Slice → Machine → List Picture
  | [], _ => []
  | s :: slices, m => s.seen m ++ shownIn slices (s.leaves m)

/-- Slices make the cycles of one run, and show its pictures. -/
theorem of_unfailing : ∀ {slices : List Slice} {m : Machine}, Unfailing slices m →
    ∃ n, m.Completes n ∧ leftBy slices m = m.after n ∧ shownIn slices m = m.pictures n
  | [], m, _ => ⟨0, m.completes_zero, rfl, rfl⟩
  | s :: slices, m, ⟨⟨_, hs⟩, hslices⟩ => by
    obtain ⟨k, hk, hleaves, hseen⟩ := Session.of_run_ok hs
    change s.leaves m = m.after k at hleaves
    obtain ⟨n, hn, hleft, hshown⟩ := of_unfailing hslices
    rw [hleaves] at hn hleft hshown
    refine ⟨k + n, hk.add hn, ?_, ?_⟩
    · rw [leftBy, hleaves, hleft, m.after_add]
    · rw [shownIn, hleaves, hshown, m.pictures_add, ← hseen]
      rfl

/-- A run that nothing but a fault can end shows the pictures of all cycles that complete. -/
theorem exists_seen_unhindered (m : Machine) :
    ∃ k fault, m.Faults k fault ∧ unhindered.seen m = m.pictures k := by
  obtain ⟨k, -, hcomp, fault, hf⟩ := m.haltsWithin_rank
  obtain ⟨report, hend, -⟩ := Session.exists_endsAfter (o := .absent) (fun _ _ => rfl)
    (s := Session.start unhindered.control m ()) rfl rfl hcomp hf
  exact ⟨k, fault, hf, hend.seen_eq⟩

/-- Slices that end without a fault do together what one run does, and show what it shows. A run
that has used up its budget and is taken up with a greater one comes to the end that it would have
come to with the greater one from the start. -/
theorem slices_same (m : Machine) :
    (∀ slices : List Slice, Unfailing slices m →
      ∃ n, n = (shownIn slices m).length ∧ m.Completes n ∧ leftBy slices m = m.after n ∧
        (∀ whole : Slice, (whole.seen m).length = n → whole.seen m = shownIn slices m) ∧
        shownIn slices m <+: unhindered.seen m) ∧
    ∀ (a b : UInt64) (rate rate' rate'' : Option UInt32), a ≤ b →
      (∀ (σ : Type) (o : Observer σ) (view : σ),
        let first := Session.run (.ofLimits rate (some a)) o m view
        let second :=
          Session.run (.ofLimits rate' (some b)) o first.session.machine first.session.view
        let whole := Session.run (.ofLimits rate'' (some b)) o m view
        first.result = .ok .budgetReached → second.result = whole.result ∧
          second.session.machine = whole.session.machine ∧
            second.session.view = whole.session.view) ∧
      ∀ first second whole : Slice, first.control = .ofLimits rate (some a) →
        second.control = .ofLimits rate' (some b) → whole.control = .ofLimits rate'' (some b) →
          (first.run m).result = .ok .budgetReached →
          (second.run (first.leaves m)).result ≠ .ok .cancelled →
          (whole.run m).result ≠ .ok .cancelled →
            (second.run (first.leaves m)).result = (whole.run m).result ∧
              second.leaves (first.leaves m) = whole.leaves m := by
  refine ⟨fun slices h => ?_, fun a b rate rate' rate'' hab =>
    ⟨fun σ o view h => Session.run_resumed hab rate rate' rate'' h, ?_⟩⟩
  · obtain ⟨n, hcomp, hleft, hshown⟩ := of_unfailing h
    refine ⟨n, by rw [hshown, Machine.length_pictures], hcomp, hleft, fun whole hwhole => ?_, ?_⟩
    · obtain ⟨k, hk⟩ := Session.exists_endsAfter_finish whole.observer
        (Session.start whole.control m whole.view)
      have hseen : whole.seen m = m.pictures k := hk.seen_eq
      obtain rfl : k = n := by rw [← hwhole, hseen, Machine.length_pictures]
      rw [hseen, hshown]
    · obtain ⟨k, fault, hf, hseen⟩ := exists_seen_unhindered m
      have hle : n ≤ k := Nat.le_of_not_lt fun hlt => by
        obtain ⟨i, hi⟩ := hcomp k hlt
        exact hi.not_faults hf
      obtain ⟨d, rfl⟩ := Nat.exists_eq_add_of_le hle
      rw [hshown, hseen, m.pictures_add]
      exact List.prefix_append _ _
  · rintro ⟨_, _, o₁, view₁⟩ ⟨_, _, o₂, view₂⟩ ⟨_, _, o₃, view₃⟩ rfl rfl rfl h
    exact Session.run_resumed_of_not_cancelled hab rate rate' rate'' h

/-- A slice whose observer stops it at the first look. -/
def stopped : Slice := ⟨Unit, .ofLimits none none, ⟨fun _ _ => ((), false)⟩, ()⟩

/-- It is cancelled after one cycle, if that completes. -/
theorem run_stopped {m : Machine} (h : m.Completes 1) :
    (stopped.run m).result = .ok .cancelled ∧ stopped.leaves m = m.after 1 ∧
      stopped.seen m = m.pictures 1 := by
  obtain ⟨i, hi⟩ := h 0 Nat.one_pos
  let s := Session.start stopped.control m ()
  have hfirst : s.cycle stopped.observer = .on (s.onward stopped.observer) :=
    Session.cycle_of_executes rfl rfl hi
  obtain ⟨log, hlast⟩ := Session.cycle_of_cancelled (o := stopped.observer)
    (s := s.onward stopped.observer) rfl
  have hend : Session.EndsAfter stopped.observer 1 s _ := .succ hfirst ⟨_, .zero _, hlast⟩
  have hrun : stopped.run m = _ := hend.finish_eq
  rw [leaves, hrun]
  exact ⟨rfl, rfl, hend.seen_eq⟩

/-- A program that sets two registers : stopped by an observer after one cycle and taken up for
another, and run for one cycle by its budget and then for another. -/
theorem slices_same_setTwice :
    let first : Slice := ⟨Unit, .ofLimits none (some 1), .absent, ()⟩
    let second : Slice := ⟨Unit, .ofLimits none (some 2), .absent, ()⟩
    ∃ m, Machine.boot [0x60, 0x01, 0x61, 0x02] 16 = .ok m ∧
      (stopped.run m).result = .ok .cancelled ∧ Unfailing [stopped, second] m ∧
      leftBy [stopped, second] m = m.after 2 ∧
      (first.run m).result = .ok .budgetReached ∧
        (second.run (first.leaves m)).result = (second.run m).result ∧
          second.leaves (first.leaves m) = second.leaves m := by
  intro first second
  have hlen : ([0x60, 0x01, 0x61, 0x02] : List UInt8).length ≤ Memory.capacity := by decide
  obtain ⟨m, hm⟩ := Machine.exists_boot hlen 16
  obtain ⟨memory, -, hfresh⟩ := Machine.boot_eq_ok_iff.1 hm
  have hf0 : m.fetch = .ok (.set 0 1) :=
    (Machine.fetch_of_image 0 hm rfl (by rw [hfresh]; rfl) rfl rfl).trans rfl
  have hpc : m.next.pc = 0x202 := by
    rw [Machine.next, Machine.step_of_execute_ok hf0 rfl, hfresh]
    rfl
  have hf1 : m.next.fetch = .ok (.set 1 2) :=
    (Machine.fetch_of_image 2 hm (Machine.memory_next_of_ne (by simp [hf0])) (by rw [hpc]; rfl) rfl
      rfl).trans rfl
  have hcomp : m.Completes 2 :=
    Machine.completes_succ_of_next (congrArg _ (Machine.step_of_execute_ok hf0 rfl))
      (Machine.completes_succ_of_next (congrArg _ (Machine.step_of_execute_ok hf1 rfl))
        (Machine.completes_zero _))
  have hcycles : m.cycles.toNat = 0 := by
    rw [hfresh]
    rfl
  have hcycles' : (m.after 1).cycles.toNat = 1 := by
    rw [Machine.toNat_cycles_after (hcomp.mono (by decide)) (by rw [hcycles]; decide),
      hcycles]
  obtain ⟨hr₀, hm₀, hs₀⟩ := run_stopped (hcomp.mono (by decide))
  obtain ⟨hr₁, hm₁, -⟩ := Session.run_of_budget (n := 1) none 1
    (hcomp.mono (by decide)) (by rw [hcycles]; rfl)
  obtain ⟨hr₂, -, hs₂⟩ := Session.run_of_budget (m := m.after 1) (n := 1) none 2
    hcomp.next (by rw [hcycles']; rfl)
  obtain ⟨hr₃, -⟩ := Session.run_of_budget none 2 hcomp (by rw [hcycles]; rfl)
  have hleaves : first.leaves m = m.after 1 := hm₁
  have hunfailing : Unfailing [stopped, second] m :=
    ⟨⟨_, hr₀⟩, ⟨_, by rw [hm₀]; exact hr₂⟩, trivial⟩
  obtain ⟨hslices, hbudgets⟩ := slices_same m
  obtain ⟨n, hn, -, hleft, -⟩ := hslices _ hunfailing
  obtain rfl : n = 2 := by
    rw [hn, shownIn, shownIn, shownIn, hm₀, hs₀, show second.seen _ = _ from hs₂]
    rfl
  have hother := (hbudgets 1 2 none none none (by decide)).2 first second second rfl rfl rfl hr₁
    (by rw [hleaves, show (second.run _).result = _ from hr₂]; simp)
    (by rw [show (second.run m).result = _ from hr₃]; simp)
  exact ⟨m, hm, hr₀, hunfailing, hleft, hr₁, hother⟩

end Slice

end Chip8
