import Chip8.Proofs.Session

/-!
# The course of a run

What each part of a session is after a number of rounds that go on (`Session.along`) : the machine
has made as many cycles, the observer has been shown the picture after each of them, and the run is
cancelled if one of these looks was answered with a stop. A round goes on if the run is not
cancelled, its budget not used up, and the cycle completes (`Session.GoesOn`).

Every run comes to its end (`Session.exists_endsAfter_finish`), after rounds that go on and with one
that does not (`Session.EndsAfter.concludes`), of which there are three kinds (`Session.Concludes`).

Two runs come to the same end if their rounds keep the sessions alike up to the observers
(`Session.EndsAfter.simulate`). So it does no harm to keep a list of what an observer is shown
(`Observer.recording`), and it is the pictures of the cycles that completed, in order
(`Session.EndsAfter.seen_eq`).
-/

namespace Chip8

/-- The pictures that the first `n` cycles leave, in order. -/
def Machine.pictures (m : Machine) (n : Nat) : List Picture :=
  (List.range n).map fun k => (m.after (k + 1)).picture

namespace Machine

theorem length_pictures (m : Machine) (n : Nat) : (m.pictures n).length = n := by
  simp [pictures]

theorem pictures_succ (m : Machine) (n : Nat) :
    m.pictures (n + 1) = m.pictures n ++ [(m.after (n + 1)).picture] := by
  simp [pictures, List.range_succ]

theorem pictures_add (m : Machine) (k : Nat) : ∀ n,
    m.pictures (k + n) = m.pictures k ++ (m.after k).pictures n
  | 0 => by simp [pictures]
  | n + 1 => by
    rw [← Nat.add_assoc, pictures_succ, m.pictures_add k n, pictures_succ, ← m.after_add k (n + 1),
      List.append_assoc]
    rfl

end Machine

namespace Observer

variable {σ : Type}

/-- The state of an observer who has been shown pictures one after the other. -/
def shown (o : Observer σ) (view : σ) (pictures : List Picture) : σ :=
  pictures.foldl (fun view picture => (o.look view picture).1) view

theorem shown_append (o : Observer σ) (view : σ) (pictures later : List Picture) :
    o.shown view (pictures ++ later) = o.shown (o.shown view pictures) later :=
  List.foldl_append

/-- The look at the picture after cycle number `k`, counted from 1, is answered with a stop. -/
def StopsAt (o : Observer σ) (m : Machine) (view : σ) : Nat → Prop
  | 0 => False
  | k + 1 => (o.look (o.shown view (m.pictures k)) (m.after (k + 1)).picture).2 = false

/-- An observer who answers like another and keeps a list of the pictures. -/
def recording (o : Observer σ) : Observer (σ × List Picture) where
  look := fun (view, seen) picture =>
    (((o.look view picture).1, seen ++ [picture]), (o.look view picture).2)

theorem shown_recording (o : Observer σ) : ∀ (pictures : List Picture) (view : σ)
    (seen : List Picture),
    o.recording.shown (view, seen) pictures = (o.shown view pictures, seen ++ pictures)
  | [], view, seen => by simp [shown]
  | picture :: pictures, view, seen => by
    have ih := o.shown_recording pictures (o.look view picture).1 (seen ++ [picture])
    rw [List.append_assoc, List.singleton_append] at ih
    exact ih

end Observer

namespace Session

variable {σ τ : Type} {o : Observer σ} {s t : Session σ} {n : Nat}

/-- The session after `n` rounds that go on. -/
def along (o : Observer σ) (s : Session σ) : Nat → Session σ
  | 0 => s
  | n + 1 => (s.along o n).onward o

theorem along_onward (o : Observer σ) (s : Session σ) : ∀ n,
    (s.onward o).along o n = s.along o (n + 1)
  | 0 => rfl
  | n + 1 => congrArg (onward o) (along_onward o s n)

/-! ## The parts of a session -/

theorem machine_along (o : Observer σ) (s : Session σ) : ∀ n,
    (s.along o n).machine = s.machine.after n
  | 0 => rfl
  | n + 1 => congrArg Machine.next (machine_along o s n)

theorem view_along (o : Observer σ) (s : Session σ) : ∀ n,
    (s.along o n).view = o.shown s.view (s.machine.pictures n)
  | 0 => rfl
  | n + 1 => by
    rw [Machine.pictures_succ, Observer.shown_append, ← view_along o s n, Machine.after_succ,
      ← machine_along o s n]
    rfl

theorem budget_along (o : Observer σ) (s : Session σ) : ∀ n,
    (s.along o n).control.budget = s.control.budget
  | 0 => rfl
  | n + 1 => by
    rw [← budget_along o s n, along, onward]
    split <;> rfl

theorem spent_along (o : Observer σ) (s : Session σ) (n : Nat) (cycles : UInt64) :
    (s.along o n).control.spent cycles = s.control.spent cycles := by
  rw [Control.spent, budget_along, Control.spent]

/-- A run is cancelled once an observer has answered with a stop, if it was not before. -/
theorem cancelled_along (o : Observer σ) (s : Session σ) : ∀ n,
    (s.along o n).control.cancelled = true ↔
      s.control.cancelled = true ∨ ∃ k ≤ n, o.StopsAt s.machine s.view k
  | 0 => by
    simp only [along, Nat.le_zero, exists_eq_left]
    exact ⟨Or.inl, fun h => h.resolve_right id⟩
  | n + 1 => by
    have ih := cancelled_along o s n
    have hlook : (o.look (s.along o n).view (s.along o n).machine.next.picture).2 = false ↔
        o.StopsAt s.machine s.view (n + 1) := by
      rw [view_along, machine_along]
      rfl
    rw [along, onward]
    cases ha : (o.look (s.along o n).view (s.along o n).machine.next.picture).2 with
    | false => exact ⟨fun _ => Or.inr ⟨n + 1, Nat.le_refl _, hlook.1 ha⟩, fun _ => rfl⟩
    | true =>
      have hno : ¬o.StopsAt s.machine s.view (n + 1) := by simp [← hlook, ha]
      rw [if_pos rfl, ih]
      refine or_congr_right
        ⟨fun ⟨k, hk, hs⟩ => ⟨k, Nat.le_succ_of_le hk, hs⟩, fun ⟨k, hk, hs⟩ => ?_⟩
      rcases Nat.le_succ_iff.1 hk with hk | rfl
      · exact ⟨k, hk, hs⟩
      · exact (hno hs).elim

/-! ## How a run comes to its end -/

/-- The next round goes on : the run is not cancelled, the budget not used up, and the cycle
completes. -/
structure GoesOn (s : Session σ) : Prop where
  not_cancelled : s.control.cancelled = false
  not_spent : s.control.spent s.machine.cycles = false
  completes : ∃ i, s.machine.Executes 0 i

/-- The next round is the last, with this report : the run is cancelled, or else the budget is used
up, or else the cycle ends with a fault. -/
inductive Concludes (s : Session σ) : Report σ → Prop where
  | cancelled (hc : s.control.cancelled = true) (log : Array Event) :
    Concludes s ⟨{ s with log }, .ok .cancelled⟩
  | spent (hc : s.control.cancelled = false) (hb : s.control.spent s.machine.cycles = true)
      (log : Array Event) : Concludes s ⟨{ s with log }, .ok .budgetReached⟩
  | fault (hc : s.control.cancelled = false) (hb : s.control.spent s.machine.cycles = false)
      {fault : Fault} (hf : s.machine.Faults 0 fault) (log : Array Event) :
    Concludes s ⟨{ s with machine := s.machine.next, log }, .error fault⟩

theorem GoesOn.cycle_eq (h : s.GoesOn) : s.cycle o = .on (s.onward o) := by
  obtain ⟨i, hi⟩ := h.completes
  exact cycle_of_executes h.not_cancelled h.not_spent hi

/-- A round goes on or is the last. -/
theorem cycle_cases (o : Observer σ) (s : Session σ) :
    (s.GoesOn ∧ s.cycle o = .on (s.onward o)) ∨
      ∃ report, s.Concludes report ∧ s.cycle o = .over report := by
  cases hc : s.control.cancelled with
  | true =>
    obtain ⟨log, h⟩ := cycle_of_cancelled (o := o) hc
    exact Or.inr ⟨_, .cancelled hc log, h⟩
  | false =>
    cases hb : s.control.spent s.machine.cycles with
    | true =>
      obtain ⟨log, h⟩ := cycle_of_spent (o := o) hc hb
      exact Or.inr ⟨_, .spent hc hb log, h⟩
    | false =>
      cases hs : s.machine.step.result with
      | ok i =>
        have hgo : s.GoesOn := ⟨hc, hb, i, hs⟩
        exact Or.inl ⟨hgo, hgo.cycle_eq⟩
      | error fault =>
        obtain ⟨log, h⟩ := cycle_of_faults (o := o) hc hb hs
        exact Or.inr ⟨_, .fault hc hb hs log, h⟩

theorem goesOn_of_cycle (h : s.cycle o = .on t) : s.GoesOn ∧ t = s.onward o := by
  rcases cycle_cases o s with ⟨hgo, hon⟩ | ⟨report, -, hover⟩
  · exact ⟨hgo, Round.on.inj (h.symm.trans hon)⟩
  · simp [h] at hover

theorem concludes_of_cycle {report : Report σ} (h : s.cycle o = .over report) :
    s.Concludes report := by
  rcases cycle_cases o s with ⟨-, hon⟩ | ⟨report', hs, hover⟩
  · simp [h] at hon
  · exact Round.over.inj (h.symm.trans hover) ▸ hs

theorem Goes.eq_along (h : Goes o n s t) : t = s.along o n ∧ ∀ k < n, (s.along o k).GoesOn := by
  induction h with
  | zero s => exact ⟨rfl, fun k hk => (Nat.not_lt_zero k hk).elim⟩
  | @succ n s t u first rest ih =>
    obtain ⟨hgo, rfl⟩ := goesOn_of_cycle first
    rw [along_onward] at ih
    refine ⟨ih.1, fun k hk => ?_⟩
    rcases k with - | k
    · exact hgo
    · rw [← along_onward]
      exact ih.2 k (Nat.lt_of_succ_lt_succ hk)

/-- A run is over after the rounds that go on, in the first that does not. -/
theorem EndsAfter.concludes {report : Report σ} (h : EndsAfter o n s report) :
    (∀ k < n, (s.along o k).GoesOn) ∧ (s.along o n).Concludes report := by
  obtain ⟨t, hgoes, hover⟩ := h
  obtain ⟨rfl, hgo⟩ := hgoes.eq_along
  exact ⟨hgo, concludes_of_cycle hover⟩

/-- Rounds that go on and the end of what comes after them make the end of the whole. -/
theorem EndsAfter.of_along {k : Nat} {report : Report σ} :
    ∀ {n : Nat} {s : Session σ}, (∀ j < n, (s.along o j).GoesOn) →
      EndsAfter o k (s.along o n) report → EndsAfter o (n + k) s report
  | 0, s, _, h => (Nat.zero_add k).symm ▸ h
  | n + 1, s, hgo, h => by
    rw [← along_onward] at h
    have hrest := EndsAfter.of_along (fun j hj => along_onward o s j ▸ hgo (j + 1) (by omega)) h
    rw [Nat.add_right_comm]
    exact hrest.succ (hgo 0 (Nat.succ_pos n)).cycle_eq

/-- Of what makes the round after `n` others go on, the budget and the cycle depend on the start of
the run alone. -/
theorem goesOn_along_iff : (s.along o n).GoesOn ↔ (s.along o n).control.cancelled = false ∧
    s.control.spent (s.machine.after n).cycles = false ∧ ∃ i, s.machine.Executes n i := by
  constructor
  · rintro ⟨hc, hb, hi⟩
    rw [spent_along, machine_along] at hb
    rw [machine_along] at hi
    exact ⟨hc, hb, hi⟩
  · rintro ⟨hc, hb, hi⟩
    refine ⟨hc, ?_, ?_⟩
    · rw [spent_along, machine_along]
      exact hb
    · rw [machine_along]
      exact hi

/-- The machine completes a cycle in each round that goes on. -/
theorem completes_of_goesOn (h : ∀ k < n, (s.along o k).GoesOn) : s.machine.Completes n :=
  fun k hk => (goesOn_along_iff.1 (h k hk)).2.2

/-- Every run comes to its end. -/
theorem exists_endsAfter_finish (o : Observer σ) (s : Session σ) :
    ∃ n, EndsAfter o n s (s.finish o) := by
  rcases cycle_cases o s with ⟨-, hon⟩ | ⟨report, -, hover⟩
  · have := rank_lt_of_cycle hon
    obtain ⟨n, hn⟩ := exists_endsAfter_finish o (s.onward o)
    rw [← finish_of_on hon] at hn
    exact ⟨n + 1, hn.succ hon⟩
  · exact ⟨0, s, .zero s, (finish_of_over hover).symm ▸ hover⟩
termination_by s.machine.rank

theorem finish_along (h : ∀ k < n, (s.along o k).GoesOn) :
    (s.along o n).finish o = s.finish o := by
  obtain ⟨k, hk⟩ := exists_endsAfter_finish o (s.along o n)
  exact (EndsAfter.of_along h hk).finish_eq.symm

/-! ## Runs that come to the same end -/

/-- Sessions that differ at most in their records, their rates and their observers. -/
structure Alike (s : Session σ) (t : Session τ) : Prop where
  cancelled : s.control.cancelled = t.control.cancelled
  budget : s.control.budget = t.control.budget
  machine : s.machine = t.machine

namespace Alike

variable {t : Session τ} {p : Observer τ}

theorem spent (h : Alike s t) :
    s.control.spent s.machine.cycles = t.control.spent t.machine.cycles := by
  rw [Control.spent, h.budget, h.machine, Control.spent]

theorem goesOn (h : Alike s t) (hs : s.GoesOn) : t.GoesOn :=
  ⟨h.cancelled ▸ hs.not_cancelled, h.spent ▸ hs.not_spent, h.machine ▸ hs.completes⟩

/-- A round keeps sessions alike if both observers answer alike. -/
theorem onward (h : Alike s t) (hanswer : (o.look s.view s.machine.next.picture).2 =
    (p.look t.view t.machine.next.picture).2) : Alike (s.onward o) (t.onward p) := by
  refine ⟨?_, ?_, congrArg Machine.next h.machine⟩
  · rw [Session.onward, Session.onward, hanswer]
    split
    · exact h.cancelled
    · rfl
  · rw [Session.onward, Session.onward, hanswer]
    split
    · exact h.budget
    · exact h.budget

/-- The last rounds of sessions that are alike end alike. -/
theorem concludes (h : Alike s t) {report : Report σ} (hr : s.Concludes report) :
    ∃ other, t.cycle p = .over other ∧ report.result = other.result ∧
      report.session.machine = other.session.machine := by
  cases hr with
  | cancelled hc log =>
    obtain ⟨log', hover⟩ := cycle_of_cancelled (o := p) (h.cancelled ▸ hc)
    exact ⟨_, hover, rfl, h.machine⟩
  | spent hc hb log =>
    obtain ⟨log', hover⟩ := cycle_of_spent (o := p) (h.cancelled ▸ hc) (h.spent ▸ hb)
    exact ⟨_, hover, rfl, h.machine⟩
  | fault hc hb hf log =>
    obtain ⟨log', hover⟩ := cycle_of_faults (o := p) (h.cancelled ▸ hc) (h.spent ▸ hb)
      (h.machine ▸ hf)
    exact ⟨_, hover, rfl, congrArg Machine.next h.machine⟩

end Alike

/-- Runs come to the same end after the same number of rounds if the sessions are related in a way
that makes them alike, and that the rounds which go on preserve. -/
theorem EndsAfter.simulate {R : Session σ → Session τ → Prop} {p : Observer τ} {t : Session τ}
    (halike : ∀ s t, R s t → Alike s t)
    (honward : ∀ s t, R s t → s.GoesOn → R (s.onward o) (t.onward p))
    {report : Report σ} (h : EndsAfter o n s report) (hst : R s t) :
    ∃ other, EndsAfter p n t other ∧ report.result = other.result ∧
      report.session.machine = other.session.machine := by
  obtain ⟨u, hgoes, hover⟩ := h
  induction hgoes generalizing t with
  | zero s =>
    obtain ⟨other, hother, hsame⟩ := (halike s t hst).concludes (concludes_of_cycle hover)
    exact ⟨other, ⟨t, .zero t, hother⟩, hsame⟩
  | @succ n s _ _ first rest ih =>
    obtain ⟨hgo, rfl⟩ := goesOn_of_cycle first
    obtain ⟨other, hother, hsame⟩ := ih (honward s t hst hgo) hover
    exact ⟨other, hother.succ ((halike s t hst).goesOn hgo).cycle_eq, hsame⟩

/-! ## What the observer is shown -/

/-- What an observer is shown in a run, in order, as an observer tells who keeps it. -/
def seen (c : Control) (o : Observer σ) (m : Machine) (view : σ) : List Picture :=
  (run c o.recording m (view, [])).session.view.2

/-- The observer is shown the picture after each cycle that completes, and nothing else. -/
theorem EndsAfter.view_eq {report : Report σ} (h : EndsAfter o n s report) :
    report.session.view = o.shown s.view (s.machine.pictures n) := by
  rw [← view_along]
  cases h.concludes.2 <;> rfl

/-- Before one observer in one state, sessions that are alike come to the same end in the same
number of rounds. -/
theorem EndsAfter.of_alike {t : Session σ} {report : Report σ} (h : EndsAfter o n s report)
    (halike : Alike s t) (hview : s.view = t.view) :
    ∃ other, EndsAfter o n t other ∧ report.result = other.result ∧
      report.session.machine = other.session.machine :=
  h.simulate (R := fun s t => Alike s t ∧ s.view = t.view) (fun _ _ hst => hst.1)
    (fun s t hst _ => ⟨hst.1.onward (by rw [hst.2, hst.1.machine]), by
      rw [Session.onward, Session.onward, hst.2, hst.1.machine]⟩)
    ⟨halike, hview⟩

/-- Sessions that are alike come to the same end before one observer in one state. -/
theorem Alike.finish_same (h : Alike s t) (hview : s.view = t.view) (o : Observer σ) :
    (s.finish o).result = (t.finish o).result ∧
      (s.finish o).session.machine = (t.finish o).session.machine ∧
        (s.finish o).session.view = (t.finish o).session.view := by
  obtain ⟨n, hn⟩ := exists_endsAfter_finish o s
  obtain ⟨other, hother, hresult, hmachine⟩ := hn.of_alike h hview
  have hother_view := hother.view_eq
  rw [← h.machine, ← hview, ← hn.view_eq] at hother_view
  rw [hother.finish_eq]
  exact ⟨hresult, hmachine, hother_view.symm⟩

theorem EndsAfter.seen_eq {c : Control} {m : Machine} {view : σ} {report : Report σ}
    (h : EndsAfter o n (start c m view) report) : seen c o m view = m.pictures n := by
  -- Keeping a list does not change the answers.
  obtain ⟨other, hother, -⟩ := h.simulate (p := o.recording) (t := start c m (view, []))
    (R := fun s t => Alike s t ∧ s.view = t.view.1) (fun _ _ hst => hst.1)
    (fun s t hst _ => ⟨hst.1.onward (by rw [hst.2, hst.1.machine]; rfl), by
      rw [onward, onward, hst.2, hst.1.machine]
      rfl⟩)
    ⟨⟨rfl, rfl, rfl⟩, rfl⟩
  have hview := hother.view_eq
  rw [Observer.shown_recording] at hview
  rw [seen, run, hother.finish_eq, hview]
  rfl

end Session

end Chip8
