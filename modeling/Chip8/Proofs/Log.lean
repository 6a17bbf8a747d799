import Chip8.Proofs.Brackets
import Chip8.Proofs.Course
import Chip8.Proofs.Faults
import Chip8.Proofs.Pacing

/-!
# The log of a run

The records of a run are those of its cycles, one cycle after the other, between a record of the
rate, if there is one, and a record of how the run ended (`Session.EndsAfter.log_eq`). They are told
by the cycles that completed and the result alone, so neither the rate nor the observer shows in
them otherwise.

What is recorded is `Machine.Tells` for a cycle that completes : the word that it fetched with the
instruction that it is, and behind it the call or the return, if it is one. A run of such cycles is
a `Machine.Transcript`, and `Machine.Closes` has the records of the last round. A cycle with a fault
has its word recorded if that could be read, as an instruction or not, and never a call or a return.
What a record says is `Event.Says`. `Session.log_run` puts this together.
-/

namespace Chip8

namespace Event

/-- A record with its level. -/
def entry (e : Event) : Level × Event := (e.level, e)

/-- The record of a call. -/
def isCall : Event → Bool
  | called .. => true
  | _ => false

/-- The record of a return. -/
def isReturn : Event → Bool
  | returned .. => true
  | _ => false

/-- The record of a word, of a call or of a return. -/
def isOfCycle : Event → Bool
  | fetched .. | called .. | returned .. => true
  | _ => false

/-- What a record says of what it holds. -/
inductive Says : Event → String → Prop where
  | imageLoaded (size address : Nat) : Says (.imageLoaded size address)
    ("loaded " ++ toString size ++ " byte image at " ++ Numeral.hex 3 address)
  | fetched (pc word : UInt16) (instruction : Option Instruction) :
    Says (.fetched pc word instruction) (addressText pc ++ ": " ++
      Numeral.hexDigits 4 word.toNat ++ "  " ++ instruction.elim "???" Instruction.text)
  | called (target source : UInt16) (depth limit : Nat) :
    Says (.called target source depth limit) ("call " ++ addressText target ++ " from " ++
      addressText source ++ ", depth " ++ toString depth ++ "/" ++ toString limit)
  | returned (source target : UInt16) : Says (.returned source target)
    ("return " ++ addressText source ++ " -> " ++ addressText target)
  | paced (period : Period) : Says (.paced period) ("one instruction every " ++ period.text)
  | cancelled (cycles : UInt64) : Says (.cancelled cycles)
    ("cancelled after " ++ toString cycles.toNat ++ " cycles")
  | budgetReached (cycles : UInt64) : Says (.budgetReached cycles)
    ("cycle budget of " ++ toString cycles.toNat ++ " reached")
  | halted (pc : UInt16) (cycles : UInt64) (fault : Fault) : Says (.halted pc cycles fault)
    ("halted at " ++ addressText pc ++ " after " ++ toString cycles.toNat ++ " cycles: " ++
      fault.message)

theorem says_text : ∀ e : Event, e.Says e.text
  | .imageLoaded size address => .imageLoaded size address
  | .fetched pc word none => .fetched pc word none
  | .fetched pc word (some i) => .fetched pc word (some i)
  | .called target source depth limit => .called target source depth limit
  | .returned source target => .returned source target
  | .paced period => .paced period
  | .cancelled cycles => .cancelled cycles
  | .budgetReached cycles => .budgetReached cycles
  | .halted pc cycles fault => .halted pc cycles fault

/-- An address is written with three digits at least, and can be read in them. -/
theorem addressText_eq (address : UInt16) : ∃ digits : List Char,
    addressText address = "0x" ++ String.ofList digits ∧ 3 ≤ digits.length ∧
      Numeral.value 16 digits = address.toNat := by
  refine ⟨(Numeral.hexDigits 3 address.toNat).toList, ?_, ?_,
    Numeral.value_hexDigits 3 address.toNat⟩
  · rw [String.ofList_toList]
    rfl
  · rw [Numeral.hexDigits, String.toList_ofList, List.length_leftpad]
    exact Nat.le_max_left _ _

end Event

/-- The record at the start of a run, if it has a rate. -/
def Control.opening (c : Control) : List Event :=
  (c.rate.map fun rate => Event.paced (Period.ofRate rate)).toList

namespace Machine

variable {m : Machine} {i : Instruction} {fault : Fault} {n : Nat}

/-- The records of the first `n` cycles. -/
def recounted (m : Machine) : Nat → List Event
  | 0 => []
  | n + 1 => m.recounted n ++ (m.after n).stepEvents

/-- The records of a last round with a given result. -/
def closing (m : Machine) : Except Fault Ending → List Event
  | .ok .cancelled => [.cancelled m.cycles]
  | .ok .budgetReached => [.budgetReached m.cycles]
  | .error fault => m.stepEvents ++ [.halted m.pc m.next.cycles fault]

/-! ## What a log is to tell -/

/-- What a log tells of a cycle that completes. -/
inductive Tells (m : Machine) : List (Level × Event) → Prop where
  /-- The word, and the call with the stack that it leaves. -/
  | call {word : Opcode} {target : UInt16} {stack : CallStack} (hx : m.Executes 0 (.call target))
    (hw : m.word = .ok word) (hs : m.stack.push (following m.pc) = .ok stack) :
    Tells m [(.trace, .fetched m.pc word (some (.call target))),
      (.debug, .called target m.pc stack.depth stack.limit)]
  /-- The word, and the return to the address from the stack. -/
  | ret {word : Opcode} {address : UInt16} {stack : CallStack} (hx : m.Executes 0 .ret)
    (hw : m.word = .ok word) (hs : m.stack.pop = .ok (address, stack)) :
    Tells m [(.trace, .fetched m.pc word (some .ret)), (.debug, .returned m.pc address)]
  /-- The word alone, for any other instruction. -/
  | other {word : Opcode} {i : Instruction} (hx : m.Executes 0 i) (hw : m.word = .ok word)
    (hret : i ≠ .ret) (hcall : ∀ target, i ≠ .call target) :
    Tells m [(.trace, .fetched m.pc word (some i))]

/-- What a log tells of so many cycles that complete, one after the other. -/
inductive Transcript (m : Machine) : Nat → List (Level × Event) → Prop where
  | zero : Transcript m 0 []
  | succ {n : Nat} {before told : List (Level × Event)} (h : Transcript m n before)
    (ht : (m.after n).Tells told) : Transcript m (n + 1) (before ++ told)

/-- What a log tells of the last round, by what the run comes to and the machine that it leaves. -/
inductive Closes (m : Machine) : Except Fault Ending → Machine → List (Level × Event) → Prop where
  | cancelled : Closes m (.ok .cancelled) m [(.info, .cancelled m.cycles)]
  | budgetReached : Closes m (.ok .budgetReached) m [(.info, .budgetReached m.cycles)]
  /-- A fault at a word that cannot be read. -/
  | unreadable {fault : Fault} (hf : m.Faults 0 fault) (hw : 4095 ≤ m.pc.toNat)
    (hpc : m.next.pc = m.pc) :
    Closes m (.error fault) m.next [(.error, .halted m.pc m.next.cycles fault)]
  /-- A fault at a word that can be read, and is an instruction or none. -/
  | readable {fault : Fault} {word : Opcode} (hf : m.Faults 0 fault) (hw : m.word = .ok word)
    (hpc : m.next.pc = m.pc) :
    Closes m (.error fault) m.next
      [(.trace, .fetched m.pc word (Instruction.decode word).toOption),
        (.error, .halted m.pc m.next.cycles fault)]

/-! ## The records of a cycle -/

theorem fetchEvents_of_word {word : Opcode} (hw : m.word = .ok word) :
    m.fetchEvents = [.fetched m.pc word (Instruction.decode word).toOption] := by
  simp only [fetchEvents, hw]

theorem executeEvents_call {target : UInt16} (he : (m.execute (.call target)).result = .ok ()) :
    m.executeEvents (.call target) =
      [.called target m.pc (m.execute (.call target)).state.stack.depth
        (m.execute (.call target)).state.stack.limit] := by
  unfold executeEvents
  dsimp only
  rw [he]

theorem executeEvents_ret (he : (m.execute .ret).result = .ok ()) :
    m.executeEvents .ret = [.returned m.pc (m.execute .ret).state.pc] := by
  unfold executeEvents
  dsimp only
  rw [he]

theorem executeEvents_of_error (he : (m.execute i).result = .error fault) :
    m.executeEvents i = [] := by
  unfold executeEvents
  dsimp only
  rw [he]
  cases i <;> rfl

/-- Only calls and returns leave records of their own. -/
theorem executeEvents_of_ne (hret : i ≠ .ret) (hcall : ∀ target, i ≠ .call target) :
    m.executeEvents i = [] := by
  cases i with
  | ret => exact (hret rfl).elim
  | call target => exact (hcall target rfl).elim
  | set | add | point | draw | glyph | decimal | fill => rfl

/-- A fault adds nothing to the record of the word. -/
theorem stepEvents_of_faults (hf : m.Faults 0 fault) : m.stepEvents = m.fetchEvents := by
  unfold stepEvents
  rcases of_step_error hf with ⟨hfetch, -⟩ | ⟨i, hfetch, he, -⟩
  · rw [after_zero] at hfetch
    simp only [hfetch]
  · rw [after_zero] at hfetch he
    simp only [hfetch, executeEvents_of_error he, List.append_nil]

/-- All records of a cycle are of its word, of a call or of a return. -/
theorem isOfCycle_of_mem_stepEvents {e : Event} (h : e ∈ m.stepEvents) : e.isOfCycle := by
  have hfetch : ∀ e ∈ m.fetchEvents, e.isOfCycle := by
    unfold fetchEvents
    split <;> simp [Event.isOfCycle]
  have hexecute : ∀ i, ∀ e ∈ m.executeEvents i, e.isOfCycle := by
    intro i
    cases he : (m.execute i).result with
    | error fault => simp [executeEvents_of_error he]
    | ok =>
      cases i with
      | ret => simp [executeEvents_ret he, Event.isOfCycle]
      | call target => simp [executeEvents_call he, Event.isOfCycle]
      | set | add | point | draw | glyph | decimal | fill =>
        exact fun _ hmem => absurd hmem List.not_mem_nil
  unfold stepEvents at h
  split at h
  · exact (List.mem_append.1 h).elim (hfetch e) (hexecute _ e)
  · exact hfetch e h

theorem isOfCycle_of_mem_recounted {e : Event} : ∀ {n : Nat}, e ∈ m.recounted n → e.isOfCycle
  | 0, h => absurd h List.not_mem_nil
  | _ + 1, h => (List.mem_append.1 h).elim isOfCycle_of_mem_recounted isOfCycle_of_mem_stepEvents

theorem level_of_isOfCycle {e : Event} (h : e.isOfCycle) : e.level ≠ .error := by
  cases e with
  | fetched | called | returned => exact nofun
  | imageLoaded | paced | cancelled | budgetReached | halted => exact nomatch h

theorem tells_of_executes (hx : m.Executes 0 i) : m.Tells (m.stepEvents.map Event.entry) := by
  have hstep : m.step.result = .ok i := hx
  obtain ⟨hf, he, hn⟩ := of_step_ok hstep
  obtain ⟨word, hw, hd⟩ := fetch_eq_ok_iff.1 hf
  have hfetched : m.fetchEvents = [.fetched m.pc word (some i)] := by
    rw [fetchEvents_of_word hw, hd]
    rfl
  have hpc : m.next.pc = (m.execute i).state.pc := by rw [hn]
  have hstack : m.next.stack = (m.execute i).state.stack := by rw [hn]
  rcases control_of_step_ok hstep with ⟨rfl, hs⟩ | ⟨rfl, hs⟩ | ⟨hret, hcall, -, -⟩
  · simp only [stepEvents, hf, hfetched, executeEvents_ret he, ← hpc]
    exact .ret hx hw hs
  · simp only [stepEvents, hf, hfetched, executeEvents_call he, ← hstack]
    exact .call hx hw hs
  · simp only [stepEvents, hf, hfetched, executeEvents_of_ne hret hcall]
    exact .other hx hw hret hcall

theorem transcript_recounted : ∀ {n : Nat}, m.Completes n →
    m.Transcript n ((m.recounted n).map Event.entry)
  | 0, _ => .zero
  | n + 1, h => by
    obtain ⟨i, hi⟩ := h n (Nat.lt_succ_self n)
    rw [recounted, List.map_append]
    exact .succ (transcript_recounted (h.mono (Nat.le_succ n))) (tells_of_executes hi)

/-- A machine that fails tells of the word if it can be read, and then of the fault. -/
theorem closes_of_faults (hf : m.Faults 0 fault) :
    m.Closes (.error fault) m.next ((m.closing (.error fault)).map Event.entry) := by
  have hstep : m.step.result = .error fault := hf
  obtain ⟨memory, registers, picture, hn⟩ := next_of_step_error hstep
  have hpc : m.next.pc = m.pc := by rw [hn]
  rw [closing, stepEvents_of_faults hf]
  cases hw : m.word with
  | ok word =>
    rw [fetchEvents_of_word hw]
    exact .readable hf hw hpc
  | error other =>
    obtain ⟨-, hout, -⟩ := Memory.rangeFault?_eq_some_iff.1 (Memory.word_error_iff.1 hw)
    rw [fetchEvents, hw]
    exact .unreadable hf (Nat.le_of_succ_le_succ (Nat.le_of_lt_succ hout)) hpc

/-! ## Calls and returns in a log -/

/-- The numbers of calls and of returns that a log tells of make up the difference between the calls
that are open at its start and at its end. -/
def Balances (start finish : Nat) (log : List (Level × Event)) : Prop :=
  finish + log.countP (·.2.isReturn) = start + log.countP (·.2.isCall)

theorem Balances.append {a b c : Nat} {log later : List (Level × Event)} (h : Balances a b log)
    (hl : Balances b c later) : Balances a c (log ++ later) := by
  simp only [Balances, List.countP_append] at h hl ⊢
  omega

theorem Tells.balances {told : List (Level × Event)} (h : m.Tells told) :
    Balances m.depth m.next.depth told := by
  cases h with
  | call hx hw hs => exact depth_next hx
  | ret hx hw hs => exact depth_next hx
  | other hx hw hret hcall =>
    have hdepth := depth_next hx
    simpa [Balances, Event.isReturn, Event.isCall, Instruction.kind_eq_ret_iff,
      Instruction.kind_eq_call_iff, hret, hcall] using hdepth

theorem Transcript.balances {told : List (Level × Event)} (h : m.Transcript n told) :
    Balances m.depth (m.after n).depth told := by
  induction h with
  | zero => rfl
  | succ _ ht ih => exact ih.append ht.balances

theorem Closes.balances {result : Except Fault Ending} {left : Machine}
    {told : List (Level × Event)} (h : m.Closes result left told) :
    Balances m.depth left.depth told := by
  cases h with
  | cancelled | budgetReached => rfl
  | unreadable hf | readable hf =>
    obtain ⟨memory, registers, picture, hn⟩ := next_of_step_error hf
    rw [after_zero] at hn
    rw [hn]
    rfl

end Machine

/-! ## The log of a session -/

namespace Session

variable {σ : Type} {o : Observer σ} {s : Session σ} {c : Control} {m : Machine} {view : σ}
  {n : Nat} {report : Report σ}

theorem log_start : (start c m view).log.toList = c.opening := Option.toList_toArray

theorem log_along (o : Observer σ) (s : Session σ) : ∀ n,
    (s.along o n).log.toList = s.log.toList ++ s.machine.recounted n
  | 0 => (List.append_nil _).symm
  | n + 1 => by
    rw [along, onward, Array.toList_appendList, log_along o s n, machine_along, Machine.recounted,
      List.append_assoc]

/-- The last round adds the records of its result. -/
theorem log_of_over (h : s.cycle o = .over report) :
    report.session.log.toList = s.log.toList ++ s.machine.closing report.result := by
  unfold cycle at h
  split at h
  · obtain rfl := Round.over.inj h
    simp [Machine.closing]
  · split at h
    · obtain rfl := Round.over.inj h
      simp [Machine.closing]
    · split at h
      · rename_i m fault hs
        obtain rfl := Round.over.inj h
        simp [Machine.closing, Machine.next, hs]
      · simp at h

/-- The log of a run tells of its rate, of each cycle that completes, and of the last round. -/
theorem EndsAfter.log_eq (h : EndsAfter o n (start c m view) report) :
    report.session.log.toList =
      c.opening ++ m.recounted n ++ (m.after n).closing report.result := by
  obtain ⟨t, hgoes, hover⟩ := h
  obtain ⟨rfl, -⟩ := hgoes.eq_along
  rw [log_of_over hover, log_along, machine_along, log_start]
  rfl

/-- The last round closes the log with what it comes to and the machine that it leaves. -/
theorem Concludes.closes (h : s.Concludes report) : s.machine.Closes report.result
    report.session.machine ((s.machine.closing report.result).map Event.entry) := by
  cases h with
  | cancelled hc log => exact .cancelled
  | spent hc hb log => exact .budgetReached
  | fault hc hb hf log => exact Machine.closes_of_faults hf

/-- The log is a transcript of the run, record by record and with the level of each : the rate, the
cycles that completed, and the end. The calls and returns in it make up the change of the number of
open calls. Each record says what it holds, and the period or an address in it can be read. -/
theorem log_run (c : Control) (o : Observer σ) (m : Machine) (view : σ) :
    ∃ (n : Nat) (report : Report σ) (body closing : List (Level × Event)),
      run c o m view = report ∧ EndsAfter o n (start c m view) report ∧
      report.session.log.toList.map Event.entry =
        (c.rate.map fun rate => (Level.debug, Event.paced (Period.ofRate rate))).toList ++
          body ++ closing ∧
      m.Transcript n body ∧
      (m.after n).Closes report.result report.session.machine closing ∧
      report.session.machine.depth + report.session.log.toList.countP Event.isReturn =
        m.depth + report.session.log.toList.countP Event.isCall ∧
      (∀ e : Event, e.Says e.text) ∧ (∀ p q : Period, p.text = q.text ↔ p = q) ∧
      ∀ address : UInt16, ∃ digits : List Char,
        Event.addressText address = "0x" ++ String.ofList digits ∧ 3 ≤ digits.length ∧
          Numeral.value 16 digits = address.toNat := by
  obtain ⟨n, hn⟩ := exists_endsAfter_finish o (start c m view)
  obtain ⟨hgo, hend⟩ := hn.concludes
  have hbody := m.transcript_recounted (completes_of_goesOn hgo)
  have hclosing := hend.closes
  rw [machine_along] at hclosing
  have hopening : c.opening.map Event.entry =
      (c.rate.map fun rate => (Level.debug, Event.paced (Period.ofRate rate))).toList := by
    rw [Control.opening]
    cases c.rate <;> rfl
  have hlog : (run c o m view).session.log.toList.map Event.entry = c.opening.map Event.entry ++
      (m.recounted n).map Event.entry ++
        ((m.after n).closing (run c o m view).result).map Event.entry := by
    rw [← List.map_append, ← List.map_append]
    exact congrArg _ hn.log_eq
  have hbalances : Machine.Balances m.depth (run c o m view).session.machine.depth
      ((run c o m view).session.log.toList.map Event.entry) := by
    have hstart : Machine.Balances m.depth m.depth (c.opening.map Event.entry) := by
      rw [Control.opening]
      cases c.rate <;> rfl
    rw [hlog]
    exact (hstart.append hbody.balances).append hclosing.balances
  rw [Machine.Balances, List.countP_map, List.countP_map] at hbalances
  exact ⟨n, _, _, _, rfl, hn, hopening ▸ hlog, hbody, hclosing, hbalances, Event.says_text,
    fun _ _ => Period.text_inj, Event.addressText_eq⟩

end Session

end Chip8
