import Chip8.Proofs.Verbosity

/-!
# Diagnostics read back

The message of a fault is a line of words with spaces between them (`Fault.words`), and its numbers
are some of them, with at most a bracket or a comma beside. So the words can be told from the
message, and the fault from the words : `Fault.ofMessage?` reads it back
(`Fault.ofMessage?_message`). Faults with the same message are thus equal.

The program tells of a fault in a line of its log, alone or behind the place and the time at which
it ended a run (`CommandLine.Notice.Diagnoses`). The message is the end of this line, so that the
line tells the fault too (`CommandLine.Notice.faultOfLine?_line`). Where an image fails with a fault
there is one such line, and no other line of the log is an error (`CommandLine.tellsOf_of_fails`).
`Fault.message_eq_message_iff` puts this together.
-/

namespace Chip8

/-! ## Words -/

/-- The words of a text. -/
def wordsOf (text : String) : List String :=
  (text.toList.splitOn ' ').map String.ofList

/-- A line that is made of words without spaces in them has these words. -/
theorem wordsOf_intercalate {words : List String} (hne : words ≠ [])
    (hspace : ∀ word ∈ words, ' ' ∉ word.toList) : wordsOf (" ".intercalate words) = words := by
  have hsplit := List.splitOn_intercalate ' ' (List.forall_mem_map.2 hspace)
    (mt List.map_eq_nil_iff.1 hne)
  have hline : (" ".intercalate words).toList = [' '].intercalate (words.map String.toList) :=
    String.toList_intercalate
  rw [wordsOf, hline, hsplit, List.map_map]
  exact List.map_id'' (fun word => String.ofList_toList) words

/-! ## Messages -/

/-- The words that name a place. -/
def Place.words : Place → List String
  | cell address => ["memory", "address", Numeral.hex 3 address]
  | pixel x y => ["pixel", "(" ++ toString x ++ ",", toString y ++ ")"]

namespace Fault

/-- The words of a message. -/
def words : Fault → List String
  | unknownOpcode code => ["opcode", Numeral.hex 4 code.toNat, "is", "not", "implemented"]
  | outOfRange place => place.words ++ ["is", "out", "of", "range"]
  | stackUnderflow => ["return", "with", "an", "empty", "call", "stack"]
  | stackOverflow limit => ["call", "stack", "exceeded", "its", "depth", "of", toString limit]
  | imageTooLong size capacity =>
    ["program", "image", "of", toString size, "bytes", "does", "not", "fit", "in",
      toString capacity, "bytes"]

/-- The fault that words stand for, told by the first of them. A hexadecimal is read behind its
`0x`, and a coordinate without what stands beside it. -/
def ofWords? : List String → Option Fault
  | ["opcode", code, _, _, _] =>
    some (unknownOpcode (.ofNat (Numeral.value 16 (code.toList.drop 2))))
  | ["memory", _, address, _, _, _, _] =>
    some (outOfRange (.cell (Numeral.value 16 (address.toList.drop 2))))
  | ["pixel", x, y, _, _, _, _] =>
    some (outOfRange (.pixel (Numeral.value 10 (x.toList.drop 1).dropLast)
      (Numeral.value 10 y.toList.dropLast)))
  | ["return", _, _, _, _, _] => some stackUnderflow
  | ["call", _, _, _, _, _, limit] => some (stackOverflow (Numeral.value 10 limit.toList))
  | ["program", _, _, size, _, _, _, _, _, capacity, _] =>
    some (imageTooLong (Numeral.value 10 size.toList) (Numeral.value 10 capacity.toList))
  | _ => none

/-- The fault that a text is the message of. -/
def ofMessage? (text : String) : Option Fault :=
  ofWords? (wordsOf text)

theorem message_eq (f : Fault) : f.message = " ".intercalate f.words := by
  refine String.toList_inj.1 ?_
  rw [String.toList_intercalate]
  unfold message
  rcases f with code | (address | ⟨x, y⟩) | _ | limit | ⟨size, capacity⟩ <;>
    simp [words, Place.words, Place.text, List.intercalate]

theorem space_notMem_of_mem_words (f : Fault) : ∀ word ∈ f.words, ' ' ∉ word.toList := by
  rcases f with code | (address | ⟨x, y⟩) | _ | limit | ⟨size, capacity⟩ <;>
    simp [words, Place.words, Numeral.toList_hex, Numeral.space_notMem_hexDigits,
      Numeral.space_notMem_toDigits_ten]

theorem words_ne_nil (f : Fault) : f.words ≠ [] := by
  cases f <;> simp [words]

theorem ofWords?_words (f : Fault) : ofWords? f.words = some f := by
  rcases f with code | (address | ⟨x, y⟩) | _ | limit | ⟨size, capacity⟩ <;>
    simp [words, Place.words, ofWords?, Numeral.toList_hex, Numeral.value_hexDigits,
      Numeral.value_toDigits_ten]

/-- The message of a fault is read back as the fault. -/
theorem ofMessage?_message (f : Fault) : ofMessage? f.message = some f := by
  rw [ofMessage?, message_eq, wordsOf_intercalate f.words_ne_nil f.space_notMem_of_mem_words,
    ofWords?_words]

end Fault

/-! ## Lines of the log -/

namespace CommandLine.Notice

/-- The records of a fault : no machine could be made, or a run has ended with it. -/
inductive Diagnoses : Notice → Fault → Prop where
  | refused (fault : Fault) : Diagnoses (.refused fault) fault
  | halted (pc : UInt16) (cycles : UInt64) (fault : Fault) :
    Diagnoses (.event (.halted pc cycles fault)) fault

/-- The fault that the words of a line tell of. The message is what the program itself says, and the
end of what is said of a run. -/
def faultOfWords? : List String → Option Fault
  | _ :: source :: said => Fault.ofWords? (if source = "[minichip]" then said else said.drop 6)
  | _ => none

/-- The fault that a line of the log tells of. -/
def faultOfLine? (line : String) : Option Fault :=
  faultOfWords? (wordsOf line)

variable {n : Notice} {f : Fault}

/-- A line that tells of a fault has some words in front of the message. -/
theorem Diagnoses.line_eq (h : n.Diagnoses f) : ∃ front : List String, front ≠ [] ∧
    (∀ word ∈ front, ' ' ∉ word.toList) ∧ n.line = " ".intercalate front ++ " " ++ f.message ∧
      ∀ message, faultOfWords? (front ++ message) = Fault.ofWords? message := by
  cases h with
  | refused =>
    have hline : (Notice.refused f).line =
        String.ofList ("ERROR".toList.rightpad 5 ' ') ++ " [" ++ "minichip" ++ "] " ++ f.message :=
      rfl
    refine ⟨["ERROR", "[minichip]"], by simp, by simp, ?_, fun message => by simp [faultOfWords?]⟩
    rw [hline]
    refine String.toList_inj.1 ?_
    simp
  | halted pc cycles =>
    have hline : (Notice.event (.halted pc cycles f)).line =
        String.ofList ("ERROR".toList.rightpad 5 ' ') ++ " [" ++ "minichip::runner" ++ "] " ++
          ("halted at " ++ Event.addressText pc ++ " after " ++ toString cycles.toNat ++
            " cycles: " ++ f.message) := rfl
    refine ⟨["ERROR", "[minichip::runner]", "halted", "at", Event.addressText pc, "after",
      toString cycles.toNat, "cycles:"], by simp, ?_, ?_, fun message => by simp [faultOfWords?]⟩
    · simp [Event.addressText, Numeral.toList_hex, Numeral.space_notMem_hexDigits,
        Numeral.space_notMem_toDigits_ten]
    · rw [hline]
      refine String.toList_inj.1 ?_
      simp

/-- A line that tells of a fault is read back as the fault. -/
theorem Diagnoses.faultOfLine?_line (h : n.Diagnoses f) : faultOfLine? n.line = some f := by
  obtain ⟨front, hne, hspace, hline, hread⟩ := h.line_eq
  have hwords : wordsOf n.line = front ++ f.words := by
    rw [hline, f.message_eq, ← String.intercalate_append_of_ne_nil hne f.words_ne_nil]
    refine wordsOf_intercalate (List.append_ne_nil_of_left_ne_nil hne _) fun word hword => ?_
    rcases List.mem_append.1 hword with hfront | hmessage
    · exact hspace word hfront
    · exact f.space_notMem_of_mem_words word hmessage
  rw [faultOfLine?, hwords, hread, Fault.ofWords?_words]

end CommandLine.Notice

/-! ## Errors in a log -/

namespace Session

variable {σ : Type} {c : Control} {o : Observer σ} {m : Machine} {view : σ}

/-- What stands in front of the end of a run is no error. -/
theorem filter_recounted (c : Control) (m : Machine) (n : Nat) :
    (c.opening ++ m.recounted n).filter (·.level = .error) = [] := by
  refine List.filter_eq_nil_iff.2 fun e he => ?_
  rcases List.mem_append.1 he with hopening | hcycle
  · obtain ⟨rate, -, rfl⟩ := Option.map_eq_some_iff.1 (Option.mem_toList.1 hopening)
    simp [Event.level]
  · simpa using Machine.level_of_isOfCycle (Machine.isOfCycle_of_mem_recounted hcycle)

/-- The one error in the log of a run with a fault is that of the fault. -/
theorem errors_of_fault {fault : Fault} (h : (run c o m view).result = .error fault) :
    ∃ pc cycles, (run c o m view).session.log.toList.filter (·.level = .error) =
      [.halted pc cycles fault] := by
  obtain ⟨n, hn⟩ := exists_endsAfter_finish o (start c m view)
  have hlog : (run c o m view).session.log.toList = _ := hn.log_eq
  rw [show (finish o (start c m view)).result = .error fault from h, Machine.closing] at hlog
  have hcycle : (m.after n).stepEvents.filter (·.level = .error) = [] :=
    List.filter_eq_nil_iff.2 fun e he => by
      simpa using Machine.level_of_isOfCycle (Machine.isOfCycle_of_mem_stepEvents he)
  rw [hlog, List.filter_append, filter_recounted, List.filter_append, hcycle]
  exact ⟨_, _, rfl⟩

theorem errors_of_ending {ending : Ending} (h : (run c o m view).result = .ok ending) :
    (run c o m view).session.log.toList.filter (·.level = .error) = [] := by
  obtain ⟨n, hn⟩ := exists_endsAfter_finish o (start c m view)
  have hlog : (run c o m view).session.log.toList = _ := hn.log_eq
  rw [show (finish o (start c m view)).result = .ok ending from h] at hlog
  rw [hlog, List.filter_append, filter_recounted]
  cases ending <;> rfl

end Session

namespace CommandLine

variable {options : Options} {image : List UInt8} {f : Fault}

/-- An image fails with a fault : no machine can be made of it, or the run of its machine ends with
the fault. -/
inductive Options.Fails (options : Options) (image : List UInt8) : Fault → Prop where
  | refused {fault : Fault} (h : Machine.boot image options.stackLimit = .error fault) :
    Fails options image fault
  | halted {m : Machine} {fault : Fault} (hm : Machine.boot image options.stackLimit = .ok m)
    (h : ((Control.ofLimits options.rate options.budget).run m).result = .error fault) :
    Fails options image fault

/-- The lines of a log that are errors. -/
def errorLines (log : List String) : List String :=
  log.filter fun line => Level.ofLine? line = some .error

/-- No log leaves out an error. -/
theorem errorLines_logLines (threshold : Level) (notices : List Notice) :
    errorLines (logLines threshold notices) =
      (notices.filter (·.level = .error)).map Notice.line := by
  rw [errorLines, logLines, List.filter_map, List.filter_filter]
  refine congrArg _ (List.filter_congr fun n _ => ?_)
  rw [Function.comp_apply, ofLine?_line]
  cases n.level <;> cases threshold <;> rfl

/-- An image that fits is loaded without an error, and the errors of its run are those of the whole
program. -/
theorem errorLines_of_boot {m : Machine} (hm : Machine.boot image options.stackLimit = .ok m) :
    errorLines (execute options (.ok image)).log =
      ((((Control.ofLimits options.rate options.budget).run m).session.log.toList.filter
        (·.level = .error)).map fun e => (Notice.event e).line) := by
  have hevents : ∀ events : List Event, (events.map Notice.event).filter (·.level = .error) =
      (events.filter (·.level = .error)).map Notice.event := fun _ => List.filter_map
  rw [execute_of_boot hm, conclude, errorLines_logLines, List.filter_append, hevents,
    List.map_append, List.map_map]
  rfl

/-- The run has failed, and the one error in its log is the record of a fault. -/
structure Completion.TellsOf (c : Completion) (fault : Fault) : Prop where
  status_eq : c.status = 1
  errors_eq : ∃ n : Notice, n.Diagnoses fault ∧ errorLines c.log = [n.line]

theorem tellsOf_of_fails (h : options.Fails image f) : (execute options (.ok image)).TellsOf f := by
  cases h with
  | refused h =>
    rw [execute_of_refused h]
    exact ⟨rfl, _, .refused f, errorLines_logLines _ _⟩
  | @halted m _ hm h =>
    obtain ⟨pc, cycles, herrors⟩ := Session.errors_of_fault h
    refine ⟨?_, _, .halted pc cycles f, (errorLines_of_boot hm).trans (congrArg _ herrors)⟩
    rw [execute_of_boot hm, conclude, h, exitStatus]

theorem errorLines_of_not_fails (h : ∀ f, ¬options.Fails image f) :
    (execute options (.ok image)).status = 0 ∧
      errorLines (execute options (.ok image)).log = [] := by
  cases hm : Machine.boot image options.stackLimit with
  | error fault => exact (h fault (.refused hm)).elim
  | ok m =>
    cases hr : ((Control.ofLimits options.rate options.budget).run m).result with
    | error fault => exact (h fault (.halted hm hr)).elim
    | ok ending =>
      refine ⟨?_, (errorLines_of_boot hm).trans (congrArg _ (Session.errors_of_ending hr))⟩
      rw [execute_of_boot hm, conclude, hr, exitStatus]

end CommandLine

open CommandLine

/-- A message identifies its fault, with any numbers in it, and so does a line of the log in which
the program tells of a fault. For an image that fails with a fault this is the only error in the
log, however little the log shows, and an image that does not fail leaves none. -/
theorem Fault.message_eq_message_iff : (∀ f g : Fault, f.message = g.message ↔ f = g) ∧
    (∀ (m n : Notice) (f g : Fault), m.Diagnoses f → n.Diagnoses g → m.line = n.line → f = g) ∧
    (∀ (options : Options) (image : List UInt8),
      (∀ f, options.Fails image f → (execute options (.ok image)).TellsOf f) ∧
      ((∀ f, ¬options.Fails image f) → (execute options (.ok image)).status = 0 ∧
        errorLines (execute options (.ok image)).log = [])) ∧
    (∀ (c d : Completion) (f g : Fault), c.TellsOf f → d.TellsOf g →
      errorLines c.log = errorLines d.log → f = g) ∧
    ∀ (read : String → Except ReadError (List UInt8)) (arguments : List String)
      (options : Options) (image : List UInt8),
      Options.ofArguments arguments = .ok options → read options.rom = .ok image →
        run read arguments = execute options (.ok image) := by
  have hline : ∀ (m n : Notice) (f g : Fault), m.Diagnoses f → n.Diagnoses g →
      m.line = n.line → f = g := by
    intro m n f g hm hn h
    have hread : some f = some g := by rw [← hm.faultOfLine?_line, ← hn.faultOfLine?_line, h]
    exact Option.some.inj hread
  refine ⟨fun f g => ⟨fun h => ?_, fun h => h ▸ rfl⟩, hline, fun options image =>
    ⟨fun f => tellsOf_of_fails, errorLines_of_not_fails⟩, fun c d f g hc hd h => ?_,
    fun read arguments options image hoptions hread => ?_⟩
  · have hread : some f = some g := by rw [← ofMessage?_message f, ← ofMessage?_message g, h]
    exact Option.some.inj hread
  · obtain ⟨m, hm, hcm⟩ := hc.errors_eq
    obtain ⟨n, hn, hdn⟩ := hd.errors_eq
    exact hline m n f g hm hn (List.singleton_inj.1 (hcm.symm.trans (h.trans hdn)))
  · rw [run_of_accepted hoptions, hread]

/-- The two messages that end alike, for places in memory and in the picture, the line of a run that
ends with the second, and a run whose one error tells of a fault. -/
theorem Fault.message_eq_message_iff_places :
    (outOfRange (.cell 0x1000)).message = "memory address 0x1000 is out of range" ∧
      (outOfRange (.pixel 64 3)).message = "pixel (64, 3) is out of range" ∧
        (∀ f : Fault,
          (f.message = "memory address 0x1000 is out of range" → f = outOfRange (.cell 0x1000)) ∧
          (f.message = "pixel (64, 3) is out of range" → f = outOfRange (.pixel 64 3))) ∧
        (∀ (n : Notice) (f : Fault), n.Diagnoses f →
          n.line = "ERROR [minichip::runner] halted at 0x20a after 5 cycles: " ++
            "pixel (64, 3) is out of range" → f = outOfRange (.pixel 64 3)) ∧
        let options : Options := ⟨"a", none, some 2, 16, false, .warning⟩
        let image : List UInt8 := [0x60, 0x01, 0x00, 0x00]
        options.Fails image (unknownOpcode 0) ∧
          (execute options (.ok image)).TellsOf (unknownOpcode 0) ∧
          ∀ f, (execute options (.ok image)).TellsOf f → f = unknownOpcode 0 := by
  have hcell : (outOfRange (.cell 0x1000)).message = "memory address 0x1000 is out of range" := by
    decide +kernel
  have hpixel : (outOfRange (.pixel 64 3)).message = "pixel (64, 3) is out of range" := by
    decide +kernel
  have hhalted : (Notice.event (.halted 0x20a 5 (outOfRange (.pixel 64 3)))).line =
      "ERROR [minichip::runner] halted at 0x20a after 5 cycles: " ++
        "pixel (64, 3) is out of range" := by decide +kernel
  obtain ⟨m, hm, -, -, hresult⟩ := exists_runLines_secondFault
  have hfails : (⟨"a", none, some 2, 16, false, .warning⟩ : Options).Fails
      [0x60, 0x01, 0x00, 0x00] (unknownOpcode 0) := .halted hm hresult
  obtain ⟨hmessage, hline, htells, herrors, -⟩ := message_eq_message_iff
  have htold := (htells _ _).1 _ hfails
  refine ⟨hcell, hpixel, fun f => ⟨fun h => ?_, fun h => ?_⟩, fun n f hn h => ?_, hfails, htold,
    fun f hf => herrors _ _ f _ hf htold rfl⟩
  · exact (hmessage f _).1 (h.trans hcell.symm)
  · exact (hmessage f _).1 (h.trans hpixel.symm)
  · exact hline n _ f _ hn (.halted 0x20a 5 _) (h.trans hhalted.symm)

end Chip8
