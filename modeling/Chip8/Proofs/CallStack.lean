import Mathlib.Combinatorics.Enumerative.DyckWord
import Chip8.CallStack

/-!
# Pushes and pops

A call stack is asked to push and to pop (`CallStack.Request`), in any order. A request that it
refuses leaves it as it was (`CallStack.ask`). The others are the steps of a path, up and down by
one (`CallStack.steps`), whose height is the depth of the stack (`CallStack.depth_after`).

As long as the path stays above some height (`CallStack.StaysAbove`), the addresses that were saved
up to there stay at the bottom of the stack (`CallStack.prefix_after`). Steps that make up a Dyck
word, where each push is taken back by a pop, therefore leave the stack that they found
(`CallStack.after_of_dyck`), and a pop behind them gives the address that was pushed in front of
them.

So a pop always gives the address of the newest push that has not been taken back, which is the one
with a Dyck word behind it (`CallStack.Newest`). `CallStack.after_lifo` puts this together.
-/

namespace Chip8.CallStack

/-- What a call stack can be asked to do. -/
inductive Request where
  | push (address : UInt16)
  | pop
  deriving DecidableEq

/-- What becomes of a request. -/
inductive Answer where
  /-- The address was saved. -/
  | pushed (address : UInt16)
  /-- The address was on top and was taken. -/
  | popped (address : UInt16)
  | refused (fault : Fault)
  deriving DecidableEq

/-- A push is a step up, and a pop is a step down. -/
def Request.step : Request → DyckStep
  | push _ => .U
  | pop => .D

/-- The step of a request that was not refused. -/
def Answer.step? : Answer → Option DyckStep
  | pushed _ => some .U
  | popped _ => some .D
  | refused _ => none

/-- The steps of the pushes and pops that were not refused, in order. -/
def steps (answers : List Answer) : List DyckStep := answers.filterMap Answer.step?

/-- What becomes of a request, and the stack after it. -/
def ask (s : CallStack) : Request → Answer × CallStack
  | .push address =>
    match s.push address with
    | .ok t => (.pushed address, t)
    | .error fault => (.refused fault, s)
  | .pop =>
    match s.pop with
    | .ok (address, t) => (.popped address, t)
    | .error fault => (.refused fault, s)

/-- What becomes of requests that are made one after the other. -/
def answers : CallStack → List Request → List Answer
  | _, [] => []
  | s, r :: requests => (s.ask r).1 :: (s.ask r).2.answers requests

/-- The stack after requests that are made one after the other. -/
def after : CallStack → List Request → CallStack
  | s, [] => s
  | s, r :: requests => (s.ask r).2.after requests

/-- A path that starts at a height never falls below a floor. -/
def StaysAbove (floor height : Nat) (path : List DyckStep) : Prop :=
  ∀ k, floor + (path.take k).count .D ≤ height + (path.take k).count .U

/-- Of the pushes that have not been taken back, the newest has saved this address : the pushes and
pops behind it take back each other, without it. -/
def Newest (answers : List Answer) (address : UInt16) : Prop :=
  ∃ (before behind : List Answer) (w : DyckWord),
    answers = before ++ .pushed address :: behind ∧ steps behind = w.toList

variable {s t : CallStack} {address : UInt16} {r : Request} {requests : List Request}
  {answer : Answer}

@[simp] theorem steps_pushed (address : UInt16) (answers : List Answer) :
    steps (.pushed address :: answers) = .U :: steps answers := rfl

@[simp] theorem steps_popped (address : UInt16) (answers : List Answer) :
    steps (.popped address :: answers) = .D :: steps answers := rfl

@[simp] theorem steps_refused (fault : Fault) (answers : List Answer) :
    steps (.refused fault :: answers) = steps answers := rfl

theorem steps_append (first rest : List Answer) :
    steps (first ++ rest) = steps first ++ steps rest :=
  List.filterMap_append

/-! ## Paths -/

namespace StaysAbove

variable {floor height : Nat} {path : List DyckStep}

theorem floor_le (h : StaysAbove floor height path) : floor ≤ height := h 0

theorem of_up (h : StaysAbove floor height (.U :: path)) : StaysAbove floor (height + 1) path := by
  intro k
  have hk := h (k + 1)
  rw [List.take_succ_cons, List.count_cons_self, List.count_cons_of_ne (by decide)] at hk
  omega

theorem of_down (h : StaysAbove floor (height + 1) (.D :: path)) :
    StaysAbove floor height path := by
  intro k
  have hk := h (k + 1)
  rw [List.take_succ_cons, List.count_cons_self, List.count_cons_of_ne (by decide)] at hk
  omega

end StaysAbove

/-- A Dyck word never falls below the height at which it starts. -/
theorem staysAbove_dyck (w : DyckWord) (height : Nat) : StaysAbove height height w.toList :=
  fun k => Nat.add_le_add_left (w.count_D_le_count_U k) height

/-! ## One request -/

/-- A request pushes, pops, or is refused and changes nothing. -/
theorem ask_cases (s : CallStack) (r : Request) :
    (∃ address t, s.push address = .ok t ∧ r = .push address ∧ s.ask r = (.pushed address, t)) ∨
      (∃ address t, s.pop = .ok (address, t) ∧ r = .pop ∧ s.ask r = (.popped address, t)) ∨
        ∃ fault, s.ask r = (.refused fault, s) := by
  cases r with
  | push address =>
    cases h : s.push address with
    | ok t => exact Or.inl ⟨address, t, h, rfl, by rw [ask, h]⟩
    | error fault => exact Or.inr (Or.inr ⟨fault, by rw [ask, h]⟩)
  | pop =>
    cases h : s.pop with
    | ok popped => exact Or.inr (Or.inl ⟨popped.1, popped.2, rfl, rfl, by rw [ask, h]⟩)
    | error fault => exact Or.inr (Or.inr ⟨fault, by rw [ask, h]⟩)

theorem limit_ask (s : CallStack) (r : Request) : (s.ask r).2.limit = s.limit := by
  rcases s.ask_cases r with ⟨address, t, h, -, ha⟩ | ⟨address, t, h, -, ha⟩ | ⟨fault, ha⟩
  · rw [ha, limit_of_push h]
  · rw [ha, limit_of_pop h]
  · rw [ha]

/-! ## One request after the other -/

theorem answers_cons (h : s.ask r = (answer, t)) (requests : List Request) :
    s.answers (r :: requests) = answer :: t.answers requests := by
  rw [answers, h]

theorem after_cons (h : s.ask r = (answer, t)) (requests : List Request) :
    s.after (r :: requests) = t.after requests := by
  rw [after, h]

theorem answers_append : ∀ (s : CallStack) (first rest : List Request),
    s.answers (first ++ rest) = s.answers first ++ (s.after first).answers rest
  | _, [], _ => rfl
  | s, r :: first, rest => congrArg (_ :: ·) (answers_append (s.ask r).2 first rest)

theorem after_append : ∀ (s : CallStack) (first rest : List Request),
    s.after (first ++ rest) = (s.after first).after rest
  | _, [], _ => rfl
  | s, r :: first, rest => after_append (s.ask r).2 first rest

theorem answers_concat (h : (s.after requests).ask r = (answer, t)) :
    s.answers (requests ++ [r]) = s.answers requests ++ [answer] := by
  rw [answers_append, answers_cons h, answers]

theorem after_concat (h : (s.after requests).ask r = (answer, t)) :
    s.after (requests ++ [r]) = t := by
  rw [after_append, after_cons h, after]

theorem limit_after : ∀ (s : CallStack) (requests : List Request),
    (s.after requests).limit = s.limit
  | _, [] => rfl
  | s, r :: requests => (limit_after (s.ask r).2 requests).trans (s.limit_ask r)

/-- The depth is the height of the path that the pushes and pops make. -/
theorem depth_after : ∀ (s : CallStack) (requests : List Request),
    (s.after requests).depth + (steps (s.answers requests)).count .D =
      s.depth + (steps (s.answers requests)).count .U
  | _, [] => rfl
  | s, r :: requests => by
    rcases s.ask_cases r with ⟨address, t, h, -, ha⟩ | ⟨address, t, h, -, ha⟩ | ⟨fault, ha⟩
    · have ih := depth_after t requests
      have hdepth := depth_of_push h
      rw [after_cons ha, answers_cons ha, steps_pushed, List.count_cons_self,
        List.count_cons_of_ne (by decide)]
      omega
    · have ih := depth_after t requests
      have hdepth := depth_of_pop h
      rw [after_cons ha, answers_cons ha, steps_popped, List.count_cons_self,
        List.count_cons_of_ne (by decide)]
      omega
    · rw [after_cons ha, answers_cons ha, steps_refused, depth_after s requests]

/-- As long as the path stays above some height, the addresses saved up to there stay. -/
theorem prefix_after {bottom : List UInt16} : ∀ (s : CallStack) (requests : List Request),
    bottom <+: s.addresses.toList →
      StaysAbove bottom.length s.depth (steps (s.answers requests)) →
        bottom <+: (s.after requests).addresses.toList
  | _, [], hbottom, _ => hbottom
  | s, r :: requests, hbottom, habove => by
    rcases s.ask_cases r with ⟨address, t, h, -, ha⟩ | ⟨address, t, h, -, ha⟩ | ⟨fault, ha⟩
    · rw [answers_cons ha, steps_pushed] at habove
      rw [after_cons ha]
      refine prefix_after t requests ?_ (depth_of_push h ▸ habove.of_up)
      rw [addresses_of_push h, Array.toList_push]
      exact hbottom.trans (List.prefix_append _ _)
    · rw [answers_cons ha, steps_popped, depth_of_pop h] at habove
      rw [after_cons ha]
      refine prefix_after t requests ?_ habove.of_down
      -- The address that is taken lies above the floor.
      rw [addresses_of_pop h, Array.toList_push] at hbottom
      exact List.prefix_of_prefix_length_le hbottom (List.prefix_append _ _)
        habove.of_down.floor_le
    · rw [answers_cons ha, steps_refused] at habove
      rw [after_cons ha]
      exact prefix_after s requests hbottom habove

/-- The steps of requests that are not refused are those that were asked for. -/
theorem steps_answers : ∀ (s : CallStack) (requests : List Request),
    (∀ fault, .refused fault ∉ s.answers requests) →
      steps (s.answers requests) = requests.map Request.step
  | _, [], _ => rfl
  | s, r :: requests, h => by
    rcases s.ask_cases r with ⟨address, t, -, rfl, ha⟩ | ⟨address, t, -, rfl, ha⟩ | ⟨fault, ha⟩
    · rw [answers_cons ha] at h ⊢
      have hrest := steps_answers t requests fun fault hf => h fault (List.mem_cons_of_mem _ hf)
      rw [steps_pushed, hrest, List.map_cons, Request.step]
    · rw [answers_cons ha] at h ⊢
      have hrest := steps_answers t requests fun fault hf => h fault (List.mem_cons_of_mem _ hf)
      rw [steps_popped, hrest, List.map_cons, Request.step]
    · rw [answers_cons ha] at h
      exact (h fault List.mem_cons_self).elim

/-- Steps that make up a Dyck word leave the stack that they found. -/
theorem after_of_dyck {w : DyckWord} (h : steps (s.answers requests) = w.toList) :
    s.after requests = s := by
  have hdepth := s.depth_after requests
  rw [h, w.count_U_eq_count_D] at hdepth
  have habove : StaysAbove s.depth s.depth (steps (s.answers requests)) :=
    h ▸ staysAbove_dyck w s.depth
  have hbottom := prefix_after s requests (List.prefix_refl s.addresses.toList) habove
  refine CallStack.ext (s.limit_after requests) (Array.toList_inj.1 ?_)
  exact (hbottom.eq_of_length (Nat.add_right_cancel hdepth).symm).symm

/-! ## The newest push -/

/-- A push among the answers was made on the stack that the requests in front of it left. -/
theorem exists_push {behind : List Answer} : ∀ {s : CallStack} {requests : List Request}
    {before : List Answer}, s.answers requests = before ++ .pushed address :: behind →
    ∃ first inner t, requests = first ++ .push address :: inner ∧ s.answers first = before ∧
      (s.after first).push address = .ok t ∧ t.answers inner = behind
  | s, [], before, h => by simp [answers] at h
  | s, r :: requests, [], h => by
    rcases s.ask_cases r with ⟨other, t, hpush, rfl, ha⟩ | ⟨other, t, -, -, ha⟩ | ⟨fault, ha⟩
    · rw [answers_cons ha] at h
      obtain ⟨hr, hbehind⟩ := List.cons.inj h
      obtain rfl := Answer.pushed.inj hr
      exact ⟨[], requests, t, rfl, rfl, hpush, hbehind⟩
    · rw [answers_cons ha] at h
      exact nomatch (List.cons.inj h).1
    · rw [answers_cons ha] at h
      exact nomatch (List.cons.inj h).1
  | s, r :: requests, answer :: before, h => by
    obtain ⟨hr, hrest⟩ := List.cons.inj h
    obtain ⟨first, inner, t, rfl, hfirst, hpush, hinner⟩ := exists_push hrest
    exact ⟨r :: first, inner, t, rfl, by rw [answers, hr, hfirst], hpush, hinner⟩

/-- A pop takes back a push that has a Dyck word behind it. -/
theorem pop_of_answers {before behind : List Answer} {w : DyckWord}
    (h : s.answers requests = before ++ .pushed address :: behind)
    (hw : steps behind = w.toList) : ∃ first, first.length < requests.length ∧
      s.answers first = before ∧ (s.after requests).pop = .ok (address, s.after first) := by
  obtain ⟨first, inner, t, rfl, hfirst, hpush, rfl⟩ := exists_push h
  refine ⟨first, by simp, hfirst, ?_⟩
  have hask : (s.after first).ask (.push address) = (.pushed address, t) := by rw [ask, hpush]
  rw [after_append, after_cons hask, after_of_dyck hw]
  exact pop_of_push hpush

theorem newest_concat_pushed (told : List Answer) (address : UInt16) :
    Newest (told ++ [.pushed address]) address :=
  ⟨told, [], 0, rfl, rfl⟩

theorem Newest.concat_refused {told : List Answer} (h : Newest told address) (fault : Fault) :
    Newest (told ++ [.refused fault]) address := by
  obtain ⟨before, behind, w, rfl, hw⟩ := h
  refine ⟨before, behind ++ [.refused fault], w, by simp, ?_⟩
  rw [steps_append, hw]
  exact List.append_nil _

/-- A push and the pop that takes it back leave the newest push before them the newest. -/
theorem Newest.concat_popped {told behind : List Answer} {w : DyckWord} (h : Newest told address)
    (hw : steps behind = w.toList) (top other : UInt16) :
    Newest (told ++ .pushed top :: behind ++ [.popped other]) address := by
  obtain ⟨before, older, v, rfl, hv⟩ := h
  refine ⟨before, older ++ (.pushed top :: behind ++ [.popped other]), v + w.nest, by simp, ?_⟩
  rw [steps_append, steps_append, steps_pushed, hv, hw]
  rfl

/-- What a pop gives was saved by the newest push that has not been taken back. -/
theorem newest_of_pop {limit : Nat}
    (h : ((empty limit).after requests).pop = .ok (address, t)) :
    Newest ((empty limit).answers requests) address := by
  -- By induction on the number of requests : where the last is a pop, the push that it takes back
  -- was made behind fewer.
  obtain ⟨n, hn⟩ : ∃ n, requests.length = n := ⟨_, rfl⟩
  induction n using Nat.strong_induction_on generalizing requests address t with
  | _ n ih =>
  rcases List.eq_nil_or_concat' requests with rfl | ⟨earlier, r, rfl⟩
  · exact nomatch h
  · have hlt : earlier.length < n := by
      rw [← hn, List.length_append]
      exact Nat.lt_succ_self _
    rcases ((empty limit).after earlier).ask_cases r with
      ⟨top, u, hpush, -, ha⟩ | ⟨top, u, hpop, -, ha⟩ | ⟨fault, ha⟩
    · rw [after_concat ha] at h
      obtain ⟨rfl, -⟩ := Prod.mk.inj (Except.ok.inj ((pop_of_push hpush).symm.trans h))
      rw [answers_concat ha]
      exact newest_concat_pushed _ top
    · rw [after_concat ha] at h
      obtain ⟨before, behind, w, hanswers, hw⟩ := ih _ hlt hpop rfl
      obtain ⟨first, hfirst, rfl, hback⟩ := pop_of_answers hanswers hw
      obtain ⟨-, rfl⟩ := Prod.mk.inj (Except.ok.inj (hback.symm.trans hpop))
      rw [answers_concat ha, hanswers]
      exact (ih _ (hfirst.trans hlt) h rfl).concat_popped hw top top
    · rw [after_concat ha] at h
      rw [answers_concat ha]
      exact (ih _ hlt h rfl).concat_refused fault

/-- A call stack gives back last what it was given first, and never holds more than its limit
allows : a pop gives the address of the newest push that has not been taken back, also behind
requests that were refused. -/
theorem after_lifo (limit : Nat) (requests : List Request) :
    let s := (empty limit).after requests
    let told := (empty limit).answers requests
    s.limit = limit ∧ s.depth ≤ limit ∧
    s.depth + (steps told).count .D = (steps told).count .U ∧
    (∀ address fault, s.push address = .error fault ↔
      s.depth = limit ∧ fault = .stackOverflow limit) ∧
    (∀ fault, s.pop = .error fault ↔ s.depth = 0 ∧ fault = .stackUnderflow) ∧
    (∀ r fault, (s.ask r).1 = .refused fault → (s.ask r).2 = s) ∧
    (∀ address, (∃ t, s.pop = .ok (address, t)) ↔ Newest told address) ∧
    ∀ address t inner (w : DyckWord), s.push address = .ok t →
      inner.map Request.step = w.toList → (∀ fault, .refused fault ∉ t.answers inner) →
        (t.after inner).pop = .ok (address, s) := by
  intro s told
  have hlimit : s.limit = limit := limit_after (empty limit) requests
  have hdepth := depth_after (empty limit) requests
  refine ⟨hlimit, hlimit ▸ s.depth_le, ?_, fun address fault => ?_, fun fault => pop_error_iff,
    fun r fault h => ?_, fun address => ⟨?_, ?_⟩, fun address t inner w hpush hw hall => ?_⟩
  · exact hdepth.trans (Nat.zero_add _)
  · rw [push_error_iff, hlimit]
  · rcases s.ask_cases r with ⟨_, _, -, -, ha⟩ | ⟨_, _, -, -, ha⟩ | ⟨_, ha⟩
    · rw [ha] at h
      exact nomatch h
    · rw [ha] at h
      exact nomatch h
    · rw [ha]
  · rintro ⟨t, h⟩
    exact newest_of_pop h
  · rintro ⟨before, behind, w, hanswers, hw⟩
    obtain ⟨first, -, -, hpop⟩ := pop_of_answers hanswers hw
    exact ⟨_, hpop⟩
  · rw [after_of_dyck ((steps_answers t inner hall).trans hw)]
    exact pop_of_push hpush

/-- Two pushes, one for which there is no room, and a pop that takes back the second. -/
theorem after_lifo_nested :
    let requests : List Request := [.push 0x202, .push 0x304, .push 0x406, .pop]
    let s := (empty 2).after requests
    (empty 2).answers requests =
        [.pushed 0x202, .pushed 0x304, .refused (.stackOverflow 2), .popped 0x304] ∧
      s.depth = 1 ∧ (∃ t, s.pop = .ok (0x202, t)) ∧
        ∃ t, (empty 2).push 0x202 = .ok t ∧
          (t.after [.push 0x304, .pop]).pop = .ok (0x202, empty 2) := by
  intro requests s
  have hanswers : (empty 2).answers requests =
      [.pushed 0x202, .pushed 0x304, .refused (.stackOverflow 2), .popped 0x304] := rfl
  obtain ⟨-, -, hdepth, -, -, -, hpop, -⟩ := after_lifo 2 requests
  obtain ⟨t, ht⟩ : ∃ t, (empty 2).push 0x202 = .ok t := ⟨_, rfl⟩
  have hinner := (after_lifo 2 []).2.2.2.2.2.2.2 0x202 t [.push 0x304, .pop] (DyckWord.nest 0) ht
  refine ⟨hanswers, ?_, (hpop 0x202).2 ⟨[], _, DyckWord.nest 0, hanswers, rfl⟩, t, ht,
    hinner rfl ?_⟩
  · rw [hanswers] at hdepth
    exact Nat.succ.inj hdepth
  · have hgranted : t.answers [.push 0x304, .pop] = [.pushed 0x304, .popped 0x304] := by
      obtain rfl := Except.ok.inj ht
      rfl
    simp [hgranted]

end Chip8.CallStack
