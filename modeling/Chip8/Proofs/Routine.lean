import Mathlib.Algebra.Group.Nat.Defs
import Chip8.Proofs.Guarded

/-!
# Routines with checks

The operations of the machine are carried out on lists, of cells, of registers and of pixels, one
access after the other, and with sums and products in words of a fixed size. A `Routine` is an
operation spelled out in this way. It ends with a value or with a fault, or it has no outcome at
all : where a number does not fit its word (`fit`), or where an access misses the list
(`Routine.item`, `Routine.replace`).

`Routine.Meets` says that a routine passes all its checks and comes to the outcome of an operation
that has none. It is put together from what the parts of the routine meet. In a loop that stops at
the first fault, the items before the one at hand have gone well, and the checks of an item may rest
on that (`Routine.meets_forIn`).
-/

namespace Chip8

variable {σ τ υ α β γ : Type}

/-- A number, if it fits a word of so many bits. -/
def fit (bits n : Nat) : Option Nat := if n < 2 ^ bits then some n else none

theorem fit_of_lt {bits n : Nat} (h : n < 2 ^ bits) : fit bits n = some n := if_pos h

/-- What a routine does with a state, if all checks on the way pass. -/
def Routine (σ α : Type) : Type := σ → Option (Outcome σ α)

namespace Routine

instance : Monad (Routine σ) where
  pure a s := some ⟨s, .ok a⟩
  bind r next s := (r s).bind fun o =>
    match o.result with
    | .ok a => next a o.state
    | .error fault => some ⟨o.state, .error fault⟩

instance : LawfulMonad (Routine σ) := LawfulMonad.mk' (Routine σ)
  (fun r => funext fun s => by
    change (r s).bind _ = r s
    cases r s with
    | none => rfl
    | some o => cases o with | mk t result => cases result <;> rfl)
  (fun _ _ => rfl)
  (fun r _ _ => funext fun s => by
    change ((r s).bind _).bind _ = (r s).bind _
    cases r s with
    | none => rfl
    | some o => cases o with | mk t result => cases result <;> rfl)

/-- A check is a routine that leaves the state alone. -/
instance : MonadLift Option (Routine σ) where
  monadLift check s := check.map fun a => ⟨s, .ok a⟩

/-- So is a result that is there already. -/
instance : MonadLift (Except Fault) (Routine σ) where
  monadLift result s := some ⟨s, result⟩

/-- Ends with a fault. -/
def fail (fault : Fault) : Routine σ α := fun s => some ⟨s, .error fault⟩

/-- Looks at a part of the state. -/
def look (view : σ → α) : Routine σ α := fun s => some ⟨s, .ok (view s)⟩

/-- Changes the state. -/
def change (f : σ → σ) : Routine σ Unit := fun s => some ⟨f s, .ok ()⟩

/-- The item at a place of the list. -/
def item (k : Nat) : Routine (List α) α := fun items =>
  items[k]?.map fun a => ⟨items, .ok a⟩

/-- Puts an item at a place of the list. -/
def replace (k : Nat) (a : α) : Routine (List α) Unit := fun items =>
  if k < items.length then some ⟨items.set k a, .ok ()⟩ else none

/-- Puts a whole list in place of the items from `start` to `stop`, as many as it has. -/
def copy (start stop : Nat) (new : List α) : Routine (List α) Unit := fun items =>
  if start ≤ stop ∧ stop ≤ items.length ∧ new.length = stop - start then
    some ⟨items.take start ++ new ++ items.drop stop, .ok ()⟩
  else none

/-- Works on a part of a larger state. -/
def within (part : σ → τ) (put : σ → τ → σ) (r : Routine τ α) : Routine σ α := fun s =>
  (r (part s)).map (Outcome.onState (put s))

/-- Ends without a value where the routine fails. -/
def attempt (r : Routine σ α) : Routine σ (Option α) := fun s =>
  (r s).map fun o => ⟨o.state, .ok o.result.toOption⟩

/-- On what `view` shows of a state, the routine passes all checks and comes to what `view` shows of
an outcome. -/
def Meets (view : σ → τ) (r : Routine τ α) (s : σ) (o : Outcome σ α) : Prop :=
  r (view s) = some (o.onState view)

section Meets

variable {view : σ → τ} {r : Routine τ α} {next : α → Routine τ β} {s t : σ} {a : α} {fault : Fault}

theorem meets_pure : Meets view (pure a) s ⟨s, .ok a⟩ := rfl

theorem meets_fail : Meets view (fail fault : Routine τ α) s ⟨s, .error fault⟩ := rfl

theorem meets_look {part : τ → α} : Meets view (look part) s ⟨s, .ok (part (view s))⟩ := rfl

theorem meets_change {f : τ → τ} (h : f (view s) = view t) :
    Meets view (change f) s ⟨t, .ok ()⟩ := by
  rw [Meets, change, h, Outcome.onState]

theorem meets_check {check : Option α} (h : check = some a) :
    Meets view (liftM check) s ⟨s, .ok a⟩ := by
  rw [h]
  rfl

theorem meets_result {result known : Except Fault α} (h : result = known) :
    Meets view (liftM result) s ⟨s, known⟩ := by
  rw [← h]
  rfl

theorem Meets.bind {o : Outcome σ β} (h : Meets view r s ⟨t, .ok a⟩)
    (hnext : Meets view (next a) t o) : Meets view (r >>= next) s o :=
  (congrArg (Option.bind · _) h).trans hnext

theorem Meets.bind_error (h : Meets view r s ⟨t, .error fault⟩) :
    Meets view (r >>= next) s ⟨t, .error fault⟩ :=
  congrArg (Option.bind · _) h

theorem Meets.bind_pure {o : Outcome σ α} (h : Meets view r s o) : Meets view (r >>= pure) s o := by
  obtain ⟨t, result⟩ := o
  cases result with
  | ok a => exact h.bind meets_pure
  | error fault => exact h.bind_error

theorem Meets.attempt {o : Outcome σ α} (h : Meets view r s o) :
    Meets view r.attempt s ⟨o.state, .ok o.result.toOption⟩ := by
  rw [Meets, Routine.attempt, h]
  rfl

/-- A part of a state that is shown by `inner` stands in what `view` shows of the whole. -/
theorem Meets.within {part : υ → τ} {put : υ → τ → υ} {inner : σ → τ} {view : γ → υ} {embed : σ → γ}
    {c : γ} {o : Outcome σ α} (h : Meets inner r s o) (hpart : part (view c) = inner s)
    (hput : ∀ x, put (view c) (inner x) = view (embed x)) :
    Meets view (r.within part put) c (o.onState embed) := by
  rw [Meets, Routine.within, hpart, h]
  exact congrArg (fun u => some (⟨u, o.result⟩ : Outcome υ α)) (hput o.state)

/-! ## Accesses -/

theorem meets_item {list : σ → List α} {k : Nat} (h : (list s)[k]? = some a) :
    Meets list (item k) s ⟨s, .ok a⟩ := by
  rw [Meets, item, h]
  rfl

theorem meets_replace {list : σ → List α} {k : Nat} (hk : k < (list s).length)
    (h : (list s).set k a = list t) : Meets list (replace k a) s ⟨t, .ok ()⟩ := by
  rw [Meets, replace, if_pos hk, h]
  rfl

theorem meets_copy {list : σ → List α} {start stop : Nat} {new : List α}
    (hin : start ≤ stop ∧ stop ≤ (list s).length ∧ new.length = stop - start)
    (h : (list s).take start ++ new ++ (list s).drop stop = list t) :
    Meets list (copy start stop new) s ⟨t, .ok ()⟩ := by
  rw [Meets, copy, if_pos hin, h]
  rfl

/-! ## Loops -/

/-- A loop that only looks at the state has the values of its items, up to the first that fails. -/
theorem meets_mapM {f : β → Except Fault γ} {look : β → Routine τ γ} : ∀ items : List β,
    (∀ b ∈ items, Meets view (look b) s ⟨s, f b⟩) → Meets view (items.mapM look) s ⟨s, items.mapM f⟩
  | [], _ => rfl
  | b :: items, h => by
    obtain ⟨hb, hitems⟩ := List.forall_mem_cons.1 h
    rw [List.mapM_cons, List.mapM_cons]
    cases hf : f b with
    | error fault => exact (hf ▸ hb).bind_error
    | ok c =>
      refine (hf ▸ hb).bind ?_
      have hrest := meets_mapM items hitems
      cases hr : items.mapM f with
      | error fault => exact (hr ▸ hrest).bind_error
      | ok rest => exact (hr ▸ hrest).bind meets_pure

/-- The body of a loop does a step : it goes on with what the step leaves, and fails with it. -/
structure Does (view : σ → τ) (acc : σ → α) (body : α → Routine τ (ForInStep α))
    (step : σ → Except Fault σ) : Prop where
  ok : ∀ {s t}, step s = .ok t → Meets view (body (acc s)) s ⟨t, .ok (.yield (acc t))⟩
  error : ∀ {s fault}, step s = .error fault → Meets view (body (acc s)) s ⟨s, .error fault⟩

/-- A loop does its steps one after the other if the body does them at each item, or at least at
those before which no item has a fault. -/
theorem meets_forIn (view : σ → τ) (acc : σ → α) (item : β → γ) {check : γ → Option Fault}
    {step : σ → γ → Except Fault σ} {body : β → α → Routine τ (ForInStep α)}
    (g : Outcome.Guarded check step) : ∀ (items : List β) (s : σ),
      (∀ k, ∀ hk : k < items.length, (∀ i, ∀ hi : i < k, check (item items[i]) = none) →
        Does view acc (body items[k]) (step · (item items[k]))) →
      Meets view (forIn items (acc s) body) s ⟨(Outcome.each step s (items.map item)).state,
        (Outcome.each step s (items.map item)).result.map fun () =>
          acc (Outcome.each step s (items.map item)).state⟩
  | [], _, _ => rfl
  | b :: items, s, h => by
    have hfirst := h 0 (Nat.succ_pos _) (by simp)
    rw [List.forIn_cons, List.map_cons]
    cases hb : check (item b) with
    | some fault =>
      have hstep := g.refuse hb s
      rw [Outcome.each_cons_error hstep]
      exact (hfirst.error hstep).bind_error
    | none =>
      obtain ⟨t, ht⟩ := g.allow hb s
      rw [Outcome.each_cons_ok ht]
      refine (hfirst.ok ht).bind (meets_forIn view acc item g items t fun k hk hbefore => ?_)
      -- The items before it are the first, which has no fault, and those before it in the rest.
      refine h (k + 1) (Nat.succ_lt_succ hk) fun i hi => ?_
      cases i with
      | zero => exact hb
      | succ i => exact hbefore i (Nat.lt_of_succ_lt_succ hi)

/-- A loop without a value of its own. -/
theorem meets_forIn_unit (view : σ → τ) (item : β → γ) {check : γ → Option Fault}
    {step : σ → γ → Except Fault σ} {body : β → PUnit → Routine τ (ForInStep PUnit)}
    (g : Outcome.Guarded check step) (items : List β) (s : σ)
    (h : ∀ k, ∀ hk : k < items.length, Does view (fun _ => .unit) (body items[k])
      (step · (item items[k]))) :
    Meets view (forIn items .unit body >>= pure) s (Outcome.each step s (items.map item)) := by
  have hloop := meets_forIn view (fun _ => PUnit.unit) item g items s fun k hk _ => h k hk
  replace hloop := hloop.bind_pure
  revert hloop
  cases Outcome.each step s (items.map item) with
  | mk t result => cases result <;> exact id

end Meets

end Routine

end Chip8
