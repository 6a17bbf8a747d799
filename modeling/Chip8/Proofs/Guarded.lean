import Chip8.Outcome

/-!
# Loops that fail by their items

The loops of the machine go through a list of items and stop at the first fault : dots that are
drawn, digits that are stored, registers that are filled. In each of them an item fails for what
it is and not for the state it meets. `Guarded` says so of a step, with the function that finds
the fault of an item.

The items before the first with a fault are those that the loop gets done (`sound_cases`). The
result of such a loop is then the first fault among the items (`Guarded.result_each`), and a part of
the state that each step changes by a rule of its own is changed by the rules of the items before
that fault, one after the other (`Guarded.view_each`). Where a rule either keeps the old value or
puts a fixed one in its place, a loop done twice leaves what it leaves done once
(`Guarded.view_each_again`).
-/

namespace Chip8.Outcome

variable {σ β ν : Type}

/-- The step fails at the items `check` finds a fault with, with that fault, and at no others. -/
structure Guarded (check : β → Option Fault) (step : σ → β → Except Fault σ) : Prop where
  refuse : ∀ {b fault}, check b = some fault → ∀ s, step s b = .error fault
  allow : ∀ {b}, check b = none → ∀ s, ∃ t, step s b = .ok t

/-- The items before the first that `check` finds a fault with. -/
def sound (check : β → Option Fault) (items : List β) : List β :=
  items.takeWhile fun b => (check b).isNone

theorem sound_cons_of_none {check : β → Option Fault} {b : β} (h : check b = none)
    (items : List β) : sound check (b :: items) = b :: sound check items := by
  simp [sound, h]

theorem sound_cons_of_some {check : β → Option Fault} {b : β} {fault : Fault}
    (h : check b = some fault) (items : List β) : sound check (b :: items) = [] := by
  simp [sound, h]

/-- Either no item has a fault, or the items are parted by the first that has one. -/
theorem sound_cases (check : β → Option Fault) : ∀ items : List β,
    ((∀ b ∈ items, check b = none) ∧ sound check items = items ∧
        items.findSome? check = none) ∨
      ∃ before b behind fault, items = before ++ b :: behind ∧ (∀ c ∈ before, check c = none) ∧
        check b = some fault ∧ sound check items = before ∧ items.findSome? check = some fault
  | [] => Or.inl ⟨by simp, rfl, rfl⟩
  | b :: items => by
    cases hb : check b with
    | some fault =>
      exact Or.inr ⟨[], b, items, fault, rfl, by simp, hb, sound_cons_of_some hb items,
        by simp [hb]⟩
    | none =>
      rw [sound_cons_of_none hb, List.findSome?_cons_of_isNone (by simp [hb])]
      rcases sound_cases check items with ⟨hall, hs, hf⟩ |
        ⟨before, c, behind, fault, rfl, hall, hc, hs, hf⟩
      · exact Or.inl ⟨by simpa [hb] using hall, by rw [hs], hf⟩
      · exact Or.inr ⟨b :: before, c, behind, fault, rfl, by simpa [hb] using hall, hc, by rw [hs],
          hf⟩

namespace Guarded

variable {check : β → Option Fault} {step : σ → β → Except Fault σ}

/-- The loop fails with the first fault among the items, whatever state it starts from. -/
theorem result_each (g : Guarded check step) : ∀ (s : σ) (items : List β),
    (each step s items).result = (items.findSome? check).elim (.ok ()) .error
  | _, [] => rfl
  | s, b :: items => by
    cases hb : check b with
    | some fault => simp [each_cons_error (g.refuse hb s), hb]
    | none =>
      obtain ⟨t, ht⟩ := g.allow hb s
      simpa [each_cons_ok ht, hb] using g.result_each t items

/-- What the loop leaves of a part of the state that every step changes by the rule `change` of
its item. -/
theorem view_each (g : Guarded check step) (view : σ → ν) (change : β → ν → ν)
    (hv : ∀ {s t b}, step s b = .ok t → view t = change b (view s)) :
    ∀ (s : σ) (items : List β), view (each step s items).state =
      (sound check items).foldl (fun v b => change b v) (view s)
  | _, [] => rfl
  | s, b :: items => by
    cases hb : check b with
    | some fault => simp [each_cons_error (g.refuse hb s), sound_cons_of_some hb]
    | none =>
      obtain ⟨t, ht⟩ := g.allow hb s
      simpa [each_cons_ok ht, sound_cons_of_none hb, hv ht] using g.view_each view change hv t items

end Guarded

/-! ## Rules that overwrite -/

/-- After rules that each keep the old value or put a fixed one in its place, the value is the
one put by the last rule that puts any. -/
theorem foldl_overwrite (hits : β → Bool) (value : β → ν) : ∀ (items : List β) (v : ν),
    items.foldl (fun v b => if hits b then value b else v) v =
      ((items.filter hits).getLast?.map value).getD v
  | [], _ => rfl
  | b :: items, v => by
    rw [List.foldl_cons, foldl_overwrite hits value items]
    cases hb : hits b with
    | false => simp [hb]
    | true =>
      simp only [List.filter_cons_of_pos hb, List.getLast?_cons]
      cases (items.filter hits).getLast? <;> rfl

/-- A part of the state that each step either keeps or overwrites is the same after the loop is
done twice as after it is done once. -/
theorem Guarded.view_each_again {check : β → Option Fault} {step : σ → β → Except Fault σ}
    (g : Guarded check step) (view : σ → ν) (hits : β → Bool) (value : β → ν)
    (hv : ∀ {s t b}, step s b = .ok t → view t = if hits b then value b else view s)
    (s : σ) (items : List β) :
    view (each step (each step s items).state items).state = view (each step s items).state := by
  have h : ∀ s, view (each step s items).state =
      (((sound check items).filter hits).getLast?.map value).getD (view s) := fun s => by
    rw [g.view_each view (fun b v => if hits b then value b else v) hv, foldl_overwrite]
  rw [h, h]
  cases ((sound check items).filter hits).getLast? <;> rfl

end Chip8.Outcome
