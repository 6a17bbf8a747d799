/-!
# Lists made of blocks

The bytes of a program and the dots of a sprite come in blocks of one length : two bytes for each
instruction, eight dots for each row. What stands at a place of such a list is in the block that
the quotient by the length names, at the place that the remainder names.
-/

namespace Chip8

variable {α β : Type} {block : α → List β} {size : Nat}

/-- Where in the blocks a place of the whole list is. -/
theorem getElem?_flatMap_block (hpos : 0 < size) (hsize : ∀ a, (block a).length = size) :
    ∀ (items : List α) (place : Nat),
      (items.flatMap block)[place]? = items[place / size]?.bind fun a => (block a)[place % size]?
  | [], _ => by simp
  | a :: items, place => by
    rw [List.flatMap_cons]
    rcases Nat.lt_or_ge place size with hlt | hge
    · rw [List.getElem?_append_left (by rwa [hsize]), Nat.div_eq_of_lt hlt, Nat.mod_eq_of_lt hlt]
      rfl
    · obtain ⟨later, rfl⟩ := Nat.exists_eq_add_of_le hge
      rw [List.getElem?_append_right (by rwa [hsize]), hsize, Nat.add_sub_cancel_left,
        getElem?_flatMap_block hpos hsize items later, Nat.add_div_left _ hpos,
        Nat.add_mod_left, List.getElem?_cons_succ]

theorem length_flatMap_block (hsize : ∀ a, (block a).length = size) :
    ∀ items : List α, (items.flatMap block).length = size * items.length
  | [] => rfl
  | a :: items => by
    rw [List.flatMap_cons, List.length_append, hsize, length_flatMap_block hsize items,
      List.length_cons, Nat.mul_succ, Nat.add_comm]

end Chip8
