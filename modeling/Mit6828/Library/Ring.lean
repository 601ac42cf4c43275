import Mathlib.Data.List.Infix

namespace Mit6828.Library.Ring

open Function

variable {α : Type*} {n r r' : Nat} {cell : Nat → α} {items : List α} {x : α}

structure Holds (n : Nat) (cell : Nat → α) (items : List α) (r : Nat) : Prop where
  room : items.length ≤ r + n
  held : ∀ i, r ≤ i → i < items.length → items[i]? = some (cell (i % n))

theorem Holds.put (h : Holds n cell items r) (hroom : items.length < r + n) (x : α) :
    Holds n (update cell (items.length % n) x) (items ++ [x]) r := by
  refine ⟨by rw [List.length_append, List.length_singleton]; exact hroom, fun i hr hi => ?_⟩
  rw [List.length_append, List.length_singleton] at hi
  by_cases hlast : i = items.length
  · subst hlast
    rw [update_self, List.getElem?_concat_length]
  have hlt : i < items.length := by omega
  have hne : i % n ≠ items.length % n := by
    intro heq
    have hmod : (items.length - i) % n = 0 := Nat.sub_mod_eq_zero_of_mod_eq heq.symm
    have hle := Nat.le_of_dvd (by omega) (Nat.dvd_of_mod_eq_zero hmod)
    omega
  rw [update_of_ne hne, List.getElem?_append_left hlt]
  exact h.held i hr hlt

theorem Holds.advance (h : Holds n cell items r) (hr : r ≤ r') : Holds n cell items r' :=
  ⟨h.room.trans (Nat.add_le_add_right hr n), fun i hi => h.held i (hr.trans hi)⟩

theorem Holds.take_succ (h : Holds n cell items r) (hr : r < items.length) :
    items.take r ++ [cell (r % n)] = items.take (r + 1) := by
  rw [List.take_add_one, h.held r le_rfl hr, Option.toList_some]

/-- What was put into the cells comes out in order, and at most `m` items are in them. -/
structure Queue (n m : Nat) (cell : Nat → α) (items got : List α) : Prop where
  le : got.length ≤ items.length
  room : items.length ≤ got.length + m
  ring : Holds n cell items got.length
  order : got = items.take got.length

theorem queue_nil (n m : Nat) (cell : Nat → α) : Queue n m cell [] [] :=
  ⟨le_rfl, Nat.zero_le _, ⟨Nat.zero_le _, fun _ _ hi => absurd hi (Nat.not_lt_zero _)⟩, rfl⟩

theorem length_concat (items : List α) (x : α) : (items ++ [x]).length = items.length + 1 :=
  List.length_append

theorem Queue.put {m : Nat} {got : List α} (h : Queue n m cell items got) (hm : m ≤ n)
    (hroom : items.length < got.length + m) (x : α) :
    Queue n m (update cell (items.length % n) x) (items ++ [x]) got := by
  have hlen := length_concat items x
  have hle := h.le
  refine ⟨by omega, by omega, h.ring.put (by omega) x, ?_⟩
  rw [List.take_append_of_le_length hle]
  exact h.order

theorem Queue.get {m : Nat} {got : List α} (h : Queue n m cell items got)
    (hlt : got.length < items.length) : Queue n m cell items (got ++ [cell (got.length % n)]) := by
  have hroom := h.room
  have hlen := length_concat got (cell (got.length % n))
  refine ⟨by omega, by omega, ?_, ?_⟩
  · rw [hlen]
    exact h.ring.advance (Nat.le_succ _)
  · rw [hlen, ← h.ring.take_succ hlt, ← h.order]

end Mit6828.Library.Ring
