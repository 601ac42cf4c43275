import Mathlib.Data.List.Nodup

namespace Mit6828.Library.IntrusiveList

open Function

variable {α : Type*} {next next' : α → Option α} {head : Option α} {x : α} {xs ys : List α}

/-- Following `next` from `head` visits exactly the nodes of the list, in order, and
then reaches the null link. -/
def Chain (next : α → Option α) : Option α → List α → Prop
  | head, [] => head = none
  | head, x :: xs => head = some x ∧ Chain next (next x) xs

theorem chain_nil : Chain next head [] ↔ head = none := Iff.rfl

theorem chain_none (h : Chain next none xs) : xs = [] := by
  cases xs with
  | nil => rfl
  | cons x xs => exact absurd h.1 (by simp)

theorem chain_some (h : Chain next (some x) xs) : ∃ ys, xs = x :: ys ∧ Chain next (next x) ys := by
  cases xs with
  | nil => exact absurd h (by simp [chain_nil])
  | cons y ys =>
    have hxy : x = y := by simpa using h.1
    subst hxy
    exact ⟨ys, rfl, h.2⟩

theorem Chain.unique (hx : Chain next head xs) (hy : Chain next head ys) : xs = ys := by
  induction xs generalizing head ys with
  | nil =>
    rw [chain_nil.mp hx] at hy
    exact (chain_none hy).symm
  | cons x xs ih =>
    rw [hx.1] at hy
    obtain ⟨zs, rfl, hz⟩ := chain_some hy
    rw [ih hx.2 hz]

theorem Chain.congr (h : Chain next head xs) (heq : ∀ y ∈ xs, next' y = next y) :
    Chain next' head xs := by
  induction xs generalizing head with
  | nil => exact h
  | cons x xs ih =>
    refine ⟨h.1, ?_⟩
    rw [heq x (by simp)]
    exact ih h.2 fun y hy => heq y (by simp [hy])

theorem Chain.update_of_notMem [DecidableEq α] (h : Chain next head xs) (hx : x ∉ xs)
    (link : Option α) : Chain (update next x link) head xs := by
  refine h.congr fun y hy => ?_
  have hne : y ≠ x := fun heq => hx (heq ▸ hy)
  exact update_of_ne hne _ _

theorem Chain.push [DecidableEq α] (h : Chain next head xs) (hx : x ∉ xs) :
    Chain (update next x head) (some x) (x :: xs) := by
  refine ⟨rfl, ?_⟩
  rw [update_self]
  exact h.update_of_notMem hx head

theorem Chain.next_eq_none_iff (h : Chain next head xs) (hx : x ∈ xs) (hnodup : xs.Nodup) :
    next x = none ↔ xs.getLast? = some x := by
  induction xs generalizing head with
  | nil => cases hx
  | cons y ys ih =>
    obtain ⟨hy, hnodup⟩ := List.nodup_cons.mp hnodup
    cases ys with
    | nil =>
      obtain rfl := List.mem_singleton.mp hx
      exact iff_of_true h.2 rfl
    | cons z zs =>
      rw [List.getLast?_cons_cons]
      rcases List.mem_cons.mp hx with rfl | hx
      · refine iff_of_false (fun hnone => ?_) fun hlast => hy (List.mem_of_getLast? hlast)
        rw [h.2.1] at hnone
        cases hnone
      · exact ih h.2 hx hnodup

end Mit6828.Library.IntrusiveList
