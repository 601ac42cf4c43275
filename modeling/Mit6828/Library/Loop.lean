import Mathlib.Data.List.Basic

namespace Mit6828.Library

universe u

variable {α β : Type u} {ok : Prop}

structure Outcome (ok : Prop) (o : Option α) (P : α → Prop) : Prop where
  returns : ok → o.isSome = true
  holds : ∀ x, o = some x → P x

namespace Outcome

variable {o : Option α} {P Q : α → Prop} {R : β → Prop}

theorem pure {x : α} (h : P x) : Outcome ok (some x) P :=
  ⟨fun _ => rfl, fun _ hy => Option.some.inj hy ▸ h⟩

theorem fail (h : ¬ ok) : Outcome ok (none : Option α) P :=
  ⟨fun hok => absurd hok h, fun _ hx => absurd hx (by simp)⟩

theorem mono (h : Outcome ok o P) (hPQ : ∀ x, P x → Q x) : Outcome ok o Q :=
  ⟨h.returns, fun x hx => hPQ x (h.holds x hx)⟩

theorem bind {f : α → Option β} (h : Outcome ok o P) (hf : ∀ x, P x → Outcome ok (f x) R) :
    Outcome ok (o >>= f) R := by
  cases o with
  | none => exact ⟨fun hok => absurd (h.returns hok) (by simp), fun _ hy => absurd hy (by simp)⟩
  | some x => exact hf x (h.holds x rfl)

end Outcome

namespace Loop

variable {σ : Type*} {I : Nat → σ → Prop} {s : σ} {n : Nat}

/-- A loop over `0, …, n - 1` whose body may fail: the body succeeds and takes the invariant
of `i` to that of `i + 1`. -/
theorem foldlM_range {f : σ → Nat → Option σ} (h0 : I 0 s)
    (hstep : ∀ i < n, ∀ t, I i t → ∃ t', f t i = some t' ∧ I (i + 1) t') :
    ∃ t, (List.range n).foldlM f s = some t ∧ I n t := by
  induction n with
  | zero => exact ⟨s, rfl, h0⟩
  | succ n ih =>
    obtain ⟨t, ht, hI⟩ := ih fun i hi => hstep i (Nat.lt_succ_of_lt hi)
    obtain ⟨t', ht', hI'⟩ := hstep n (Nat.lt_succ_self n) t hI
    refine ⟨t', ?_, hI'⟩
    rw [List.range_succ, List.foldlM_append, ht]
    simpa using ht'

theorem foldl_range' {f : σ → Nat → σ} {a : Nat} (h0 : I a s)
    (hstep : ∀ i, a ≤ i → i < a + n → ∀ t, I i t → I (i + 1) (f t i)) :
    I (a + n) ((List.range' a n).foldl f s) := by
  induction n with
  | zero => exact h0
  | succ n ih =>
    rw [List.range'_concat, List.foldl_append, Nat.one_mul]
    exact hstep (a + n) (Nat.le_add_right a n) (Nat.lt_succ_self _) _
      (ih fun i hlo hhi => hstep i hlo (Nat.lt_succ_of_lt hhi))

end Loop

end Mit6828.Library
