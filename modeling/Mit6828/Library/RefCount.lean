import Mathlib.Algebra.Order.BigOperators.Group.Finset

namespace Mit6828.Library.RefCount

variable {ι α : Type*} [DecidableEq ι] [DecidableEq α]

def refCount (slots : Finset ι) (ref : ι → Option α) (a : α) : Nat :=
  (slots.filter fun s => ref s = some a).card

variable {slots : Finset ι} {ref ref' : ι → Option α} {a : α} {s : ι}

omit [DecidableEq ι] in
theorem refCount_congr (h : ∀ s ∈ slots, ref' s = ref s) :
    refCount slots ref' a = refCount slots ref a := by
  unfold refCount
  congr 1
  apply Finset.filter_congr
  intro s hs
  rw [h s hs]

omit [DecidableEq ι] in
theorem refCount_eq_zero_iff : refCount slots ref a = 0 ↔ ∀ s ∈ slots, ref s ≠ some a := by
  simp [refCount, Finset.filter_eq_empty_iff]

theorem refCount_union {slots' : Finset ι} (h : Disjoint slots slots') :
    refCount (slots ∪ slots') ref a = refCount slots ref a + refCount slots' ref a := by
  unfold refCount
  rw [Finset.filter_union, Finset.card_union_of_disjoint (Finset.disjoint_filter_filter h)]

theorem refCount_image {κ : Type*} {names : Finset κ} {f : κ → ι} (h : Function.Injective f) :
    refCount (names.image f) ref a = (names.filter fun x => ref (f x) = some a).card := by
  unfold refCount
  rw [Finset.filter_image, Finset.card_image_of_injective _ h]

theorem refCount_eq_erase_add (ref : ι → Option α) (a : α) (hs : s ∈ slots) : refCount slots ref a =
      refCount (slots.erase s) ref a + if ref s = some a then 1 else 0 := by
  unfold refCount
  conv_lhs => rw [← Finset.insert_erase hs, Finset.filter_insert]
  split
  · rw [Finset.card_insert_of_notMem (by simp)]
  · rfl

theorem refCount_of_update (hs : s ∈ slots) (h : ∀ t ∈ slots, t ≠ s → ref' t = ref t) :
    refCount slots ref' a + (if ref s = some a then 1 else 0) =
      refCount slots ref a + if ref' s = some a then 1 else 0 := by
  have hrest : refCount (slots.erase s) ref' a = refCount (slots.erase s) ref a := by
    apply refCount_congr
    intro t ht
    exact h t (Finset.mem_of_mem_erase ht) (Finset.ne_of_mem_erase ht)
  rw [refCount_eq_erase_add ref' a hs, refCount_eq_erase_add ref a hs, hrest]
  omega

end Mit6828.Library.RefCount
