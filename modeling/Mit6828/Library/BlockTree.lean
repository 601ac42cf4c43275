import Mathlib.Data.Set.Basic

/-!
Trees of blocks in a store.  The owners have root pointers, and the entries of a block are pointers
to further blocks; 0 is no pointer.  A slot is a place for a pointer, given by its owner, the index
of the root and the indexes below it, the last one first.
-/

namespace Mit6828.Library.BlockTree

open Function

variable {ι : Type*}

structure Slot (ι : Type*) where
  owner : ι
  root : Nat
  path : List Nat
deriving DecidableEq

def Slot.child (s : Slot ι) (j : Nat) : Slot ι := { s with path := j :: s.path }

variable {root root' : ι → Nat → Nat} {mem mem' : Nat → Nat → Nat} {T : Set (Slot ι)}
  {v : Slot ι → Nat} {s t q : Slot ι} {e : ι} {i j a b : Nat}

def follow (mem : Nat → Nat → Nat) (a : Nat) : List Nat → Nat
  | [] => a
  | j :: js => if follow mem a js = 0 then 0 else mem (follow mem a js) j

def view (root : ι → Nat → Nat) (mem : Nat → Nat → Nat) (s : Slot ι) : Nat :=
  follow mem (root s.owner s.root) s.path

theorem view_root (e : ι) (i : Nat) : view root mem ⟨e, i, []⟩ = root e i := rfl

theorem view_child (s : Slot ι) (j : Nat) :
    view root mem (s.child j) = if view root mem s = 0 then 0 else mem (view root mem s) j := rfl

def Closed (T : Set (Slot ι)) : Prop := ∀ s j, Slot.child s j ∈ T → s ∈ T

def Exclusive (T : Set (Slot ι)) (v : Slot ι → Nat) : Prop :=
  ∀ s ∈ T, ∀ t ∈ T, v s = v t → v s ≠ 0 → s = t

theorem Slot.child_inj {s t : Slot ι} {i j : Nat} (h : s.child i = t.child j) : s = t ∧ i = j := by
  obtain ⟨e, r, js⟩ := s
  obtain ⟨e', r', js'⟩ := t
  simp only [Slot.child, Slot.mk.injEq, List.cons.injEq] at h ⊢
  obtain ⟨rfl, rfl, rfl, rfl⟩ := h
  exact ⟨⟨rfl, rfl, rfl⟩, rfl⟩

theorem Slot.child_ne (s : Slot ι) (j : Nat) : s.child j ≠ s := by
  intro h
  have := congrArg (fun s => s.path.length) h
  simp [Slot.child] at this

/-- The view is the only assignment that starts at the roots and follows the entries. -/
theorem view_eq (hT : Closed T) (hroot : ∀ e i, ⟨e, i, []⟩ ∈ T → v ⟨e, i, []⟩ = root e i)
    (hchild : ∀ s j, Slot.child s j ∈ T → v (s.child j) = if v s = 0 then 0 else mem (v s) j) :
    ∀ s ∈ T, view root mem s = v s := by
  rintro ⟨e, i, js⟩
  induction js with
  | nil =>
    intro hs
    exact (hroot e i hs).symm
  | cons j js ih =>
    intro hs
    have hparent := ih (hT ⟨e, i, js⟩ j hs)
    rw [show (⟨e, i, j :: js⟩ : Slot ι) = Slot.child ⟨e, i, js⟩ j from rfl, view_child, hparent,
      hchild ⟨e, i, js⟩ j hs]

theorem view_congr (hT : Closed T) (hroot : ∀ e i, ⟨e, i, []⟩ ∈ T → root' e i = root e i)
    (hmem : ∀ s j, Slot.child s j ∈ T → view root mem s ≠ 0 →
      mem' (view root mem s) j = mem (view root mem s) j) :
    ∀ s ∈ T, view root' mem' s = view root mem s := by
  apply view_eq hT
  · intro e i hs
    exact (hroot e i hs).symm
  intro s j hs
  rw [view_child]
  split
  · rfl
  · rename_i hne
    exact (hmem s j hs hne).symm

theorem view_grow [DecidableEq ι] (hT : Closed T) (hex : Exclusive T (view root mem)) (hs : s ∈ T)
    (ha : view root mem s ≠ 0) (ht : view root mem (s.child j) = 0) (hb : b ≠ 0)
    (hentry : mem' (view root mem s) j = b)
    (hsame : ∀ q i, Slot.child q i ∈ T → view root mem q ≠ 0 →
      ¬ (view root mem q = view root mem s ∧ i = j) →
      mem' (view root mem q) i = mem (view root mem q) i)
    (hempty : ∀ i, (s.child j).child i ∈ T → mem' b i = 0) :
    ∀ q ∈ T, view root mem' q = update (view root mem) (s.child j) b q := by
  apply view_eq hT
  · intro e i hq
    rw [update_of_ne (by simp [Slot.child])]
    rfl
  intro q i hq
  by_cases hqs : q = s.child j
  · subst hqs
    rw [update_self, update_of_ne (Slot.child_ne _ _), view_child, ht, if_pos rfl,
      if_neg hb, hempty i hq]
  rw [update_of_ne hqs]
  by_cases hqi : q.child i = s.child j
  · obtain ⟨rfl, rfl⟩ := Slot.child_inj hqi
    rw [update_self, if_neg ha, hentry]
  rw [update_of_ne hqi, view_child]
  split
  · rfl
  · rename_i hne
    refine (hsame q i hq hne fun ⟨hview, hij⟩ => hqi ?_).symm
    rw [hex q (hT q i hq) s hs hview hne, hij]

theorem view_plant [DecidableEq ι] (hT : Closed T) (ht : root e i = 0) (hb : b ≠ 0)
    (hentry : root' e i = b) (hroot : ∀ e' i', (e', i') ≠ (e, i) → root' e' i' = root e' i')
    (hsame : ∀ q i, Slot.child q i ∈ T → view root mem q ≠ 0 →
      mem' (view root mem q) i = mem (view root mem q) i)
    (hempty : ∀ j, Slot.child ⟨e, i, []⟩ j ∈ T → mem' b j = 0) :
    ∀ q ∈ T, view root' mem' q = update (view root mem) ⟨e, i, []⟩ b q := by
  apply view_eq hT
  · intro e' i' hq
    by_cases heq : (e', i') = (e, i)
    · cases heq
      rw [update_self, hentry]
    · rw [update_of_ne (by simpa using heq), hroot e' i' heq]
      rfl
  intro q j hq
  rw [update_of_ne (by simp [Slot.child]), view_child]
  by_cases hqs : q = ⟨e, i, []⟩
  · subst hqs
    rw [update_self, view_root, ht, if_pos rfl, if_neg hb, hempty j hq]
  rw [update_of_ne hqs]
  split
  · rfl
  · rename_i hne
    exact (hsame q j hq hne).symm

end Mit6828.Library.BlockTree
