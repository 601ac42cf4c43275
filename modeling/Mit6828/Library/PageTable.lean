import Mathlib.Data.Set.Basic

/-!
A family of two-level page tables in one memory.  A memory is a function from frames and
indexes to entries; `frame` reads off an entry which frame it refers to, if any.  A *slot*
is a place that can hold an entry: the root of directory `e`, entry `i` of that directory,
entry `j` of the table in entry `i`.  The view of the family says what stands in each slot.
-/

namespace Mit6828.Library.PageTable

open Function

variable {ι κ φ ω : Type*}

inductive Slot (ι κ : Type*) where
  | dir (e : ι)
  | pde (e : ι) (i : κ)
  | pte (e : ι) (i j : κ)
  deriving DecidableEq

namespace Slot

/-- The slots whose frame is used as a directory or a table. -/
def IsTable : Slot ι κ → Prop
  | dir _ => True
  | pde _ _ => True
  | pte _ _ _ => False

def owner : Slot ι κ → ι
  | dir e => e
  | pde e _ => e
  | pte e _ _ => e

end Slot

/-- Entry `i` of the table that `w` refers to, and the empty entry if there is none. -/
def deref [Zero ω] (frame : ω → Option φ) (mem : φ → κ → ω) (w : ω) (i : κ) : ω :=
  match frame w with
  | some p => mem p i
  | none => 0

def view [Zero ω] (frame : ω → Option φ) (root : ι → ω) (mem : φ → κ → ω) : Slot ι κ → ω
  | .dir e => root e
  | .pde e i => deref frame mem (root e) i
  | .pte e i j => deref frame mem (deref frame mem (root e) i) j

def ref [Zero ω] (frame : ω → Option φ) (root : ι → ω) (mem : φ → κ → ω) (s : Slot ι κ) :
    Option φ :=
  frame (view frame root mem s)

/-- The slots one reasons about: the viewed slots are reached through tracked ones, and
the tracked ones are those whose references are kept apart. -/
structure Region (ι κ : Type*) where
  tracked : Set (Slot ι κ)
  viewed : Set (Slot ι κ)
  tracked_subset : tracked ⊆ viewed
  pde_of_pte : ∀ {e i j}, .pte e i j ∈ viewed → .pde e i ∈ tracked
  dir_of_pde : ∀ {e i}, .pde e i ∈ viewed → .dir e ∈ tracked

/-- A frame that serves as a directory or table is referred to by one slot only. -/
def Exclusive (slots : Set (Slot ι κ)) (ref : Slot ι κ → Option φ) : Prop :=
  ∀ s ∈ slots, s.IsTable → ∀ s' ∈ slots, ∀ p, ref s = some p → ref s' = some p → s' = s

section Exclusive

variable {slots : Set (Slot ι κ)} {r r' : Slot ι κ → Option φ} {s : Slot ι κ}

/-- One slot refers to something else: the references stay apart if the new frame is
nobody's, or if it is shared between entries that are no tables. -/
theorem Exclusive.update (h : Exclusive slots r) (hrest : ∀ t ∈ slots, t ≠ s → r' t = r t)
    (hnew : ∀ p, r' s = some p → ∀ t ∈ slots, t ≠ s → r t = some p →
      ¬ s.IsTable ∧ ¬ t.IsTable) : Exclusive slots r' := by
  intro a ha htable b hb p hra hrb
  by_cases has : a = s
  · by_cases hbs : b = s
    · rw [has, hbs]
    · rw [hrest b hb hbs] at hrb
      rw [has] at hra htable
      exact absurd htable (hnew p hra b hb hbs hrb).1
  · by_cases hbs : b = s
    · rw [hrest a ha has] at hra
      rw [hbs] at hrb
      exact absurd htable (hnew p hrb a ha has hra).2
    · rw [hrest a ha has] at hra
      rw [hrest b hb hbs] at hrb
      exact h a ha htable b hb p hra hrb

end Exclusive

variable [Zero ω] {frame : ω → Option φ} {root : ι → ω} {mem mem' : φ → κ → ω}
  {R : Region ι κ} {e : ι} {i j : κ} {d t : φ} {w : ω}

theorem deref_some (h : frame w = some t) : deref frame mem w i = mem t i := by
  simp [deref, h]

theorem deref_none (h : frame w = none) : deref frame mem w i = 0 := by
  simp [deref, h]

theorem deref_congr (h : ∀ p, frame w = some p → mem' p i = mem p i) :
    deref frame mem' w i = deref frame mem w i := by
  cases hw : frame w with
  | none => rw [deref_none hw, deref_none hw]
  | some p => rw [deref_some hw, deref_some hw, h p hw]

theorem view_congr (h : ∀ s ∈ R.tracked, s.IsTable → ∀ p, ref frame root mem s = some p →
    mem' p = mem p) : ∀ s ∈ R.viewed, view frame root mem' s = view frame root mem s := by
  have hpde : ∀ e i, .pde e i ∈ R.viewed →
      view frame root mem' (.pde e i) = view frame root mem (.pde e i) := by
    intro e i hs
    apply deref_congr
    intro p hp
    rw [h (.dir e) (R.dir_of_pde hs) trivial p hp]
  intro s hs
  cases s with
  | dir e => rfl
  | pde e i => exact hpde e i hs
  | pte e i j =>
    have htracked := R.pde_of_pte hs
    change deref frame mem' (view frame root mem' (.pde e i)) j = _
    rw [hpde e i (R.tracked_subset htracked)]
    apply deref_congr
    intro p hp
    rw [h (.pde e i) htracked trivial p hp]

variable [DecidableEq ι] [DecidableEq κ]

theorem view_set_pte [DecidableEq φ] (hex : Exclusive R.tracked (ref frame root mem))
    (hs : .pde e i ∈ R.tracked) (ht : ref frame root mem (.pde e i) = some t) (j : κ) (w : ω) :
    ∀ s ∈ R.viewed, view frame root (update mem t (update (mem t) j w)) s =
      update (view frame root mem) (.pte e i j) w s := by
  have hne : ∀ s ∈ R.tracked, s.IsTable → s ≠ .pde e i → ∀ p, ref frame root mem s = some p →
      p ≠ t := by
    rintro s hs' htable hsne p hp rfl
    exact hsne (hex _ hs trivial s hs' p ht hp)
  have hpde : ∀ e' i', .pde e' i' ∈ R.viewed →
      view frame root (update mem t (update (mem t) j w)) (.pde e' i') =
        view frame root mem (.pde e' i') := by
    intro e' i' hs'
    apply deref_congr
    intro p hp
    rw [update_of_ne (hne _ (R.dir_of_pde hs') trivial (by simp) p hp)]
  intro s hs'
  cases s with
  | dir e' =>
    rw [update_of_ne (by simp)]
    rfl
  | pde e' i' =>
    rw [update_of_ne (by simp)]
    exact hpde e' i' hs'
  | pte e' i' j' =>
    have htracked := R.pde_of_pte hs'
    change deref frame _ (view frame root
      (update mem t (update (mem t) j w)) (.pde e' i')) j' = _
    rw [hpde e' i' (R.tracked_subset htracked)]
    by_cases hslot : e' = e ∧ i' = i
    · obtain ⟨rfl, rfl⟩ := hslot
      have hframe : frame (view frame root mem (.pde e' i')) = some t := ht
      rw [deref_some hframe, update_self]
      by_cases hj : j' = j
      · subst hj
        rw [update_self, update_self]
      · rw [update_of_ne hj, update_of_ne (by simp [hj])]
        exact (deref_some hframe).symm
    · have hpne : Slot.pde e' i' ≠ .pde e i := by simpa using hslot
      have hsne : Slot.pte e' i' j' ≠ .pte e i j := by
        intro heq
        simp only [Slot.pte.injEq] at heq
        exact hslot ⟨heq.1, heq.2.1⟩
      rw [update_of_ne hsne]
      apply deref_congr
      intro p hp
      rw [update_of_ne (hne _ htracked trivial hpne p hp)]

theorem view_set_pde (hd : frame (root e) = some d)
    (hrest : ∀ s ∈ R.tracked, s.IsTable → s ≠ .dir e → ∀ p, ref frame root mem s = some p →
      mem' p = mem p) (hmem : mem' d = update (mem d) i w)
    (hbelow : ∀ j, .pte e i j ∈ R.viewed →
      deref frame mem' w j = view frame root mem (.pte e i j)) :
    ∀ s ∈ R.viewed, view frame root mem' s = update (view frame root mem) (.pde e i) w s := by
  have hpde : ∀ e' i', .pde e' i' ∈ R.viewed → view frame root mem' (.pde e' i') =
        update (view frame root mem) (.pde e i) w (.pde e' i') := by
    intro e' i' hs'
    change deref frame mem' (root e') i' = _
    by_cases he : e' = e
    · subst he
      rw [deref_some hd, hmem]
      by_cases hi : i' = i
      · subst hi
        rw [update_self, update_self]
      · rw [update_of_ne hi, update_of_ne (by simp [hi])]
        exact (deref_some hd).symm
    · rw [update_of_ne (by simp [he])]
      apply deref_congr
      intro p hp
      rw [hrest _ (R.dir_of_pde hs') trivial (by simpa using he) p hp]
  intro s hs'
  cases s with
  | dir e' =>
    rw [update_of_ne (by simp)]
    rfl
  | pde e' i' => exact hpde e' i' hs'
  | pte e' i' j' =>
    have htracked := R.pde_of_pte hs'
    rw [update_of_ne (by simp)]
    change deref frame mem' (view frame root mem' (.pde e' i')) j' = _
    rw [hpde e' i' (R.tracked_subset htracked)]
    by_cases hslot : Slot.pde e' i' = .pde e i
    · rw [hslot, update_self]
      simp only [Slot.pde.injEq] at hslot
      obtain ⟨rfl, rfl⟩ := hslot
      exact hbelow j' hs'
    · rw [update_of_ne hslot]
      apply deref_congr
      intro p hp
      rw [hrest _ htracked trivial (by simp) p hp]

theorem view_set_root
    (hrest : ∀ s ∈ R.tracked, s.IsTable → s ≠ .dir e → ∀ p, ref frame root mem s = some p →
      mem' p = mem p)
    (hold : ∀ i, .pde e i ∈ R.tracked → view frame root mem (.pde e i) = 0)
    (hnew : ∀ i, .pde e i ∈ R.tracked → deref frame mem' w i = 0) (hzero : frame 0 = none) :
    ∀ s ∈ R.viewed, s ∈ R.tracked ∨ s.owner ≠ e → view frame (update root e w) mem' s =
        update (view frame root mem) (.dir e) w s := by
  have hpde : ∀ e' i', .pde e' i' ∈ R.viewed → .pde e' i' ∈ R.tracked ∨ e' ≠ e →
      view frame (update root e w) mem' (.pde e' i') = view frame root mem (.pde e' i') := by
    intro e' i' hs' hor
    by_cases he : e' = e
    · subst he
      have htracked := hor.resolve_right (by simp)
      rw [hold i' htracked]
      change deref frame mem' (update root e' w e') i' = 0
      rw [update_self, hnew i' htracked]
    · change deref frame mem' (update root e w e') i' = _
      rw [update_of_ne he]
      apply deref_congr
      intro p hp
      rw [hrest _ (R.dir_of_pde hs') trivial (by simpa using he) p hp]
  intro s hs' hor
  cases s with
  | dir e' =>
    by_cases he : e' = e
    · subst he
      rw [update_self]
      exact update_self _ _ _
    · rw [update_of_ne (by simpa using he)]
      exact update_of_ne he _ _
  | pde e' i' =>
    rw [update_of_ne (by simp)]
    exact hpde e' i' hs' hor
  | pte e' i' j' =>
    have htracked := R.pde_of_pte hs'
    rw [update_of_ne (by simp)]
    change deref frame mem' (view frame (update root e w) mem' (.pde e' i')) j' = _
    rw [hpde e' i' (R.tracked_subset htracked) (.inl htracked)]
    by_cases he : e' = e
    · subst he
      change _ = deref frame mem (view frame root mem (.pde e' i')) j'
      rw [hold i' htracked, deref_none hzero, deref_none hzero]
    · apply deref_congr
      intro p hp
      rw [hrest _ htracked trivial (by simp) p hp]

end Mit6828.Library.PageTable
