import Mit6828.Kern.PageAllocator
import Mit6828.Library.PageTable

/-!
The page tables of all environments as one family of tables, and what a single change to
it does.  Every function of `kern/pmap.c` and `kern/env.c` that edits page tables is a run
of such changes, so that what a change preserves, they preserve.
-/

namespace Mit6828.Kern.Separation

open Mmu Pmap PageAllocator Library

abbrev Slot := PageTable.Slot Nat Nat

def frameOf (w : Word) : Option Nat := if w &&& pteP ≠ 0 then some (pgnum w) else none

def rootWord : Option Nat → Word
  | none => 0
  | some d => page2pa d ||| pteP

theorem pteRef_eq_frameOf (w : Word) : pteRef w = (frameOf w).map fun p => (p, pteFlags w) := by
  unfold pteRef frameOf
  split <;> rfl

theorem frameOf_zero : frameOf 0 = none := by decide

theorem frameOf_eq_none {w : Word} : frameOf w = none ↔ w &&& pteP = 0 := by
  unfold frameOf
  split <;> simp_all

theorem frameOf_lt {w : Word} {p : Nat} (h : frameOf w = some p) : p < 1048576 := by
  unfold frameOf at h
  split at h
  · exact Option.some.inj h ▸ pgnum_lt w
  · cases h

theorem frameOf_entry {p : Nat} {perm : Word} (hp : p < 1048576)
    (hperm : perm.toNat < 4096) : frameOf (page2pa p ||| perm ||| pteP) = some p := by
  have h := pteRef_page2pa_or hp hperm
  rw [pteRef_eq_frameOf, Option.map_eq_some_iff] at h
  obtain ⟨q, hq, heq⟩ := h
  rw [hq]
  exact congrArg (some ∘ Prod.fst) heq

theorem frameOf_rootWord {d : Nat} (hd : d < 1048576) : frameOf (rootWord (some d)) = some d := by
  have h := frameOf_entry hd (show (0#32).toNat < 4096 by decide)
  rwa [BitVec.or_zero] at h

/-- Memory, the roots of the directories in it, and the free list as a list. -/
structure World where
  root : Nat → Word
  mem : Mem
  free : List Nat

namespace World

def view (a : World) : Slot → Word := PageTable.view frameOf a.root a.mem.phys

def ref (a : World) : Slot → Option Nat := PageTable.ref frameOf a.root a.mem.phys

def ppRef (a : World) (p : Nat) : BitVec 16 := (a.mem.pages p).ppRef

end World

/-- The slots that are tracked and viewed, the pages that `page_init` gave to the allocator,
and the slots that never change and may refer to other pages. -/
structure Layout extends PageTable.Region Nat Nat where
  npages : Nat
  pool : Set Nat
  pinned : Set Slot
  npages_le : npages ≤ 1048576
  pool_lt : ∀ p ∈ pool, p < npages

variable {L : Layout} {a b c : World} {s t : Slot} {p e i j : Nat} {o o' : Option Nat}

theorem ref_eq (a : World) (s : Slot) : a.ref s = frameOf (a.view s) := rfl

theorem Layout.ref_eq_of_view (L : Layout) (h : ∀ s ∈ L.viewed, b.view s = a.view s) :
    ∀ s ∈ L.tracked, b.ref s = a.ref s := fun s hs => by
  rw [ref_eq, ref_eq, h s (L.tracked_subset hs)]

theorem view_pde_of_root {d : Nat} (hd : frameOf (a.root e) = some d) :
    a.view (.pde e i) = a.mem.phys d i :=
  PageTable.deref_some hd

theorem view_pte_of_ref {t : Nat} (ht : a.ref (.pde e i) = some t) :
    a.view (.pte e i j) = a.mem.phys t j :=
  PageTable.deref_some (show frameOf (a.view (.pde e i)) = some t from ht)

theorem view_pte_of_absent (ht : a.ref (.pde e i) = none) : a.view (.pte e i j) = 0 :=
  PageTable.deref_none (show frameOf (a.view (.pde e i)) = none from ht)

/-- Page directories and page tables live in pages of their own, which are neither mapped
nor free. -/
structure Separated (L : Layout) (a : World) : Prop where
  npages : a.mem.npages = L.npages
  freeList : FreeList a.mem a.free
  free_pool : ∀ p ∈ a.free, p ∈ L.pool
  exclusive : PageTable.Exclusive L.tracked a.ref
  table_notFree : ∀ s ∈ L.tracked, s.IsTable → ∀ p, a.ref s = some p → p ∉ a.free
  ref_lt : ∀ s ∈ L.tracked, ∀ p, a.ref s = some p → p < L.npages
  ref_pool : ∀ s ∈ L.tracked, s ∉ L.pinned → ∀ p, a.ref s = some p → p ∈ L.pool

structure CountUp (a b : World) (p : Nat) : Prop where
  ppRef : ∀ q, b.ppRef q = a.ppRef q + if q = p then 1 else 0
  wrapped : b.mem.wrapped = (a.mem.wrapped || a.ppRef p == 0xFFFF)

/-- What happens to the allocator when a slot that referred to the first page, if any, comes
to refer to the second: the reference is kept, a free page is taken, a page in use is
shared, or a reference is dropped and with the last one the page is freed. -/
inductive Account (a b : World) : Option Nat → Option Nat → Prop
  | keep (o : Option Nat) (hfree : b.free = a.free) (href : ∀ q, b.ppRef q = a.ppRef q)
      (hwrapped : b.mem.wrapped = a.mem.wrapped) : Account a b o o
  | take (p : Nat) (hfree : a.free = p :: b.free) (hup : CountUp a b p) : Account a b none (some p)
  | share (p : Nat) (hp : p ∉ a.free) (hfree : b.free = a.free) (hup : CountUp a b p) :
      Account a b none (some p)
  | drop (p : Nat) (hp : p ∉ a.free)
      (hfree : b.free = if a.ppRef p - 1 = 0 then p :: a.free else a.free)
      (href : ∀ q, b.ppRef q = a.ppRef q - if q = p then 1 else 0)
      (hwrapped : b.mem.wrapped = a.mem.wrapped) : Account a b (some p) none

/-- Slot `s` changes and nothing else.  A new directory also brings its untracked entries,
the copies of the kernel's. -/
structure Change (L : Layout) (s : Slot) (a b : World) : Prop where
  tracked : s ∈ L.tracked
  unpinned : s ∉ L.pinned
  npages : b.mem.npages = a.mem.npages
  freeList : FreeList b.mem b.free
  account : Account a b (a.ref s) (b.ref s)
  rest : ∀ t ∈ L.viewed, t ≠ s → (t ∈ L.tracked ∨ s ≠ .dir t.owner) → b.view t = a.view t
  pool : ∀ p, b.ref s = some p → p ∈ L.pool
  apart : ∀ p, b.ref s = some p → a.ref s = none → ∀ t ∈ L.tracked, a.ref t = some p →
    ¬ s.IsTable ∧ ¬ t.IsTable

theorem Change.rest_ref (h : Change L s a b) (ht : t ∈ L.tracked) (hne : t ≠ s) :
    b.ref t = a.ref t := by
  rw [ref_eq, ref_eq, h.rest t (L.tracked_subset ht) hne (.inl ht)]

theorem Account.wrapped_mono (h : Account a b o o')
    (hb : b.mem.wrapped = false) : a.mem.wrapped = false := by
  cases h with
  | keep _ _ _ hwrapped => rw [← hwrapped, hb]
  | take p _ hup =>
    rw [hup.wrapped, Bool.or_eq_false_iff] at hb
    exact hb.1
  | share p _ _ hup =>
    rw [hup.wrapped, Bool.or_eq_false_iff] at hb
    exact hb.1
  | drop p _ _ _ hwrapped => rw [← hwrapped, hb]

theorem Account.setWord {root : Nat → Word} {m : Mem} {l : List Nat}
    (h : Account a ⟨root, m, l⟩ o o') (pte : Nat × Nat) (w : Word) :
    Account a ⟨root, m.setWord pte w, l⟩ o o' := by
  cases h with
  | keep o hfree href hwrapped => exact .keep o hfree href hwrapped
  | take p hfree hup => exact .take p hfree ⟨hup.ppRef, hup.wrapped⟩
  | share p hp hfree hup => exact .share p hp hfree ⟨hup.ppRef, hup.wrapped⟩
  | drop p hp hfree href hwrapped => exact .drop p hp hfree href hwrapped

theorem Account.mem_free (h : Account a b o o') (hp : p ∈ b.free) :
    p ∈ a.free ∨ o = some p ∧ o' = none := by
  cases h with
  | keep _ hfree _ _ => exact .inl (hfree ▸ hp)
  | take q hfree _ => exact .inl (by simp [hfree, hp])
  | share q _ hfree _ => exact .inl (hfree ▸ hp)
  | drop q _ hfree _ _ =>
    rw [hfree] at hp
    split at hp
    · rcases List.mem_cons.mp hp with rfl | hmem
      · exact .inr ⟨rfl, rfl⟩
      · exact .inl hmem
    · exact .inl hp

theorem Account.new_notFree (h : Account a b o o') (hnodup : a.free.Nodup)
    (hold : ∀ p, o = some p → p ∉ a.free) (hp : o' = some p) : p ∉ b.free := by
  cases h with
  | keep _ hfree _ _ => exact hfree ▸ hold p hp
  | take q hfree _ =>
    rw [hfree] at hnodup
    exact Option.some.inj hp ▸ (List.nodup_cons.mp hnodup).1
  | share q hq hfree _ => exact Option.some.inj hp ▸ hfree ▸ hq
  | drop q _ _ _ _ => exact absurd hp (by simp)

theorem Change.exclusive (h : Change L s a b) (hex : PageTable.Exclusive L.tracked a.ref) :
    PageTable.Exclusive L.tracked b.ref := by
  refine hex.update (fun t ht hne => h.rest_ref ht hne) ?_
  intro p hp t ht hne htp
  cases hs : a.ref s with
  | none => exact h.apart p hp hs t ht htp
  | some q =>
    have hacc := h.account
    rw [hs, hp] at hacc
    cases hacc
    refine ⟨fun htable => hne (hex s h.tracked htable t ht p hs htp), fun htable => ?_⟩
    exact hne (hex t ht htable s h.tracked p htp hs).symm

theorem Change.separated (h : Change L s a b) (ha : Separated L a) : Separated L b where
  npages := h.npages.trans ha.npages
  freeList := h.freeList
  free_pool := by
    intro p hp
    rcases h.account.mem_free hp with hmem | ⟨hold, _⟩
    · exact ha.free_pool p hmem
    · exact ha.ref_pool s h.tracked h.unpinned p hold
  exclusive := h.exclusive ha.exclusive
  table_notFree := by
    intro t ht htable p hp
    by_cases hts : t = s
    · subst hts
      exact h.account.new_notFree ha.freeList.nodup (ha.table_notFree t ht htable) hp
    · rw [h.rest_ref ht hts] at hp
      intro hfree
      rcases h.account.mem_free hfree with hmem | ⟨hold, _⟩
      · exact ha.table_notFree t ht htable p hp hmem
      · exact hts (ha.exclusive t ht htable s h.tracked p hp hold).symm
  ref_lt := by
    intro t ht p hp
    by_cases hts : t = s
    · exact L.pool_lt p (h.pool p (hts ▸ hp))
    · exact ha.ref_lt t ht p (h.rest_ref ht hts ▸ hp)
  ref_pool := by
    intro t ht hpin p hp
    by_cases hts : t = s
    · exact h.pool p (hts ▸ hp)
    · exact ha.ref_pool t ht hpin p (h.rest_ref ht hts ▸ hp)

/-- Finitely many changes, each of which satisfies `P`. -/
inductive Run (L : Layout) (P : World → Slot → World → Prop) (a : World) : World → Prop
  | refl : Run L P a a
  | step {b c : World} {s : Slot} : Run L P a b → Change L s b c → P b s c → Run L P a c

namespace Run

variable {P Q : World → Slot → World → Prop}

theorem single (h : Change L s a b) (hP : P a s b) : Run L P a b := refl.step h hP

section

variable (h : Run L P a b)
include h

theorem trans (h' : Run L P b c) : Run L P a c := by
  induction h' with
  | refl => exact h
  | step _ hc hP ih => exact ih.step hc hP

theorem mono (hPQ : ∀ x s y, P x s y → Q x s y) : Run L Q a b := by
  induction h with
  | refl => exact .refl
  | step _ hc hP ih => exact ih.step hc (hPQ _ _ _ hP)

theorem invariant {I : World → Prop}
    (hstep : ∀ x s y, I x → Change L s x y → P x s y → I y) (ha : I a) : I b := by
  induction h with
  | refl => exact ha
  | step _ hc hP ih => exact hstep _ _ _ ih hc hP

theorem separated (ha : Separated L a) : Separated L b :=
  h.invariant (fun _ _ _ hx hc _ => hc.separated hx) ha

theorem view_eq (ht : t ∈ L.viewed)
    (hP : ∀ x s y, P x s y → t ≠ s ∧ (t ∈ L.tracked ∨ s ≠ .dir t.owner)) : b.view t = a.view t := by
  induction h with
  | refl => rfl
  | step _ hc hstep ih =>
    obtain ⟨hne, hor⟩ := hP _ _ _ hstep
    rw [hc.rest t ht hne hor, ih]

end

end Run

end Mit6828.Kern.Separation
