import Mit6828.Kern.Environment
import Mit6828.Kern.Separation
import Mit6828.Library.RefCount

namespace Mit6828.Kern.RefInvariant

open Mmu PageAllocator Environment Separation Library Library.RefCount

/-- The counted slots of `n` environments and the kernel: the directories, their entries
below `low`, the entries of the kernel's directory except `skip`, and the table entries
below `low`. -/
def countedSlots (n low skip : Nat) : Finset Slot :=
  (Finset.range (n + 1)).image PageTable.Slot.dir ∪
    (Finset.range n ×ˢ Finset.range low).image (fun x => .pde x.1 x.2) ∪
    ((Finset.range npdentries).erase skip).image (.pde n) ∪
    (Finset.range n ×ˢ Finset.range low ×ˢ Finset.range nptentries).image
      fun x => .pte x.1 x.2.1 x.2.2

/-- The kernel skips the entry through which a directory maps itself. -/
@[irreducible] def trackedSlots : Finset Slot := countedSlots nenv pdxUtop pdxUvpt

theorem dir_mem {e : Nat} : .dir e ∈ trackedSlots ↔ e ≤ nenv := by
  unfold trackedSlots
  generalize nenv = n, pdxUtop = low, pdxUvpt = skip
  rw [← Nat.lt_succ_iff]
  simp [countedSlots]

theorem pde_mem {e i : Nat} : .pde e i ∈ trackedSlots ↔
    e < nenv ∧ i < pdxUtop ∨ e = nenv ∧ i < npdentries ∧ i ≠ pdxUvpt := by
  unfold trackedSlots
  generalize nenv = n, pdxUtop = low, pdxUvpt = skip
  simp [countedSlots]
  tauto

theorem pte_mem {e i j : Nat} : .pte e i j ∈ trackedSlots ↔
    e < nenv ∧ i < pdxUtop ∧ j < nptentries := by
  unfold trackedSlots
  generalize nenv = n, pdxUtop = low, pdxUvpt = skip
  simp [countedSlots]

/-- The tracked slots, all entries of every directory, and the entries of the kernel's page
tables. -/
def viewedSlots : Set Slot
  | .dir e => e ≤ nenv
  | .pde e i => e ≤ nenv ∧ i < npdentries
  | .pte e i j => (e < nenv ∧ i < pdxUtop ∨ e = nenv ∧ i < npdentries ∧ i ≠ pdxUvpt) ∧
      j < nptentries

theorem dir_viewed {e : Nat} : .dir e ∈ viewedSlots ↔ e ≤ nenv := Iff.rfl

theorem pde_viewed {e i : Nat} : .pde e i ∈ viewedSlots ↔ e ≤ nenv ∧ i < npdentries := Iff.rfl

theorem pte_viewed {e i j : Nat} : .pte e i j ∈ viewedSlots ↔
    (e < nenv ∧ i < pdxUtop ∨ e = nenv ∧ i < npdentries ∧ i ≠ pdxUvpt) ∧ j < nptentries :=
  Iff.rfl

/-- What boot fixes for good: the pages that `page_init` gave to the allocator, the page of
`kern_pgdir`, and the kernel's entries in directory and tables.  Of these, user mode may
read those below `UVPT` and use none above. -/
structure KernelMap where
  npages : Nat
  pool : Set Nat
  kern : Nat
  dirWord : Nat → Word
  tableWord : Nat → Nat → Word
  npages_le : npages ≤ 1048576
  pool_lt : ∀ p ∈ pool, p < npages
  kern_lt : kern < npages
  kern_notPool : kern ∉ pool
  dirWord_low : ∀ i < pdxUtop, dirWord i = 0
  dirWord_tidy : ∀ i, dirWord i = 0 ∨ dirWord i &&& pteP ≠ 0
  tableWord_tidy : ∀ i j, tableWord i j = 0 ∨ tableWord i j &&& pteP ≠ 0
  tableWord_readOnly : ∀ i < pdxUvpt, ∀ j, tableWord i j &&& pteW = 0
  tableWord_kernelOnly : ∀ i, pdxUvpt < i → ∀ j, tableWord i j &&& pteU = 0

namespace KernelMap

def layout (K : KernelMap) : Layout where
  tracked := trackedSlots
  viewed := viewedSlots
  tracked_subset := by
    intro s hs
    cases s with
    | dir e => exact dir_viewed.mpr (dir_mem.mp (Finset.mem_coe.mp hs))
    | pde e i =>
      rw [pde_viewed]
      rcases pde_mem.mp (Finset.mem_coe.mp hs) with ⟨he, hi⟩ | ⟨he, hi, -⟩
      · exact ⟨he.le, hi.trans (by decide)⟩
      · exact ⟨he.le, hi⟩
    | pte e i j =>
      obtain ⟨he, hi, hj⟩ := pte_mem.mp (Finset.mem_coe.mp hs)
      exact pte_viewed.mpr ⟨.inl ⟨he, hi⟩, hj⟩
  pde_of_pte h := Finset.mem_coe.mpr (pde_mem.mpr (pte_viewed.mp h).1)
  dir_of_pde h := Finset.mem_coe.mpr (dir_mem.mpr (pde_viewed.mp h).1)
  npages := K.npages
  pool := K.pool
  pinned := {.dir nenv}
  npages_le := K.npages_le
  pool_lt := K.pool_lt

theorem mem_tracked {K : KernelMap} {s : Slot} : s ∈ K.layout.tracked ↔ s ∈ trackedSlots :=
  Finset.mem_coe

end KernelMap

variable {K : KernelMap} {a b : World} {s : Slot} {p q : Nat}

theorem dir_tracked {e : Nat} : .dir e ∈ K.layout.tracked ↔ e ≤ nenv :=
  KernelMap.mem_tracked.trans dir_mem

theorem pde_tracked {e i : Nat} : .pde e i ∈ K.layout.tracked ↔
    e < nenv ∧ i < pdxUtop ∨ e = nenv ∧ i < npdentries ∧ i ≠ pdxUvpt :=
  KernelMap.mem_tracked.trans pde_mem

theorem pte_tracked {e i j : Nat} : .pte e i j ∈ K.layout.tracked ↔
    e < nenv ∧ i < pdxUtop ∧ j < nptentries :=
  KernelMap.mem_tracked.trans pte_mem

@[irreducible] def refs (a : World) (p : Nat) : Nat := refCount trackedSlots a.ref p

/-- Every page of the pool has the reference count that the page tables give it, up to the
width of `pp_ref`, and no free page is referred to. -/
structure Counted (K : KernelMap) (a : World) : Prop where
  separated : Separated K.layout a
  count : ∀ p ∈ K.pool, a.ppRef p = BitVec.ofNat 16 (refs a p)
  exact : a.mem.wrapped = false → ∀ p ∈ K.pool, refs a p < 65536
  free_unref : ∀ p ∈ a.free, refs a p = 0

theorem Counted.unreferenced (h : Counted K a) (hp : p ∈ a.free) :
    ∀ s ∈ K.layout.tracked, a.ref s ≠ some p := by
  intro s hs
  have hzero := h.free_unref p hp
  rw [refs] at hzero
  exact refCount_eq_zero_iff.mp hzero s (KernelMap.mem_tracked.mp hs)

theorem Counted.toNat_ppRef (h : Counted K a) (hw : a.mem.wrapped = false) (hp : p ∈ K.pool) :
    (a.ppRef p).toNat = refs a p := by
  rw [h.count p hp, BitVec.toNat_ofNat]
  exact Nat.mod_eq_of_lt (h.exact hw p hp)

theorem refs_change (hc : Change K.layout s a b) (p : Nat) :
    refs b p + (if a.ref s = some p then 1 else 0) =
      refs a p + if b.ref s = some p then 1 else 0 := by
  rw [refs, refs]
  exact refCount_of_update (KernelMap.mem_tracked.mp hc.tracked) fun _ ht hne =>
    hc.rest_ref (KernelMap.mem_tracked.mpr ht) hne

theorem ofNat_add_ite (n : Nat) (c : Prop) [Decidable c] :
    BitVec.ofNat 16 (n + if c then 1 else 0) = BitVec.ofNat 16 n + if c then 1 else 0 := by
  rw [BitVec.ofNat_add]
  split <;> rfl

theorem Counted.change (h : Counted K a) (hc : Change K.layout s a b)
    (hsafe : b.mem.wrapped = false ∨ a.ref s = none) : Counted K b := by
  have hrefs := refs_change hc
  have hacc := hc.account
  have hup : ∀ p, CountUp a b p → (∀ q, refs b q = refs a q + if q = p then 1 else 0) →
      (∀ q ∈ K.pool, b.ppRef q = BitVec.ofNat 16 (refs b q)) ∧
        (b.mem.wrapped = false → ∀ q ∈ K.pool, refs b q < 65536) := by
    intro p hcount hr
    refine ⟨fun q hq => ?_, fun hw q hq => ?_⟩
    · rw [hcount.ppRef, h.count q hq, hr, ofNat_add_ite]
    rw [hcount.wrapped, Bool.or_eq_false_iff, beq_eq_false_iff_ne] at hw
    have hlt := h.exact hw.1 q hq
    rw [hr]
    split
    · rename_i heq
      subst heq
      have hne : (a.ppRef q).toNat ≠ 65535 := fun heq =>
        hw.2 (BitVec.eq_of_toNat_eq (by simpa using heq))
      rw [h.toNat_ppRef hw.1 hq] at hne
      omega
    · rwa [Nat.add_zero]
  generalize hold : a.ref s = old, hnew : b.ref s = new at hacc hrefs hsafe
  have hsep := hc.separated h.separated
  cases hacc with
  | keep _ hfree href hwrapped =>
    have hsame : ∀ q, refs b q = refs a q := fun q => by simpa using hrefs q
    refine ⟨hsep, fun q hq => ?_, fun hw q hq => ?_, fun q hq => ?_⟩
    · rw [href, hsame, h.count q hq]
    · rw [hsame]
      exact h.exact (hwrapped ▸ hw) q hq
    · rw [hsame]
      exact h.free_unref q (hfree ▸ hq)
  | take p hfree hcount =>
    have hr : ∀ q, refs b q = refs a q + if q = p then 1 else 0 := fun q => by
      simpa [eq_comm] using hrefs q
    obtain ⟨hb, hexact⟩ := hup p hcount hr
    refine ⟨hsep, hb, hexact, fun q hq => ?_⟩
    have hnodup := h.separated.freeList.nodup
    rw [hfree, List.nodup_cons] at hnodup
    rw [hr, if_neg (fun heq : q = p => hnodup.1 (heq ▸ hq)), h.free_unref q (by simp [hfree, hq])]
  | share p hp hfree hcount =>
    have hr : ∀ q, refs b q = refs a q + if q = p then 1 else 0 := fun q => by
      simpa [eq_comm] using hrefs q
    obtain ⟨hb, hexact⟩ := hup p hcount hr
    refine ⟨hsep, hb, hexact, fun q hq => ?_⟩
    rw [hfree] at hq
    rw [hr, if_neg (fun heq : q = p => hp (heq ▸ hq)), h.free_unref q hq]
  | drop p hp hfree href hwrapped =>
    have hr : ∀ q, refs b q + (if q = p then 1 else 0) = refs a q := fun q => by
      simpa [eq_comm] using hrefs q
    have hw : a.mem.wrapped = false := hwrapped ▸ hsafe.resolve_right (by simp)
    refine ⟨hsep, fun q hq => ?_, fun _ q hq => ?_, fun q hq => ?_⟩
    · rw [href, h.count q hq, ← hr q, ofNat_add_ite, BitVec.add_sub_cancel]
    · have := hr q
      have := h.exact hw q hq
      omega
    have hrq := hr q
    rw [hfree] at hq
    split at hq
    · rename_i hlast
      rcases List.mem_cons.mp hq with rfl | hmem
      · have hpool := h.separated.ref_pool s hc.tracked hc.unpinned q hold
        have hone : a.ppRef q = 1 := by
          rw [← BitVec.sub_add_cancel (a.ppRef q) 1, hlast]
          rfl
        have hcount := h.toNat_ppRef hw hpool
        rw [hone] at hcount
        simp only [if_true] at hrq
        have : (1 : BitVec 16).toNat = 1 := rfl
        omega
      · have := h.free_unref q hmem
        omega
    · have := h.free_unref q hq
      omega

theorem Counted.run {P : World → Slot → World → Prop} (h : Counted K a) (hr : Run K.layout P a b)
    (hsafe : b.mem.wrapped = false ∨ ∀ x s y, P x s y → x.ref s = none) : Counted K b := by
  induction hr with
  | refl => exact h
  | step hrun hc hP ih =>
    rcases hsafe with hw | hnone
    · exact (ih (.inl (hc.account.wrapped_mono hw))).change hc (.inl hw)
    · exact (ih (.inr hnone)).change hc (.inr (hnone _ _ _ hP))

/-- `page_alloc` on its own: a free page leaves the list and its contents may change. -/
structure Detached (L : Layout) (a : World) (p : Nat) (b : World) : Prop where
  free : a.free = p :: b.free
  freeList : FreeList b.mem b.free
  npages : b.mem.npages = a.mem.npages
  ppRef : ∀ q, b.ppRef q = a.ppRef q
  wrapped : b.mem.wrapped = a.mem.wrapped
  view : ∀ s ∈ L.viewed, b.view s = a.view s

theorem Counted.congr (h : Counted K a) (hnpages : b.mem.npages = a.mem.npages)
    (hl : FreeList b.mem b.free) (hcount : ∀ q, b.ppRef q = a.ppRef q)
    (hwrapped : b.mem.wrapped = a.mem.wrapped) (href : ∀ s ∈ K.layout.tracked, b.ref s = a.ref s)
    (hfree : ∀ p ∈ b.free, p ∈ K.pool ∧ refs a p = 0) : Counted K b := by
  have hrefs : ∀ p, refs b p = refs a p := fun p => by
    rw [refs, refs]
    exact refCount_congr fun s hs => href s (KernelMap.mem_tracked.mpr hs)
  have hunref : ∀ p ∈ b.free, ∀ s ∈ K.layout.tracked, a.ref s ≠ some p := by
    intro p hp s hs
    have hzero := (hfree p hp).2
    rw [refs] at hzero
    exact refCount_eq_zero_iff.mp hzero s (KernelMap.mem_tracked.mp hs)
  have hsep := h.separated
  refine ⟨⟨hnpages.trans hsep.npages, hl, fun p hp => (hfree p hp).1, ?_, ?_, ?_, ?_⟩, ?_, ?_, ?_⟩
  · intro s hs htable s' hs' p hp hp'
    rw [href s hs] at hp
    rw [href s' hs'] at hp'
    exact hsep.exclusive s hs htable s' hs' p hp hp'
  · intro s hs _ p hp hmem
    exact hunref p hmem s hs (href s hs ▸ hp)
  · exact fun s hs p hp => hsep.ref_lt s hs p (href s hs ▸ hp)
  · exact fun s hs hpin p hp => hsep.ref_pool s hs hpin p (href s hs ▸ hp)
  · intro p hp
    rw [hcount, hrefs, h.count p hp]
  · intro hw p hp
    rw [hrefs]
    exact h.exact (hwrapped ▸ hw) p hp
  · intro p hp
    rw [hrefs]
    exact (hfree p hp).2

theorem Counted.detach (h : Counted K a) (hd : Detached K.layout a p b) : Counted K b := by
  refine h.congr hd.npages hd.freeList hd.ppRef hd.wrapped (K.layout.ref_eq_of_view hd.view)
    fun q hq => ?_
  have hmem : q ∈ a.free := by simp [hd.free, hq]
  exact ⟨h.separated.free_pool q hmem, h.free_unref q hmem⟩

end Mit6828.Kern.RefInvariant
