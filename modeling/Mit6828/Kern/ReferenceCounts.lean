import Mit6828.Kern.UserMap

namespace Mit6828.Kern.ReferenceCounts

open Mmu Pmap PageAllocator Environment Syscall Separation PageTableSpec RefInvariant
open KernelInvariant PageCallSpec UserMap EnvSpec Boot BootMemory BootSpec Execution Library
open Library.RefCount

variable {h : Machine} {K : KernelMap} {k k' : Kernel} {free : List Nat} {e i j p : Nat}

/-- The number of present entries below `UTOP` in page tables that point to page `p`. -/
def mappingRefs (k : Kernel) (p : Nat) : Nat :=
  ((Finset.range nenv ×ˢ Finset.range pdxUtop ×ˢ Finset.range nptentries).filter fun x =>
    frameOf (pteOf k x.1 x.2.1 x.2.2) = some p).card

/-- The number of present directory entries below `PDX(UTOP)` that point to page `p`. -/
def tableRefs (k : Kernel) (p : Nat) : Nat :=
  ((Finset.range nenv ×ˢ Finset.range pdxUtop).filter fun x =>
    frameOf (pdeOf k x.1 x.2) = some p).card

def directoryRefs (k : Kernel) (p : Nat) : Nat :=
  ((Finset.range nenv).filter fun e => (k.envs e).envPgdir = some p).card

/-- The number of present entries of `kern_pgdir` that point to page `p`; the one through
which it maps itself does not count. -/
def kernelTableRefs (k : Kernel) (p : Nat) : Nat :=
  (((Finset.range npdentries).erase pdxUvpt).filter fun i =>
    frameOf (k.mem.phys k.kernPgdir i) = some p).card

theorem refCount_countedSlots {n low skip : Nat} {slots : Finset Slot} {r : Slot → Option Nat}
    (hslots : slots = countedSlots n low skip) (pte : Nat → Nat → Nat → Word)
    (pde : Nat → Nat → Word) (dir : Nat → Option Nat) (kern : Nat → Word) (hn : r (.dir n) ≠ some p)
    (hpte : ∀ e < n, ∀ i j, r (.pte e i j) = frameOf (pte e i j))
    (hpde : ∀ e < n, ∀ i, r (.pde e i) = frameOf (pde e i))
    (hdir : ∀ e < n, r (.dir e) = dir e) (hkern : ∀ i, r (.pde n i) = frameOf (kern i)) :
    refCount slots r p =
      ((Finset.range n ×ˢ Finset.range low ×ˢ Finset.range nptentries).filter fun x =>
        frameOf (pte x.1 x.2.1 x.2.2) = some p).card +
      ((Finset.range n ×ˢ Finset.range low).filter fun x =>
        frameOf (pde x.1 x.2) = some p).card +
      ((Finset.range n).filter fun e => dir e = some p).card +
      (((Finset.range npdentries).erase skip).filter fun i => frameOf (kern i) = some p).card := by
  subst hslots
  unfold countedSlots
  generalize npdentries = entries, nptentries = entries'
  rw [refCount_union, refCount_union, refCount_union, refCount_image, refCount_image,
    refCount_image, refCount_image, Finset.range_add_one, Finset.filter_insert, if_neg hn]
  · have hpte' : ∀ x ∈ Finset.range n ×ˢ Finset.range low ×ˢ Finset.range entries',
        r (.pte x.1 x.2.1 x.2.2) = some p ↔ frameOf (pte x.1 x.2.1 x.2.2) = some p := fun x hx => by
      rw [hpte x.1 (Finset.mem_range.mp (Finset.mem_product.mp hx).1)]
    have hpde' : ∀ x ∈ Finset.range n ×ˢ Finset.range low,
        r (.pde x.1 x.2) = some p ↔ frameOf (pde x.1 x.2) = some p := fun x hx => by
      rw [hpde x.1 (Finset.mem_range.mp (Finset.mem_product.mp hx).1)]
    have hdir' : ∀ e ∈ Finset.range n, r (.dir e) = some p ↔ dir e = some p := fun e he => by
      rw [hdir e (Finset.mem_range.mp he)]
    simp only [Finset.filter_congr hpte', Finset.filter_congr hpde', Finset.filter_congr hdir',
      hkern]
    omega
  · rintro ⟨e, i, j⟩ ⟨e', i', j'⟩ heq
    simpa using heq
  · intro i i' heq
    simpa using heq
  · rintro ⟨e, i⟩ ⟨e', i'⟩ heq
    simpa using heq
  · intro e e' heq
    simpa using heq
  · rw [Finset.disjoint_left]
    simp
  · rw [Finset.disjoint_left]
    intro s hs hs'
    obtain ⟨i, -, rfl⟩ := Finset.mem_image.mp hs'
    simp at hs
  · rw [Finset.disjoint_left]
    intro s hs hs'
    obtain ⟨⟨e, i, j⟩, -, rfl⟩ := Finset.mem_image.mp hs'
    simp at hs

theorem frameOf_kern_root (hinv : Inv K k free) :
    frameOf ((world k free).root nenv) = some K.kern := by
  rw [hinv.mem.shaped.kern]
  exact frameOf_rootWord (K.kern_lt.trans_le K.npages_le)

theorem refs_eq (hinv : Inv K k free) (hp : p ∈ K.pool) : refs (world k free) p =
      mappingRefs k p + tableRefs k p + directoryRefs k p + kernelTableRefs k p := by
  have hkern := frameOf_kern_root hinv
  have hne : (world k free).ref (.dir nenv) ≠ some p := fun heq =>
    K.kern_notPool (Option.mem_unique hkern heq ▸ hp)
  have hdir : ∀ e < nenv, (world k free).ref (.dir e) = (k.envs e).envPgdir := fun e he => by
    cases hd : (k.envs e).envPgdir with
    | none =>
      rw [ref_eq, show (world k free).view (.dir e) = rootWord (k.envs e).envPgdir from
        if_pos he, hd]
      exact frameOf_zero
    | some d => exact frameOf_rootOf hinv.env he hd
  rw [refs]
  refine refCount_countedSlots (by unfold trackedSlots; rfl) (pteOf k) (pdeOf k)
    (fun e => (k.envs e).envPgdir)
    (k.mem.phys k.kernPgdir) hne (fun e he i j => ?_) (fun e he i => ?_) hdir fun i => ?_
  · rw [pteOf_eq_view free hinv.env he, ref_eq]
  · rw [pdeOf_eq_view free hinv.env he, ref_eq]
  · rw [ref_eq, view_pde_of_root hkern, hinv.env.kern]
    rfl

/-- What environments refer to page `p` by: mappings, page tables, page directories. -/
def userRefs (k : Kernel) (p : Nat) : Nat := mappingRefs k p + tableRefs k p + directoryRefs k p

/-- Every page that `page_alloc` can hand out has as its `pp_ref` the number of references
that there are to it, from environments and from `kern_pgdir`, and it is on the free list at
most once, and only if there are none. -/
def RefsCounted (h : Machine) (k : Kernel) : Prop :=
  ∃ l, IntrusiveList.Chain (fun p => (k.mem.pages p).ppLink) k.mem.pageFreeList l ∧
    ∀ p ∈ freePool h.npagesBasemem (firstFree h) h.npages,
      (k.mem.pages p).ppRef.toNat = userRefs k p + kernelTableRefs k p ∧ l.count p ≤ 1 ∧
        (p ∈ l → userRefs k p + kernelTableRefs k p = 0)

/-- The reference counts are exact in every state that is reached without a count wrapping
around, whatever the environments do. -/
theorem ppRef_counts_references (hk : Reachable h NoWrap k) : RefsCounted h k := by
  obtain ⟨K, free, hinv, hpool, hw⟩ := reachable_inv hk
  have hcounted := hinv.mem.counted
  have hfree : FreeList k.mem free := hcounted.separated.freeList
  refine ⟨free, hfree.chain, fun p hp => ?_⟩
  rw [← hpool] at hp
  rw [userRefs, ← refs_eq hinv hp]
  exact ⟨hcounted.toNat_ppRef hw hp, List.nodup_iff_count_le_one.mp hfree.nodup p,
    fun hmem => hcounted.free_unref p hmem⟩

theorem ppRef_counts_references_small :
    ∃ k, i386Init smallMachine = some k ∧ RefsCounted smallMachine k := by
  obtain ⟨k, K, free, hk, -⟩ := smallMachine_boots
  exact ⟨k, hk, ppRef_counts_references (.boot hk)⟩

/-- `boot_map_region` has taken page tables for `kern_pgdir` from the allocator: right after
boot there is a page with a `pp_ref` that no environment accounts for. -/
theorem kernel_page_table_is_counted : ∃ k, Reachable smallMachine NoWrap k ∧
    ∃ p ∈ freePool 160 (firstFree smallMachine) 16384,
      (k.mem.pages p).ppRef.toNat ≠ userRefs k p := by
  obtain ⟨k, K, free, hk, hs, -⟩ := smallMachine_boots
  have hinv := hs.inv
  have hentry : (world k free).view (.pde nenv 958) = K.dirWord 958 :=
    hinv.mem.shaped.kernDir 958 (by decide) (by decide)
  have href : (world k free).ref (.pde nenv 958) = some (pgnum (K.dirWord 958)) := by
    rw [ref_eq, hentry, frameOf, if_pos hs.mmio]
  have htracked : (.pde nenv 958 : Slot) ∈ K.layout.tracked :=
    pde_tracked.mpr (.inr ⟨rfl, by decide, by decide⟩)
  have hpool : pgnum (K.dirWord 958) ∈ K.pool :=
    hinv.mem.counted.separated.ref_pool _ htracked (by simp [KernelMap.layout]) _ href
  have hpos : 0 < kernelTableRefs k (pgnum (K.dirWord 958)) := by
    refine Finset.card_pos.mpr ⟨958, Finset.mem_filter.mpr ⟨Finset.mem_erase.mpr
      ⟨by decide, Finset.mem_range.mpr (by decide)⟩, ?_⟩⟩
    rw [hinv.env.kern, ← href, ref_eq, view_pde_of_root (frameOf_kern_root hinv)]
    rfl
  refine ⟨k, .boot hk, pgnum (K.dirWord 958), hs.pool ▸ hpool, ?_⟩
  rw [show (k.mem.pages (pgnum (K.dirWord 958))).ppRef.toNat = _ from
    hinv.mem.counted.toNat_ppRef hs.wrapped hpool, refs_eq hinv hpool, userRefs]
  omega

/-- No page that is mapped below `UTOP` is on the free list, and none is a page directory or a
page table. -/
def MappedApart (k : Kernel) : Prop :=
  ∃ l, IntrusiveList.Chain (fun p => (k.mem.pages p).ppLink) k.mem.pageFreeList l ∧
    ∀ e < nenv, ∀ i < pdxUtop, ∀ j < nptentries, ∀ p, frameOf (pteOf k e i j) = some p →
      p ∉ l ∧ ∀ e' < nenv, (k.envs e').envPgdir ≠ some p ∧
        ∀ i' < npdentries, frameOf (pdeOf k e' i') ≠ some p

theorem pde_ref_tracked (hinv : Inv K k free) (he : e < nenv) (hi : i < npdentries)
    (hp : frameOf (pdeOf k e i) = some p) :
    ∃ s ∈ K.layout.tracked, s.IsTable ∧ (world k free).ref s = some p := by
  have hlive : ∃ d, (k.envs e).envPgdir = some d := by
    cases hd : (k.envs e).envPgdir with
    | none =>
      rw [pdeOf, hd] at hp
      exact absurd (frameOf_zero.symm.trans hp) (by simp)
    | some d => exact ⟨d, rfl⟩
  obtain ⟨d, hd⟩ := hlive
  have hroot := frameOf_rootOf hinv.env he hd
  rw [pdeOf_eq_view free hinv.env he] at hp
  by_cases hlow : i < pdxUtop
  · exact ⟨.pde e i, pde_tracked.mpr (.inl ⟨he, hlow⟩), trivial, hp⟩
  by_cases hself : i = pdxUvpt
  · -- the entry at `UVPT` refers to the directory itself
    refine ⟨.dir e, dir_tracked.mpr he.le, trivial, ?_⟩
    rw [hself, hinv.mem.shaped.self e he d hroot] at hp
    have hlt : d < 1048576 := (hinv.env.pgdir_lt e he d hd).trans_le K.npages_le
    have hframe := frameOf_entry hlt (show pteU.toNat < 4096 by decide)
    rw [BitVec.or_assoc, BitVec.or_comm pteU, ← BitVec.or_assoc, hp] at hframe
    rw [hframe]
    exact hroot
  · refine ⟨.pde nenv i, pde_tracked.mpr (.inr ⟨rfl, hi, hself⟩), trivial, ?_⟩
    rw [ref_eq, hinv.mem.shaped.kernDir i hi hself,
      ← hinv.mem.shaped.upper e he d hroot i hi (Nat.not_lt.mp hlow) hself]
    exact hp

/-- While no reference count wraps around, mapped pages are neither free nor page tables. -/
theorem mapped_pages_apart (hk : Reachable h NoWrap k) : MappedApart k := by
  obtain ⟨K, free, hinv, -, -⟩ := reachable_inv hk
  have hfree : FreeList k.mem free := hinv.mem.counted.separated.freeList
  refine ⟨free, hfree.chain, fun e he i hi j hj p hp => ?_⟩
  have htracked : (.pte e i j : Slot) ∈ K.layout.tracked := pte_tracked.mpr ⟨he, hi, hj⟩
  rw [pteOf_eq_view free hinv.env he] at hp
  have hdata := insertable_of_mapped hinv.mem htracked hp
  refine ⟨hdata.notFree, fun e' he' => ⟨fun hd => ?_, fun i' hi' hp' => ?_⟩⟩
  · exact hdata.notTable (.dir e') (dir_tracked.mpr he'.le) trivial
      (frameOf_rootOf hinv.env he' hd)
  · obtain ⟨s, hs, htable, href⟩ := pde_ref_tracked hinv he' hi' hp'
    exact hdata.notTable s hs htable href

theorem mapped_pages_apart_small : ∃ k, i386Init smallMachine = some k ∧ MappedApart k := by
  obtain ⟨k, K, free, hk, -⟩ := smallMachine_boots
  exact ⟨k, hk, mapped_pages_apart (.boot hk)⟩

section Aliasing

variable {a b c : World} {d n : Nat} {id perm : Word}

/-- The first `n` pages of environment `e` are all page `p`, and the pages after them up to
the one with number 65536 are not mapped. -/
structure Aliases (e p n : Nat) (a : World) : Prop where
  count : a.ppRef p = BitVec.ofNat 16 n
  mapped : ∀ j < n, a.ref (pageSlot e j) = some p
  empty : ∀ j, n ≤ j → j ≤ 65536 → a.ref (pageSlot e j) = none
  room : 70 ≤ a.free.length + (n + 1023) / 1024

def pageVa (n : Nat) : Word := BitVec.ofNat 32 (n * 4096)

theorem toNat_pageVa (hn : n ≤ 65536) : (pageVa n).toNat = n * 4096 := by
  rw [pageVa, BitVec.toNat_ofNat]
  omega

theorem pageVa_ok (hn : n ≤ 65536) : ¬ badVa (pageVa n) := by
  rw [not_badVa_iff, toNat_pageVa hn]
  omega

theorem pteSlot_pageVa (hn : n ≤ 65536) : pteSlot e (pageVa n) = pageSlot e n := by
  rw [pteSlot_eq_pageSlot, pgnum_eq, toNat_pageVa hn]
  congr 2
  omega

theorem Aliases.insert (ha : Aliases e p n a) (he : e < nenv) (hn : n ≤ 65536)
    (hb : Inserted K.layout e d p (pageVa n) perm a b) (hp : p < 1048576)
    (hperm : perm.toNat < 4096) : Aliases e p (n + 1) b := by
  have hslot := pteSlot_pageVa (e := e) hn
  have hempty : a.ref (pteSlot e (pageVa n)) = none := hslot ▸ ha.empty n le_rfl hn
  have hedit := Edited.of_inserted hb
  have hother : ∀ j, j ≠ n → j ≤ 65536 → b.ref (pageSlot e j) = a.ref (pageSlot e j) := by
    intro j hj hle
    rw [ref_eq, ref_eq, hedit.view_eq _ (by simp) (by rw [hslot]; simp; omega)]
    exact pte_viewed.mpr ⟨.inl ⟨he, by grind⟩, by grind⟩
  refine ⟨?_, fun j hj => ?_, fun j hj hle => ?_, ?_⟩
  · rw [hb.count hempty, ha.count, BitVec.ofNat_add]
    rfl
  · by_cases hjn : j = n
    · rw [hjn, ← hslot, ref_eq, hb.entry]
      exact frameOf_entry hp hperm
    · rw [hother j hjn (by omega)]
      exact ha.mapped j (by omega)
  · rw [hother j (by omega) hle]
    exact ha.empty j (by omega) hle
  · have hroom := hb.room
    have hroom' := ha.room
    by_cases hpde : a.ref (pdeSlot e (pageVa n)) = none
    · -- a page table is taken only for the first page that it maps
      rw [if_pos hpde] at hroom
      have hfirst : n % 1024 = 0 := by
        by_contra hne
        have hprev := ha.mapped (n - 1) (by omega)
        have hsame : pageSlot e (n - 1) = .pte e (pdx (pageVa n)) ((n - 1) % 1024) := by
          rw [pageSlot, pdx_eq, toNat_pageVa hn]
          congr 1
          omega
        rw [hsame, ref_eq, view_pte_of_absent hpde, frameOf_zero] at hprev
        exact absurd hprev (by simp)
      omega
    · grind

structure Parent (id : Word) (e d : Nat) (k : Kernel) : Prop where
  cpu : 0 < k.ncpu
  curenv : k.curenv 0 = some 0
  running : (k.envs 0).envStatus = .running
  pgdir : ∃ d0, (k.envs 0).envPgdir = some d0
  child : envid2env 0 id true k = some e
  childPgdir : (k.envs e).envPgdir = some d
  lt : e < nenv

theorem Parent.alike (hk : Parent id e d k) (halike : Alike k k') : Parent id e d k' where
  cpu := halike.ncpu ▸ hk.cpu
  curenv := (halike.curenv 0).trans hk.curenv
  running := by
    obtain ⟨tf, runs, cpu, heq⟩ := halike.env 0
    rw [heq]
    exact hk.running
  pgdir := by
    rw [halike.harmless.pgdir]
    exact hk.pgdir
  child := (halike.envid2env_eq 0 id true).trans hk.child
  childPgdir := (halike.harmless.pgdir e).trans hk.childPgdir
  lt := hk.lt

theorem Parent.setMem (hk : Parent id e d k) (m : Mem) : Parent id e d { k with mem := m } :=
  { hk with }

structure Aliased (K : KernelMap) (id : Word) (e d p n : Nat) (k : Kernel) (free : List Nat) :
    Prop where
  parent : Parent id e d k
  inv : Inv K k free
  aliases : Aliases e p n (world k free)

theorem Aliased.alike (hk : Aliased K id e d p n k free) (halike : Alike k k') :
    Aliased K id e d p n k' free :=
  ⟨hk.parent.alike halike, hk.inv.harmless halike.harmless,
    halike.harmless.world_eq free ▸ hk.aliases⟩

theorem aliased_of_inserted (hk : Parent id e d k) (hinv : Inv K k free)
    (ha : Aliases e p n (world k free)) (hn : n ≤ 65536) (hp : p < 1048576)
    (hb : Inserted K.layout e d p (pageVa n) 5 (world k free) b) :
    Aliased K id e d p (n + 1) { k with mem := b.mem } b.free := by
  have hempty : (world k free).ref (pteSlot e (pageVa n)) = none := by
    rw [pteSlot_pageVa hn]
    exact ha.empty n le_rfl hn
  refine ⟨hk.setMem _, ?_, (world_of_root hb.root).symm ▸ ha.insert hk.lt hn hb hp (by decide)⟩
  exact TrapSpec.Edited.inv (.of_inserted hb) hinv hk.lt
    (.inr (isUserEntry_of_perm (by decide) p)) (.inr hempty)

theorem Aliased.map (hk : Aliased K id e d p n k free) (hpos : 0 < n) (hn : n ≤ 65536) :
    ∃ k' free', Step k k' ∧ Aliased K id e d p (n + 1) k' free' := by
  obtain ⟨k1, k', hstep, ⟨free', hk1⟩, halike⟩ := step_syscall
    (P := fun k1 => ∃ free', Aliased K id e d p (n + 1) k1 free') ⟨0, 0⟩ 5 id 0 id (pageVa n) 5
    hk.parent.cpu hk.parent.curenv hk.parent.running fun k0 halike => by
      obtain ⟨hpar, hinv, hal⟩ := hk.alike halike
      have hfirst : (world k0 free).ref (pteSlot e 0) = some p := hal.mapped 0 hpos
      have hroom : free ≠ [] := by
        have := hal.room
        rintro rfl
        simp only [world, List.length_nil] at this
        omega
      obtain ⟨b, hres, hb⟩ := sysPageMap_ok hinv (pageVa_ok (Nat.zero_le _)) (pageVa_ok hn)
        (show ¬ badPerm 5 by decide) hpar.child hpar.child hpar.lt hpar.lt hpar.childPgdir
        hpar.childPgdir hfirst (.inl hroom)
      have hp := hinv.mem.counted.separated.ref_lt _
        (pte_tracked.mpr ⟨hpar.lt, by decide, by decide⟩) p hfirst
      have hnext := aliased_of_inserted hpar hinv hal hn (hp.trans_le K.npages_le) hb
      exact ⟨0, _, hres, hpar.curenv, hpar.running, hpar.pgdir, b.free, hnext⟩
  exact ⟨k', free', hstep, hk1.alike halike⟩

structure Spawned (K : KernelMap) (id : Word) (e d : Nat) (k : Kernel) (free : List Nat) :
    Prop where
  parent : Parent id e d k
  inv : Inv K k free
  empty : ∀ i < pdxUtop, (world k free).ref (.pde e i) = none
  room : 100 ≤ free.length

theorem Spawned.alike (hk : Spawned K id e d k free) (halike : Alike k k') :
    Spawned K id e d k' free :=
  ⟨hk.parent.alike halike, hk.inv.harmless halike.harmless,
    halike.harmless.world_eq free ▸ hk.empty, hk.room⟩

theorem spawned_of_allocated {l : List Nat} {k1 : Kernel}
    (halloc : EnvAllocated K (k.envs 0).envId k free e p l k1) (hcpu : 0 < k.ncpu)
    (hcur : k.curenv 0 = some 0) (hrun : (k.envs 0).envStatus = .running)
    (hd : (k.envs 0).envPgdir = some d) (hroom : 101 ≤ free.length) :
    Spawned K (nextEnvId (k.envs e).envId e) e p (forked 0 e k1) l := by
  have hne : 0 ≠ e := by
    rintro rfl
    exact absurd (hd.symm.trans halloc.unused) (by simp)
  obtain ⟨hx, hnz, -⟩ := nextEnvId_spec (k.envs e).envId halloc.lt
  have hparent : (forked 0 e k1).envs 0 = k.envs 0 := by
    simp [forked, Kernel.setEnv, halloc.envs, hne]
  have hharm : Harmless k1 (forked 0 e k1) := harmless_setEnv rfl rfl (.inl rfl)
  refine ⟨⟨?_, ?_, ?_, ⟨d, ?_⟩, ?_, ?_, halloc.lt⟩, halloc.inv.harmless hharm, fun i hi => ?_, ?_⟩
  · change 0 < k1.ncpu
    rw [halloc.state]
    exact hcpu
  · change k1.curenv 0 = some 0
    rw [halloc.state]
    exact hcur
  · rw [hparent, hrun]
  · rw [hparent, hd]
  · refine envid2env_child hx hnz ?_ ?_ ?_ true <;>
      simp [forked, Kernel.setEnv, halloc.envs, hne, freshEnv]
  · simp [forked, Kernel.setEnv, halloc.envs, freshEnv]
  · have htracked : (.pde e i : Slot) ∈ K.layout.tracked := pde_tracked.mpr (.inl ⟨halloc.lt, hi⟩)
    rw [hharm.world_eq, halloc.change.rest_ref htracked (by simp), ref_eq]
    rw [show (world k free).view (.pde e i) = 0 from PageTable.deref_none ?_, frameOf_zero]
    rw [show (world k free).root e = rootWord (k.envs e).envPgdir from if_pos halloc.lt,
      halloc.unused]
    exact frameOf_zero
  · rw [halloc.freeList, List.length_cons] at hroom
    omega

theorem Spawned.alloc (hk : Spawned K id e d k free) :
    ∃ p k' free', Step k k' ∧ Aliased K id e d p 1 k' free' := by
  obtain ⟨k1, k', hstep, ⟨p, free', hk1⟩, halike⟩ := step_syscall
    (P := fun k1 => ∃ p free', Aliased K id e d p 1 k1 free') ⟨0, 0⟩ 4 id 0 5 0 0
    hk.parent.cpu hk.parent.curenv hk.parent.running fun k0 halike => by
      obtain ⟨hpar, hinv, hempty, hroom⟩ := hk.alike halike
      obtain ⟨p, c, b, hres, hdet, hroot, hb⟩ := sysPageAlloc_ok hinv (pageVa_ok (Nat.zero_le _))
        (show ¬ badPerm 5 by decide) hpar.child hpar.lt hpar.childPgdir (by omega)
      have hc := (world_of_root hroot).symm
      have hinv' : Inv K { k0 with mem := c.mem } c.free :=
        ⟨hc ▸ hinv.mem.detach hdet, hinv.env.setMem _⟩
      have hmem : p ∈ (world k0 free).free := by simp [hdet.free]
      have hp : p < 1048576 :=
        (K.pool_lt p (hinv.mem.counted.separated.free_pool p hmem)).trans_le K.npages_le
      have hal : Aliases e p 0 c := by
        refine ⟨?_, by simp, fun j _ hj => ?_, ?_⟩
        · rw [hdet.ppRef, ppRef_of_free hinv.mem hmem]
          rfl
        · have hlow : j / 1024 < pdxUtop := by grind
          have hview : pageSlot e j ∈ viewedSlots := pte_viewed.mpr
            ⟨.inl ⟨hpar.lt, hlow⟩, Nat.mod_lt _ (by decide)⟩
          rw [ref_eq, hdet.view _ hview, view_pte_of_absent (hempty _ hlow), frameOf_zero]
        · have hlen : free.length = c.free.length + 1 := by
            rw [show free = p :: c.free from hdet.free, List.length_cons]
          omega
      rw [hc] at hb hal
      have hnext := aliased_of_inserted (hpar.setMem c.mem) hinv' hal (Nat.zero_le _) hp hb
      exact ⟨0, _, hres, hpar.curenv, hpar.running, hpar.pgdir, p, b.free, hnext⟩
  exact ⟨p, k', free', hstep, hk1.alike halike⟩

theorem smallMachine_spawns : ∃ K id e d k free,
    Reachable smallMachine Step k ∧ Spawned K id e d k free := by
  obtain ⟨K, k, free, hk⟩ := smallMachine_runs
  obtain ⟨d, hd⟩ := (hk.made 0 (by decide)).pgdir
  have hcpu : 0 < k.ncpu := hk.ncpu ▸ (by decide)
  obtain ⟨k1, k', hstep, ⟨id, e, p, l, hk1⟩, halike⟩ := step_syscall
    (P := fun k1 => ∃ id e p l, Spawned K id e p k1 l) ⟨0, 0⟩ 7 0 0 0 0 0
    hcpu hk.curenv hk.running fun k0 halike => by
      obtain ⟨tf, runs, cpu, henv⟩ := halike.env 0
      obtain ⟨r, -, hreason, -⟩ | ⟨e, p, l, k1, halloc, hres⟩ :=
        sysExofork_cases 0 (hk.inv.harmless halike.harmless)
      · rw [halike.envFreeList, hk.head] at hreason
        obtain rfl : free = [] := hreason.resolve_left (by simp)
        exact absurd hk.room (by simp)
      have hroom := hk.room
      have hspawn := spawned_of_allocated halloc (halike.ncpu ▸ hcpu)
        ((halike.curenv 0).trans hk.curenv) (by rw [henv]; exact hk.running)
        (by rw [henv]; exact hd) (by omega)
      exact ⟨_, _, hres, hspawn.parent.curenv, hspawn.parent.running, hspawn.parent.pgdir,
        _, e, p, l, hspawn⟩
  exact ⟨K, id, e, p, k', l, (hk.reach.mono fun _ _ hstep => hstep.1).step hstep, hk1.alike halike⟩

theorem smallMachine_aliases {n : Nat} (hn : n ≤ 65536) : ∃ K id e d p k free,
    Reachable smallMachine Step k ∧ Aliased K id e d p (n + 1) k free := by
  induction n with
  | zero =>
    obtain ⟨K, id, e, d, k, free, hk, hspawn⟩ := smallMachine_spawns
    obtain ⟨p, k', free', hstep, hal⟩ := hspawn.alloc
    exact ⟨K, id, e, d, p, k', free', hk.step hstep, hal⟩
  | succ n ih =>
    obtain ⟨K, id, e, d, p, k, free, hk, hal⟩ := ih (by omega)
    obtain ⟨k', free', hstep, hal'⟩ := hal.map (Nat.succ_pos n) hn
    exact ⟨K, id, e, d, p, k', free', hk.step hstep, hal'⟩

/-- Unmapping one of the 65537 mappings frees the page that the others still map. -/
theorem wrapped_count_frees_mapped_page : ∃ k, Reachable smallMachine Step k ∧ ¬ MappedApart k := by
  obtain ⟨K, id, e, d, p, k, free, hk, hal⟩ := smallMachine_aliases le_rfl
  obtain ⟨k1, k', hstep, ⟨b, henv, hworld, hhead, hmapped⟩, halike⟩ := step_syscall
    (P := fun k1 => ∃ b, EnvInv K k1 ∧ world k1 b.free = b ∧ k1.mem.pageFreeList = some p ∧
      b.ref (pageSlot e 1) = some p) ⟨0, 0⟩ 6 id 0 0 0 0
    hal.parent.cpu hal.parent.curenv hal.parent.running fun k0 halike => by
      obtain ⟨hpar, hinv, hal⟩ := hal.alike halike
      have hfirst : (world k0 free).ref (pteSlot e (pageVa 0)) = some p := hal.mapped 0 (by decide)
      obtain ⟨b, hres, hroot, hchange, hzero⟩ := sysPageUnmap_ok hinv (pageVa_ok (Nat.zero_le _))
        hpar.child hpar.lt hpar.childPgdir hfirst
      refine ⟨0, _, hres, hpar.curenv, hpar.running, hpar.pgdir, b, hinv.env.setMem _,
        world_of_root hroot, ?_, ?_⟩
      · have hnone : b.ref (pteSlot e (pageVa 0)) = none := by rw [ref_eq, hzero, frameOf_zero]
        have hacc := hchange.account
        rw [hfirst, hnone] at hacc
        cases hacc with
        | drop _ _ hfree _ _ =>
          rw [hal.count, if_pos (by decide)] at hfree
          have hlist := hchange.freeList
          rw [hfree] at hlist
          exact hlist.chain.1
      · rw [ref_eq, hchange.rest (pageSlot e 1) ?_ (by simp [pteSlot]; decide) (.inr (by simp))]
        · exact hal.mapped 1 (by decide)
        · exact pte_viewed.mpr ⟨.inl ⟨hpar.lt, by decide⟩, by decide⟩
  refine ⟨k', hk.step hstep, ?_⟩
  rintro ⟨l, hchain, hapart⟩
  rw [halike.mem, hhead] at hchain
  obtain ⟨l', rfl, -⟩ := IntrusiveList.chain_some hchain
  refine (hapart e hal.parent.lt 0 (by decide) 1 (by decide) p ?_).1 (by simp)
  rw [pteOf_eq_view b.free (henv.harmless halike.harmless) hal.parent.lt,
    halike.harmless.world_eq, hworld]
  exact hmapped

end Aliasing

end Mit6828.Kern.ReferenceCounts
