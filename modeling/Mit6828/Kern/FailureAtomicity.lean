import Mit6828.Kern.ReferenceCounts

namespace Mit6828.Kern.FailureAtomicity

open Mmu Pmap PageAllocator Environment Syscall Separation RefInvariant KernelInvariant PageCallSpec
open EnvSpec Boot BootSpec Execution UserMap ReferenceCounts Library.IntrusiveList

/-- Page `p` is a page directory or a page table.  The entry of `kern_pgdir` at `UVPT` is that
directory again. -/
def IsTablePage (k : Kernel) (p : Nat) : Prop :=
  p = k.kernPgdir ∨
    (∃ i < npdentries, i ≠ pdxUvpt ∧ frameOf (k.mem.phys k.kernPgdir i) = some p) ∨
    ∃ e < nenv, (k.envs e).envPgdir = some p ∨ ∃ i < npdentries, frameOf (pdeOf k e i) = some p

/-- Free pages, reference counts, page directories and page tables, the free environments and
the environment table are the same. -/
structure Unchanged (k k' : Kernel) : Prop where
  freePages : ∀ l, Chain (fun p => (k'.mem.pages p).ppLink) k'.mem.pageFreeList l ↔
    Chain (fun p => (k.mem.pages p).ppLink) k.mem.pageFreeList l
  ppRef : ∀ p, (k'.mem.pages p).ppRef = (k.mem.pages p).ppRef
  tables : ∀ p, IsTablePage k p → k'.mem.phys p = k.mem.phys p
  envFreeList : k'.envFreeList = k.envFreeList
  envs : k'.envs = k.envs

theorem Unchanged.refl (k : Kernel) : Unchanged k k :=
  ⟨fun _ => Iff.rfl, fun _ => rfl, fun _ _ => rfl, rfl, rfl⟩

/-- The calls that may return an error after they have started to work. -/
def Fallible : Call → Prop
  | .pageAlloc _ _ _ => True
  | .pageMap _ _ _ _ _ => True
  | .pageUnmap _ _ => True
  | .exofork => True
  | .envSetPgfaultUpcall _ _ => True
  | .ipcTrySend _ _ _ _ => True
  | _ => False

/-- A `sys_page_alloc` that takes a page from the free list before it finds out that there is
no such environment. -/
def LosesPage (cur : Nat) (k : Kernel) : Call → Prop
  | .pageAlloc envid va perm => ¬ badVa va ∧ ¬ badPerm perm ∧
      envid2env cur envid true k = none ∧ k.mem.pageFreeList ≠ none
  | _ => False

variable {h : Machine} {K : KernelMap} {k k' : Kernel} {free : List Nat} {c cur p : Nat}
  {hw : Hw} {r envid va perm : Word} {call : Call}

theorem not_isTablePage_of_free (hinv : Inv K k free) (hp : p ∈ free) : ¬ IsTablePage k p := by
  have hunref := hinv.mem.counted.unreferenced (show p ∈ (world k free).free from hp)
  have hkern := frameOf_kern_root hinv
  rintro (rfl | ⟨i, hi, hself, href⟩ | ⟨e, he, hd | ⟨i, hi, href⟩⟩)
  · rw [hinv.env.kern] at hp
    exact K.kern_notPool (hinv.mem.counted.separated.free_pool _ hp)
  · refine hunref (.pde nenv i) (pde_tracked.mpr (.inr ⟨rfl, hi, hself⟩)) ?_
    rw [ref_eq, view_pde_of_root hkern, ← hinv.env.kern]
    exact href
  · exact hunref (.dir e) (dir_tracked.mpr he.le)
      (frameOf_rootOf hinv.env he hd)
  · obtain ⟨s, hs, -, href'⟩ := pde_ref_tracked hinv he hi href
    exact hunref s hs href'

theorem unchanged_zeroPage (hinv : Inv K k free) (hp : p ∈ free) :
    Unchanged k { k with mem := k.mem.zeroPage p } := by
  refine ⟨fun _ => Iff.rfl, fun _ => rfl, fun q hq => ?_, rfl, rfl⟩
  have hne : q ≠ p := by
    rintro rfl
    exact not_isTablePage_of_free hinv hp hq
  exact Function.update_of_ne hne _ _

/-- The page is gone: it is neither free nor used. -/
theorem sysPageAlloc_loses (hinv : Inv K k free)
    (hlose : LosesPage cur k (.pageAlloc envid va perm)) :
    ∃ k', sysPageAlloc cur envid va perm k = .ret (-eBadEnv) k' ∧ ¬ Unchanged k k' := by
  obtain ⟨hva, hperm, hnone, hfree⟩ := hlose
  have hlist : FreeList k.mem free := hinv.mem.counted.separated.freeList
  cases free with
  | nil => exact absurd hlist.chain hfree
  | cons p l =>
    obtain ⟨m, hm⟩ := pageAlloc_cons hlist true
    refine ⟨{ k with mem := m }, ?_, fun hsame => ?_⟩
    · rw [sysPageAlloc, if_neg hva, if_neg hperm, hm.result]
      simp only [show envid2env cur envid true { k with mem := m } = none from hnone]
    · have heq := ((hsame.freePages l).mp hm.freeList.chain).unique hlist.chain
      simpa using congrArg List.length heq

theorem sysPageAlloc_failed (hinv : Inv K k free) (hcur : cur < nenv)
    (hres : sysPageAlloc cur envid va perm k = .ret r k') (hr : isNeg r)
    (hlose : ¬ LosesPage cur k (.pageAlloc envid va perm)) : Unchanged k k' := by
  have hlist : FreeList k.mem free := hinv.mem.counted.separated.freeList
  obtain ⟨-, rfl⟩ | ⟨p, l, m, -, hva, hperm, hnone, rfl, -⟩ | ⟨p, -, rfl, rfl⟩ |
    ⟨e, p, a, b, rfl, -⟩ := sysPageAlloc_cases hinv hcur hres
  · exact .refl _
  · refine absurd ⟨hva, hperm, hnone, ?_⟩ hlose
    rw [show k.mem.pageFreeList = some p from hlist.chain.1]
    simp
  · exact unchanged_zeroPage hinv (by simp)
  · exact absurd hr (by decide)

/-- A call that fails leaves everything as it was, except that a `sys_page_alloc` for an
environment that does not exist loses a page. -/
theorem failed_call_unchanged_iff (hk : Reachable h NoWrap k) (hcur : k.curenv c = some cur)
    (hcall : Fallible call) (hres : (exec c cur hw k call).2 = .ret r k') (hr : isNeg r) :
    Unchanged k k' ↔ ¬ LosesPage cur k call := by
  obtain ⟨K, free, hinv, -, -⟩ := reachable_inv hk
  have hlt := hinv.env.curenv_lt c cur hcur
  cases call with
  | pageAlloc envid va perm =>
    refine ⟨fun hsame hlose => ?_, sysPageAlloc_failed hinv hlt hres hr⟩
    obtain ⟨k1, hres', hchanged⟩ := sysPageAlloc_loses hinv hlose
    cases hres.symm.trans hres'
    exact hchanged hsame
  | pageMap srcenvid srcva dstenvid dstva perm =>
    obtain ⟨-, rfl⟩ | ⟨src, dst, p, b, rfl, -⟩ := sysPageMap_cases hinv hlt hres
    · exact iff_of_true (.refl _) id
    · exact absurd hr (by decide)
  | pageUnmap envid va =>
    obtain ⟨-, rfl⟩ | ⟨e, b, rfl, -⟩ := sysPageUnmap_cases hinv hlt hres
    · exact iff_of_true (.refl _) id
    · exact absurd hr (by decide)
  | exofork =>
    obtain ⟨r', -, -, hfail⟩ | ⟨e, p, l, k1, halloc, hok⟩ := sysExofork_cases cur hinv
    · cases hres.symm.trans hfail
      exact iff_of_true (.refl _) id
    · cases hres.symm.trans hok
      exact absurd hr (nextEnvId_spec _ halloc.lt).2.2
  | envSetPgfaultUpcall envid func =>
    simp only [exec, sysEnvSetPgfaultUpcall] at hres
    split at hres
    · cases hres
      exact iff_of_true (.refl _) id
    · cases hres
      exact absurd hr (by decide)
  | ipcTrySend envid value srcva perm =>
    obtain ⟨-, rfl⟩ | ⟨dst, rfl, -⟩ := sysIpcTrySend_cases hinv hlt hres
    · exact iff_of_true (.refl _) id
    · exact absurd hr (by decide)
  | cputs | cgetc | getenvid | envDestroy | envSetStatus | envSetTrapframe | yield | ipcRecv
  | timeMsec | pktTrySend | pktTryRecv | invalid => exact hcall.elim

theorem failed_pageUnmap_unchanged : ∃ k, Reachable smallMachine NoWrap k ∧
    (exec 0 0 ⟨0, 0⟩ k (.pageUnmap 5 0)).2 = .ret (-eBadEnv) k ∧
      (Unchanged k k ↔ ¬ LosesPage 0 k (.pageUnmap 5 0)) := by
  obtain ⟨K, k, free, hk⟩ := smallMachine_runs
  have hreach := hk.reach.mono fun _ _ hstep => hstep.noWrap
  have hres := hk.unknown.2
  exact ⟨k, hreach, hres, failed_call_unchanged_iff hreach hk.curenv trivial hres (by decide)⟩

/-- `sys_page_alloc` for an environment that does not exist takes a page off the free list for
good. -/
theorem failed_pageAlloc_loses_page : ∃ k k', Reachable smallMachine SafeStep k ∧
    k.curenv 0 = some 0 ∧
    (exec 0 0 ⟨0, 0⟩ k (.pageAlloc 5 0 7)).2 = .ret (-eBadEnv) k' ∧ ¬ Unchanged k k' := by
  obtain ⟨K, k, free, hk⟩ := smallMachine_runs
  have hfree : k.mem.pageFreeList ≠ none := fun hnil => by
    have hchain := hk.inv.mem.counted.separated.freeList.chain
    rw [show (world k free).mem.pageFreeList = none from hnil] at hchain
    have hroom := hk.room
    rw [show free = [] from chain_none hchain] at hroom
    exact absurd hroom (by simp)
  obtain ⟨k', hres, hchanged⟩ := sysPageAlloc_loses hk.inv
    (show LosesPage 0 k (.pageAlloc 5 0 7) from ⟨by decide, by decide, hk.unknown.1, hfree⟩)
  exact ⟨k, k', hk.reach, hk.curenv, hres, hchanged⟩

end Mit6828.Kern.FailureAtomicity
