import Mit6828.Kern.Execution

namespace Mit6828.Kern.UserMap

open Mmu Pmap PageAllocator Environment Syscall Separation RefInvariant
open KernelInvariant PageCallSpec AddressSpaceSpec EnvSpec TrapSpec Execution Library

/-- Entry `i` of the page directory of environment `e`; without a directory it reads as
absent. -/
def pdeOf (k : Kernel) (e i : Nat) : Word :=
  match (k.envs e).envPgdir with
  | some d => k.mem.phys d i
  | none => 0

def pteOf (k : Kernel) (e i j : Nat) : Word :=
  match frameOf (pdeOf k e i) with
  | some t => k.mem.phys t j
  | none => 0

variable {K : KernelMap} {k k' k1 : Kernel} {free : List Nat} {cur e i j p d : Nat}
  {envid va perm w r : Word}

theorem pdeOf_eq_view (free : List Nat) (henv : EnvInv K k) (he : e < nenv) (i : Nat) :
    pdeOf k e i = (world k free).view (.pde e i) := by
  unfold pdeOf
  split
  · rename_i d hd
    exact (view_pde_of_root (a := world k free) (frameOf_rootOf henv he hd)).symm
  · rename_i hnone
    refine (PageTable.deref_none ?_).symm
    rw [show (world k free).root e = rootWord (k.envs e).envPgdir from if_pos he, hnone]
    exact frameOf_zero

theorem pteOf_eq_view (free : List Nat) (henv : EnvInv K k) (he : e < nenv) (i j : Nat) :
    pteOf k e i j = (world k free).view (.pte e i j) := by
  unfold pteOf
  rw [pdeOf_eq_view free henv he]
  split
  · rename_i t ht
    exact (view_pte_of_ref (a := world k free) ht).symm
  · rename_i hnone
    exact (view_pte_of_absent (a := world k free) hnone).symm

theorem pteOf_of_present (hd : (k.envs e).envPgdir = some d)
    (hP : k.mem.phys d i &&& pteP ≠ 0) : pteOf k e i j = k.mem.phys (pgnum (k.mem.phys d i)) j := by
  simp only [pteOf, pdeOf, hd, frameOf, if_pos hP]

theorem pteOf_of_absent (hd : (k.envs e).envPgdir = some d)
    (hP : k.mem.phys d i &&& pteP = 0) : pteOf k e i j = 0 := by
  simp only [pteOf, pdeOf, hd, frameOf, if_neg (not_not.mpr hP)]

theorem pteOf_of_alike (hk : Alike k k') (e i j : Nat) : pteOf k' e i j = pteOf k e i j := by
  simp only [pteOf, pdeOf, hk.harmless.pgdir, hk.mem]

theorem isUserEntry_pteOf (h : Inv K k free) (he : e < nenv) (hva : va < utop) {mask : Word}
    (hmask : pteOf k e (pdx va) (ptx va) &&& mask ≠ 0) :
    IsUserEntry (pteOf k e (pdx va) (ptx va)) := by
  have hentry := h.mem.shaped.pte e he _ (pdx_lt_pdxUtop hva) _ (ptx_lt va)
  rw [← pteOf_eq_view free h.env he] at hentry
  refine hentry.resolve_left fun hzero => hmask ?_
  rw [hzero]
  exact BitVec.zero_and

def SameMaps (k k' : Kernel) : Prop :=
  ∀ e < nenv, ∀ i < pdxUtop, ∀ j < nptentries, pteOf k' e i j = pteOf k e i j

/-- The entry for `va` of environment `e` has become `w`, and nothing else below `UTOP` has
changed. -/
def Remapped (e : Nat) (va w : Word) (k k' : Kernel) : Prop :=
  ∀ e' < nenv, ∀ i < pdxUtop, ∀ j < nptentries, pteOf k' e' i j =
    if e' = e ∧ i = pdx va ∧ j = ptx va then w else pteOf k e' i j

theorem Remapped.self (h : Remapped e va w k k') (he : e < nenv) (hva : va < utop) :
    pteOf k' e (pdx va) (ptx va) = w :=
  (h e he _ (pdx_lt_pdxUtop hva) _ (ptx_lt va)).trans (if_pos ⟨rfl, rfl, rfl⟩)

theorem sameMaps_of_view (free free' : List Nat) (henv : EnvInv K k) (henv' : EnvInv K k')
    (hview : ∀ s ∈ viewedSlots, (world k' free').view s = (world k free).view s) :
    SameMaps k k' := by
  intro e he i hi j hj
  rw [pteOf_eq_view free' henv' he, pteOf_eq_view free henv he]
  exact hview _ (pte_viewed.mpr ⟨.inl ⟨he, hi⟩, hj⟩)

theorem sameMaps_of_harmless (henv : EnvInv K k) (hk : Harmless k k') : SameMaps k k' :=
  sameMaps_of_view [] [] henv (henv.harmless hk) fun s _ => by
    rw [hk.world_eq]

theorem sameMaps_of_allocated {l : List Nat} (h : Inv K k free)
    (halloc : EnvAllocated K r k free e p l k1) : SameMaps k (forked cur e k1) := by
  have hharm : Harmless k1 (forked cur e k1) := harmless_setEnv rfl rfl (.inl rfl)
  intro e' he' i hi j hj
  rw [pteOf_eq_view l (halloc.inv.env.harmless hharm) he', pteOf_eq_view free h.env he',
    hharm.world_eq]
  exact halloc.change.rest (.pte e' i j) (pte_viewed.mpr ⟨.inl ⟨he', hi⟩, hj⟩) (by simp)
    (.inl (pte_tracked.mpr ⟨he', hi, hj⟩))

theorem remapped_of_edited {b : World} (henv : EnvInv K k)
    (hedit : Edited K e va w (world k free) b) : Remapped e va w k { k with mem := b.mem } := by
  have hb : world { k with mem := b.mem } b.free = b := world_of_root hedit.root
  intro e' he' i hi j hj
  rw [pteOf_eq_view b.free (henv.setMem _) he', hb, pteOf_eq_view free henv he']
  split
  · rename_i hslot
    obtain ⟨rfl, rfl, rfl⟩ := hslot
    exact hedit.entry
  · rename_i hslot
    refine hedit.view_eq (pte_viewed.mpr ⟨.inl ⟨he', hi⟩, hj⟩) (by simp) fun heq => hslot ?_
    simpa using heq

theorem Remapped.sameMaps_left (h : SameMaps k k1) (h' : Remapped e va w k1 k') :
    Remapped e va w k k' := by
  intro e' he' i hi j hj
  rw [h' e' he' i hi j hj, h e' he' i hi j hj]

theorem Remapped.sameMaps_right (h : Remapped e va w k k1) (h' : SameMaps k1 k') :
    Remapped e va w k k' := by
  intro e' he' i hi j hj
  rw [h' e' he' i hi j hj, h e' he' i hi j hj]

section

variable (h : Inv K k free) (hcur : cur < nenv)
include h hcur

theorem sysPageUnmap_maps (hres : sysPageUnmap cur envid va k = .ret r k') : isNeg r ∧ k' = k ∨
    ∃ e, r = 0 ∧ va < utop ∧ e < nenv ∧ envid2env cur envid true k = some e ∧
      Remapped e va 0 k k' ∧ k' = { k with mem := k'.mem } := by
  obtain hfail | ⟨e, b, hr, hva, he, hfound, hedit, rfl⟩ := sysPageUnmap_cases h hcur hres
  · exact .inl hfail
  · exact .inr ⟨e, hr, hva, he, hfound, remapped_of_edited h.env hedit, rfl⟩

theorem sysPageMap_maps {srcenvid srcva dstenvid dstva : Word}
    (hres : sysPageMap cur srcenvid srcva dstenvid dstva perm k = .ret r k') : isNeg r ∧ k' = k ∨
    ∃ src dst p, r = 0 ∧ srcva < utop ∧ dstva < utop ∧ src < nenv ∧ dst < nenv ∧
      ¬ badPerm perm ∧ envid2env cur srcenvid true k = some src ∧
      envid2env cur dstenvid true k = some dst ∧
      frameOf (pteOf k src (pdx srcva) (ptx srcva)) = some p ∧
      Remapped dst dstva (page2pa p ||| perm ||| pteP) k k' ∧ k' = { k with mem := k'.mem } := by
  obtain hfail | ⟨src, dst, p, b, hr, hsrcva, hdstva, hsrc, hdst, hperm, hfoundSrc, hfoundDst, hp,
    hedit, rfl⟩ := sysPageMap_cases h hcur hres
  · exact .inl hfail
  · refine .inr ⟨src, dst, p, hr, hsrcva, hdstva, hsrc, hdst, hperm, hfoundSrc, hfoundDst, ?_,
      remapped_of_edited h.env hedit, rfl⟩
    rw [pteOf_eq_view free h.env hsrc]
    exact hp

theorem sysPageAlloc_maps (hres : sysPageAlloc cur envid va perm k = .ret r k') :
    isNeg r ∧ SameMaps k k' ∧ k' = { k with mem := k'.mem } ∨
    ∃ e p, r = 0 ∧ va < utop ∧ e < nenv ∧ ¬ badPerm perm ∧
      envid2env cur envid true k = some e ∧ k.mem.pageFreeList = some p ∧
      Remapped e va (page2pa p ||| perm ||| pteP) k k' ∧ k' = { k with mem := k'.mem } := by
  have hlist : FreeList k.mem free := h.mem.counted.separated.freeList
  obtain ⟨hr, rfl⟩ | ⟨p, l, m, rfl, -, -, -, rfl, hm, rfl⟩ | ⟨p, rfl, rfl, rfl⟩ |
    ⟨e, p, a, b, hr, hva, he, hperm, hfound, hdet, hroot, hedit, rfl⟩ :=
      sysPageAlloc_cases h hcur hres
  · exact .inl ⟨hr, fun _ _ _ _ _ _ => rfl, rfl⟩
  · refine .inl ⟨by decide, ?_, rfl⟩
    exact sameMaps_of_view (p :: l) l h.env (h.env.setMem m)
      (detached_of_allocated h.mem rfl hm).view
  · refine .inl ⟨by decide, sameMaps_of_view [p] [p] h.env (h.env.setMem _) ?_, rfl⟩
    exact (updatePage_stored h (fun s hs _ => h.mem.counted.unreferenced (by simp [world]) s hs)
      _).view
  · have ha := (world_of_root hroot).symm
    have hsame : SameMaps k { k with mem := a.mem } :=
      sameMaps_of_view free a.free h.env (h.env.setMem _) (ha ▸ hdet.view)
    rw [ha] at hedit
    refine .inr ⟨e, p, hr, hva, he, hperm, hfound, ?_,
      (remapped_of_edited (h.env.setMem _) hedit).sameMaps_left hsame, rfl⟩
    have hchain := hlist.chain
    rw [show free = p :: a.free from hdet.free] at hchain
    exact hchain.1

theorem sysIpcTrySend_maps {value srcva : Word}
    (hres : sysIpcTrySend cur envid value srcva perm k = .ret r k') : isNeg r ∧ k' = k ∨
    ∃ dst, r = 0 ∧ dst < nenv ∧ envid2env cur envid false k = some dst ∧
      (k.envs dst).envIpcRecving = true ∧ (k.envs dst).envIpcFrom = 0 ∧
      ((utop ≤ srcva ∨ (k.envs dst).envIpcDstva = 0) ∧ SameMaps k k' ∧
          k' = ipcDeliver cur dst value 0 k ∨
        ∃ p m, srcva < utop ∧ ¬ badPerm perm ∧ (k.envs dst).envIpcDstva ≠ 0 ∧
          (k.envs dst).envIpcDstva < utop ∧ frameOf (pteOf k cur (pdx srcva) (ptx srcva)) = some p ∧
          (perm &&& pteW ≠ 0 → pteOf k cur (pdx srcva) (ptx srcva) &&& pteW ≠ 0) ∧
          Remapped dst (k.envs dst).envIpcDstva (page2pa p ||| perm ||| pteP) k k' ∧
          k' = ipcDeliver cur dst value perm { k with mem := m }) := by
  obtain hfail | ⟨dst, hr, hdst, hfound, hrecving, hfrom, ⟨hno, rfl⟩ |
    ⟨p, b, hsrcva, hperm, hdstva, hp, hwrite, hedit, rfl⟩⟩ := sysIpcTrySend_cases h hcur hres
  · exact .inl hfail
  · refine .inr ⟨dst, hr, hdst, hfound, hrecving, hfrom, .inl ⟨hno, ?_, rfl⟩⟩
    exact sameMaps_of_harmless h.env (harmless_ipcDeliver cur dst value 0 k)
  · refine .inr ⟨dst, hr, hdst, hfound, hrecving, hfrom, .inr ⟨p, b.mem, hsrcva, hperm, hdstva,
      h.env.dstva dst hdst, ?_, ?_, ?_, rfl⟩⟩
    · rw [pteOf_eq_view free h.env hcur]
      exact hp
    · rw [pteOf_eq_view free h.env hcur]
      exact hwrite
    · exact (remapped_of_edited h.env hedit).sameMaps_right
        (sameMaps_of_harmless (h.env.setMem _) (harmless_ipcDeliver cur dst value perm _))

end

theorem sysPageAlloc_succeeds (h : Inv K k free) (hw : k.mem.wrapped = false)
    (hva : ¬ badVa va) (hperm : ¬ badPerm perm) (hfound : envid2env cur envid true k = some e)
    (he : e < nenv) (hd : (k.envs e).envPgdir = some d) (hroom : 2 ≤ free.length) :
    ∃ p m free', sysPageAlloc cur envid va perm k = .ret 0 { k with mem := m } ∧
      m.wrapped = false ∧ p ∈ free ∧ Inv K { k with mem := m } free' ∧
      Remapped e va (page2pa p ||| perm ||| pteP) k { k with mem := m } ∧
      free.length ≤ free'.length + 2 := by
  obtain ⟨p, a, b, hres, hdet, hroot, hb⟩ := sysPageAlloc_ok h hva hperm hfound he hd hroom
  have hmem : p ∈ (world k free).free := by simp [hdet.free]
  have hzero : ∀ q ∈ (world k free).free, a.ppRef q ≠ 0xFFFF := fun q hq => by
    rw [hdet.ppRef, ppRef_of_free h.mem hq]
    decide
  have hwb : b.mem.wrapped = false := by
    rw [hb.wrapped (hzero p hmem) fun q hq => hzero q (by simp [hdet.free, hq]), hdet.wrapped]
    exact hw
  have ha := (world_of_root hroot).symm
  have hinva : Inv K { k with mem := a.mem } a.free :=
    ⟨ha ▸ h.mem.detach hdet, h.env.setMem _⟩
  have hsame : SameMaps k { k with mem := a.mem } :=
    sameMaps_of_view free a.free h.env (h.env.setMem _) (ha ▸ hdet.view)
  have hroomb := hb.room
  have hlen : free.length = a.free.length + 1 := by
    rw [show free = p :: a.free from hdet.free, List.length_cons]
  rw [ha] at hb
  have hedit := Edited.of_inserted hb
  have hinvb := TrapSpec.Edited.inv hedit hinva he (.inr (isUserEntry_of_perm hperm p)) (.inl hwb)
  refine ⟨p, b.mem, b.free, hres, hwb, hmem, hinvb,
    (remapped_of_edited (k := { k with mem := a.mem }) hinva.env hedit).sameMaps_left hsame, ?_⟩
  split at hroomb <;> omega

theorem FirstRunning.pageAlloc (hk : FirstRunning K k free) (hva : ¬ badVa va)
    (hperm : ¬ badPerm perm) : ∃ d p k' free', (k.envs 0).envPgdir = some d ∧ SafeStep k k' ∧
      Inv K k' free' ∧ Alike { k with mem := k'.mem } k' ∧ (p ∈ free ∧ p < 1048576) ∧
      Remapped 0 va (page2pa p ||| perm ||| pteP) k k' ∧ free.length ≤ free'.length + 2 := by
  obtain ⟨d, hd⟩ := (hk.made 0 (by decide)).pgdir
  have hroom := hk.room
  have h := hk.inv
  obtain ⟨k1, k', hstep, ⟨p, free', hk1, hw1, hmem, hinv1, hmap, hlen⟩, halike⟩ := step_syscall
    (P := fun k1 => ∃ p free', Alike { k with mem := k1.mem } k1 ∧ k1.mem.wrapped = false ∧
      p ∈ free ∧ Inv K k1 free' ∧ Remapped 0 va (page2pa p ||| perm ||| pteP) k k1 ∧
      free.length ≤ free'.length + 2) ⟨0, 0⟩ 4 0 va perm 0 0 (hk.ncpu ▸ (by decide)) hk.curenv
      hk.running fun k0 halike => by
      have hd0 := (halike.harmless.pgdir 0).trans hd
      obtain ⟨p, m, free', hres, hwm, hmem, hinv, hmap, hlen⟩ := sysPageAlloc_succeeds
        (h.harmless halike.harmless) ((congrArg Mem.wrapped halike.mem).trans hk.wrapped) hva
        hperm (show envid2env 0 0 true k0 = some 0 from rfl) (by decide) hd0 (by omega)
      exact ⟨0, _, hres, (halike.curenv 0).trans hk.curenv, (halike.status_eq 0).trans hk.running,
        ⟨d, hd0⟩, p, free', halike.setMem m, hwm, hmem, hinv,
        hmap.sameMaps_left (sameMaps_of_harmless h.env halike.harmless), hlen⟩
  refine ⟨d, p, k', free', hd, ⟨hstep, halike.mem ▸ hw1⟩, hinv1.harmless halike.harmless, ?_,
    ⟨hmem, (K.pool_lt p (h.mem.counted.separated.free_pool p hmem)).trans_le K.npages_le⟩,
    hmap.sameMaps_right (sameMaps_of_harmless hinv1.env halike.harmless), hlen⟩
  rw [halike.mem]
  exact hk1.trans halike

end Mit6828.Kern.UserMap
