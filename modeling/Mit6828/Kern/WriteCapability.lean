import Mit6828.Kern.UserMap

namespace Mit6828.Kern.WriteCapability

open Mmu Pmap Environment Syscall Separation PageTableSpec RefInvariant KernelInvariant PageCallSpec
open TrapSpec UserMap Boot BootSpec Execution

/-- Some environment has page `p` mapped below `UTOP` with `PTE_W`. -/
def Writable (k : Kernel) (p : Nat) : Prop :=
  ∃ e < nenv, ∃ i < pdxUtop, ∃ j < nptentries,
    frameOf (pteOf k e i j) = some p ∧ pteOf k e i j &&& pteW ≠ 0

def MapsPages : Call → Prop
  | .pageAlloc _ _ _ => True
  | .pageMap _ _ _ _ _ => True
  | .pageUnmap _ _ => True
  | .ipcTrySend _ _ _ _ => True
  | _ => False

structure PageCall (k : Kernel) (cur : Nat) (call : Call) (r : Word) (k' : Kernel) : Prop where
  kind : MapsPages call
  caller : cur < nenv
  result : ∃ c hw, (exec c cur hw (k.setCurenv c (some cur)) call).2 = .ret r k'

/-- The page that a `sys_page_alloc` takes is the first one of the free list. -/
def Takes (k : Kernel) (p : Nat) : Call → Prop
  | .pageAlloc _ _ _ => k.mem.pageFreeList = some p
  | _ => False

/-- The arguments and the state before the call for which `sys_page_map` maps page `p`. -/
def Mappable (k : Kernel) (cur : Nat) (srcenvid srcva dstenvid dstva perm : Word) (p : Nat) :
    Prop :=
  (¬ badVa srcva ∧ ¬ badVa dstva ∧ ¬ badPerm perm) ∧
    (∃ src, envid2env cur srcenvid true k = some src ∧
      frameOf (pteOf k src (pdx srcva) (ptx srcva)) = some p) ∧
    ∃ dst, envid2env cur dstenvid true k = some dst ∧ (k.envs dst).envPgdir ≠ none ∧
      (k.mem.pageFreeList = none → frameOf (pdeOf k dst (pdx dstva)) ≠ none)

/-- A `sys_page_map` that grants `PTE_W` for a page that nobody may write. -/
def Escalates (k : Kernel) (cur : Nat) : Call → Prop
  | .pageMap srcenvid srcva dstenvid dstva perm => perm &&& pteW ≠ 0 ∧
      ∃ p, Mappable k cur srcenvid srcva dstenvid dstva perm p ∧ ¬ Writable k p
  | _ => False

variable {h : Machine} {K : KernelMap} {k k' : Kernel} {free : List Nat} {cur e p : Nat}
  {r va w perm srcenvid srcva dstenvid dstva : Word} {call : Call}

theorem ret_zero_of_mappable (hinv : Inv K k free) (hcur : cur < nenv)
    (hmap : Mappable k cur srcenvid srcva dstenvid dstva perm p) :
    ∃ k', sysPageMap cur srcenvid srcva dstenvid dstva perm k = .ret 0 k' := by
  obtain ⟨⟨hsrcva, hdstva, hperm⟩, ⟨src, hsrc, hp⟩, dst, hdst, hdir, hroom⟩ := hmap
  have hsrcLt := envid2env_lt hcur hsrc
  have hdstLt := envid2env_lt hcur hdst
  obtain ⟨sd, hsd⟩ := Option.ne_none_iff_exists'.mp fun hnone : (k.envs src).envPgdir = none => by
    simp only [pteOf, pdeOf, hnone, frameOf_zero, reduceCtorEq] at hp
  obtain ⟨dd, hdd⟩ := Option.ne_none_iff_exists'.mp hdir
  rw [pteOf_eq_view free hinv.env hsrcLt] at hp
  rw [pdeOf_eq_view free hinv.env hdstLt] at hroom
  obtain ⟨b, hres, -⟩ := sysPageMap_ok hinv hsrcva hdstva hperm hsrc hdst hsrcLt hdstLt
    hsd hdd hp (or_iff_not_imp_left.mpr fun hnil => hroom (by
      have hchain := hinv.mem.counted.separated.freeList.chain
      rwa [show (world k free).free = [] from not_not.mp hnil] at hchain))
  exact ⟨_, hres⟩

theorem mappable_of_ret_zero (hinv : Inv K k free) (hcur : cur < nenv)
    (hres : sysPageMap cur srcenvid srcva dstenvid dstva perm k = .ret 0 k') :
    ∃ p, Mappable k cur srcenvid srcva dstenvid dstva perm p := by
  obtain ⟨hneg, -⟩ | ⟨src, dst, sd, dd, q, pte, ret, m, hsrcva, hdstva, hperm, hsrc, hdst, -, hdd,
    -, hinsert, hr, -⟩ := sysPageMap_eq_ret hres
  · exact absurd hneg (by decide)
  obtain ⟨hneg, -⟩ | ⟨src', -, p, -, -, -, -, -, -, hsrc', -, hp, -⟩ :=
    sysPageMap_maps hinv hcur hres
  · exact absurd hneg (by decide)
  refine ⟨p, ⟨hsrcva, hdstva, hperm⟩, ⟨src', hsrc', hp⟩, dst, hdst, by simp [hdd],
    fun hnil hpde => ?_⟩
  have hsep := hinv.mem.counted.separated
  have hdstLt := envid2env_lt hcur hdst
  have hchain := hsep.freeList.chain
  rw [show (world k free).mem.pageFreeList = none from hnil] at hchain
  rw [pdeOf_eq_view free hinv.env hdstLt] at hpde
  have hfail := pageInsert_noMem q perm hsep
    (walkable_of_env free hinv.env hdstLt hdd (lt_utop_of_not_badVa hdstva)) hpde
    (Library.IntrusiveList.chain_none hchain)
  rw [show (world k free).mem = k.mem from rfl, hinsert] at hfail
  cases hfail
  exact absurd hr (by decide)

theorem writable_of_sameMaps (hsame : SameMaps k k') (hp : Writable k' p) : Writable k p := by
  obtain ⟨e, he, i, hi, j, hj, href, hW⟩ := hp
  rw [hsame e he i hi j hj] at href hW
  exact ⟨e, he, i, hi, j, hj, href, hW⟩

theorem writable_of_remapped (hmap : Remapped e va w k k') (hp : Writable k' p) :
    Writable k p ∨ frameOf w = some p ∧ w &&& pteW ≠ 0 := by
  obtain ⟨e', he', i, hi, j, hj, href, hW⟩ := hp
  rw [hmap e' he' i hi j hj] at href hW
  split at href
  · rename_i hslot
    rw [if_pos hslot] at hW
    exact .inr ⟨href, hW⟩
  · rename_i hslot
    rw [if_neg hslot] at hW
    exact .inl ⟨e', he', i, hi, j, hj, href, hW⟩

theorem Remapped.writable (hmap : Remapped e va w k k') (he : e < nenv) (hva : va < utop)
    (hp : frameOf w = some p) (hW : w &&& pteW ≠ 0) : Writable k' p := by
  have hentry := hmap.self he hva
  exact ⟨e, he, pdx va, pdx_lt_pdxUtop hva, ptx va, ptx_lt va, hentry ▸ hp, hentry ▸ hW⟩

theorem entry_pteW (p : Nat) (perm : Word) :
    (page2pa p ||| perm ||| pteP) &&& pteW ≠ 0 ↔ perm &&& pteW ≠ 0 := by
  rw [ne_eq, or_and_eq_zero_iff, or_and_eq_zero_iff, not_iff_not]
  exact ⟨fun hzero => hzero.1.2,
    fun hzero => ⟨⟨page2pa_and_eq_zero (by decide) p, hzero⟩, by decide⟩⟩

theorem writable_of_insert {q : Nat} (hmap : Remapped e va (page2pa q ||| perm ||| pteP) k k')
    (hq : q < 1048576) (hperm : ¬ badPerm perm) (hp : Writable k' p) :
    Writable k p ∨ p = q ∧ perm &&& pteW ≠ 0 := by
  obtain hold | ⟨href, hW⟩ := writable_of_remapped hmap hp
  · exact .inl hold
  · rw [frameOf_entry hq (perm_of_not_badPerm hperm).2.2] at href
    exact .inr ⟨(Option.some.inj href).symm, (entry_pteW q perm).mp hW⟩

theorem pageCall_writable_iff (hinv : Inv K k free) (hcall : PageCall k cur call r k') :
    (∀ p, Writable k' p → Writable k p ∨ Takes k p call) ↔ ¬ Escalates k cur call := by
  obtain ⟨hkind, hlt, c, hw, hres⟩ := hcall
  have hinv0 : Inv K (k.setCurenv c (some cur)) free := hinv.harmless
    (harmless_setCurenv k c _ fun e he => Option.some.inj he ▸ hlt)
  cases call with
  | pageAlloc envid va perm =>
    refine iff_of_true (fun p hp => ?_) id
    obtain ⟨-, hsame, -⟩ | ⟨e, q, -, -, -, hperm, -, hhead, hmap, -⟩ :=
      sysPageAlloc_maps hinv0 hlt hres
    · exact .inl (writable_of_sameMaps hsame hp)
    have hlist := hinv.mem.counted.separated.freeList.chain
    rw [show (world k free).mem.pageFreeList = some q from hhead] at hlist
    obtain ⟨l, hfree, -⟩ := Mit6828.Library.IntrusiveList.chain_some hlist
    have hq : q < 1048576 := (K.pool_lt q (hinv.mem.counted.separated.free_pool q
      (hfree ▸ List.mem_cons_self))).trans_le K.npages_le
    refine (writable_of_insert hmap hq hperm hp).imp id fun hnew => ?_
    rw [hnew.1]
    exact hhead
  | pageMap srcenvid srcva dstenvid dstva perm =>
    obtain ⟨hr, rfl⟩ | ⟨src, dst, q, rfl, -, hdstva, -, hdst, hperm, hsrc, -, hq, hmap, -⟩ :=
      sysPageMap_maps hinv0 hlt hres
    · refine iff_of_true (fun p hp => .inl hp) ?_
      rintro ⟨-, p, hmap, -⟩
      obtain ⟨k', hok⟩ := ret_zero_of_mappable hinv0 hlt hmap
      cases hok.symm.trans hres
      exact absurd hr (by decide)
    constructor
    · rintro hall ⟨hW, p, ⟨-, ⟨src', hsrc', hp⟩, -⟩, hnot⟩
      obtain rfl := Option.mem_unique hsrc hsrc'
      obtain rfl := Option.mem_unique hq hp
      refine (hall q ?_).elim hnot id
      exact Remapped.writable hmap hdst hdstva (frameOf_entry (frameOf_lt hq)
        (perm_of_not_badPerm hperm).2.2) ((entry_pteW q perm).mpr hW)
    · intro hesc p hp
      obtain hold | ⟨rfl, hW⟩ := writable_of_insert hmap (frameOf_lt hq) hperm hp
      · exact .inl hold
      obtain ⟨q, hok⟩ := mappable_of_ret_zero hinv0 hlt hres
      obtain ⟨-, ⟨src', hsrc', hp'⟩, -⟩ := id hok
      obtain rfl := Option.mem_unique hsrc hsrc'
      obtain rfl := Option.mem_unique hq hp'
      exact .inl (by_contra fun hnot => hesc ⟨hW, p, hok, hnot⟩)
  | pageUnmap envid va =>
    refine iff_of_true (fun p hp => .inl ?_) id
    obtain ⟨-, rfl⟩ | ⟨e, -, -, -, -, hmap, -⟩ := sysPageUnmap_maps hinv0 hlt hres
    · exact hp
    · refine (writable_of_remapped hmap hp).resolve_right fun hnew => ?_
      exact absurd (frameOf_zero.symm.trans hnew.1) (by simp)
  | ipcTrySend envid value srcva perm =>
    refine iff_of_true (fun p hp => .inl ?_) id
    obtain ⟨-, rfl⟩ | ⟨dst, -, -, -, -, -, ⟨-, hsame, -⟩ |
      ⟨q, m, hsrcva, hperm, -, -, hq, hsrcW, hmap, -⟩⟩ := sysIpcTrySend_maps hinv0 hlt hres
    · exact hp
    · exact writable_of_sameMaps hsame hp
    · obtain hold | ⟨rfl, hW⟩ := writable_of_insert hmap (frameOf_lt hq) hperm hp
      · exact hold
      · exact ⟨cur, hlt, pdx srcva, pdx_lt_pdxUtop hsrcva, ptx srcva, ptx_lt srcva, hq, hsrcW hW⟩
  | cputs | cgetc | getenvid | envDestroy | exofork | envSetStatus | envSetTrapframe
  | envSetPgfaultUpcall | yield | ipcRecv | timeMsec | pktTrySend | pktTryRecv | invalid =>
    exact hkind.elim

/-- A call that does not escalate, does not take `p` from the free list and wraps no reference
count. -/
def SafeCall (p : Nat) (k k' : Kernel) : Prop :=
  ∃ cur call r, PageCall k cur call r k' ∧ ¬ Escalates k cur call ∧ ¬ Takes k p call ∧
    k'.mem.wrapped = false

theorem safeCalls_writable (hinv : Inv K k free) (hw : k.mem.wrapped = false)
    (hrun : Relation.ReflTransGen (SafeCall p) k k') :
    (∃ free', Inv K k' free') ∧ k'.mem.wrapped = false ∧ (Writable k' p → Writable k p) := by
  induction hrun with
  | refl => exact ⟨⟨free, hinv⟩, hw, id⟩
  | tail _ hstep ih =>
    obtain ⟨⟨free1, hinv1⟩, hw1, hback⟩ := ih
    obtain ⟨cur, call, r, hcall, hesc, htake, hw'⟩ := hstep
    obtain ⟨c, hw0, hres⟩ := hcall.result
    have hends := kept_exec (hinv1.harmless (harmless_setCurenv _ c _
      fun e he => Option.some.inj he ▸ hcall.caller)) hw0 hw1 Kernel.setCurenv_curenv_self call
    rw [hres] at hends
    refine ⟨hends hw', hw', fun hp => hback ?_⟩
    exact ((pageCall_writable_iff hinv1 hcall).mpr hesc p hp).resolve_right htake

/-- The sharing calls make no page writable that was not, and no run of them does, as long as
no `sys_page_map` grants `PTE_W` for a page that nobody may write. -/
theorem pageCalls_spread_no_writes (hk : Reachable h NoWrap k) :
    (∀ cur call r k', PageCall k cur call r k' →
      ((∀ p, Writable k' p → Writable k p ∨ Takes k p call) ↔ ¬ Escalates k cur call)) ∧
    ∀ p k', Relation.ReflTransGen (SafeCall p) k k' → Writable k' p → Writable k p := by
  obtain ⟨K, free, hinv, -, hw⟩ := reachable_inv hk
  exact ⟨fun _ _ _ _ hcall => pageCall_writable_iff hinv hcall,
    fun _ _ hrun => (safeCalls_writable hinv hw hrun).2.2⟩

theorem pageCalls_spread_no_writes_small : ∃ k, i386Init smallMachine = some k ∧
    ∀ p k', Relation.ReflTransGen (SafeCall p) k k' → Writable k' p → Writable k p := by
  obtain ⟨k, K, free, hk, -⟩ := smallMachine_boots
  exact ⟨k, hk, (pageCalls_spread_no_writes (.boot hk)).2⟩

/-- An environment that has a page read-only maps it once more, with `PTE_W`. -/
theorem pageMap_makes_readonly_page_writable : ∃ k k' p, Reachable smallMachine SafeStep k ∧
    k.curenv 0 = some 0 ∧ PageCall k 0 (.pageMap 0 4096 0 4096 7) 0 k' ∧ Writable k' p ∧
      ¬ Writable k p := by
  obtain ⟨K, k0, free0, hk0⟩ := smallMachine_runs
  have hroom := hk0.room
  obtain ⟨d, p, k, free, hd, hstep, hinv, halike, ⟨hfree, hp⟩, hmap, hlen⟩ :=
    FirstRunning.pageAlloc hk0 (show ¬ badVa 4096 by decide) (show ¬ badPerm 5 by decide)
  have hnot : ¬ Writable k p := fun hp' => by
    obtain ⟨e, he, i, hi, j, hj, href, -⟩ | ⟨-, hW⟩ :=
      writable_of_insert hmap hp (by decide) hp'
    · rw [pteOf_eq_view free0 hk0.inv.env he] at href
      exact hk0.inv.mem.counted.unreferenced (show p ∈ (world k0 free0).free from hfree)
        (.pte e i j) (pte_tracked.mpr ⟨he, hi, hj⟩) href
    · exact hW (by decide)
  have hentry : frameOf (pteOf k 0 (pdx 4096) (ptx 4096)) = some p := by
    rw [hmap.self (by decide) (by decide)]
    exact frameOf_entry hp (by decide)
  have hcur : k.curenv 0 = some 0 := (halike.curenv 0).trans hk0.curenv
  have hd' : (k.envs 0).envPgdir = some d := (halike.harmless.pgdir 0).trans hd
  have hself : k.setCurenv 0 (some 0) = k := by
    rw [Kernel.setCurenv, ← hcur, Kernel.curenv, Function.update_eq_self]
  have hok : Mappable k 0 0 4096 0 4096 7 p :=
    ⟨by decide, ⟨0, rfl, hentry⟩, 0, rfl, by simp [hd'], fun _ hpde => by
      simp only [pteOf, hpde, frameOf_zero, reduceCtorEq] at hentry⟩
  obtain ⟨k', hres⟩ := ret_zero_of_mappable hinv (by decide) hok
  have hcall : PageCall k 0 (.pageMap 0 4096 0 4096 7) 0 k' :=
    ⟨trivial, by decide, 0, ⟨0, 0⟩, by rw [hself]; exact hres⟩
  have hbad := mt (pageCall_writable_iff hinv hcall).mp
    (not_not.mpr ⟨by decide, p, hok, hnot⟩)
  push Not at hbad
  obtain ⟨q, hq, hnot', -⟩ := hbad
  exact ⟨k, _, q, hk0.reach.step hstep, hcur, hcall, hq, hnot'⟩

end Mit6828.Kern.WriteCapability
