import Mit6828.Kern.DirectorySpec
import Mit6828.Kern.Syscall

namespace Mit6828.Kern.PageCallSpec

open Mmu Pmap PageAllocator Environment Syscall Separation PageTableSpec RefInvariant
open KernelInvariant

variable {K : KernelMap} {a b : World} {k k' : Kernel} {free : List Nat} {cur e d p pp : Nat}
  {envid va perm w r dstenvid dstva srcenvid srcva : Word}

structure Edited (K : KernelMap) (e : Nat) (va w : Word) (a b : World) : Prop where
  run : Run K.layout (InsertStep e va w (a.ref (pteSlot e va) = none)) a b
  root : b.root = a.root
  room : a.free.length ≤ b.free.length + if a.ref (pdeSlot e va) = none then 1 else 0
  entry : b.view (pteSlot e va) = w

theorem Edited.of_inserted (h : Inserted K.layout e d pp va perm a b) :
    Edited K e va (page2pa pp ||| perm ||| pteP) a b :=
  ⟨h.run.mono fun _ _ _ hstep => hstep.1, h.root, h.room, h.entry⟩

theorem Edited.view_eq (h : Edited K e va w a b) {t : Slot} (ht : t ∈ viewedSlots)
    (hpde : t ≠ pdeSlot e va) (hpte : t ≠ pteSlot e va) : b.view t = a.view t := by
  refine h.run.view_eq ht fun x s y hstep => ?_
  rcases hstep.slot with ⟨rfl, -⟩ | ⟨rfl, -⟩
  · exact ⟨hpde, .inr (by simp)⟩
  · exact ⟨hpte, .inr (by simp)⟩

theorem insertStep_userStep {empty : Prop} {s : Slot} (h : InsertStep e va w empty a s b)
    (he : e < nenv) (hw : w = 0 ∨ IsUserEntry w) : UserStep a s b := by
  rcases h.slot with ⟨rfl, -, hentry⟩ | ⟨rfl, hzero | hentry⟩
  · exact ⟨he, .inr hentry⟩
  · exact .inl hzero
  · rcases hw with hw | hw
    · exact .inl (hentry.trans hw)
    · exact .inr (hentry.symm ▸ hw)

theorem Edited.memInv (h : Edited K e va w a b) (ha : MemInv K a) (he : e < nenv)
    (hw : w = 0 ∨ IsUserEntry w)
    (hsafe : b.mem.wrapped = false ∨ a.ref (pteSlot e va) = none) : MemInv K b := by
  refine ha.run h.run (fun _ _ _ hstep => insertStep_userStep hstep he hw) ?_
  exact hsafe.imp_right fun hempty _ _ _ hstep => hstep.empty hempty

theorem lt_utop_of_not_badVa (h : ¬ badVa va) : va < utop := (not_badVa_iff.mp h).1

theorem perm_of_not_badPerm (h : ¬ badPerm perm) :
    perm &&& pteU ≠ 0 ∧ perm &&& pteP ≠ 0 ∧ perm.toNat < 4096 := by
  rw [badPerm, not_or, not_or, not_not] at h
  exact ⟨h.1, h.2.1, toNat_lt_of_pteSyscall h.2.2⟩

theorem isUserEntry_of_perm (h : ¬ badPerm perm) (p : Nat) :
    IsUserEntry (page2pa p ||| perm ||| pteP) := by
  obtain ⟨hU, -, -⟩ := perm_of_not_badPerm h
  refine ⟨and_ne_zero_of_getLsbD 0 (by simp [pteP]) rfl, fun hzero => hU ?_⟩
  exact (or_and_eq_zero_iff.mp (or_and_eq_zero_iff.mp hzero).1).2

theorem envid2env_lt {checkperm : Bool} (hcur : cur < nenv)
    (h : envid2env cur envid checkperm k = some e) : e < nenv := by
  rcases envid2env_cases h with ⟨-, rfl⟩ | ⟨-, rfl, -⟩
  · exact hcur
  · rw [envx, BitVec.toNat_and]
    exact lt_of_le_of_lt Nat.and_le_right (by decide)

section

variable (hx : envx envid = e) (hne : envid ≠ 0) (hstatus : (k.envs e).envStatus ≠ .free)
  (hid : (k.envs e).envId = envid)
include hx hne hstatus hid

theorem envid2env_child (hparent : (k.envs e).envParentId = (k.envs cur).envId) (checkperm : Bool) :
    envid2env cur envid checkperm k = some e := by
  subst hx
  rw [envid2env, if_neg hne]
  simp [hstatus, hid, hparent]

theorem envid2env_live : envid2env cur envid false k = some e := by
  subst hx
  rw [envid2env, if_neg hne]
  simp [hstatus, hid]

end

theorem envid2env_free (hne : envid ≠ 0) (hfree : (k.envs (envx envid)).envStatus = .free)
    (checkperm : Bool) : envid2env cur envid checkperm k = none := by
  rw [envid2env, if_neg hne]
  simp [hfree]

theorem frameOf_rootOf (h : EnvInv K k) (he : e < nenv) (hd : (k.envs e).envPgdir = some d) :
    frameOf (rootOf k e) = some d := by
  rw [rootOf, if_pos he, hd]
  exact frameOf_rootWord (lt_of_lt_of_le (h.pgdir_lt e he d hd) K.npages_le)

theorem walkable_of_env (free : List Nat) (h : EnvInv K k) (he : e < nenv)
    (hd : (k.envs e).envPgdir = some d) (hva : va < utop) :
    Walkable K.layout (world k free) e d va where
  root := frameOf_rootOf h he hd
  tracked := pte_tracked.mpr ⟨he, pdx_lt_pdxUtop hva, ptx_lt va⟩
  unpinned := ⟨by simp [KernelMap.layout], by simp [KernelMap.layout]⟩

theorem insertable_of_mapped (h : MemInv K a) {i j : Nat}
    (hs : (.pte e i j : Slot) ∈ K.layout.tracked) (hp : a.ref (.pte e i j) = some p) :
    Insertable K.layout a p where
  pool := h.counted.separated.ref_pool _ hs (by simp [KernelMap.layout]) p hp
  notFree hmem := h.counted.unreferenced hmem _ hs hp
  notTable s hs' htable hp' := by
    have := h.counted.separated.exclusive s hs' htable _ hs p hp' hp
    subst this
    exact htable

theorem sysPageUnmap_eq_ret (hres : sysPageUnmap cur envid va k = .ret r k') : isNeg r ∧ k' = k ∨
    ∃ e d m, r = 0 ∧ ¬ badVa va ∧ envid2env cur envid true k = some e ∧
      (k.envs e).envPgdir = some d ∧ pageRemove d va k.mem = some m ∧ k' = { k with mem := m } := by
  unfold sysPageUnmap at hres
  repeat' split at hres
  all_goals first
    | cases hres; exact .inl ⟨by decide, rfl⟩
    | cases hres; exact .inr ⟨_, _, _, rfl, ‹_›, ‹_›, ‹_›, ‹_›, rfl⟩
    | cases hres

theorem sysPageUnmap_cases (h : Inv K k free) (hcur : cur < nenv)
    (hres : sysPageUnmap cur envid va k = .ret r k') :
    isNeg r ∧ k' = k ∨
    ∃ e b, r = 0 ∧ va < utop ∧ e < nenv ∧ envid2env cur envid true k = some e ∧
      Edited K e va 0 (world k free) b ∧ k' = { k with mem := b.mem } := by
  obtain hfail | ⟨e, d, m, rfl, hbad, he, hd, hremove, rfl⟩ := sysPageUnmap_eq_ret hres
  · exact .inl hfail
  have hva := lt_utop_of_not_badVa hbad
  have hlt := envid2env_lt hcur he
  have hw := walkable_of_env free h.env hlt hd hva
  have hsep := h.mem.counted.separated
  rw [show k.mem = (world k free).mem from rfl] at hremove
  cases hp : (world k free).ref (pteSlot e va) with
  | none =>
    cases (pageRemove_absent hsep hw hp).symm.trans hremove
    refine .inr ⟨e, world k free, rfl, hva, hlt, he, ⟨.refl, rfl, Nat.le_add_right _ _, ?_⟩, rfl⟩
    rcases h.mem.shaped.pte e hlt _ (pdx_lt_pdxUtop hva) _ (ptx_lt va) with hz | huser
    · exact hz
    · exact absurd (frameOf_eq_none.mp hp) huser.1
  | some p =>
    obtain ⟨b, hremove', hroot, hroom, hchange, hzero⟩ := pageRemove_present hsep hw hp
      (fun hmem => h.mem.counted.unreferenced hmem _ hw.tracked hp)
    cases hremove'.symm.trans hremove
    refine .inr ⟨e, b, rfl, hva, hlt, he, ⟨.single hchange ⟨.inr ⟨rfl, .inl hzero⟩, ?_⟩,
      hroot, hroom.trans (Nat.le_add_right _ _), hzero⟩, rfl⟩
    exact fun hnone => absurd (hp.symm.trans hnone) (by simp)

theorem sysPageUnmap_ok (h : Inv K k free) (hva : ¬ badVa va)
    (he : envid2env cur envid true k = some e) (hlt : e < nenv)
    (hd : (k.envs e).envPgdir = some d) (hp : (world k free).ref (pteSlot e va) = some p) :
    ∃ b, sysPageUnmap cur envid va k = .ret 0 { k with mem := b.mem } ∧ b.root = rootOf k ∧
      Change K.layout (pteSlot e va) (world k free) b ∧ b.view (pteSlot e va) = 0 := by
  have hw := walkable_of_env free h.env hlt hd (lt_utop_of_not_badVa hva)
  obtain ⟨b, hremove, hroot, -, hchange, hzero⟩ := pageRemove_present h.mem.counted.separated hw hp
    fun hmem => h.mem.counted.unreferenced hmem _ hw.tracked hp
  refine ⟨b, ?_, hroot, hchange, hzero⟩
  have hremove : pageRemove d va k.mem = some b.mem := hremove
  rw [sysPageUnmap, if_neg hva, he]
  simp only [hd, hremove]

theorem pageInsert_cases (h : MemInv K a) (hw : Walkable K.layout a e d va)
    (hpp : Insertable K.layout a pp) (hperm : ¬ badPerm perm) :
    (a.free = [] ∧ pageInsert d pp va perm a.mem = some (-eNoMem, a.mem)) ∨
    ∃ b, pageInsert d pp va perm a.mem = some (0, b.mem) ∧
      Edited K e va (page2pa pp ||| perm ||| pteP) a b := by
  obtain ⟨hnil, -, hres⟩ | ⟨b, hb⟩ := pageInsert_spec h.counted.separated hw hpp
    (perm_of_not_badPerm hperm).2.2 fun p hp => h.counted.unreferenced hp
  · exact .inl ⟨hnil, hres⟩
  · exact .inr ⟨b, hb.result, .of_inserted hb⟩

theorem sysPageMap_eq_ret (hres : sysPageMap cur srcenvid srcva dstenvid dstva perm k = .ret r k') :
    isNeg r ∧ k' = k ∨ ∃ src dst sd dd p pte ret m, ¬ badVa srcva ∧ ¬ badVa dstva ∧ ¬ badPerm perm ∧
      envid2env cur srcenvid true k = some src ∧ envid2env cur dstenvid true k = some dst ∧
      (k.envs src).envPgdir = some sd ∧ (k.envs dst).envPgdir = some dd ∧
      pageLookup sd srcva k.mem = some (some (p, pte)) ∧
      pageInsert dd p dstva perm k.mem = some (ret, m) ∧
      r = (if isNeg ret then -eNoMem else 0) ∧ k' = { k with mem := m } := by
  unfold sysPageMap at hres
  repeat' split at hres
  all_goals first
    | cases hres; exact .inl ⟨by decide, rfl⟩
    | cases hres
      rename_i hbad hperm _ _ hsrc _ _ hdst _ _ hsd _ _ _ hlookup _ _ hdd _ _ _ hinsert hneg
      rw [not_or] at hbad
      refine .inr ⟨_, _, _, _, _, _, _, _, hbad.1, hbad.2, hperm, hsrc, hdst, hsd, hdd, hlookup,
        hinsert, ?_, rfl⟩
      simp only [hneg, if_true, if_false]
    | cases hres

theorem sysPageMap_cases (h : Inv K k free) (hcur : cur < nenv)
    (hres : sysPageMap cur srcenvid srcva dstenvid dstva perm k = .ret r k') : isNeg r ∧ k' = k ∨
    ∃ src dst p b, r = 0 ∧ srcva < utop ∧ dstva < utop ∧ src < nenv ∧ dst < nenv ∧
      ¬ badPerm perm ∧ envid2env cur srcenvid true k = some src ∧
      envid2env cur dstenvid true k = some dst ∧ (world k free).ref (pteSlot src srcva) = some p ∧
      Edited K dst dstva (page2pa p ||| perm ||| pteP) (world k free) b ∧
      k' = { k with mem := b.mem } := by
  obtain hfail | ⟨src, dst, sd, dd, p, pte, ret, m, hbad, hbad', hperm, hsrc, hdst, hsd, hdd,
    hlookup, hinsert, rfl, rfl⟩ := sysPageMap_eq_ret hres
  · exact .inl hfail
  have hsrcva := lt_utop_of_not_badVa hbad
  have hdstva := lt_utop_of_not_badVa hbad'
  have hsrcLt := envid2env_lt hcur hsrc
  have hdstLt := envid2env_lt hcur hdst
  have hsw := walkable_of_env free h.env hsrcLt hsd hsrcva
  have hdw := walkable_of_env free h.env hdstLt hdd hdstva
  rw [show k.mem = (world k free).mem from rfl] at hlookup hinsert
  obtain ⟨-, hlookup'⟩ | ⟨p', t, hp, -, hlookup'⟩ := pageLookup_spec h.mem.counted.separated hsw <;>
    cases hlookup'.symm.trans hlookup
  obtain ⟨-, hinsert'⟩ | ⟨b, hinsert', hedit⟩ := pageInsert_cases h.mem hdw
    (insertable_of_mapped h.mem hsw.tracked hp) hperm <;> cases hinsert'.symm.trans hinsert
  · exact .inl ⟨by decide, rfl⟩
  · exact .inr ⟨src, dst, p, b, rfl, hsrcva, hdstva, hsrcLt, hdstLt, hperm, hsrc, hdst, hp, hedit,
      rfl⟩

theorem insertable_of_detached (h : MemInv K a) (hd : Detached K.layout a p b) :
    Insertable K.layout b p where
  pool := h.counted.separated.free_pool p (by simp [hd.free])
  notFree := by
    have hnodup := h.counted.separated.freeList.nodup
    rw [hd.free] at hnodup
    exact (List.nodup_cons.mp hnodup).1
  notTable s hs _ hp := by
    rw [ref_eq, hd.view s (K.layout.tracked_subset hs)] at hp
    exact h.counted.unreferenced (by simp [hd.free]) s hs hp

theorem ppRef_of_free (h : MemInv K a) (hp : p ∈ a.free) : a.ppRef p = 0 := by
  rw [h.counted.count p (h.counted.separated.free_pool p hp), h.counted.free_unref p hp]
  rfl

/-- `sys_page_alloc` refuses; or, with a bad `envid`, has already taken a page, which is
lost; or finds no page for a page table and gives the page back; or maps a fresh page. -/
theorem sysPageAlloc_cases (h : Inv K k free) (hcur : cur < nenv)
    (hres : sysPageAlloc cur envid va perm k = .ret r k') :
    isNeg r ∧ k' = k ∨
    (∃ p l m, r = -eBadEnv ∧ ¬ badVa va ∧ ¬ badPerm perm ∧
      envid2env cur envid true k = none ∧ free = p :: l ∧ Allocated true k.mem p l m ∧
      k' = { k with mem := m }) ∨
    (∃ p, r = -eNoMem ∧ free = [p] ∧ k' = { k with mem := k.mem.zeroPage p }) ∨
    ∃ e p c b, r = 0 ∧ va < utop ∧ e < nenv ∧ ¬ badPerm perm ∧
      envid2env cur envid true k = some e ∧ Detached K.layout (world k free) p c ∧
      c.root = rootOf k ∧ Edited K e va (page2pa p ||| perm ||| pteP) c b ∧
      k' = { k with mem := b.mem } := by
  have hl : FreeList k.mem free := h.mem.counted.separated.freeList
  rw [sysPageAlloc] at hres
  split at hres
  · cases hres
    exact .inl ⟨by decide, rfl⟩
  rename_i hbadVa
  have hva := lt_utop_of_not_badVa hbadVa
  split at hres
  · cases hres
    exact .inl ⟨by decide, rfl⟩
  rename_i hperm
  cases free with
  | nil =>
    rw [pageAlloc_nil hl] at hres
    cases hres
    exact .inl ⟨by decide, rfl⟩
  | cons p l =>
    obtain ⟨m, hm⟩ := pageAlloc_cons hl true
    have hdet := detached_of_allocated h.mem (show (world k (p :: l)).free = p :: l from rfl)
      hm
    rw [hm.result] at hres
    simp only at hres
    rw [show envid2env cur envid true { k with mem := m } = envid2env cur envid true k from
      rfl] at hres
    split at hres
    · rename_i hnone
      cases hres
      exact .inr (.inl ⟨p, l, m, rfl, hbadVa, hperm, hnone, rfl, hm, rfl⟩)
    rename_i e he
    have hlt := envid2env_lt hcur he
    split at hres
    · cases hres
    rename_i d hd
    have hw := walkable_of_env l (h.env.setMem m) hlt hd hva
    have hinv : MemInv K (world { k with mem := m } l) := h.mem.detach hdet
    obtain ⟨hnil, hinsert⟩ | ⟨b, hinsert, hedit⟩ := pageInsert_cases hinv hw
      (insertable_of_detached h.mem hdet) hperm
    · obtain rfl : l = [] := hnil
      have hback := pageFree_pageAlloc hl (ppRef_of_free h.mem (by simp [world]))
      rw [hm.result] at hback
      rw [show m = (world { k with mem := m } []).mem from rfl, hinsert] at hres
      simp only [if_pos (show isNeg (-eNoMem) by decide)] at hres
      rw [show (world { k with mem := m } []).mem = m from rfl, hback] at hres
      cases hres
      exact .inr (.inr (.inl ⟨p, rfl, rfl, rfl⟩))
    · rw [show m = (world { k with mem := m } l).mem from rfl, hinsert] at hres
      simp only [if_neg (show ¬ isNeg 0 by decide)] at hres
      cases hres
      exact .inr (.inr (.inr ⟨e, p, _, b, rfl, hva, hlt, hperm, he, hdet, rfl, hedit, rfl⟩))

theorem sysPageAlloc_ok (h : Inv K k free) (hva : ¬ badVa va) (hperm : ¬ badPerm perm)
    (he : envid2env cur envid true k = some e) (hlt : e < nenv)
    (hd : (k.envs e).envPgdir = some d) (hroom : 2 ≤ free.length) :
    ∃ p c b, sysPageAlloc cur envid va perm k = .ret 0 { k with mem := b.mem } ∧
      Detached K.layout (world k free) p c ∧ c.root = rootOf k ∧
      Inserted K.layout e d p va perm c b := by
  have hl : FreeList k.mem free := h.mem.counted.separated.freeList
  cases free with
  | nil => exact absurd hroom (by simp)
  | cons p l =>
    obtain ⟨m, hm⟩ := pageAlloc_cons hl true
    have hdet := detached_of_allocated h.mem (show (world k (p :: l)).free = p :: l from rfl) hm
    have hw := walkable_of_env l (h.env.setMem m) hlt hd (lt_utop_of_not_badVa hva)
    have hinv : MemInv K (world { k with mem := m } l) := h.mem.detach hdet
    obtain ⟨hnil, -, -⟩ | ⟨b, hb⟩ := pageInsert_spec hinv.counted.separated hw
      (insertable_of_detached h.mem hdet) (perm_of_not_badPerm hperm).2.2
      fun q hq => hinv.counted.unreferenced hq
    · rw [show l = [] from hnil] at hroom
      exact absurd hroom (by simp)
    · refine ⟨p, _, b, ?_, hdet, rfl, hb⟩
      have hinsert : pageInsert d p va perm m = some (0, b.mem) := hb.result
      rw [sysPageAlloc, if_neg hva, if_neg hperm, hm.result]
      simp only [show envid2env cur envid true { k with mem := m } = some e from he, hd, hinsert,
        if_neg (show ¬ isNeg 0 by decide)]

theorem sysPageMap_ok {src dst srcPgdir : Nat}
    (h : Inv K k free) (hsrcva : ¬ badVa srcva) (hdstva : ¬ badVa dstva) (hperm : ¬ badPerm perm)
    (hsrc : envid2env cur srcenvid true k = some src)
    (hdst : envid2env cur dstenvid true k = some dst) (hsrcLt : src < nenv) (hdstLt : dst < nenv)
    (hsrcPgdir : (k.envs src).envPgdir = some srcPgdir) (hd : (k.envs dst).envPgdir = some d)
    (hp : (world k free).ref (pteSlot src srcva) = some p)
    (hroom : free ≠ [] ∨ (world k free).ref (pdeSlot dst dstva) ≠ none) :
    ∃ b, sysPageMap cur srcenvid srcva dstenvid dstva perm k = .ret 0 { k with mem := b.mem } ∧
      Inserted K.layout dst d p dstva perm (world k free) b := by
  have hsw := walkable_of_env free h.env hsrcLt hsrcPgdir (lt_utop_of_not_badVa hsrcva)
  have hdw := walkable_of_env free h.env hdstLt hd (lt_utop_of_not_badVa hdstva)
  have hsep := h.mem.counted.separated
  obtain ⟨hnone, -⟩ | ⟨q, t, hq, -, hlookup⟩ := pageLookup_spec hsep hsw
  · exact absurd (hp.symm.trans hnone) (by simp)
  obtain rfl := Option.mem_unique hp hq
  obtain ⟨hnil, hpde, -⟩ | ⟨b, hb⟩ := pageInsert_spec hsep hdw
    (insertable_of_mapped h.mem hsw.tracked hp) (perm_of_not_badPerm hperm).2.2
    fun q hq => h.mem.counted.unreferenced hq
  · exact hroom.elim (fun hne => absurd hnil hne) fun hne => absurd hpde hne
  refine ⟨b, ?_, hb⟩
  have hlookup : pageLookup srcPgdir srcva k.mem = some (some (p, t, ptx srcva)) := hlookup
  have hinsert : pageInsert d p dstva perm k.mem = some (0, b.mem) := hb.result
  rw [sysPageMap, if_neg (not_or.mpr ⟨hsrcva, hdstva⟩), if_neg hperm, hsrc]
  simp only [hdst, hsrcPgdir, hlookup, hd, hinsert, if_neg (show ¬ isNeg 0 by decide)]

/-- `sys_ipc_try_send` refuses and changes nothing; or delivers the message alone; or maps
the page at the address that the receiver has stored, and delivers the message. -/
theorem sysIpcTrySend_cases {value : Word} (h : Inv K k free) (hcur : cur < nenv)
    (hres : sysIpcTrySend cur envid value srcva perm k = .ret r k') : isNeg r ∧ k' = k ∨
    ∃ dst, r = 0 ∧ dst < nenv ∧ envid2env cur envid false k = some dst ∧
      (k.envs dst).envIpcRecving = true ∧ (k.envs dst).envIpcFrom = 0 ∧
      ((utop ≤ srcva ∨ (k.envs dst).envIpcDstva = 0) ∧ k' = ipcDeliver cur dst value 0 k ∨
        ∃ p b, srcva < utop ∧ ¬ badPerm perm ∧ (k.envs dst).envIpcDstva ≠ 0 ∧
          (world k free).ref (pteSlot cur srcva) = some p ∧
          (perm &&& pteW ≠ 0 → (world k free).view (pteSlot cur srcva) &&& pteW ≠ 0) ∧
          Edited K dst (k.envs dst).envIpcDstva (page2pa p ||| perm ||| pteP) (world k free) b ∧
          k' = ipcDeliver cur dst value perm { k with mem := b.mem }) := by
  rw [sysIpcTrySend] at hres
  split at hres
  · cases hres
    exact .inl ⟨by decide, rfl⟩
  rename_i dst hdst
  have hdstLt := envid2env_lt hcur hdst
  split at hres
  · cases hres
    exact .inl ⟨by decide, rfl⟩
  rename_i hready
  rw [not_or, Bool.not_eq_false, not_not] at hready
  split at hres
  · rename_i hsrcva
    split at hres
    · cases hres
      exact .inl ⟨by decide, rfl⟩
    split at hres
    · cases hres
      exact .inl ⟨by decide, rfl⟩
    rename_i hperm
    split at hres
    · cases hres
    rename_i pgdir hpgdir
    have hsw := walkable_of_env free h.env hcur hpgdir hsrcva
    obtain ⟨-, hlookup⟩ | ⟨p, t, hp, ht, hlookup⟩ :=
      pageLookup_spec h.mem.counted.separated hsw
    · rw [show k.mem = (world k free).mem from rfl, hlookup] at hres
      cases hres
      exact .inl ⟨by decide, rfl⟩
    have hword : (world k free).mem.word (t, ptx srcva) =
        (world k free).view (pteSlot cur srcva) := (view_pte_of_ref ht).symm
    rw [show k.mem = (world k free).mem from rfl, hlookup] at hres
    simp only [hword] at hres
    split at hres
    · cases hres
      exact .inl ⟨by decide, rfl⟩
    rename_i hwrite
    split at hres
    · rename_i hdstva
      split at hres
      · cases hres
      rename_i dstPgdir hdstPgdir
      have hdw := walkable_of_env free h.env hdstLt hdstPgdir
        (h.env.dstva dst hdstLt)
      obtain ⟨-, hinsert⟩ | ⟨b, hinsert, hedit⟩ := pageInsert_cases h.mem hdw
        (insertable_of_mapped h.mem hsw.tracked hp) hperm
      · rw [hinsert] at hres
        simp only [if_pos (show isNeg (-eNoMem) by decide)] at hres
        cases hres
        exact .inl ⟨by decide, rfl⟩
      · rw [hinsert] at hres
        simp only [if_neg (show ¬ isNeg 0 by decide)] at hres
        cases hres
        exact .inr ⟨dst, rfl, hdstLt, hdst, hready.1, hready.2,
          .inr ⟨p, b, hsrcva, hperm, hdstva, hp,
            fun hW hzero => hwrite ⟨hW, hzero⟩, hedit, rfl⟩⟩
    · rename_i hdstva
      cases hres
      exact .inr ⟨dst, rfl, hdstLt, hdst, hready.1, hready.2, .inl ⟨.inr (not_not.mp hdstva), rfl⟩⟩
  · rename_i hsrcva
    cases hres
    exact .inr ⟨dst, rfl, hdstLt, hdst, hready.1, hready.2,
      .inl ⟨.inl (BitVec.not_lt.mp hsrcva), rfl⟩⟩

end Mit6828.Kern.PageCallSpec
