import Mit6828.Kern.UserMap
import Mit6828.Kern.PageMap
import Mit6828.Kern.EnvNames

namespace Mit6828.Kern.UserPages

open Mmu Pmap AddressSpace PageAllocator Environment Syscall Separation PageMap
open RefInvariant KernelInvariant PageCallSpec EnvSpec AddressSpaceSpec UserMap Library Function

structure Pages where
  entry : Nat → Nat → Word
  phys : Nat → Nat → Word

namespace Pages

def Maps (v : Pages) (e pn p : Nat) : Prop := frameOf (v.entry e pn) = some p

def InUse (v : Pages) (p : Nat) : Prop := ∃ e pn, v.Maps e pn p

def set (v : Pages) (e pn : Nat) (w : Word) : Nat → Nat → Word :=
  update v.entry e (update (v.entry e) pn w)

theorem set_self (v : Pages) (e pn : Nat) (w : Word) : v.set e pn w e pn = w := by
  simp [set]

theorem set_of_ne (v : Pages) {e pn e' pn' : Nat} (w : Word) (hne : ¬ (e' = e ∧ pn' = pn)) :
    v.set e pn w e' pn' = v.entry e' pn' := by
  rw [set]
  by_cases he : e' = e
  · subst he
    have hpn : pn' ≠ pn := fun hpn => hne ⟨rfl, hpn⟩
    simp [hpn]
  · simp [he]

/-- One entry has become `w`, and what the pages in use contain has not changed. -/
structure Set (e pn : Nat) (w : Word) (v v' : Pages) : Prop where
  entry : v'.entry = v.set e pn w
  phys : ∀ p, v.InUse p → v'.phys p = v.phys p

structure Same (v v' : Pages) : Prop where
  entry : v'.entry = v.entry
  phys : ∀ p, v.InUse p → v'.phys p = v.phys p

theorem Same.refl (v : Pages) : Same v v := ⟨rfl, fun _ _ => rfl⟩

def setWord (v : Pages) (p i : Nat) (w : Word) : Pages :=
  { v with phys := update v.phys p (update (v.phys p) i w) }

theorem setWord_self (v : Pages) (p i : Nat) (w : Word) : (v.setWord p i w).phys p i = w := by
  simp [setWord]

theorem setWord_of_ne (v : Pages) {p i q j : Nat} (w : Word) (hne : ¬ (q = p ∧ j = i)) :
    (v.setWord p i w).phys q j = v.phys q j := by
  rw [setWord]
  by_cases hq : q = p
  · subst hq
    have hj : j ≠ i := fun hj => hne ⟨rfl, hj⟩
    simp [hj]
  · simp [hq]

end Pages

def pteAt (k : Kernel) (e pn : Nat) : Word := pteOf k e (pn / 1024) (pn % 1024)

def pages (k : Kernel) : Pages where
  entry e pn := if e < nenv ∧ pn < pgnumUtop then pteAt k e pn else 0
  phys := k.mem.phys

variable {K : KernelMap} {k k' : Kernel} {free : List Nat} {cur e d p q pn pp : Nat} {m m' : Mem}
  {envid va perm w r dstenvid dstva srcenvid srcva : Word}

theorem pages_entry (he : e < nenv) (hpn : pn < pgnumUtop) : (pages k).entry e pn = pteAt k e pn :=
  if_pos ⟨he, hpn⟩

theorem pages_entry_pgnum (he : e < nenv) (hva : va < utop) :
    (pages k).entry e (pgnum va) = pteOf k e (pdx va) (ptx va) := by
  rw [pages_entry he (pgnum_lt_pgnumUtop hva), pteAt, pgnum_eq_pdx_ptx]
  have := ptx_lt va
  congr 1 <;> omega

theorem maps_lt (h : (pages k).Maps e pn p) : e < nenv ∧ pn < pgnumUtop := by
  by_contra hout
  have hzero : (pages k).entry e pn = 0 := if_neg hout
  rw [Pages.Maps, hzero, frameOf_zero] at h
  cases h

theorem entry_of_sameMaps (h : SameMaps k k') : (pages k').entry = (pages k).entry := by
  funext e pn
  simp only [pages]
  split
  · rename_i hin
    have hlt := hin.2
    rw [pgnumUtop, show nptentries = 1024 from rfl] at hlt
    exact h e hin.1 _ (by omega) _ (Nat.mod_lt _ (by decide))
  · rfl

theorem entry_of_remapped (he : e < nenv) (hva : va < utop) (h : Remapped e va w k k') :
    (pages k').entry = (pages k).set e (pgnum va) w := by
  funext e' pn
  by_cases hslot : e' = e ∧ pn = pgnum va
  · obtain ⟨rfl, rfl⟩ := hslot
    rw [Pages.set_self, pages_entry_pgnum he hva, h.self he hva]
  rw [Pages.set_of_ne _ _ hslot]
  simp only [pages]
  split
  · rename_i hin
    have hlt := hin.2
    rw [pgnumUtop, show nptentries = 1024 from rfl] at hlt
    refine (h e' hin.1 (pn / 1024) (by omega) (pn % 1024) (Nat.mod_lt _ (by decide))).trans
      (if_neg ?_)
    rintro ⟨rfl, hpdx, hptx⟩
    refine hslot ⟨rfl, ?_⟩
    grind
  · rfl

section Contents

/-- Page `q` is no page directory, no page table below `UTOP`, and not free. -/
structure Plain (k : Kernel) (free : List Nat) (q : Nat) : Prop where
  notDir : ∀ e < nenv, ∀ d, (k.envs e).envPgdir = some d → q ≠ d
  notTable : ∀ e < nenv, ∀ d, (k.envs e).envPgdir = some d → ∀ i < pdxUtop,
    k.mem.phys d i &&& pteP ≠ 0 → q ≠ pgnum (k.mem.phys d i)
  notFree : q ∉ free

theorem ref_of_maps (h : Inv K k free) (hp : (pages k).Maps e pn p) :
    (world k free).ref (vpnSlot e pn) = some p ∧ vpnSlot e pn ∈ K.layout.tracked := by
  obtain ⟨he, hpn⟩ := maps_lt hp
  rw [Pages.Maps, pages_entry he hpn, pteAt, pteOf_eq_view free h.env he] at hp
  refine ⟨hp, pte_tracked.mpr ⟨he, ?_, Nat.mod_lt _ (by decide)⟩⟩
  grind

theorem plain_of_inUse (h : Inv K k free) (hq : (pages k).InUse q) : Plain k free q := by
  obtain ⟨e, pn, hq⟩ := hq
  obtain ⟨href, htracked⟩ := ref_of_maps h hq
  have hsep := h.mem.counted.separated
  refine ⟨?_, ?_, fun hfree => h.mem.counted.unreferenced hfree _ htracked href⟩
  · rintro e' he' d hd rfl
    have hdir : (.dir e' : Slot) ∈ K.layout.tracked := dir_tracked.mpr he'.le
    have heq := hsep.exclusive _ hdir trivial _ htracked q (frameOf_rootOf h.env he' hd) href
    cases heq
  · rintro e' he' d hd i hi hP rfl
    have hpde : (.pde e' i : Slot) ∈ K.layout.tracked := pde_tracked.mpr (.inl ⟨he', hi⟩)
    have hframe : (world k free).ref (.pde e' i) = some (pgnum (k.mem.phys d i)) := by
      rw [ref_eq, ← pde_eq_view h he' hd, frameOf, if_pos hP]
    have heq := hsep.exclusive _ hpde trivial _ htracked _ hframe href
    cases heq

theorem pageFree_phys (hres : pageFree p m = some m') : m'.phys = m.phys := by
  rw [pageFree] at hres
  split at hres
  · cases hres
  · cases hres
    rfl

theorem pageDecref_phys (h : pageDecref p m = some m') : m'.phys = m.phys := by
  simp only [pageDecref] at h
  split at h
  · exact (pageFree_phys h).trans rfl
  · cases h
    rfl

theorem pgdirWalk_phys {create : Bool} {o : Option (Nat × Nat)} (hl : FreeList m free)
    (hlt : ∀ p ∈ free, p < 1048576) (hfree : q ∉ free) (hd : q ≠ d)
    (htable : m.phys d (pdx va) &&& pteP ≠ 0 → q ≠ pgnum (m.phys d (pdx va)))
    (h : pgdirWalk d va create m = some (o, m')) :
    m'.phys q = m.phys q ∧ (∀ pte, o = some pte → q ≠ pte.1) ∧
      (m'.phys d (pdx va) &&& pteP ≠ 0 → q ≠ pgnum (m'.phys d (pdx va))) := by
  simp only [pgdirWalk] at h
  split at h
  · rename_i hP
    simp only [Option.bind_eq_bind, Option.bind_eq_some_iff] at h
    obtain ⟨t, hkaddr, h⟩ := h
    cases h
    refine ⟨rfl, ?_, htable⟩
    rintro pte hpte
    cases hpte
    rw [kaddr, pgnum_pteAddr] at hkaddr
    split at hkaddr
    · cases hkaddr
    · cases hkaddr
      exact htable hP
  · rename_i hP
    split at h
    · cases h
      exact ⟨rfl, by simp, htable⟩
    cases free with
    | nil =>
      rw [pageAlloc_nil hl] at h
      cases h
      exact ⟨rfl, by simp, htable⟩
    | cons p l =>
      obtain ⟨m1, hm1⟩ := pageAlloc_cons hl true
      have hne : q ≠ p := fun heq => hfree (by simp [heq])
      rw [hm1.result] at h
      cases h
      refine ⟨?_, ?_, fun _ => ?_⟩
      · simp [Mem.setWord, hm1.phys, hd, hne]
      · rintro pte hpte
        cases hpte
        exact hne
      · have hword : ((m1.incref p).setWord (d, pdx va)
            (page2pa p ||| pteP ||| pteW ||| pteU)).phys d (pdx va) =
            page2pa p ||| (pteP ||| pteW ||| pteU) := by
          simp [Mem.setWord, BitVec.or_assoc]
        rw [hword, pgnum_page2pa_or (hlt p (by simp)) (by decide)]
        exact hne

theorem pageRemove_phys (htable : m.phys d (pdx va) &&& pteP ≠ 0 → q ≠ pgnum (m.phys d (pdx va)))
    (h : pageRemove d va m = some m') : m'.phys q = m.phys q := by
  simp only [pageRemove, Option.bind_eq_bind, Option.bind_eq_some_iff] at h
  obtain ⟨o, hlookup, h⟩ := h
  simp only [pageLookup, pgdirWalk, Option.bind_eq_bind] at hlookup
  split at hlookup
  · rename_i hP
    rw [kaddr, pgnum_pteAddr] at hlookup
    split at hlookup
    · cases hlookup
    simp only [Option.pure_def, Option.bind_some] at hlookup
    split at hlookup
    · simp only [Option.bind_eq_some_iff] at hlookup
      obtain ⟨pp, -, hlookup⟩ := hlookup
      cases hlookup
      simp only [Option.bind_eq_some_iff] at h
      obtain ⟨m1, hdecref, h⟩ := h
      cases h
      simp [Mem.setWord, pageDecref_phys hdecref, htable hP]
    · cases hlookup
      cases h
      rfl
  · cases hlookup
    cases h
    rfl

theorem pageInsert_phys (hl : FreeList m free) (hlt : ∀ p ∈ free, p < 1048576) (hfree : q ∉ free)
    (hd : q ≠ d) (htable : m.phys d (pdx va) &&& pteP ≠ 0 → q ≠ pgnum (m.phys d (pdx va)))
    (h : pageInsert d pp va perm m = some (r, m')) : m'.phys q = m.phys q := by
  simp only [pageInsert, Option.bind_eq_bind, Option.bind_eq_some_iff] at h
  obtain ⟨⟨o, m1⟩, hwalk, h⟩ := h
  obtain ⟨hphys, hpte, htable1⟩ := pgdirWalk_phys hl hlt hfree hd htable hwalk
  cases o with
  | none =>
    cases h
    exact hphys
  | some pte =>
    have hne := hpte pte rfl
    simp only at h
    split at h
    · split at h
      · cases h
        simp [Mem.setWord, hphys, hne]
      · simp only [Option.bind_eq_some_iff] at h
        obtain ⟨m2, hremove, h⟩ := h
        cases h
        simp [Mem.setWord, pageRemove_phys htable1 hremove, hphys, hne]
    · cases h
      simp [Mem.setWord, hphys, hne]

variable (h : Inv K k free)
include h

theorem free_lt (hp : p ∈ free) : p < 1048576 :=
  (K.pool_lt p (h.mem.counted.separated.free_pool p hp)).trans_le K.npages_le

theorem Plain.insert (hq : Plain k free q) (he : e < nenv)
    (hd : (k.envs e).envPgdir = some d) (hva : va < utop)
    (hres : pageInsert d pp va perm k.mem = some (r, m')) : m'.phys q = k.mem.phys q :=
  pageInsert_phys h.mem.counted.separated.freeList (fun _ => free_lt h) hq.notFree
    (hq.notDir e he d hd) (hq.notTable e he d hd _ (pdx_lt_pdxUtop hva)) hres

theorem sysPageMap_phys (hq : Plain k free q) (hcur : cur < nenv)
    (hres : sysPageMap cur srcenvid srcva dstenvid dstva perm k = .ret r k') :
    k'.mem.phys q = k.mem.phys q := by
  obtain ⟨-, rfl⟩ | ⟨_, dst, _, d, _, _, _, m, -, hbad, -, -, hdst, -, hd, -, hinsert, -, rfl⟩ :=
    sysPageMap_eq_ret hres
  · rfl
  · exact hq.insert h (envid2env_lt hcur hdst) hd (lt_utop_of_not_badVa hbad) hinsert

omit h in
theorem sysPageUnmap_phys (hq : Plain k free q) (hcur : cur < nenv)
    (hres : sysPageUnmap cur envid va k = .ret r k') : k'.mem.phys q = k.mem.phys q := by
  obtain ⟨-, rfl⟩ | ⟨e, d, m, -, hbad, he, hd, hremove, rfl⟩ := sysPageUnmap_eq_ret hres
  · rfl
  · exact pageRemove_phys (hq.notTable e (envid2env_lt hcur he) d hd _
      (pdx_lt_pdxUtop (lt_utop_of_not_badVa hbad))) hremove

theorem dir_notFree (he : e < nenv) (hd : (k.envs e).envPgdir = some d) : d ∉ free :=
  h.mem.counted.separated.table_notFree (.dir e) (dir_tracked.mpr he.le)
    trivial d (frameOf_rootOf h.env he hd)

theorem sysPageAlloc_phys (hq : Plain k free q) (hcur : cur < nenv)
    (hres : sysPageAlloc cur envid va perm k = .ret r k') : k'.mem.phys q = k.mem.phys q := by
  have hl : FreeList k.mem free := h.mem.counted.separated.freeList
  simp only [sysPageAlloc] at hres
  split at hres
  · cases hres
    rfl
  rename_i hbad
  split at hres
  · cases hres
    rfl
  cases free with
  | nil =>
    rw [pageAlloc_nil hl] at hres
    cases hres
    rfl
  | cons p l =>
    obtain ⟨m, hm⟩ := pageAlloc_cons hl true
    have hphys : ∀ q', q' ≠ p → m.phys q' = k.mem.phys q' := fun q' hne => by
      rw [hm.phys, if_pos rfl, update_of_ne hne]
    have hqp : q ≠ p := fun heq => hq.notFree (by simp [heq])
    rw [hm.result] at hres
    simp only at hres
    split at hres
    · cases hres
      exact hphys q hqp
    rename_i e he
    have hlt := envid2env_lt hcur he
    split at hres
    · cases hres
    rename_i d hd
    have hdp : d ≠ p := fun heq => dir_notFree h hlt hd (by simp [heq])
    split at hres
    · cases hres
    rename_i r' m' hinsert
    have hphys' : m'.phys q = m.phys q := by
      refine pageInsert_phys hm.freeList
        (fun p' hp' => free_lt h (List.mem_cons_of_mem p hp'))
        (fun hmem => hq.notFree (List.mem_cons_of_mem p hmem))
        (hq.notDir e hlt d hd) ?_ hinsert
      rw [hphys d hdp]
      exact hq.notTable e hlt d hd _ (pdx_lt_pdxUtop (lt_utop_of_not_badVa hbad))
    split at hres
    · split at hres
      · cases hres
      · rename_i m'' hfree
        cases hres
        change m''.phys q = _
        rw [pageFree_phys hfree, hphys', hphys q hqp]
    · cases hres
      exact hphys'.trans (hphys q hqp)

omit h in
theorem envAlloc_phys (parentId : Word) (hl : FreeList k.mem free) (hq : q ∉ free) :
    (envAlloc parentId k).2.mem.phys q = k.mem.phys q := by
  rcases Option.eq_none_or_eq_some k.envFreeList with hhead | ⟨e, hhead⟩
  · simp [envAlloc, hhead]
  cases free with
  | nil =>
    rw [envAlloc, hhead]
    simp only [envSetupVm, pageAlloc_nil hl, if_pos (show isNeg (-eNoMem) by decide)]
  | cons p l =>
    obtain ⟨m, hm⟩ := pageAlloc_cons hl true
    have hne : q ≠ p := fun heq => hq (by simp [heq])
    rw [envAlloc, hhead]
    simp only [envSetupVm, hm.result, if_neg (show ¬ isNeg 0 by decide)]
    simp [Kernel.setEnv, Mem.setWord, Mem.copyPage, hne, hm.phys]

theorem sysExofork_phys (hq : Plain k free q) (hres : sysExofork cur k = .ret r k') :
    k'.mem.phys q = k.mem.phys q := by
  have hphys := envAlloc_phys (k.envs cur).envId
    h.mem.counted.separated.freeList hq.notFree
  rw [sysExofork] at hres
  split at hres
  · rename_i k1 heq
    cases hres
    rw [heq] at hphys
    exact hphys
  · rename_i e k1 heq
    cases hres
    rw [heq] at hphys
    exact hphys

end Contents

section Effects

variable (h : Inv K k free)
include h

theorem phys_of_plain (hphys : ∀ q, Plain k free q → k'.mem.phys q = k.mem.phys q) :
    ∀ p, (pages k).InUse p → (pages k').phys p = (pages k).phys p :=
  fun p hp => hphys p (plain_of_inUse h hp)

theorem same_of_harmless (hk : Harmless k k') : (pages k).Same (pages k') :=
  ⟨entry_of_sameMaps (sameMaps_of_harmless h.env hk),
    fun p _ => congrFun (congrArg Mem.phys hk.mem) p⟩

theorem maps_pool (hp : (pages k).Maps e pn p) : p < 1048576 := by
  obtain ⟨href, htracked⟩ := ref_of_maps h hp
  exact (h.mem.counted.separated.ref_lt _ htracked p href).trans_le K.npages_le

theorem sysPageMap_pages (hcur : cur < nenv)
    (hres : sysPageMap cur srcenvid srcva dstenvid dstva perm k = .ret r k') : isNeg r ∧ k' = k ∨
    ∃ src dst p, r = 0 ∧ dst < nenv ∧ envid2env cur srcenvid true k = some src ∧
      envid2env cur dstenvid true k = some dst ∧ (pages k).Maps src (pgnum srcva) p ∧
      (pages k).Set dst (pgnum dstva) (page2pa p ||| perm ||| pteP) (pages k') ∧
      k' = { k with mem := k'.mem } := by
  have hphys := phys_of_plain h fun q hq => sysPageMap_phys h hq hcur hres
  obtain hfail | ⟨src, dst, p, hr, hsrcva, hdstva, hsrc, hdst, -, hfoundSrc, hfoundDst, hp, hmap,
    hmem⟩ := sysPageMap_maps h hcur hres
  · exact .inl hfail
  · refine .inr ⟨src, dst, p, hr, hdst, hfoundSrc, hfoundDst, ?_,
      ⟨entry_of_remapped hdst hdstva hmap, hphys⟩, hmem⟩
    rw [Pages.Maps, pages_entry_pgnum hsrc hsrcva]
    exact hp

/-- A page that an environment maps onto itself with its own permissions keeps its contents and
loses the other flags of its entry, such as `PTE_D`. -/
theorem sysPageAlloc_pages (hcur : cur < nenv)
    (hres : sysPageAlloc cur envid va perm k = .ret r k') :
    isNeg r ∧ (pages k).Same (pages k') ∧ k' = { k with mem := k'.mem } ∨
    ∃ e p, r = 0 ∧ e < nenv ∧ envid2env cur envid true k = some e ∧ ¬ (pages k).InUse p ∧
      p < 1048576 ∧ (pages k).Set e (pgnum va) (page2pa p ||| perm ||| pteP) (pages k') ∧
      k' = { k with mem := k'.mem } := by
  have hphys := phys_of_plain h fun q hq => sysPageAlloc_phys h hq hcur hres
  obtain ⟨hr, hsame, hmem⟩ | ⟨e, p, hr, hva, he, -, hfound, hhead, hmap, hmem⟩ :=
    sysPageAlloc_maps h hcur hres
  · exact .inl ⟨hr, ⟨entry_of_sameMaps hsame, hphys⟩, hmem⟩
  have hfree : p ∈ free := by
    have hchain := h.mem.counted.separated.freeList.chain
    rw [show (world k free).mem.pageFreeList = some p from hhead] at hchain
    obtain ⟨l, heq, -⟩ := IntrusiveList.chain_some hchain
    rw [show free = p :: l from heq]
    exact List.mem_cons_self
  exact .inr ⟨e, p, hr, he, hfound, fun huse => (plain_of_inUse h huse).notFree hfree,
    free_lt h hfree, ⟨entry_of_remapped he hva hmap, hphys⟩, hmem⟩

theorem sysPageUnmap_pages (hcur : cur < nenv) (hres : sysPageUnmap cur envid va k = .ret r k') :
    isNeg r ∧ k' = k ∨
    ∃ e, r = 0 ∧ e < nenv ∧ envid2env cur envid true k = some e ∧
      (pages k).Set e (pgnum va) 0 (pages k') ∧ k' = { k with mem := k'.mem } := by
  have hphys := phys_of_plain h fun q hq => sysPageUnmap_phys hq hcur hres
  obtain hfail | ⟨e, hr, hva, he, hfound, hmap, hmem⟩ := sysPageUnmap_maps h hcur hres
  · exact .inl hfail
  · exact .inr ⟨e, hr, he, hfound, ⟨entry_of_remapped he hva hmap, hphys⟩, hmem⟩

/-- The child that `sys_exofork` makes in slot `e`, with an empty address space. -/
structure Forked (cur e : Nat) (r : Word) (k k' : Kernel) : Prop where
  lt : e < nenv
  slot : envx r = e
  ne_zero : r ≠ 0
  unused : (k.envs e).envPgdir = none
  dir : (k'.envs e).envPgdir ≠ none
  id : (k'.envs e).envId = r
  others : ∀ e', e' ≠ e → k'.envs e' = k.envs e'
  same : (pages k).Same (pages k')

theorem sysExofork_pages (hres : sysExofork cur k = .ret r k') :
    isNeg r ∧ k' = k ∨ ∃ e, ¬ isNeg r ∧ Forked cur e r k k' := by
  have hphys := phys_of_plain h fun q hq => sysExofork_phys h hq hres
  obtain ⟨r', hr, -, heq⟩ | ⟨e, p, l, k1, halloc, heq⟩ := sysExofork_cases cur h
  · rw [heq] at hres
    cases hres
    exact .inl ⟨hr, rfl⟩
  rw [heq] at hres
  cases hres
  obtain ⟨hx, hne, hpos⟩ := nextEnvId_spec (k.envs e).envId halloc.lt
  have hself : k1.envs e = freshEnv (k.envs cur).envId e p (k.envs e) := by
    rw [halloc.envs, update_self]
  refine .inr ⟨e, hpos, halloc.lt, hx, hne, halloc.unused, ?_, ?_, fun e' hne' => ?_,
    entry_of_sameMaps (sameMaps_of_allocated h halloc), hphys⟩
  · rw [forked, Kernel.setEnv_envs_self, hself]
    simp [freshEnv]
  · rw [forked, Kernel.setEnv_envs_self, hself]
    rfl
  · rw [forked, Kernel.setEnv_envs_of_ne hne', halloc.envs, update_of_ne hne']

omit h in
theorem entry_of_noDir (hd : (k.envs e).envPgdir = none) (pn : Nat) : (pages k).entry e pn = 0 := by
  simp only [pages, pteAt, pteOf, pdeOf, hd, frameOf_zero]
  exact ite_self _

section

variable (he : e < nenv) (hd : (k.envs e).envPgdir = some d)
include he hd

theorem translate_pages (hva : va < utop) :
    (frameOf ((pages k).entry e (pgnum va)) = none ∧ translate d va k.mem = none) ∨
    ∃ pde p, (pages k).Maps e (pgnum va) p ∧ IsTableEntry pde ∧
      pgnum ((pages k).entry e (pgnum va)) = p ∧ IsUserEntry ((pages k).entry e (pgnum va)) ∧
      translate d va k.mem = some (pde, (pages k).entry e (pgnum va)) := by
  simp only [Pages.Maps, pages_entry_pgnum he hva]
  by_cases hP : k.mem.phys d (pdx va) &&& pteP ≠ 0
  · rw [pteOf_of_present hd hP]
    by_cases hP' : k.mem.phys (pgnum (k.mem.phys d (pdx va))) (ptx va) &&& pteP ≠ 0
    · refine .inr ⟨k.mem.phys d (pdx va), _, if_pos hP', ?_, rfl, ?_, ?_⟩
      · have hpde := h.mem.shaped.pde e he _ (pdx_lt_pdxUtop hva)
        rw [← pde_eq_view h he hd] at hpde
        refine hpde.resolve_left fun hzero => hP ?_
        rw [hzero]
        exact BitVec.zero_and
      · rw [← pteOf_of_present hd hP] at hP' ⊢
        exact isUserEntry_pteOf h he hva hP'
      · simp only [AddressSpace.translate, if_pos (And.intro hP hP')]
    · refine .inl ⟨if_neg hP', ?_⟩
      simp only [AddressSpace.translate, if_neg fun hboth : _ ∧ _ => hP' hboth.2]
  · rw [pteOf_of_absent hd (not_not.mp hP)]
    refine .inl ⟨frameOf_zero, ?_⟩
    simp only [AddressSpace.translate, if_neg fun hboth : _ ∧ _ => hP hboth.1]

theorem userMay_pages (va : Word) :
    userMay d ⟨va, true⟩ k.mem ↔ va < utop ∧ ∃ p, (pages k).Maps e (pgnum va) p ∧
      (pages k).entry e (pgnum va) &&& pteW ≠ 0 := by
  constructor
  · intro hmay
    have hva := lt_utop_of_userMay h he hd hmay
    obtain ⟨-, ⟨pde, pte⟩, htr, -, -, hW⟩ := hmay
    obtain ⟨-, hnone⟩ | ⟨pde', p, hp, -, -, -, htr'⟩ := translate_pages h he hd hva
    · rw [hnone] at htr
      cases htr
    · rw [htr'] at htr
      cases htr
      exact ⟨hva, p, hp, (hW rfl).2⟩
  · rintro ⟨hva, p, hp, hW⟩
    obtain ⟨hnone, -⟩ | ⟨pde, p', -, hpde, -, hpte, htr⟩ := translate_pages h he hd hva
    · rw [Pages.Maps, hnone] at hp
      cases hp
    · obtain ⟨-, hpdeW, hpdeU⟩ := hpde.flags
      exact ⟨BitVec.lt_trans hva (by decide), _, htr, hpdeU, hpte.2, fun _ => ⟨hpdeW, hW⟩⟩

theorem loadByte_pages (hva : va < utop) :
    loadByte d k.mem va = (frameOf ((pages k).entry e (pgnum va))).map fun p =>
      getByte ((pages k).phys p ((pgoff va).toNat / 4)) (va.toNat % 4) := by
  obtain ⟨hnone, htr⟩ | ⟨pde, p, hp, -, hnum, -, htr⟩ := translate_pages h he hd hva
  · rw [loadByte, htr, hnone]
    rfl
  · rw [Pages.Maps] at hp
    rw [loadByte, htr, hp, ← hnum]
    rfl

end

theorem setWord_pages (hp : (pages k).Maps e pn p) (i : Nat) (w : Word) :
    Stored K k free (k.mem.setWord (p, i) w) ∧
      pages { k with mem := k.mem.setWord (p, i) w } = (pages k).setWord p i w := by
  obtain ⟨href, htracked⟩ := ref_of_maps h hp
  have hstored : Stored K k free (k.mem.setWord (p, i) w) :=
    updatePage_stored h (insertable_of_mapped h.mem htracked href).notTable _
  refine ⟨hstored, ?_⟩
  have hentry := entry_of_sameMaps (sameMaps_of_view free free h.env hstored.inv.env hstored.view)
  rw [Pages.setWord, ← hentry]
  rfl

theorem storeByte_pages {b : Byte} (he : e < nenv) (hd : (k.envs e).envPgdir = some d)
    (hp : (pages k).Maps e (pgnum va) p) (hva : va < utop) (hs : storeByte d k.mem va b = some m) :
    Stored K k free m ∧
      pages { k with mem := m } = (pages k).setWord p ((pgoff va).toNat / 4)
        (putByte ((pages k).phys p ((pgoff va).toNat / 4)) (va.toNat % 4) b) := by
  obtain ⟨-, htr⟩ | ⟨pde, p', hp', -, rfl, -, htr⟩ := translate_pages h he hd hva
  · rw [storeByte, htr] at hs
    cases hs
  obtain rfl := Option.mem_unique hp hp'
  rw [storeByte, htr] at hs
  simp only [Option.bind_eq_bind, Option.bind_some] at hs
  split at hs
  · cases hs
    exact setWord_pages h hp _ _
  · cases hs

end Effects

end Mit6828.Kern.UserPages
