import Mit6828.Kern.UserPages

namespace Mit6828.Kern.CallProgress

open Mmu Environment Separation RefInvariant KernelInvariant PageTableSpec PageCallSpec EnvSpec
open Syscall TrapSpec UserMap UserPages EnvNames PageMap Library

structure Room (n : Nat) (k : Kernel) : Prop where
  inv : ∃ K free, Inv K k free ∧ n ≤ free.length
  wrapped : k.mem.wrapped = false
  named : Named k

variable {K : KernelMap} {k k' : Kernel} {free : List Nat} {n m cur e src dst pn p : Nat}
  {envid va perm : Word}

theorem Room.mono (h : Room n k) (hle : m ≤ n) : Room m k := by
  obtain ⟨K, free, hinv, hlen⟩ := h.inv
  exact ⟨⟨K, free, hinv, hle.trans hlen⟩, h.wrapped, h.named⟩

theorem Room.harmless (h : Room n k) (hk : Harmless k k') (hnamed : Named k') :
    Room n k' ∧ (pages k).Same (pages k') := by
  obtain ⟨K, free, hinv, hlen⟩ := h.inv
  exact ⟨⟨⟨K, free, hinv.harmless hk, hlen⟩, hk.mem ▸ h.wrapped, hnamed⟩, same_of_harmless hinv hk⟩

theorem alloc_progress (h : Room (n + 2) k) (hcur : cur < nenv) (hva : ¬ badVa va)
    (hperm : ¬ badPerm perm) (hfound : envid2env cur envid true k = some e) (he : e < nenv)
    (hd : (k.envs e).envPgdir ≠ none) :
    ∃ q m, sysPageAlloc cur envid va perm k = .ret 0 { k with mem := m } ∧
      Room n { k with mem := m } ∧ ¬ (pages k).InUse q ∧ q < 1048576 ∧
      (pages k).Set e (pgnum va) (page2pa q ||| perm ||| pteP) (pages { k with mem := m }) := by
  obtain ⟨K, free, hinv, hlen⟩ := h.inv
  obtain ⟨d, hd⟩ := Option.ne_none_iff_exists'.mp hd
  obtain ⟨p, m, free', hres, hw, -, hinv', -, hlen'⟩ :=
    sysPageAlloc_succeeds hinv h.wrapped hva hperm
    hfound he hd (by omega)
  obtain ⟨hneg, -⟩ | ⟨e', q, -, -, hfound', hq, hlt, hset, hmem⟩ :=
    sysPageAlloc_pages hinv hcur hres
  · exact absurd hneg (by decide)
  · obtain rfl := Option.mem_unique hfound hfound'
    exact ⟨q, _, hres, ⟨⟨K, free', hinv', by omega⟩, hw, named_of_mem h.named rfl⟩, hq, hlt, hset⟩

theorem ppRef_of_maps (h : Inv K k free) (hw : k.mem.wrapped = false) (hp : (pages k).Maps e pn p)
    {slots : List (Nat × Nat)} (hfew : slots.length < 65535)
    (honly : ∀ y pn', (pages k).Maps y pn' p → (y, pn') ∈ slots) :
    (world k free).ppRef p ≠ 0xFFFF := by
  obtain ⟨href, htracked⟩ := ref_of_maps h hp
  have hpool := (insertable_of_mapped h.mem htracked href).pool
  have hall : ∀ s ∈ trackedSlots, (world k free).ref s = some p →
      s ∈ slots.map fun x => vpnSlot x.1 x.2 := by
    intro s hs hs'
    have hs : s ∈ K.layout.tracked := KernelMap.mem_tracked.mpr hs
    cases s with
    | dir e' => cases h.mem.counted.separated.exclusive _ hs trivial _ htracked p hs' href
    | pde e' i => cases h.mem.counted.separated.exclusive _ hs trivial _ htracked p hs' href
    | pte e' i j =>
      obtain ⟨he', hi, hj⟩ := pte_tracked.mp hs
      have hj' : j < 1024 := hj
      have hpn : i * 1024 + j < pgnumUtop := by grind
      have hdiv : (i * 1024 + j) / 1024 = i := by omega
      have hmod : (i * 1024 + j) % 1024 = j := by omega
      refine List.mem_map.mpr ⟨(e', i * 1024 + j), honly _ _ ?_, by rw [vpnSlot, hdiv, hmod]⟩
      rw [Pages.Maps, pages_entry he' hpn, pteAt, pteOf_eq_view free h.env he', hdiv, hmod]
      exact hs'
  have hcard : refs (world k free) p ≤ slots.length := by
    rw [refs, RefCount.refCount, ← List.length_map fun x => vpnSlot x.1 x.2]
    refine (Finset.card_le_card fun s hs => ?_).trans (List.toFinset_card_le _)
    obtain ⟨hs, hs'⟩ := Finset.mem_filter.mp hs
    exact List.mem_toFinset.mpr (hall s hs hs')
  intro heq
  have hcount := h.mem.counted.toNat_ppRef hw hpool
  rw [heq] at hcount
  have hmax : (0xFFFF : BitVec 16).toNat = 65535 := rfl
  omega

theorem map_progress {srcenvid srcva dstenvid dstva : Word} (h : Room (n + 1) k) (hcur : cur < nenv)
    (hsrcva : ¬ badVa srcva) (hdstva : ¬ badVa dstva) (hperm : ¬ badPerm perm)
    (hsrc : envid2env cur srcenvid true k = some src)
    (hdst : envid2env cur dstenvid true k = some dst) (hsrcLt : src < nenv) (hdstLt : dst < nenv)
    (hsrcDir : (k.envs src).envPgdir ≠ none) (hdstDir : (k.envs dst).envPgdir ≠ none)
    (hp : (pages k).Maps src (pgnum srcva) p)
    (slots : List (Nat × Nat)) (hfew : slots.length < 65535)
    (honly : ∀ y pn, (pages k).Maps y pn p → (y, pn) ∈ slots) :
    ∃ m, sysPageMap cur srcenvid srcva dstenvid dstva perm k = .ret 0 { k with mem := m } ∧
      Room n { k with mem := m } ∧
      (pages k).Set dst (pgnum dstva) (page2pa p ||| perm ||| pteP)
      (pages { k with mem := m }) := by
  obtain ⟨K, free, hinv, hlen⟩ := h.inv
  obtain ⟨ds, hds⟩ := Option.ne_none_iff_exists'.mp hsrcDir
  obtain ⟨dd, hdd⟩ := Option.ne_none_iff_exists'.mp hdstDir
  have href : (world k free).ref (pteSlot src srcva) = some p := by
    rw [← vpnSlot_eq_iff.mpr ⟨rfl, rfl⟩]
    exact (ref_of_maps hinv hp).1
  have hne : free ≠ [] := by
    rintro rfl
    simp at hlen
  obtain ⟨b, hres, hb⟩ :=
    sysPageMap_ok hinv hsrcva hdstva hperm hsrc hdst hsrcLt hdstLt hds hdd href
    (.inl hne)
  have hw : b.mem.wrapped = false := by
    rw [hb.wrapped (ppRef_of_maps hinv h.wrapped hp hfew honly) fun q hq => ?_]
    · exact h.wrapped
    · rw [ppRef_of_free hinv.mem hq]
      decide
  have hroom := hb.room
  have hinv' := TrapSpec.Edited.inv (Edited.of_inserted hb) hinv hdstLt
    (.inr (isUserEntry_of_perm hperm p)) (.inl hw)
  obtain ⟨hneg, -⟩ | ⟨src', dst', p', -, -, hsrc', hdst', hp', hset, -⟩ :=
    sysPageMap_pages hinv hcur hres
  · exact absurd hneg (by decide)
  obtain rfl := Option.mem_unique hsrc hsrc'
  obtain rfl := Option.mem_unique hdst hdst'
  obtain rfl := Option.mem_unique hp hp'
  refine ⟨_, hres, ⟨⟨K, b.free, hinv', ?_⟩, hw, named_of_mem h.named rfl⟩, hset⟩
  have hfree : (world k free).free.length = free.length := rfl
  split at hroom <;> omega

theorem unmap_progress (h : Room 0 k) (hcur : cur < nenv) (hva : ¬ badVa va)
    (hfound : envid2env cur envid true k = some e) (he : e < nenv)
    (hd : (k.envs e).envPgdir ≠ none) (hp : (pages k).Maps e (pgnum va) p) :
    ∃ m, sysPageUnmap cur envid va k = .ret 0 { k with mem := m } ∧ Room 0 { k with mem := m } ∧
      (pages k).Set e (pgnum va) 0 (pages { k with mem := m }) := by
  obtain ⟨K, free, hinv, hlen⟩ := h.inv
  obtain ⟨d, hd⟩ := Option.ne_none_iff_exists'.mp hd
  have href : (world k free).ref (pteSlot e va) = some p := by
    rw [← vpnSlot_eq_iff.mpr ⟨rfl, rfl⟩]
    exact (ref_of_maps hinv hp).1
  obtain ⟨b, hres, -, hchange, hzero⟩ := sysPageUnmap_ok hinv hva hfound he hd href
  have hw : b.mem.wrapped = false := by
    have hacc := hchange.account
    rw [href, ref_eq b, hzero, frameOf_zero] at hacc
    cases hacc with
    | drop _ _ _ _ hwrapped => exact hwrapped.trans h.wrapped
  have hkept : Ends (Kept K) (sysPageUnmap cur envid va k) := kept_sysPageUnmap hinv hcur
  rw [hres] at hkept
  obtain ⟨free', hinv'⟩ := hkept hw
  obtain ⟨hneg, -⟩ | ⟨e', -, -, hfound', hset, -⟩ := sysPageUnmap_pages hinv hcur hres
  · exact absurd hneg (by decide)
  · obtain rfl := Option.mem_unique hfound hfound'
    exact ⟨_, hres, ⟨⟨K, free', hinv', Nat.zero_le _⟩, hw, named_of_mem h.named rfl⟩, hset⟩

theorem exofork_progress (cur : Nat) (h : Room (n + 1) k) (hhead : k.envFreeList ≠ none) :
    ∃ c r k', sysExofork cur k = .ret r k' ∧ ¬ isNeg r ∧ Forked cur c r k k' ∧ Room n k' ∧
      (k'.envs c).envStatus = .notRunnable ∧ (k'.envs c).envParentId = (k.envs cur).envId ∧
      k.envFreeList = some c ∧ k'.envFreeList = (k.envs c).envLink := by
  obtain ⟨K, free, hinv, hlen⟩ := h.inv
  obtain ⟨r, -, hreason, -⟩ | ⟨c, p, l, k1, halloc, hres⟩ := sysExofork_cases cur hinv
  · refine absurd hreason (not_or.mpr ⟨hhead, ?_⟩)
    rintro rfl
    simp at hlen
  obtain ⟨hneg, hk⟩ | ⟨c', hpos, hforked⟩ := sysExofork_pages hinv hres
  · obtain ⟨-, -, hpos⟩ := nextEnvId_spec (k.envs c).envId halloc.lt
    exact absurd hneg hpos
  obtain ⟨hx, -, -⟩ := nextEnvId_spec (k.envs c).envId halloc.lt
  obtain rfl : c = c' := hx.symm.trans hforked.slot
  have hharm : Harmless k1 (forked cur c k1) := harmless_setEnv rfl rfl (.inl rfl)
  have hself : k1.envs c = freshEnv (k.envs cur).envId c p (k.envs c) := by
    rw [halloc.envs, Function.update_self]
  refine ⟨c, _, _, hres, hpos, hforked, ⟨⟨K, l, halloc.inv.harmless hharm, ?_⟩, ?_, ?_⟩, ?_, ?_,
    halloc.head, ?_⟩
  · rw [halloc.freeList, List.length_cons] at hlen
    omega
  · exact halloc.wrapped.trans h.wrapped
  · intro x hx'
    by_cases heq : x = c
    · rw [heq, hforked.id]
      exact ⟨hpos, fun _ => hx⟩
    · rw [hforked.others x heq]
      exact h.named x hx'
  · rw [forked, Kernel.setEnv_envs_self]
  · rw [forked, Kernel.setEnv_envs_self, hself]
    rfl
  · change k1.envFreeList = _
    rw [halloc.state]

end Mit6828.Kern.CallProgress
