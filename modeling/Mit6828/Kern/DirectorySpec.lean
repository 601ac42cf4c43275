import Mit6828.Kern.KernelInvariant
import Mit6828.Library.Loop

namespace Mit6828.Kern.DirectorySpec

open Mmu Pmap PageAllocator Environment Separation PageTableSpec RefInvariant KernelInvariant
open Library Function

variable {K : KernelMap} {a b c : World} {e d i j t : Nat} {s : Slot}

structure FreeStep (e : Nat) (a : World) (s : Slot) (b : World) : Prop where
  owner : s.owner = e
  not_dir : s ≠ .dir e
  empty : b.view s = 0

theorem FreeStep.userStep (h : FreeStep e a s b) (he : e < nenv) : UserStep a s b := by
  cases s with
  | dir e' => exact h.not_dir (congrArg PageTable.Slot.dir h.owner)
  | pde e' i =>
    obtain rfl : e' = e := h.owner
    exact ⟨he, .inl h.empty⟩
  | pte e' i j => exact .inl h.empty

theorem Account.wrapped_eq_of_none {o : Option Nat} (h : Account a b o none) :
    b.mem.wrapped = a.mem.wrapped := by
  cases h with
  | keep _ _ _ hwrapped => exact hwrapped
  | drop p _ _ _ hwrapped => exact hwrapped

theorem FreeStep.wrapped (h : FreeStep e a s b) (hc : Change K.layout s a b) :
    b.mem.wrapped = a.mem.wrapped := by
  have hacc := hc.account
  rw [ref_eq b, h.empty, frameOf_zero] at hacc
  exact Account.wrapped_eq_of_none hacc

theorem run_wrapped (h : Run K.layout (FreeStep e) a b) : b.mem.wrapped = a.mem.wrapped := by
  induction h with
  | refl => rfl
  | step _ hc hstep ih => exact (hstep.wrapped hc).trans ih

theorem run_memInv (h : Run K.layout (FreeStep e) a b) (ha : MemInv K a) (he : e < nenv)
    (hw : a.mem.wrapped = false) : MemInv K b :=
  ha.run h (fun _ _ _ hstep => hstep.userStep he) (.inl ((run_wrapped h).trans hw))

/-- What holds while `env_free` works on the directory of `e`. -/
structure Freeing (K : KernelMap) (e d : Nat) (a b : World) : Prop where
  run : Run K.layout (FreeStep e) a b
  root : b.root = a.root
  inv : MemInv K b
  wrapped : b.mem.wrapped = false

theorem Freeing.start (h : MemInv K a) (hw : a.mem.wrapped = false) : Freeing K e d a a :=
  ⟨.refl, rfl, h, hw⟩

theorem Freeing.step (h : Freeing K e d a b) (he : e < nenv)
    (hc : Change K.layout s b c) (hstep : FreeStep e b s c) (hroot : c.root = b.root) :
    Freeing K e d a c where
  run := h.run.step hc hstep
  root := hroot.trans h.root
  inv := run_memInv (.single hc hstep) h.inv he h.wrapped
  wrapped := (hstep.wrapped hc).trans h.wrapped

theorem pteSlot_pgaddr (hi : i < pdxUtop) (hj : j < nptentries) :
    pteSlot e (pgaddr i j 0) = .pte e i j := by
  have hi' : i < 1024 := hi.trans (by decide)
  rw [pteSlot, pdx_pgaddr hi' hj, ptx_pgaddr hi' hj]

theorem walkable_pgaddr (hd : frameOf (a.root e) = some d) (he : e < nenv) (hi : i < pdxUtop)
    (hj : j < nptentries) : Walkable K.layout a e d (pgaddr i j 0) where
  root := hd
  tracked := by
    rw [pteSlot_pgaddr hi hj]
    exact pte_tracked.mpr ⟨he, hi, hj⟩
  unpinned := ⟨by simp [KernelMap.layout, pteSlot], by simp [KernelMap.layout, pdeSlot]⟩

theorem envFreePtes_spec (h : Freeing K e d a b) (he : e < nenv) (hi : i < pdxUtop)
    (hd : frameOf (b.root e) = some d) (ht : b.ref (.pde e i) = some t) :
    ∃ c, envFreePtes d i t b.mem = some c.mem ∧ Freeing K e d a c ∧ c.root = b.root ∧
      (∀ j < nptentries, c.view (.pte e i j) = 0) ∧
      ∀ i' < pdxUtop, c.view (.pde e i') = b.view (.pde e i') := by
  let I : Nat → Mem → Prop := fun j m => ∃ c : World, c.mem = m ∧ Freeing K e d a c ∧
    c.root = b.root ∧ (∀ i' < pdxUtop, c.view (.pde e i') = b.view (.pde e i')) ∧
    ∀ j' < j, j' < nptentries → c.view (.pte e i j') = 0
  have hstep : ∀ j < nptentries, ∀ m, I j m → ∃ m',
      (if m.phys t j &&& pteP ≠ 0 then pageRemove d (pgaddr i j 0) m else some m) = some m' ∧
        I (j + 1) m' := by
    rintro j hj m ⟨c, rfl, hfree, hroot, hpde, hzero⟩
    have hd' : frameOf (c.root e) = some d := hroot ▸ hd
    have ht' : c.ref (.pde e i) = some t := by rw [ref_eq, hpde i hi, ← ref_eq, ht]
    have hword : c.mem.phys t j = c.view (.pte e i j) := (view_pte_of_ref ht').symm
    have hslot := pteSlot_pgaddr (e := e) hi hj
    by_cases hpresent : c.mem.phys t j &&& pteP ≠ 0
    · have hw := walkable_pgaddr (K := K) hd' he hi hj
      have href : c.ref (pteSlot e (pgaddr i j 0)) = some (pgnum (c.view (.pte e i j))) := by
        rw [hslot, ref_eq, frameOf, if_pos (hword ▸ hpresent)]
      obtain ⟨c', hremove, hroot', -, hchange, hempty⟩ :=
        pageRemove_present hfree.inv.counted.separated hw href
          (fun hmem => hfree.inv.counted.unreferenced hmem _ hw.tracked href)
      rw [hslot] at hchange hempty
      refine ⟨c'.mem, by rw [if_pos hpresent, hremove], c', rfl,
        hfree.step he hchange ⟨rfl, by simp, hempty⟩ hroot', hroot'.trans hroot, ?_, ?_⟩
      · intro i' hi'
        rw [hchange.rest _ (pde_viewed.mpr ⟨he.le, hi'.trans (by decide)⟩) (by simp)
          (.inr (by simp)), hpde i' hi']
      · intro j' hj' hlt
        by_cases heq : j' = j
        · rw [heq, hempty]
        · rw [hchange.rest _ (pte_viewed.mpr ⟨.inl ⟨he, hi⟩, hlt⟩) (by simp [heq])
            (.inr (by simp)), hzero j' (by omega) hlt]
    · refine ⟨c.mem, by rw [if_neg hpresent], c, rfl, hfree, hroot, hpde, ?_⟩
      intro j' hj' hlt
      by_cases heq : j' = j
      · rw [heq]
        rcases hfree.inv.shaped.pte e he i hi j hj with hz | huser
        · exact hz
        · exact absurd huser.1 (hword ▸ hpresent)
      · exact hzero j' (by omega) hlt
  obtain ⟨m, hm, c, rfl, hfree, hroot, hpde, hzero⟩ := Loop.foldlM_range (I := I)
    ⟨b, rfl, h, rfl, fun _ _ => rfl, by simp⟩ hstep
  exact ⟨c, hm, hfree, hroot, fun j hj => hzero j hj hj, hpde⟩

theorem change_clear_pde (h : MemInv K a) (he : e < nenv) (hi : i < pdxUtop)
    (hd : frameOf (a.root e) = some d) (ht : a.ref (.pde e i) = some t)
    (hempty : ∀ j < nptentries, a.view (.pte e i j) = 0) :
    ∃ b : World, pageDecref t (a.mem.setWord (d, i) 0) = some b.mem ∧ b.root = a.root ∧
      Change K.layout (.pde e i) a b ∧ b.view (.pde e i) = 0 := by
  have hsep := h.counted.separated
  have htracked : (.pde e i : Slot) ∈ K.layout.tracked := pde_tracked.mpr (.inl ⟨he, hi⟩)
  have hdir : (.dir e : Slot) ∈ K.layout.tracked := dir_tracked.mpr he.le
  have hnotFree := hsep.table_notFree _ htracked trivial t ht
  obtain ⟨m, hm⟩ := pageDecref_notMem (hsep.freeList.setWord (d, i) 0) hnotFree
  let b : World := ⟨a.root, m, if a.ppRef t - 1 = 0 then t :: a.free else a.free⟩
  have hphys : b.mem.phys = update a.mem.phys d (update (a.mem.phys d) i 0) :=
    hm.frames.phys
  have hview : ∀ s ∈ K.layout.viewed, b.view s = update a.view (.pde e i) 0 s := by
    refine PageTable.view_set_pde hd ?_ ?_ ?_
    · intro s hs htable hne p hp
      rw [hphys, update_of_ne]
      rintro rfl
      exact hne (hsep.exclusive (.dir e) hdir trivial s hs p hd hp)
    · rw [hphys, update_self]
    · intro j hj
      rw [PageTable.deref_none frameOf_zero]
      exact (hempty j (pte_viewed.mp hj).2).symm
  have hslot : b.view (.pde e i) = 0 := by
    rw [hview _ (K.layout.tracked_subset htracked), update_self]
  have hnone : b.ref (.pde e i) = none := by rw [ref_eq, hslot, frameOf_zero]
  refine ⟨b, hm.result, rfl, ⟨htracked, ?_, hm.frames.npages, hm.freeList, ?_, ?_, ?_, ?_⟩, hslot⟩
  · simp [KernelMap.layout]
  · rw [ht, hnone]
    exact .drop t hnotFree rfl hm.ppRef hm.frames.wrapped
  · intro s hs hne _
    rw [hview s hs, update_of_ne hne]
  · simp [hnone]
  · simp [hnone]

theorem envFreePde_spec (h : Freeing K e d a b) (he : e < nenv) (hi : i < pdxUtop)
    (hd : frameOf (b.root e) = some d) :
    ∃ c, envFreePde d b.mem i = some c.mem ∧ Freeing K e d a c ∧ c.root = b.root ∧
      c.view (.pde e i) = 0 ∧
      ∀ i' < pdxUtop, i' ≠ i → c.view (.pde e i') = b.view (.pde e i') := by
  have hword : b.mem.phys d i = b.view (.pde e i) := (view_pde_of_root hd).symm
  by_cases hpresent : b.mem.phys d i &&& pteP = 0
  · refine ⟨b, by rw [envFreePde, if_pos hpresent], h, rfl, ?_, fun _ _ _ => rfl⟩
    rcases h.inv.shaped.pde e he i hi with hzero | hentry
    · exact hzero
    · exact absurd (hword ▸ hpresent) hentry.flags.1
  have htracked : (.pde e i : Slot) ∈ K.layout.tracked := pde_tracked.mpr (.inl ⟨he, hi⟩)
  have ht : b.ref (.pde e i) = some (pgnum (b.view (.pde e i))) := by
    rw [ref_eq, frameOf, if_pos (hword ▸ hpresent)]
  obtain ⟨c, hptes, hfree, hroot, hempty, hpde⟩ := envFreePtes_spec h he hi hd ht
  have ht' : c.ref (.pde e i) = some (pgnum (b.view (.pde e i))) := by
    rw [ref_eq, hpde i hi, ← ref_eq, ht]
  obtain ⟨c', hdecref, hroot', hchange, hzero⟩ :=
    change_clear_pde hfree.inv he hi (hroot ▸ hd) ht' hempty
  refine ⟨c', ?_, hfree.step he hchange ⟨rfl, by simp, hzero⟩ hroot', hroot'.trans hroot,
    hzero, fun i' hi' hne => ?_⟩
  · rw [hword] at hpresent
    have hkaddr := kaddr_ref h.inv.counted.separated htracked ht
    have hpa := pa2page_ref hfree.inv.counted.separated htracked ht'
    rw [hpde i hi, ← show pa2page _ (c.mem.setWord (d, i) 0) = pa2page _ c.mem from rfl] at hpa
    simp only [envFreePde, if_neg hpresent, hword, hkaddr, hptes, hpa, hdecref,
      Option.bind_eq_bind, Option.bind_some]
  · rw [hchange.rest _ (pde_viewed.mpr ⟨he.le, hi'.trans (by decide)⟩) (by simp [hne])
      (.inr (by simp)), hpde i' hi']

theorem envFree_loops (h : MemInv K a) (hw : a.mem.wrapped = false) (he : e < nenv)
    (hd : frameOf (a.root e) = some d) :
    ∃ b, (List.range pdxUtop).foldlM (envFreePde d) a.mem = some b.mem ∧ Freeing K e d a b ∧
      ∀ i < pdxUtop, b.view (.pde e i) = 0 := by
  let I : Nat → Mem → Prop := fun i m => ∃ c : World, c.mem = m ∧ Freeing K e d a c ∧
    ∀ i' < i, i' < pdxUtop → c.view (.pde e i') = 0
  have hstep : ∀ i < pdxUtop, ∀ m, I i m → ∃ m', envFreePde d m i = some m' ∧ I (i + 1) m' := by
    rintro i hi m ⟨c, rfl, hfree, hzero⟩
    obtain ⟨c', hpde, hfree', -, hempty, hrest⟩ :=
      envFreePde_spec hfree he hi (hfree.root ▸ hd)
    refine ⟨c'.mem, hpde, c', rfl, hfree', fun i' hi' hlt => ?_⟩
    by_cases heq : i' = i
    · rw [heq, hempty]
    · rw [hrest i' hlt heq, hzero i' (by omega) hlt]
  obtain ⟨m, hm, b, rfl, hfree, hzero⟩ := Loop.foldlM_range (I := I)
    ⟨a, rfl, .start h hw, by simp⟩ hstep
  exact ⟨b, hm, hfree, fun i hi => hzero i hi hi⟩

theorem Shaped.change_dir (h : Shaped K a) (he : e < nenv) (hc : Change K.layout (.dir e) a b)
    (hlow : ∀ i < pdxUtop, b.view (.pde e i) = 0)
    (hupper : ∀ d, frameOf (b.root e) = some d →
      (∀ i < npdentries, pdxUtop ≤ i → i ≠ pdxUvpt → b.view (.pde e i) = K.dirWord i) ∧
        b.view (.pde e pdxUvpt) = page2pa d ||| pteP ||| pteU) : Shaped K b := by
  have hsame : ∀ t ∈ viewedSlots, t.owner ≠ e → b.view t = a.view t := by
    intro t ht hne
    refine hc.rest t ht ?_ (.inr ?_)
    · rintro rfl
      exact hne rfl
    · intro heq
      exact hne (by simpa using heq.symm)
  have hroot : ∀ e' ≤ nenv, e' ≠ e → b.root e' = a.root e' := fun e' he' hne =>
    hsame (.dir e') (dir_viewed.mpr he') hne
  refine ⟨(hroot nenv le_rfl he.ne').trans h.kern, ?_, ?_, ?_, ?_, ?_, ?_⟩
  · intro i hi hne
    rw [hsame _ (pde_viewed.mpr ⟨le_rfl, hi⟩) he.ne', h.kernDir i hi hne]
  · intro i hi hne j hj
    rw [hsame _ (pte_viewed.mpr ⟨.inr ⟨rfl, hi, hne⟩, hj⟩) he.ne', h.kernTable i hi hne j hj]
  · intro e' he' d hd i hi hi' hne
    by_cases heq : e' = e
    · subst heq
      exact (hupper d hd).1 i hi hi' hne
    · rw [hsame _ (pde_viewed.mpr ⟨he'.le, hi⟩) heq]
      exact h.upper e' he' d (hroot e' he'.le heq ▸ hd) i hi hi' hne
  · intro e' he' d hd
    by_cases heq : e' = e
    · subst heq
      exact (hupper d hd).2
    · rw [hsame _ (pde_viewed.mpr ⟨he'.le, by decide⟩) heq]
      exact h.self e' he' d (hroot e' he'.le heq ▸ hd)
  · intro e' he' i hi
    by_cases heq : e' = e
    · subst heq
      exact .inl (hlow i hi)
    · rw [hsame _ (pde_viewed.mpr ⟨he'.le, hi.trans (by decide)⟩) heq]
      exact h.pde e' he' i hi
  · intro e' he' i hi j hj
    by_cases heq : e' = e
    · subst heq
      refine .inl (view_pte_of_absent ?_)
      rw [ref_eq, hlow i hi, frameOf_zero]
    · rw [hsame _ (pte_viewed.mpr ⟨.inl ⟨he', hi⟩, hj⟩) heq]
      exact h.pte e' he' i hi j hj

theorem change_drop_dir (h : MemInv K a) (he : e < nenv) (hd : frameOf (a.root e) = some d)
    (hw : a.mem.wrapped = false) (hempty : ∀ i < pdxUtop, a.view (.pde e i) = 0) :
    ∃ b : World, pageDecref d a.mem = some b.mem ∧ b.root = update a.root e 0 ∧
      Change K.layout (.dir e) a b ∧ MemInv K b ∧ b.mem.wrapped = false := by
  have hsep := h.counted.separated
  have hdir : (.dir e : Slot) ∈ K.layout.tracked := dir_tracked.mpr he.le
  have hnotFree := hsep.table_notFree _ hdir trivial d hd
  obtain ⟨m, hm⟩ := pageDecref_notMem hsep.freeList hnotFree
  let b : World :=
    ⟨update a.root e 0, m, if a.ppRef d - 1 = 0 then d :: a.free else a.free⟩
  have hlow : ∀ i, (.pde e i : Slot) ∈ K.layout.tracked → i < pdxUtop := by
    intro i hi
    rcases pde_tracked.mp hi with ⟨-, hlt⟩ | ⟨heq, -⟩
    · exact hlt
    · omega
  have hview : ∀ s ∈ K.layout.viewed, s ∈ K.layout.tracked ∨ s.owner ≠ e →
      b.view s = update a.view (.dir e) 0 s := by
    refine PageTable.view_set_root ?_ ?_ ?_ frameOf_zero
    · intro s _ _ _ p _
      exact congrFun hm.frames.phys p
    · exact fun i hi => hempty i (hlow i hi)
    · exact fun i _ => PageTable.deref_none frameOf_zero
  have hslot : b.root e = 0 := update_self _ _ _
  have hnone : b.ref (.dir e) = none := by
    rw [ref_eq, show b.view (.dir e) = 0 from hslot, frameOf_zero]
  have hchange : Change K.layout (.dir e) a b := by
    refine ⟨hdir, ?_, hm.frames.npages, hm.freeList, ?_, ?_, ?_, ?_⟩
    · simpa [KernelMap.layout] using he.ne
    · rw [show a.ref (.dir e) = some d from hd, hnone]
      exact .drop d hnotFree rfl hm.ppRef hm.frames.wrapped
    · intro s hs hne hor
      rw [hview s hs, update_of_ne hne]
      refine hor.imp_right fun howner heq => howner (by rw [heq])
    · simp [hnone]
    · simp [hnone]
  have hw' : b.mem.wrapped = false := hm.frames.wrapped.trans hw
  refine ⟨b, hm.result, rfl, hchange, ⟨h.counted.change hchange (.inl hw'),
    Shaped.change_dir h.shaped he hchange ?_ ?_⟩, hw'⟩
  · intro i _
    exact PageTable.deref_none (by rw [hslot, frameOf_zero])
  · intro d' hd'
    rw [hslot, frameOf_zero] at hd'
    exact absurd hd' (by simp)

def setupVm (p kern : Nat) (m : Mem) : Mem :=
  ((m.incref p).copyPage p kern).setWord (p, pdx uvpt) (page2pa p ||| pteP ||| pteU)

theorem change_new_dir (h : MemInv K a) (he : e < nenv) (hroot : a.root e = 0) {p : Nat}
    {l : List Nat} (hfree : a.free = p :: l) {m : Mem} (hm : Allocated true a.mem p l m) :
    ∃ b : World, b.mem = setupVm p K.kern m ∧ b.free = l ∧
      b.root = update a.root e (rootWord (some p)) ∧
      Change K.layout (.dir e) a b ∧ MemInv K b := by
  have hsep := h.counted.separated
  have hfresh := h.counted.unreferenced (p := p) (by simp [hfree])
  have hpool := hsep.free_pool p (by simp [hfree])
  have hlt : p < 1048576 := lt_of_lt_of_le (K.pool_lt p hpool) K.npages_le
  have hdir : (.dir e : Slot) ∈ K.layout.tracked := dir_tracked.mpr he.le
  have hkern : frameOf (a.root nenv) = some K.kern := by
    rw [h.shaped.kern]
    exact frameOf_rootWord (lt_of_lt_of_le K.kern_lt K.npages_le)
  have hpk : p ≠ K.kern := fun heq => K.kern_notPool (heq ▸ hpool)
  let b : World := ⟨update a.root e (rootWord (some p)), setupVm p K.kern m, l⟩
  have hphys : ∀ q, q ≠ p → b.mem.phys q = a.mem.phys q := by
    intro q hq
    simp [b, setupVm, Mem.setWord, Mem.copyPage, hm.phys, hq]
  have hpage : ∀ i, i ≠ pdxUvpt → b.mem.phys p i = a.mem.phys K.kern i := by
    intro i hi
    simp [b, setupVm, Mem.setWord, Mem.copyPage, hm.phys, hpk.symm, pdx_uvpt, hi]
  have hslot : b.root e = rootWord (some p) := update_self _ _ _
  have hframe : frameOf (b.root e) = some p := by rw [hslot, frameOf_rootWord hlt]
  have hentry : ∀ i < npdentries, i ≠ pdxUvpt → b.view (.pde e i) = K.dirWord i := by
    intro i hi hne
    rw [view_pde_of_root hframe, hpage i hne, ← view_pde_of_root hkern, h.shaped.kernDir i hi hne]
  have hlow : ∀ i < pdxUtop, b.view (.pde e i) = 0 := by
    intro i hi
    have hne : i ≠ pdxUvpt := by grind
    rw [hentry i (hi.trans (by decide)) hne, K.dirWord_low i hi]
  have hview : ∀ s ∈ K.layout.viewed, s ∈ K.layout.tracked ∨ s.owner ≠ e →
      b.view s = update a.view (.dir e) (rootWord (some p)) s := by
    refine PageTable.view_set_root ?_ ?_ ?_ frameOf_zero
    · intro s hs _ _ q hq
      exact hphys q fun heq => hfresh s hs (heq ▸ hq)
    · exact fun i _ => PageTable.deref_none (by rw [hroot, frameOf_zero])
    · intro i hi
      rcases pde_tracked.mp hi with ⟨-, hlt⟩ | ⟨heq, -⟩
      · rw [← hlow i hlt, ← hslot]
        rfl
      · omega
  have href : b.ref (.dir e) = some p := hframe
  have hold : a.ref (.dir e) = none := by
    rw [ref_eq, show a.view (.dir e) = 0 from hroot, frameOf_zero]
  have hchange : Change K.layout (.dir e) a b := by
    refine ⟨hdir, ?_, hm.npages, hm.freeList.congr rfl fun q => incref_ppLink m p q, ?_, ?_, ?_, ?_⟩
    · simpa [KernelMap.layout] using he.ne
    · rw [hold, href]
      refine .take p hfree ⟨fun q => ?_, ?_⟩
      · rw [show b.ppRef q = ((m.incref p).pages q).ppRef from rfl, incref_ppRef, hm.ppRef]
        rfl
      · rw [show b.mem.wrapped = (m.incref p).wrapped from rfl, incref_wrapped, hm.ppRef,
          hm.wrapped]
        rfl
    · intro s hs hne hor
      rw [hview s hs, update_of_ne hne]
      refine hor.imp_right fun howner heq => howner (by rw [heq])
    · intro q hq
      exact Option.mem_unique href hq ▸ hpool
    · intro q hq _ s hs hsq
      exact absurd (Option.mem_unique href hq ▸ hsq) (hfresh s hs)
  refine ⟨b, rfl, rfl, rfl, hchange, h.counted.change hchange (.inr hold),
    Shaped.change_dir h.shaped he hchange hlow fun d hd => ⟨fun i hi _ => hentry i hi, ?_⟩⟩
  obtain rfl := Option.mem_unique hframe hd
  rw [view_pde_of_root hframe]
  simp [b, setupVm, Mem.setWord, pdx_uvpt]

end Mit6828.Kern.DirectorySpec
