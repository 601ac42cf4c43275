import Mit6828.Kern.Boot
import Mit6828.Kern.KernelInvariant
import Mit6828.Library.Loop

namespace Mit6828.Kern.BootMemory

open Mmu Pmap PageAllocator Environment Separation PageTableSpec RefInvariant KernelInvariant Boot
open Library Function

/-- The pages that `page_init` puts on the free list. -/
def freePool (npagesBasemem med npages : Nat) : Set Nat :=
  { p | 1 ≤ p ∧ p < npagesBasemem ∧ p ≠ mpentryPage ∨ med ≤ p ∧ p < npages }

/-- `page_init` has come to page `i`, with the pages of `l` on the free list. -/
structure Ready (pool : Set Nat) (m0 : Mem) (i : Nat) (m : Mem) (l : List Nat) : Prop where
  freeList : FreeList m l
  frames : SameFrames m0 m
  below : ∀ p ∈ l, p ∈ pool ∧ p < i
  zero : ∀ p ∈ pool, (m.pages p).ppRef = 0

variable {pool : Set Nat} {m0 m : Mem} {l : List Nat} {i i' hi lo : Nat} {base size : Word}

theorem Ready.mono (h : Ready pool m0 i m l) (hi : i ≤ i') : Ready pool m0 i' m l :=
  ⟨h.freeList, h.frames, fun p hp => ⟨(h.below p hp).1, (h.below p hp).2.trans_le hi⟩, h.zero⟩

theorem Ready.skip (h : Ready pool m0 i m l) (hi : i ∉ pool) :
    Ready pool m0 (i + 1) (m.setPage i { ppLink := none, ppRef := 1 }) l := by
  have hnone := h.freeList.offList i fun hmem => hi (h.below i hmem).1
  refine ⟨h.freeList.congr rfl (update_field PageInfo.ppLink hnone.symm), { h.frames with },
    (h.mono (Nat.le_succ i)).below, fun q hq => ?_⟩
  have hne : q ≠ i := fun heq => hi (heq ▸ hq)
  simpa [Mem.setPage, hne] using h.zero q hq

theorem Ready.free (h : Ready pool m0 i m l) (hi : i ∈ pool) :
    Ready pool m0 (i + 1) (pageInitFree m i) (i :: l) := by
  have hnot : i ∉ l := fun hmem => lt_irrefl _ (h.below i hmem).2
  refine ⟨h.freeList.push _ hnot rfl, { h.frames with }, ?_, fun q hq => ?_⟩
  · intro q hq
    rcases List.mem_cons.mp hq with rfl | hmem
    · exact ⟨hi, Nat.lt_succ_self q⟩
    · exact (h.mono (Nat.le_succ i)).below q hmem
  · exact (update_field PageInfo.ppRef (h.zero i hi).symm q).trans (h.zero q hq)

theorem pageInit_ready (m0 : Mem) {npagesBasemem med : Nat} (hmed : 160 ≤ med)
    (hbase : npagesBasemem ≤ 160) (hpages : ∀ p, m0.pages p = { ppLink := none, ppRef := 0 })
    (hhead : m0.pageFreeList = none) :
    ∃ i l, Ready (freePool npagesBasemem med m0.npages) m0 i (pageInit npagesBasemem med m0) l ∧
      ∀ p ∈ freePool npagesBasemem med m0.npages, p ∈ l := by
  let pool := freePool npagesBasemem med m0.npages
  let I := fun i m => ∃ l, Ready pool m0 i m l ∧ ∀ p ∈ pool, p < i → p ∈ l
  have hskip : ∀ i m, i ∉ pool → I i m →
    I (i + 1) (m.setPage i { ppLink := none, ppRef := 1 }) := by
    rintro i m hi ⟨l, hl, hall⟩
    refine ⟨l, hl.skip hi, fun p hp hlt => hall p hp (lt_of_le_of_ne (Nat.le_of_lt_succ hlt) ?_)⟩
    exact fun heq => hi (heq ▸ hp)
  have hfree : ∀ i m, i ∈ pool → I i m → I (i + 1) (pageInitFree m i) := by
    rintro i m hi ⟨l, hl, hall⟩
    refine ⟨i :: l, hl.free hi, fun p hp hlt => List.mem_cons.mpr ?_⟩
    exact (Nat.lt_succ_iff_lt_or_eq.mp hlt).symm.imp_right (hall p hp)
  have hstart : I 0 m0 := by
    refine ⟨[], ⟨⟨hhead, List.nodup_nil, fun p _ => by rw [hpages]⟩, ⟨rfl, rfl, rfl⟩, by simp, ?_⟩,
      by simp⟩
    intro p _
    rw [hpages]
  have hzero : 0 ∉ pool := by
    simp only [pool, freePool, Set.mem_ofPred_eq]
    omega
  obtain ⟨l, hl, hall⟩ := Loop.foldl_range' (I := I) (n := npagesBasemem - 1) (f := fun m i =>
      if i = mpentryPage then m.setPage i { ppLink := none, ppRef := 1 } else pageInitFree m i)
    (hskip 0 m0 hzero hstart) (by
      intro i hi hlt m hm
      by_cases heq : i = mpentryPage
      · rw [if_pos heq]
        refine hskip i m ?_ hm
        simp only [pool, freePool, Set.mem_ofPred_eq, heq, show mpentryPage = 7 from rfl]
        omega
      · rw [if_neg heq]
        exact hfree i m (.inl ⟨by omega, by omega, heq⟩) hm)
  have hlow : ∀ p ∈ pool, p < med → p ∈ l := by
    rintro p hp hlt
    refine hall p hp ?_
    rcases hp with ⟨_, hlt, _⟩ | ⟨hle, _⟩ <;> omega
  obtain ⟨l', hl', hall'⟩ :=
    Loop.foldl_range' (I := I) (n := m0.npages - med) (f := pageInitFree) (a := med)
    ⟨l, hl.mono (by omega), hlow⟩ fun i hi hlt m hm => hfree i m (.inr ⟨hi, by omega⟩) hm
  simp only [pageInit]
  rw [show ((List.range' 1 (npagesBasemem - 1)).foldl (fun m i =>
    if i = mpentryPage then m.setPage i { ppLink := none, ppRef := 1 } else pageInitFree m i)
    (m0.setPage 0 { ppLink := none, ppRef := 1 })).npages = m0.npages from hl.frames.npages]
  refine ⟨_, l', hl', fun p hp => hall' p hp ?_⟩
  rcases hp with ⟨_, hlt, _⟩ | ⟨_, hlt⟩ <;> omega

theorem freePages_eq {n : Nat} {head : Option Nat}
    (h : IntrusiveList.Chain (fun p => (m.pages p).ppLink) head l) (hn : l.length ≤ n) :
    freePages m n head = l := by
  induction l generalizing n head with
  | nil =>
    rw [IntrusiveList.chain_nil.mp h]
    cases n <;> rfl
  | cons p l ih =>
    cases n with
    | zero => exact absurd hn (by simp)
    | succ n =>
      rw [h.1, freePages, ih h.2 (by simpa using hn)]

theorem relink_freeList (hnodup : l.Nodup) (hoff : ∀ p, p ∉ l → (m.pages p).ppLink = none) :
    FreeList (relink l m) l ∧ SameFrames m (relink l m) ∧
      ∀ q, ((relink l m).pages q).ppRef = (m.pages q).ppRef := by
  suffices h : IntrusiveList.Chain (fun p => ((relink l m).pages p).ppLink)
      (relink l m).pageFreeList l ∧
      (∀ p, p ∉ l → ((relink l m).pages p).ppLink = (m.pages p).ppLink) ∧
      SameFrames m (relink l m) ∧ ∀ q, ((relink l m).pages q).ppRef = (m.pages q).ppRef by
    obtain ⟨hchain, hlink, hframes, href⟩ := h
    exact ⟨⟨hchain, hnodup, fun p hp => (hlink p hp).trans (hoff p hp)⟩, hframes, href⟩
  clear hoff
  induction l with
  | nil => exact ⟨rfl, fun _ _ => rfl, ⟨rfl, rfl, rfl⟩, fun _ => rfl⟩
  | cons p l ih =>
    obtain ⟨hp, hnodup⟩ := List.nodup_cons.mp hnodup
    obtain ⟨hchain, hlink, hframes, href⟩ := ih hnodup
    have hupdate := links_setPage (relink l m) p
      { (relink l m).pages p with ppLink := (relink l m).pageFreeList }
    refine ⟨hupdate ▸ hchain.push hp, fun q hq => ?_, { hframes with },
      fun q => (update_field PageInfo.ppRef (by rfl) q).trans (href q)⟩
    rw [List.mem_cons, not_or] at hq
    exact (congrFun hupdate q).trans ((update_of_ne hq.1 _ _).trans (hlink q hq.2))

def bootRoot (kern e : Nat) : Word := if e = nenv then rootWord (some kern) else 0

def KernEntry (i : Nat) (w : Word) : Prop :=
  (w = 0 ∨ w &&& pteP ≠ 0) ∧ (i < pdxUvpt → w &&& pteW = 0) ∧ (pdxUvpt < i → w &&& pteU = 0)

theorem kernEntry_zero (i : Nat) : KernEntry i 0 :=
  ⟨.inl rfl, fun _ => by simp, fun _ => by simp⟩

def HasTable (a : World) (i : Nat) : Prop := a.ref (.pde nenv i) ≠ none

/-- How many of the first `k` entries of the kernel's directory have a page table. -/
noncomputable def tables (a : World) (k : Nat) : Nat := by
  classical
  exact ((Finset.range k).filter (HasTable a)).card

/-- The invariant of `mem_init`, with `n` pages free at the start; the entries in `S` of the
kernel's directory have their page table. -/
structure BootMem (K : KernelMap) (n : Nat) (S : Set Nat) (a : World) : Prop where
  counted : Counted K a
  wrapped : a.mem.wrapped = false
  root : a.root = bootRoot K.kern
  low : ∀ i < pdxUtop, a.view (.pde nenv i) = 0
  pde : ∀ i < npdentries, i ≠ pdxUvpt →
    a.view (.pde nenv i) = 0 ∨ IsTableEntry (a.view (.pde nenv i))
  pte : ∀ i < npdentries, i ≠ pdxUvpt → ∀ j < nptentries, KernEntry i (a.view (.pte nenv i j))
  room : n ≤ a.free.length + tables a npdentries
  has : ∀ i ∈ S, i < npdentries ∧ HasTable a i

variable {K : KernelMap} {a b : World} {n : Nat} {S S' : Set Nat} {va pa perm : Word}

theorem BootMem.mono (h : BootMem K n S a) (hS : S' ⊆ S) : BootMem K n S' a :=
  { h with has := fun i hi => h.has i (hS hi) }

section Tables

variable {k : Nat}

theorem tables_congr (h : ∀ i < k, HasTable b i ↔ HasTable a i) : tables b k = tables a k := by
  classical
  unfold tables
  congr 1
  exact Finset.filter_congr fun i hi => h i (Finset.mem_range.mp hi)

theorem tables_insert (hi : i < k) (ha : ¬ HasTable a i) (hb : HasTable b i)
    (h : ∀ i' < k, i' ≠ i → (HasTable b i' ↔ HasTable a i')) : tables b k = tables a k + 1 := by
  classical
  unfold tables
  rw [← Finset.card_insert_of_notMem (a := i) (by simp [ha])]
  congr 1
  ext i'
  by_cases heq : i' = i
  · subst heq
    simp [hi, hb]
  · by_cases hlt : i' < k
    · simp [heq, hlt, h i' hlt heq]
    · simp [heq, hlt]

theorem tables_le (a : World) (k : Nat) : tables a k ≤ k := by
  classical
  unfold tables
  exact (Finset.card_filter_le _ _).trans_eq (Finset.card_range k)

theorem tables_lt (hi : i < k) (ha : ¬ HasTable a i) : tables a k < k := by
  classical
  unfold tables
  calc ((Finset.range k).filter (HasTable a)).card
      < (Finset.range k).card :=
        Finset.card_lt_card (Finset.filter_ssubset.mpr ⟨i, by simpa using hi, ha⟩)
    _ = k := Finset.card_range _

end Tables

/-- An address that `boot_map_region` may map with these permissions. -/
def KernVa (perm va : Word) : Prop :=
  pdxUtop ≤ pdx va ∧ pdx va ≠ pdxUvpt ∧ (pdx va < pdxUvpt → perm &&& pteW = 0) ∧
    (pdxUvpt < pdx va → perm &&& pteU = 0)

theorem pdx_lt (va : Word) : pdx va < npdentries := by
  have := va.isLt
  grind

theorem rooted_kern (hroot : a.root = bootRoot K.kern) (hva : KernVa perm va) :
    Rooted K.layout a nenv K.kern va where
  root := by
    rw [hroot, bootRoot, if_pos rfl]
    exact frameOf_rootWord (lt_of_lt_of_le K.kern_lt K.npages_le)
  pde_tracked := pde_tracked.mpr (.inr ⟨rfl, pdx_lt va, hva.2.1⟩)
  pde_unpinned := by simp [KernelMap.layout]

theorem BootMem.setPte (h : BootMem K n S a) {t j : Nat} {w : Word} (hi : i < npdentries)
    (hne : i ≠ pdxUvpt) (ht : a.ref (.pde nenv i) = some t) (hw : KernEntry i w) :
    BootMem K n S ⟨a.root, a.mem.setWord (t, j) w, a.free⟩ := by
  let b : World := ⟨a.root, a.mem.setWord (t, j) w, a.free⟩
  have htracked : (.pde nenv i : Slot) ∈ K.layout.tracked := pde_tracked.mpr (.inr ⟨rfl, hi, hne⟩)
  have hview : ∀ s ∈ viewedSlots, b.view s = update a.view (.pte nenv i j) w s :=
    PageTable.view_set_pte h.counted.separated.exclusive htracked ht j w
  have hpde : ∀ i' < npdentries, b.view (.pde nenv i') = a.view (.pde nenv i') := fun i' hi' => by
    rw [hview _ (pde_viewed.mpr ⟨le_rfl, hi'⟩), update_of_ne (by simp)]
  have href : ∀ s ∈ K.layout.tracked, b.ref s = a.ref s := by
    intro s hs
    have hnot : s ≠ .pte nenv i j := by
      rintro rfl
      exact lt_irrefl _ (pte_tracked.mp hs).1
    rw [ref_eq, ref_eq, hview s (K.layout.tracked_subset hs), update_of_ne hnot]
  have htable : ∀ i < npdentries, HasTable b i ↔ HasTable a i := fun i hi => by
    rw [HasTable, HasTable, ref_eq, ref_eq, hpde i hi]
  have hsep := h.counted.separated
  refine ⟨h.counted.congr rfl (hsep.freeList.setWord _ _) (fun _ => rfl) rfl href
    (fun p hp => ⟨hsep.free_pool p hp, h.counted.free_unref p hp⟩), h.wrapped, h.root, ?_, ?_, ?_,
    ?_, ?_⟩
  · intro i' hi'
    rw [hpde i' (hi'.trans (by decide)), h.low i' hi']
  · intro i' hi' hne'
    rw [hpde i' hi']
    exact h.pde i' hi' hne'
  · intro i' hi' hne' j' hj'
    rw [hview _ (pte_viewed.mpr ⟨.inr ⟨rfl, hi', hne'⟩, hj'⟩)]
    by_cases heq : (.pte nenv i' j' : Slot) = .pte nenv i j
    · rw [heq, update_self]
      simp only [PageTable.Slot.pte.injEq] at heq
      exact heq.2.1 ▸ hw
    · rw [update_of_ne heq]
      exact h.pte i' hi' hne' j' hj'
  · rw [show tables b npdentries = tables a npdentries from tables_congr htable]
    exact h.room
  · intro i' hi'
    exact (h.has i' hi').imp_right (htable i' (h.has i' hi').1).mpr

theorem BootMem.take (h : BootMem K n S a) (hva : KernVa perm va)
    (hchange : Change K.layout (pdeSlot nenv va) a b) (hroot : b.root = a.root)
    (hnone : a.ref (pdeSlot nenv va) = none) {p : Nat} (hfree : a.free = p :: b.free)
    (hentry : b.view (pdeSlot nenv va) = page2pa p ||| pteP ||| pteW ||| pteU)
    (href : b.ref (pdeSlot nenv va) = some p) : BootMem K n (insert (pdx va) S) b := by
  have hpde : ∀ i < npdentries, i ≠ pdx va → b.view (.pde nenv i) = a.view (.pde nenv i) :=
    fun i hi hne => hchange.rest _ (pde_viewed.mpr ⟨le_rfl, hi⟩) (by simpa using hne)
      (.inr (by simp))
  have hwrapped : b.mem.wrapped = false := by
    have hacc := hchange.account
    rw [hnone, href] at hacc
    have hzero : a.ppRef p = 0 := by
      rw [h.counted.count p (h.counted.separated.free_pool p (by simp [hfree])),
        h.counted.free_unref p (by simp [hfree])]
      rfl
    cases hacc with
    | take _ _ hup => rw [hup.wrapped, h.wrapped, hzero]; rfl
    | share _ _ _ hup => rw [hup.wrapped, h.wrapped, hzero]; rfl
  have hlow : ∀ i < pdxUtop, i ≠ pdx va := fun i hi heq => absurd hva.1 (by omega)
  refine ⟨h.counted.change hchange (.inr hnone), hwrapped, hroot.trans h.root, ?_, ?_, ?_, ?_, ?_⟩
  · intro i hi
    rw [hpde i (hi.trans (by decide)) (hlow i hi), h.low i hi]
  · intro i hi hne
    by_cases heq : i = pdx va
    · subst heq
      exact .inr ⟨p, hentry⟩
    · rw [hpde i hi heq]
      exact h.pde i hi hne
  · intro i hi hne j hj
    rw [hchange.rest _ (pte_viewed.mpr ⟨.inr ⟨rfl, hi, hne⟩, hj⟩) (by simp) (.inr (by simp))]
    exact h.pte i hi hne j hj
  · rw [tables_insert (pdx_lt va) (a := a) (by simp [HasTable, hnone]) (by simp [HasTable, href])
      fun i hi hne => by rw [HasTable, HasTable, ref_eq, ref_eq, hpde i hi hne]]
    have := h.room
    grind
  · intro i hi
    by_cases heq : i = pdx va
    · rw [heq, HasTable, href]
      exact ⟨pdx_lt va, by simp⟩
    · obtain ⟨hlt, hhas⟩ := h.has i (Set.mem_of_mem_insert_of_ne hi heq)
      rw [HasTable, ref_eq, hpde i hlt heq]
      exact ⟨hlt, hhas⟩

theorem kernEntry_of_kernVa (hva : KernVa perm va) (hpa : pa % pgsize = 0) :
    KernEntry (pdx va) (pa ||| perm ||| pteP) := by
  have hclear : ∀ mask : Word, mask.toNat < 4096 → pa &&& mask = 0 := by
    intro mask hmask
    have hpage : pa = page2pa (pgnum pa) := by
      rw [← pteAddr_eq]
      have hmod : pa.toNat % 4096 = 0 := congrArg BitVec.toNat hpa
      apply BitVec.eq_of_toNat_eq
      rw [pteAddr_eq, ← BitVec.or_zero (x := page2pa (pgnum pa)),
        toNat_page2pa_or (pgnum_lt pa) (by decide), pgnum_eq]
      have : (0#32).toNat = 0 := rfl
      omega
    rw [hpage]
    exact page2pa_and_eq_zero hmask _
  refine ⟨.inr (and_ne_zero_of_getLsbD 0 (by simp [pteP]) rfl), fun hlt => ?_, fun hgt => ?_⟩
  · exact or_and_eq_zero_iff.mpr ⟨or_and_eq_zero_iff.mpr ⟨hclear _ (by decide), hva.2.2.1 hlt⟩,
      by decide⟩
  · exact or_and_eq_zero_iff.mpr ⟨or_and_eq_zero_iff.mpr ⟨hclear _ (by decide), hva.2.2.2 hgt⟩,
      by decide⟩

theorem BootMem.mapPage (h : BootMem K n S a) (hva : KernVa perm va) (hpa : pa % pgsize = 0) :
    (n < npdentries ∧ pgdirWalk K.kern va true a.mem = some (none, a.mem)) ∨
    ∃ t m b, pgdirWalk K.kern va true a.mem = some (some (t, ptx va), m) ∧
      b.mem = m.setWord (t, ptx va) (pa ||| perm ||| pteP) ∧
      BootMem K n (insert (pdx va) S) b := by
  have hsep := h.counted.separated
  have hr := rooted_kern h.root hva
  have hentry := kernEntry_of_kernVa hva hpa
  cases ht : a.ref (pdeSlot nenv va) with
  | some t =>
    have hhas : BootMem K n (insert (pdx va) S) a := { h with
      has := by
        rintro i (rfl | hi)
        · exact ⟨pdx_lt va, by simp [HasTable, ht]⟩
        · exact h.has i hi }
    exact .inr ⟨t, a.mem, _, pgdirWalk_present hsep hr ht true, rfl,
      hhas.setPte (pdx_lt va) hva.2.1 ht hentry⟩
  | none =>
    cases hfree : a.free with
    | nil =>
      refine .inl ⟨?_, pgdirWalk_noMem hsep hr ht hfree⟩
      have hroom := h.room
      have := tables_lt (a := a) (pdx_lt va) (by simp [HasTable, ht])
      grind
    | cons p l =>
      obtain ⟨b, hwalk, hroot, hbfree, hchange, href, hpde⟩ :=
        pgdirWalk_take hsep hr ht hfree (h.counted.unreferenced (by simp [hfree]))
      have hb := h.take hva hchange hroot ht (hbfree ▸ hfree) hpde href
      exact .inr ⟨p, b.mem, _, hwalk, rfl, hb.setPte (pdx_lt va) hva.2.1 href hentry⟩

def Booting (K : KernelMap) (n : Nat) (S : Set Nat) (m : Mem) : Prop :=
  ∃ a : World, a.mem = m ∧ BootMem K n S a

variable {ok : Prop} {m : Mem}

/-- Entries `lo` to `hi - 1` of the kernel's directory, for these permissions: user mode may
read below `UVPT`, and only the kernel uses what is above. -/
def KernPart (perm : Word) (lo hi : Nat) : Prop :=
  pdxUtop ≤ lo ∧ hi ≤ pdxUvpt ∧ perm &&& pteW = 0 ∨
    pdxUvpt < lo ∧ hi ≤ npdentries ∧ perm &&& pteU = 0

theorem KernPart.kernVa {k x : Nat} (h : KernPart perm lo hi) (hlo : lo * 4194304 ≤ va.toNat)
    (hhi : va.toNat + k * 4096 ≤ hi * 4194304) (hx : x < k) :
    KernVa perm (va + BitVec.ofNat 32 x * pgsize) := by
  have hle : hi ≤ 1024 := by
    rcases h with ⟨-, h, -⟩ | ⟨-, h, -⟩
    · exact h.trans (by decide)
    · exact h
  have hnat : (va + BitVec.ofNat 32 x * pgsize).toNat = va.toNat + x * 4096 := by
    rw [BitVec.toNat_add, BitVec.toNat_mul, BitVec.toNat_ofNat, show pgsize.toNat = 4096 from rfl]
    omega
  have hpdx : lo ≤ pdx (va + BitVec.ofNat 32 x * pgsize) ∧
      pdx (va + BitVec.ofNat 32 x * pgsize) < hi := by
    grind
  rw [KernVa]
  generalize pdx (va + BitVec.ofNat 32 x * pgsize) = i at hpdx
  have : pdxUtop = 955 ∧ pdxUvpt = 957 := ⟨rfl, rfl⟩
  rcases h with ⟨hutop, huvpt, hW⟩ | ⟨huvpt, -, hU⟩
  · exact ⟨by omega, by omega, fun _ => hW, fun hgt => absurd hgt (by omega)⟩
  · exact ⟨by omega, by omega, fun hlt => absurd hlt (by omega), fun _ => hU⟩

theorem pageNum_toNat (size : Word) :
    (if size % pgsize ≠ 0 then size / pgsize + 1 else size / pgsize).toNat =
      (size.toNat + 4095) / 4096 := by
  have hdiv : (size / pgsize).toNat = size.toNat / 4096 := BitVec.toNat_udiv
  split
  · rename_i h
    rw [ne_eq, mod_pgsize_eq_zero_iff] at h
    rw [BitVec.toNat_add, hdiv, show (1 : Word).toNat = 1 from rfl]
    omega
  · rename_i h
    rw [not_not, mod_pgsize_eq_zero_iff] at h
    rw [hdiv]
    omega

theorem Booting.mono (h : Booting K n S m) (hS : S' ⊆ S) : Booting K n S' m := by
  obtain ⟨a, ha, hinv⟩ := h
  exact ⟨a, ha, hinv.mono hS⟩

def MmioBase (base : Word) : Prop := 958 * 4194304 ≤ base.toNat ∧ base.toNat < 959 * 4194304

theorem clearPte_outcome (h : Booting K n S m) (hva : KernVa 0 va) (hS : pdx va ∈ S) :
    Outcome ok (clearPte K.kern va m) (Booting K n S) := by
  obtain ⟨a, rfl, ha⟩ := h
  obtain ⟨t, ht⟩ := Option.ne_none_iff_exists'.mp (ha.has _ hS).2
  have hwalk := pgdirWalk_present ha.counted.separated (rooted_kern ha.root hva) ht false
  simp only [clearPte, hwalk, Option.bind_eq_bind, Option.bind_some]
  exact .pure ⟨_, rfl, ha.setPte (pdx_lt va) hva.2.1 ht (kernEntry_zero _)⟩

theorem kernVa_mmio (h : MmioBase va) : KernVa 0 va := by
  obtain ⟨hlo, hhi⟩ := h
  have : pdxUtop = 955 ∧ pdxUvpt = 957 := ⟨rfl, rfl⟩
  rw [KernVa, pdx_eq]
  exact ⟨by omega, by omega, fun _ => by simp, fun _ => by simp⟩

theorem pdx_mmio (h : MmioBase va) : pdx va = 958 := by
  obtain ⟨hlo, hhi⟩ := h
  grind

/-- The bytes that `mmio_map_region` uses up for the devices. -/
def mmioBytes (l : List (Word × Word)) : Nat :=
  (l.map fun x => (x.2.toNat + 4095) / 4096 * 4096).sum

/-- The region lies in the kernel's part of the address space and is mapped as belongs
there. -/
structure KernRegion.Proper (r : KernRegion) : Prop where
  part : ∃ lo hi, KernPart r.perm lo hi ∧ lo * 4194304 ≤ r.va.toNat ∧
    r.va.toNat + (r.size.toNat + 4095) / 4096 * 4096 ≤ hi * 4194304
  aligned : r.pa % pgsize = 0

section Regions

variable (hok : ok → npdentries ≤ n) (h : Booting K n S m)
include hok h

theorem bootMapPages_outcome {k : Nat}
    (hva : ∀ x < k, KernVa perm (va + BitVec.ofNat 32 x * pgsize)) (hpa : pa % pgsize = 0) :
    Outcome ok (bootMapPages K.kern perm k va pa m)
      (Booting K n { i | i ∈ S ∨ 0 < k ∧ i = pdx va }) := by
  induction k generalizing va pa m S with
  | zero =>
    obtain ⟨a, rfl, ha⟩ := h
    exact .pure ⟨a, rfl, ha.mono fun i hi => hi.resolve_right (by simp)⟩
  | succ k ih =>
    obtain ⟨a, rfl, ha⟩ := h
    have hfirst : KernVa perm va := by simpa using hva 0 (Nat.succ_pos k)
    obtain ⟨hlt, hwalk⟩ | ⟨t, m, b, hwalk, hmem, hb⟩ := ha.mapPage hfirst hpa
    · simp only [bootMapPages, hwalk]
      exact .fail fun h => absurd (hok h) (by omega)
    simp only [bootMapPages, hwalk]
    have hrest : ∀ x < k, KernVa perm (va + pgsize + BitVec.ofNat 32 x * pgsize) := by
      intro x hx
      have hx' := hva (x + 1) (Nat.succ_lt_succ hx)
      rwa [BitVec.ofNat_add, BitVec.add_mul, BitVec.add_comm _ (BitVec.ofNat 32 1 * pgsize),
        ← BitVec.add_assoc, show BitVec.ofNat 32 1 * pgsize = pgsize from rfl] at hx'
    have hpa' : (pa + pgsize) % pgsize = 0 := by grind
    refine (ih ⟨b, hmem, hb⟩ hrest hpa').mono fun m ⟨c, hc, hinv⟩ => ⟨c, hc, hinv.mono ?_⟩
    rintro i (hi | ⟨-, rfl⟩)
    · exact .inl (.inr hi)
    · exact .inl (.inl rfl)

theorem bootMapRegion_outcome (hpart : KernPart perm lo hi) (hlo : lo * 4194304 ≤ va.toNat)
    (hhi : va.toNat + (size.toNat + 4095) / 4096 * 4096 ≤ hi * 4194304) (hpa : pa % pgsize = 0) :
    Outcome ok (bootMapRegion K.kern va size pa perm m)
      (Booting K n { i | i ∈ S ∨ 0 < size.toNat ∧ i = pdx va }) := by
  simp only [bootMapRegion]
  rw [pageNum_toNat]
  refine (bootMapPages_outcome hok h (fun x hx => hpart.kernVa hlo hhi hx) hpa).mono ?_
  rintro m ⟨a, ha, hinv⟩
  refine ⟨a, ha, hinv.mono ?_⟩
  rintro i (hi | ⟨hpos, rfl⟩)
  · exact .inl hi
  · exact .inr ⟨by omega, rfl⟩

theorem mmioMapRegion_outcome (hbase : MmioBase base) (hsize : size.toNat ≤ 4194304)
    (hpa : pa % pgsize = 0)
    (hroom : ok → base.toNat + (size.toNat + 4095) / 4096 * 4096 < 959 * 4194304) :
    Outcome ok (mmioMapRegion K.kern pa size base m) fun r => MmioBase r.1 ∧
      r.1.toNat = base.toNat + (size.toNat + 4095) / 4096 * 4096 ∧
      Booting K n { i | i ∈ S ∨ 0 < size.toNat ∧ i = pdx base } r.2 := by
  have hround : (roundup size).toNat = (size.toNat + 4095) / 4096 * 4096 :=
    toNat_roundup (by omega)
  obtain ⟨hlo, hhi⟩ := hbase
  have hsum : (base + roundup size).toNat = base.toNat + (size.toNat + 4095) / 4096 * 4096 := by
    grind
  have hlim : mmiolim.toNat = 959 * 4194304 := rfl
  simp only [mmioMapRegion]
  split
  · rename_i hlt
    have hlt : (base + roundup size).toNat < mmiolim.toNat := hlt
    have hpart : KernPart (ptePcd ||| ptePwt ||| pteW) 958 959 :=
      .inr ⟨by decide, by decide, by decide⟩
    refine (bootMapRegion_outcome hok h hpart hlo ?_ hpa).bind fun m' hm' => .pure
      ⟨⟨?_, ?_⟩, hsum, hm'.mono ?_⟩
    · grind
    · grind
    · rw [hlim] at hlt
      exact hlt
    · rintro i (hi | ⟨hpos, rfl⟩)
      · exact .inl hi
      · refine .inr ⟨?_, rfl⟩
        grind
  · rename_i hge
    refine .fail fun hok' => hge ?_
    change (base + roundup size).toNat < mmiolim.toNat
    rw [hsum, hlim]
    exact hroom hok'

theorem checkMmio_outcome : Outcome ok (checkMmio K.kern m) fun r => MmioBase r.1 ∧
      r.1.toNat = mmiobase.toNat + 3 * 4096 ∧ Booting K n (insert 958 S) r.2 := by
  have hbase : mmiobase.toNat = 958 * 4194304 := rfl
  have hfirst : MmioBase mmiobase := by
    rw [MmioBase, hbase]
    omega
  have hsecond : MmioBase (mmiobase + pgsize) := by
    rw [MmioBase, show (mmiobase + pgsize).toNat = 958 * 4194304 + 4096 from rfl]
    omega
  simp only [checkMmio]
  refine (mmioMapRegion_outcome hok h hfirst (by decide) (by decide) fun _ => by decide).bind ?_
  rintro ⟨mm2, m1⟩ ⟨hmm2, hnat, h1⟩
  have hnat : mm2.toNat = mmiobase.toNat + 2 * 4096 := hnat
  refine (mmioMapRegion_outcome hok h1 hmm2 (by decide) (by decide) fun _ => ?_).bind ?_
  · change mm2.toNat + (4096 + 4095) / 4096 * 4096 < _
    omega
  rintro ⟨base, m2⟩ ⟨hb, hnat', h2⟩
  have hnat' : base.toNat = mm2.toNat + 1 * 4096 := hnat'
  have hmem : ∀ x, MmioBase x → pdx x ∈
      { i | i ∈ { i | i ∈ S ∨ 0 < (4097 : Word).toNat ∧ i = pdx mmiobase } ∨
        0 < (4096 : Word).toNat ∧ i = pdx mm2 } := by
    intro x hx
    refine .inr ⟨by decide, ?_⟩
    rw [pdx_mmio hx, pdx_mmio hmm2]
  refine (clearPte_outcome h2 (kernVa_mmio hfirst) (hmem _ hfirst)).bind fun m3 h3 => ?_
  refine (clearPte_outcome h3 (kernVa_mmio hsecond) (hmem _ hsecond)).bind fun m4 h4 => ?_
  refine (clearPte_outcome h4 (kernVa_mmio hmm2) (hmem _ hmm2)).bind fun m5 h5 => ?_
  refine .pure ⟨hb, ?_, h5.mono ?_⟩
  · rw [hnat', hnat, Nat.add_assoc]
  · rintro i (rfl | hi)
    · exact pdx_mmio hmm2 ▸ hmem mm2 hmm2
    · exact .inl (.inl hi)

theorem mmioMapAll_outcome {l : List (Word × Word)} (hbase : MmioBase base)
    (haligned : ∀ x ∈ l, x.1 % pgsize = 0) (hsmall : ∀ x ∈ l, x.2.toNat ≤ 4194304)
    (hroom : ok → base.toNat + mmioBytes l < 959 * 4194304) :
    Outcome ok (mmioMapAll K.kern l base m) fun r => Booting K n S r.2 := by
  induction l generalizing base m with
  | nil => exact .pure h
  | cons x l ih =>
    obtain ⟨pa, size⟩ := x
    have hsum : mmioBytes ((pa, size) :: l) = (size.toNat + 4095) / 4096 * 4096 + mmioBytes l := rfl
    rw [hsum] at hroom
    have hfirst := mmioMapRegion_outcome hok h hbase (hsmall (pa, size) (by simp))
      (haligned (pa, size) (by simp))
      fun hk => lt_of_le_of_lt (Nat.add_le_add_left (Nat.le_add_right _ _) _) (hroom hk)
    refine hfirst.bind fun ⟨base', m'⟩ ⟨hbase', hnat, h'⟩ => ?_
    have hnat : base'.toNat = base.toNat + (size.toNat + 4095) / 4096 * 4096 := hnat
    refine ih (h'.mono fun i hi => .inl hi) hbase' (fun x hx => haligned x (by simp [hx]))
      (fun x hx => hsmall x (by simp [hx])) fun hk => ?_
    have := hroom hk
    omega

theorem mapRegions_outcome {l : List KernRegion} (hl : ∀ r ∈ l, KernRegion.Proper r) :
    Outcome ok (mapRegions K.kern l m) (Booting K n S) := by
  induction l generalizing m with
  | nil => exact .pure h
  | cons r l ih =>
    obtain ⟨⟨lo, hi, hpart, hlo, hhi⟩, haligned⟩ := hl r (by simp)
    refine (bootMapRegion_outcome hok h hpart hlo hhi haligned).bind fun m' hm' => ?_
    exact ih (hm'.mono fun i hi => .inl hi) fun r hr => hl r (by simp [hr])

end Regions

theorem length_le_of_pool (hnodup : l.Nodup) (hlt : ∀ p ∈ l, p < n) : l.length ≤ n := by
  have hsub : l.toFinset ⊆ Finset.range n := fun p hp =>
    Finset.mem_range.mpr (hlt p (List.mem_toFinset.mp hp))
  calc l.length = l.toFinset.card := (List.toFinset_card_of_nodup hnodup).symm
    _ ≤ (Finset.range n).card := Finset.card_le_card hsub
    _ = n := Finset.card_range n

theorem selfCheck_booting {shuffle : List Nat → List Nat} (h : Booting K n S m)
    (hperm : ∀ l, (shuffle l).Perm l) : Booting K n S (selfCheck shuffle m) := by
  obtain ⟨a, rfl, ha⟩ := h
  have hsep := ha.counted.separated
  have hlen : a.free.length ≤ a.mem.npages := by
    rw [hsep.npages]
    exact length_le_of_pool hsep.freeList.nodup fun p hp => K.pool_lt p (hsep.free_pool p hp)
  have hpages := freePages_eq hsep.freeList.chain hlen
  have hmem : ∀ p, p ∈ shuffle a.free ↔ p ∈ a.free := fun p => (hperm a.free).mem_iff
  obtain ⟨hfree, hframes, href⟩ := relink_freeList (m := a.mem)
    ((hperm a.free).nodup_iff.mpr hsep.freeList.nodup)
    fun p hp => hsep.freeList.offList p fun hp' => hp ((hmem p).mpr hp')
  let b : World := ⟨a.root, relink (shuffle a.free) a.mem, shuffle a.free⟩
  have hview : b.view = a.view := by
    unfold World.view
    rw [show b.mem.phys = a.mem.phys from hframes.phys]
  have hrefs : b.ref = a.ref := by
    funext s
    rw [ref_eq, ref_eq, hview]
  refine ⟨b, by rw [selfCheck, hpages], ?_, hframes.wrapped.trans ha.wrapped, ha.root, ?_, ?_, ?_,
    ?_, ?_⟩
  · refine ha.counted.congr hframes.npages hfree href hframes.wrapped (fun s _ => by rw [hrefs]) ?_
    intro p hp
    have hp' := (hmem p).mp hp
    exact ⟨hsep.free_pool p hp', ha.counted.free_unref p hp'⟩
  · rw [hview]
    exact ha.low
  · rw [hview]
    exact ha.pde
  · rw [hview]
    exact ha.pte
  · rw [show tables b npdentries = tables a npdentries from
        tables_congr fun i _ => by rw [HasTable, HasTable, hrefs],
      show b.free.length = a.free.length from (hperm a.free).length_eq]
    exact ha.room
  · intro i hi
    rw [HasTable, hrefs]
    exact ha.has i hi

theorem page2pa_mod (p : Nat) : page2pa p % pgsize = 0 := by
  rw [mod_pgsize_eq_zero_iff, page2pa, BitVec.toNat_shiftLeft, Nat.shiftLeft_eq]
  omega

theorem proper_page (lo hi p : Nat) (hpart : KernPart perm lo hi) (hlo : lo * 4194304 ≤ va.toNat)
    (hhi : va.toNat + (size.toNat + 4095) / 4096 * 4096 ≤ hi * 4194304) :
    KernRegion.Proper ⟨va, size, page2pa p, perm⟩ :=
  ⟨⟨lo, hi, hpart, hlo, hhi⟩, page2pa_mod p⟩

theorem kernRegions_proper (h : Machine) (pages envs : Nat) :
    ∀ r ∈ kernRegions h pages envs, KernRegion.Proper r := by
  have hread : ∀ lo, pdxUtop ≤ lo → lo + 1 ≤ pdxUvpt → KernPart pteU lo (lo + 1) :=
    fun lo hlo hhi => .inl ⟨hlo, hhi, by decide⟩
  have hkern : ∀ lo hi, pdxUvpt < lo → hi ≤ npdentries → KernPart pteW lo hi :=
    fun lo hi hlo hhi => .inr ⟨hlo, hhi, by decide⟩
  intro r hr
  simp only [kernRegions, List.mem_append, List.mem_cons, List.not_mem_nil, or_false,
    List.mem_map, List.mem_range] at hr
  rcases hr with (rfl | rfl | rfl | rfl) | ⟨i, hi, rfl⟩
  · refine proper_page 956 957 _ (hread 956 (by decide) (by decide)) (by decide) ?_
    have hnpages := h.npages_le
    have hbytes : (BitVec.ofNat 32 (h.npages * pageInfoSize)).toNat = h.npages * 8 := by
      rw [BitVec.toNat_ofNat, show pageInfoSize = 8 from rfl]
      omega
    rw [toNat_roundup (by omega), hbytes, show upages.toNat = 956 * 4194304 from rfl]
    omega
  · exact proper_page 955 956 _ (hread 955 (by decide) (by decide)) (by decide) (by decide)
  · exact proper_page 959 960 _ (hkern 959 960 (by decide) (by decide)) (by decide) (by decide)
  · exact proper_page 960 1024 0 (hkern 960 1024 (by decide) (by decide)) (by decide) (by decide)
  · have hall : ∀ i < ncpuMax, 959 * 4194304 ≤
        (kernbase - BitVec.ofNat 32 i * (kstksize + kstkgap) - kstksize).toNat ∧
      (kernbase - BitVec.ofNat 32 i * (kstksize + kstkgap) - kstksize).toNat +
        (kstksize.toNat + 4095) / 4096 * 4096 ≤ 960 * 4194304 := by decide
    exact proper_page 959 960 _ (hkern 959 960 (by decide) (by decide)) (hall i hi).1 (hall i hi).2

def firstFree (h : Machine) : Nat := h.kend + 1 + (h.npages * 8 + 4095) / 4096 + 31

def blankMap (h : Machine) : KernelMap where
  npages := h.npages
  pool := freePool h.npagesBasemem (firstFree h) h.npages
  kern := h.kend
  dirWord := fun _ => 0
  tableWord := fun _ _ => 0
  npages_le := h.npages_le.trans (by decide)
  pool_lt := by
    have := h.kend_ge
    have := h.kend_lt
    have := h.basemem_le
    rintro p (⟨-, hlt, -⟩ | ⟨-, hlt⟩) <;> omega
  kern_lt := h.kend_lt
  kern_notPool := by
    have := h.kend_ge
    have := h.basemem_le
    rintro (⟨-, hlt, -⟩ | ⟨hge, -⟩)
    · omega
    · rw [firstFree] at hge
      omega
  dirWord_low _ _ := rfl
  dirWord_tidy _ := .inl rfl
  tableWord_tidy _ _ := .inl rfl
  tableWord_readOnly _ _ _ := by simp
  tableWord_kernelOnly _ _ _ := by simp

theorem pageInit_booting (h : Machine) : Booting (blankMap h) (h.npages - firstFree h) ∅
      (pageInit h.npagesBasemem (firstFree h) (initMem h h.kend)) := by
  have hkend := h.kend_ge
  obtain ⟨i, l, hl, hall⟩ := pageInit_ready (initMem h h.kend)
    (show 160 ≤ firstFree h by rw [firstFree]; omega) h.basemem_le (fun _ => rfl) rfl
  have hlen : h.npages - firstFree h ≤ l.length := by
    have hsub : List.range' (firstFree h) (h.npages - firstFree h) ⊆ l := by
      intro p hp
      have hp := List.mem_range'_1.mp hp
      exact hall p (.inr ⟨hp.1, show p < h.npages by omega⟩)
    simpa using (List.subperm_of_subset List.nodup_range' hsub).length_le
  let m := pageInit h.npagesBasemem (firstFree h) (initMem h h.kend)
  let a : World := ⟨bootRoot h.kend, m, l⟩
  have hroot : ∀ e, frameOf (a.root e) = if e = nenv then some h.kend else none := by
    intro e
    change frameOf (if e = nenv then rootWord (some h.kend) else 0) = _
    split
    · exact frameOf_rootWord (h.kend_lt.trans_le (blankMap h).npages_le)
    · exact frameOf_zero
  have hpde : ∀ e i, e ≠ nenv ∨ i ≠ pdxUvpt → a.view (.pde e i) = 0 := by
    intro e i hor
    by_cases he : e = nenv
    · subst he
      rw [view_pde_of_root ((hroot nenv).trans (if_pos rfl)),
        show a.mem.phys = (initMem h h.kend).phys from hl.frames.phys]
      have hi : i ≠ pdx uvpt := pdx_uvpt ▸ hor.resolve_left (by simp)
      simp [initMem, Mem.setWord, Mem.zeroPage, hi]
    · exact PageTable.deref_none ((hroot e).trans (if_neg he))
  have hpdeRef : ∀ e i, e ≠ nenv ∨ i ≠ pdxUvpt → a.ref (.pde e i) = none := fun e i hor => by
    rw [ref_eq, hpde e i hor, frameOf_zero]
  have href : ∀ s ∈ (blankMap h).layout.tracked, ∀ p, a.ref s = some p →
      s = .dir nenv ∧ p = h.kend := by
    intro s hs p hp
    rw [KernelMap.mem_tracked] at hs
    cases s with
    | dir e =>
      rw [show a.ref (.dir e) = frameOf (a.root e) from rfl, hroot] at hp
      split at hp
      · rename_i he
        exact ⟨he ▸ rfl, (Option.some.inj hp).symm⟩
      · exact absurd hp (by simp)
    | pde e i =>
      rw [hpdeRef e i ((pde_mem.mp hs).imp (fun h => h.1.ne) fun h => h.2.2)] at hp
      exact absurd hp (by simp)
    | pte e i j =>
      rw [ref_eq, view_pte_of_absent (hpdeRef e i (.inl (pte_mem.mp hs).1.ne)), frameOf_zero] at hp
      exact absurd hp (by simp)
  have hpool : ∀ s ∈ (blankMap h).layout.tracked, ∀ p ∈ (blankMap h).pool, a.ref s ≠ some p :=
    fun s hs p hp hsp => (blankMap h).kern_notPool (show h.kend ∈ _ from (href s hs p hsp).2 ▸ hp)
  have hrefs : ∀ p ∈ (blankMap h).pool, refs a p = 0 := by
    intro p hp
    rw [refs]
    exact RefCount.refCount_eq_zero_iff.mpr fun s hs => hpool s (KernelMap.mem_tracked.mpr hs) p hp
  have hfree : ∀ p ∈ l, p ∈ (blankMap h).pool := fun p hp => (hl.below p hp).1
  refine ⟨a, rfl, ⟨⟨hl.frames.npages, hl.freeList, hfree, ?_, ?_, ?_, ?_⟩, ?_, ?_, ?_⟩,
    hl.frames.wrapped, rfl, ?_, ?_, ?_, hlen.trans (Nat.le_add_right _ _), by simp⟩
  · intro s hs _ s' hs' p hp hp'
    rw [(href s hs p hp).1, (href s' hs' p hp').1]
  · exact fun s hs _ p hp hmem => hpool s hs p (hfree p hmem) hp
  · exact fun s hs p hp => (href s hs p hp).2 ▸ h.kend_lt
  · exact fun s hs hpin p hp => absurd (href s hs p hp).1 hpin
  · intro p hp
    rw [hrefs p hp]
    exact hl.zero p hp
  · intro _ p hp
    rw [hrefs p hp]
    decide
  · exact fun p hp => hrefs p (hfree p hp)
  · exact fun i hi => hpde nenv i (.inr (by rintro rfl; exact absurd hi (by decide)))
  · exact fun i _ hne => .inl (hpde nenv i (.inr hne))
  · intro i _ hne j _
    rw [view_pte_of_absent (hpdeRef nenv i (.inr hne))]
    exact kernEntry_zero i

theorem bootAlloc_outcome {nextfree bytes : Nat}
    (hok : ok → nextfree + (bytes + 4095) / 4096 < 1024) :
    Outcome ok (bootAlloc nextfree bytes) fun r =>
      r = (nextfree, nextfree + (bytes + 4095) / 4096) := by
  simp only [bootAlloc]
  split
  · exact .fail fun hk => absurd (hok hk) (by omega)
  · exact .pure rfl

theorem memInit_outcome (h : Machine) (hok : ok → firstFree h < 1024)
    (hroom : ok → npdentries ≤ h.npages - firstFree h) :
    Outcome ok (memInit h) fun r => r.1 = h.kend ∧ MmioBase r.2.1 ∧
      r.2.1.toNat = mmiobase.toNat + 3 * 4096 ∧
      Booting (blankMap h) (h.npages - firstFree h) {958} r.2.2 := by
  simp only [memInit]
  refine (bootAlloc_outcome fun hk => ?_).bind ?_
  · have := hok hk
    rw [firstFree] at this
    omega
  rintro _ rfl
  refine (bootAlloc_outcome fun hk => ?_).bind ?_
  · have := hok hk
    rw [firstFree] at this
    rw [show pageInfoSize = 8 from rfl]
    omega
  rintro _ rfl
  refine (bootAlloc_outcome fun hk => ?_).bind ?_
  · have := hok hk
    rw [firstFree] at this
    rw [show pageInfoSize = 8 from rfl, show nenv * envSize = 126976 from rfl]
    omega
  rintro _ rfl
  have hstart := selfCheck_booting (pageInit_booting h) (h.shuffle_perm 0)
  refine (checkMmio_outcome hroom hstart).bind ?_
  rintro ⟨base, m⟩ ⟨hbase, hnat, hm⟩
  refine (mapRegions_outcome hroom hm (kernRegions_proper h _ _)).bind fun m' hm' => ?_
  rw [insert_empty_eq] at hm'
  exact .pure ⟨rfl, hbase, hnat, selfCheck_booting hm' (h.shuffle_perm 1)⟩

end Mit6828.Kern.BootMemory
