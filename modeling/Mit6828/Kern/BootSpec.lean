import Mit6828.Kern.AddressSpaceSpec
import Mit6828.Kern.BootMemory

namespace Mit6828.Kern.BootSpec

open Mmu Pmap PageAllocator AddressSpace Environment Separation PageTableSpec RefInvariant
open KernelInvariant PageCallSpec EnvSpec AddressSpaceSpec Boot BootMemory Library
open Library.IntrusiveList Function

/-- The kernel's part of memory as `mem_init` leaves it. -/
def kernMap (K : KernelMap) {n : Nat} {S : Set Nat} {a : World} (h : BootMem K n S a) :
    KernelMap where
  npages := K.npages
  pool := K.pool
  kern := K.kern
  dirWord := fun i => if i < npdentries ∧ i ≠ pdxUvpt then a.view (.pde nenv i) else 0
  tableWord := fun i j =>
    if i < npdentries ∧ i ≠ pdxUvpt ∧ j < nptentries then a.view (.pte nenv i j) else 0
  npages_le := K.npages_le
  pool_lt := K.pool_lt
  kern_lt := K.kern_lt
  kern_notPool := K.kern_notPool
  dirWord_low := by
    intro i hi
    rw [h.low i hi, ite_self]
  dirWord_tidy := by
    intro i
    split
    · rename_i hi
      exact (h.pde i hi.1 hi.2).imp_right fun hentry => hentry.flags.1
    · exact .inl rfl
  tableWord_tidy := by
    intro i j
    split
    · rename_i hi
      exact (h.pte i hi.1 hi.2.1 j hi.2.2).1
    · exact .inl rfl
  tableWord_readOnly := by
    intro i hlt j
    split
    · rename_i hi
      exact (h.pte i hi.1 hi.2.1 j hi.2.2).2.1 hlt
    · simp
  tableWord_kernelOnly := by
    intro i hgt j
    split
    · rename_i hi
      exact (h.pte i hi.1 hi.2.1 j hi.2.2).2.2 hgt
    · simp

variable {K : KernelMap} {n c c' : Nat} {S : Set Nat} {a : World} {P P' : Nat → Prop}
  {len va : Word} {binary : Binary}

theorem memInv_of_bootMem (h : BootMem K n S a) : MemInv (kernMap K h) a := by
  have hroot : ∀ e < nenv, a.root e = 0 := fun e he => by
    rw [h.root, bootRoot, if_neg he.ne]
  have hnone : ∀ e < nenv, frameOf (a.root e) = none := fun e he => by
    rw [hroot e he, frameOf_zero]
  have hpde : ∀ e < nenv, ∀ i, a.view (.pde e i) = 0 := fun e he i =>
    PageTable.deref_none (hnone e he)
  have habsurd : ∀ e < nenv, ∀ d, frameOf (a.root e) ≠ some d := fun e he d hd => by
    rw [hnone e he] at hd
    exact absurd hd (by simp)
  refine ⟨{ h.counted with }, ?_, ?_, ?_, ?_, ?_, ?_, ?_⟩
  · rw [h.root, bootRoot, if_pos rfl]
    rfl
  · intro i hi hne
    exact (if_pos (And.intro hi hne)).symm
  · intro i hi hne j hj
    exact (if_pos (And.intro hi (And.intro hne hj))).symm
  · exact fun e he d hd => absurd hd (habsurd e he d)
  · exact fun e he d hd => absurd hd (habsurd e he d)
  · exact fun e he i _ => .inl (hpde e he i)
  · intro e he i _ j _
    exact .inl (view_pte_of_absent (by rw [ref_eq, hpde e he i, frameOf_zero]))

/-- The slots below `i` still to be linked, `env_init` has come to this state from `k0`. -/
structure EnvsLinked (k0 k : Kernel) (i : Nat) (l : List Nat) : Prop where
  rest : k = { k0 with envs := k.envs, envFreeList := k.envFreeList }
  fields : ∀ e, ∃ id link, k.envs e = { k0.envs e with envId := id, envLink := link } ∧
    (id = 0 ∨ id = (k0.envs e).envId)
  chain : Chain (fun e => (k.envs e).envLink) k.envFreeList l
  nodup : l.Nodup
  bound : ∀ e ∈ l, i ≤ e ∧ e < nenv

theorem envInitSlots_linked {k0 : Kernel} {i : Nat} : ∀ {k : Kernel} {l : List Nat}, i ≤ nenv →
    EnvsLinked k0 k i l → EnvsLinked k0 (envInitSlots i k) 0 (List.range i ++ l) := by
  induction i with
  | zero => exact fun _ h => h
  | succ i ih =>
    intro k l hi h
    let k' : Kernel := { k.setEnv i { k.envs i with envId := 0, envLink := k.envFreeList } with
      envFreeList := some i }
    have hself : k'.envs i = { k.envs i with envId := 0, envLink := k.envFreeList } :=
      Kernel.setEnv_envs_self
    have hother : ∀ e, e ≠ i → k'.envs e = k.envs e := fun e he => Kernel.setEnv_envs_of_ne he
    have hnot : i ∉ l := fun hmem => absurd (h.bound i hmem).1 (by omega)
    have hlink : (fun e => (k'.envs e).envLink) =
        update (fun e => (k.envs e).envLink) i k.envFreeList :=
      comp_update Env.envLink k.envs i _
    have h' : EnvsLinked k0 k' i (i :: l) := by
      refine ⟨?_, fun e => ?_, ?_, List.nodup_cons.mpr ⟨hnot, h.nodup⟩, fun e he => ?_⟩
      · change ({ k with envs := k'.envs, envFreeList := some i } : Kernel) = _
        rw [h.rest]
      · by_cases he : e = i
        · subst he
          obtain ⟨id, link, henv, -⟩ := h.fields e
          exact ⟨0, k.envFreeList, by rw [hself, henv], .inl rfl⟩
        · rw [hother e he]
          exact h.fields e
      · rw [hlink]
        exact h.chain.push hnot
      · rcases List.mem_cons.mp he with rfl | hmem
        · exact ⟨le_rfl, hi⟩
        · exact ⟨(Nat.le_succ i).trans (h.bound e hmem).1, (h.bound e hmem).2⟩
    have hstep := ih (Nat.le_of_succ_le hi) h'
    rw [List.range_succ, List.append_assoc]
    exact hstep

section Load

variable {ok : Prop} {k : Kernel} {free : List Nat} {e d pn : Nat} {begin_ : Word} {m : Mem}

abbrev pageSlot (e pn : Nat) : Slot := .pte e (pn / 1024) (pn % 1024)

theorem pteSlot_eq_pageSlot (e : Nat) (va : Word) : pteSlot e va = pageSlot e (pgnum va) := by
  have hptx := ptx_lt va
  rw [pteSlot, pageSlot, pgnum_eq_pdx_ptx]
  congr 1
  · omega
  · omega

def StorablePage (a : World) (e pn : Nat) : Prop :=
  pn < 955 * 1024 ∧ a.view (pageSlot e pn) &&& pteP ≠ 0 ∧ a.view (pageSlot e pn) &&& pteW ≠ 0

theorem StorablePage.congr {b : World} (h : StorablePage a e pn)
    (hview : b.view (pageSlot e pn) = a.view (pageSlot e pn)) : StorablePage b e pn := by
  rw [StorablePage, hview]
  exact h

theorem StorablePage.viewed (h : StorablePage a e pn) (he : e < nenv) :
    pageSlot e pn ∈ viewedSlots := by
  have := h.1
  exact pte_viewed.mpr ⟨.inl ⟨he, by grind⟩, by grind⟩

theorem StorablePage.storable (h : StorablePage (world k free) e (pgnum va)) :
    Storable k free e va := by
  obtain ⟨hlt, hentry⟩ := h
  refine ⟨?_, ?_⟩
  · rw [pgnum_eq] at hlt
    change va.toNat < utop.toNat
    grind
  · rw [pteSlot_eq_pageSlot]
    exact hentry

/-- Memory has become `m` after the allocation of some pages of environment `e`: at most
`cost` pages have left the free list, and where all went well the pages in `P` are there. -/
structure GrownTo (K : KernelMap) (ok : Prop) (k : Kernel) (free : List Nat) (e cost : Nat)
    (P : Nat → Prop) (m : Mem) (free' : List Nat) : Prop where
  inv : Inv K { k with mem := m } free'
  wrapped : m.wrapped = false
  room : free.length ≤ free'.length + cost
  storable : ok → ∀ pn, StorablePage (world k free) e pn ∨ P pn →
    StorablePage (world { k with mem := m } free') e pn

def Grown (K : KernelMap) (ok : Prop) (k : Kernel) (free : List Nat) (e cost : Nat)
    (P : Nat → Prop) (m : Mem) : Prop := ∃ free', GrownTo K ok k free e cost P m free'

theorem Grown.refl (h : Inv K k free) (hw : k.mem.wrapped = false) :
    Grown K ok k free e 0 (fun _ => False) k.mem :=
  ⟨free, h, hw, le_rfl, fun _ _ hor => hor.resolve_right id⟩

theorem Grown.mono (h : Grown K ok k free e c P m) (hc : c ≤ c')
    (hP : ∀ q, P' q → P q) : Grown K ok k free e c' P' m := by
  obtain ⟨free', hinv, hw, hroom, hstorable⟩ := h
  exact ⟨free', hinv, hw, by omega, fun hk pn hor => hstorable hk pn (hor.imp_right (hP pn))⟩

theorem isUserEntry_region (p : Nat) : IsUserEntry (page2pa p ||| (pteW ||| pteU) ||| pteP) :=
  ⟨and_ne_zero_of_getLsbD 0 (by simp [pteP]) rfl,
    and_ne_zero_of_getLsbD 2 (by simp [pteU, pteW]) rfl⟩

theorem regionAlloc_page (h : Inv K k free) (hw : k.mem.wrapped = false) (he : e < nenv)
    (hd : (k.envs e).envPgdir = some d) (hlt : begin_ < utop) (hroom : ok → 2 ≤ free.length) :
    (free = [] ∧ ¬ ok ∧ pageAlloc false k.mem = (none, k.mem)) ∨
    ∃ pp m r m', pageAlloc false k.mem = (some pp, m) ∧
      pageInsert d pp begin_ (pteW ||| pteU) m = some (r, m') ∧
      Grown K ok k free e 2 (fun pn => pn = pgnum begin_) m' := by
  have hl : FreeList k.mem free := h.mem.counted.separated.freeList
  cases free with
  | nil => exact .inl ⟨rfl, fun hk => absurd (hroom hk) (by simp), pageAlloc_nil hl false⟩
  | cons pp l =>
    obtain ⟨m, hm⟩ := pageAlloc_cons hl false
    have hdet := detached_of_allocated h.mem (show (world k (pp :: l)).free = pp :: l from rfl) hm
    have hinv : Inv K { k with mem := m } l := ⟨h.mem.detach hdet, h.env.setMem m⟩
    have hwalk := walkable_of_env l hinv.env he hd hlt
    have hins := insertable_of_detached h.mem hdet
    have hzero : ∀ p ∈ pp :: l, (m.pages p).ppRef ≠ 0xFFFF := fun p hp => by
      rw [hm.ppRef, show (k.mem.pages p).ppRef = 0 from ppRef_of_free h.mem hp]
      decide
    have hsame : ∀ pn, StorablePage (world k (pp :: l)) e pn →
        StorablePage (world { k with mem := m } l) e pn :=
      fun pn hpn => hpn.congr (hdet.view _ (hpn.viewed he))
    obtain ⟨hnil, -, hinsert⟩ | ⟨b, hb⟩ := pageInsert_spec hinv.mem.counted.separated hwalk hins
      (show (pteW ||| pteU).toNat < 4096 by decide)
      fun p hp => hinv.mem.counted.unreferenced hp
    · refine .inr ⟨pp, m, -eNoMem, m, hm.result, hinsert, l, hinv, hm.wrapped.trans hw, ?_, ?_⟩
      · rw [show l = [] from hnil]
        simp
      · intro hk
        have := hroom hk
        rw [show l = [] from hnil] at this
        exact absurd this (by simp)
    · have hedit := Edited.of_inserted hb
      have hbw : b.mem.wrapped = false := by
        rw [hb.wrapped (hzero pp (by simp)) fun p hp => hzero p (by simp [show p ∈ l from hp])]
        exact hm.wrapped.trans hw
      have hworld : world { k with mem := b.mem } b.free = b := world_of_root hb.root
      refine .inr ⟨pp, m, 0, b.mem, hm.result, hb.result, b.free, ⟨?_, h.env.setMem _⟩, hbw, ?_,
        fun _ pn hor => ?_⟩
      · rw [hworld]
        exact hedit.memInv hinv.mem he (.inr (isUserEntry_region pp)) (.inl hbw)
      · have := hb.room
        rw [List.length_cons]
        change l.length ≤ b.free.length + _ at this
        split at this <;> omega
      rw [hworld]
      by_cases hpn : pn = pgnum begin_
      · subst hpn
        refine ⟨?_, ?_⟩
        · have : begin_.toNat < utop.toNat := hlt
          grind
        · rw [← pteSlot_eq_pageSlot, hb.entry]
          exact ⟨(isUserEntry_region pp).1, and_ne_zero_of_getLsbD 1 (by simp [pteU, pteW]) rfl⟩
      · have hold := hsame pn (hor.resolve_right hpn)
        refine hold.congr (hedit.view_eq (hold.viewed he) (by simp) ?_)
        grind

theorem GrownTo.trans {free' : List Nat} {m' : Mem} (h : GrownTo K ok k free e c P m free')
    (h' : Grown K ok { k with mem := m } free' e c' P' m') :
    Grown K ok k free e (c + c') (fun pn => P pn ∨ P' pn) m' := by
  obtain ⟨-, -, hroom, hP⟩ := h
  obtain ⟨free'', hinv, hw, hroom', hP'⟩ := h'
  refine ⟨free'', hinv, hw, by omega, fun hk pn hor => hP' hk pn ?_⟩
  rcases hor with hold | hnew | hnew
  · exact .inl (hP hk pn (.inl hold))
  · exact .inl (hP hk pn (.inr hnew))
  · exact .inr hnew

theorem regionAllocPages_outcome : ∀ {n pn : Nat} {k : Kernel} {free : List Nat} {begin_ : Word},
    Inv K k free → k.mem.wrapped = false → e < nenv → (k.envs e).envPgdir = some d →
    begin_.toNat = pn * 4096 → pn + n ≤ 955 * 1024 → (ok → 2 * n ≤ free.length) →
    Outcome ok (regionAllocPages d n begin_ k.mem)
      (Grown K ok k free e (2 * n) fun q => pn ≤ q ∧ q < pn + n) := by
  intro n
  induction n with
  | zero =>
    intro pn k free begin_ h hw _ _ _ _ _
    exact .pure ((Grown.refl h hw).mono le_rfl (by omega))
  | succ n ih =>
    intro pn k free begin_ h hw he hd hbegin hle hroom
    have hlt : begin_ < utop := by
      change begin_.toNat < utop.toNat
      grind
    obtain ⟨-, hnok, halloc⟩ | ⟨pp, m, r, m', halloc, hinsert, hgrown⟩ :=
      regionAlloc_page h hw he hd hlt fun hk => by have := hroom hk; omega
    · simp only [regionAllocPages, halloc]
      exact .fail hnok
    simp only [regionAllocPages, halloc, hinsert, Option.bind_eq_bind, Option.bind_some]
    obtain ⟨free', hm'⟩ := hgrown
    have hnext : (begin_ + pgsize).toNat = (pn + 1) * 4096 := by grind
    refine (ih (k := { k with mem := m' }) hm'.inv hm'.wrapped he hd hnext (by omega)
      fun hk => ?_).mono fun m'' hm'' => ?_
    · have := hroom hk
      have := hm'.room
      omega
    · refine (hm'.trans hm'').mono (by omega) fun q ⟨hlo, hhi⟩ => ?_
      grind

@[grind unfold]
def pagesOf (va len : Word) : Nat := (va.toNat + len.toNat + 4095) / 4096 - va.toNat / 4096

theorem mem_addrs_toNat {x : Word} (hx : x ∈ addrs va n) (h : va.toNat + n ≤ 2 ^ 32) :
    va.toNat ≤ x.toNat ∧ x.toNat < va.toNat + n := by
  obtain ⟨i, hi, rfl⟩ := mem_addrs.mp hx
  grind

theorem Grown.bind {o : Option Mem} {f : Mem → Option Mem}
    (h : Outcome ok o (Grown K ok k free e c P))
    (hf : ∀ m free', GrownTo K ok k free e c P m free' →
      Outcome ok (f m) (Grown K ok { k with mem := m } free' e c' P')) :
    Outcome ok (o >>= f) (Grown K ok k free e (c + c') fun pn => P pn ∨ P' pn) := by
  refine h.bind fun m hm => ?_
  obtain ⟨free', hm⟩ := hm
  exact (hf m free' hm).mono fun m' => hm.trans

variable (h : Inv K k free) (hw : k.mem.wrapped = false) (he : e < nenv)
  (hd : (k.envs e).envPgdir = some d)
include h hw he hd

theorem regionAlloc_outcome (hva : va.toNat + len.toNat ≤ utop.toNat)
    (hroom : ok → 2 * pagesOf va len ≤ free.length) :
    Outcome ok (regionAlloc d va len k.mem) (Grown K ok k free e (2 * pagesOf va len) fun q =>
      va.toNat / 4096 ≤ q ∧ q < (va.toNat + len.toNat + 4095) / 4096) := by
  rw [show utop.toNat = 955 * 4194304 from rfl] at hva
  have hbegin := toNat_rounddown va
  simp only [regionAlloc]
  rw [pageCount (by omega)]
  refine (regionAllocPages_outcome h hw he hd hbegin ?_ hroom).mono fun m hm => ?_
  · grind
  · refine hm.mono le_rfl fun q hq => ?_
    obtain ⟨hlo, hhi⟩ := hq
    grind

theorem storeBytes_outcome {bs : List Byte} (hlen : bs.length ≤ n) (hva : va.toNat + n ≤ utop.toNat)
    (hpages : ok → ∀ q, va.toNat / 4096 ≤ q → q < (va.toNat + n + 4095) / 4096 →
      StorablePage (world k free) e q) :
    Outcome ok (storeBytes d k.mem va bs) (Grown K ok k free e 0 fun _ => False) := by
  rw [show utop.toNat = 955 * 4194304 from rfl] at hva
  have haddr : ∀ x ∈ addrs va bs.length, va.toNat ≤ x.toNat ∧ x.toNat < va.toNat + n := by
    intro x hx
    have := mem_addrs_toNat hx (by omega)
    omega
  constructor
  · intro hk
    obtain ⟨m, hm⟩ := storeBytes_returns h he hd bs fun x hx => by
      have := haddr x hx
      refine (hpages hk _ ?_ ?_).storable
      · grind
      · grind
    rw [hm]
    rfl
  · intro m hm
    have hstored := storeBytes_stored h he hd (fun x hx => by
      have := haddr x hx
      change x.toNat < utop.toNat
      rw [show utop.toNat = 955 * 4194304 from rfl]
      omega) hm
    refine ⟨free, hstored.inv, hstored.wrapped.trans hw, le_rfl, fun _ pn hor => ?_⟩
    have hold := hor.resolve_right id
    exact hold.congr (hstored.view _ (hold.viewed he))

theorem clearRegion_outcome (hva : va.toNat + len.toNat ≤ utop.toNat)
    (hroom : ok → 2 * pagesOf va len ≤ free.length) : Outcome ok (do
      let m ← regionAlloc d va len k.mem
      storeBytes d m va (List.replicate len.toNat 0))
      (Grown K ok k free e (2 * pagesOf va len + 0) fun q => (va.toNat / 4096 ≤ q ∧
        q < (va.toNat + len.toNat + 4095) / 4096) ∨ False) := by
  refine Grown.bind (regionAlloc_outcome h hw he hd hva hroom) fun m free' hm => ?_
  refine storeBytes_outcome (k := { k with mem := m }) hm.inv hm.wrapped he hd (by simp) hva ?_
  exact fun hk q hlo hhi => hm.storable hk q (.inr ⟨hlo, hhi⟩)

def loadCost (segments : List Segment) : Nat :=
  (segments.map fun ph => 2 * pagesOf ph.pVa ph.pMemsz).sum

theorem loadSegments_outcome {segments : List Segment}
    (hroom : ok → loadCost segments ≤ free.length) :
    Outcome ok (loadSegments d segments k.mem)
      (Grown K ok k free e (loadCost segments) fun _ => False) := by
  induction segments generalizing k free with
  | nil => exact .pure (Grown.refl h hw)
  | cons ph rest ih =>
    have hcost : loadCost (ph :: rest) = 2 * pagesOf ph.pVa ph.pMemsz + loadCost rest := rfl
    rw [hcost] at hroom ⊢
    have hclear := clearRegion_outcome h hw he hd ph.fits fun hk : ok =>
      (Nat.le_add_right _ _).trans (hroom hk)
    have hdata := Grown.bind (f := fun m => storeBytes d m ph.pVa ph.data) hclear
      fun m free' hm => storeBytes_outcome (k := { k with mem := m }) hm.inv hm.wrapped he hd
        ph.data_le ph.fits fun hk q hlo hhi => hm.storable hk q (.inr (.inl ⟨hlo, hhi⟩))
    have hall := Grown.bind (f := fun m => loadSegments d rest m) hdata
      fun m free' hm => ih (k := { k with mem := m }) hm.inv hm.wrapped hd fun hk => by
        have := hroom hk
        have := hm.room
        omega
    simp only [bind_assoc] at hall
    simp only [loadSegments]
    exact hall.mono fun m hm => hm.mono le_rfl fun _ => False.elim

def createCost (binary : Binary) : Nat := loadCost binary.segments + 3

def entered (env : Env) (binary : Binary) : Env :=
  { env with envTf := { env.envTf with tfEip := binary.eEntry } }

theorem loadIcode_outcome (hroom : ok → loadCost binary.segments + 2 ≤ free.length) :
    Outcome ok (loadIcode e binary k) fun k' => ∃ m,
      k' = ({ k with mem := m } : Kernel).setEnv e (entered (k.envs e) binary) ∧
      Grown K ok k free e (loadCost binary.segments + 2) (fun _ => False) m := by
  have hpages : pagesOf (ustacktop - pgsize) pgsize = 1 := by decide
  have hload := loadSegments_outcome h hw he hd fun hk : ok =>
    (Nat.le_add_right _ _).trans (hroom hk)
  have hall := Grown.bind (f := fun m => do
      let m ← regionAlloc d (ustacktop - pgsize) pgsize m
      storeBytes d m (ustacktop - pgsize) (List.replicate pgsize.toNat 0)) hload
    fun m free' hm => clearRegion_outcome (k := { k with mem := m }) hm.inv hm.wrapped he hd
      (by decide) fun hk => by have := hm.room; grind
  rw [hpages] at hall
  have hpgdir : Outcome ok (k.envs e).envPgdir fun x => x = d :=
    ⟨fun _ => by simp [hd], fun x hx => Option.mem_unique hx hd⟩
  refine hpgdir.bind ?_
  rintro _ rfl
  have hset := hall.bind (f := fun m =>
      some (({ k with mem := m } : Kernel).setEnv e (entered (k.envs e) binary)))
    (R := fun k' => ∃ m, k' = ({ k with mem := m } : Kernel).setEnv e (entered (k.envs e) binary) ∧
      Grown K ok k free e (loadCost binary.segments + 2) (fun _ => False) m)
    fun m hm => .pure ⟨m, rfl, hm.mono (by omega) fun _ => False.elim⟩
  simp only [bind_assoc] at hset
  exact hset

end Load

structure Made (e : Nat) (env : Env) : Prop where
  status : env.envStatus = .runnable
  pgdir : ∃ d, env.envPgdir = some d
  id : env.envId = nextEnvId 0 e
  parent : env.envParentId = 0
  recving : env.envIpcRecving = false
  dstva : env.envIpcDstva = 0
  sender : env.envIpcFrom = 0

structure Started (h : Machine) (K : KernelMap) (j : Nat) (k : Kernel) (free : List Nat) :
    Prop where
  inv : Inv K k free
  pool : K.pool = freePool h.npagesBasemem (firstFree h) h.npages
  wrapped : k.mem.wrapped = false
  ncpu : k.ncpu = h.ncpu
  cpus : k.cpus = (initKernel h h.kend k.mem).cpus
  nic : k.nic = h.nic
  made : ∀ e < j, Made e (k.envs e)
  blank : ∀ e, j ≤ e → ∃ link, k.envs e = { zeroEnv with envLink := link }
  chain : Chain (fun e => (k.envs e).envLink) k.envFreeList (List.range' j (nenv - j))
  mmio : K.dirWord 958 &&& pteP ≠ 0

theorem started_of_linked {h : Machine} {k : Kernel} {l : List Nat}
    (ha : BootMem (blankMap h) n {958} a) (hlinked : EnvsLinked (initKernel h h.kend a.mem) k 0 l)
    (hl : l = List.range' 0 (nenv - 0)) : Started h (kernMap (blankMap h) ha) 0 k a.free := by
  have hblank : ∀ e, ∃ link, k.envs e = { zeroEnv with envLink := link } := by
    intro e
    obtain ⟨i, link, henv, hid⟩ := hlinked.fields e
    rw [show (initKernel h h.kend a.mem).envs e = zeroEnv from h.envs_zero e] at henv hid
    have hid : i = 0 := hid.elim id id
    exact ⟨link, by rw [henv, hid]; rfl⟩
  have hpgdir : ∀ e, (k.envs e).envPgdir = none := fun e => by
    obtain ⟨link, henv⟩ := hblank e
    rw [henv]
    rfl
  have hrest := hlinked.rest
  have hmem : k.mem = a.mem := by rw [hrest]; rfl
  have hkern : k.kernPgdir = h.kend := by rw [hrest]; rfl
  have hcpus : k.cpus = (initKernel h h.kend a.mem).cpus := by rw [hrest]
  have hworld : world k a.free = a := by
    have hroot : rootOf k = a.root := by
      funext e
      rw [ha.root, rootOf, bootRoot, hpgdir, hkern]
      by_cases he : e < nenv
      · rw [if_pos he, if_neg he.ne]
        rfl
      · rw [if_neg he]
        rfl
    rw [world, hroot, hmem]
  refine ⟨⟨hworld.symm ▸ memInv_of_bootMem ha, hkern, ?_, ⟨l, hlinked.chain, hlinked.nodup, ?_⟩, ?_,
    ?_⟩, rfl, hmem ▸ ha.wrapped, ?_, hcpus, ?_, by simp, fun e _ => hblank e, ?_, ?_⟩
  · intro e _ d hd
    rw [hpgdir] at hd
    exact absurd hd (by simp)
  · exact fun e he => ⟨(hlinked.bound e he).2, hpgdir e⟩
  · intro e _
    obtain ⟨link, henv⟩ := hblank e
    rw [henv]
    exact show zeroEnv.envIpcDstva < utop by decide
  · intro c e hc
    rw [Kernel.curenv, hcpus] at hc
    exact absurd hc (by simp [initKernel])
  · rw [hrest]
    rfl
  · rw [hrest]
    rfl
  · rw [← hl]
    exact hlinked.chain
  · change (if _ then a.view (.pde nenv 958) else 0) &&& pteP ≠ 0
    rw [if_pos (by decide)]
    exact fun hzero => (ha.has 958 rfl).2 (frameOf_eq_none.mpr hzero)

theorem started_zero {h : Machine} {m : Mem} (hm : Booting (blankMap h) n {958} m) :
    ∃ K free, Started h K 0 (envInit (initKernel h h.kend m)) free ∧
      n ≤ free.length + npdentries := by
  obtain ⟨a, rfl, ha⟩ := hm
  have hstart : EnvsLinked (initKernel h h.kend a.mem) (initKernel h h.kend a.mem) nenv [] :=
    ⟨rfl, fun e => ⟨_, _, rfl, .inr rfl⟩, rfl, List.nodup_nil, by simp⟩
  refine ⟨_, a.free, started_of_linked ha (envInitSlots_linked le_rfl hstart) ?_, ?_⟩
  · rw [List.append_nil, Nat.sub_zero, List.range_eq_range']
  · have := ha.room
    have := tables_le a npdentries
    omega

/-- The last step of `env_create`: the file server may use the I/O ports. -/
def privileged (type : EnvType) (env : Env) : Env :=
  if type = .fs then
    { env with envTf := { env.envTf with tfEflags := env.envTf.tfEflags ||| flIoplMask } }
  else env

theorem Made.privileged {e : Nat} {env : Env} (h : Made e env) (type : EnvType) :
    Made e (privileged type env) := by
  rw [BootSpec.privileged]
  split
  · exact { h with }
  · exact h

theorem envCreate_ok {parent : Kernel} {k' : Kernel} {e : Nat} {type : EnvType}
    (h : envAlloc 0 parent = (.ok e, k')) : envCreate binary type parent = do
      let k ← loadIcode e binary (k'.setEnv e { k'.envs e with envType := type })
      return k.setEnv e (privileged type (k.envs e)) := by
  simp only [envCreate, h]
  congr 1
  funext k
  unfold privileged
  split
  · rfl
  · change some k = some _
    rw [Kernel.setEnv, update_eq_self]

/-- The environment that `env_create` leaves in slot `e`. -/
def created (type : EnvType) (binary : Binary) (e p : Nat) (link : Option Nat) : Env :=
  privileged type (entered { freshEnv 0 e p { zeroEnv with envLink := link } with envType := type }
    binary)

variable {ok : Prop} {h : Machine} {j : Nat} {k : Kernel} {free : List Nat}

theorem envCreate_outcome (type : EnvType) (hs : Started h K j k free)
    (hj : j < nenv) (hroom : ok → createCost binary ≤ free.length) :
    Outcome ok (envCreate binary type k) fun k' => ∃ free', Started h K (j + 1) k' free' ∧
      free.length ≤ free'.length + createCost binary ∧
      (∃ p link, k'.envs j = created type binary j p link) ∧ ∀ e, e ≠ j → k'.envs e = k.envs e := by
  have hchain := hs.chain
  rw [show nenv - j = (nenv - (j + 1)) + 1 by omega, List.range'_succ] at hchain
  obtain ⟨r, -, hreason, halloc⟩ | ⟨e, p, l, k1, halloc, hk1⟩ :=
    envAlloc_cases 0 hs.inv
  · simp only [envCreate, halloc]
    refine .fail fun hk => ?_
    rcases hreason with hnone | hnil
    · rw [hnone] at hchain
      exact absurd hchain.1 (by simp)
    · have := hroom hk
      rw [hnil, createCost] at this
      exact absurd this (by simp)
  · obtain rfl := Option.mem_unique hk1.head hchain.1
    rw [envCreate_ok halloc]
    obtain ⟨link, hblank⟩ := hs.blank e le_rfl
    have henv1 : k1.envs e = freshEnv 0 e p { zeroEnv with envLink := link } := by
      rw [hk1.envs, update_self, hblank]
    have hother1 : ∀ e', e' ≠ e → k1.envs e' = k.envs e' := fun e' hne => by
      rw [hk1.envs, update_of_ne hne]
    let k2 := k1.setEnv e { k1.envs e with envType := type }
    have hharm : Harmless k1 k2 := harmless_setEnv rfl rfl (.inl rfl)
    have henv2 : k2.envs e = { k1.envs e with envType := type } := Kernel.setEnv_envs_self
    have hpgdir : (k2.envs e).envPgdir = some p := by
      rw [henv2, henv1]
      rfl
    have hlen : free.length = l.length + 1 := by rw [hk1.freeList, List.length_cons]
    refine (loadIcode_outcome (k := k2) (hk1.inv.harmless hharm)
      (hk1.wrapped.trans hs.wrapped) hk1.lt
      hpgdir fun hk => ?_).bind ?_
    · have := hroom hk
      rw [createCost] at this
      omega
    rintro _ ⟨m, rfl, free', hinv, hw, hroom', -⟩
    let k3 := ({ k2 with mem := m } : Kernel).setEnv e (entered (k2.envs e) binary)
    let k4 := k3.setEnv e (privileged type (k3.envs e))
    have henv3 : k3.envs e = entered (k2.envs e) binary := Kernel.setEnv_envs_self
    have henv4 : k4.envs e = privileged type (k3.envs e) := Kernel.setEnv_envs_self
    have hother : ∀ e', e' ≠ e → k4.envs e' = k.envs e' := fun e' hne => by
      simp only [k4, k3, k2, Kernel.setEnv_envs_of_ne hne, hother1 e' hne]
    have hharm3 : Harmless { k2 with mem := m } k3 := harmless_setEnv rfl rfl (.inl rfl)
    have hharm4 : Harmless k3 k4 := by
      refine harmless_setEnv ?_ ?_ (.inl ?_) <;>
      · rw [privileged]
        split <;> rfl
    have hrest : k4 = { k with mem := m, envs := k4.envs, envFreeList := (k.envs e).envLink } := by
      change ({ k1 with mem := m, envs := k4.envs } : Kernel) = _
      generalize k4.envs = envs
      rw [hk1.state]
    have hborn : k4.envs e = created type binary e p link := by
      rw [henv4, henv3, henv2, henv1]
      rfl
    have hmade : Made e (k4.envs e) := by
      rw [hborn]
      exact Made.privileged ⟨rfl, ⟨p, rfl⟩, rfl, rfl, rfl, rfl, rfl⟩ type
    refine .pure ⟨free', ?_, by rw [createCost]; omega, ⟨p, link, hborn⟩, hother⟩
    refine ⟨(hinv.harmless hharm3).harmless hharm4, hs.pool, hw, ?_, ?_, ?_, ?_, ?_, ?_, hs.mmio⟩
    · exact (congrArg Kernel.ncpu hrest).trans hs.ncpu
    · exact (congrArg Kernel.cpus hrest).trans hs.cpus
    · exact (congrArg Kernel.nic hrest).trans hs.nic
    · intro e' he'
      by_cases heq : e' = e
      · rw [heq]
        exact hmade
      · have hmade' := hs.made e' (by omega)
        rw [← hother e' heq] at hmade'
        exact hmade'
    · intro e' he'
      obtain ⟨link', henv'⟩ := hs.blank e' (by omega)
      exact ⟨link', (hother e' (by omega)).trans henv'⟩
    · rw [show k4.envFreeList = (k.envs e).envLink from congrArg Kernel.envFreeList hrest]
      refine hchain.2.congr fun e' he' => ?_
      have hne : e' ≠ e := by grind
      rw [hother e' hne]

/-- The machine has enough memory for the kernel's page tables and the three programs. -/
def Roomy (h : Machine) : Prop :=
  firstFree h < 1024 ∧
  npdentries + createCost h.fs + createCost h.ns + createCost h.user ≤ h.npages - firstFree h ∧
  mmiobase.toNat + 3 * 4096 + mmioBytes h.mmio < 959 * 4194304
deriving Decidable

theorem i386Init_outcome (h : Machine) :
    Outcome (Roomy h) (i386Init h) fun k => ∃ K free, Started h K 3 k free ∧
      h.npages ≤ free.length + firstFree h + npdentries + createCost h.fs + createCost h.ns +
        createCost h.user ∧
      (∃ p link, k.envs 0 = created .fs h.fs 0 p link) ∧
      (∃ p link, k.envs 1 = created .ns h.ns 1 p link) ∧
      ∃ p link, k.envs 2 = created .user h.user 2 p link := by
  have hroom : Roomy h → npdentries ≤ h.npages - firstFree h := fun hk => by
    have := hk.2.1
    omega
  simp only [i386Init]
  refine (memInit_outcome h And.left hroom).bind ?_
  rintro ⟨kern, base, m⟩ ⟨rfl, hbase, hnat, hm⟩
  refine (mmioMapAll_outcome hroom hm hbase h.mmio_aligned h.mmio_small fun hk => ?_).bind ?_
  · rw [show base.toNat = mmiobase.toNat + 3 * 4096 from hnat]
    exact hk.2.2
  rintro ⟨base', m'⟩ hm'
  obtain ⟨K, free0, hs0, hlen0⟩ := started_zero hm'
  refine (envCreate_outcome .fs hs0 (by decide) fun hk => ?_).bind ?_
  · have := hk.2.1
    omega
  rintro k1 ⟨free1, hs1, hlen1, hfs, -⟩
  refine (envCreate_outcome .ns hs1 (by decide) fun hk => ?_).bind ?_
  · have := hk.2.1
    omega
  rintro k2 ⟨free2, hs2, hlen2, hns, hother2⟩
  refine (envCreate_outcome .user hs2 (by decide) fun hk => ?_).mono ?_
  · have := hk.2.1
    omega
  rintro k3 ⟨free3, hs3, hlen3, huser, hother3⟩
  refine ⟨K, free3, hs3, by omega, ?_, ?_, huser⟩
  · rwa [hother3 0 (by decide), hother2 0 (by decide)]
  · rwa [hother3 1 (by decide)]

/-- A machine with 64 MB, two CPUs and three programs that have nothing but a stack. -/
def smallMachine : Machine where
  npages := 16384
  npagesBasemem := 160
  kend := 320
  bootstack := 300
  percpuKstacks := 256
  ram := fun _ _ => 0
  envs := fun _ => zeroEnv
  ncpu := 2
  nic := {
    txDd := fun _ => true, txLength := fun _ => 0, txBuf := fun _ => 0, tdt := 0
    rxDd := fun _ => false, rxLength := fun _ => 0, rxBuf := fun _ => 0, rdt := 127, next := 0 }
  mmio := []
  shuffle := fun _ l => l
  fs := ⟨[], 0x800020⟩
  ns := ⟨[], 0x800020⟩
  user := ⟨[], 0x800020⟩
  npages_le := by decide
  basemem_le := by decide
  kend_ge := by decide
  kend_lt := by decide
  envs_zero := fun _ => rfl
  mmio_aligned := by simp
  mmio_small := by simp
  shuffle_perm := fun _ l => .refl l

theorem smallMachine_boots : ∃ k K free, i386Init smallMachine = some k ∧
    Started smallMachine K 3 k free ∧ 14000 ≤ free.length := by
  have hroomy : Roomy smallMachine := by decide
  obtain ⟨k, hk⟩ := Option.isSome_iff_exists.mp ((i386Init_outcome smallMachine).returns hroomy)
  obtain ⟨K, free, hs, hlen, -⟩ := (i386Init_outcome smallMachine).holds k hk
  refine ⟨k, K, free, hk, hs, ?_⟩
  have hfirst : firstFree smallMachine = 384 := rfl
  have hcost : createCost smallMachine.fs = 3 ∧ createCost smallMachine.ns = 3 ∧
    createCost smallMachine.user = 3 := ⟨rfl, rfl, rfl⟩
  have hpages : smallMachine.npages = 16384 := rfl
  have hentries : npdentries = 1024 := rfl
  omega

end Mit6828.Kern.BootSpec
