import Mit6828.Kern.PageTableSpec
import Mit6828.Kern.RefInvariant

namespace Mit6828.Kern.KernelInvariant

open Mmu Pmap PageAllocator Environment Separation RefInvariant Library Library.IntrusiveList

/-- The root of directory `e`: that of environment `e`, or the kernel's for `e = nenv`. -/
def rootOf (k : Kernel) (e : Nat) : Word :=
  if e < nenv then rootWord (k.envs e).envPgdir
  else if e = nenv then rootWord (some k.kernPgdir)
  else 0

def world (k : Kernel) (free : List Nat) : World := ⟨rootOf k, k.mem, free⟩

/-- What `pgdir_walk` writes into a directory. -/
def IsTableEntry (w : Word) : Prop := ∃ p, w = page2pa p ||| pteP ||| pteW ||| pteU

theorem IsTableEntry.flags {w : Word} (h : IsTableEntry w) :
    w &&& pteP ≠ 0 ∧ w &&& pteW ≠ 0 ∧ w &&& pteU ≠ 0 := by
  obtain ⟨p, rfl⟩ := h
  refine ⟨and_ne_zero_of_getLsbD 0 ?_ rfl, and_ne_zero_of_getLsbD 1 ?_ rfl,
    and_ne_zero_of_getLsbD 2 ?_ rfl⟩
  · simp [pteP]
  · simp [pteW]
  · simp [pteU]

def IsUserEntry (w : Word) : Prop := w &&& pteP ≠ 0 ∧ w &&& pteU ≠ 0

/-- The entries of the directories: the kernel's part is the same in all of them, a
directory maps itself, and the user's part holds nothing but what the page table code
writes there. -/
structure Shaped (K : KernelMap) (a : World) : Prop where
  kern : a.root nenv = rootWord (some K.kern)
  kernDir : ∀ i < npdentries, i ≠ pdxUvpt → a.view (.pde nenv i) = K.dirWord i
  kernTable : ∀ i < npdentries, i ≠ pdxUvpt → ∀ j < nptentries,
    a.view (.pte nenv i j) = K.tableWord i j
  upper : ∀ e < nenv, ∀ d, frameOf (a.root e) = some d → ∀ i < npdentries, pdxUtop ≤ i →
    i ≠ pdxUvpt → a.view (.pde e i) = K.dirWord i
  self : ∀ e < nenv, ∀ d, frameOf (a.root e) = some d →
    a.view (.pde e pdxUvpt) = page2pa d ||| pteP ||| pteU
  pde : ∀ e < nenv, ∀ i < pdxUtop, a.view (.pde e i) = 0 ∨ IsTableEntry (a.view (.pde e i))
  pte : ∀ e < nenv, ∀ i < pdxUtop, ∀ j < nptentries,
    a.view (.pte e i j) = 0 ∨ IsUserEntry (a.view (.pte e i j))

variable {K : KernelMap} {a b : World} {s : Slot} {e p : Nat}

def UserStep (_ : World) (s : Slot) (b : World) : Prop :=
  match s with
  | .dir _ => False
  | .pde e _ => e < nenv ∧ (b.view s = 0 ∨ IsTableEntry (b.view s))
  | .pte _ _ _ => b.view s = 0 ∨ IsUserEntry (b.view s)

theorem UserStep.ne_dir (h : UserStep a s b) (e : Nat) : s ≠ .dir e := by
  rintro rfl
  exact h

theorem root_eq_of_userStep (hc : Change K.layout s a b) (hs : UserStep a s b)
    (he : e ≤ nenv) : b.root e = a.root e :=
  hc.rest (.dir e) (dir_viewed.mpr he) (hs.ne_dir e).symm (.inr (hs.ne_dir e))

theorem Shaped.change (h : Shaped K a) (hc : Change K.layout s a b) (hs : UserStep a s b) :
    Shaped K b := by
  have hroot : ∀ e ≤ nenv, b.root e = a.root e := fun e he => root_eq_of_userStep hc hs he
  have hsame : ∀ t ∈ viewedSlots, t ≠ s → b.view t = a.view t := fun t ht hne =>
    hc.rest t ht hne (.inr (hs.ne_dir _))
  have htracked := KernelMap.mem_tracked.mp hc.tracked
  have hkern : ∀ i, (.pde nenv i : Slot) ≠ s := by
    rintro i rfl
    exact absurd hs.1 (lt_irrefl _)
  have hkernTable : ∀ i j, (.pte nenv i j : Slot) ≠ s := by
    rintro i j rfl
    exact absurd (pte_mem.mp htracked).1 (lt_irrefl _)
  have hhigh : ∀ e < nenv, ∀ i, pdxUtop ≤ i → (.pde e i : Slot) ≠ s := by
    rintro e he i hi rfl
    rcases pde_mem.mp htracked with ⟨-, hlt⟩ | ⟨heq, -⟩
    · omega
    · omega
  refine ⟨(hroot nenv le_rfl).trans h.kern, ?_, ?_, ?_, ?_, ?_, ?_⟩
  · intro i hi hne
    rw [hsame _ (pde_viewed.mpr ⟨le_rfl, hi⟩) (hkern i), h.kernDir i hi hne]
  · intro i hi hne j hj
    rw [hsame _ (pte_viewed.mpr ⟨.inr ⟨rfl, hi, hne⟩, hj⟩) (hkernTable i j),
      h.kernTable i hi hne j hj]
  · intro e he d hd i hi hlow hne
    rw [hsame _ (pde_viewed.mpr ⟨he.le, hi⟩) (hhigh e he i hlow)]
    exact h.upper e he d (hroot e he.le ▸ hd) i hi hlow hne
  · intro e he d hd
    rw [hsame _ (pde_viewed.mpr ⟨he.le, by decide⟩) (hhigh e he pdxUvpt (by decide))]
    exact h.self e he d (hroot e he.le ▸ hd)
  · intro e he i hi
    by_cases hslot : (.pde e i : Slot) = s
    · subst hslot
      exact hs.2
    · rw [hsame _ (pde_viewed.mpr ⟨he.le, hi.trans (by decide)⟩) hslot]
      exact h.pde e he i hi
  · intro e he i hi j hj
    by_cases hslot : (.pte e i j : Slot) = s
    · subst hslot
      exact hs
    · rw [hsame _ (pte_viewed.mpr ⟨.inl ⟨he, hi⟩, hj⟩) hslot]
      exact h.pte e he i hi j hj

theorem Shaped.congr (h : Shaped K a) (hview : ∀ s ∈ viewedSlots, b.view s = a.view s) :
    Shaped K b := by
  have hroot : ∀ e ≤ nenv, b.root e = a.root e := fun e he => hview (.dir e) (dir_viewed.mpr he)
  refine ⟨(hroot nenv le_rfl).trans h.kern, ?_, ?_, ?_, ?_, ?_, ?_⟩
  · intro i hi hne
    rw [hview _ (pde_viewed.mpr ⟨le_rfl, hi⟩), h.kernDir i hi hne]
  · intro i hi hne j hj
    rw [hview _ (pte_viewed.mpr ⟨.inr ⟨rfl, hi, hne⟩, hj⟩), h.kernTable i hi hne j hj]
  · intro e he d hd i hi hlow hne
    rw [hview _ (pde_viewed.mpr ⟨he.le, hi⟩)]
    exact h.upper e he d (hroot e he.le ▸ hd) i hi hlow hne
  · intro e he d hd
    rw [hview _ (pde_viewed.mpr ⟨he.le, by decide⟩)]
    exact h.self e he d (hroot e he.le ▸ hd)
  · intro e he i hi
    rw [hview _ (pde_viewed.mpr ⟨he.le, hi.trans (by decide)⟩)]
    exact h.pde e he i hi
  · intro e he i hi j hj
    rw [hview _ (pte_viewed.mpr ⟨.inl ⟨he, hi⟩, hj⟩)]
    exact h.pte e he i hi j hj

structure MemInv (K : KernelMap) (a : World) : Prop where
  counted : Counted K a
  shaped : Shaped K a

theorem MemInv.run {P : World → Slot → World → Prop} (h : MemInv K a) (hr : Run K.layout P a b)
    (hP : ∀ x s y, P x s y → UserStep x s y)
    (hsafe : b.mem.wrapped = false ∨ ∀ x s y, P x s y → x.ref s = none) : MemInv K b :=
  ⟨h.counted.run hr hsafe,
    hr.invariant (fun x s y hx hc hstep => hx.change hc (hP x s y hstep)) h.shaped⟩

theorem MemInv.detach (h : MemInv K a) (hd : Detached K.layout a p b) : MemInv K b :=
  ⟨h.counted.detach hd, h.shaped.congr hd.view⟩

theorem detached_of_allocated (h : MemInv K a) {l : List Nat} {zero : Bool} {m : Mem}
    (hfree : a.free = p :: l) (hm : Allocated zero a.mem p l m) :
    Detached K.layout a p ⟨a.root, m, l⟩ where
  free := hfree
  freeList := hm.freeList
  npages := hm.npages
  ppRef := hm.ppRef
  wrapped := hm.wrapped
  view := by
    refine PageTable.view_congr fun s hs _ q hq => ?_
    have hne : q ≠ p := fun heq => h.counted.unreferenced (by simp [hfree]) s hs (heq ▸ hq)
    change m.phys q = a.mem.phys q
    rw [hm.phys]
    split
    · exact Function.update_of_ne hne _ _
    · rfl

/-- `env_free_list` holds environments with `P`, without repetition. -/
def FreeEnvs (P : Nat → Env → Prop) (k : Kernel) : Prop :=
  ∃ l, Chain (fun e => (k.envs e).envLink) k.envFreeList l ∧ l.Nodup ∧ ∀ e ∈ l, P e (k.envs e)

abbrev NoPgdir (_ : Nat) (env : Env) : Prop := env.envPgdir = none

namespace FreeEnvs

variable {P : Nat → Env → Prop} {k k' : Kernel} {e : Nat} (h : FreeEnvs P k)
include h

theorem congr (hhead : k'.envFreeList = k.envFreeList)
    (hlink : ∀ e, (k'.envs e).envLink = (k.envs e).envLink)
    (hP : ∀ e, P e (k.envs e) → P e (k'.envs e)) : FreeEnvs P k' := by
  obtain ⟨l, hchain, hnodup, hl⟩ := h
  refine ⟨l, ?_, hnodup, fun e he => hP e (hl e he)⟩
  rw [hhead]
  exact hchain.congr fun e _ => hlink e

theorem push (hhead : k'.envFreeList = some e) (hlink : (k'.envs e).envLink = k.envFreeList)
    (hother : ∀ e', e' ≠ e → k'.envs e' = k.envs e') (hnot : ¬ P e (k.envs e))
    (hself : P e (k'.envs e)) : FreeEnvs P k' := by
  obtain ⟨l, hchain, hnodup, hl⟩ := h
  have hmem : e ∉ l := fun he => hnot (hl e he)
  have hkept : ∀ e' ∈ l, k'.envs e' = k.envs e' :=
    fun e' he' => hother e' fun heq => hmem (heq ▸ he')
  refine ⟨e :: l, ⟨hhead, ?_⟩, List.nodup_cons.mpr ⟨hmem, hnodup⟩, fun e' he' => ?_⟩
  · dsimp only
    rw [hlink]
    exact hchain.congr fun e' he' => by rw [hkept e' he']
  · rcases List.mem_cons.mp he' with rfl | he'
    · exact hself
    · exact hkept e' he' ▸ hl e' he'

theorem pop (hhead : k.envFreeList = some e) : P e (k.envs e) ∧ ∀ k' : Kernel,
    k'.envFreeList = (k.envs e).envLink → (∀ e', e' ≠ e → k'.envs e' = k.envs e') →
    FreeEnvs P k' := by
  obtain ⟨l, hchain, hnodup, hl⟩ := h
  rw [hhead] at hchain
  obtain ⟨l, rfl, hrest⟩ := chain_some hchain
  obtain ⟨hmem, hnodup⟩ := List.nodup_cons.mp hnodup
  obtain ⟨hself, hl⟩ := List.forall_mem_cons.mp hl
  refine ⟨hself, fun k' hlist hother => ?_⟩
  have hkept : ∀ e' ∈ l, k'.envs e' = k.envs e' :=
    fun e' he' => hother e' fun heq => hmem (heq ▸ he')
  refine ⟨l, ?_, hnodup, fun e' he' => hkept e' he' ▸ hl e' he'⟩
  rw [hlist]
  exact hrest.congr fun e' he' => by rw [hkept e' he']

end FreeEnvs

/-- The environment table: the directories are pages of the machine, the environments on
the free list have none, and a stored `env_ipc_dstva` is an address below `UTOP`. -/
structure EnvInv (K : KernelMap) (k : Kernel) : Prop where
  kern : k.kernPgdir = K.kern
  pgdir_lt : ∀ e < nenv, ∀ d, (k.envs e).envPgdir = some d → d < K.npages
  freeEnvs : FreeEnvs (fun e env => e < nenv ∧ NoPgdir e env) k
  dstva : ∀ e < nenv, (k.envs e).envIpcDstva < utop
  curenv_lt : ∀ c e, k.curenv c = some e → e < nenv

/-- The invariant of the kernel; `free` is the list of free pages. -/
structure Inv (K : KernelMap) (k : Kernel) (free : List Nat) : Prop where
  mem : MemInv K (world k free)
  env : EnvInv K k

/-- `k'` differs from `k` only in fields that memory management does not use. -/
structure Harmless (k k' : Kernel) : Prop where
  mem : k'.mem = k.mem
  kern : k'.kernPgdir = k.kernPgdir
  envFreeList : k'.envFreeList = k.envFreeList
  pgdir : ∀ e, (k'.envs e).envPgdir = (k.envs e).envPgdir
  link : ∀ e, (k'.envs e).envLink = (k.envs e).envLink
  dstva : ∀ e, (k'.envs e).envIpcDstva = (k.envs e).envIpcDstva ∨ (k'.envs e).envIpcDstva < utop
  curenv : ∀ c e, k'.curenv c = some e → k.curenv c = some e ∨ e < nenv

variable {k k' k'' : Kernel} {free : List Nat}

theorem Harmless.refl (k : Kernel) : Harmless k k :=
  ⟨rfl, rfl, rfl, fun _ => rfl, fun _ => rfl, fun _ => .inl rfl, fun _ _ h => .inl h⟩

theorem Harmless.trans (h : Harmless k k') (h' : Harmless k' k'') : Harmless k k'' where
  mem := h'.mem.trans h.mem
  kern := h'.kern.trans h.kern
  envFreeList := h'.envFreeList.trans h.envFreeList
  pgdir e := (h'.pgdir e).trans (h.pgdir e)
  link e := (h'.link e).trans (h.link e)
  dstva e := by
    rcases h'.dstva e with heq | hlt
    · rw [heq]
      exact h.dstva e
    · exact .inr hlt
  curenv c e hc := (h'.curenv c e hc).elim (h.curenv c e) .inr

theorem Harmless.world_eq (h : Harmless k k') (free : List Nat) : world k' free = world k free := by
  have hroot : rootOf k' = rootOf k := by
    funext e
    rw [rootOf, rootOf, h.pgdir, h.kern]
  rw [world, world, hroot, h.mem]

theorem EnvInv.harmless (h : EnvInv K k) (hk : Harmless k k') : EnvInv K k' where
  kern := hk.kern.trans h.kern
  pgdir_lt e he d hd := h.pgdir_lt e he d (hk.pgdir e ▸ hd)
  freeEnvs := h.freeEnvs.congr hk.envFreeList hk.link fun e he => ⟨he.1, (hk.pgdir e).trans he.2⟩
  dstva e he := (hk.dstva e).elim (fun heq => heq ▸ h.dstva e he) id
  curenv_lt c e hc := (hk.curenv c e hc).elim (h.curenv_lt c e) id

theorem world_of_root {b : World} (h : b.root = rootOf k) :
    world { k with mem := b.mem } b.free = b := by
  rw [world, show rootOf { k with mem := b.mem } = b.root from h.symm]

theorem Inv.harmless (h : Inv K k free) (hk : Harmless k k') : Inv K k' free :=
  ⟨hk.world_eq free ▸ h.mem, h.env.harmless hk⟩

theorem EnvInv.setMem (h : EnvInv K k) (m : Mem) : EnvInv K { k with mem := m } :=
  { h with }

theorem harmless_setEnv {env : Env} (hpgdir : env.envPgdir = (k.envs e).envPgdir)
    (hlink : env.envLink = (k.envs e).envLink)
    (hdstva : env.envIpcDstva = (k.envs e).envIpcDstva ∨ env.envIpcDstva < utop) :
    Harmless k (k.setEnv e env) := by
  refine ⟨rfl, rfl, rfl, update_field _ hpgdir, update_field _ hlink, fun e' => ?_,
    fun _ _ h => .inl h⟩
  by_cases heq : e' = e
  · rw [heq, Kernel.setEnv_envs_self]
    exact hdstva
  · exact .inl (by rw [Kernel.setEnv_envs_of_ne heq])

theorem harmless_setStatus (k : Kernel) (e : Nat) (status : EnvStatus) :
    Harmless k (k.setStatus e status) :=
  harmless_setEnv rfl rfl (.inl rfl)

theorem harmless_setCurenv (k : Kernel) (c : Nat) (o : Option Nat)
    (ho : ∀ e, o = some e → e < nenv) : Harmless k (k.setCurenv c o) := by
  refine ⟨rfl, rfl, rfl, fun _ => rfl, fun _ => rfl, fun _ => .inl rfl, fun c' e h => ?_⟩
  by_cases hc : c' = c
  · subst hc
    rw [Kernel.setCurenv_curenv_self] at h
    exact .inr (ho e h)
  · rw [Kernel.setCurenv_curenv_of_ne hc] at h
    exact .inl h

end Mit6828.Kern.KernelInvariant
