import Mit6828.Kern.AddressSpace
import Mit6828.Kern.Environment

/-!
Boot: `mem_init` of `kern/pmap.c`, `env_init` and `env_create` of `kern/env.c`, in the order
of `i386_init`.  As elsewhere, `none` is a panic.
-/

namespace Mit6828.Kern.Boot

open Mmu Pmap AddressSpace Environment

structure Segment where
  pVa : Word
  pMemsz : Word
  /-- The `p_filesz` bytes of the file. -/
  data : List Byte
  fits : pVa.toNat + pMemsz.toNat ≤ utop.toNat
  data_le : data.length ≤ pMemsz.toNat

structure Binary where
  segments : List Segment
  eEntry : Word

def zeroEnv : Env :=
  { envTf := { initTf with tfEs := 0, tfDs := 0, tfCs := 0, tfEflags := 0, tfEsp := 0, tfSs := 0 }
    envLink := none, envId := 0, envParentId := 0, envType := .user, envStatus := .free
    envRuns := 0, envCpunum := 0, envPgdir := none, envPgfaultUpcall := 0
    envIpcRecving := false, envIpcDstva := 0, envIpcValue := 0, envIpcFrom := 0, envIpcPerm := 0 }

/-- What the kernel finds when it starts: the memory, the linked image and the devices.  All
numbers of places are page numbers; `kend` is the first page above the image, which is
loaded at 1 MB. -/
structure Machine where
  npages : Nat
  npagesBasemem : Nat
  kend : Nat
  bootstack : Nat
  percpuKstacks : Nat
  ram : Nat → Nat → Word
  /-- What memory holds where `boot_alloc` puts `envs`, which nothing clears: the machine is
  taken to start with zeros there. -/
  envs : Nat → Env
  ncpu : Nat
  nic : Nic
  /-- The physical ranges, with their sizes, that the drivers map. -/
  mmio : List (Word × Word)
  /-- The self-checks give back the pages they take in an order of their own. -/
  shuffle : Nat → List Nat → List Nat
  fs : Binary
  ns : Binary
  user : Binary
  npages_le : npages ≤ 65536
  basemem_le : npagesBasemem ≤ 160
  kend_ge : 256 ≤ kend
  kend_lt : kend < npages
  envs_zero : ∀ e, envs e = zeroEnv
  mmio_aligned : ∀ x ∈ mmio, x.1 % pgsize = 0
  mmio_small : ∀ x ∈ mmio, x.2.toNat ≤ 4194304
  shuffle_perm : ∀ i l, (shuffle i l).Perm l

/-- `boot_alloc`: the first page of the chunk and the next free page.  Only the first 4 MB
are mapped at this time. -/
def bootAlloc (nextfree n : Nat) : Option (Nat × Nat) :=
  let next := nextfree + (n + 4095) / 4096
  if next ≥ 1024 then none else some (nextfree, next)

def pageInfoSize : Nat := 8
def envSize : Nat := 124

def freePages (m : Mem) : Nat → Option Nat → List Nat
  | n + 1, some p => p :: freePages m n (m.pages p).ppLink
  | _, _ => []

def relink : List Nat → Mem → Mem
  | [], m => { m with pageFreeList := none }
  | p :: l, m =>
    let m := relink l m
    { m.setPage p { m.pages p with ppLink := m.pageFreeList } with pageFreeList := some p }

/-- `check_page_free_list`, `check_page_alloc`, `check_page` and
`check_page_installed_pgdir`, as far as the allocator sees them. -/
def selfCheck (shuffle : List Nat → List Nat) (m : Mem) : Mem :=
  relink (shuffle (freePages m m.npages m.pageFreeList)) m

def clearPte (kernPgdir : Nat) (va : Word) (m : Mem) : Option Mem := do
  match ← pgdirWalk kernPgdir va false m with
  | (none, _) => none
  | (some pte, m) => return m.setWord pte 0

/-- The part of `check_page` that tries `mmio_map_region`; the addresses stay used up. -/
def checkMmio (kernPgdir : Nat) (m : Mem) : Option (Word × Mem) := do
  let (mm2, m) ← mmioMapRegion kernPgdir 0 4097 mmiobase m
  let (base, m) ← mmioMapRegion kernPgdir 0 4096 mm2 m
  let m ← clearPte kernPgdir mmiobase m
  let m ← clearPte kernPgdir (mmiobase + pgsize) m
  let m ← clearPte kernPgdir mm2 m
  return (base, m)

def mmioMapAll (kernPgdir : Nat) : List (Word × Word) → Word → Mem → Option (Word × Mem)
  | [], base, m => some (base, m)
  | (pa, size) :: rest, base, m => do
    let (base, m) ← mmioMapRegion kernPgdir pa size base m
    mmioMapAll kernPgdir rest base m

structure KernRegion where
  va : Word
  size : Word
  pa : Word
  perm : Word

def kstksize : Word := 8 * pgsize
def kstkgap : Word := 8 * pgsize
def ncpuMax : Nat := 8

/-- The regions that `mem_init` and `mem_init_mp` map, in order. -/
def kernRegions (h : Machine) (pages envs : Nat) : List KernRegion :=
  [ ⟨upages, roundup (BitVec.ofNat 32 (h.npages * pageInfoSize)), page2pa pages, pteU⟩,
    ⟨uenvs, roundup (BitVec.ofNat 32 (nenv * envSize)), page2pa envs, pteU⟩,
    ⟨kernbase - kstksize, kstksize, page2pa h.bootstack, pteW⟩,
    ⟨kernbase, roundup (0xFFFFFFFF - kernbase), 0, pteW⟩ ] ++
  (List.range ncpuMax).map fun i =>
    ⟨kernbase - BitVec.ofNat 32 i * (kstksize + kstkgap) - kstksize, kstksize,
      page2pa (h.percpuKstacks + 8 * i), pteW⟩

def mapRegions (kernPgdir : Nat) : List KernRegion → Mem → Option Mem
  | [], m => some m
  | r :: rest, m => do
    mapRegions kernPgdir rest (← bootMapRegion kernPgdir r.va r.size r.pa r.perm m)

/-- Memory before `page_init`: the directory of the kernel, which maps itself, and `pages`,
set to zero. -/
def initMem (h : Machine) (kernPgdir : Nat) : Mem :=
  let m : Mem := {
    npages := h.npages
    pages := fun _ => { ppLink := none, ppRef := 0 }
    pageFreeList := none
    phys := h.ram
    wrapped := false }
  (m.zeroPage kernPgdir).setWord (kernPgdir, pdx uvpt) (page2pa kernPgdir ||| pteU ||| pteP)

/-- `mem_init`: the page of `kern_pgdir`, the next address of `mmio_map_region`, and
memory. -/
def memInit (h : Machine) : Option (Nat × Word × Mem) := do
  let (kernPgdir, next) ← bootAlloc h.kend 4096
  let (pages, next) ← bootAlloc next (h.npages * pageInfoSize)
  let (envs, med) ← bootAlloc next (nenv * envSize)
  let m := pageInit h.npagesBasemem med (initMem h kernPgdir)
  let (base, m) ← checkMmio kernPgdir (selfCheck (h.shuffle 0) m)
  let m ← mapRegions kernPgdir (kernRegions h pages envs) m
  return (kernPgdir, base, selfCheck (h.shuffle 1) m)

/-- The loop of `region_alloc`.  The result of `page_insert` is not looked at. -/
def regionAllocPages (pgdir : Nat) : Nat → Word → Mem → Option Mem
  | 0, _, m => some m
  | n + 1, begin_, m =>
    match pageAlloc false m with
    | (none, _) => none
    | (some pp, m) => do
      let (_, m) ← pageInsert pgdir pp begin_ (pteW ||| pteU) m
      regionAllocPages pgdir n (begin_ + pgsize) m

def regionAlloc (pgdir : Nat) (va len : Word) (m : Mem) : Option Mem :=
  let begin_ := rounddown va
  let end_ := roundup (va + len)
  regionAllocPages pgdir (if begin_ < end_ then ((end_ - begin_) / pgsize).toNat else 0) begin_ m

def loadSegments (pgdir : Nat) : List Segment → Mem → Option Mem
  | [], m => some m
  | ph :: rest, m => do
    let m ← regionAlloc pgdir ph.pVa ph.pMemsz m
    let m ← storeBytes pgdir m ph.pVa (List.replicate ph.pMemsz.toNat 0)
    let m ← storeBytes pgdir m ph.pVa ph.data
    loadSegments pgdir rest m

def loadIcode (e : Nat) (binary : Binary) (k : Kernel) : Option Kernel := do
  let pgdir ← (k.envs e).envPgdir
  let m ← loadSegments pgdir binary.segments k.mem
  let m ← regionAlloc pgdir (ustacktop - pgsize) pgsize m
  let m ← storeBytes pgdir m (ustacktop - pgsize) (List.replicate pgsize.toNat 0)
  let k := { k with mem := m }
  return k.setEnv e { k.envs e with
    envTf := { (k.envs e).envTf with tfEip := binary.eEntry } }

def envCreate (binary : Binary) (type : EnvType) (k : Kernel) : Option Kernel :=
  match envAlloc 0 k with
  | (.error _, _) => none
  | (.ok e, k) => do
    let k := k.setEnv e { k.envs e with envType := type }
    let k ← loadIcode e binary k
    if type = .fs then
      return k.setEnv e { k.envs e with
        envTf := { (k.envs e).envTf with tfEflags := (k.envs e).envTf.tfEflags ||| flIoplMask } }
    else return k

/-- The kernel after `mem_init`, with the CPUs as `mp_init` and `boot_aps` leave them. -/
def initKernel (h : Machine) (kernPgdir : Nat) (m : Mem) : Kernel where
  mem := m
  kernPgdir := kernPgdir
  envs := h.envs
  envFreeList := none
  ncpu := h.ncpu
  cpus := fun c => { cpuStatus := if c < h.ncpu then .started else .unused, cpuEnv := none }
  nic := h.nic
  ticks := 0

def i386Init (h : Machine) : Option Kernel := do
  let (kernPgdir, base, m) ← memInit h
  let (_, m) ← mmioMapAll kernPgdir h.mmio base m
  let k := envInit (initKernel h kernPgdir m)
  let k ← envCreate h.fs .fs k
  let k ← envCreate h.ns .ns k
  envCreate h.user .user k

end Mit6828.Kern.Boot
