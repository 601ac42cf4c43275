import Mit6828.Kern.Mmu

/-!
The physical page allocator and the page table code of `kern/pmap.c`.

A `struct PageInfo *` is the number of its page, a pointer to a page table page is the
number of the page it lives in, and a `pte_t *` is a pair of such a page and an index.
`none` in the outer `Option` of a result is a kernel panic.
-/

namespace Mit6828.Kern

open Function

/-- A change at one index that spares a field spares it everywhere. -/
theorem update_field {α β : Type} {f : Nat → α} {x : α} {i : Nat} (g : α → β) (h : g x = g (f i))
    (j : Nat) : g (update f i x j) = g (f j) := by
  by_cases heq : j = i
  · rw [heq, update_self, h]
  · rw [update_of_ne heq]

namespace Pmap

open Mmu

structure PageInfo where
  ppLink : Option Nat
  ppRef : BitVec 16

/-- Physical memory and the allocator's variables.  `phys p i` is word `i` of page `p`.
The field `wrapped` is a ghost: it records whether some `pp_ref++` has ever wrapped
around, and no modelled function reads it. -/
structure Mem where
  npages : Nat
  pages : Nat → PageInfo
  pageFreeList : Option Nat
  phys : Nat → Nat → Word
  wrapped : Bool

namespace Mem

def word (m : Mem) (pte : Nat × Nat) : Word := m.phys pte.1 pte.2

def setWord (m : Mem) (pte : Nat × Nat) (w : Word) : Mem :=
  { m with phys := update m.phys pte.1 (update (m.phys pte.1) pte.2 w) }

def zeroPage (m : Mem) (pp : Nat) : Mem :=
  { m with phys := update m.phys pp fun _ => 0 }

def copyPage (m : Mem) (dst src : Nat) : Mem :=
  { m with phys := update m.phys dst (m.phys src) }

def setPage (m : Mem) (pp : Nat) (info : PageInfo) : Mem :=
  { m with pages := update m.pages pp info }

def incref (m : Mem) (pp : Nat) : Mem :=
  { m.setPage pp { m.pages pp with ppRef := (m.pages pp).ppRef + 1 } with
    wrapped := m.wrapped || (m.pages pp).ppRef == 0xFFFF }

end Mem

def kaddr (pa : Word) (m : Mem) : Option Nat :=
  if pgnum pa ≥ m.npages then none else some (pgnum pa)

def pa2page (pa : Word) (m : Mem) : Option Nat :=
  if pgnum pa ≥ m.npages then none else some (pgnum pa)

/-- `page_alloc(alloc_flags)`; the argument is the `ALLOC_ZERO` flag. -/
def pageAlloc (zero : Bool) (m : Mem) : Option Nat × Mem :=
  match m.pageFreeList with
  | none => (none, m)
  | some ret =>
    let m := { m with pageFreeList := (m.pages ret).ppLink }
    let m := m.setPage ret { m.pages ret with ppLink := none }
    (some ret, if zero then m.zeroPage ret else m)

def pageFree (pp : Nat) (m : Mem) : Option Mem :=
  if (m.pages pp).ppLink.isSome ∨ (m.pages pp).ppRef ≠ 0 then none
  else
    some { m.setPage pp { m.pages pp with ppLink := m.pageFreeList } with
      pageFreeList := some pp }

def pageDecref (pp : Nat) (m : Mem) : Option Mem :=
  let m := m.setPage pp { m.pages pp with ppRef := (m.pages pp).ppRef - 1 }
  if (m.pages pp).ppRef = 0 then pageFree pp m else some m

def pgdirWalk (pgdir : Nat) (va : Word) (create : Bool) (m : Mem) :
    Option (Option (Nat × Nat) × Mem) :=
  let pde := m.phys pgdir (pdx va)
  if pde &&& pteP ≠ 0 then do
    let pte ← kaddr (pteAddr pde) m
    return (some (pte, ptx va), m)
  else if create = false then
    some (none, m)
  else
    match pageAlloc true m with
    | (none, m) => some (none, m)
    | (some pp, m) =>
      let m := m.incref pp
      some (some (pp, ptx va), m.setWord (pgdir, pdx va) (page2pa pp ||| pteP ||| pteW ||| pteU))

/-- `page_lookup`, with the `pte_t *` that it stores. -/
def pageLookup (pgdir : Nat) (va : Word) (m : Mem) : Option (Option (Nat × Nat × Nat)) := do
  match ← pgdirWalk pgdir va false m with
  | (none, _) => return none
  | (some pte, m) =>
    if m.word pte &&& pteP ≠ 0 then
      let pp ← pa2page (pteAddr (m.word pte)) m
      return some (pp, pte)
    else return none

/-- `page_remove`.  The TLB flush has no counterpart: the model has no TLB. -/
def pageRemove (pgdir : Nat) (va : Word) (m : Mem) : Option Mem := do
  match ← pageLookup pgdir va m with
  | none => return m
  | some (pp, pte) =>
    let m ← pageDecref pp m
    return m.setWord pte 0

def pageInsert (pgdir pp : Nat) (va perm : Word) (m : Mem) : Option (Word × Mem) := do
  match ← pgdirWalk pgdir va true m with
  | (none, m) => return (-eNoMem, m)
  | (some pte, m) =>
    if m.word pte &&& pteP ≠ 0 then
      if pteAddr (m.word pte) = page2pa pp then
        return (0, m.setWord pte (page2pa pp ||| perm ||| pteP))
      else
        let m ← pageRemove pgdir va m
        let m := m.incref pp
        return (0, m.setWord pte (page2pa pp ||| perm ||| pteP))
    else
      let m := m.setWord pte (page2pa pp ||| perm ||| pteP)
      return (0, m.incref pp)

def bootMapPages (pgdir : Nat) (perm : Word) : Nat → Word → Word → Mem → Option Mem
  | 0, _, _, m => some m
  | n + 1, va, pa, m => do
    match ← pgdirWalk pgdir va true m with
    | (none, _) => none
    | (some pte, m) =>
      bootMapPages pgdir perm n (va + pgsize) (pa + pgsize)
        (m.setWord pte (pa ||| perm ||| pteP))

def bootMapRegion (pgdir : Nat) (va size pa perm : Word) (m : Mem) : Option Mem :=
  let pageNum := size / pgsize
  let pageNum := if size % pgsize ≠ 0 then pageNum + 1 else pageNum
  bootMapPages pgdir perm pageNum.toNat va pa m

/-- `mmio_map_region`; the static variable `base` is passed in and the next one returned. -/
def mmioMapRegion (kernPgdir : Nat) (pa size : Word) (base : Word) (m : Mem) :
    Option (Word × Mem) := do
  let sz := roundup size
  if base + sz < mmiolim then
    let m ← bootMapRegion kernPgdir base sz pa (ptePcd ||| ptePwt ||| pteW) m
    return (base + sz, m)
  else none

def pageInitFree (m : Mem) (i : Nat) : Mem :=
  { m.setPage i { ppLink := m.pageFreeList, ppRef := 0 } with pageFreeList := some i }

/-- `page_init`; `med` is the first page above the memory that `boot_alloc` has handed out. -/
def pageInit (npagesBasemem med : Nat) (m : Mem) : Mem :=
  let m := m.setPage 0 { ppLink := none, ppRef := 1 }
  let m := (List.range' 1 (npagesBasemem - 1)).foldl (fun m i =>
    if i = mpentryPage then m.setPage i { ppLink := none, ppRef := 1 }
    else pageInitFree m i) m
  (List.range' med (m.npages - med)).foldl pageInitFree m

/-- The loop of `user_mem_check` over `n` pages; `some addr` is the failure with
`user_mem_check_addr = addr`. -/
def userMemCheckPages (pgdir : Nat) (va perm : Word) (m : Mem) : Nat → Word → Option (Option Word)
  | 0, _ => some none
  | n + 1, start => do
    let pde := m.phys pgdir (pdx start)
    let (pte, _) ← pgdirWalk pgdir start false m
    if start > ulim ∨ pde &&& perm = 0 ∨ pte.all (fun pte => m.word pte &&& perm = 0) then
      return some (if start ≥ va then start else va)
    else userMemCheckPages pgdir va perm m n (start + pgsize)

def userMemCheck (pgdir : Nat) (va len perm : Word) (m : Mem) : Option (Option Word) :=
  let start := rounddown va
  let stop := roundup (va + len)
  userMemCheckPages pgdir va perm m
    (if start < stop then ((stop - start) / pgsize).toNat else 0) start

end Pmap

end Mit6828.Kern
