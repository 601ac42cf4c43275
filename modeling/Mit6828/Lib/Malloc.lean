import Mit6828.Kern.Syscall

namespace Mit6828.Lib.Malloc

open Kern.Mmu Kern.Syscall Function

def maxmalloc : Word := 1024 * 1024
def pteContinued : Word := 0x200
def mbegin : Word := 0x08000000
def mend : Word := 0x10000000

/-- What the allocator reads and writes: `mptr`, the page table entries and, of each page, the
last word, which holds the reference count. -/
structure Heap where
  mptr : Word
  uvpt : Nat → Word
  ref : Nat → Word

def roundup4 (n : Word) : Word := n + 4 - 1 - (n + 4 - 1) % 4

namespace Heap

def present (h : Heap) (va : Word) : Prop := h.uvpt (pgnum va) &&& pteP ≠ 0
deriving Decidable

/-- `sys_page_alloc(0, va, perm)`: the page is new and zero.  `mem` says whether the kernel has
a page; `none` is a negative result. -/
def sysPageAlloc (h : Heap) (va perm : Word) (mem : Bool) : Option Heap :=
  (pageCall [va] perm (some 0) mem none fun zero perm _ => some { h with
    uvpt := update h.uvpt (pgnum va) perm
    ref := update h.ref (pgnum va) zero }).2

def sysPageUnmap (h : Heap) (va : Word) : Heap :=
  if badVa va then h else { h with uvpt := update h.uvpt (pgnum va) 0 }

/-- The loop of `isfree`.  Addresses above `mend` end it, so the whole address space bounds it. -/
def isfreeLoop (h : Heap) : Nat → Word → Word → Bool
  | 0, _, _ => true
  | fuel + 1, va, endVa =>
    if va < endVa then
      if va ≥ mend ∨ h.present va then false else isfreeLoop h fuel (va + pgsize) endVa
    else true

def isfree (h : Heap) (v n : Word) : Bool := isfreeLoop h (2 ^ 20) v (v + n)

/-- The loop of `free` over the pages with `PTE_CONTINUED`; `none` is its assertion. -/
def freeLoop : Nat → Word → Heap → Option (Word × Heap)
  | 0, _, _ => none
  | fuel + 1, c, h =>
    if h.uvpt (pgnum c) &&& pteContinued ≠ 0 then
      let h := h.sysPageUnmap c
      let c := c + pgsize
      if mbegin ≤ c ∧ c < mend then freeLoop fuel c h else none
    else some (c, h)

/-- `free`.  It stops at a failed assertion or at a reference count on a page that is not
mapped. -/
def free (h : Heap) (v : Word) : Option Heap :=
  if v = 0 then some h
  else if mbegin ≤ v ∧ v < mend then do
    let (c, h) ← freeLoop (2 ^ 16) (rounddown v) h
    if h.present c then
      let p := pgnum (c + pgsize - 4)
      let h := { h with ref := update h.ref p (h.ref p - 1) }
      if h.ref p = 0 then some (h.sysPageUnmap c) else some h
    else none
  else none

/-- The search of `malloc` for a run of `n` free bytes: whether there is one, and `mptr`. -/
def search (h : Heap) (n : Word) : Nat → Nat → Word → Option (Bool × Word)
  | 0, _, _ => none
  | fuel + 1, nwrap, mptr =>
    if h.isfree mptr n then some (true, mptr)
    else
      let mptr := mptr + pgsize
      if mptr = mend then
        let mptr := mbegin
        if nwrap + 1 = 2 then some (false, mptr) else search h n fuel (nwrap + 1) mptr
      else search h n fuel nwrap mptr

/-- The unmapping after a failed allocation, from page `k` of the run down to page 0. -/
def unmapPages (h : Heap) : Nat → Heap
  | 0 => h.sysPageUnmap h.mptr
  | k + 1 => unmapPages (h.sysPageUnmap (h.mptr + BitVec.ofNat 32 (k + 1) * pgsize)) k

/-- The flags of page `k` of a run of `n` bytes. -/
def runEntry (n : Word) (k : Nat) : Word :=
  pteP ||| pteU ||| pteW ||| if (k + 1) * 4096 < n.toNat then pteContinued else 0

/-- The loop that allocates the `n` bytes at `mptr`, from page `k` on with `left` pages to go. -/
def allocPages (mem : Nat → Bool) (n : Word) : Nat → Nat → Heap → Bool × Heap
  | 0, _, h => (true, h)
  | left + 1, k, h =>
    match h.sysPageAlloc (h.mptr + BitVec.ofNat 32 k * pgsize) (runEntry n k) (mem k) with
    | none => (false, h.unmapPages k)
    | some h => allocPages mem n left (k + 1) h

def pagesFor (n : Word) : Nat := (n.toNat + 4095) / 4096

/-- The part of `malloc` that finds new pages for a chunk of `n` bytes. -/
def place (h : Heap) (mem : Nat → Bool) (n : Word) : Option (Word × Heap) := do
  let (found, mptr) ← h.search (n + 4) (2 ^ 21) 0 h.mptr
  let h := { h with mptr := mptr }
  if found then
    match allocPages mem (n + 4) (pagesFor (n + 4)) 0 h with
    | (false, h) => some (0, h)
    | (true, h) =>
      let p := pgnum (h.mptr + BitVec.ofNat 32 (pagesFor (n + 4)) * pgsize - 4)
      some (h.mptr, { h with ref := update h.ref p 2, mptr := h.mptr + n })
  else some (0, h)

/-- `malloc`: the block, or 0.  `none` means that it does not return. -/
def malloc (h : Heap) (mem : Nat → Bool) (n : Word) : Option (Word × Heap) :=
  let h := if h.mptr = 0 then { h with mptr := mbegin } else h
  let n := roundup4 n
  if n ≥ maxmalloc then some (0, h)
  else if h.mptr % pgsize ≠ 0 then
    if pgnum h.mptr = pgnum (h.mptr + n - 1 + 4) then
      let p := pgnum (roundup h.mptr - 4)
      if h.uvpt p &&& pteP ≠ 0 then
        some (h.mptr, { h with
          ref := update h.ref p (h.ref p + 1), mptr := h.mptr + n })
      else none
    else do
      let h ← h.free h.mptr
      let h := { h with mptr := rounddown (h.mptr + pgsize) }
      h.place mem n
  else h.place mem n

end Heap

structure Block where
  v : Word
  n : Word
deriving DecidableEq

structure State where
  heap : Heap
  live : List Block

def State.malloc (s : State) (mem : Nat → Bool) (n : Word) : Option State :=
  (s.heap.malloc mem n).map fun (v, heap) =>
    ⟨heap, if v = 0 then s.live else ⟨v, n⟩ :: s.live⟩

def State.free (s : State) (b : Block) : Option State :=
  (s.heap.free b.v).map fun heap => ⟨heap, s.live.erase b⟩

/-- The allocator before its first call, with the page table `uvpt`. -/
def State.init (uvpt ref : Nat → Word) : State := ⟨⟨0, uvpt, ref⟩, []⟩

end Mit6828.Lib.Malloc
