import Mit6828.Kern.Mmu
import Mit6828.Library.Command
import Mit6828.Library.FlatMemory

/-!
The block cache of the file server, `fs/bc.c`: memory accesses to the disk map that fault blocks
in, and the flushing of blocks.  The state is the one after `fs_init`, with `super` and `bitmap`
set.
-/

namespace Mit6828.Fs

open Kern.Mmu Library Library.FlatMemory

def blksize : Nat := 4096

def diskmap : Nat := 0x10000000

def disksize : Nat := 0xC0000000

def pteD : Word := 0x040

/-- `PTE_P|PTE_U|PTE_W`. -/
def ptePuw : Word := pteP ||| pteU ||| pteW

/-- The memory of the server, the disk, with the bytes of block `b` at the addresses where the
block is mapped, and the flags of `uvpt`. -/
structure Cache where
  mem : Memory
  disk : Memory
  pte : Nat → Word

/-- A C function of the server: `.error r` if it returns the error `r`, and `none` if it
panics. -/
abbrev FsM (α : Type) := Command Cache Word α

def sNblocks : Nat := diskmap + blksize + 4

def bitmap : Nat := diskmap + 2 * blksize

/-- `&bitmap[blockno / 32]`. -/
def bitmapWord (blockno : Nat) : Nat := bitmap + 4 * (blockno / 32)

attribute [grind unfold] blksize diskmap disksize sNblocks bitmap bitmapWord

/-- `1 << (blockno % 32)`. -/
def bit (blockno : Nat) : Word := 1 <<< (blockno % 32)

/-- The test `bitmap[blockno / 32] & (1 << (blockno % 32))`. -/
def freeBit (w : Word) (blockno : Nat) : Prop := w &&& bit blockno ≠ 0
deriving Decidable

namespace Cache

def setPte (s : Cache) (pn : Nat) (w : Word) : Cache :=
  { s with pte := Function.update s.pte pn w }

def setDirty (s : Cache) (pn : Nat) : Cache := s.setPte pn (s.pte pn ||| pteD)

end Cache

def vaIsMapped (s : Cache) (va : Nat) : Prop := s.pte (va / blksize) &&& pteP ≠ 0
deriving Decidable

def vaIsDirty (s : Cache) (va : Nat) : Prop := s.pte (va / blksize) &&& pteD ≠ 0
deriving Decidable

def sysPageAlloc (pn : Nat) (s : Cache) : Cache :=
  { s.setPte pn ptePuw with mem := fill s.mem (pn * blksize) blksize 0 }

/-- `sys_page_map(0, addr, 0, addr, uvpt[PGNUM(addr)] & PTE_SYSCALL)`. -/
def sysPageRemap (pn : Nat) (s : Cache) : Cache :=
  s.setPte pn ((s.pte pn &&& pteSyscall) ||| pteP)

def pageFrom (pn : Nat) (src dst : Memory) : Memory :=
  fun x => if x / blksize = pn then src x else dst x

def ideRead (pn : Nat) (s : Cache) : Cache :=
  { s.setDirty pn with mem := pageFrom pn s.disk s.mem }

def ideWrite (pn : Nat) (s : Cache) : Cache :=
  { s with disk := pageFrom pn s.mem s.disk }

/-- An access to the address `va`.  If its page is not mapped, `bc_pgfault` runs, and its own
accesses to the super block and the bitmap may fault in turn, `depth` times at most. -/
def access : Nat → Nat → Cache → Option Cache
  | 0, va, s => if vaIsMapped s va then some s else none
  | depth + 1, va, s =>
    if vaIsMapped s va then some s
    else if va < diskmap ∨ diskmap + disksize ≤ va then none
    else do
      let s ← access depth sNblocks s
      let blockno := (va - diskmap) / blksize
      if (readWord s.mem sNblocks).toNat ≤ blockno then none
      else
        let s := sysPageRemap (va / blksize)
          (ideRead (va / blksize) (sysPageAlloc (va / blksize) s))
        let s ← access depth (bitmapWord blockno) s
        if freeBit (readWord s.mem (bitmapWord blockno)) blockno then none else some s

/-- Faults in the handler go no deeper than the super block and the bitmap. -/
def faultDepth : Nat := 4

def touch (va : Nat) : FsM Unit :=
  ExceptT.mk fun s => (access faultDepth va s).map fun s' => (.ok (), s')

def pagesOf (a n : Nat) : List Nat :=
  if n = 0 then [] else List.range' (a / blksize) ((a + n - 1) / blksize - a / blksize + 1)

def touchPages : List Nat → FsM Unit
  | [] => return ()
  | pn :: pns => do
    touch (pn * blksize)
    touchPages pns

def touchRange (a n : Nat) : FsM Unit := touchPages (pagesOf a n)

def stored (a n : Nat) (g : Memory → Memory) (s : Cache) : Cache where
  mem := g s.mem
  disk := s.disk
  pte := fun pn => if pn ∈ pagesOf a n then s.pte pn ||| pteD else s.pte pn

/-- A store of `n` bytes at `a`.  A page that is mapped without `PTE_W` can only be the request
page of a client, and `bc_pgfault` panics at a fault there. -/
def storeRange (a n : Nat) (g : Memory → Memory) : FsM Unit := do
  touchRange a n
  let s ← get
  if ∀ pn ∈ pagesOf a n, s.pte pn &&& pteW ≠ 0 then set (stored a n g s) else Command.fail

def loadByte (a : Nat) : FsM Byte := do
  touch a
  return (← get).mem a

def load (a : Nat) : FsM Word := do
  touchRange a 4
  return readWord (← get).mem a

def storeByte (a : Nat) (v : Byte) : FsM Unit := storeRange a 1 fun m => fill m a 1 v

def store (a : Nat) (v : Word) : FsM Unit := storeRange a 4 fun m => writeWord m a v

def memset (a : Nat) (v : Byte) (n : Nat) : FsM Unit := storeRange a n fun m => fill m a n v

def memmove (dst src n : Nat) : FsM Unit := do
  touchRange src n
  storeRange dst n fun m => copy m dst src n

/-- `DISKMAP + blockno * BLKSIZE`, in 32-bit arithmetic. -/
def blockVa (blockno : Word) : Nat :=
  (BitVec.ofNat 32 diskmap + blockno * BitVec.ofNat 32 blksize).toNat

def diskaddr (blockno : Word) : FsM Nat :=
  if blockno = 0 then Command.fail
  else do
    let n ← load sNblocks
    if n ≤ blockno then Command.fail
    else return blockVa blockno

def flushBlock (addr : Nat) : FsM Unit :=
  if addr < diskmap ∨ diskmap + disksize ≤ addr then Command.fail
  else modify fun s =>
    if ¬ vaIsMapped s addr ∨ ¬ vaIsDirty s addr then s
    else sysPageRemap (addr / blksize) (ideWrite (addr / blksize) s)

end Mit6828.Fs
