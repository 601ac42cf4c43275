import Mit6828.Fs.BlockCache

/-!
The file system proper, `fs/fs.c`.  A `struct File *` is the address of the structure in the disk
map, a path or a name the list of its characters.
-/

namespace Mit6828.Fs

open Kern.Mmu Library Library.FlatMemory

def eNoDisk : Word := 9
def eNotFound : Word := 11
def eBadPath : Word := 12

def ndirect : Nat := 10
def nindirect : Nat := 1024
def maxnamelen : Nat := 128
def blkfiles : Nat := 16

def sizeofFile : Nat := 256

def ftypeReg : Word := 0
def ftypeDir : Word := 1

/-- The addresses of the fields of the `struct File` at `f`; `f_name` is at `f` itself. -/
def fSize (f : Nat) : Nat := f + 128
def fType (f : Nat) : Nat := f + 132
def fDirect (f i : Nat) : Nat := f + 136 + 4 * i
def fIndirect (f : Nat) : Nat := f + 176

def sRoot : Nat := diskmap + blksize + 8

attribute [grind unfold] ndirect nindirect maxnamelen blkfiles sizeofFile fSize fType fDirect
  fIndirect sRoot

/-- `BLKSIZE` as an `int`. -/
def blkint : Word := 4096

/-- `(size + BLKSIZE - 1) / BLKSIZE` for a `size` of type `off_t`. -/
def nblocksOf (size : Word) : Word := (size + blkint - 1).sdiv blkint

theorem toNat_sdiv_blkint {w : Word} (h : w.toNat < 2 ^ 31) :
    (w.sdiv blkint).toNat = w.toNat / blksize := by
  have hmsb : w.msb = false := by
    rw [BitVec.msb_eq_decide]
    simpa using h
  rw [BitVec.sdiv_eq, hmsb, show blkint.msb = false from rfl]
  exact BitVec.toNat_udiv

theorem toNat_srem_blkint {w : Word} (h : w.toNat < 2 ^ 31) :
    (w.srem blkint).toNat = w.toNat % blksize := by
  have hmsb : w.msb = false := by
    rw [BitVec.msb_eq_decide]
    simpa using h
  rw [BitVec.srem_eq, hmsb, show blkint.msb = false from rfl]
  exact BitVec.toNat_umod

theorem toNat_nblocksOf {size : Word} (h : size.toNat ≤ 0x7FFFF000) :
    (nblocksOf size).toNat = (size.toNat + (blksize - 1)) / blksize := by
  have hsum : (size + blkint - 1).toNat = size.toNat + (blksize - 1) := by
    rw [BitVec.toNat_sub, BitVec.toNat_add, show blkint.toNat = 4096 from rfl,
      show (1 : Word).toNat = 1 from rfl]
    grind
  rw [nblocksOf, toNat_sdiv_blkint (by grind), hsum]

def blockIsFree (blockno : Nat) : FsM Bool := do
  let n ← load sNblocks
  if n.toNat ≤ blockno then return false
  else
    let w ← load (bitmapWord blockno)
    return decide (freeBit w blockno)

def freeBlock (blockno : Word) : FsM Unit :=
  if blockno = 0 then Command.fail
  else do
    let w ← load (bitmapWord blockno.toNat)
    store (bitmapWord blockno.toNat) (w ||| bit blockno.toNat)

/-- The loop of `alloc_block` over the `n` blocks from `i` on. -/
def allocFrom : Nat → Nat → FsM Word
  | 0, _ => return -eNoDisk
  | n + 1, i => do
    let free ← blockIsFree i
    if free then do
      let w ← load (bitmapWord i)
      store (bitmapWord i) (w &&& ~~~bit i)
      flushBlock bitmap
      return BitVec.ofNat 32 i
    else allocFrom n (i + 1)

def allocBlock : FsM Word := do
  let n ← load sNblocks
  allocFrom (n.toNat - 1) 1

/-- The branch of `file_block_walk` for a file without an indirect block.  The result of
`alloc_block` is stored in a `uint32_t`, so the test `blockno < 0` never holds. -/
def allocIndirect (f : Nat) : FsM Unit := do
  let blockno ← allocBlock
  store (fIndirect f) blockno
  let va ← diskaddr blockno
  memset va 0 blksize
  let va ← diskaddr blockno
  flushBlock va

def fileBlockWalk (f : Nat) (filebno : Word) (alloc : Bool) : FsM Nat :=
  if filebno.toNat < ndirect then return fDirect f filebno.toNat
  else if ndirect + nindirect ≤ filebno.toNat then throw (-eInval)
  else do
    let ind ← load (fIndirect f)
    (if ind ≠ 0 then pure () else if alloc then allocIndirect f else throw (-eNotFound))
    let ind ← load (fIndirect f)
    let va ← diskaddr ind
    return va + 4 * (filebno.toNat - ndirect)

/-- `if (*pdiskbno == 0) { .. }` of `file_get_block`. -/
def allocSlot (pdiskbno : Nat) : FsM Unit := do
  let b ← load pdiskbno
  if b ≠ 0 then return ()
  else
    let r ← allocBlock
    if isNeg r then throw r else store pdiskbno r

def fileGetBlock (f : Nat) (filebno : Word) : FsM Nat := do
  let pdiskbno ← fileBlockWalk f filebno true
  allocSlot pdiskbno
  let b ← load pdiskbno
  diskaddr b

/-- The string at `a` is `name`. -/
def cstring (m : Memory) (a : Nat) : List Byte → Bool
  | [] => m a == 0
  | c :: cs => m a == c && cstring m (a + 1) cs

/-- `strcmp(a, name) == 0`, for a name that fits into an `f_name`. -/
def strcmpEq (a : Nat) (name : List Byte) : FsM Bool := do
  touchRange a (name.length + 1)
  return cstring (← get).mem a name

def strcpy (a : Nat) (name : List Byte) : FsM Unit :=
  storeRange a (name ++ [0]).length fun m => writeBytes m a (name ++ [0])

def scanFiles (test : Nat → FsM Bool) : Nat → Nat → FsM (Option Nat)
  | 0, _ => return none
  | n + 1, f => do
    let found ← test f
    if found then return some f else scanFiles test n (f + sizeofFile)

/-- The loop of `dir_lookup` over the `n` blocks of a directory from block `i` on; `last` is what
comes after it. -/
def scanDir (dir : Nat) (test : Nat → FsM Bool) (last : Nat → FsM Nat) : Nat → Nat → FsM Nat
  | 0, i => last i
  | n + 1, i => do
    let blk ← fileGetBlock dir (BitVec.ofNat 32 i)
    match ← scanFiles test blkfiles blk with
    | some f => return f
    | none => scanDir dir test last n (i + 1)

def searchDir (dir : Nat) (test : Nat → FsM Bool) (last : Nat → FsM Nat) : FsM Nat := do
  let size ← load (fSize dir)
  if size.srem blkint ≠ 0 then Command.fail
  else scanDir dir test last (size.sdiv blkint).toNat 0

def dirLookup (dir : Nat) (name : List Byte) : FsM Nat :=
  searchDir dir (fun f => strcmpEq f name) fun _ => throw (-eNotFound)

def slash : Byte := 0x2F

def skipSlash (path : List Byte) : List Byte := path.dropWhile (· == slash)

/-- What `walk_path` returns and stores; a null pointer is 0. -/
structure Walk where
  r : Word
  dir : Nat
  f : Nat
  lastelem : List Byte

/-- The loop of `walk_path`; `n` bounds the number of path elements. -/
def walkFrom : Nat → List Byte → Nat → Nat → FsM Walk
  | 0, _, dir, f => return ⟨0, dir, f, []⟩
  | n + 1, path, dir, f =>
    if path = [] then return ⟨0, dir, f, []⟩
    else
      let name := path.takeWhile (· != slash)
      let rest := skipSlash (path.dropWhile (· != slash))
      if maxnamelen ≤ name.length then return ⟨-eBadPath, 0, 0, []⟩
      else do
        let type ← load (fType f)
        if type ≠ ftypeDir then return ⟨-eNotFound, 0, 0, []⟩
        else
          match ← Command.attempt (dirLookup f name) with
          | .ok f' => walkFrom n rest f f'
          | .error r =>
            if r = -eNotFound ∧ rest = [] then return ⟨r, f, 0, name⟩
            else return ⟨r, 0, 0, []⟩

def walkPath (path : List Byte) : FsM Walk := walkFrom path.length (skipSlash path) 0 sRoot

def flushFrom (f : Nat) : Nat → Nat → FsM Unit
  | 0, _ => return ()
  | n + 1, i => do
    match ← Command.attempt (fileBlockWalk f (BitVec.ofNat 32 i) false) with
    | .error _ => flushFrom f n (i + 1)
    | .ok pdiskbno =>
      let b ← load pdiskbno
      if b = 0 then flushFrom f n (i + 1)
      else
        let va ← diskaddr b
        flushBlock va
        flushFrom f n (i + 1)

def flushIndirect (f : Nat) : FsM Unit := do
  let ind ← load (fIndirect f)
  if ind = 0 then return ()
  else
    let va ← diskaddr ind
    flushBlock va

def fileFlush (f : Nat) : FsM Unit := do
  let size ← load (fSize f)
  flushFrom f (nblocksOf size).toInt.toNat 0
  flushBlock f
  flushIndirect f

def fileOpen (path : List Byte) : FsM Nat := do
  let w ← walkPath path
  if w.r = 0 then return w.f else throw w.r

/-- `MIN(BLKSIZE - pos % BLKSIZE, fin - pos)`, compared as unsigned numbers. -/
def chunk (pos fin : Word) : Word :=
  if blkint - pos.srem blkint ≤ fin - pos then blkint - pos.srem blkint else fin - pos

def inBlock (blk : Nat) (pos : Word) : Nat := (BitVec.ofNat 32 blk + pos.srem blkint).toNat

/-- The loop that `file_read` and `file_write` share, from `pos` to `fin`; each turn moves at
least one byte, so that `fin - pos` turns are enough. -/
def transfer (f : Nat) (fin : Word) (move : Nat → Nat → Nat → FsM Unit) :
    Nat → Word → Nat → FsM Unit
  | 0, _, _ => return ()
  | n + 1, pos, buf =>
    if pos < fin then do
      let blk ← fileGetBlock f (pos.sdiv blkint)
      move buf (inBlock blk pos) (chunk pos fin).toNat
      transfer f fin move n (pos + chunk pos fin) (buf + (chunk pos fin).toNat)
    else return ()

/-- `file_read` with a function in the place of `memmove`; the number of bytes read. -/
def fileReadBy (move : Nat → Nat → Nat → FsM Unit) (f buf : Nat) (count offset : Word) :
    FsM Word := do
  let size ← load (fSize f)
  if size.sle offset then return 0
  else
    let count := if count ≤ size - offset then count else size - offset
    transfer f (offset + count) move count.toNat offset buf
    return count

def fileRead (f buf : Nat) (count offset : Word) : FsM Word :=
  fileReadBy (fun buf blk n => memmove buf blk n) f buf count offset

def fileFreeBlock (f : Nat) (filebno : Word) : FsM Unit := do
  let ptr ← fileBlockWalk f filebno false
  let b ← load ptr
  if b = 0 then return ()
  else
    freeBlock b
    store ptr 0

/-- The loop of `file_truncate_blocks`; an error only prints a warning. -/
def truncateFrom (f : Nat) : Nat → Nat → FsM Unit
  | 0, _ => return ()
  | n + 1, bno => do
    let _ ← Command.attempt (fileFreeBlock f (BitVec.ofNat 32 bno))
    truncateFrom f n (bno + 1)

def freeIndirect (f : Nat) : FsM Unit := do
  let ind ← load (fIndirect f)
  if ind = 0 then return ()
  else
    freeBlock ind
    store (fIndirect f) 0

def fileTruncateBlocks (f : Nat) (newsize : Word) : FsM Unit := do
  let size ← load (fSize f)
  let oldNblocks := (nblocksOf size).toNat
  let newNblocks := (nblocksOf newsize).toNat
  truncateFrom f (oldNblocks - newNblocks) newNblocks
  if newNblocks ≤ ndirect then freeIndirect f else return ()

def fileSetSize (f : Nat) (newsize : Word) : FsM Unit := do
  let size ← load (fSize f)
  (if newsize.slt size then fileTruncateBlocks f newsize else pure ())
  store (fSize f) newsize
  flushBlock f

def fileWriteBy (move : Nat → Nat → Nat → FsM Unit) (f buf : Nat) (count offset : Word) :
    FsM Word := do
  let size ← load (fSize f)
  (if size < offset + count then fileSetSize f (offset + count) else pure ())
  transfer f (offset + count) move count.toNat offset buf
  return count

def fileWrite (f buf : Nat) (count offset : Word) : FsM Word :=
  fileWriteBy (fun buf blk n => memmove blk buf n) f buf count offset

def syncFrom : Nat → Nat → FsM Unit
  | 0, _ => return ()
  | n + 1, i => do
    let va ← diskaddr (BitVec.ofNat 32 i)
    flushBlock va
    syncFrom n (i + 1)

def fsSync : FsM Unit := do
  let n ← load sNblocks
  syncFrom (n.toNat - 1) 1

end Mit6828.Fs
