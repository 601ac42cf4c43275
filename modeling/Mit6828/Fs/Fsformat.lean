import Mit6828.Fs.FileSystem

namespace Mit6828.Fs.Fsformat

open Kern.Mmu Library.FlatMemory

def fsMagic : Word := 0x4A0530AE

def blkbitsize : Nat := 32768

def maxfilesize : Nat := (ndirect + nindirect) * blksize

def maxDirEnts : Nat := 128

/-- The array `ents` of the root directory; the memory that `malloc` returns is not cleared. -/
def ents : Nat := 0

attribute [grind unfold] blkbitsize maxfilesize maxDirEnts ents

/-- The memory of the program, with the image at the addresses where the file server maps the
disk, and `diskpos` as the distance from `diskmap`. -/
structure Format where
  mem : Memory
  diskpos : Nat

def roundup (n : Word) : Word := n - 1 + blkint - (n - 1) % blkint

/-- The macro on an `int`, where the remainder has the sign of `n - 1`. -/
def roundupInt (n : Word) : Word := n - 1 + blkint - (n - 1).srem blkint

def blockof (pos : Nat) : Nat := pos / blksize

def alloc (nblocks : Nat) (bytes : Word) (s : Format) : Option (Nat × Format) :=
  let diskpos := s.diskpos + (roundup bytes).toNat
  if nblocks ≤ blockof diskpos then none else some (s.diskpos, { s with diskpos := diskpos })

/-- The super block is the second one that is allocated, and the bitmap follows. -/
def opendisk (nblocks : Nat) (s : Format) : Option Format := do
  let (_, s) ← alloc nblocks blkint s
  let (super, s) ← alloc nblocks blkint s
  let m := writeWord s.mem (diskmap + super) fsMagic
  let m := writeWord m (diskmap + super + 4) (BitVec.ofNat 32 nblocks)
  let m := writeWord m (fType (diskmap + super + 8)) ftypeDir
  let m := writeBytes m (diskmap + super + 8) [slash, 0]
  let nbitblocks := (nblocks + blkbitsize - 1) / blkbitsize
  let (bitmap, s) ← alloc nblocks (BitVec.ofNat 32 (nbitblocks * blksize)) s
  return { s with mem := fill m (diskmap + bitmap) (nbitblocks * blksize) 0xFF }

def clearBits : Nat → Memory → Memory
  | 0, m => m
  | n + 1, m =>
    let m := clearBits n m
    writeWord m (bitmapWord n) (readWord m (bitmapWord n) &&& ~~~bit n)

def finishdisk (s : Format) : Format := { s with mem := clearBits (blockof s.diskpos) s.mem }

/-- The loops of `finishfile`: `p[i] = start + i` for `i < n`. -/
def numberBlocks (p start : Nat) : Nat → Memory → Memory
  | 0, m => m
  | n + 1, m => writeWord (numberBlocks p start n m) (p + 4 * n) (BitVec.ofNat 32 (start + n))

def finishfile (nblocks f start : Nat) (len : Word) (s : Format) : Option Format :=
  let n := (roundup len).toNat / blksize
  let m := numberBlocks (fDirect f 0) start (min n ndirect) (writeWord s.mem (fSize f) len)
  if min n ndirect = ndirect then do
    let (ind, s) ← alloc nblocks blkint { s with mem := m }
    let m := writeWord s.mem (fIndirect f) (BitVec.ofNat 32 (blockof ind))
    return { s with mem := numberBlocks (diskmap + ind) (start + ndirect) (n - ndirect) m }
  else some { s with mem := m }

/-- `diradd` with the name and the type of a regular file: the `n`-th entry. -/
def diradd (n : Nat) (name : List Byte) (s : Format) : Option (Nat × Format) :=
  if maxDirEnts < n + 1 then none
  else
    let out := ents + sizeofFile * n
    some (out, { s with
      mem := writeWord (writeBytes s.mem out (name ++ [0])) (fType out) ftypeReg })

def finishdir (nblocks n : Nat) (s : Format) : Option Format := do
  let size := BitVec.ofNat 32 (n * sizeofFile)
  let (start, s) ← alloc nblocks size s
  let s := { s with mem := copy s.mem (diskmap + start) ents (n * sizeofFile) }
  finishfile nblocks sRoot (blockof start) (roundupInt size) s

/-- A regular file of the host: its path and its contents. -/
structure Input where
  path : List Byte
  data : List Byte

def Input.last (x : Input) : List Byte := (x.path.reverse.takeWhile (· != slash)).reverse

def writefile (nblocks n : Nat) (x : Input) (s : Format) : Option Format := do
  if maxfilesize ≤ x.data.length then none
  else
    let (f, s) ← diradd n x.last s
    let (start, s) ← alloc nblocks (BitVec.ofNat 32 x.data.length) s
    let s := { s with mem := writeBytes s.mem (diskmap + start) x.data }
    finishfile nblocks f (blockof start) (BitVec.ofNat 32 x.data.length) s

/-- The loop of `main`. -/
def writefiles (nblocks : Nat) : Nat → List Input → Format → Option Format
  | _, [], s => some s
  | n, x :: xs, s => do
    let s ← writefile nblocks n x s
    writefiles nblocks (n + 1) xs s

/-- `main`: the memory with the image.  The image is empty at first; `garbage` is the rest of the
memory. -/
def fsformat (nblocks : Nat) (files : List Input) (garbage : Memory) : Option Memory := do
  if nblocks < 2 ∨ 1024 < nblocks then none
  else
    let mem : Memory := fun a => if diskmap ≤ a ∧ a < diskmap + disksize then 0 else garbage a
    let s ← opendisk nblocks ⟨mem, 0⟩
    let s ← writefiles nblocks 0 files s
    let s ← finishdir nblocks files.length s
    return (finishdisk s).mem

end Mit6828.Fs.Fsformat
