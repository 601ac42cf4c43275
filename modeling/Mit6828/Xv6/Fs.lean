import Mit6828.Library.BlockTree
import Mit6828.Library.FlatMemory
import Mit6828.Xv6.Param

/-!
The blocks and files of `fs.c`: the bitmap allocator, `bmap` with its three levels, `itrunc`,
`readi` and `writei` on regular files, over the buffer cache.  A panic is `none`; the check of
`log_write` for a full log is left to the users of the list `logged`.
-/

namespace Mit6828.Xv6

open Library Function

/-- The fields of the super block in use; `data` is the first block after the bitmap. -/
structure Superblock where
  size : Nat
  ninodes : Nat
  inodestart : Nat
  bmapstart : Nat
  data : Nat

structure Inode where
  type : BitVec 16
  major : BitVec 16
  minor : BitVec 16
  nlink : BitVec 16
  size : Word
  addrs : Nat → Word

/-- The cached blocks, the calls of `log_write` so far, and the inodes in memory. -/
structure Fs where
  block : Nat → FlatMemory.Memory
  logged : List Nat
  inode : Nat → Inode

variable (sb : Superblock)

def bblock (b : Nat) : Nat := b / bpb + sb.bmapstart

def iblock (inum : Nat) : Nat := inum / ipb + sb.inodestart

namespace Fs

def logWrite (fs : Fs) (b : Nat) (m : FlatMemory.Memory) : Fs :=
  { fs with block := update fs.block b m, logged := fs.logged ++ [b] }

def setInode (fs : Fs) (inum : Nat) (ip : Inode) : Fs :=
  { fs with inode := update fs.inode inum ip }

def bitSet (fs : Fs) (b : Nat) : Bool := (fs.block (bblock sb b) (b % bpb / 8)).getLsbD (b % 8)

def bzero (fs : Fs) (b : Nat) : Fs := fs.logWrite b (FlatMemory.fill (fs.block b) 0 bsize 0)

/-- The bits of the bitmap in the order of `balloc`, those of free blocks. -/
def free (fs : Fs) : List Nat := (List.range sb.size).filter fun b => !fs.bitSet sb b

/-- Byte `b % bpb / 8` of a bitmap block with the bit of block `b` changed. -/
def changeBit (m : FlatMemory.Memory) (b : Nat) (f : Byte → Byte → Byte) : FlatMemory.Memory :=
  update m (b % bpb / 8) (f (m (b % bpb / 8)) ((1 : Byte) <<< (b % 8)))

def balloc (fs : Fs) : Option (Fs × Nat) :=
  match (List.range sb.size).find? fun b => !fs.bitSet sb b with
  | none => none
  | some b =>
    let bp := bblock sb b
    some ((fs.logWrite bp (changeBit (fs.block bp) b fun byte m => byte ||| m)).bzero b, b)

def bfree (fs : Fs) (b : Nat) : Option Fs :=
  let bp := bblock sb b
  if fs.bitSet sb b then some
    (fs.logWrite bp (changeBit (fs.block bp) b fun byte m => byte &&& ~~~m))
  else none

def encode (ip : Inode) : List Word :=
  [ip.major ++ ip.type, ip.nlink ++ ip.minor, ip.size] ++ (List.range (ndirect + 2)).map ip.addrs

def decode (m : FlatMemory.Memory) (a : Nat) : Inode where
  type := (FlatMemory.readWord m a).extractLsb' 0 16
  major := (FlatMemory.readWord m a).extractLsb' 16 16
  minor := (FlatMemory.readWord m (a + 4)).extractLsb' 0 16
  nlink := (FlatMemory.readWord m (a + 4)).extractLsb' 16 16
  size := FlatMemory.readWord m (a + 8)
  addrs := fun i => FlatMemory.readWord m (a + 12 + 4 * i)

def dip (inum : Nat) : Nat := 64 * (inum % ipb)

def iupdate (fs : Fs) (inum : Nat) : Fs :=
  let bp := iblock sb inum
  fs.logWrite bp (FlatMemory.writeWords (fs.block bp) (dip inum) (encode (fs.inode inum)))

/-- The part of `ilock` for an inode that is not valid: it is read from the disk. -/
def ilock (fs : Fs) (inum : Nat) : Fs :=
  fs.setInode inum (decode (fs.block (iblock sb inum)) (dip inum))

/-- `ip->addrs[i]`, allocated if it is 0. -/
def rootPtr (fs : Fs) (inum i : Nat) : Option (Fs × Nat) :=
  let ip := fs.inode inum
  if ip.addrs i = 0 then
    (fs.balloc sb).map fun out => (out.1.setInode inum
      { ip with addrs := update ip.addrs i (BitVec.ofNat 32 out.2) }, out.2)
  else some (fs, (ip.addrs i).toNat)

/-- `a[j]` in the block `addr`, allocated if it is 0. -/
def entryPtr (fs : Fs) (addr j : Nat) : Option (Fs × Nat) :=
  let a := FlatMemory.readWord (fs.block addr) (4 * j)
  if a = 0 then
    (fs.balloc sb).map fun out => (out.1.logWrite addr
      (FlatMemory.writeWord (out.1.block addr) (4 * j) (BitVec.ofNat 32 out.2)), out.2)
  else some (fs, a.toNat)

def bmap (fs : Fs) (inum bn : Nat) : Option (Fs × Nat) :=
  if bn < ndirect then fs.rootPtr sb inum bn
  else
    let bn := bn - ndirect
    if bn < nindirect then
      (fs.rootPtr sb inum ndirect).bind fun out => out.1.entryPtr sb out.2 bn
    else
      let bn := bn - nindirect
      if bn < ndindirect then
        (fs.rootPtr sb inum (ndirect + 1)).bind fun out =>
          (out.1.entryPtr sb out.2 (bn / nindirect)).bind fun out =>
            out.1.entryPtr sb out.2 (bn % nindirect)
      else none

def itruncDirect (fs : Fs) (inum : Nat) (i : Nat) : Option Fs :=
  let ip := fs.inode inum
  if ip.addrs i = 0 then some fs
  else (fs.bfree sb (ip.addrs i).toNat).map fun fs =>
    fs.setInode inum { ip with addrs := update ip.addrs i 0 }

/-- A turn of the loop over the entries of the indirect block `addr`. -/
def itruncEntry (addr : Nat) (fs : Fs) (j : Nat) : Option Fs :=
  let a := FlatMemory.readWord (fs.block addr) (4 * j)
  if a = 0 then some fs else fs.bfree sb a.toNat

def itruncIndirect (fs : Fs) (inum : Nat) : Option Fs :=
  let addr := (fs.inode inum).addrs ndirect
  if addr = 0 then some fs
  else
    ((List.range nindirect).foldlM (itruncEntry sb addr.toNat) fs).bind fun fs =>
      (fs.bfree sb addr.toNat).map fun fs => fs.setInode inum
        { fs.inode inum with addrs := update (fs.inode inum).addrs ndirect 0 }

def itrunc (fs : Fs) (inum : Nat) : Option Fs :=
  ((List.range ndirect).foldlM (fun fs i => itruncDirect sb fs inum i) fs).bind fun fs =>
    (fs.itruncIndirect sb inum).map fun fs =>
      (fs.setInode inum { fs.inode inum with size := 0 }).iupdate sb inum

/-- `iput` with the last reference to a valid inode. -/
def iput (fs : Fs) (inum : Nat) : Option Fs :=
  if (fs.inode inum).nlink = 0 then
    (fs.itrunc sb inum).map
    fun fs => (fs.setInode inum { fs.inode inum with type := 0 }).iupdate sb inum
  else some fs

def readLoop (inum : Nat) : Nat → Fs → Nat → Nat → Option (Fs × List Byte)
  | 0, fs, _, _ => some (fs, [])
  | fuel + 1, fs, off, n =>
    if n = 0 then some (fs, [])
    else
      let m := min n (bsize - off % bsize)
      (fs.bmap sb inum (off / bsize)).bind fun out =>
        (readLoop inum fuel out.1 (off + m) (n - m)).map fun rest =>
          (rest.1, (List.range m).map (fun x => out.1.block out.2 (off % bsize + x)) ++ rest.2)

/-- `readi`: the bytes, or nothing for -1. -/
def readi (fs : Fs) (inum : Nat) (off n : Word) : Option (Fs × Option (List Byte)) :=
  let size := (fs.inode inum).size.toNat
  if off.toNat > size ∨ off + n < off then some (fs, none)
  else
    let n := if (off + n).toNat > size then size - off.toNat else n.toNat
    (readLoop sb inum n fs off.toNat n).map fun out => (out.1, some out.2)

def writeLoop (inum : Nat) : Nat → Fs → (Nat → Byte) → Nat → Nat → Option Fs
  | 0, fs, _, _, _ => some fs
  | fuel + 1, fs, src, off, n =>
    if n = 0 then some fs
    else
      let m := min n (bsize - off % bsize)
      (fs.bmap sb inum (off / bsize)).bind fun out =>
        writeLoop inum fuel (out.1.logWrite out.2
          (FlatMemory.writeBytes (out.1.block out.2) (off % bsize) ((List.range m).map src)))
          (fun x => src (x + m)) (off + m) (n - m)

def writei (fs : Fs) (inum : Nat) (src : Nat → Byte) (off n : Word) : Option (Fs × Word) :=
  if off.toNat > (fs.inode inum).size.toNat ∨ off + n < off then some (fs, -1)
  else if (off + n).toNat > maxfile * bsize then some (fs, -1)
  else
    (writeLoop sb inum n.toNat fs src off.toNat n.toNat).map fun fs =>
      if 0 < n.toNat ∧ (off + n).toNat > (fs.inode inum).size.toNat then
        ((fs.setInode inum { fs.inode inum with size := off + n }).iupdate sb inum, n)
      else (fs, n)

end Fs

end Mit6828.Xv6
