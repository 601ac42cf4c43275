import Mit6828.Fs.FileSystem
import Mit6828.Fs.OpenFile

namespace Mit6828.Fs

open Kern.Mmu Library Library.FlatMemory

/-- The address of the request page, and of the first Fd page. -/
def fsreq : Nat := 0x0FFFF000
def fileva : Nat := 0xD0000000

/-- `opentab[i].o_fd`, and its field `fd_offset`. -/
def oFd (i : Nat) : Nat := fileva + i * blksize
def fdOffset (i : Nat) : Nat := oFd i + 4

structure Server where
  cache : Cache
  tab : Opentab

/-- A handler: `.error r` if it returns the negative number `r`. -/
abbrev ServM (α : Type) := Command Server Word α

def onCache {α : Type} (c : FsM α) : ServM α := ExceptT.mk fun s =>
  (c.run.run s.cache).map fun x => (x.1, { s with cache := x.2 })

def lookup : ServM (Nat × OpenFile) := do
  let fileid ← onCache (load fsreq)
  let s ← get
  match openfileLookup s.tab fileid with
  | none => throw (-eInval)
  | some i => return (i, s.tab.file i)

def serveSetSize : ServM Word := do
  let o ← lookup
  let size ← onCache (load (fsreq + 4))
  onCache (fileSetSize o.2.oFile size)
  return 0

def advanceOffset (i : Nat) (r : Word) : ServM Word :=
  if isNeg r then throw r
  else do
    let offset ← onCache (load (fdOffset i))
    onCache (store (fdOffset i) (offset + r))
    return r

/-- `serve_read` and `serve_write`, with the call of `file_read` or `file_write`. -/
def serveTransfer (file : Nat → Word → Word → FsM Word) : ServM Word := do
  let o ← lookup
  let n ← onCache (load (fsreq + 4))
  let offset ← onCache (load (fdOffset o.1))
  let r ← onCache (file o.2.oFile n offset)
  advanceOffset o.1 r

def serveRead : ServM Word := serveTransfer fun f n offset => fileRead f fsreq n offset

def serveWrite : ServM Word := serveTransfer fun f n offset => fileWrite f (fsreq + 8) n offset

def stringAt (m : Memory) (a n : Nat) : List Byte :=
  ((List.range n).map fun i => m (a + i)).takeWhile (· != 0)

/-- `strcpy(ret->ret_name, f->f_name)`.  A name is terminated within its block. -/
def copyName (f : Nat) : FsM Unit := do
  touchRange f 1
  let m := (← get).mem
  strcpy fsreq (stringAt m f (blksize - f % blksize))

def serveStat : ServM Word := do
  let o ← lookup
  onCache (copyName o.2.oFile)
  let size ← onCache (load (fSize o.2.oFile))
  onCache (store (fsreq + 128) size)
  let type ← onCache (load (fType o.2.oFile))
  onCache (store (fsreq + 132) (if type = ftypeDir then 1 else 0))
  return 0

def serveFlush : ServM Word := do
  let o ← lookup
  onCache (fileFlush o.2.oFile)
  return 0

end Mit6828.Fs
