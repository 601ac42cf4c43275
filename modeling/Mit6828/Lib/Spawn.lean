import Mit6828.Lib.Fork
import Mit6828.Lib.Elf

/-!
`spawn` of `lib/spawn.c`, over the page tables of the parent and of the child below `UTOP`.
The system calls are those of `kern/syscall.c` with the checks they make; `mem` says at which
calls the kernel has memory.
-/

namespace Mit6828.Lib.Spawn

open Kern.Mmu Kern.Syscall
open Mit6828.Lib.Fork (pteShare pteCow utext pftemp puw puw_ok vaOf)
open Function
open Mit6828.Library.ByteMemory (Memory bytes)

def utemp : Word := 0x400000
def eNotExec : Word := 14
def eMaxOpen : Word := 10
def eNotFound : Word := 11

/-- A page table entry that is present: the page, and the flags, which every entry below `UTOP`
has from a system call. -/
structure Pte where
  page : Nat
  perm : Word
  user : perm &&& pteU ≠ 0
  present : perm &&& pteP ≠ 0

def Pte.new (page : Nat) (perm : Word) (h : ¬ badPerm perm) : Pte :=
  ⟨page, perm, fun hu => h (.inl hu), fun hp => h (.inr (.inl hp))⟩

abbrev Space := Nat → Option Pte

/-- The pages that the space maps are below `n`. -/
def Bounded (s : Space) (n : Nat) : Prop := ∀ p pte, s p = some pte → pte.page < n

inductive Who where
  | parent
  | child

/-- The pages from `next` on are free; `calls` counts the system calls. -/
structure World where
  parent : Space
  child : Space
  phys : Nat → Nat → Byte
  next : Nat
  calls : Nat
  eip : Word
  esp : Word
  runnable : Bool

def start (parent : Space) (next : Nat) (phys : Nat → Nat → Byte) : World where
  parent := parent
  child := fun _ => none
  phys := phys
  next := next
  calls := 0
  eip := 0
  esp := 0
  runnable := false

namespace World

def space (w : World) : Who → Space
  | .parent => w.parent
  | .child => w.child

def setPte (w : World) (who : Who) (p : Nat) (pte : Option Pte) : World :=
  match who with
  | .parent => { w with parent := update w.parent p pte }
  | .child => { w with child := update w.child p pte }

def tick (w : World) : World := { w with calls := w.calls + 1 }

/-- The bytes stored at consecutive addresses, through the page table; `none` is a page fault. -/
def store (who : Who) : Nat → List Byte → World → Option World
  | _, [], w => some w
  | x, b :: bs, w =>
    match w.space who (x / 4096) with
    | some pte =>
      if pte.perm &&& pteW ≠ 0 then
        store who (x + 1) bs { w with
          phys := update w.phys pte.page
            (update (w.phys pte.page) (x % 4096) b) }
      else none
    | none => none

def load (who : Who) (x : Nat) (w : World) : Option Byte :=
  (w.space who (x / 4096)).map fun pte => w.phys pte.page (x % 4096)

end World

section Calls

variable (mem : Nat → Bool)

def sysPageAlloc (who : Who) (va perm : Word) (w : World) : Word × World :=
  pageCall [va] perm (some w.next) (mem w.calls) w.tick fun p perm h =>
    World.setPte { w.tick with phys := update w.phys p fun _ => 0, next := p + 1 } who (pgnum va)
      (some (.new p perm h))

/-- `sys_page_map`, which does not look at the flags of the source. -/
def sysPageMap (src : Who) (srcva : Word) (dst : Who) (dstva perm : Word) (w : World) :
    Word × World :=
  pageCall [srcva, dstva] perm (w.space src (pgnum srcva)) (mem w.calls) w.tick fun pte perm h =>
    w.tick.setPte dst (pgnum dstva) (some (.new pte.page perm h))

def sysPageUnmap (who : Who) (va : Word) (w : World) : Word × World :=
  if badVa va then (-eInval, w.tick)
  else (0, w.tick.setPte who (pgnum va) none)

/-- A program file: what `readn` gets at an offset, at most `n` bytes, or `none` for an error. -/
structure File where
  read : Word → Word → Option (List Byte)
  le : ∀ {off n : Word} {data : List Byte}, read off n = some data → data.length ≤ n.toNat

/-- What `spawn` reads into `elf_buf`. -/
def File.buf (file : File) : List Byte := (file.read 0 512).getD []

/-- The file with the given contents.  An offset that is negative as an `off_t` is an error. -/
def fileOf (content : List Byte) : File where
  read off n := if off.toNat < 2 ^ 31 then some ((content.drop off.toNat).take n.toNat) else none
  le := by
    intro off n data h
    split at h
    · cases h
      exact List.length_take_le ..
    · cases h

def fdPage (i : Nat) : Nat := 0xD0000 + i

def fdAlloc (s : Space) : Option Nat := (List.range 32).find? fun i => (s (fdPage i)).isNone

/-- The flags with which the file server maps the page of a descriptor. -/
def fdPerm : Word := puw ||| pteShare

theorem fdPerm_user : fdPerm &&& pteU ≠ 0 := by decide

theorem fdPerm_present : fdPerm &&& pteP ≠ 0 := by decide

/-- `open`: the page of the descriptor comes from the file server, if it finds the file. -/
def openFile (prog : Option File) (w : World) : Except Word (Nat × File × World) :=
  match fdAlloc w.parent with
  | none => .error (-eMaxOpen)
  | some fd =>
    match prog with
    | none => .error (-eNotFound)
    | some file => .ok (fd, file, World.setPte { w with next := w.next + 1 } .parent (fdPage fd)
        (some ⟨w.next, fdPerm, fdPerm_user, fdPerm_present⟩))

def closeFile (fd : Nat) (w : World) : World := w.setPte .parent (fdPage fd) none

def utemp2ustack (addr : Word) : Word := addr + (ustacktop - pgsize) - utemp

def rounddown4 (a : Word) : Word := a - a % 4

def stringSize (argv : List (List Byte)) : Word :=
  argv.foldl (fun n arg => n + BitVec.ofNat 32 arg.length + 1) 0

def stringStore (argv : List (List Byte)) : Word := utemp + pgsize - stringSize argv

def argvStore (argv : List (List Byte)) : Word :=
  rounddown4 (stringStore argv) - 4 * (BitVec.ofNat 32 argv.length + 1)

def copyArgs : List (List Byte) → Word → Word → World → Option World
  | [], _, _, w => some w
  | arg :: argv, argvStore, stringStore, w => do
    let w ← w.store .parent argvStore.toNat (bytes (utemp2ustack stringStore))
    let w ← w.store .parent stringStore.toNat (arg ++ [0])
    copyArgs argv (argvStore + 4) (stringStore + BitVec.ofNat 32 arg.length + 1) w

def initStack (argv : List (List Byte)) (w : World) : Option (Word × World) :=
  let store := argvStore argv
  if store - 8 < utemp then some (-eNoMem, w)
  else
    match sysPageAlloc mem .parent utemp puw w with
    | (r, w) =>
      if isNeg r then some (r, w)
      else do
        let w ← copyArgs argv store (stringStore argv) w
        let w ← w.store .parent (store + 4 * BitVec.ofNat 32 argv.length).toNat (bytes 0)
        let w ← w.store .parent (store - 4).toNat (bytes (utemp2ustack store))
        let w ← w.store .parent (store - 8).toNat (bytes (BitVec.ofNat 32 argv.length))
        let w := { w with esp := utemp2ustack (store - 8) }
        match sysPageMap mem .parent utemp .child (ustacktop - pgsize) puw w with
        | (r, w) =>
          if isNeg r then some (r, (sysPageUnmap .parent utemp w).2)
          else some (sysPageUnmap .parent utemp w)

def minWord (a b : Word) : Word := if a ≤ b then a else b

def mapPages (file : File) (va filesz fileoffset perm : Word) :
    Nat → Word → World → Option (Word × World)
  | 0, _, w => some (0, w)
  | left + 1, i, w =>
    if i ≥ filesz then
      match sysPageAlloc mem .child (va + i) perm w with
      | (r, w) =>
        if isNeg r then some (r, w)
        else mapPages file va filesz fileoffset perm left (i + pgsize) w
    else
      match sysPageAlloc mem .parent utemp puw w with
      | (r, w) =>
        if isNeg r then some (r, w)
        else
          match file.read (fileoffset + i) (minWord pgsize (filesz - i)) with
          | none => some (-eInval, w)
          | some data => do
            let w ← w.store .parent utemp.toNat data
            match sysPageMap mem .parent utemp .child (va + i) perm w with
            | (r, w) =>
              -- `panic("spawn: sys_page_map data: %e", r)`
              if isNeg r then none
              else
                mapPages file va filesz fileoffset perm left (i + pgsize)
                  (sysPageUnmap .parent utemp w).2

def pagesFor (n : Word) : Nat := (n.toNat + 4095) / 4096

def mapSegment (file : File) (va memsz filesz fileoffset perm : Word) (w : World) :
    Option (Word × World) :=
  mapPages mem file (va - pgoff va) (filesz + pgoff va) (fileoffset - pgoff va) perm
    (pagesFor (memsz + pgoff va)) 0 w

def segmentPerm (ph : Proghdr) : Word :=
  if ph.pFlags &&& elfProgFlagWrite ≠ 0 then pteP ||| pteU ||| pteW else pteP ||| pteU

def mapSegments (file : File) : List Proghdr → World → Option (Word × World)
  | [], w => some (0, w)
  | ph :: phs, w =>
    if ph.pType ≠ elfProgLoad then mapSegments file phs w
    else do
      let (r, w) ← mapSegment mem file ph.pVa ph.pMemsz ph.pFilesz ph.pOffset (segmentPerm ph) w
      if isNeg r then some (r, w) else mapSegments file phs w

/-- The loop of `copy_shared_pages`, at page `pn` with `left` pages to go. -/
def copyShared : Nat → Nat → World → Word × World
  | 0, _, w => (0, w)
  | left + 1, pn, w =>
    match w.parent pn with
    | none => copyShared left (pn + 1) w
    | some pte =>
      if pte.perm &&& pteShare ≠ 0 then
        match sysPageMap mem .parent (vaOf pn) .child (vaOf pn) (pte.perm &&& pteSyscall) w with
        | (r, w) => if isNeg r then (r, w) else copyShared left (pn + 1) w
      else copyShared left (pn + 1) w

def copySharedPages (w : World) : Word × World :=
  copyShared mem (pgnum ustacktop - pgnum utext) (pgnum utext) w

/-- The end of `spawn`, after `close(fd)`. -/
def startChild (child : Word) (w : World) : Option (Word × World) :=
  match copySharedPages mem w with
  | (r, w) => if isNeg r then none else some (child, { w with runnable := true })

/-- `spawn`; `none` is a panic or a page fault.  `exofork` is the result of `sys_exofork`, and
`stack` what is in memory around `elf_buf`, which is at address 0. -/
def spawn (prog : Option File) (argv : List (List Byte)) (exofork : Word) (stack : Memory)
    (w : World) : Option (Word × World) :=
  match openFile prog w with
  | .error r => some (r, w)
  | .ok (fd, file, w) =>
    let elfBuf := placed file.buf stack
    if file.buf.length ≠ 512 ∨ (elfAt elfBuf 0).eMagic ≠ elfMagic then
      some (-eNotExec, closeFile fd w)
    else if isNeg exofork then some (exofork, w)
    else do
      let w := { w with child := fun _ => none, eip := (elfAt elfBuf 0).eEntry, runnable := false }
      let (r, w) ← initStack mem argv w
      if isNeg r then some (r, w)
      else
        let (r, w) ← mapSegments mem file (proghdrs elfBuf) w
        -- The child is destroyed.
        if isNeg r then some (r, closeFile fd { w with child := fun _ => none })
        else startChild mem exofork (closeFile fd w)

/-- A store of the parent to the page `p`.  `pgfault` of `lib/fork.c` copies a copy-on-write page,
by way of `PFTEMP`, and otherwise panics. -/
def touch (w : World) (p : Nat) : Option World := do
  let pte ← w.parent p
  if pte.perm &&& pteW ≠ 0 then some w
  else if pte.perm &&& pteCow ≠ 0 ∧ mem w.calls ∧ mem (w.calls + 1) then
    some { w with
      parent := update (update w.parent p (some (.new w.next puw puw_ok)))
        (pgnum pftemp) none
      phys := update w.phys w.next (w.phys pte.page)
      next := w.next + 1
      calls := w.calls + 3 }
  else none

/-- `spawn` with its stores to the stack and to `fsipcbuf`.  Only the first store to a page faults,
and no call of `spawn` depends on what these pages map, so that all faults are taken first. -/
def spawnStoring (stores : List Nat) (prog : Option File) (argv : List (List Byte))
    (exofork : Word) (stack : Memory) (w : World) : Option (Word × World) :=
  (stores.foldlM (touch mem) w).bind (spawn mem prog argv exofork stack)

end Calls

end Mit6828.Lib.Spawn
