import Mit6828.Kern.Pmap

namespace Mit6828.Kern.AddressSpace

open Mmu Pmap

/-- The directory entry and the table entry that translate `va`, if both are present. -/
def translate (pgdir : Nat) (va : Word) (m : Mem) : Option (Word × Word) :=
  let pde := m.phys pgdir (pdx va)
  let pte := m.phys (pgnum pde) (ptx va)
  if pde &&& pteP ≠ 0 ∧ pte &&& pteP ≠ 0 then some (pde, pte) else none

structure Access where
  va : Word
  write : Bool
  deriving DecidableEq

def allowsUser (e : Word × Word) (write : Bool) : Prop :=
  e.1 &&& pteU ≠ 0 ∧ e.2 &&& pteU ≠ 0 ∧
    (write = true → e.1 &&& pteW ≠ 0 ∧ e.2 &&& pteW ≠ 0)
deriving Decidable

/-- User mode may make the access: the address is below `ULIM`, it is mapped, and both
entries allow it. -/
def userMay (pgdir : Nat) (a : Access) (m : Mem) : Prop :=
  a.va < ulim ∧ ∃ e ∈ translate pgdir a.va m, allowsUser e a.write
deriving Decidable

def wordAt (pte va : Word) : Nat × Nat := (pgnum pte, (pgoff va).toNat / 4)

def getByte (w : Word) (i : Nat) : Byte := BitVec.setWidth 8 (w >>> (8 * i))

def putByte (w : Word) (i : Nat) (b : Byte) : Word :=
  (w &&& ~~~((0xFF : Word) <<< (8 * i))) ||| (BitVec.setWidth 32 b <<< (8 * i))

def loadByte (pgdir : Nat) (m : Mem) (va : Word) : Option Byte := do
  let (_, pte) ← translate pgdir va m
  return getByte (m.word (wordAt pte va)) (va.toNat % 4)

/-- A store by the kernel, which `CR0_WP` keeps from writing read-only pages. -/
def storeByte (pgdir : Nat) (m : Mem) (va : Word) (b : Byte) : Option Mem := do
  let (pde, pte) ← translate pgdir va m
  if pde &&& pteW ≠ 0 ∧ pte &&& pteW ≠ 0 then
    let at' := wordAt pte va
    return m.setWord at' (putByte (m.word at') (va.toNat % 4) b)
  else none

def loadHalf (pgdir : Nat) (m : Mem) (va : Word) : Option (BitVec 16) := do
  let b0 ← loadByte pgdir m va
  let b1 ← loadByte pgdir m (va + 1)
  return b1 ++ b0

def loadWord (pgdir : Nat) (m : Mem) (va : Word) : Option Word := do
  let h0 ← loadHalf pgdir m va
  let h1 ← loadHalf pgdir m (va + 2)
  return h1 ++ h0

def storeBytes (pgdir : Nat) : Mem → Word → List Byte → Option Mem
  | m, _, [] => some m
  | m, va, b :: bs => do
    let m ← storeByte pgdir m va b
    storeBytes pgdir m (va + 1) bs

def bytesOf (w : Word) : List Byte := (List.range 4).map (getByte w)

def addrs (va : Word) (n : Nat) : List Word :=
  (List.range n).map fun i => va + BitVec.ofNat 32 i

end Mit6828.Kern.AddressSpace
