import Mit6828.Kern.Mmu
import Mit6828.Library.ByteMemory

namespace Mit6828.Lib

open Kern.Mmu Library.ByteMemory

def elfMagic : Word := 0x464C457F
def elfProgLoad : Word := 1
def elfProgFlagWrite : Word := 2

structure Elf where
  eMagic : Word
  eEntry : Word
  ePhoff : Word
  ePhnum : BitVec 16
deriving DecidableEq

structure Proghdr where
  pType : Word
  pOffset : Word
  pVa : Word
  pFilesz : Word
  pMemsz : Word
  pFlags : Word
deriving DecidableEq

def elfAt (m : Memory) (a : Word) : Elf where
  eMagic := readWord m a
  eEntry := readWord m (a + 24)
  ePhoff := readWord m (a + 28)
  ePhnum := m (a + 45) ++ m (a + 44)

def proghdrAt (m : Memory) (a : Word) : Proghdr where
  pType := readWord m a
  pOffset := readWord m (a + 4)
  pVa := readWord m (a + 8)
  pFilesz := readWord m (a + 16)
  pMemsz := readWord m (a + 20)
  pFlags := readWord m (a + 24)

def proghdrs (m : Memory) : List Proghdr :=
  (List.range (elfAt m 0).ePhnum.toNat).map fun i =>
    proghdrAt m ((elfAt m 0).ePhoff + 32 * BitVec.ofNat 32 i)

def placed (bytes : List Byte) (m : Memory) : Memory := fun x => bytes.getD x.toNat (m x)

abbrev headerOf (content : List Byte) : Elf := elfAt (placed content fun _ => 0) 0

abbrev headersOf (content : List Byte) : List Proghdr := proghdrs (placed content fun _ => 0)

end Mit6828.Lib
