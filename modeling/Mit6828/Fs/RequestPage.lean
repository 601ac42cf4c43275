import Mit6828.Fs.ServeSpec

namespace Mit6828.Fs.RequestPage

open CacheCoherence (booted)
open Kern.Mmu Library Library.FlatMemory ServeSpec

/-- Not an error of the server, whose errors are negative. -/
def outside : Word := 1

section Checked

variable {f lo n buf : Nat} {fin pos count offset : Word} {move : Nat → Nat → Nat → FsM Unit}

end Checked

variable {s : Server} {file file' : Nat → Word → Word → FsM Word}

section Fitting

variable {f buf : Nat} {n offset r r' : Word} {t t' : Cache} {s' : Server}

end Fitting

/-- The root has two blocks, 3 and 4, and starts with a byte 0xAA in its second block. -/
def twoBlocks : Memory :=
  writeBytes (writeWord
    (writeWord (writeWord (writeWord (fun _ => 0) sNblocks 5) (fSize sRoot) 8192)
    (fDirect sRoot 0) 3) (fDirect sRoot 1) 4) (blockAddr 4) [0xAA]

end Mit6828.Fs.RequestPage
