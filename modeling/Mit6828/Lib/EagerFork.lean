import Mit6828.Lib.Fork

namespace Mit6828.Lib.EagerFork

open Kern.Mmu Kern.AddressSpace Kern.Environment Kern.Separation Kern.UserMap Fork Library Function

/-- A page of a process: its own, with its contents, or one that is shared under a name. -/
inductive Page where
  | own (data : Nat → Word) (writable : Bool)
  | shared (p : Nat) (writable : Bool)

def Page.writable : Page → Bool
  | .own _ w => w
  | .shared _ w => w

def InRegion (pn : Nat) : Prop := pgnum utext ≤ pn ∧ pn < pgnum ustacktop
deriving Decidable

/-- `forking e` is the child that `e` is making and the number of the next page to copy. -/
structure Eager where
  live : Nat → Prop
  page : Nat → Nat → Option Page
  shared : Nat → Nat → Word
  forking : Nat → Option (Nat × Nat)

def storeWord (data : Nat → Word) (va : Word) (b : Byte) : Nat → Word :=
  update data ((pgoff va).toNat / 4)
    (putByte (data ((pgoff va).toNat / 4)) (va.toNat % 4) b)

namespace Eager

def setPage (a : Eager) (e pn : Nat) (o : Option Page) : Eager :=
  { a with page := update a.page e (update (a.page e) pn o) }

def storeShared (a : Eager) (p : Nat) (va : Word) (b : Byte) : Eager :=
  { a with shared := update a.shared p (storeWord (a.shared p) va b) }

def setForking (a : Eager) (e : Nat) (o : Option (Nat × Nat)) : Eager :=
  { a with forking := update a.forking e o }

def setLive (a : Eager) (e : Nat) (l : Prop) : Eager :=
  { a with live := update a.live e l }

def load (a : Eager) (e : Nat) (va : Word) : Option Byte :=
  (a.page e (pgnum va)).map fun page =>
    match page with
    | .own data _ => getByte (data ((pgoff va).toNat / 4)) (va.toNat % 4)
    | .shared p _ => getByte (a.shared p ((pgoff va).toNat / 4)) (va.toNat % 4)

def Writable (a : Eager) (e : Nat) (va : Word) : Prop :=
  ∃ page, a.page e (pgnum va) = some page ∧ page.writable = true

/-- The eager machine.  A store outside the region goes to some page by name. -/
inductive Step (a : Eager) : Option Event → Eager → Prop
  | own {data : Nat → Word} (e : Nat) (va : Word) (b : Byte) (he : a.live e)
      (hva : InRegion (pgnum va)) (hpage : a.page e (pgnum va) = some (.own data true)) :
      Step a (some (.store e va b))
        (a.setPage e (pgnum va) (some (.own (storeWord data va b) true)))
  | shared {p : Nat} (e : Nat) (va : Word) (b : Byte) (he : a.live e) (hva : InRegion (pgnum va))
      (hpage : a.page e (pgnum va) = some (.shared p true)) :
      Step a (some (.store e va b)) (a.storeShared p va b)
  | outside (e p : Nat) (va : Word) (b : Byte) (he : a.live e) (hva : ¬ InRegion (pgnum va)) :
      Step a (some (.store e va b)) (a.storeShared p va b)
  | refuse (e : Nat) (va : Word) (he : a.live e) (hva : InRegion (pgnum va) → ¬ a.Writable e va) :
      Step a (some (.refuse e va)) ((a.setLive e False).setForking e none)
  /-- `e` stops for want of memory. -/
  | stop (e : Nat) (he : a.live e) : Step a none ((a.setLive e False).setForking e none)
  | begin (e child : Nat) (he : a.live e) (hfork : a.forking e = none) (hchild : ¬ a.live child)
      (hnew : ∀ x, a.live x → ∀ n, a.forking x ≠ some (child, n)) :
      Step a none (a.setForking e (some (child, pgnum utext)))
  | copy (e child pn : Nat) (he : a.live e) (hfork : a.forking e = some (child, pn))
      (hpn : pn < pgnum ustacktop) :
      Step a none ((a.setPage child pn (a.page e pn)).setForking e (some (child, pn + 1)))
  | finish (e child : Nat) (he : a.live e) (hfork : a.forking e = some (child, pgnum ustacktop)) :
      Step a (some (.fork e child)) ((a.setLive child True).setForking e none)
  /-- `fork` gives up. -/
  | abandon (e : Nat) (he : a.live e) : Step a none (a.setForking e none)

abbrev Run := Simulation.Run Step

end Eager

def pageOf (k : Kernel) (w : Word) : Option Page :=
  (frameOf w).map fun p =>
    if w &&& pteShare ≠ 0 then .shared p (w &&& pteW ≠ 0)
    else .own (k.mem.phys p) (w &&& pteW ≠ 0 ∨ w &&& pteCow ≠ 0)

/-- The process `e`, owner of the pages that it maps without `PTE_SHARE`. -/
def snapshot (k : Kernel) (e : Nat) : Eager where
  live x := x = e
  page _ pn := pageOf k (pteOf k e (pn / 1024) (pn % 1024))
  shared := k.mem.phys
  forking _ := none

end Mit6828.Lib.EagerFork
