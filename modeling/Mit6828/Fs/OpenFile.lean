import Mit6828.Kern.Mmu

namespace Mit6828.Fs

open Kern.Mmu Function

@[grind unfold]
def maxopen : Nat := 1024

def eMaxOpen : Word := 10

/-- `struct OpenFile`; `oFile` is the address of the `struct File`.  The page `o_fd` of slot `i`
is the page at `FILEVA + i * PGSIZE`. -/
structure OpenFile where
  oFileid : Word
  oFile : Nat
  oMode : Word
  deriving DecidableEq

/-- An environment and an address in it. -/
abbrev Client := Nat × Nat

/-- The server, environment 0, maps the request page here: an Fd page, if a client sends one. -/
def atFsreq : Client := (0, 0x0FFFF000)

/-- `opentab`, with what `pageref` sees of the Fd pages: whether the server maps the page of a
slot at `o_fd`, and where else it is mapped, by clients and by the server at `fsreq`. -/
structure Opentab where
  file : Nat → OpenFile
  mapped : Nat → Bool
  clients : Nat → Finset Client

def serveInit : Opentab where
  file := fun i => ⟨BitVec.ofNat 32 i, 0, if i = 0 then 1 else 0⟩
  mapped := fun _ => false
  clients := fun _ => ∅

def pageref (t : Opentab) (i : Nat) : Nat :=
  if t.mapped i then ((t.clients i).card + 1) % 65536 else 0

namespace Opentab

def set (t : Opentab) (i : Nat) (o : OpenFile) : Opentab :=
  { t with file := update t.file i o }

@[simp] theorem set_file_self (t : Opentab) (i : Nat) (o : OpenFile) : (t.set i o).file i = o :=
  update_self _ _ _

theorem set_file_of_ne {t : Opentab} {i j : Nat} {o : OpenFile} (hne : j ≠ i) :
    (t.set i o).file j = t.file j := update_of_ne hne _ _

def claim (t : Opentab) (i : Nat) : Opentab :=
  t.set i { t.file i with oFileid := (t.file i).oFileid + BitVec.ofNat 32 maxopen }

/-- `sys_page_alloc` at `o_fd`: nobody else maps the new page. -/
def newPage (t : Opentab) (i : Nat) : Opentab :=
  { t with mapped := update t.mapped i true
           clients := update t.clients i ∅ }

/-- The Fd page of slot `i` is mapped at `c`, and replaces what was there. -/
def map (t : Opentab) (i : Nat) (c : Client) : Opentab :=
  { t with clients := update (fun j => (t.clients j).erase c) i (insert c (t.clients i)) }

@[simp] theorem map_clients_self (t : Opentab) (i : Nat) (c : Client) :
    (t.map i c).clients i = insert c (t.clients i) := by
  simp [map]

def unmap (t : Opentab) (c : Client) : Opentab :=
  { t with clients := fun j => (t.clients j).erase c }

/-- The mappings of the clients. -/
def held (t : Opentab) (i : Nat) : Finset Client := (t.clients i).erase atFsreq

def fill (t : Opentab) (i f : Nat) (mode : Word) : Opentab :=
  t.set i { t.file i with oFile := f, oMode := mode }

end Opentab

/-- The loop of `openfile_alloc` over the `n` slots from `i` on: the error that it returns, or the
slot, whose new `o_fileid` it returns as an `int`.  `room` says whether `sys_page_alloc` finds a
page. -/
def openfileAllocFrom (room : Bool) (t : Opentab) : Nat → Nat → Except Word Nat × Opentab
  | 0, _ => (.error (-eMaxOpen), t)
  | n + 1, i =>
    match pageref t i with
    | 0 => if room then (.ok i, (t.newPage i).claim i) else (.error (-eNoMem), t)
    | 1 => (.ok i, t.claim i)
    | _ => openfileAllocFrom room t n (i + 1)

def openfileAlloc (room : Bool) (t : Opentab) : Except Word Nat × Opentab :=
  openfileAllocFrom room t maxopen 0

/-- `openfile_lookup`; the argument `envid` is not used.  `none` is `-E_INVAL`. -/
def openfileLookup (t : Opentab) (fileid : Word) : Option Nat :=
  if pageref t (fileid.toNat % maxopen) ≤ 1 ∨
      (t.file (fileid.toNat % maxopen)).oFileid ≠ fileid then none
  else some (fileid.toNat % maxopen)

theorem pageref_le_one_iff {t : Opentab} {i : Nat}
    (hunmapped : t.mapped i = false → t.clients i = ∅) (hcard : (t.clients i).card + 1 < 65536) :
    pageref t i ≤ 1 ↔ t.clients i = ∅ := by
  cases hmapped : t.mapped i with
  | false => simp [pageref, hmapped, hunmapped hmapped]
  | true =>
    rw [pageref, if_pos hmapped, Nat.mod_eq_of_lt hcard, Nat.succ_le_succ_iff, Nat.le_zero,
      Finset.card_eq_zero]

inductive Allocated (room : Bool) (t : Opentab) : Except Word Nat → Opentab → Prop
  | full (hheld : ∀ j < maxopen, 2 ≤ pageref t j) : Allocated room t (.error (-eMaxOpen)) t
  | noMem (hroom : room = false) : Allocated room t (.error (-eNoMem)) t
  | reused {i : Nat} (hi : i < maxopen) (hone : pageref t i = 1) :
      Allocated room t (.ok i) (t.claim i)
  | fresh {i : Nat} (hi : i < maxopen) (hzero : pageref t i = 0) :
      Allocated room t (.ok i) ((t.newPage i).claim i)

theorem openfileAlloc_cases (room : Bool) (t : Opentab) :
    Allocated room t (openfileAlloc room t).1 (openfileAlloc room t).2 := by
  suffices hloop : ∀ n i, i + n = maxopen → (∀ j < i, 2 ≤ pageref t j) →
      Allocated room t (openfileAllocFrom room t n i).1 (openfileAllocFrom room t n i).2 from
    hloop maxopen 0 (Nat.zero_add _) (by omega)
  intro n
  induction n with
  | zero =>
    intro i hi hbefore
    rw [Nat.add_zero] at hi
    exact .full (hi ▸ hbefore)
  | succ n ih =>
    intro i hi hbefore
    have hlt : i < maxopen := by omega
    rw [openfileAllocFrom]
    split
    · rename_i hzero
      split
      · exact .fresh hlt hzero
      · rename_i hroom
        exact .noMem (by simpa using hroom)
    · rename_i hone
      exact .reused hlt hone
    · rename_i hzero hone
      refine ih (i + 1) (by omega) fun j hj => ?_
      rcases Nat.lt_succ_iff_lt_or_eq.mp hj with hlt | rfl
      · exact hbefore j hlt
      · have h0 : pageref t j ≠ 0 := hzero
        have h1 : pageref t j ≠ 1 := hone
        omega

end Mit6828.Fs
