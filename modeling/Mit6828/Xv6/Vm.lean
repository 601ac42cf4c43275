import Mit6828.Library.FlatMemory
import Mit6828.Xv6.Param

/-!
Page tables of xv6: `vm.c` and the address macros of `mmu.h` and `memlayout.h`.  A page table is
the map from page numbers to the entries with `PTE_P`; the pages that hold it are left out.
-/

namespace Mit6828.Xv6.Vm

open Library Function

structure Pte where
  frame : Nat
  w : Bool
  u : Bool
deriving DecidableEq

abbrev Pgdir := Nat → Option Pte

def page (va : Word) : Nat := va.toNat / 4096

def offset (va : Word) : Nat := va.toNat % 4096

@[grind unfold]
def kernbase : Nat := 0x80000

/-- `mappages` on whole pages; it panics ("remap") if one of them is present. -/
def mappages (pgdir : Pgdir) (page n frame : Nat) (w u : Bool) : Option Pgdir :=
  match n with
  | 0 => some pgdir
  | n + 1 =>
    if (pgdir page).isSome then none
    else mappages (update pgdir page (some ⟨frame, w, u⟩)) (page + 1) n (frame + 1) w u

/-- A row of `kmap`, in pages. -/
structure Kmap where
  virt : Nat
  physStart : Nat
  pages : Nat
  w : Bool

/-- The table `kmap`; `data` is the page number of `V2P(data)`, which the linker determines. -/
def kmap (data : Nat) : List Kmap :=
  [⟨kernbase, 0, 0x100, true⟩, ⟨kernbase + 0x100, 0x100, data - 0x100, false⟩,
    ⟨kernbase + data, data, 0xE000 - data, true⟩, ⟨0xFE000, 0xFE000, 0x2000, true⟩]

def setupkvm (data : Nat) : Option Pgdir :=
  (kmap data).foldlM (fun pgdir k => mappages pgdir k.virt k.pages k.physStart k.w false)
    fun _ => none

structure Space where
  pgdir : Pgdir
  mem : FlatMemory.Memory

namespace Space

def phys (s : Space) (va : Word) : Option Nat :=
  (s.pgdir (page va)).map fun pte => 4096 * pte.frame + offset va

def view (s : Space) : ByteMemory.Memory := fun va => ((s.phys va).map s.mem).getD 0

/-- Whether the kernel can write the byte at `va`; `CR0_WP` is set. -/
def writable (s : Space) (va : Word) : Bool := (s.pgdir (page va)).any Pte.w

/-- Whether user code can access the byte at `va`. -/
def accessible (s : Space) (va : Word) : Bool := (s.pgdir (page va)).any Pte.u

/-- The byte of physical memory is on a page that user code can access. -/
def UserOwned (s : Space) (pa : Nat) : Prop :=
  ∃ v pte, s.pgdir v = some pte ∧ pte.u = true ∧ pa / 4096 = pte.frame

/-- A store of a word by the kernel; it faults if one of the bytes cannot be written. -/
def storeWord (s : Space) (va w : Word) : Option Space :=
  if ∀ i < 4, s.writable (va + BitVec.ofNat 32 i) then
    some { s with mem := fun pa =>
      match (List.range 4).find? fun i => s.phys (va + BitVec.ofNat 32 i) = some pa with
      | some i => ByteMemory.byte w i
      | none => s.mem pa }
  else none

/-- `inituvm` with the page that `kalloc` returned. -/
def inituvm (s : Space) (frame : Nat) (init : List Byte) : Option Space :=
  (mappages s.pgdir 0 1 frame true true).map fun pgdir =>
    ⟨pgdir, FlatMemory.writeBytes (FlatMemory.fill s.mem (4096 * frame) 4096 0) (4096 * frame) init⟩

end Space

section Mappages

variable {pgdir : Pgdir} {p v n frame data : Nat} {w u : Bool}

def mapped (pgdir : Pgdir) (v n frame : Nat) (w u : Bool) : Pgdir := fun p =>
  if v ≤ p ∧ p < v + n then some ⟨frame + (p - v), w, u⟩ else pgdir p

theorem mapped_inside (hlo : v ≤ p) (hhi : p < v + n) :
    mapped pgdir v n frame w u p = some ⟨frame + (p - v), w, u⟩ := if_pos ⟨hlo, hhi⟩

theorem mapped_outside (h : p < v ∨ v + n ≤ p) : mapped pgdir v n frame w u p = pgdir p :=
  if_neg (by omega)

theorem mappages_eq (h : ∀ p, v ≤ p → p < v + n → pgdir p = none) :
    mappages pgdir v n frame w u = some (mapped pgdir v n frame w u) := by
  induction n generalizing pgdir v frame with
  | zero =>
    rw [mappages]
    congr 1
    funext p
    rw [mapped, if_neg (by omega)]
  | succ n ih =>
    rw [mappages, h v (Nat.le_refl v) (by omega), if_neg (by simp), ih]
    · congr 1
      funext p
      rw [mapped, mapped]
      by_cases hp : p = v
      · subst hp
        rw [if_neg (by omega), if_pos (by omega), update_self, Nat.sub_self]
        rfl
      · rw [update_of_ne hp]
        by_cases hin : v + 1 ≤ p ∧ p < v + 1 + n
        · rw [if_pos hin, if_pos (by omega),
            show frame + 1 + (p - (v + 1)) = frame + (p - v) by omega]
        · rw [if_neg hin, if_neg (by omega)]
    · intro p hlo hhi
      rw [update_of_ne (by omega)]
      exact h p (by omega) (by omega)

def kvm (data : Nat) : Pgdir := fun p =>
  if 0xFE000 ≤ p ∧ p < 0x100000 then some ⟨p, true, false⟩
  else if kernbase ≤ p ∧ p < kernbase + 0xE000 then
    some ⟨p - kernbase, decide (p < kernbase + 0x100 ∨ kernbase + data ≤ p), false⟩
  else none

theorem setupkvm_rows (hlo : 0x100 ≤ data) (hhi : data ≤ 0xE000) : setupkvm data = some (mapped
      (mapped (mapped (mapped (fun _ => none) kernbase 0x100 0 true false)
      (kernbase + 0x100) (data - 0x100) 0x100 false false) (kernbase + data) (0xE000 - data) data
      true false) 0xFE000 0x2000 0xFE000 true false) := by
  rw [setupkvm, kmap]
  generalize hk : kernbase = k
  have hk : k = 0x80000 := hk.symm
  have h1 : mappages (fun _ => none) k 0x100 0 true false =
      some (mapped (fun _ => none) k 0x100 0 true false) := mappages_eq fun _ _ _ => rfl
  rw [List.foldlM_cons, h1, Option.bind_eq_bind, Option.bind_some, List.foldlM_cons,
    mappages_eq, Option.bind_eq_bind, Option.bind_some, List.foldlM_cons, mappages_eq,
    Option.bind_eq_bind, Option.bind_some, List.foldlM_cons, mappages_eq, Option.bind_eq_bind,
    Option.bind_some, List.foldlM_nil]
  · rfl
  all_goals
    intro p hp hp'
    dsimp only at hp hp' ⊢
  · rw [mapped_outside (.inr (by omega)), mapped_outside (.inr (by omega)),
      mapped_outside (.inr (by omega))]
  · rw [mapped_outside (.inr (by omega)), mapped_outside (.inr (by omega))]
  · rw [mapped_outside (.inr (by omega))]

theorem setupkvm_eq (hlo : 0x100 ≤ data) (hhi : data ≤ 0xE000) :
    setupkvm data = some (kvm data) := by
  rw [setupkvm_rows hlo hhi]
  refine congrArg some (funext fun p => ?_)
  rw [kvm]
  generalize hk : kernbase = k
  have hk : k = 0x80000 := hk.symm
  by_cases hdev : 0xFE000 ≤ p ∧ p < 0x100000
  · rw [if_pos hdev, mapped_inside hdev.1 (by omega), Nat.add_sub_cancel' hdev.1]
  rw [if_neg hdev, mapped_outside (by omega)]
  by_cases hkern : k ≤ p ∧ p < k + 0xE000
  · rw [if_pos hkern]
    by_cases hdata : k + data ≤ p
    · rw [mapped_inside hdata (by omega), decide_eq_true (.inr hdata),
        show data + (p - (k + data)) = p - k by omega]
    rw [mapped_outside (by omega)]
    by_cases htext : k + 0x100 ≤ p
    · rw [mapped_inside htext (by omega), decide_eq_false (by omega),
        show 0x100 + (p - (k + 0x100)) = p - k by omega]
    · rw [mapped_outside (by omega), mapped_inside hkern.1 (by omega),
        decide_eq_true (.inl (by omega)), Nat.zero_add]
  · rw [if_neg hkern, mapped_outside (by omega), mapped_outside (by omega),
      mapped_outside (by omega)]

theorem kvm_not_user {pte : Pte} (h : kvm data p = some pte) : pte.u = false := by
  rw [kvm] at h
  split at h
  · rw [← Option.some.inj h]
  · split at h
    · rw [← Option.some.inj h]
    · cases h

theorem kvm_user (hp : p < kernbase) : kvm data p = none := by
  rw [kernbase] at hp
  rw [kvm, if_neg (by omega), if_neg (by grind)]

theorem inituvm_kvm (mem : FlatMemory.Memory) (frame : Nat) (init : List Byte) :
    ∃ mem', Space.inituvm ⟨kvm data, mem⟩ frame init =
      some ⟨mapped (kvm data) 0 1 frame true true, mem'⟩ ∧
      ∀ pa, pa / 4096 ≠ frame → init.length ≤ 4096 → mem' pa = mem pa := by
  refine ⟨_, by rw [Space.inituvm, mappages_eq fun p _ hp => kvm_user (by grind)]; rfl,
    fun pa hpa hlength => ?_⟩
  exact (FlatMemory.within_writeBytes _ _ (by omega)).trans (FlatMemory.within_fill _ _ (by omega))

end Mappages

end Mit6828.Xv6.Vm
