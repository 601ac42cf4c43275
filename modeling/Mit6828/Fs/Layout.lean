import Mit6828.Fs.BlockCacheSpec
import Mit6828.Fs.FileSystem

namespace Mit6828.Fs

open Kern.Mmu Library.FlatMemory

variable {m : Memory} {P : Nat → Prop} {ok : Prop} {f i x : Nat} {b w : Word}

/-- The number of the `i`-th block of file `f`, 0 if it has none. -/
def blockNo (m : Memory) (f i : Nat) : Word :=
  if i < ndirect then readWord m (fDirect f i)
  else if readWord m (fIndirect f) = 0 then 0
  else readWord m (blockVa (readWord m (fIndirect f)) + 4 * (i - ndirect))

/-- The address of the slot with the number of the `i`-th block. -/
def slotVa (m : Memory) (f i : Nat) : Nat :=
  if i < ndirect then fDirect f i
  else blockAddr (readWord m (fIndirect f)).toNat + 4 * (i - ndirect)

def Live (m : Memory) (x : Nat) : Prop := InMap x ∧ Used m (blockOf x)

theorem Live.acc (h : Live m x) : Acc P m x := .inr h

structure BlockOk (m : Memory) (b : Word) : Prop where
  ne : b ≠ 0
  used : Used m b.toNat

theorem blockOf_eq {n : Nat} (hlo : blockAddr n ≤ x) (hhi : x < blockAddr n + blksize) :
    blockOf x = n := by
  grind

theorem blockAddr_le {a b : Nat} (h : a ≤ b) : blockAddr a ≤ blockAddr b := by
  have := Nat.mul_le_mul_right blksize h
  grind

theorem BlockOk.live (h : BlockOk m b) (hsane : Sane m) (hlo : blockAddr b.toNat ≤ x)
    (hhi : x < blockAddr b.toNat + blksize) : Live m x := by
  have hlt := h.used.lt
  have hfits := hsane.fits
  refine ⟨?_, ?_⟩
  · grind
  · rw [blockOf_eq hlo hhi]
    exact h.used

theorem BlockOk.blockVa_eq (h : BlockOk m b) (hsane : Sane m) : blockVa b = blockAddr b.toNat :=
  Fs.blockVa_eq (Nat.lt_of_lt_of_le h.used.lt hsane.fits)

def Header (m : Memory) (f : Nat) : Prop := ∀ x, f ≤ x → x < f + sizeofFile → Live m x

structure HasSlot (m : Memory) (f i : Nat) : Prop where
  lt : i < ndirect + nindirect
  indirect : ndirect ≤ i → BlockOk m (readWord m (fIndirect f))

theorem HasSlot.blockNo_eq (h : HasSlot m f i) (hsane : Sane m) :
    blockNo m f i = readWord m (slotVa m f i) := by
  rw [blockNo, slotVa]
  split
  · rfl
  · rename_i hge
    have hind := h.indirect (Nat.not_lt.mp hge)
    rw [if_neg hind.ne, hind.blockVa_eq hsane]

theorem HasSlot.live (h : HasSlot m f i) (hsane : Sane m) (hf : Header m f)
    (hlo : slotVa m f i ≤ x) (hhi : x < slotVa m f i + 4) : Live m x := by
  rw [slotVa] at hlo hhi
  split at hlo
  · rename_i hlt
    rw [if_pos hlt] at hhi
    simp only [fDirect, ndirect] at hlo hhi hlt
    exact hf x (by omega) (by grind)
  rename_i hge
  rw [if_neg hge] at hhi
  have hlt := h.lt
  refine (h.indirect (Nat.not_lt.mp hge)).live hsane (by omega) ?_
  grind

structure HasBlock (m : Memory) (f i : Nat) : Prop where
  slot : HasSlot m f i
  block : BlockOk m (blockNo m f i)

section Rules

theorem does_loadField {Q : Except Word Word → Memory → Prop} {a : Nat} (hsane : Sane m)
    (hf : Header m f) (hlo : f ≤ a) (hhi : a + 4 ≤ f + sizeofFile) (h : Q (.ok (readWord m a)) m) :
    Does P ok (load a) m Q :=
  does_load hsane (fun x hxlo hxhi => (hf x (by omega) (by omega)).acc) h

variable {Q : Except Word Nat → Memory → Prop} {alloc : Bool}

theorem does_fileBlockWalk (hsane : Sane m) (hf : Header m f) (hslot : HasSlot m f w.toNat)
    (h : Q (.ok (slotVa m f w.toNat)) m) : Does P ok (fileBlockWalk f w alloc) m Q := by
  rw [fileBlockWalk]
  split
  · rename_i hlt
    rw [slotVa, if_pos hlt] at h
    exact .pure h
  rename_i hge
  have hind := hslot.indirect (Nat.not_lt.mp hge)
  have hload {R : Except Word Word → Memory → Prop} (hR : R (.ok (readWord m (fIndirect f))) m) :
      Does P ok (load (fIndirect f)) m R :=
    does_loadField hsane hf (by grind)
      (by grind) hR
  rw [slotVa, if_neg hge] at h
  rw [if_neg (Nat.not_le.mpr hslot.lt)]
  refine .bind (hload (.bind ?_))
  rw [if_pos hind.ne]
  exact .pure (.bind (hload (.bind (does_diskaddr hsane hind.ne hind.used.lt (.pure h)))))

theorem does_fileGetBlock (hsane : Sane m) (hf : Header m f) (hb : HasBlock m f w.toNat)
    (h : Q (.ok (blockAddr (blockNo m f w.toNat).toNat)) m) : Does P ok (fileGetBlock f w) m Q := by
  have hload {R : Except Word Word → Memory → Prop} (hR : R (.ok (blockNo m f w.toNat)) m) :
      Does P ok (load (slotVa m f w.toNat)) m R := by
    rw [hb.slot.blockNo_eq hsane] at hR
    exact does_load hsane (fun x hlo hhi => (hb.slot.live hsane hf hlo hhi).acc) hR
  refine .bind (does_fileBlockWalk hsane hf hb.slot (.bind (.bind (hload ?_))))
  dsimp only
  rw [if_pos hb.block.ne]
  exact .pure (.bind (hload (does_diskaddr hsane hb.block.ne hb.block.used.lt h)))

end Rules

end Mit6828.Fs
