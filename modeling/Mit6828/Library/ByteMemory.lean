import Mathlib.Algebra.Group.Nat.Defs
import Mathlib.Data.List.GetD
import Mathlib.Tactic.Common

namespace Mit6828.Library.ByteMemory

open Function

abbrev Memory := BitVec 32 → BitVec 8

variable {m : Memory} {a b x : BitVec 32} {n i k : Nat} {w : BitVec 32} {bs : List (BitVec 8)}

def InRange (a : BitVec 32) (n : Nat) (x : BitVec 32) : Prop := (x - a).toNat < n
deriving Decidable

theorem inRange_iff : InRange a n x ↔
    (a.toNat ≤ x.toNat ∧ x.toNat - a.toNat < n) ∨
      (x.toNat < a.toNat ∧ 4294967296 + x.toNat - a.toNat < n) := by
  have hx := x.isLt
  have ha := a.isLt
  rw [InRange, BitVec.toNat_sub]
  omega

theorem inRange_add (hi : i < n) (hn : n ≤ 2 ^ 32) : InRange a n (a + BitVec.ofNat 32 i) := by
  rw [InRange, BitVec.add_comm, BitVec.add_sub_cancel, BitVec.toNat_ofNat]
  omega

theorem InRange.of_offset {l : Nat} (h : InRange (a + BitVec.ofNat 32 k) n x) (hl : k + n ≤ l) :
    InRange a l x := by
  have hsum : x - a = (x - (a + BitVec.ofNat 32 k)) + BitVec.ofNat 32 k := by
    rw [BitVec.sub_eq_add_neg, BitVec.sub_eq_add_neg, BitVec.neg_add, BitVec.sub_eq_add_neg,
      BitVec.add_assoc, BitVec.add_assoc, BitVec.add_left_neg, BitVec.add_zero]
  have hle : (x - a).toNat ≤ (x - (a + BitVec.ofNat 32 k)).toNat + k := by
    rw [hsum, BitVec.toNat_add]
    refine Nat.le_trans (Nat.mod_le _ _) (Nat.add_le_add_left ?_ _)
    rw [BitVec.toNat_ofNat]
    exact Nat.mod_le _ _
  have hlt : (x - (a + BitVec.ofNat 32 k)).toNat < n := h
  exact Nat.lt_of_le_of_lt hle (by omega)

def write (m : Memory) (a : BitVec 32) : List (BitVec 8) → Memory
  | [] => m
  | b :: bs => write (update m a b) (a + 1) bs

theorem write_apply (hlen : bs.length ≤ 2 ^ 32) (m : Memory) (a x : BitVec 32) :
    write m a bs x = bs.getD (x - a).toNat (m x) := by
  induction bs generalizing m a with
  | nil => rfl
  | cons b bs ih =>
    rw [List.length_cons] at hlen
    rw [write, ih (by omega)]
    by_cases hx : x = a
    · subst hx
      have hlast : (x - (x + 1)).toNat = 2 ^ 32 - 1 := by
        have hlt := x.isLt
        grind
      rw [hlast, List.getD_eq_default _ _ (by omega), update_self, BitVec.sub_self]
      rfl
    · have hpos : (x - a).toNat = (x - (a + 1)).toNat + 1 := by
        have hne : x.toNat ≠ a.toNat := fun h => hx (BitVec.eq_of_toNat_eq h)
        have hxlt := x.isLt
        have halt := a.isLt
        rw [BitVec.toNat_sub, BitVec.toNat_sub, BitVec.toNat_add,
          show (1 : BitVec 32).toNat = 1 from rfl]
        omega
      rw [update_of_ne hx, hpos, List.getD_cons_succ]

theorem write_outside (hlen : bs.length ≤ 2 ^ 32) (hx : ¬ InRange a bs.length x) :
    write m a bs x = m x := by
  rw [write_apply hlen, List.getD_eq_default]
  exact Nat.not_lt.mp hx

theorem write_inside (hlen : bs.length ≤ 2 ^ 32) (hi : i < bs.length) :
    write m a bs (a + BitVec.ofNat 32 i) = bs.get ⟨i, hi⟩ := by
  have hsub : (a + BitVec.ofNat 32 i - a).toNat = i := by
    rw [BitVec.add_comm, BitVec.add_sub_cancel, BitVec.toNat_ofNat]
    omega
  rw [write_apply hlen, hsub, List.getD_eq_getElem _ _ hi, List.get_eq_getElem]

def byte (w : BitVec 32) (i : Nat) : BitVec 8 := BitVec.setWidth 8 (w >>> (8 * i))

def bytes (w : BitVec 32) : List (BitVec 8) := (List.range 4).map (byte w)

def readWord (m : Memory) (a : BitVec 32) : BitVec 32 :=
  (m (a + 3) ++ m (a + 2)) ++ (m (a + 1) ++ m a)

def writeWord (m : Memory) (a : BitVec 32) (w : BitVec 32) : Memory := write m a (bytes w)

theorem append_byte (w : BitVec 32) :
    ((byte w 3 ++ byte w 2) ++ (byte w 1 ++ byte w 0) : BitVec 32) = w := by
  apply BitVec.eq_of_getLsbD_eq
  intro i hi
  simp only [byte, BitVec.getLsbD_append, BitVec.getLsbD_setWidth, BitVec.getLsbD_ushiftRight]
  by_cases h16 : i < 16
  · by_cases h8 : i < 8
    · simp [h16, h8]
    · have h8' : i - 8 < 8 := by omega
      have heq : 8 * 1 + (i - 8) = i := by omega
      simp [h16, h8, h8', heq]
  · by_cases h24 : i - 16 < 8
    · have heq : 8 * 2 + (i - 16) = i := by omega
      simp [h16, h24, heq]
    · have h32 : i - 16 - 8 < 8 := by omega
      have heq : 8 * 3 + (i - 16 - 8) = i := by omega
      simp [h16, h24, h32, heq]

theorem readWord_congr {m' : Memory} (h : ∀ x, InRange a 4 x → m' x = m x) :
    readWord m' a = readWord m a := by
  have hat : ∀ i : Nat, i < 4 → m' (a + BitVec.ofNat 32 i) = m (a + BitVec.ofNat 32 i) :=
    fun i hi =>
    h _ (inRange_add hi (by omega))
  have h0 := hat 0 (by omega)
  rw [BitVec.add_zero] at h0
  rw [readWord, readWord, h0]
  exact congrArg₂ _ (congrArg₂ _ (hat 3 (by omega)) (hat 2 (by omega)))
    (congrArg₂ _ (hat 1 (by omega)) rfl)

theorem readWord_of_bytes (h : ∀ i < 4, m (a + BitVec.ofNat 32 i) = byte w i) :
    readWord m a = w := by
  have h0 := h 0 (by omega)
  rw [BitVec.add_zero] at h0
  refine Eq.trans ?_ (append_byte w)
  rw [readWord, h0]
  exact congrArg₂ _ (congrArg₂ _ (h 3 (by omega)) (h 2 (by omega)))
    (congrArg₂ _ (h 1 (by omega)) rfl)

theorem toNat_readWord (m : Memory) (a : BitVec 32) : (readWord m a).toNat =
    (m (a + 3)).toNat * 16777216 + (m (a + 2)).toNat * 65536 + (m (a + 1)).toNat * 256 +
      (m a).toNat := by
  have happend : ∀ (n k : Nat) (x : BitVec n) (y : BitVec k),
      (x ++ y).toNat = x.toNat * 2 ^ k + y.toNat := by
    intro n k x y
    rw [BitVec.toNat_append, ← Nat.shiftLeft_add_eq_or_of_lt y.isLt, Nat.shiftLeft_eq]
  have hword := happend 16 16 (m (a + 3) ++ m (a + 2)) (m (a + 1) ++ m a)
  rw [happend 8 8, happend 8 8] at hword
  refine hword.trans ?_
  omega

theorem byte_readWord (m : Memory) (a : BitVec 32) {j : Nat} (hj : j < 4) :
    byte (readWord m a) j = m (a + BitVec.ofNat 32 j) := by
  apply BitVec.eq_of_toNat_eq
  have h := toNat_readWord m a
  have hcases : j = 0 ∨ j = 1 ∨ j = 2 ∨ j = 3 := by omega
  rw [byte, BitVec.toNat_setWidth, BitVec.toNat_ushiftRight, Nat.shiftRight_eq_div_pow, h]
  rcases hcases with rfl | rfl | rfl | rfl
  · rw [BitVec.add_zero]
    omega
  · change _ = (m (a + 1)).toNat
    omega
  · change _ = (m (a + 2)).toNat
    omega
  · change _ = (m (a + 3)).toNat
    omega

theorem length_bytes (w : BitVec 32) : (bytes w).length = 4 := by
  simp [bytes]

theorem readWord_writeWord (m : Memory) (a w : BitVec 32) : readWord (writeWord m a w) a = w := by
  apply readWord_of_bytes
  intro i hi
  rw [writeWord, write_inside (by rw [length_bytes]; omega) (by rw [length_bytes]; exact hi)]
  simp [bytes]

theorem writeWord_outside (hx : ¬ InRange a 4 x) : writeWord m a w x = m x := by
  apply write_outside
  · rw [length_bytes]
    omega
  · rw [length_bytes]
    exact hx

theorem length_flatMap_bytes (ws : List (BitVec 32)) :
    (ws.flatMap bytes).length = 4 * ws.length := by
  induction ws with
  | nil => rfl
  | cons w ws ih =>
    rw [List.flatMap_cons, List.length_append, ih, length_bytes, List.length_cons]
    omega

theorem getElem?_flatMap_bytes (ws : List (BitVec 32)) (hi : i < 4)
    (hk : ws[k]? = some w) : (ws.flatMap bytes)[4 * k + i]? = some (byte w i) := by
  induction ws generalizing k with
  | nil => cases hk
  | cons v ws ih =>
    rw [List.flatMap_cons]
    cases k with
    | zero =>
      rw [List.getElem?_append_left (by rw [length_bytes]; omega)]
      cases hk
      simp [bytes, hi]
    | succ k =>
      rw [List.getElem?_append_right (by rw [length_bytes]; omega), length_bytes,
        show 4 * (k + 1) + i - 4 = 4 * k + i by omega]
      exact ih hk

theorem readWord_write_words {ws : List (BitVec 32)} (hlen : 4 * ws.length ≤ 2 ^ 32)
    (hk : ws[k]? = some w) :
    readWord (write m a (ws.flatMap bytes)) (a + BitVec.ofNat 32 (4 * k)) = w := by
  apply readWord_of_bytes
  intro i hi
  have hget := getElem?_flatMap_bytes ws hi hk
  obtain ⟨hlt, heq⟩ := List.getElem?_eq_some_iff.mp hget
  rw [BitVec.add_assoc, ← BitVec.ofNat_add,
    write_inside (by rw [length_flatMap_bytes]; exact hlen) hlt, List.get_eq_getElem, heq]

end Mit6828.Library.ByteMemory
