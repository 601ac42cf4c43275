import Mit6828.Library.ByteMemory

namespace Mit6828.Lib.Memmove

open Library.ByteMemory

structure Machine where
  mem : Memory
  df : Bool

/-- `k` bytes at `s` are read and then written to `d`. -/
def copy (k : Nat) (m : Memory) (d s : BitVec 32) : Memory := fun a =>
  if InRange d k a then m (s + (a - d)) else m a

/-- `rep movsb` and `rep movsl`, for `k` of 1 and 4. -/
def repMovs (k : Nat) : Nat → Machine → BitVec 32 → BitVec 32 → Machine
  | 0, c, _, _ => c
  | n + 1, c, d, s =>
    let c' := { c with mem := copy k c.mem d s }
    if c.df then repMovs k n c' (d - BitVec.ofNat 32 k) (s - BitVec.ofNat 32 k)
    else repMovs k n c' (d + BitVec.ofNat 32 k) (s + BitVec.ofNat 32 k)

def memmoveAsm (c : Machine) (dst src n : BitVec 32) : Machine :=
  if src < dst ∧ dst < src + n then
    let s := src + n
    let d := dst + n
    let c := { c with df := true }
    let c := if s.srem 4 = 0 ∧ d.srem 4 = 0 ∧ n % 4 = 0 then
        repMovs 4 (n / 4).toNat c (d - 4) (s - 4)
      else repMovs 1 n.toNat c (d - 1) (s - 1)
    { c with df := false }
  else
    let c := { c with df := false }
    if src.srem 4 = 0 ∧ dst.srem 4 = 0 ∧ n % 4 = 0 then repMovs 4 (n / 4).toNat c dst src
    else repMovs 1 n.toNat c dst src

/-- `while (n-- > 0) *--d = *--s;` -/
def down : Nat → Memory → BitVec 32 → BitVec 32 → Memory
  | 0, m, _, _ => m
  | n + 1, m, d, s => down n (copy 1 m (d - 1) (s - 1)) (d - 1) (s - 1)

/-- `while (n-- > 0) *d++ = *s++;` -/
def up : Nat → Memory → BitVec 32 → BitVec 32 → Memory
  | 0, m, _, _ => m
  | n + 1, m, d, s => up n (copy 1 m d s) (d + 1) (s + 1)

def memmove (c : Machine) (dst src n : BitVec 32) : Machine :=
  if src < dst ∧ dst < src + n then { c with mem := down n.toNat c.mem (dst + n) (src + n) }
  else { c with mem := up n.toNat c.mem dst src }

section Copies

variable {m : Memory} {a d s : BitVec 32} {k i n : Nat}

theorem up_eq : up n m d s = (repMovs 1 n ⟨m, false⟩ d s).mem := by
  induction n generalizing m d s with
  | zero => rfl
  | succ n ih => exact ih

theorem down_eq : down n m d s = (repMovs 1 n ⟨m, true⟩ (d - 1) (s - 1)).mem := by
  induction n generalizing m d s with
  | zero => rfl
  | succ n ih => exact ih

theorem inRange_offset (hk : i + k ≤ 4294967296) :
    InRange (d + BitVec.ofNat 32 i) k a ↔ i ≤ (a - d).toNat ∧ (a - d).toNat < i + k := by
  rw [InRange, show a - (d + BitVec.ofNat 32 i) = a - d - BitVec.ofNat 32 i by grind]
  generalize a - d = x
  have hx := x.isLt
  rw [BitVec.toNat_sub, BitVec.toNat_ofNat]
  omega

theorem copy_offset (hk : i + k ≤ 4294967296) :
    copy k m (d + BitVec.ofNat 32 i) (s + BitVec.ofNat 32 i) a =
      if i ≤ (a - d).toNat ∧ (a - d).toNat < i + k then m (s + (a - d)) else m a := by
  rw [copy, if_congr (inRange_offset hk) rfl rfl]
  congr 2
  grind

/-- The bytes that are read have not been written. -/
theorem copy_after (hd : d.toNat + (i + k) ≤ 4294967296) (hs : s.toNat + (i + k) ≤ 4294967296)
    (h : d.toNat ≤ s.toNat ∨ s.toNat + (i + k) ≤ d.toNat) :
    copy k (copy i m d s) (d + BitVec.ofNat 32 i) (s + BitVec.ofNat 32 i) = copy (i + k) m d s := by
  funext a
  rw [copy_offset (by omega)]
  have hread : i ≤ (a - d).toNat ∧ (a - d).toNat < i + k → ¬ InRange d i (s + (a - d)) := by
    rw [inRange_iff]
    grind
  grind [copy, InRange]

theorem copy_before (hd : d.toNat + (k + i) ≤ 4294967296) (hs : s.toNat < d.toNat) :
    copy k (copy i m (d + BitVec.ofNat 32 k) (s + BitVec.ofNat 32 k)) d s = copy (k + i) m d s := by
  funext a
  rw [copy, copy_offset (by omega), copy_offset (by omega)]
  have hread : (a - d).toNat < k →
      ¬ (k ≤ (s + (a - d) - d).toNat ∧ (s + (a - d) - d).toNat < k + i) := by
    grind
  grind [copy, InRange]

theorem repMovs_up (hd : d.toNat + k * n ≤ 4294967296) (hs : s.toNat + k * n ≤ 4294967296)
    (h : d.toNat ≤ s.toNat ∨ s.toNat + k * n ≤ d.toNat) :
    repMovs k n ⟨m, false⟩ d s = ⟨copy (k * n) m d s, false⟩ := by
  induction n generalizing m d s with
  | zero => rfl
  | succ n ih =>
    rw [Nat.mul_succ, Nat.add_comm (k * n)] at hd hs h ⊢
    rw [← copy_after hd hs h]
    refine ih ?_ ?_ ?_ <;> simp only [BitVec.toNat_add, BitVec.toNat_ofNat] <;> omega

theorem repMovs_down (hd : d.toNat + k * n ≤ 4294967296) (hs : s < d) :
    repMovs k n ⟨m, true⟩ (d + BitVec.ofNat 32 (k * n) - BitVec.ofNat 32 k)
        (s + BitVec.ofNat 32 (k * n) - BitVec.ofNat 32 k) = ⟨copy (k * n) m d s, true⟩ := by
  induction n generalizing m with
  | zero => rfl
  | succ n ih =>
    rw [Nat.mul_succ] at hd ⊢
    rw [← copy_before hd hs, BitVec.ofNat_add, ← BitVec.add_assoc, ← BitVec.add_assoc,
      BitVec.add_sub_cancel, BitVec.add_sub_cancel]
    exact ih (by omega)

/-- The `n` bytes at `d` are those that were at `s`, and the others are unchanged. -/
def Moved (m m' : Memory) (d s : BitVec 32) (n : Nat) : Prop :=
  (∀ i < n, m' (d + BitVec.ofNat 32 i) = m (s + BitVec.ofNat 32 i)) ∧
    ∀ a, ¬ InRange d n a → m' a = m a

theorem moved_copy (hn : n ≤ 2 ^ 32) : Moved m (copy n m d s) d s n := by
  refine ⟨fun i hi => ?_, fun a ha => if_neg ha⟩
  rw [copy, if_pos (inRange_add hi hn), BitVec.add_comm d, BitVec.add_sub_cancel]

end Copies

theorem memmove_moves {dst src n : BitVec 32} (hdst : dst.toNat + n.toNat ≤ 2 ^ 32)
    (hsrc : src.toNat + n.toNat ≤ 2 ^ 32) (c : Machine) :
    (Moved c.mem (memmoveAsm c dst src n).mem dst src n.toNat ∧
    (memmoveAsm c dst src n).df = false) ∧
      Moved c.mem (memmove c dst src n).mem dst src n.toNat ∧ (memmove c dst src n).df = c.df := by
  have hcopied := moved_copy (m := c.mem) (d := dst) (s := src) (Nat.le_of_lt n.isLt)
  have hbytes := Nat.one_mul n.toNat
  have hwords (h : n % 4 = 0) : 4 * (n / 4).toNat = n.toNat :=
    Nat.mul_div_cancel' (Nat.dvd_of_mod_eq_zero (congrArg BitVec.toNat h))
  rw [memmoveAsm, memmove]
  by_cases hover : src < dst ∧ dst < src + n
  · have hdown {k j : Nat} (hj : k * j = n.toNat) :
        repMovs k j ⟨c.mem, true⟩ (dst + n - BitVec.ofNat 32 k) (src + n - BitVec.ofNat 32 k) =
          ⟨copy n.toNat c.mem dst src, true⟩ := by
      simpa [hj] using repMovs_down (m := c.mem) (k := k) (n := j) (hj ▸ hdst) hover.1
    have hone := hdown hbytes
    have hfour (h) := hdown (hwords h)
    grind [down_eq]
  · have hup {k j : Nat} (hj : k * j = n.toNat) :
        repMovs k j ⟨c.mem, false⟩ dst src = ⟨copy n.toNat c.mem dst src, false⟩ := by
      rw [BitVec.lt_def, BitVec.lt_def, BitVec.toNat_add] at hover
      rw [repMovs_up (by omega) (by omega) (by omega), hj]
    have hone := hup hbytes
    have hfour (h) := hup (hwords h)
    grind [up_eq]

theorem memmove_moves_overlapping :
    Moved (BitVec.setWidth 8) (memmoveAsm ⟨BitVec.setWidth 8, true⟩ 4100 4096 8).mem 4100 4096 8 ∧
      (memmoveAsm ⟨BitVec.setWidth 8, true⟩ 4100 4096 8).df = false :=
  (memmove_moves (by decide) (by decide) ⟨_, true⟩).1

end Mit6828.Lib.Memmove
