import Mit6828.Library.ByteMemory

namespace Mit6828.Lib.Printfmt

open Function Library.ByteMemory

structure Sprintbuf where
  buf : BitVec 32
  ebuf : BitVec 32
  cnt : BitVec 32

def sprintputch (s : Sprintbuf × Memory) (ch : BitVec 32) : Sprintbuf × Memory :=
  let b := { s.1 with cnt := s.1.cnt + 1 }
  if b.buf < b.ebuf then ({ b with buf := b.buf + 1 }, update s.2 b.buf (ch.setWidth 8))
    else (b, s.2)

def eInval : BitVec 32 := 3

def vsnprintf (buf n : BitVec 32) (out : List (BitVec 32)) (m : Memory) : BitVec 32 × Memory :=
  if buf = 0 ∨ n.toInt < 1 then (-eInval, m)
  else
    let s := out.foldl sprintputch (⟨buf, buf + n - 1, 0⟩, m)
    (s.1.cnt, update s.2 s.1.buf 0)

variable {buf n : BitVec 32} {m : Memory} {out : List (BitVec 32)}

theorem sprintputch_run {p e c : BitVec 32} (h : p ≤ e) :
    (out.foldl sprintputch (⟨p, e, c⟩, m)).1.cnt = c + BitVec.ofNat 32 out.length ∧
      update (out.foldl sprintputch (⟨p, e, c⟩, m)).2
        (out.foldl sprintputch (⟨p, e, c⟩, m)).1.buf 0 =
        write m p ((out.take (e - p).toNat).map (·.setWidth 8) ++ [0]) := by
  induction out generalizing p c m with
  | nil => simp [write]
  | cons ch out ih =>
    rw [List.foldl_cons, List.length_cons, Nat.add_comm, BitVec.ofNat_add, ← BitVec.add_assoc]
    by_cases hlt : p < e
    · have hroom : (e - p).toNat = (e - (p + 1)).toNat + 1 := by bv_omega
      rw [sprintputch, if_pos hlt, hroom]
      exact ih (by bv_omega)
    · obtain rfl : p = e := by bv_omega
      have hfull := ih (m := m) (c := c + 1) h
      rw [BitVec.sub_self] at hfull ⊢
      rw [sprintputch, if_neg hlt]
      exact hfull

/-- A buffer of `n` bytes gets the first `n - 1` characters and a NUL. -/
theorem vsnprintf_writes (hbuf : buf ≠ 0) (hn : 1 ≤ n.toInt) (hfits : buf.toNat + n.toNat ≤ 2 ^ 32)
    (hout : out.length < 2 ^ 31) :
    (vsnprintf buf n out m).1.toInt = out.length ∧ (vsnprintf buf n out m).2 =
      write m buf ((out.take (n.toNat - 1)).map (·.setWidth 8) ++ [0]) := by
  have hpos : 0 < n.toNat := by grind
  have hrun := @sprintputch_run m out buf (buf + n - 1) 0#32 (by bv_omega)
  rw [show (buf + n - 1 - buf).toNat = n.toNat - 1 by bv_omega, BitVec.zero_add] at hrun
  rw [vsnprintf, if_neg]
  · refine ⟨(congrArg BitVec.toInt hrun.1).trans ?_, hrun.2⟩
    rw [BitVec.toInt_ofNat']
    exact Int.bmod_eq_of_le (by omega) (by omega)
  · grind

theorem vsnprintf_writes_short : let m : Memory := fun _ => 0
    (vsnprintf 4096 3 [97, 98, 99] m).1.toInt = 3 ∧
      (vsnprintf 4096 3 [97, 98, 99] m).2 = write m 4096 [97, 98, 0] :=
  vsnprintf_writes (by decide) (by decide) (by decide) (by decide)

/-- `while (--width > 0) putch(padc, putdat);` -/
def pad (width padc : BitVec 32) : List (BitVec 32) :=
  if 0 < (width - 1).toInt then padc :: pad (width - 1) padc else []
termination_by width.toNat
decreasing_by grind

def code (c : Char) : BitVec 32 := BitVec.ofNat 32 c.toNat

/-- What `printnum` emits, or `none` if it calls itself more than `depth` deep. -/
def printnum : Nat → Nat → Nat → BitVec 32 → BitVec 32 → Option (List (BitVec 32))
  | 0, _, _, _, _ => none
  | depth + 1, num, base, width, padc => do
    let out ← if num ≥ base then printnum depth (num / base) base (width - 1) padc
      else some (pad width padc)
    let ch ← "0123456789abcdef".toList[num % base]?
    return out ++ [code ch]

section Printnum

variable {num base : Nat} {width padc : BitVec 32}

theorem toInt_sub_one (h : -2147483648 < width.toInt) : (width - 1).toInt = width.toInt - 1 := by
  have hlt := width.toInt_lt
  rw [BitVec.toInt_sub]
  exact Int.bmod_eq_of_le (by grind) (by grind)

theorem pad_eq (h : -2147483648 < width.toInt) :
    pad width padc = List.replicate (width.toInt - 1).toNat padc := by
  fun_induction pad width padc with
  | case1 width hpos ih =>
    have hsub := toInt_sub_one h
    rw [ih (by omega), ← List.replicate_succ, hsub]
    congr 1
    omega
  | case2 width hpos =>
    rw [toInt_sub_one h] at hpos
    rw [Int.toNat_of_nonpos (by omega), List.replicate_zero]

/-- The digits of `num`, with pad characters before them. -/
def numeral (num base : Nat) (width padc : BitVec 32) : List (BitVec 32) :=
  let digits := Nat.toDigits base num
  List.replicate (width.toInt - digits.length).toNat padc ++ digits.map code

theorem printnum_depth {depth : Nat} (hbase : 2 ≤ base) (hbase' : base ≤ 16)
    (hwidth : (Nat.toDigits base num).length - 2147483648 ≤ width.toInt) :
    printnum depth num base width padc =
      if (Nat.toDigits base num).length ≤ depth then some (numeral num base width padc)
      else none := by
  have hdigit : ∀ i < 16, "0123456789abcdef".toList[i]? = some (Nat.digitChar i) := by decide
  induction depth generalizing num width with
  | zero => rw [if_neg (Nat.not_le.mpr Nat.length_toDigits_pos), printnum]
  | succ depth ih =>
    have hlt : num % base < base := Nat.mod_lt num (by omega)
    rw [printnum, hdigit _ (by omega), numeral]
    by_cases hge : num ≥ base
    · rw [Nat.toDigits_of_base_le hbase hge, List.length_append, List.length_singleton] at hwidth ⊢
      have hsub := @toInt_sub_one width (by omega)
      rw [if_pos hge, ih (by omega), numeral, hsub]
      grind
    · rw [Nat.toDigits_of_lt_base (by omega)] at hwidth ⊢
      rw [if_neg hge, pad_eq (by grind), Nat.mod_eq_of_lt (by omega)]
      simp

/-- `printnum` returns at a depth of as many calls as there are digits. -/
theorem printnum_pads (hnum : num < 2 ^ 64) (hbase : 2 ≤ base) (hbase' : base ≤ 16)
    (hwidth : -1073741824 ≤ width.toInt) (depth : Nat) :
    (Nat.toDigits base num).length ≤ 64 ∧ printnum depth num base width padc =
      if (Nat.toDigits base num).length ≤ depth then some (numeral num base width padc)
      else none := by
  have hlength : (Nat.toDigits base num).length ≤ 64 :=
    (Nat.length_toDigits_le_iff hbase (by decide)).mpr
      (Nat.lt_of_lt_of_le hnum (Nat.pow_le_pow_left hbase 64))
  exact ⟨hlength, printnum_depth hbase hbase' (by omega)⟩

end Printnum

theorem printnum_pads_hex : printnum 2 255 16 4 32 = some [32, 32, 102, 102] :=
  (printnum_pads (by decide) (by decide) (by decide) (by decide) 2).2

end Mit6828.Lib.Printfmt
