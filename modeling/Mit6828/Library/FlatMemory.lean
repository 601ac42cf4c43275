import Mit6828.Library.ByteMemory

namespace Mit6828.Library.FlatMemory

abbrev Memory := Nat → BitVec 8

variable {m m' : Memory} {a b n x dst src : Nat} {w : BitVec 32} {c : BitVec 8}
  {ws : List (BitVec 32)}

def readWord (m : Memory) (a : Nat) : BitVec 32 := (m (a + 3) ++ m (a + 2)) ++ (m (a + 1) ++ m a)

def writeWord (m : Memory) (a : Nat) (w : BitVec 32) : Memory :=
  fun x => if a ≤ x ∧ x < a + 4 then ByteMemory.byte w (x - a) else m x

def copy (m : Memory) (dst src n : Nat) : Memory :=
  fun x => if dst ≤ x ∧ x < dst + n then m (src + (x - dst)) else m x

def fill (m : Memory) (a n : Nat) (c : BitVec 8) : Memory :=
  fun x => if a ≤ x ∧ x < a + n then c else m x

def writeBytes (m : Memory) (a : Nat) (bs : List (BitVec 8)) : Memory :=
  fun x => if a ≤ x ∧ x < a + bs.length then bs.getD (x - a) 0 else m x

def writeWords (m : Memory) (a : Nat) (ws : List (BitVec 32)) : Memory :=
  fun x => if a ≤ x ∧ x < a + 4 * ws.length then ByteMemory.byte (ws.getD ((x - a) / 4) 0)
    ((x - a) % 4)
    else m x

def Within (a n : Nat) (g : Memory → Memory) : Prop :=
  ∀ m x, ¬ (a ≤ x ∧ x < a + n) → g m x = m x

theorem within_writeWord : Within a 4 fun m => writeWord m a w := fun _ _ hx => if_neg hx

theorem within_copy : Within dst n fun m => copy m dst src n := fun _ _ hx => if_neg hx

theorem within_fill : Within a n fun m => fill m a n c := fun _ _ hx => if_neg hx

theorem within_writeBytes {bs : List (BitVec 8)} :
    Within a bs.length fun m => writeBytes m a bs := fun _ _ hx => if_neg hx

theorem within_writeWords :
    Within a (4 * ws.length) fun m => writeWords m a ws := fun _ _ hx => if_neg hx

theorem fill_zero : fill m a 0 c = m := by
  funext x
  exact if_neg (by omega)

theorem fill_fill (k : Nat) : fill (fill m a n c) (a + n) k c = fill m a (n + k) c := by
  funext x
  rw [fill, fill, fill]
  by_cases hlast : a + n ≤ x ∧ x < a + n + k
  · rw [if_pos hlast, if_pos (by omega)]
  · rw [if_neg hlast]
    by_cases hfirst : a ≤ x ∧ x < a + n
    · rw [if_pos hfirst, if_pos (by omega)]
    · rw [if_neg hfirst, if_neg (by omega)]

theorem readWord_congr (h : ∀ x, a ≤ x → x < a + 4 → m' x = m x) :
    readWord m' a = readWord m a := by
  rw [readWord, readWord, h a (by omega) (by omega), h (a + 1) (by omega) (by omega),
    h (a + 2) (by omega) (by omega), h (a + 3) (by omega) (by omega)]

theorem Within.readWord_eq {g : Memory → Memory} (hg : Within b n g) (h : a + 4 ≤ b ∨ b + n ≤ a)
    (m : Memory) : readWord (g m) a = readWord m a :=
  readWord_congr fun x hlo hhi => hg m x (by omega)

@[simp] theorem readWord_writeWord_self : readWord (writeWord m a w) a = w := by
  have hat : ∀ i < 4, writeWord m a w (a + i) = ByteMemory.byte w i := by
    intro i hi
    rw [writeWord, if_pos (by omega), Nat.add_sub_cancel_left]
  have h0 := hat 0 (by omega)
  rw [Nat.add_zero] at h0
  rw [readWord, hat 1 (by omega), hat 2 (by omega), hat 3 (by omega), h0]
  exact ByteMemory.append_byte w

theorem readWord_writeWords {j : Nat} (hj : j < ws.length) :
    readWord (writeWords m a ws) (a + 4 * j) = ws.get ⟨j, hj⟩ := by
  have hat : ∀ i < 4, writeWords m a ws (a + 4 * j + i) = ByteMemory.byte (ws.get ⟨j, hj⟩) i := by
    intro i hi
    rw [writeWords, if_pos (by omega), show (a + 4 * j + i - a) / 4 = j by omega,
      show (a + 4 * j + i - a) % 4 = i by omega, List.getD_eq_getElem _ _ hj, List.get_eq_getElem]
  have h0 := hat 0 (by omega)
  rw [Nat.add_zero] at h0
  rw [readWord, hat 1 (by omega), hat 2 (by omega), hat 3 (by omega), h0]
  exact ByteMemory.append_byte _

theorem writeWord_outside (hx : ¬ (a ≤ x ∧ x < a + 4)) : writeWord m a w x = m x := if_neg hx

theorem readWord_writeWord_of_ne (h : a + 4 ≤ b ∨ b + 4 ≤ a) :
    readWord (writeWord m a w) b = readWord m b :=
  within_writeWord.readWord_eq h.symm m

theorem readWord_eq_zero (h : ∀ x, a ≤ x → x < a + 4 → m x = 0) : readWord m a = 0 := by
  rw [readWord, h a (by omega) (by omega), h (a + 1) (by omega) (by omega),
    h (a + 2) (by omega) (by omega), h (a + 3) (by omega) (by omega)]
  rfl

end Mit6828.Library.FlatMemory
