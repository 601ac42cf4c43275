import Mit6828.Library.Ring

namespace Mit6828.Kern.Console

open Library.Ring Function

abbrev Byte := BitVec 8

structure Cons where
  buf : Nat → Byte
  rpos : Nat
  wpos : Nat

def consbufsize : Nat := 512

def next (pos : Nat) : Nat := if pos + 1 = consbufsize then 0 else pos + 1

/-- `cons_intr`, where the device delivers `cs` and then `-1`. -/
def consIntr (cs : List Byte) (s : Cons) : Cons :=
  cs.foldl (fun s c => if c = 0 then s
    else { s with buf := update s.buf s.wpos c, wpos := next s.wpos }) s

/-- `cons_getc`, where `serial_intr` and `kbd_intr` deliver `cs` between them. -/
def consGetc (cs : List Byte) (s : Cons) : Byte × Cons :=
  let s := consIntr cs s
  if s.rpos ≠ s.wpos then (s.buf s.rpos, { s with rpos := next s.rpos }) else (0, s)

def chars (cs : List Byte) : List Byte := cs.filter (· ≠ 0)

/-- The characters `items` have been delivered and the first `r` of them returned, with never
more than `n` unread. -/
inductive Run (n : Nat) : Cons → List Byte → Nat → Prop
  | boot : Run n ⟨fun _ => 0, 0, 0⟩ [] 0
  | intr {s : Cons} {items : List Byte} {r : Nat} (cs : List Byte) (h : Run n s items r)
      (hroom : (items ++ chars cs).length ≤ r + n) : Run n (consIntr cs s) (items ++ chars cs) r
  | getc {s : Cons} {items : List Byte} {r : Nat} (cs : List Byte) (h : Run n s items r)
      (hroom : (items ++ chars cs).length ≤ r + n) :
      Run n (consGetc cs s).2 (items ++ chars cs) (min (r + 1) (items ++ chars cs).length)

variable {s : Cons} {items cs : List Byte} {r : Nat}

structure Stores (s : Cons) (items : List Byte) (r : Nat) : Prop where
  holds : Holds consbufsize s.buf items r
  le : r ≤ items.length
  rpos : s.rpos = r % consbufsize
  wpos : s.wpos = items.length % consbufsize

theorem next_mod (i : Nat) : next (i % consbufsize) = (i + 1) % consbufsize := by
  rw [next, consbufsize]
  split <;> omega

theorem Stores.intr (h : Stores s items r) (hroom : (items ++ chars cs).length ≤ r + consbufsize) :
    Stores (consIntr cs s) (items ++ chars cs) r := by
  induction cs generalizing s items with
  | nil => simpa [chars, consIntr] using h
  | cons c cs ih =>
    rw [consIntr, List.foldl_cons]
    by_cases hc : c = 0
    · subst hc
      exact ih h hroom
    have hchars : chars (c :: cs) = c :: chars cs := List.filter_cons_of_pos (by simpa using hc)
    rw [hchars, List.append_cons] at hroom ⊢
    have hlength : (items ++ [c]).length = items.length + 1 := List.length_append
    rw [List.length_append] at hroom
    rw [if_neg hc]
    refine ih ⟨?_, by have := h.le; omega, h.rpos, ?_⟩ (by rwa [List.length_append])
    · rw [h.wpos]
      exact h.holds.put (by omega) c
    · rw [hlength, ← next_mod, ← h.wpos]

/-- With less than `CONSBUFSIZE` characters unread, equal positions mean that there is none. -/
theorem Stores.getc (h : Stores s items r) (hroom : (items ++ chars cs).length < r + consbufsize) :
    (consGetc cs s).1 = (items ++ chars cs)[r]?.getD 0 ∧
      Stores (consGetc cs s).2 (items ++ chars cs) (min (r + 1) (items ++ chars cs).length) := by
  have hpoll := h.intr (Nat.le_of_lt hroom)
  rw [consGetc]
  generalize items ++ chars cs = items, consIntr cs s = s at *
  have hle := hpoll.le
  have hpos : s.rpos ≠ s.wpos ↔ r < items.length := by
    rw [hpoll.rpos, hpoll.wpos]
    rw [consbufsize] at *
    omega
  by_cases hlt : r < items.length
  · rw [if_pos (hpos.mpr hlt), Nat.min_eq_left hlt, hpoll.holds.held r le_rfl hlt, ← hpoll.rpos]
    exact ⟨rfl, hpoll.holds.advance (Nat.le_succ r), hlt,
      (congrArg next hpoll.rpos).trans (next_mod r), hpoll.wpos⟩
  · rw [if_neg (hpos.not.mpr hlt), Nat.min_eq_right (by omega), List.getElem?_eq_none (by omega)]
    exact ⟨rfl, Nat.le_antisymm hle (by omega) ▸ hpoll⟩

/-- While less than `CONSBUFSIZE` characters are unread, `cons_getc` returns the next of them, and
0 only if there is none. -/
theorem console_fifo (h : Run (consbufsize - 1) s items r) (cs : List Byte)
    (hroom : (items ++ chars cs).length < r + consbufsize) :
    (consGetc cs s).1 = (items ++ chars cs)[r]?.getD 0 := by
  have hrun : Stores s items r := by
    clear hroom
    induction h with
    | boot => exact ⟨⟨Nat.zero_le _, fun i _ hi => absurd hi (Nat.not_lt_zero i)⟩, le_rfl, rfl, rfl⟩
    | intr cs _ hroom ih => exact ih.intr (Nat.le_trans hroom (by omega))
    | getc cs _ hroom ih => exact (ih.getc (Nat.lt_of_le_of_lt hroom (by simp [consbufsize]))).2
  exact (hrun.getc hroom).1

theorem console_fifo_second : (consGetc [] (consGetc [97, 98] ⟨fun _ => 0, 0, 0⟩).2).1 = 98 :=
  console_fifo (.getc [97, 98] .boot (by decide)) [] (by decide)

/-- When the buffer is full, its characters are not returned. -/
theorem full_buffer_reads_empty :
    ∃ s items, Run consbufsize s items 0 ∧ items.length = consbufsize ∧
    (consGetc [] s).1 = 0 :=
  ⟨_, _, .intr (List.replicate consbufsize 97) .boot (by decide +kernel), by decide +kernel,
    by decide +kernel⟩

end Mit6828.Kern.Console
