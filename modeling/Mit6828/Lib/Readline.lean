import Mathlib.Data.List.Induction
import Mathlib.Data.List.TakeWhile

namespace Mit6828.Lib.Readline

abbrev Byte := BitVec 8

def buflen : Nat := 1024

def store (buf : List Byte) (i : Nat) (c : Byte) : Option (List Byte) :=
  if i < buf.length then some (buf.set i c) else none

/-- The loop, with the values of `getchar`, of which the negative ones are `none`.  It returns
`some none` for `NULL`, and `none` if it waits for ever or leaves the buffer. -/
def readline (buf : List Byte) (i : Nat) : List (Option Byte) → Option (Option (List Byte))
  | [] => none
  | none :: _ => some none
  | some c :: cs =>
    if (c = 8 ∨ c = 0x7F) ∧ 0 < i then readline buf (i - 1) cs
    else if 32 ≤ c ∧ i < buflen - 1 then
      (store buf i c).bind fun buf => readline buf (i + 1) cs
    else if c = 10 ∨ c = 13 then (store buf i 0).map some
    else readline buf i cs

/-- The string at `buf`. -/
def cstr (buf : List Byte) : List Byte := buf.takeWhile (· ≠ 0)

/-- What a character is meant to do to the line. -/
def edit (line : List Byte) (c : Byte) : List Byte :=
  if c = 8 ∨ c = 0x7F then line.dropLast
  else if 32 ≤ c ∧ line.length < buflen - 1 then line ++ [c] else line

/-- What it does: in an empty line, DEL is taken for a character. -/
def put (line : List Byte) (c : Byte) : List Byte :=
  if (c = 8 ∨ c = 0x7F) ∧ 0 < line.length then line.dropLast
  else if 32 ≤ c ∧ line.length < buflen - 1 then line ++ [c] else line

variable {buf line line' cs : List Byte} {i : Nat} {c e : Byte}

theorem cstr_set (hi : i < buf.length) (hline : ∀ c ∈ buf.take i, c ≠ 0) :
    cstr (buf.set i 0) = buf.take i := by
  rw [cstr, List.set_eq_take_append_cons_drop, if_pos hi,
    List.takeWhile_append_of_pos (by simpa using hline)]
  simp

theorem readline_put (hbuf : buf.length = buflen) (hi : i < buflen)
    (hline : ∀ c ∈ buf.take i, c ≠ 0) (hcs : ∀ c ∈ cs, c ≠ 10 ∧ c ≠ 13) (he : e = 10 ∨ e = 13) :
    ∃ buf', readline buf i (cs.map some ++ [some e]) = some (some buf') ∧
      cstr buf' = cs.foldl put (buf.take i) := by
  induction cs generalizing buf i with
  | nil =>
    refine ⟨buf.set i 0, ?_, cstr_set (by omega) hline⟩
    rcases he with rfl | rfl <;> simp [readline, store, hbuf, hi]
  | cons c cs ih =>
    obtain ⟨hc, hcs⟩ := List.forall_mem_cons.mp hcs
    have hlength : (buf.take i).length = i := by grind
    rw [List.map_cons, List.cons_append, readline, List.foldl_cons, put, hlength]
    split
    · rw [List.dropLast_take (by grind)]
      exact ih hbuf (by omega)
        (fun c hc => hline c (List.take_subset_take_left buf (Nat.sub_le i 1) hc)) hcs
    split
    · rw [store, if_pos (by omega), Option.bind_some]
      have htake : (buf.set i c).take (i + 1) = buf.take i ++ [c] := by
        rw [List.take_add_one, List.take_set_of_le (Nat.le_refl i),
          List.getElem?_set_self (by omega)]
        rfl
      rw [← htake]
      refine ih (by simpa using hbuf) (by grind) (fun x hx => ?_) hcs
      rw [htake] at hx
      grind
    · rw [if_neg (by grind)]
      exact ih hbuf hi hline hcs

theorem readline_length {buf' : List Byte} {cs : List (Option Byte)}
    (h : readline buf i cs = some (some buf')) : (cstr buf').length < buf.length := by
  fun_induction readline buf i cs with
  | case1 => cases h
  | case2 => cases h
  | case3 buf i c cs hdel ih => exact ih h
  | case4 buf i c cs hdel hput ih =>
    obtain ⟨_, hstore, h⟩ := Option.bind_eq_some_iff.mp h
    obtain ⟨_, ⟨⟩⟩ := Option.ite_none_right_eq_some.mp hstore
    simpa using ih _ h
  | case5 buf i c cs hdel hput hend =>
    obtain ⟨_, hstore, ⟨⟩⟩ := Option.map_eq_some_iff.mp h
    obtain ⟨hi, ⟨⟩⟩ := Option.ite_none_right_eq_some.mp hstore
    have hprefix : cstr (buf.set i 0) <+: buf.set i 0 := List.takeWhile_prefix _
    refine Nat.lt_of_le_of_ne (by simpa using hprefix.length_le) fun heq => ?_
    have hall := hprefix.eq_of_length (by simpa using heq)
    simpa using List.takeWhile_eq_self_iff.mp hall 0 (List.mem_set hi 0)
  | case6 buf i c cs hdel hput hend ih => exact ih h

/-- The line is the one that is meant, or it starts with a DEL. -/
def Tracks (line line' : List Byte) : Prop :=
  line = line' ∧ (∀ c ∈ line, 32 ≤ c ∧ c ≠ 0x7F) ∨
    line.head? = some 0x7F ∧ line'.length ≤ line.length ∧ line.length ≤ line'.length + 1

theorem Tracks.put (h : Tracks line line') (c : Byte) : Tracks (put line c) (edit line' c) := by
  rcases h with ⟨rfl, hline⟩ | ⟨hhead, hle, hle'⟩
  · by_cases hdel : c = 0x7F ∧ line = []
    · obtain ⟨rfl, rfl⟩ := hdel
      exact .inr (by decide)
    have hsame : Readline.put line c = edit line c := by
      cases line with
      | nil =>
        by_cases hback : c = 8
        · subst hback
          rfl
        · simp_all [Readline.put, edit]
      | cons x line => simp [Readline.put, edit]
    refine .inl ⟨hsame, fun x hx => ?_⟩
    rw [hsame, edit] at hx
    grind [List.dropLast_subset]
  obtain ⟨rest, rfl⟩ := List.head?_eq_some_iff.mp hhead
  rw [Readline.put, edit]
  by_cases hdel : c = 8 ∨ c = 0x7F
  · rw [if_pos ⟨hdel, Nat.succ_pos _⟩, if_pos hdel]
    cases rest with
    | nil =>
      refine .inl ⟨(List.eq_nil_of_length_eq_zero ?_).symm, by simp⟩
      rw [List.length_dropLast]
      exact Nat.sub_eq_zero_of_le hle
    | cons x rest => exact .inr (by grind)
  · rw [if_neg (by grind), if_neg hdel]
    exact .inr (by grind)

/-- The number of characters in the line after one more is typed. -/
def count (n : Nat) (c : Byte) : Nat :=
  if (c = 8 ∨ c = 0x7F) ∧ 0 < n then n - 1 else if 32 ≤ c ∧ n < buflen - 1 then n + 1 else n

def held (cs : List Byte) : Nat := cs.foldl count 0

/-- After each DEL that is typed in an empty line, the line is empty once more. -/
def DeletesUndone (cs : List Byte) : Prop :=
  ∀ i, cs[i]? = some 0x7F → held (cs.take i) = 0 → ∃ j, i < j ∧ j ≤ cs.length ∧ held (cs.take j) = 0

theorem deletesUndone_append (hne : held (cs ++ [c]) ≠ 0) : DeletesUndone (cs ++ [c]) ↔
    if held cs = 0 then c ≠ 0x7F else DeletesUndone cs := by
  have htake : ∀ i ≤ cs.length, (cs ++ [c]).take i = cs.take i :=
    fun i hi => List.take_append_of_le_length hi
  have hend : ∀ j ≤ (cs ++ [c]).length, held ((cs ++ [c]).take j) = 0 → j ≤ cs.length := by
    intro j hj hheld
    refine Nat.le_of_lt_succ (Nat.lt_of_le_of_ne (by simpa using hj) fun heq => hne ?_)
    rwa [heq, List.take_of_length_le (by simp)] at hheld
  have hself := htake cs.length (Nat.le_refl _)
  rw [List.take_length] at hself
  split
  · rename_i hzero
    constructor
    · rintro h rfl
      obtain ⟨j, hj, hle, hheld⟩ := h cs.length (by simp) (by rwa [hself])
      exact absurd (hend j hle hheld) (Nat.not_le.mpr hj)
    · exact fun hc i hi _ => ⟨cs.length, by grind, by simp, by rwa [hself]⟩
  · rename_i hpos
    refine forall_congr' fun i => ?_
    by_cases hi : i < cs.length
    · rw [List.getElem?_append_left hi, htake i (Nat.le_of_lt hi)]
      refine imp_congr_right fun _ => imp_congr_right fun _ => exists_congr fun j => ?_
      grind
    · grind

theorem length_foldl_put (cs : List Byte) : (cs.foldl put []).length = held cs := by
  have hput : ∀ line c, (put line c).length = count line.length c := fun line c => by
    rw [put, count]
    split_ifs <;> simp
  induction cs using List.reverseRecOn with
  | nil => rfl
  | append_singleton cs c ih =>
    rw [held, List.foldl_append, List.foldl_append, ← held, ← ih]
    exact hput _ c

theorem head_put (hne : put line c ≠ []) :
    (put line c).head? = if line = [] then some c else line.head? := by
  unfold put at hne ⊢
  cases line with
  | nil => grind
  | cons x line => cases line <;> grind

theorem head_foldl_put (cs : List Byte) :
    (cs.foldl put []).head? ≠ some 0x7F ↔ DeletesUndone cs := by
  induction cs using List.reverseRecOn with
  | nil => simp [DeletesUndone]
  | append_singleton cs c ih =>
    have hlength := length_foldl_put (cs ++ [c])
    by_cases hzero : held (cs ++ [c]) = 0
    · rw [hzero, List.length_eq_zero_iff] at hlength
      refine iff_of_true (by simp [hlength]) fun i hi _ => ?_
      exact ⟨_, (List.getElem?_eq_some_iff.mp hi).1, Nat.le_refl _, by rwa [List.take_length]⟩
    rw [deletesUndone_append hzero, ← ih, ← length_foldl_put]
    rw [← hlength, List.length_eq_zero_iff, List.foldl_append] at hzero
    rw [List.foldl_append, List.foldl_cons, List.foldl_nil, head_put hzero]
    split_ifs <;> simp_all

/-- `readline` returns and stays in its buffer.  The line is the one that is meant exactly if each
DEL typed in an empty line is removed again. -/
theorem readline_edits_iff (hbuf : buf.length = buflen) (hcs : ∀ c ∈ cs, c ≠ 10 ∧ c ≠ 13)
    (he : e = 10 ∨ e = 13) :
    ∃ buf', readline buf 0 (cs.map some ++ [some e]) = some (some buf') ∧
      ((cstr buf' = cs.foldl edit [] ∧ ∀ c ∈ cstr buf', 32 ≤ c ∧ c ≠ 0x7F) ↔
        DeletesUndone cs) := by
  obtain ⟨buf', hrun, hstr⟩ := readline_put hbuf (show 0 < buflen by decide) (by simp) hcs he
  refine ⟨buf', hrun, ?_⟩
  have htracks : ∀ line line', Tracks line line' →
    Tracks (cs.foldl put line) (cs.foldl edit line') := by
    clear hcs hstr hrun
    induction cs with
    | nil => exact fun _ _ => id
    | cons c cs ih => exact fun _ _ h => ih _ _ (h.put c)
  have hend := htracks [] [] (.inl ⟨rfl, by simp⟩)
  rw [← head_foldl_put]
  rw [← show cstr buf' = cs.foldl put [] from hstr] at hend ⊢
  constructor
  · rintro ⟨-, hline⟩ hhead
    exact (hline _ (List.mem_of_mem_head? hhead)).2 rfl
  · intro hhead
    exact hend.resolve_right fun hdel => hhead hdel.1

theorem readline_edits_word : ∃ buf',
    readline (List.replicate buflen 0) 0 ([0x7F, 8, 97, 98, 8].map some ++ [some 13]) =
        some (some buf') ∧
      ((cstr buf' = [0x7F, 8, 97, 98, 8].foldl edit [] ∧ ∀ c ∈ cstr buf', 32 ≤ c ∧ c ≠ 0x7F) ↔
        DeletesUndone [0x7F, 8, 97, 98, 8]) :=
  readline_edits_iff List.length_replicate (by decide) (.inr rfl)

theorem delete_in_empty_line :
    (readline (List.replicate buflen 0) 0 [some 0x7F, some 10]).map (·.map cstr) =
      some (some [0x7F]) ∧ [0x7F].foldl edit [] = [] := by
  decide +kernel

end Mit6828.Lib.Readline
