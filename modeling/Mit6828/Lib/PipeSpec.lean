import Mit6828.Lib.Pipe
import Mit6828.Library.Ring

namespace Mit6828.Lib.PipeSpec

open Kern.Mmu Pipe Library Function

variable {s s' : State} {R R' W W' n : Nat} {pc : WritePc}

theorem toNat_pos (h : n < 2 ^ 31) : (BitVec.ofNat 32 n).toNat = n := by
  grind

theorem index_of_lt (h : n < 2 ^ 31) : index (BitVec.ofNat 32 n) = some (n % pipebufsiz) := by
  have hint : (BitVec.ofNat 32 n).toInt = n := by
    rw [BitVec.toInt_eq_toNat_of_lt (by grind), toNat_pos h]
  have hmod : Int.tmod n pipebufsiz = (n % pipebufsiz : Nat) := by
    rw [Int.ofNat_tmod]
  have hlt : n % pipebufsiz < pipebufsiz := Nat.mod_lt _ (by decide)
  simp only [index, hint, hmod]
  rw [if_pos ⟨by omega, by omega⟩, Int.toNat_natCast]

theorem isFull_iff (hR : R < 2 ^ 31) (hW : W < 2 ^ 31) :
    isFull (BitVec.ofNat 32 R) (BitVec.ofNat 32 W) ↔ R + pipebufsiz ≤ W := by
  rw [isFull, BitVec.le_def, BitVec.toNat_add, toNat_pos hR, toNat_pos hW, pipebufsiz,
    show (BitVec.ofNat 32 32).toNat = 32 from rfl]
  omega

/-- Bytes that the reader has been given and not yet counted. -/
def taken : ReadPc → Nat
  | .incr _ _ => 1
  | .put _ _ _ => 1
  | _ => 0

/-- Bytes that the writer has stored and not yet counted. -/
def stored : WritePc → Nat
  | .incr _ => 1
  | .put _ _ => 1
  | _ => 0

/-- What the reader knows, with `R` bytes read and `W` written: its own position is as it was,
the position of the writer may have moved on. -/
def ReadOk (R W : Nat) : ReadPc → Prop
  | .test _ _ r w => (∀ r', r = some r' → r' = BitVec.ofNat 32 R) ∧
      ∀ w', w = some w' → ∃ W', R ≤ W' ∧ W' ≤ W ∧ w' = BitVec.ofNat 32 W'
  | .take _ _ => R < W
  | .fetch _ _ r => R < W ∧ r = BitVec.ofNat 32 R
  | .put _ _ r => r = BitVec.ofNat 32 R
  | .outside => False
  | _ => True

def WriteOk (R W : Nat) : WritePc → Prop
  | .test _ _ r w => (∀ r', r = some r' → ∃ R', R' ≤ R ∧ r' = BitVec.ofNat 32 R') ∧
      ∀ w', w = some w' → w' = BitVec.ofNat 32 W
  | .give _ _ => W < R + pipebufsiz
  | .store _ _ w => W < R + pipebufsiz ∧ w = BitVec.ofNat 32 W
  | .put _ w => w = BitVec.ofNat 32 W
  | .outside => False
  | _ => True

structure Inv (s : State) (R W : Nat) : Prop where
  rpos : s.pipe.pRpos = BitVec.ofNat 32 R
  wpos : s.pipe.pWpos = BitVec.ofNat 32 W
  got : s.got.length = R + taken s.reader
  written : s.written.length = W + stored s.writer
  le : s.got.length ≤ W
  ring : Ring.Holds pipebufsiz s.pipe.pBuf s.written R
  take : s.got = s.written.take s.got.length
  reader : ReadOk R W s.reader
  writer : WriteOk R W s.writer

theorem inv_initial : Inv initial 0 0 :=
  ⟨rfl, rfl, rfl, rfl, le_rfl, ⟨Nat.zero_le _, fun _ _ hi => absurd hi (Nat.not_lt_zero _)⟩, rfl,
    trivial, trivial⟩

theorem ReadOk.mono {pc : ReadPc} (h : ReadOk R W pc) (hW : W ≤ W') : ReadOk R W' pc := by
  cases pc with
  | test i n r w =>
    refine ⟨h.1, fun w' hw' => ?_⟩
    obtain ⟨W0, hR, hle, heq⟩ := h.2 w' hw'
    exact ⟨W0, hR, hle.trans hW, heq⟩
  | take i n => exact Nat.lt_of_lt_of_le h hW
  | fetch i n r => exact ⟨Nat.lt_of_lt_of_le h.1 hW, h.2⟩
  | put i n r => exact h
  | outside => exact h
  | idle => exact h
  | loop i n => exact h
  | empty i n => exact h
  | incr i n => exact h

theorem WriteOk.mono (h : WriteOk R W pc) (hR : R ≤ R') : WriteOk R' W pc := by
  cases pc with
  | test b bs r w =>
    refine ⟨fun r' hr' => ?_, h.2⟩
    obtain ⟨R0, hle, heq⟩ := h.1 r' hr'
    exact ⟨R0, hle.trans hR, heq⟩
  | give b bs => exact Nat.lt_of_lt_of_le h (Nat.add_le_add_right hR _)
  | store b bs w => exact ⟨Nat.lt_of_lt_of_le h.1 (Nat.add_le_add_right hR _), h.2⟩
  | put bs w => exact h
  | outside => exact h
  | idle => exact h
  | loop bs => exact h
  | full b bs => exact h
  | incr bs => exact h

theorem Inv.setReader {pc : ReadPc} (h : Inv s R W) (htaken : taken pc = taken s.reader)
    (hok : ReadOk R W pc) : Inv (s.setReader pc) R W :=
  { h with
    got := h.got.trans (by rw [← htaken]; rfl)
    reader := hok }

theorem Inv.setWriter (h : Inv s R W) (hstored : stored pc = stored s.writer)
    (hok : WriteOk R W pc) : Inv (s.setWriter pc) R W :=
  { h with
    written := h.written.trans (by rw [← hstored]; rfl)
    writer := hok }

theorem inv_read (h : Inv s R W) (hW : W < 2 ^ 31) (hstep : ReadStep s s') : ∃ R', Inv s' R' W := by
  have hreader := h.reader
  have hgot := h.got
  have hle := h.le
  cases hstep with
  | call n hpc => exact ⟨R, h.setReader (by rw [hpc]; rfl) trivial⟩
  | loop i n hpc =>
    refine ⟨R, h.setReader ?_ ?_⟩
    · rw [hpc]
      split <;> rfl
    · split
      · exact ⟨by simp, by simp⟩
      · trivial
  | loadRpos i n w hpc =>
    rw [hpc] at hreader
    refine ⟨R, h.setReader (by rw [hpc]; rfl) ⟨fun r' hr' => ?_, hreader.2⟩⟩
    rw [← Option.some.inj hr', h.rpos]
  | loadWpos i n r hpc =>
    rw [hpc] at hreader
    refine ⟨R, h.setReader (by rw [hpc]; rfl) ⟨hreader.1, fun w' hw' => ⟨W, by omega, le_rfl, ?_⟩⟩⟩
    rw [← Option.some.inj hw', h.wpos]
  | test i n r w hpc =>
    rw [hpc] at hreader
    obtain rfl := hreader.1 r rfl
    obtain ⟨W', hR, hW', rfl⟩ := hreader.2 w rfl
    refine ⟨R, h.setReader ?_ ?_⟩
    · rw [hpc]
      split <;> rfl
    split
    · trivial
    · rename_i hne
      have : R ≠ W' := fun heq => hne (by rw [heq])
      change R < W
      omega
  | empty i n closed hpc =>
    refine ⟨R, h.setReader ?_ ?_⟩
    · rw [hpc]
      split <;> rfl
    · split
      · trivial
      · exact ⟨by simp, by simp⟩
  | take i n hpc =>
    rw [hpc] at hreader
    exact ⟨R, h.setReader (by rw [hpc]; rfl) ⟨hreader, h.rpos⟩⟩
  | fetch i n j r hpc hj =>
    rw [hpc] at hreader hgot
    obtain ⟨hlt, rfl⟩ := hreader
    rw [index_of_lt (by omega)] at hj
    cases hj
    have hlen : s.got.length = R := hgot
    have hmore : R < s.written.length := by
      have := h.written
      omega
    refine ⟨R, h.rpos, h.wpos, ?_, h.written, ?_, h.ring, ?_, trivial, h.writer⟩
    · simp [hlen, taken]
    · grind
    · rw [List.length_append, List.length_singleton, hlen, ← h.ring.take_succ hmore, h.take, hlen]
  | outside i n r hpc hj =>
    rw [hpc] at hreader
    rw [hreader.2, index_of_lt (by have := hreader.1; omega)] at hj
    cases hj
  | incr i n hpc => exact ⟨R, h.setReader (by rw [hpc]; rfl) h.rpos⟩
  | put i n r hpc =>
    rw [hpc] at hreader hgot
    refine ⟨R + 1, ?_, h.wpos, hgot, h.written, h.le, h.ring.advance (by omega), h.take, trivial,
      h.writer.mono (by omega)⟩
    have hr : r = BitVec.ofNat 32 R := hreader
    rw [hr]
    exact (BitVec.ofNat_add R 1).symm

theorem inv_write (h : Inv s R W) (hW : W < 2 ^ 31) (hstep : WriteStep s s') :
    ∃ W', Inv s' R W' := by
  have hwriter := h.writer
  have hwritten := h.written
  have hR : R < 2 ^ 31 := by
    have := h.got
    have := h.le
    omega
  cases hstep with
  | call bs hpc => exact ⟨W, h.setWriter (by rw [hpc]; rfl) trivial⟩
  | done hpc => exact ⟨W, h.setWriter (by rw [hpc]; rfl) trivial⟩
  | loop b bs hpc => exact ⟨W, h.setWriter (by rw [hpc]; rfl) ⟨by simp, by simp⟩⟩
  | loadRpos b bs w hpc =>
    rw [hpc] at hwriter
    refine ⟨W, h.setWriter (by rw [hpc]; rfl) ⟨fun r' hr' => ⟨R, le_rfl, ?_⟩, hwriter.2⟩⟩
    rw [← Option.some.inj hr', h.rpos]
  | loadWpos b bs r hpc =>
    rw [hpc] at hwriter
    refine ⟨W, h.setWriter (by rw [hpc]; rfl) ⟨hwriter.1, fun w' hw' => ?_⟩⟩
    rw [← Option.some.inj hw', h.wpos]
  | test b bs r w hpc =>
    rw [hpc] at hwriter
    obtain ⟨R', hle, rfl⟩ := hwriter.1 r rfl
    obtain rfl := hwriter.2 w rfl
    refine ⟨W, h.setWriter ?_ ?_⟩
    · rw [hpc]
      split <;> rfl
    split
    · trivial
    · rename_i hfull
      rw [isFull_iff (by omega) hW] at hfull
      change W < R + pipebufsiz
      omega
  | full b bs closed hpc =>
    refine ⟨W, h.setWriter ?_ ?_⟩
    · rw [hpc]
      split <;> rfl
    · split
      · trivial
      · exact ⟨by simp, by simp⟩
  | give b bs hpc =>
    rw [hpc] at hwriter
    exact ⟨W, h.setWriter (by rw [hpc]; rfl) ⟨hwriter, h.wpos⟩⟩
  | store b bs w j hpc hj =>
    rw [hpc] at hwriter hwritten
    obtain ⟨hroom, rfl⟩ := hwriter
    have hlen : s.written.length = W := hwritten
    rw [index_of_lt hW, ← hlen] at hj
    cases hj
    refine ⟨W, h.rpos, h.wpos, h.got, ?_, h.le, h.ring.put (by omega) b, ?_, h.reader, trivial⟩
    · simp [hlen, stored]
    · rw [List.take_append_of_le_length (by rw [hlen]; exact h.le)]
      exact h.take
  | outside b bs w hpc hj =>
    rw [hpc] at hwriter
    rw [hwriter.2, index_of_lt hW] at hj
    cases hj
  | incr bs hpc => exact ⟨W, h.setWriter (by rw [hpc]; rfl) h.wpos⟩
  | put bs w hpc =>
    rw [hpc] at hwriter hwritten
    refine ⟨W + 1, h.rpos, ?_, h.got, hwritten, h.le.trans (by omega), h.ring, h.take,
      h.reader.mono (by omega), trivial⟩
    have hw : w = BitVec.ofNat 32 W := hwriter
    rw [hw]
    exact (BitVec.ofNat_add W 1).symm

theorem written_step (hstep : Step s s') : s.written.length ≤ s'.written.length := by
  rcases hstep with hread | hwrite
  · cases hread <;> exact le_rfl
  · cases hwrite with
    | store b bs w j hpc hj => simp
    | _ => exact le_rfl

theorem inv_run (hrun : Run initial s) (hbound : s.written.length < 2 ^ 31) : ∃ R W, Inv s R W := by
  induction hrun with
  | refl => exact ⟨0, 0, inv_initial⟩
  | tail _ hstep ih =>
    obtain ⟨R, W, h⟩ := ih (Nat.lt_of_le_of_lt (written_step hstep) hbound)
    have hW : W < 2 ^ 31 := by
      have := h.written
      have := written_step hstep
      omega
    rcases hstep with hread | hwrite
    · obtain ⟨R', h'⟩ := inv_read h hW hread
      exact ⟨R', W, h'⟩
    · obtain ⟨W', h'⟩ := inv_write h hW hwrite
      exact ⟨R, W', h'⟩

/-- As long as fewer than `2 ^ 31` bytes have been written, the reader has been given the first
of them in order, there are no more than `PIPEBUFSIZ` others, and no access has left `p_buf`. -/
theorem pipe_is_fifo (hrun : Run initial s) (hbound : s.written.length < 2 ^ 31) :
    s.got <+: s.written ∧ s.written.length ≤ s.pipe.pRpos.toNat + pipebufsiz ∧
      s.pipe.pRpos.toNat ≤ s.got.length ∧ s.reader ≠ .outside ∧ s.writer ≠ .outside := by
  obtain ⟨R, W, h⟩ := inv_run hrun hbound
  have hlen := h.got
  have hle := h.le
  have hwritten := h.written
  have hR : s.pipe.pRpos.toNat = R := by
    rw [h.rpos, toNat_pos (by omega)]
  refine ⟨?_, ?_, by omega, fun hpc => ?_, fun hpc => ?_⟩
  · rw [h.take]
    exact List.take_prefix _ _
  · rw [hR]
    exact h.ring.room
  · have hok := h.reader
    rwa [hpc] at hok
  · have hok := h.writer
    rwa [hpc] at hok

section Overflow

variable {j : Nat}

theorem writer_stores (b : Byte) (hpc : s.writer = .idle)
    (hfull : ¬ isFull s.pipe.pRpos s.pipe.pWpos) :
    Run s (s.setWriter (.store b [] s.pipe.pWpos)) := by
  have hcall : Run s (s.setWriter (.loop [b])) := .single (.inr (.call [b] hpc))
  have htest : Run s (s.setWriter (.test b [] (some s.pipe.pRpos) (some s.pipe.pWpos))) :=
    ((hcall.tail (.inr (.loop b [] rfl))).tail (.inr (.loadRpos b [] _ rfl))).tail
      (.inr (.loadWpos b [] _ rfl))
  have hgive := htest.tail (.inr (.test b [] _ _ rfl))
  rw [if_neg hfull] at hgive
  exact hgive.tail (.inr (.give b [] rfl))

theorem write_byte (b : Byte) (hpc : s.writer = .idle)
    (hfull : ¬ isFull s.pipe.pRpos s.pipe.pWpos) (hj : index s.pipe.pWpos = some j) :
    Run s { s with
      pipe := { s.pipe with
        pWpos := s.pipe.pWpos + 1
        pBuf := update s.pipe.pBuf j b }
      written := s.written ++ [b] } := by
  have hstore := (writer_stores b hpc hfull).tail (.inr (.store b [] _ j rfl hj))
  have hdone := ((hstore.tail (.inr (.incr [] rfl))).tail (.inr (.put [] _ rfl))).tail
    (.inr (.done rfl))
  simp only [State.setWriter, ← hpc] at hdone
  exact hdone

theorem read_byte (hpc : s.reader = .idle) (hne : s.pipe.pRpos ≠ s.pipe.pWpos)
    (hj : index s.pipe.pRpos = some j) :
    Run s { s with
      pipe := { s.pipe with pRpos := s.pipe.pRpos + 1 }
      got := s.got ++ [s.pipe.pBuf j] } := by
  have hcall : Run s (s.setReader (.loop 0 1)) := .single (.inl (.call 1 hpc))
  have htest : Run s (s.setReader (.test 0 1 (some s.pipe.pRpos) (some s.pipe.pWpos))) :=
    ((hcall.tail (.inl (.loop 0 1 rfl))).tail (.inl (.loadRpos 0 1 _ rfl))).tail
      (.inl (.loadWpos 0 1 _ rfl))
  have htake := htest.tail (.inl (.test 0 1 _ _ rfl))
  rw [if_neg hne] at htake
  have hfetch := (htake.tail (.inl (.take 0 1 rfl))).tail (.inl (.fetch 0 1 j _ rfl hj))
  have hdone := ((hfetch.tail (.inl (.incr 0 1 rfl))).tail (.inl (.put 0 1 _ rfl))).tail
    (.inl (.loop 1 1 rfl))
  simp only [State.setReader, lt_irrefl, if_false, ← hpc] at hdone
  exact hdone

/-- Two bytes go through the pipe. -/
theorem pipe_is_fifo_two : ∃ s, Run initial s ∧ s.got = [7, 8] ∧ s.got <+: s.written ∧
    s.written.length ≤ s.pipe.pRpos.toNat + pipebufsiz ∧ s.pipe.pRpos.toNat ≤ s.got.length ∧
    s.reader ≠ .outside ∧ s.writer ≠ .outside := by
  have hwrite := (write_byte (s := initial) (j := 0) 7 rfl (by decide) (by decide)).trans
    (write_byte (j := 1) 8 rfl (by decide) (by decide))
  have hrun := (hwrite.trans (read_byte (j := 0) rfl (by decide) (by decide))).trans
    (read_byte (j := 1) rfl (by decide) (by decide))
  exact ⟨_, hrun, rfl, pipe_is_fifo hrun (by decide)⟩

theorem ferried (hn : n ≤ 2 ^ 31 + 1) : ∃ s, Run initial s ∧ s.reader = .idle ∧
    s.writer = .idle ∧ s.pipe.pRpos = BitVec.ofNat 32 n ∧ s.pipe.pWpos = BitVec.ofNat 32 n := by
  induction n with
  | zero => exact ⟨initial, .refl, rfl, rfl, rfl, rfl⟩
  | succ n ih =>
    obtain ⟨s, hrun, hreader, hwriter, hr, hw⟩ := ih (by omega)
    have hfull : ¬ isFull s.pipe.pRpos s.pipe.pWpos := by
      rw [hr, hw, isFull, BitVec.le_def, BitVec.toNat_add, BitVec.toNat_ofNat, pipebufsiz,
        show (BitVec.ofNat 32 32).toNat = 32 from rfl]
      omega
    obtain ⟨j, hj⟩ : ∃ j, index (BitVec.ofNat 32 n) = some j := by
      rcases Nat.lt_or_ge n (2 ^ 31) with hlt | hge
      · exact ⟨_, index_of_lt hlt⟩
      · obtain rfl : n = 2 ^ 31 := by omega
        exact ⟨0, by decide⟩
    have hwrite := write_byte 0 hwriter hfull (by rw [hw]; exact hj)
    have hne : s.pipe.pRpos ≠ s.pipe.pWpos + 1 := by
      rw [hr, hw]
      bv_omega
    have hread := read_byte (s := { s with
      pipe := { s.pipe with
        pWpos := s.pipe.pWpos + 1
        pBuf := update s.pipe.pBuf j 0 }
      written := s.written ++ [0] }) hreader hne (by rw [hr]; exact hj)
    refine ⟨_, (hrun.trans hwrite).trans hread, hreader, hwriter, ?_, ?_⟩
    · rw [BitVec.ofNat_add, ← hr]
      rfl
    · rw [BitVec.ofNat_add, ← hw]
      rfl

end Overflow

/-- After `2 ^ 31 + 1` bytes the writer stores at index -31. -/
theorem pipe_leaves_buffer : ∃ s, Run initial s ∧ s.writer = .outside := by
  obtain ⟨s, hrun, -, hwriter, hr, hw⟩ := ferried le_rfl
  have hstore := (writer_stores 0 hwriter (by rw [hr, hw]; decide)).tail
    (.inr (.outside 0 [] _ rfl (by rw [hw]; decide)))
  exact ⟨_, hrun.trans hstore, rfl⟩

end Mit6828.Lib.PipeSpec
