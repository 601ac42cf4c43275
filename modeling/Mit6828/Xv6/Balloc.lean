import Mit6828.Xv6.Fs

namespace Mit6828.Xv6

open Library Function

structure Layout (sb : Superblock) : Prop where
  inodes : ∀ inum < sb.ninodes, iblock sb inum < sb.bmapstart
  bitmap : ∀ b < sb.size, bblock sb b < sb.data
  pos : 0 < sb.data
  size : sb.size < 2 ^ 32

namespace Fs

variable {sb : Superblock} {fs fs' : Fs} {m : FlatMemory.Memory} {b c : Nat} {rest : List Nat}

@[simp]
theorem logWrite_self (fs : Fs) (b : Nat) (m : FlatMemory.Memory) : (fs.logWrite b m).block b = m :=
  update_self _ _ _

theorem logWrite_of_ne (h : c ≠ b) : (fs.logWrite b m).block c = fs.block c :=
  update_of_ne h _ _

@[simp]
theorem setInode_self (fs : Fs) (inum : Nat) (ip : Inode) : (fs.setInode inum ip).inode inum = ip :=
  update_self _ _ _

theorem setInode_of_ne {e inum : Nat} (h : e ≠ inum) (ip : Inode) :
    (fs.setInode inum ip).inode e = fs.inode e :=
  update_of_ne h _ _

theorem bmapstart_le_bblock (sb : Superblock) (b : Nat) : sb.bmapstart ≤ bblock sb b :=
  Nat.le_add_left _ _

section Bits

theorem getLsbD_one_shiftLeft {n : Nat} (hn : n < 8) (k : Nat) :
    ((1 : Byte) <<< n).getLsbD k = decide (k = n) := by
  change (BitVec.twoPow 8 n).getLsbD k = _
  rw [BitVec.getLsbD_twoPow, decide_eq_true hn, Bool.true_and]
  simp only [decide_eq_decide]
  exact eq_comm

theorem eq_of_bit (hblock : bblock sb c = bblock sb b) (hbyte : c % bpb / 8 = b % bpb / 8)
    (hbit : c % 8 = b % 8) : c = b := by
  simp only [bblock, show bpb = 4096 from rfl] at hblock hbyte
  omega

theorem getLsbD_changeBit (f : Byte → Byte → Byte) (g : Bool → Bool → Bool)
    (hf : ∀ x y k, k < 8 → (f x y).getLsbD k = g (x.getLsbD k) (y.getLsbD k))
    (hg : ∀ x, g x false = x) (hblock : bblock sb c = bblock sb b) :
    (changeBit m b f (c % bpb / 8)).getLsbD (c % 8) =
      g ((m (c % bpb / 8)).getLsbD (c % 8)) (decide (c = b)) := by
  have hlt : ∀ x : Nat, x % 8 < 8 := fun x => Nat.mod_lt _ (by decide)
  rw [changeBit]
  by_cases hbyte : c % bpb / 8 = b % bpb / 8
  · rw [hbyte, update_self, hf _ _ _ (hlt c), getLsbD_one_shiftLeft (hlt b)]
    congr 1
    simp only [decide_eq_decide]
    constructor
    · exact eq_of_bit hblock hbyte
    · intro h
      rw [h]
  · rw [update_of_ne hbyte, decide_eq_false fun h => hbyte (by rw [h]), hg]

theorem bitSet_logWrite (f : Byte → Byte → Byte) (g : Bool → Bool → Bool)
    (hf : ∀ x y k, k < 8 → (f x y).getLsbD k = g (x.getLsbD k) (y.getLsbD k))
    (hg : ∀ x, g x false = x) (fs : Fs) (b c : Nat) :
    (fs.logWrite (bblock sb b) (changeBit (fs.block (bblock sb b)) b f)).bitSet sb c =
      g (fs.bitSet sb c) (decide (c = b)) := by
  rw [bitSet, bitSet]
  by_cases hblock : bblock sb c = bblock sb b
  · rw [hblock, logWrite_self, getLsbD_changeBit f g hf hg hblock]
  · rw [logWrite_of_ne hblock, decide_eq_false fun h => hblock (by rw [h]), hg]

theorem bitSet_bzero (h : Layout sb) (hb : sb.data ≤ b) (hc : c < sb.size) :
    (fs.bzero b).bitSet sb c = fs.bitSet sb c := by
  have hlt := h.bitmap c hc
  rw [bitSet, bitSet, bzero, logWrite_of_ne (by omega)]

end Bits

structure Allocated (sb : Superblock) (fs : Fs) (b : Nat) (fs' : Fs) : Prop where
  data : sb.data ≤ b
  size : b < sb.size
  clear : fs.bitSet sb b = false
  inode : fs'.inode = fs.inode
  zero : ∀ x < bsize, fs'.block b x = 0
  kept : ∀ c, c ≠ b → c ≠ bblock sb b → fs'.block c = fs.block c
  bits : ∀ c < sb.size, fs'.bitSet sb c = (fs.bitSet sb c || decide (c = b))
  free : fs.free sb = b :: fs'.free sb
  logged : fs'.logged = fs.logged ++ [bblock sb b, b]

theorem mem_free : b ∈ fs.free sb ↔ b < sb.size ∧ fs.bitSet sb b = false := by
  rw [free, List.mem_filter, List.mem_range, Bool.not_eq_true']

theorem nodup_free (sb : Superblock) (fs : Fs) : (fs.free sb).Nodup := List.nodup_range.filter _

theorem free_tail (hfree : fs.free sb = b :: rest)
    (hbits : ∀ c < sb.size, fs'.bitSet sb c = (fs.bitSet sb c || decide (c = b))) :
    fs'.free sb = rest := by
  have hnodup := nodup_free sb fs
  rw [hfree, List.nodup_cons] at hnodup
  have hfilter : fs'.free sb = (fs.free sb).filter fun c => !decide (c = b) := by
    rw [free, free, List.filter_filter]
    refine List.filter_congr fun c hc => ?_
    rw [hbits c (List.mem_range.mp hc), Bool.not_or, Bool.and_comm]
  rw [hfilter, hfree, List.filter_cons_of_neg (by simp), List.filter_eq_self]
  intro c hc
  simp only [Bool.not_eq_true', decide_eq_false_iff_not]
  rintro rfl
  exact hnodup.1 hc

theorem balloc_eq (h : Layout sb) (hreserved : ∀ c < sb.data, fs.bitSet sb c = true)
    (hfree : fs.free sb = b :: rest) :
    ∃ fs', fs.balloc sb = some (fs', b) ∧ Allocated sb fs b fs' := by
  have hmem : b ∈ fs.free sb := by rw [hfree]; exact List.mem_cons_self
  obtain ⟨hsize, hclear⟩ := mem_free.mp hmem
  have hdata : sb.data ≤ b := by
    by_contra hlt
    rw [hreserved b (by omega)] at hclear
    cases hclear
  have hfind : (List.range sb.size).find? (fun b => !fs.bitSet sb b) = some b := by
    rw [← List.head?_filter]
    exact congrArg List.head? hfree
  have hbits : ∀ c < sb.size, (((fs.logWrite (bblock sb b) (changeBit (fs.block (bblock sb b)) b
      fun byte m => byte ||| m)).bzero b).bitSet sb c) = (fs.bitSet sb c || decide (c = b)) := by
    intro c hc
    rw [bitSet_bzero h hdata hc,
      bitSet_logWrite _ (· || ·) (fun x y k _ => BitVec.getLsbD_or) Bool.or_false]
  refine ⟨_, by rw [balloc, hfind], ?_⟩
  refine ⟨hdata, hsize, hclear, rfl, fun x hx => ?_, fun c hcb hcm => ?_, hbits, ?_, ?_⟩
  · rw [bzero, logWrite_self, FlatMemory.fill, if_pos (by omega)]
  · rw [bzero, logWrite_of_ne hcb, logWrite_of_ne hcm]
  · rw [free_tail hfree hbits, hfree]
  · simp [bzero, logWrite]

theorem bfree_eq (h : fs.bitSet sb b = true) :
    ∃ fs', fs.bfree sb b = some fs' ∧ fs'.inode = fs.inode ∧
    (∀ c, c ≠ bblock sb b → fs'.block c = fs.block c) ∧
    ∀ c, fs'.bitSet sb c = (fs.bitSet sb c && !decide (c = b)) := by
  refine ⟨_, if_pos h, rfl, fun c hc => logWrite_of_ne hc, fun c => ?_⟩
  rw [bitSet_logWrite _ fun x y => x && !y]
  · intro x y k hk
    rw [BitVec.getLsbD_and, BitVec.getLsbD_not, decide_eq_true hk, Bool.true_and]
  · intro x
    rw [Bool.not_false, Bool.and_true]

end Fs

end Mit6828.Xv6
