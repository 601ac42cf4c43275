import Mit6828.Lib.Malloc

namespace Mit6828.Lib.Malloc

open Kern.Mmu Kern.Syscall Function

def Arena (p : Nat) : Prop := 32768 ≤ p ∧ p < 65536

def addr (p : Nat) : Word := BitVec.ofNat 32 (4096 * p)

def userPage : Word := pteP ||| pteU ||| pteW

namespace Block

def size (b : Block) : Nat := (roundup4 b.n).toNat

def first (b : Block) : Nat := b.v.toNat / 4096
def last (b : Block) : Nat := (b.v.toNat + b.size + 3) / 4096

end Block

section Arithmetic

variable {p k : Nat} {n va : Word}

theorem toNat_addr (hp : p < 1048576) : (addr p).toNat = 4096 * p := by
  rw [addr, BitVec.toNat_ofNat]
  omega

theorem pgnum_addr (hp : p < 1048576) : pgnum (addr p) = p := by
  rw [pgnum_eq, toNat_addr hp]
  omega

theorem addr_add (p k : Nat) : addr p + BitVec.ofNat 32 k * pgsize = addr (p + k) := by
  rw [addr, addr, show pgsize = BitVec.ofNat 32 4096 from rfl, ← BitVec.ofNat_mul,
    ← BitVec.ofNat_add, Nat.mul_comm k, Nat.mul_add]

theorem addr_succ (p : Nat) : addr p + pgsize = addr (p + 1) := by
  have h := addr_add p 1
  rwa [show BitVec.ofNat 32 1 * pgsize = pgsize from rfl] at h

theorem pgnum_addr_succ_sub (hp : p < 65536) : pgnum (addr (p + 1) - 4) = p := by
  rw [pgnum_eq, BitVec.toNat_sub, toNat_addr (by omega)]
  change (4294967296 - 4 + 4096 * (p + 1)) % 4294967296 / 4096 = p
  omega

theorem addr_lt_mend (hp : p < 1048576) : addr p < mend ↔ p < 65536 := by
  rw [BitVec.lt_def, toNat_addr hp]
  change 4096 * p < 268435456 ↔ p < 65536
  omega

theorem mbegin_le_addr (hp : p < 1048576) : mbegin ≤ addr p ↔ 32768 ≤ p := by
  rw [BitVec.le_def, toNat_addr hp]
  change 134217728 ≤ 4096 * p ↔ 32768 ≤ p
  omega

theorem addr_not_badVa (hp : p < 65536) : ¬ badVa (addr p) := by
  rw [not_badVa_iff, toNat_addr (by omega)]
  omega

theorem addr_eq_mend (hp : p < 1048576) : addr p = mend ↔ p = 65536 := by
  rw [← BitVec.toNat_inj, toNat_addr hp]
  change 4096 * p = 268435456 ↔ p = 65536
  omega

theorem mbegin_eq : mbegin = addr 32768 := rfl

theorem rounddown_eq (va : Word) : rounddown va = addr (pgnum va) := by
  apply BitVec.eq_of_toNat_eq
  have hlt := va.isLt
  rw [toNat_rounddown, pgnum_eq, toNat_addr (by omega)]
  omega

theorem toNat_roundup4 (n : Word) : (roundup4 n).toNat = (n.toNat + 3) % 2 ^ 32 / 4 * 4 := by
  have hsum : (n + 4 - 1).toNat = (n.toNat + 3) % 2 ^ 32 := by
    rw [BitVec.toNat_sub, BitVec.toNat_add]
    change (4294967296 - 1 + (n.toNat + 4) % 4294967296) % 4294967296 = _
    omega
  have hmod : ((n + 4 - 1) % 4).toNat = (n.toNat + 3) % 2 ^ 32 % 4 := by
    rw [BitVec.toNat_umod, hsum]
    rfl
  rw [roundup4, BitVec.toNat_sub, hmod, hsum]
  omega

theorem roundup4_mod (n : Word) : (roundup4 n).toNat % 4 = 0 := by
  rw [toNat_roundup4]
  omega

end Arithmetic

namespace Heap

variable {h : Heap} {p q a b k left fuel : Nat} {n v : Word}

theorem freeLoop_spec (hcont : ∀ p, a ≤ p → p < b → h.uvpt p &&& pteContinued ≠ 0)
    (hlast : h.uvpt b &&& pteContinued = 0) (hab : a ≤ b) (ha : 32768 ≤ a) (hb : b < 65536)
    (hfuel : b - a < fuel) : freeLoop fuel (addr a) h = some (addr b, { h with
      uvpt := fun p => if a ≤ p ∧ p < b then 0 else h.uvpt p }) := by
  induction fuel generalizing a h with
  | zero => omega
  | succ fuel ih =>
    rw [freeLoop, pgnum_addr (by omega)]
    by_cases heq : a = b
    · subst heq
      rw [if_neg (by rw [hlast]; decide)]
      congr 2
      have hnone : ∀ p, ¬ (a ≤ p ∧ p < a) := fun p => by omega
      simp only [hnone, if_false]
    rw [if_pos (hcont a le_rfl (by omega)), addr_succ, if_pos
      ⟨(mbegin_le_addr (by omega)).mpr (by omega), (addr_lt_mend (by omega)).mpr (by omega)⟩]
    have hset : h.sysPageUnmap (addr a) = { h with uvpt := update h.uvpt a 0 } := by
      rw [sysPageUnmap, if_neg (addr_not_badVa (by omega)), pgnum_addr (by omega)]
    rw [hset, ih]
    · congr 2
      congr 1
      funext p
      by_cases hp : p = a
      · subst hp
        simp only [update_self]
        rw [if_neg (by omega), if_pos ⟨le_rfl, by omega⟩]
      · simp only [update_of_ne hp]
        congr 1
        apply propext
        omega
    · intro p hlo hhi
      simp only [update_of_ne (show p ≠ a by omega)]
      exact hcont p (by omega) hhi
    · simp only [update_of_ne (Ne.symm heq)]
      exact hlast
    · omega
    · omega
    · omega

theorem free_spec (hv : pgnum v = a) (hcont : ∀ p, a ≤ p → p < b → h.uvpt p &&& pteContinued ≠ 0)
    (hlast : h.uvpt b = userPage) (hab : a ≤ b) (ha : 32768 ≤ a) (hb : b < 65536) :
    h.free v = some { h with
      uvpt := fun p => if a ≤ p ∧ p < b then 0
        else if p = b ∧ h.ref b = 1 then 0 else h.uvpt p
      ref := update h.ref b (h.ref b - 1) } := by
  have hnat : v.toNat / 4096 = a := (pgnum_eq v).symm.trans hv
  have hne : v ≠ 0 := by
    rintro rfl
    have hzero : (0 : Word).toNat = 0 := rfl
    omega
  have hlo : mbegin ≤ v := by
    rw [BitVec.le_def]
    change 134217728 ≤ v.toNat
    omega
  have hhi : v < mend := by
    rw [BitVec.lt_def]
    change v.toNat < 268435456
    omega
  have hpage : pgnum (addr b + pgsize - 4) = b := by
    rw [addr_succ, pgnum_addr_succ_sub hb]
  have hloop : freeLoop (2 ^ 16) (addr a) h = _ :=
    freeLoop_spec hcont (by rw [hlast]; decide) hab ha hb (by omega)
  have hkept : (fun p => if a ≤ p ∧ p < b then 0 else h.uvpt p) b = userPage := by
    simp only [if_neg (show ¬ (a ≤ b ∧ b < b) by omega)]
    exact hlast
  rw [free, if_neg hne, if_pos ⟨hlo, hhi⟩, rounddown_eq, hv, hloop]
  have hpresent : ({ h with uvpt := fun p => if a ≤ p ∧ p < b then 0 else h.uvpt p } : Heap).present
      (addr b) := by
    rw [present, pgnum_addr (by omega)]
    change (fun p => if a ≤ p ∧ p < b then 0 else h.uvpt p) b &&& pteP ≠ 0
    rw [hkept]
    decide
  simp only [Option.bind_eq_bind, Option.bind_some, if_pos hpresent, hpage, update_self]
  have hone : h.ref b - 1 = 0 ↔ h.ref b = 1 := sub_eq_zero
  by_cases href : h.ref b = 1
  · rw [if_pos (hone.mpr href), sysPageUnmap, if_neg (addr_not_badVa hb), pgnum_addr (by omega)]
    congr 2
    funext p
    by_cases hp : p = b
    · subst hp
      simp [href]
    · simp [hp]
  · rw [if_neg fun hz => href (hone.mp hz)]
    simp only [href, and_false, if_false]

theorem isfreeLoop_spec {endVa : Word} (htrue : h.isfreeLoop fuel (addr p) endVa = true)
    (hp : p ≤ 65536) (hend : endVa.toNat ≤ 4096 * (p + fuel)) :
    ∀ q, p ≤ q → 4096 * q < endVa.toNat → q < 65536 ∧ h.uvpt q &&& pteP = 0 := by
  induction fuel generalizing p with
  | zero =>
    intro q hq hlt
    omega
  | succ fuel ih =>
    intro q hq hlt
    have hin : addr p < endVa := by
      rw [BitVec.lt_def, toNat_addr (by omega)]
      omega
    rw [isfreeLoop, if_pos hin] at htrue
    split at htrue
    · cases htrue
    rename_i hfree
    rw [not_or] at hfree
    have hlow : p < 65536 := by
      rw [← addr_lt_mend (by omega), BitVec.lt_def]
      exact Nat.lt_of_not_le hfree.1
    by_cases heq : q = p
    · subst heq
      refine ⟨hlow, not_not.mp ?_⟩
      rw [← pgnum_addr (show q < 1048576 by omega)]
      exact hfree.2
    · rw [addr_succ] at htrue
      exact ih htrue (by omega) (by omega) q (by omega) hlt

theorem isfree_spec (htrue : h.isfree (addr p) n = true) (hp : p < 65536) (hn : n.toNat ≤ 2 ^ 21) :
    ∀ q, p ≤ q → 4096 * q < 4096 * p + n.toNat → q < 65536 ∧ h.uvpt q &&& pteP = 0 := by
  have hend : (addr p + n).toNat = 4096 * p + n.toNat := by
    rw [BitVec.toNat_add, toNat_addr (by omega)]
    omega
  have hloop : h.isfreeLoop (2 ^ 20) (addr p) (addr p + n) = true := htrue
  have hspec := isfreeLoop_spec hloop (by omega) (by grind)
  rwa [hend] at hspec

theorem search_spec {nwrap : Nat} (hq : Arena q) (hwrap : nwrap < 2)
    (hfuel : (1 - nwrap) * 32768 + (65536 - q) ≤ fuel) : ∃ found m,
      h.search n fuel nwrap (addr q) = some (found, addr m) ∧ Arena m ∧
        (found = true → h.isfree (addr m) n = true) := by
  obtain ⟨hlo, hhi⟩ := hq
  induction fuel generalizing nwrap q with
  | zero => omega
  | succ fuel ih =>
    rw [search]
    by_cases hfree : h.isfree (addr q) n = true
    · rw [if_pos hfree]
      exact ⟨true, q, rfl, ⟨hlo, hhi⟩, fun _ => hfree⟩
    rw [if_neg hfree, addr_succ]
    by_cases hend : q + 1 = 65536
    · rw [if_pos ((addr_eq_mend (by omega)).mpr hend)]
      by_cases htwo : nwrap + 1 = 2
      · rw [if_pos htwo]
        exact ⟨false, 32768, rfl, ⟨le_rfl, by decide⟩, fun hfalse => by cases hfalse⟩
      · obtain rfl : nwrap = 0 := by omega
        rw [if_neg htwo, mbegin_eq]
        exact ih (by decide) (by omega) le_rfl (by decide)
    · have hne : addr (q + 1) ≠ mend := fun heq => hend ((addr_eq_mend (by omega)).mp heq)
      rw [if_neg hne]
      exact ih hwrap (by omega) (by omega) (by omega)

theorem unmapPages_spec (hq : h.mptr = addr q) (hk : q + k < 65536) : h.unmapPages k = { h with
    uvpt := fun p => if q ≤ p ∧ p ≤ q + k then 0 else h.uvpt p } := by
  induction k generalizing h with
  | zero =>
    rw [unmapPages, sysPageUnmap, hq, if_neg (addr_not_badVa (by omega)), pgnum_addr (by omega)]
    congr 1
    funext p
    by_cases hp : p = q
    · subst hp
      rw [update_self, if_pos ⟨le_rfl, le_rfl⟩]
    · rw [update_of_ne hp, if_neg (by omega)]
  | succ k ih =>
    rw [unmapPages, sysPageUnmap, hq, addr_add, if_neg (addr_not_badVa (by omega)),
      pgnum_addr (by omega)]
    rw [ih rfl (by omega)]
    congr 1
    funext p
    by_cases hp : p = q + (k + 1)
    · subst hp
      simp only [update_self]
      rw [if_neg (by omega), if_pos (by omega)]
    · simp only [update_of_ne hp]
      congr 1
      apply propext
      omega

theorem sysPageAlloc_addr (hp : p < 65536) :
    h.sysPageAlloc (addr p) (runEntry n k) true = some { h with
      uvpt := update h.uvpt p (runEntry n k)
      ref := update h.ref p 0 } := by
  have hperm : ¬ badPerm (runEntry n k) := by
    rw [runEntry]
    split <;> decide
  unfold sysPageAlloc
  rw [pageCall_succeeds (by simpa using addr_not_badVa hp) hperm, pgnum_addr (by omega)]

theorem sysPageAlloc_none {va perm : Word} : h.sysPageAlloc va perm false = none := by
  unfold sysPageAlloc pageCall
  split_ifs <;> rfl

theorem allocPages_spec (mem : Nat → Bool) (n : Word) (hq : h.mptr = addr q)
    (hk : q + k + left ≤ 65536) :
    ∃ h', h'.mptr = h.mptr ∧ (∀ p, ¬ (q + k ≤ p ∧ p < q + k + left) → h'.ref p = h.ref p) ∧
      (allocPages mem n left k h = (true, h') ∧
          (∀ p, h'.uvpt p = if q + k ≤ p ∧ p < q + k + left then runEntry n (p - q) else h.uvpt p) ∨
        allocPages mem n left k h = (false, h') ∧
          ∀ p, h'.uvpt p = 0 ∧ q ≤ p ∧ p < q + k + left ∨
            h'.uvpt p = h.uvpt p ∧ ¬ (q ≤ p ∧ p < q + k)) := by
  induction left generalizing k h with
  | zero =>
    refine ⟨h, rfl, fun _ _ => rfl, .inl ⟨rfl, fun p => ?_⟩⟩
    rw [if_neg (by omega)]
  | succ left ih =>
    have hva : h.mptr + BitVec.ofNat 32 k * pgsize = addr (q + k) := by rw [hq, addr_add]
    rw [allocPages, hva]
    by_cases hmem : mem k = true
    · rw [hmem, sysPageAlloc_addr (by omega)]
      dsimp only
      let h1 : Heap := { h with
        uvpt := update h.uvpt (q + k) (runEntry n k)
        ref := update h.ref (q + k) 0 }
      obtain ⟨h', hmptr, href, hres⟩ := ih (h := h1) (k := k + 1) hq (by omega)
      refine ⟨h', hmptr, fun p hp => ?_, ?_⟩
      · rw [href p (by omega)]
        exact update_of_ne (by omega) ..
      refine hres.imp (fun hok => ⟨hok.1, fun p => ?_⟩) fun hfail => ⟨hfail.1, fun p => ?_⟩
      · rw [hok.2 p]
        by_cases hp : p = q + k
        · subst hp
          rw [if_neg (by omega), if_pos (by omega), Nat.add_sub_cancel_left]
          exact update_self ..
        · simp only [h1, update_of_ne hp]
          exact if_congr (by omega) rfl rfl
      · rcases hfail.2 p with ⟨hzero, hlo, hhi⟩ | ⟨hsame, hout⟩
        · exact .inl ⟨hzero, hlo, by omega⟩
        · refine .inr ⟨?_, by omega⟩
          rw [hsame]
          exact update_of_ne (by omega) ..
    · rw [eq_false_of_ne_true hmem, sysPageAlloc_none]
      dsimp only
      rw [unmapPages_spec hq (by omega)]
      refine ⟨{ h with uvpt := fun p => if q ≤ p ∧ p ≤ q + k then 0 else h.uvpt p }, rfl,
        fun _ _ => rfl, .inr ⟨rfl, fun p => ?_⟩⟩
      by_cases hp : q ≤ p ∧ p ≤ q + k
      · exact .inl ⟨if_pos hp, hp.1, by omega⟩
      · exact .inr ⟨if_neg hp, by omega⟩

end Heap

namespace Block

def mark (p : Nat) : Block := ⟨addr p, 0⟩

def Cont (b : Block) (p : Nat) : Prop := b.first ≤ p ∧ p < b.last

def Holds (b : Block) (x : Nat) : Prop := b.v.toNat ≤ x ∧ x < b.v.toNat + b.size

def Apart (b c : Block) : Prop :=
  (∀ x, b.Holds x → ¬ c.Holds x) ∧ ∀ p, b.Cont p → ¬ c.Cont p

structure Stored (h : Heap) (b : Block) : Prop where
  inside : 32768 ≤ b.first ∧ b.last < 65536
  cont : ∀ p, b.Cont p → h.uvpt p = userPage ||| pteContinued
  tail : h.uvpt b.last = userPage

variable {b c : Block} {p x : Nat}

theorem Apart.symm (h : b.Apart c) : c.Apart b :=
  ⟨fun x hc hb => h.1 x hb hc, fun p hc hb => h.2 p hb hc⟩

theorem first_le_last (b : Block) : b.first ≤ b.last :=
  Nat.div_le_div_right (by omega)

theorem Stored.of_agree {h h' : Heap} (hb : b.Stored h)
    (hsame : ∀ p, b.first ≤ p ∧ p ≤ b.last → h'.uvpt p = h.uvpt p) : b.Stored h' :=
  ⟨hb.inside, fun p hp => (hsame p ⟨hp.1, hp.2.le⟩).trans (hb.cont p hp),
    (hsame _ ⟨b.first_le_last, le_rfl⟩).trans hb.tail⟩

theorem Holds.page (h : b.Holds x) : b.first ≤ x / 4096 ∧ x / 4096 ≤ b.last := by
  obtain ⟨hlo, hhi⟩ := h
  exact ⟨Nat.div_le_div_right hlo, Nat.div_le_div_right (by omega)⟩

@[simp] theorem size_mark (p : Nat) : (mark p).size = 0 := by
  change (roundup4 0).toNat = 0
  decide

theorem first_mark (hp : p < 65536) : (mark p).first = p := by
  rw [first, mark, toNat_addr (by omega)]
  omega

theorem last_mark (hp : p < 65536) : (mark p).last = p := by
  rw [last, size_mark, mark, toNat_addr (by omega)]
  omega

theorem not_cont_mark (hp : p < 65536) (q : Nat) : ¬ (mark p).Cont q := by
  rw [Cont, first_mark hp, last_mark hp]
  omega

theorem mark_apart (hp : p < 65536) (b : Block) : (mark p).Apart b := by
  refine ⟨fun x hx => ?_, fun q hq => absurd hq (not_cont_mark hp q)⟩
  rw [Holds, size_mark] at hx
  omega

end Block

def Own (refs : List Block) (p : Nat) : Prop := ∃ b ∈ refs, b.first ≤ p ∧ p ≤ b.last

def refsTo (refs : List Block) (p : Nat) : Nat := refs.countP fun b => b.last = p

/-- The pages of the arena are those of `refs`, apart from the `foreign` ones, which the
allocator has found mapped. -/
structure Pages (foreign : Nat → Prop) (refs : List Block) (h : Heap) : Prop where
  stored : ∀ b ∈ refs, b.Stored h
  own : ∀ p, Arena p → h.uvpt p &&& pteP ≠ 0 → foreign p ∨ Own refs p
  kept : ∀ p, foreign p → h.uvpt p &&& pteP ≠ 0 ∧ ¬ Own refs p
  count : ∀ b ∈ refs, (h.ref b.last).toNat = refsTo refs b.last
  apart : refs.Pairwise Block.Apart

variable {refs : List Block} {b : Block} {p : Nat}

theorem own_last (hb : b ∈ refs) : Own refs b.last :=
  ⟨b, hb, b.first_le_last, le_rfl⟩

theorem Own.cons (h : Own refs p) : Own (b :: refs) p := by
  obtain ⟨c, hc, hp⟩ := h
  exact ⟨c, List.mem_cons_of_mem b hc, hp⟩

theorem own_cons : Own (b :: refs) p ↔ (b.first ≤ p ∧ p ≤ b.last) ∨ Own refs p := by
  simp [Own]

theorem refsTo_cons (refs : List Block) (b : Block) (p : Nat) :
    refsTo (b :: refs) p = refsTo refs p + if b.last = p then 1 else 0 := by
  simp [refsTo, List.countP_cons]

theorem refsTo_pos : 0 < refsTo refs p ↔ ∃ b ∈ refs, b.last = p := by
  simp [refsTo, List.countP_pos_iff]

namespace Pages

variable {foreign : Nat → Prop} {h h' : Heap} {c : Block}

section

variable (hpages : Pages foreign refs h)
include hpages

theorem perm {refs' : List Block} (hperm : refs.Perm refs') : Pages foreign refs' h where
  stored b hb := hpages.stored b (hperm.mem_iff.mpr hb)
  own p hp hpresent := (hpages.own p hp hpresent).imp_right fun ⟨b, hb, hin⟩ =>
    ⟨b, hperm.mem_iff.mp hb, hin⟩
  kept p hp := (hpages.kept p hp).imp_right fun hnot ⟨b, hb, hin⟩ =>
    hnot ⟨b, hperm.mem_iff.mpr hb, hin⟩
  count b hb := (hpages.count b (hperm.mem_iff.mpr hb)).trans (hperm.countP_eq _)
  apart := hperm.pairwise hpages.apart Block.Apart.symm

theorem mapped (hown : Own refs p) : h.uvpt p &&& pteP ≠ 0 := by
  obtain ⟨b, hb, hlo, hhi⟩ := hown
  rcases hhi.lt_or_eq with hlt | rfl
  · rw [(hpages.stored b hb).cont p ⟨hlo, hlt⟩]
    decide
  · rw [(hpages.stored b hb).tail]
    decide

theorem not_cont_last (hb : b ∈ refs) (hc : c ∈ refs) : ¬ b.Cont c.last := by
  intro hcont
  have hentry := (hpages.stored b hb).cont _ hcont
  rw [(hpages.stored c hc).tail] at hentry
  exact absurd hentry (by decide)

theorem of_agree (hsame : ∀ p, h.uvpt p &&& pteP ≠ 0 → h'.uvpt p = h.uvpt p ∧ h'.ref p = h.ref p)
    (hnew : ∀ p, h'.uvpt p &&& pteP ≠ 0 → h.uvpt p &&& pteP ≠ 0) : Pages foreign refs h' where
  stored b hb := (hpages.stored b hb).of_agree fun p hp => (hsame p (hpages.mapped ⟨b, hb, hp⟩)).1
  own p hp hpresent := hpages.own p hp (hnew p hpresent)
  kept p hp := by
    obtain ⟨hpresent, hnot⟩ := hpages.kept p hp
    exact ⟨by rwa [(hsame p hpresent).1], hnot⟩
  count b hb := by
    rw [(hsame _ (hpages.mapped (own_last hb))).2, hpages.count b hb]
  apart := hpages.apart

end

theorem free {v : Word} (hpages : Pages foreign (b :: refs) h) (hv : pgnum v = b.first) :
    ∃ h', h.free v = some h' ∧ h'.mptr = h.mptr ∧ Pages foreign refs h' := by
  have hmem : b ∈ b :: refs := List.mem_cons_self
  obtain ⟨⟨hlo, hhi⟩, hcont, htail⟩ := hpages.stored b hmem
  have hcount := hpages.count b hmem
  rw [refsTo_cons, if_pos rfl] at hcount
  have hone : h.ref b.last = 1 ↔ ¬ ∃ c ∈ refs, c.last = b.last := by
    rw [← refsTo_pos, ← BitVec.toNat_inj, hcount]
    change _ = 1 ↔ _
    omega
  refine ⟨_, Heap.free_spec hv (fun p hlo hlt => ?_) htail b.first_le_last hlo hhi, rfl, ?_⟩
  · rw [hcont p ⟨hlo, hlt⟩]
    decide
  have hkeep : ∀ p, ¬ b.Cont p → ¬ (p = b.last ∧ h.ref b.last = 1) →
      (if b.first ≤ p ∧ p < b.last then 0
        else if p = b.last ∧ h.ref b.last = 1 then 0 else h.uvpt p) = h.uvpt p := by
    intro p hcont hlast
    rw [if_neg (show ¬ (b.first ≤ p ∧ p < b.last) from hcont), if_neg hlast]
  have hlive : ∀ c ∈ refs, ¬ (c.last = b.last ∧ h.ref b.last = 1) := by
    rintro c hc ⟨heq, href⟩
    exact hone.mp href ⟨c, hc, heq⟩
  constructor
  case stored =>
    intro c hc
    have hc' := List.mem_cons_of_mem b hc
    obtain ⟨hin, hcont', htail'⟩ := hpages.stored c hc'
    have hnot := hpages.not_cont_last hmem hc'
    refine ⟨hin, fun p hp => (hkeep p (fun hbp => ?_) ?_).trans (hcont' p hp),
      (hkeep _ hnot (hlive c hc)).trans htail'⟩
    · exact ((List.pairwise_cons.mp hpages.apart).1 c hc).2 p hbp hp
    · rintro ⟨rfl, -⟩
      exact hpages.not_cont_last hc' hmem hp
  case own =>
    intro p hp hpresent
    dsimp only at hpresent
    split at hpresent
    · exact absurd rfl hpresent
    rename_i hcont
    split at hpresent
    · exact absurd rfl hpresent
    rename_i hlast
    refine (hpages.own p hp hpresent).imp_right fun hown => ?_
    rcases own_cons.mp hown with ⟨hge, hle⟩ | hown
    · obtain rfl : p = b.last := by omega
      obtain ⟨c, hc, heq⟩ : ∃ c ∈ refs, c.last = b.last := by
        by_contra hnone
        exact hlast ⟨rfl, hone.mpr hnone⟩
      rw [← heq]
      exact own_last hc
    · exact hown
  case kept =>
    intro p hp
    obtain ⟨hpresent, hnot⟩ := hpages.kept p hp
    rw [own_cons, not_or] at hnot
    refine ⟨?_, hnot.2⟩
    have hlast : p ≠ b.last := by
      rintro rfl
      exact hnot.1 ⟨b.first_le_last, le_rfl⟩
    dsimp only
    rwa [hkeep p (fun hcont => hnot.1 ⟨hcont.1, hcont.2.le⟩) fun heq => hlast heq.1]
  case count =>
    intro c hc
    have hold := hpages.count c (List.mem_cons_of_mem b hc)
    rw [refsTo_cons] at hold
    change (update h.ref b.last (h.ref b.last - 1) c.last).toNat = _
    by_cases heq : c.last = b.last
    · rw [if_pos heq.symm, heq] at hold
      have hsub : (h.ref b.last - 1).toNat = refsTo refs b.last := by
        rw [BitVec.toNat_sub_of_le]
        · rw [hold]
          rfl
        · rw [BitVec.le_def, hold]
          change 1 ≤ _
          omega
      rw [heq, update_self, hsub]
    · rw [if_neg (Ne.symm heq)] at hold
      rw [update_of_ne heq, hold, Nat.add_zero]
  case apart => exact (List.pairwise_cons.mp hpages.apart).2

theorem share (hpages : Pages foreign refs h) (hb : b ∈ refs) (hfirst : c.first = b.last)
    (hlast : c.last = b.last) (hbytes : ∀ d ∈ refs, ∀ x, c.Holds x → ¬ d.Holds x)
    (hfew : refsTo refs b.last + 1 < 2 ^ 32) (m : Word) : Pages foreign (c :: refs) { h with
      mptr := m, ref := update h.ref b.last (h.ref b.last + 1) } where
  stored := by
    obtain ⟨⟨hlo, hhi⟩, -, htail⟩ := hpages.stored b hb
    have hle := b.first_le_last
    have hnone : ∀ p, ¬ c.Cont p := fun p => by rw [Block.Cont]; omega
    refine List.forall_mem_cons.mpr ⟨⟨by omega, fun p hp => absurd hp (hnone p), ?_⟩,
      fun d hd => (hpages.stored d hd).of_agree fun _ _ => rfl⟩
    rw [hlast]
    exact htail
  own p hp hpresent := (hpages.own p hp hpresent).imp_right Own.cons
  kept p hp := by
    obtain ⟨hpresent, hnot⟩ := hpages.kept p hp
    refine ⟨hpresent, fun hown => ?_⟩
    rcases own_cons.mp hown with hin | hown
    · obtain rfl : p = b.last := by omega
      exact hnot (own_last hb)
    · exact hnot hown
  count d hd := by
    change (update h.ref b.last (h.ref b.last + 1) d.last).toNat = _
    rw [refsTo_cons, hlast]
    by_cases heq : d.last = b.last
    · rw [if_pos heq.symm, heq, update_self, BitVec.toNat_add, hpages.count b hb]
      exact Nat.mod_eq_of_lt hfew
    · rw [if_neg (Ne.symm heq), update_of_ne heq, Nat.add_zero]
      rcases List.mem_cons.mp hd with rfl | hd
      · exact absurd hlast heq
      · exact hpages.count d hd
  apart := List.pairwise_cons.mpr ⟨fun d hd => ⟨hbytes d hd, fun p hp =>
    absurd hp (by rw [Block.Cont]; omega)⟩, hpages.apart⟩

theorem fresh (hpages : Pages foreign refs h) (hlo : 32768 ≤ c.first) (hhi : c.last < 65536)
    (hfree : ∀ p, c.first ≤ p → p ≤ c.last → h.uvpt p &&& pteP = 0)
    (hin : ∀ p, c.Cont p → h'.uvpt p = userPage ||| pteContinued)
    (hlast : h'.uvpt c.last = userPage)
    (hout : ∀ p, ¬ (c.first ≤ p ∧ p ≤ c.last) → h'.uvpt p = h.uvpt p ∧ h'.ref p = h.ref p)
    (href : h'.ref c.last = 2) : Pages foreign (Block.mark c.last :: c :: refs) h' := by
  have hnot : ∀ p, Own refs p → ¬ (c.first ≤ p ∧ p ≤ c.last) :=
    fun p hown hp => hpages.mapped hown (hfree p hp.1 hp.2)
  have hnone : refsTo refs c.last = 0 := by
    by_contra hpos
    obtain ⟨b, hb, heq⟩ := refsTo_pos.mp (Nat.pos_of_ne_zero hpos)
    exact hnot _ (own_last hb) ⟨heq ▸ c.first_le_last, heq.le⟩
  have htwo : (h'.ref c.last).toNat = refsTo (Block.mark c.last :: c :: refs) c.last := by
    rw [refsTo_cons, refsTo_cons, Block.last_mark hhi, if_pos rfl, hnone, href]
    rfl
  have hmark : ∀ p, (Block.mark c.last).first ≤ p ∧ p ≤ (Block.mark c.last).last ↔ p = c.last := by
    intro p
    rw [Block.first_mark hhi, Block.last_mark hhi]
    omega
  have hfirst := c.first_le_last
  constructor
  case stored =>
    refine List.forall_mem_cons.mpr ⟨⟨?_, fun p hp => absurd hp (Block.not_cont_mark hhi p), ?_⟩,
      List.forall_mem_cons.mpr ⟨⟨⟨hlo, hhi⟩, hin, hlast⟩, fun b hb => ?_⟩⟩
    · rw [Block.first_mark hhi, Block.last_mark hhi]
      omega
    · rwa [Block.last_mark hhi]
    · exact (hpages.stored b hb).of_agree fun p hp => (hout p (hnot p ⟨b, hb, hp⟩)).1
  case own =>
    intro p hp hpresent
    by_cases hrun : c.first ≤ p ∧ p ≤ c.last
    · exact .inr (own_cons.mpr (.inr (own_cons.mpr (.inl hrun))))
    · rw [(hout p hrun).1] at hpresent
      exact (hpages.own p hp hpresent).imp_right fun hown => hown.cons.cons
  case kept =>
    intro p hp
    obtain ⟨hpresent, hown⟩ := hpages.kept p hp
    have hrun : ¬ (c.first ≤ p ∧ p ≤ c.last) := fun hrun => hpresent (hfree p hrun.1 hrun.2)
    refine ⟨by rwa [(hout p hrun).1], ?_⟩
    rw [own_cons, own_cons, hmark]
    rintro (rfl | hin | hin)
    · exact hrun ⟨hfirst, le_rfl⟩
    · exact hrun hin
    · exact hown hin
  case count =>
    refine List.forall_mem_cons.mpr ⟨by rw [Block.last_mark hhi, htwo],
      List.forall_mem_cons.mpr ⟨htwo, fun b hb => ?_⟩⟩
    have hne : c.last ≠ b.last := fun heq => hnot _ (own_last hb) ⟨heq ▸ hfirst, heq.ge⟩
    rw [(hout _ (hnot _ (own_last hb))).2, hpages.count b hb, refsTo_cons, refsTo_cons,
      Block.last_mark hhi, if_neg hne, Nat.add_zero]
  case apart =>
    refine List.pairwise_cons.mpr ⟨fun b _ => Block.mark_apart hhi b,
      List.pairwise_cons.mpr ⟨fun b hb => ⟨fun x hc hx => ?_, fun p hc hp => ?_⟩, hpages.apart⟩⟩
    · exact hnot _ ⟨b, hb, hx.page⟩ hc.page
    · exact hnot p ⟨b, hb, hp.1, hp.2.le⟩ ⟨hc.1, hc.2.le⟩

end Pages

end Mit6828.Lib.Malloc
