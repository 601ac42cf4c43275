import Mit6828.Kern.UserMap

namespace Mit6828.Kern.UserMemCheck

open Mmu Pmap AddressSpace Environment Separation PageTableSpec RefInvariant KernelInvariant
open PageCallSpec AddressSpaceSpec UserMap

variable {K : KernelMap} {k : Kernel} {free : List Nat} {e d n a i : Nat}
  {va len perm start : Word} {m : Mem}

/-- The test of `user_mem_check` for the page of `va`. -/
def PageOk (d : Nat) (perm : Word) (m : Mem) (va : Word) : Prop :=
  va ≤ ulim ∧ m.phys d (pdx va) &&& perm ≠ 0 ∧ m.phys d (pdx va) &&& pteP ≠ 0 ∧
    m.phys (pgnum (m.phys d (pdx va))) (ptx va) &&& perm ≠ 0
deriving Decidable

/-- The page table of `va` is in memory; otherwise `KADDR` panics in `pgdir_walk`. -/
def Walkable (d : Nat) (m : Mem) (va : Word) : Prop :=
  m.phys d (pdx va) &&& pteP ≠ 0 → pgnum (m.phys d (pdx va)) < m.npages
deriving Decidable

def Passes (d : Nat) (perm : Word) (m : Mem) (va : Word) : Prop :=
  Walkable d m va ∧ PageOk d perm m va

theorem pdx_lt_npdentries (va : Word) : pdx va < npdentries := by
  have := va.isLt
  grind

theorem userMemCheckPages_succ (va perm : Word) (n : Nat) (start : Word) :
    userMemCheckPages d va perm m (n + 1) start =
      if Walkable d m start then
        if PageOk d perm m start then userMemCheckPages d va perm m n (start + pgsize)
        else some (some (if start ≥ va then start else va))
      else none := by
  by_cases hP : m.phys d (pdx start) &&& pteP ≠ 0
  · by_cases hlt : pgnum (m.phys d (pdx start)) < m.npages
    · have hkaddr : kaddr (pteAddr (m.phys d (pdx start))) m =
          some (pgnum (m.phys d (pdx start))) := by
        rw [kaddr, pgnum_pteAddr, if_neg (by omega)]
      have hwalk : pgdirWalk d start false m =
          some (some (pgnum (m.phys d (pdx start)), ptx start), m) := by
        simp only [pgdirWalk, if_pos hP, hkaddr]
        rfl
      have htest : (start > ulim ∨ m.phys d (pdx start) &&& perm = 0 ∨
          m.word (pgnum (m.phys d (pdx start)), ptx start) &&& perm = 0) ↔
            ¬ PageOk d perm m start := by
        rw [PageOk, ← BitVec.not_lt, Mem.word]
        tauto
      have hwalkable : Walkable d m start := fun _ => hlt
      rw [if_pos hwalkable]
      simp only [userMemCheckPages, hwalk, Option.bind_eq_bind, Option.bind_some, Option.all_some,
        decide_eq_true_eq, htest, ite_not]
      rfl
    · have hkaddr : kaddr (pteAddr (m.phys d (pdx start))) m = none := by
        rw [kaddr, pgnum_pteAddr, if_pos (by omega)]
      rw [if_neg fun hwalk => hlt (hwalk hP)]
      simp only [userMemCheckPages, pgdirWalk, if_pos hP, hkaddr]
      rfl
  · have hwalkable : Walkable d m start := fun hP' => absurd hP' hP
    rw [if_pos hwalkable, if_neg fun hok => hP hok.2.2.1]
    simp only [userMemCheckPages, pgdirWalk, if_neg hP, if_true, Option.bind_eq_bind,
      Option.bind_some, Option.all_none, or_true]
    rfl

/-- The loop of `user_mem_check` succeeds if every page passes, and otherwise stops at the first
page that does not. -/
theorem userMemCheckPages_cases (d : Nat) (va perm : Word) (m : Mem) (n : Nat) (start : Word) :
    userMemCheckPages d va perm m n start = some none ∧
        (∀ i < n, Passes d perm m (start + BitVec.ofNat 32 (i * 4096))) ∨
      ∃ i < n, (∀ j < i, Passes d perm m (start + BitVec.ofNat 32 (j * 4096))) ∧
        ¬ Passes d perm m (start + BitVec.ofNat 32 (i * 4096)) ∧
        userMemCheckPages d va perm m n start =
          if Walkable d m (start + BitVec.ofNat 32 (i * 4096)) then
            some (some (if start + BitVec.ofNat 32 (i * 4096) ≥ va then
              start + BitVec.ofNat 32 (i * 4096) else va))
          else none := by
  induction n generalizing start with
  | zero => exact .inl ⟨rfl, fun i hi => absurd hi (by omega)⟩
  | succ n ih =>
    have hnext : ∀ i, start + BitVec.ofNat 32 ((i + 1) * 4096) =
        start + pgsize + BitVec.ofNat 32 (i * 4096) := fun i => by
      rw [Nat.add_mul, BitVec.ofNat_add, BitVec.add_assoc, BitVec.add_comm pgsize]
      rfl
    have hzero : start + BitVec.ofNat 32 (0 * 4096) = start := by simp
    rw [userMemCheckPages_succ]
    by_cases hpass : Passes d perm m start
    · have hcons : ∀ k, (∀ j < k, Passes d perm m (start + pgsize + BitVec.ofNat 32 (j * 4096))) →
          ∀ j < k + 1, Passes d perm m (start + BitVec.ofNat 32 (j * 4096)) := by
        intro k hall j hj
        cases j with
        | zero => rwa [hzero]
        | succ j =>
          rw [hnext]
          exact hall j (by omega)
      rw [if_pos hpass.1, if_pos hpass.2]
      rcases ih (start + pgsize) with ⟨hres, hall⟩ | ⟨i, hi, hall, hbad, hres⟩
      · exact .inl ⟨hres, hcons n hall⟩
      · refine .inr ⟨i + 1, by omega, hcons i hall, ?_⟩
        rw [hnext]
        exact ⟨hbad, hres⟩
    · refine .inr ⟨0, by omega, fun j hj => absurd hj (by omega), ?_⟩
      rw [hzero]
      refine ⟨hpass, ?_⟩
      by_cases hwalk : Walkable d m start
      · rw [if_pos hwalk, if_neg fun hok => hpass ⟨hwalk, hok⟩, if_pos hwalk]
      · rw [if_neg hwalk, if_neg hwalk]

/-- The range and the rounding of its end do not wrap around. -/
def Fits (va len : Word) : Prop := va.toNat + len.toNat + 4095 < 2 ^ 32
deriving Decidable

def Checked (d : Nat) (va len perm : Word) (m : Mem) : Prop :=
  userMemCheck d va len perm m = some none

/-- The number of pages that the loop of `user_mem_check` goes through. -/
def tested (va len : Word) : Nat :=
  if rounddown va < roundup (va + len) then
    ((roundup (va + len) - rounddown va) / pgsize).toNat else 0

theorem rounddown_add (va : Word) (i : Nat) : rounddown va + BitVec.ofNat 32 (i * 4096) =
      BitVec.ofNat 32 ((va.toNat / 4096 + i) * 4096) := by
  apply BitVec.eq_of_toNat_eq
  rw [BitVec.toNat_add, BitVec.toNat_ofNat, BitVec.toNat_ofNat, toNat_rounddown]
  omega

theorem lt_tested_iff (va len : Word) (i : Nat) : i < tested va len ↔
    va.toNat / 4096 + i < ((va.toNat + len.toNat) % 2 ^ 32 + 4095) % 2 ^ 32 / 4096 := by
  have hstart := toNat_rounddown va
  have hstop : (roundup (va + len)).toNat =
      ((va.toNat + len.toNat) % 2 ^ 32 + 4095) % 2 ^ 32 / 4096 * 4096 := by
    rw [roundup, toNat_rounddown, BitVec.toNat_sub, BitVec.toNat_add, BitVec.toNat_add,
      show pgsize.toNat = 4096 from rfl, show (1 : Word).toNat = 1 from rfl]
    omega
  rw [tested]
  split
  · rename_i hlt
    rw [BitVec.lt_def] at hlt
    rw [BitVec.toNat_udiv, BitVec.toNat_sub_of_le (BitVec.le_def.mpr hlt.le),
      show pgsize.toNat = 4096 from rfl]
    omega
  · rename_i hlt
    rw [BitVec.lt_def] at hlt
    omega

theorem pdx_rounddown (x : Word) : pdx (rounddown x) = pdx x := by
  grind

theorem ptx_rounddown (x : Word) : ptx (rounddown x) = ptx x := by
  grind

section Env

variable (h : Inv K k free) (he : e < nenv) (hd : (k.envs e).envPgdir = some d)
include h he hd

theorem pde_frame_lt (hi : i < npdentries) (hP : k.mem.phys d i &&& pteP ≠ 0) :
    pgnum (k.mem.phys d i) < k.mem.npages := by
  have hsep := h.mem.counted.separated
  have hroot := frameOf_rootOf h.env he hd
  have hview := pde_eq_view h he hd i
  have hbound : ∀ s ∈ K.layout.tracked, (world k free).view s = k.mem.phys d i →
      pgnum (k.mem.phys d i) < k.mem.npages := fun s hs hs' => by
    refine lt_of_lt_of_eq (hsep.ref_lt s hs _ ?_) hsep.npages.symm
    rw [ref_eq, hs', frameOf, if_pos hP]
  by_cases hlow : i < pdxUtop
  · exact hbound (.pde e i) (pde_tracked.mpr (.inl ⟨he, hlow⟩)) hview.symm
  by_cases hself : i = pdxUvpt
  · have hlt := h.env.pgdir_lt e he d hd
    rw [hview, hself, h.mem.shaped.self e he d hroot, BitVec.or_assoc,
      pgnum_page2pa_or (hlt.trans_le K.npages_le) (by decide)]
    exact lt_of_lt_of_eq hlt hsep.npages.symm
  · refine hbound (.pde nenv i) (pde_tracked.mpr (.inr ⟨rfl, hi, hself⟩))
      ?_
    rw [hview, h.mem.shaped.upper e he d hroot i hi (by omega) hself]
    exact h.mem.shaped.kernDir i hi hself

theorem walkable_env (va : Word) : Walkable d k.mem va :=
  fun hP => pde_frame_lt h he hd (pdx_lt_npdentries va) hP

theorem userMemCheck_fails (hnot : ¬ Checked d va len perm k.mem) :
    ∃ a, userMemCheck d va len perm k.mem = some (some a) := by
  rcases userMemCheckPages_cases d va perm k.mem (tested va len) (rounddown va) with
    ⟨hres, -⟩ | ⟨i, -, -, -, hres⟩
  · exact absurd hres hnot
  · rw [if_pos (walkable_env h he hd _)] at hres
    exact ⟨_, hres⟩

theorem checked_iff_pages (hfit : Fits va len) (hlen : 0 < len.toNat) :
    Checked d va len perm k.mem ↔
      ∀ i < len.toNat, PageOk d perm k.mem (rounddown (va + BitVec.ofNat 32 i)) := by
  have hfit' : va.toNat + len.toNat + 4095 < 4294967296 := hfit
  have hbyte : ∀ i < len.toNat, (va + BitVec.ofNat 32 i).toNat = va.toNat + i := fun i hi => by
    grind
  have hround : ∀ i < len.toNat, ∀ j, (va.toNat + i) / 4096 = va.toNat / 4096 + j →
      rounddown (va + BitVec.ofNat 32 i) = rounddown va + BitVec.ofNat 32 (j * 4096) := by
    intro i hi j hj
    apply BitVec.eq_of_toNat_eq
    grind
  rcases userMemCheckPages_cases d va perm k.mem (tested va len) (rounddown va) with
    ⟨hres, hall⟩ | ⟨j, hj, -, hbad, hres⟩
  · refine iff_of_true hres fun i hi => ?_
    rw [hround i hi ((va.toNat + i) / 4096 - va.toNat / 4096) (by omega)]
    exact (hall _ ((lt_tested_iff va len _).mpr (by omega))).2
  rw [if_pos (walkable_env h he hd _)] at hres
  refine iff_of_false (fun hcheck => ?_) fun hall => ?_
  · exact Option.some_ne_none _ (Option.mem_unique hres hcheck)
  have hlt := (lt_tested_iff va len j).mp hj
  have hi : (va.toNat / 4096 + j) * 4096 - va.toNat < len.toNat := by omega
  have hok := hall _ hi
  rw [hround _ hi j (by omega)] at hok
  exact hbad ⟨walkable_env h he hd _, hok⟩

theorem pageOk_iff_mapped (hva : va < utop) (perm : Word) :
    PageOk d (perm ||| pteU) k.mem va ↔ pteOf k e (pdx va) (ptx va) &&& pteP ≠ 0 := by
  have huser : ∀ w : Word, w &&& pteU ≠ 0 → w &&& (perm ||| pteU) ≠ 0 := fun w hw hzero => by
    rw [BitVec.and_comm, or_and_eq_zero_iff, BitVec.and_comm pteU] at hzero
    exact hw hzero.2
  have hulim : va ≤ ulim := by
    have hlt : va.toNat < utop.toNat := hva
    exact BitVec.le_def.mpr (le_trans hlt.le (by decide))
  constructor
  · rintro ⟨-, -, hP, hpte⟩
    rw [← pteOf_of_present hd hP] at hpte
    exact (isUserEntry_pteOf h he hva hpte).1
  intro hmapped
  have hP : k.mem.phys d (pdx va) &&& pteP ≠ 0 := fun habsent => by
    rw [pteOf_of_absent hd habsent] at hmapped
    exact hmapped BitVec.zero_and
  have hdir := h.mem.shaped.pde e he _ (pdx_lt_pdxUtop hva)
  rw [← pde_eq_view h he hd] at hdir
  have hdir' : IsTableEntry (k.mem.phys d (pdx va)) := hdir.resolve_left fun hzero => hP (by
    rw [hzero]
    exact BitVec.zero_and)
  have hpte := isUserEntry_pteOf h he hva hmapped
  rw [pteOf_of_present hd hP] at hpte
  exact ⟨hulim, huser _ hdir'.flags.2.2, hP, huser _ hpte.2⟩

theorem pde_tidy (hi : i < npdentries) : k.mem.phys d i = 0 ∨ k.mem.phys d i &&& pteP ≠ 0 := by
  have hroot := frameOf_rootOf h.env he hd
  rw [pde_eq_view h he hd i]
  by_cases hlow : i < pdxUtop
  · rcases h.mem.shaped.pde e he i hlow with hzero | hentry
    · exact .inl hzero
    · exact .inr hentry.flags.1
  by_cases hself : i = pdxUvpt
  · rw [hself, h.mem.shaped.self e he d hroot]
    refine .inr fun hzero => ?_
    have := (or_and_eq_zero_iff.mp (or_and_eq_zero_iff.mp hzero).1).2
    exact absurd this (by decide)
  · rw [h.mem.shaped.upper e he d hroot i hi (by omega) hself]
    exact K.dirWord_tidy i

theorem pte_tidy (va : Word) (hP : k.mem.phys d (pdx va) &&& pteP ≠ 0) :
    k.mem.phys (pgnum (k.mem.phys d (pdx va))) (ptx va) = 0 ∨
      k.mem.phys (pgnum (k.mem.phys d (pdx va))) (ptx va) &&& pteP ≠ 0 := by
  by_cases hlow : pdx va < pdxUtop
  · rw [← pteOf_of_present hd hP, pteOf_eq_view free h.env he]
    rcases h.mem.shaped.pte e he _ hlow _ (ptx_lt va) with hzero | hentry
    · exact .inl hzero
    · exact .inr hentry.1
  have hroot := frameOf_rootOf h.env he hd
  by_cases hself : pdx va = pdxUvpt
  · have hd' : pgnum (k.mem.phys d (pdx va)) = d := by
      rw [hself, pde_eq_view h he hd, h.mem.shaped.self e he d hroot, BitVec.or_assoc]
      exact pgnum_page2pa_or ((h.env.pgdir_lt e he d hd).trans_le K.npages_le) (by decide)
    rw [hd']
    exact pde_tidy h he hd (ptx_lt va)
  · rw [(entry_upper h he hd (by omega) hself hP).2]
    exact K.tableWord_tidy _ _

/-- The page of `ULIM` fails, although the check lets its address pass. -/
theorem not_pageOk_ulim : ¬ PageOk d pteU k.mem ulim := by
  rintro ⟨-, -, hP, hpte⟩
  rw [(entry_upper h he hd (by decide) (by decide) hP).2] at hpte
  exact hpte (K.tableWord_kernelOnly _ (by decide) _)

theorem pageOk_user_iff (x : Word) :
    PageOk d pteU k.mem (rounddown x) ↔ userMay d ⟨x, false⟩ k.mem := by
  have hulim : ulim.toNat = 958 * 4194304 := rfl
  have hround := toNat_rounddown x
  constructor
  · intro hok
    have hne : (rounddown x).toNat ≠ ulim.toNat := fun heq => by
      rw [BitVec.eq_of_toNat_eq heq] at hok
      exact not_pageOk_ulim h he hd hok
    obtain ⟨hle, hpde, hP, hpte⟩ := hok
    have hle' : (rounddown x).toNat ≤ ulim.toNat := hle
    rw [pdx_rounddown] at hpde hP hpte
    rw [ptx_rounddown] at hpte
    have hP' := (pte_tidy h he hd x hP).resolve_left fun hzero => hpte (by
      rw [hzero]
      exact BitVec.zero_and)
    refine ⟨?_, _, if_pos ⟨hP, hP'⟩, hpde, hpte, fun hfalse => by cases hfalse⟩
    change x.toNat < ulim.toNat
    omega
  · rintro ⟨hlt, ⟨pde, pte⟩, htr, hpde, hpte, -⟩
    obtain ⟨rfl, rfl, hP, -⟩ := translate_eq_some htr
    have hlt' : x.toNat < ulim.toNat := hlt
    refine ⟨BitVec.le_def.mpr (by omega), ?_, ?_, ?_⟩
    · rw [pdx_rounddown]
      exact hpde
    · rw [pdx_rounddown]
      exact hP
    · rw [pdx_rounddown, ptx_rounddown]
      exact hpte

theorem checked_iff_userMay (hfit : Fits va len) (hlen : 0 < len.toNat) :
    Checked d va len pteU k.mem ↔ ∀ x ∈ addrs va len.toNat, userMay d ⟨x, false⟩ k.mem := by
  rw [checked_iff_pages h he hd hfit hlen]
  constructor
  · intro hall x hx
    obtain ⟨i, hi, rfl⟩ := mem_addrs.mp hx
    exact (pageOk_user_iff h he hd _).mp (hall i hi)
  · intro hall i hi
    exact (pageOk_user_iff h he hd _).mpr (hall _ (mem_addrs.mpr ⟨i, hi, rfl⟩))

end Env

theorem fits_of_userMay {write : Bool} (hlen : 0 < len.toNat)
    (hmay : ∀ x ∈ addrs va len.toNat, userMay d ⟨x, write⟩ m) : Fits va len := by
  have hulim : ulim.toNat = 4018143232 := rfl
  have hlt : ∀ i < len.toNat, (va + BitVec.ofNat 32 i).toNat < ulim.toNat := fun i hi =>
    BitVec.lt_def.mp (hmay _ (mem_addrs.mpr ⟨i, hi, rfl⟩)).1
  have hva := hlt 0 hlen
  rw [BitVec.add_zero] at hva
  by_contra hnot
  have hover : ¬ va.toNat + len.toNat + 4095 < 4294967296 := hnot
  have hlast := hlt (ulim.toNat - va.toNat) (by omega)
  grind

section Exact

def Grants (perm w : Word) : Prop := w &&& (perm ||| pteP) = perm ||| pteP

/-- The address is below `ULIM`, and both entries of its page contain all bits of
`perm|PTE_P`. -/
def Accessible (d : Nat) (perm : Word) (m : Mem) (a : Nat) : Prop :=
  let va := BitVec.ofNat 32 a
  a < ulim.toNat ∧ Grants perm (m.phys d (pdx va)) ∧
    Grants perm (m.phys (pgnum (m.phys d (pdx va))) (ptx va))

def InRange (va len : Word) (a : Nat) : Prop := va.toNat ≤ a ∧ a < va.toNat + len.toNat

/-- What `user_mem_check` is for. -/
structure Exact (d : Nat) (va len perm : Word) (m : Mem) : Prop where
  success : userMemCheck d va len perm m = some none ↔
    ∀ a, InRange va len a → Accessible d perm m a
  failure : (¬ ∀ a, InRange va len a → Accessible d perm m a) →
    ∃ w, userMemCheck d va len perm m = some (some w) ∧
      IsLeast {a | InRange va len a ∧ ¬ Accessible d perm m a} w.toNat

/-- Page `i`, counted from that of `va`. -/
@[grind unfold]
def pageVa (va : Word) (i : Nat) : Nat := (va.toNat / 4096 + i) * 4096

/-- The loop goes as far as page `i`, with the end of the range computed in 32 bits. -/
def Looped (va len : Word) (i : Nat) : Prop :=
  va.toNat / 4096 + i < ((va.toNat + len.toNat) % 2 ^ 32 + 4095) % 2 ^ 32 / 4096

/-- The range goes as far as page `i`. -/
def Spans (va len : Word) (i : Nat) : Prop := 0 < len.toNat ∧ pageVa va i < va.toNat + len.toNat

/-- All bits of `perm|PTE_P` are in the entries of the page at `a`. -/
def Full (d : Nat) (perm : Word) (m : Mem) (a : Nat) : Prop :=
  perm ≠ 0 ∧ Accessible d perm m a ∧ pgnum (m.phys d (pdx (BitVec.ofNat 32 a))) < m.npages

/-- The page at `a` is above `ULIM`, or one of its entries has no bit of `perm`. -/
def Barred (d : Nat) (perm : Word) (m : Mem) (a : Nat) : Prop :=
  let va := BitVec.ofNat 32 a
  ¬ Accessible d perm m a ∧ Walkable d m va ∧ (va > ulim ∨ m.phys d (pdx va) &&& perm = 0 ∨
    m.phys d (pdx va) &&& pteP = 0 ∨ m.phys (pgnum (m.phys d (pdx va))) (ptx va) &&& perm = 0)

/-- The range is empty and the loop refuses no page, or all its pages are full. -/
def Clear (d : Nat) (va len perm : Word) (m : Mem) : Prop :=
  len = 0 ∧ (Looped va len 0 → Passes d perm m (BitVec.ofNat 32 (pageVa va 0))) ∨
    len ≠ 0 ∧ ∀ i, Spans va len i → Full d perm m (pageVa va i)

/-- If a page of the range is not full, the first one is barred. -/
def Sharp (d : Nat) (va len perm : Word) (m : Mem) : Prop :=
  Clear d va len perm m ∨
    ∃ i, Looped va len i ∧ Spans va len i ∧ (∀ j < i, Full d perm m (pageVa va j)) ∧
      Barred d perm m (pageVa va i)

def Refused (d : Nat) (va len perm : Word) (m : Mem) (i : Nat) : Prop :=
  Looped va len i ∧ ¬ Passes d perm m (BitVec.ofNat 32 (pageVa va i))

def Violated (d : Nat) (va len perm : Word) (m : Mem) (i : Nat) : Prop :=
  Spans va len i ∧ ¬ Accessible d perm m (pageVa va i)

theorem Grants.and_ne_zero {w mask : Word} (h : Grants perm w)
    (hmask : (perm ||| pteP) &&& mask ≠ 0) : w &&& mask ≠ 0 := by
  intro hzero
  rw [← h, BitVec.and_assoc, BitVec.and_comm _ mask, ← BitVec.and_assoc, hzero] at hmask
  exact hmask BitVec.zero_and

theorem full_iff : Full d perm m a ↔
    Accessible d perm m a ∧ Passes d perm m (BitVec.ofNat 32 a) := by
  constructor
  · rintro ⟨hperm, ⟨hlt, hpde, hpte⟩, htable⟩
    have hself : (perm ||| pteP) &&& perm ≠ 0 := fun hzero =>
      hperm (BitVec.and_self.symm.trans (or_and_eq_zero_iff.mp hzero).1)
    have hpresent : (perm ||| pteP) &&& pteP ≠ 0 := fun hzero =>
      absurd (or_and_eq_zero_iff.mp hzero).2 (by decide)
    refine ⟨⟨hlt, hpde, hpte⟩, fun _ => htable, ?_, hpde.and_ne_zero hself,
      hpde.and_ne_zero hpresent, hpte.and_ne_zero hself⟩
    rw [BitVec.le_def, BitVec.toNat_ofNat]
    exact (Nat.mod_le _ _).trans hlt.le
  · rintro ⟨hacc, hwalk, hok⟩
    refine ⟨?_, hacc, hwalk hok.2.2.1⟩
    rintro rfl
    exact hok.2.1 BitVec.and_zero

theorem barred_iff : Barred d perm m a ↔ ¬ Accessible d perm m a ∧
    Walkable d m (BitVec.ofNat 32 a) ∧ ¬ PageOk d perm m (BitVec.ofNat 32 a) := by
  simp only [Barred, PageOk, not_and_or, not_not, BitVec.not_le, gt_iff_lt, ne_eq]

theorem accessible_congr {b : Nat} (h : a / 4096 = b / 4096) :
    Accessible d perm m a ↔ Accessible d perm m b := by
  have hulim : a < ulim.toNat ↔ b < ulim.toNat := by grind
  have hpdx : pdx (BitVec.ofNat 32 a) = pdx (BitVec.ofNat 32 b) := by
    rw [pdx_eq, pdx_eq, BitVec.toNat_ofNat, BitVec.toNat_ofNat]
    omega
  have hptx : ptx (BitVec.ofNat 32 a) = ptx (BitVec.ofNat 32 b) := by
    rw [ptx_eq, ptx_eq, BitVec.toNat_ofNat, BitVec.toNat_ofNat]
    omega
  simp only [Accessible, hulim, hpdx, hptx]

theorem clear_iff : Clear d va len perm m ↔
    (∀ i, Looped va len i → Passes d perm m (BitVec.ofNat 32 (pageVa va i))) ∧
      ∀ i, Spans va len i → Accessible d perm m (pageVa va i) := by
  rw [Clear]
  by_cases hlen : len = 0
  · subst hlen
    have hfirst : ∀ i, Looped va 0 i → i = 0 := fun i hi => by grind [Looped]
    have hnone : ∀ i, ¬ Spans va 0 i := fun i hi => absurd hi.1 (by decide)
    simp only [ne_eq, not_true, true_and, or_false, hnone, false_implies, implies_true, and_true]
    exact ⟨fun h i hi => by obtain rfl := hfirst i hi; exact h hi, fun h => h 0⟩
  have hpos : 0 < len.toNat := Nat.pos_of_ne_zero fun hzero => hlen (BitVec.eq_of_toNat_eq hzero)
  simp only [hlen, false_and, ne_eq, not_false_iff, true_and, false_or]
  constructor
  · exact fun h => ⟨fun i hi => (full_iff.mp (h i ⟨hpos, by grind [Looped]⟩)).2,
      fun i hi => (full_iff.mp (h i hi)).1⟩
  · rintro ⟨hpass, hacc⟩ i hi
    -- the last page of the range is below `ULIM`, so that its end does not wrap
    have hlast := (hacc ((va.toNat + len.toNat - 1) / 4096 - va.toNat / 4096)
      ⟨hpos, by grind⟩).1
    exact full_iff.mpr ⟨hacc i hi, hpass i (by have := hi.2; grind [Looped])⟩

theorem violated_of_inRange (ha : InRange va len a) (hnot : ¬ Accessible d perm m a) :
    Violated d va len perm m (a / 4096 - va.toNat / 4096) := by
  obtain ⟨hlo, hhi⟩ := ha
  have hpage : pageVa va (a / 4096 - va.toNat / 4096) = a / 4096 * 4096 := by grind
  refine ⟨⟨by omega, by omega⟩, ?_⟩
  rwa [hpage, accessible_congr (by omega : a / 4096 * 4096 / 4096 = a / 4096)]

theorem Violated.isLeast (h : Violated d va len perm m i)
    (hfirst : ∀ j < i, ¬ Violated d va len perm m j) :
    IsLeast {a | InRange va len a ∧ ¬ Accessible d perm m a} (max (pageVa va i) va.toNat) := by
  obtain ⟨⟨hlen, hlt⟩, hnot⟩ := h
  refine ⟨⟨⟨le_max_right _ _, max_lt hlt (by omega)⟩, ?_⟩, ?_⟩
  · rwa [accessible_congr (b := pageVa va i)]
    grind
  rintro a ⟨ha, hbad⟩
  have hle : i ≤ a / 4096 - va.toNat / 4096 :=
    Nat.not_lt.mp fun hlt => hfirst _ hlt (violated_of_inRange ha hbad)
  obtain ⟨hlo, -⟩ := ha
  refine max_le ?_ hlo
  grind

theorem userMemCheck_cases (d : Nat) (va len perm : Word) (m : Mem) :
    userMemCheck d va len perm m = some none ∧ (∀ i, ¬ Refused d va len perm m i) ∨
      ∃ i, Refused d va len perm m i ∧ (∀ j < i, ¬ Refused d va len perm m j) ∧
        ((∃ w : Word, userMemCheck d va len perm m = some (some w) ∧
            w.toNat = max (pageVa va i) va.toNat) ∧ Walkable d m (BitVec.ofNat 32 (pageVa va i)) ∨
          userMemCheck d va len perm m = none ∧
            ¬ Walkable d m (BitVec.ofNat 32 (pageVa va i))) := by
  have hpage : ∀ i, rounddown va + BitVec.ofNat 32 (i * 4096) = BitVec.ofNat 32 (pageVa va i) :=
    rounddown_add va
  have hcases := userMemCheckPages_cases d va perm m (tested va len) (rounddown va)
  simp only [hpage] at hcases
  rcases hcases with ⟨hres, hall⟩ | ⟨i, hi, hall, hbad, hres⟩
  · exact .inl ⟨hres, fun i hi => hi.2 (hall i ((lt_tested_iff va len i).mpr hi.1))⟩
  refine .inr ⟨i, ⟨(lt_tested_iff va len i).mp hi, hbad⟩, fun j hj hbad => hbad.2 (hall j hj), ?_⟩
  by_cases hwalk : Walkable d m (BitVec.ofNat 32 (pageVa va i))
  · rw [if_pos hwalk] at hres
    refine .inl ⟨⟨_, hres, ?_⟩, hwalk⟩
    have hlt : pageVa va i < 2 ^ 32 := by
      have := (lt_tested_iff va len i).mp hi
      grind
    have hnat : (BitVec.ofNat 32 (pageVa va i)).toNat = pageVa va i := by
      rw [BitVec.toNat_ofNat, Nat.mod_eq_of_lt hlt]
    split
    · rename_i hge
      rw [ge_iff_le, BitVec.le_def, hnat] at hge
      rw [hnat, max_eq_left hge]
    · rename_i hge
      rw [ge_iff_le, BitVec.le_def, hnat] at hge
      rw [max_eq_right (by omega)]
  · rw [if_neg hwalk] at hres
    exact .inr ⟨hres, hwalk⟩

theorem range_cases (d : Nat) (va len perm : Word) (m : Mem) :
    (∀ a, InRange va len a → Accessible d perm m a) ∧ (∀ i, ¬ Violated d va len perm m i) ∨
      (¬ ∀ a, InRange va len a → Accessible d perm m a) ∧
        ∃ i, Violated d va len perm m i ∧ ∀ j < i, ¬ Violated d va len perm m j := by
  classical
  by_cases hsome : ∃ i, Violated d va len perm m i
  · have hfirst : ∀ j < Nat.find hsome, ¬ Violated d va len perm m j := fun j hj =>
      Nat.find_min hsome hj
    obtain ⟨hin, hbad⟩ := ((Nat.find_spec hsome).isLeast hfirst).1
    exact .inr ⟨fun hall => hbad (hall _ hin), _, Nat.find_spec hsome, hfirst⟩
  · refine .inl ⟨fun a ha => ?_, not_exists.mp hsome⟩
    by_contra hbad
    exact hsome ⟨_, violated_of_inRange ha hbad⟩

/-- Where the loop and the range part, or one bit of `perm` is not all of them, the check is
wrong. -/
theorem userMemCheck_exact_iff (d : Nat) (va len perm : Word) (m : Mem) :
    Exact d va len perm m ↔ Sharp d va len perm m := by
  rw [Sharp, clear_iff]
  rcases userMemCheck_cases d va len perm m with ⟨hres, hR⟩ | ⟨i, hR, hRfirst, hres⟩
  · rcases range_cases d va len perm m with ⟨hall, hV⟩ | ⟨hnot, i', hV, -⟩
    · refine iff_of_true ⟨iff_of_true hres hall, fun hnot => absurd hall hnot⟩
        (.inl ⟨fun i hi => ?_, fun i hi => ?_⟩)
      · exact by_contra fun hbad => hR i ⟨hi, hbad⟩
      · exact by_contra fun hbad => hV i ⟨hi, hbad⟩
    · refine iff_of_false (fun h => hnot (h.success.mp hres)) ?_
      rintro (⟨-, hall⟩ | ⟨j, hj, -, -, hbar⟩)
      · exact hV.2 (hall i' hV.1)
      · exact hR j ⟨hj, fun hpass => (barred_iff.mp hbar).2.2 hpass.2⟩
  have hne : userMemCheck d va len perm m ≠ some none := by
    rcases hres with ⟨⟨w, hw, -⟩, -⟩ | ⟨hpanic, -⟩
    · rw [hw]
      simp
    · rw [hpanic]
      simp
  rcases range_cases d va len perm m with ⟨hall, hV⟩ | ⟨hnot, i', hV, hVfirst⟩
  · refine iff_of_false (fun h => hne (h.success.mpr hall)) ?_
    rintro (⟨hpass, -⟩ | ⟨j, -, hj, -, hbar⟩)
    · exact hR.2 (hpass i hR.1)
    · exact hV j ⟨hj, hbar.1⟩
  constructor
  · intro h
    obtain ⟨w, hw, hleast⟩ := h.failure hnot
    obtain ⟨⟨w', hw', hmax⟩, hwalk⟩ := hres.resolve_right fun hpanic => by
      rw [hpanic.1] at hw
      cases hw
    obtain rfl : w' = w := by simpa [hw'] using hw
    have heq := hleast.unique (hV.isLeast hVfirst)
    rw [hmax, pageVa, pageVa] at heq
    obtain rfl : i = i' := by omega
    refine .inr ⟨i, hR.1, hV.1, fun j hj => full_iff.mpr ⟨?_, ?_⟩, barred_iff.mpr
      ⟨hV.2, hwalk, fun hok => hR.2 ⟨hwalk, hok⟩⟩⟩
    · exact by_contra fun hbad => hVfirst j hj ⟨⟨hV.1.1, by have := hV.1.2; grind⟩, hbad⟩
    · exact by_contra fun hbad => hRfirst j hj ⟨by have := hR.1; grind [Looped], hbad⟩
  · rintro (⟨-, hall⟩ | ⟨j, hlooped, hspans, hfull, hbar⟩)
    · exact absurd (hall i' hV.1) hV.2
    obtain ⟨hacc, hwalk, hok⟩ := barred_iff.mp hbar
    have hle : ¬ j < i := fun hlt => hRfirst j hlt ⟨hlooped, fun hpass => hok hpass.2⟩
    have hle' : ¬ j < i' := fun hlt => hVfirst j hlt ⟨hspans, hacc⟩
    have hge : ¬ i < j := fun hlt => hR.2 (full_iff.mp (hfull i hlt)).2
    have hge' : ¬ i' < j := fun hlt => hV.2 (full_iff.mp (hfull i' hlt)).1
    obtain rfl : i = j := by omega
    obtain rfl : i' = i := by omega
    obtain ⟨⟨w, hw, hmax⟩, -⟩ := hres.resolve_right fun hpanic => hpanic.2 hwalk
    exact ⟨iff_of_false hne hnot, fun _ => ⟨w, hw, hmax ▸ hV.isLeast hVfirst⟩⟩

/-- Page 0 is mapped read-only by the directory in page 0. -/
def readOnlyPage : Mem where
  npages := 3
  pages := fun _ => ⟨none, 1⟩
  pageFreeList := none
  phys := fun p _ => if p = 0 then page2pa 1 ||| (pteP ||| pteW ||| pteU) else
    page2pa 2 ||| (pteP ||| pteU)
  wrapped := false

/-- One of the bits `PTE_U|PTE_W` is enough for the loop. -/
theorem write_check_passes_readOnly : ¬ Exact 0 0 1 (pteU ||| pteW) readOnlyPage := by
  intro h
  have hres : userMemCheck 0 0 1 (pteU ||| pteW) readOnlyPage = some none := by decide
  obtain ⟨-, -, hpte⟩ := h.success.mp hres 0 ⟨by decide, by decide⟩
  exact absurd hpte (by unfold Grants; decide)

end Exact

end Mit6828.Kern.UserMemCheck
