import Mathlib.Data.BitVec

namespace Mit6828.Kern.Mmu

/-- A 32-bit machine word: `uint32_t`, `int`, a pointer, a page table entry. -/
abbrev Word := BitVec 32

abbrev Byte := BitVec 8

def pgnum (la : Word) : Nat := (la >>> 12).toNat

def pdx (la : Word) : Nat := ((la >>> 22) &&& 0x3FF).toNat

def ptx (la : Word) : Nat := ((la >>> 12) &&& 0x3FF).toNat

def pgoff (la : Word) : Word := la &&& 0xFFF

def pgaddr (d t o : Nat) : Word :=
  (BitVec.ofNat 32 d <<< 22) ||| (BitVec.ofNat 32 t <<< 12) ||| BitVec.ofNat 32 o

def npdentries : Nat := 1024
def nptentries : Nat := 1024
def pgsize : Word := 4096

def pteP : Word := 0x001
def pteW : Word := 0x002
def pteU : Word := 0x004
def ptePwt : Word := 0x008
def ptePcd : Word := 0x010
def pteAvail : Word := 0xE00

def pteSyscall : Word := pteAvail ||| pteP ||| pteW ||| pteU

def pteAddr (pte : Word) : Word := pte &&& ~~~0xFFF

/-- The flag bits of an entry, the complement of `pteAddr`. -/
def pteFlags (pte : Word) : Word := pte &&& 0xFFF

def kernbase : Word := 0xF0000000
def mmiolim : Word := 0xEFC00000
def mmiobase : Word := 0xEF800000
def ulim : Word := mmiobase
def uvpt : Word := 0xEF400000
def upages : Word := 0xEF000000
def uenvs : Word := 0xEEC00000
def utop : Word := uenvs
def uxstacktop : Word := utop
def ustacktop : Word := 0xEEBFE000

/-- `MPENTRY_PADDR / PGSIZE`: the page that holds the start-up code of the other CPUs. -/
def mpentryPage : Nat := 7

/-- `PDX(UTOP)`: the first page directory index above the user part. -/
def pdxUtop : Nat := 955

/-- `PDX(UVPT)`: the entry through which a page directory maps itself. -/
def pdxUvpt : Nat := 957

attribute [grind unfold] npdentries nptentries pgsize mmiobase ulim upages uenvs utop uxstacktop
  mpentryPage pdxUtop pdxUvpt

theorem pdx_uvpt : pdx uvpt = pdxUvpt := by decide

def rounddown (a : Word) : Word := a - a % pgsize

def roundup (a : Word) : Word := rounddown (a + pgsize - 1)

def eBadEnv : Word := 2
def eInval : Word := 3
def eNoMem : Word := 4
def eNoFreeEnv : Word := 5
def eFault : Word := 6
def eIpcNotRecv : Word := 7

/-- The test `r < 0` on a value of type `int`. -/
def isNeg (r : Word) : Prop := r.toInt < 0
deriving Decidable

/-- `page2pa(pp)`, for the page with number `pp`. -/
def page2pa (pp : Nat) : Word := BitVec.ofNat 32 pp <<< 12

/-- What an entry says: nothing if it is not present, otherwise the page it points to
and its flag bits. -/
def pteRef (w : Word) : Option (Nat × Word) :=
  if w &&& pteP ≠ 0 then some (pgnum w, pteFlags w) else none

@[grind =]
theorem pgnum_eq (la : Word) : pgnum la = la.toNat / 4096 := by
  rw [pgnum, BitVec.toNat_ushiftRight, Nat.shiftRight_eq_div_pow]

@[grind =]
theorem pdx_eq (la : Word) : pdx la = la.toNat / 4194304 := by
  have hlt : la.toNat / 2 ^ 22 < 2 ^ 10 := by
    have := la.isLt
    omega
  rw [pdx, BitVec.toNat_and, BitVec.toNat_ushiftRight, Nat.shiftRight_eq_div_pow,
    show (0x3FF : Word).toNat = 2 ^ 10 - 1 from rfl, Nat.and_two_pow_sub_one_eq_mod,
    Nat.mod_eq_of_lt hlt]
  rfl

@[grind =]
theorem ptx_eq (la : Word) : ptx la = la.toNat / 4096 % 1024 := by
  rw [ptx, BitVec.toNat_and, BitVec.toNat_ushiftRight, Nat.shiftRight_eq_div_pow,
    show (0x3FF : Word).toNat = 2 ^ 10 - 1 from rfl, Nat.and_two_pow_sub_one_eq_mod]

theorem ptx_lt (la : Word) : ptx la < 1024 := by
  grind

theorem pgnum_eq_pdx_ptx (la : Word) : pgnum la = pdx la * 1024 + ptx la := by
  grind

variable {p d t : Nat} {va perm w f a mask : Word}

theorem toNat_pgaddr (hd : d < 1024) (ht : t < 1024) :
    (pgaddr d t 0).toNat = d * 4194304 + t * 4096 := by
  have hdn : (BitVec.ofNat 32 d <<< 22).toNat = d <<< 22 := by
    rw [BitVec.toNat_shiftLeft, BitVec.toNat_ofNat, Nat.shiftLeft_eq, Nat.shiftLeft_eq]
    omega
  have htn : (BitVec.ofNat 32 t <<< 12).toNat = t * 4096 := by
    rw [BitVec.toNat_shiftLeft, BitVec.toNat_ofNat, Nat.shiftLeft_eq]
    omega
  rw [pgaddr, BitVec.toNat_or, BitVec.toNat_or, hdn, htn,
    show (BitVec.ofNat 32 0).toNat = 0 from rfl, Nat.or_zero,
    ← Nat.shiftLeft_add_eq_or_of_lt (i := 22) (by omega), Nat.shiftLeft_eq]

theorem pdx_pgaddr (hd : d < 1024) (ht : t < 1024) : pdx (pgaddr d t 0) = d := by
  rw [pdx_eq, toNat_pgaddr hd ht]
  omega

theorem ptx_pgaddr (hd : d < 1024) (ht : t < 1024) : ptx (pgaddr d t 0) = t := by
  rw [ptx_eq, toNat_pgaddr hd ht]
  omega

theorem pdx_lt_pdxUtop (h : va < utop) : pdx va < pdxUtop := by
  have hlt : va.toNat < utop.toNat := h
  grind

theorem pteFlags_toNat (w : Word) : (pteFlags w).toNat = w.toNat % 4096 := by
  rw [pteFlags, BitVec.toNat_and, show (0xFFF : Word).toNat = 2 ^ 12 - 1 from rfl,
    Nat.and_two_pow_sub_one_eq_mod]

theorem and_pteP_eq (w : Word) : w &&& pteP = BitVec.ofNat 32 (w.toNat % 2) := by
  apply BitVec.eq_of_toNat_eq
  rw [BitVec.toNat_and, show pteP.toNat = 2 ^ 1 - 1 from rfl,
    Nat.and_two_pow_sub_one_eq_mod, BitVec.toNat_ofNat]
  omega

theorem and_pteP_ne_zero_iff (w : Word) : w &&& pteP ≠ 0 ↔ w.toNat % 2 = 1 := by
  rw [and_pteP_eq]
  rcases Nat.mod_two_eq_zero_or_one w.toNat with h | h <;> simp [h]

theorem toNat_or_pteP_lt (h : perm.toNat < 4096) : (perm ||| pteP).toNat < 4096 := by
  rw [BitVec.toNat_or]
  exact Nat.or_lt_two_pow (n := 12) h (by decide)

theorem or_pteP_mod_two (perm : Word) : (perm ||| pteP).toNat % 2 = 1 := by
  rw [← and_pteP_ne_zero_iff]
  intro h
  have hbit := congrArg (fun w : Word => w.getLsbD 0) h
  simp [pteP] at hbit

theorem or_and_eq_zero_iff {x y : Word} :
    (x ||| y) &&& mask = 0 ↔ x &&& mask = 0 ∧ y &&& mask = 0 := by
  rw [BitVec.and_comm, BitVec.and_or_distrib_left, BitVec.and_comm mask, BitVec.and_comm mask]
  exact BitVec.or_eq_zero_iff

theorem and_ne_zero_of_getLsbD (i : Nat) (hw : w.getLsbD i = true)
    (hmask : mask.getLsbD i = true) : w &&& mask ≠ 0 := by
  intro h
  have hbit := congrArg (fun x : Word => x.getLsbD i) h
  simp [hw, hmask] at hbit

theorem mod_pgsize_eq_zero_iff : a % pgsize = 0 ↔ a.toNat % 4096 = 0 := by
  rw [← BitVec.toNat_inj, BitVec.toNat_umod]
  rfl

@[grind =]
theorem toNat_rounddown (a : Word) : (rounddown a).toNat = a.toNat / 4096 * 4096 := by
  have hmod : (a % pgsize).toNat = a.toNat % 4096 := BitVec.toNat_umod
  rw [rounddown, BitVec.toNat_sub, hmod]
  omega

theorem toNat_roundup (h : a.toNat + 4095 < 2 ^ 32) :
    (roundup a).toNat = (a.toNat + 4095) / 4096 * 4096 := by
  have hsum : (a + pgsize - 1).toNat = a.toNat + 4095 := by grind
  rw [roundup, toNat_rounddown, hsum]

/-- The number of pages that a loop over a range goes through. -/
theorem pageCount {len : Word} (h : va.toNat + len.toNat + 4095 < 2 ^ 32) :
    (if rounddown va < roundup (va + len) then
      ((roundup (va + len) - rounddown va) / pgsize).toNat else 0) =
      (va.toNat + len.toNat + 4095) / 4096 - va.toNat / 4096 := by
  have hsum : (va + len).toNat = va.toNat + len.toNat := BitVec.toNat_add_of_lt (by omega)
  have hend := toNat_roundup (a := va + len) (by omega)
  by_cases hlt : rounddown va < roundup (va + len)
  · rw [if_pos hlt, BitVec.toNat_udiv, BitVec.toNat_sub_of_le (BitVec.le_of_lt hlt),
      toNat_rounddown, hend, hsum, show pgsize.toNat = 4096 from rfl]
    omega
  · rw [if_neg hlt]
    rw [BitVec.lt_def, toNat_rounddown, hend, hsum] at hlt
    omega

theorem toNat_page2pa_or (hp : p < 1048576) (hf : f.toNat < 4096) :
    (page2pa p ||| f).toNat = p * 4096 + f.toNat := by
  have hpa : (page2pa p).toNat = p <<< 12 := by
    rw [page2pa, BitVec.toNat_shiftLeft, BitVec.toNat_ofNat, Nat.shiftLeft_eq, Nat.shiftLeft_eq]
    omega
  rw [BitVec.toNat_or, hpa, ← Nat.shiftLeft_add_eq_or_of_lt (i := 12) hf, Nat.shiftLeft_eq]

theorem pgnum_page2pa_or (hp : p < 1048576) (hf : f.toNat < 4096) :
    pgnum (page2pa p ||| f) = p := by
  rw [pgnum_eq, toNat_page2pa_or hp hf]
  omega

theorem pteFlags_page2pa_or (hp : p < 1048576) (hf : f.toNat < 4096) :
    pteFlags (page2pa p ||| f) = f := by
  apply BitVec.eq_of_toNat_eq
  rw [pteFlags_toNat, toNat_page2pa_or hp hf]
  omega

theorem page2pa_and_eq_zero (h : mask.toNat < 4096) (p : Nat) : page2pa p &&& mask = 0 := by
  apply BitVec.eq_of_getLsbD_eq
  intro i hi
  rw [BitVec.getLsbD_and, page2pa, BitVec.getLsbD_shiftLeft]
  by_cases hlt : i < 12
  · simp [hlt]
  · have hbit : mask.getLsbD i = false := by
      refine Nat.testBit_lt_two_pow (lt_of_lt_of_le h ?_)
      exact Nat.pow_le_pow_right (n := 2) (by decide) (Nat.not_lt.mp hlt)
    simp [hbit]

theorem pteAddr_eq (w : Word) : pteAddr w = page2pa (pgnum w) := by
  have hmask : ∀ i < 32, (~~~0xFFF : Word).getLsbD i = !decide (i < 12) := by decide
  have hpage : page2pa (pgnum w) = w >>> 12 <<< 12 := by
    rw [page2pa, pgnum, BitVec.ofNat_toNat, BitVec.setWidth_eq]
  rw [hpage]
  apply BitVec.eq_of_getLsbD_eq
  intro i hi
  rw [pteAddr, BitVec.getLsbD_and, hmask i hi, BitVec.getLsbD_shiftLeft, BitVec.getLsbD_ushiftRight]
  by_cases h : i < 12
  · simp [h]
  · simp [h, hi, Nat.add_sub_cancel' (Nat.not_lt.mp h)]

theorem pgnum_page2pa (hp : p < 1048576) : pgnum (page2pa p) = p := by
  have h := pgnum_page2pa_or (f := 0#32) hp (by decide)
  rwa [BitVec.or_zero] at h

theorem pgnum_lt (w : Word) : pgnum w < 1048576 := by
  have := w.isLt
  grind

theorem pgnum_pteAddr (w : Word) : pgnum (pteAddr w) = pgnum w := by
  rw [pteAddr_eq, pgnum_page2pa (pgnum_lt w)]

theorem pteAddr_eq_page2pa_iff (hp : p < 1048576) : pteAddr w = page2pa p ↔ pgnum w = p := by
  constructor
  · intro h
    rw [← pgnum_page2pa hp, ← h, pgnum_pteAddr]
  · intro h
    rw [pteAddr_eq, h]

theorem pteRef_page2pa_or (hp : p < 1048576) (hperm : perm.toNat < 4096) :
    pteRef (page2pa p ||| perm ||| pteP) = some (p, perm ||| pteP) := by
  have hlt := toNat_or_pteP_lt hperm
  rw [BitVec.or_assoc, pteRef, if_pos, pgnum_page2pa_or hp hlt, pteFlags_page2pa_or hp hlt]
  rw [and_pteP_ne_zero_iff, toNat_page2pa_or hp hlt]
  have := or_pteP_mod_two perm
  omega

@[simp] theorem pteRef_zero : pteRef 0 = none := by decide

theorem toNat_lt_of_pteSyscall (h : perm &&& ~~~pteSyscall = 0) : perm.toNat < 4096 := by
  have hmask : ∀ i < 20, (~~~pteSyscall).getLsbD (12 + i) = true := by decide
  have hshift : perm >>> 12 = 0 := by
    apply BitVec.eq_of_getLsbD_eq
    intro i hi
    have hbit : (perm &&& ~~~pteSyscall).getLsbD (12 + i) = false := by simp [h]
    rw [BitVec.getLsbD_and] at hbit
    rw [BitVec.getLsbD_ushiftRight]
    by_cases hlt : i < 20
    · simpa [hmask i hlt] using hbit
    · simp [BitVec.getLsbD_of_ge perm (12 + i) (by omega)]
  have hdiv := congrArg BitVec.toNat hshift
  rw [BitVec.toNat_ushiftRight, Nat.shiftRight_eq_div_pow] at hdiv
  have hzero : (0 : Word).toNat = 0 := rfl
  omega

end Mit6828.Kern.Mmu
