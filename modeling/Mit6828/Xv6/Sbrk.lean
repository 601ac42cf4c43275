import Mit6828.Xv6.Vm

/-!
Two kernels for the memory of user processes: the one of this tree, where `sys_sbrk` only changes
`sz` and the page fault case of `trap` maps pages, and the one whose `sys_sbrk` calls `growproc`.
`kalloc` has always a page left, and hands out each page once.
-/

namespace Mit6828.Xv6.Sbrk

open Library Vm Function

inductive Design where
  | growproc
  | onFault
deriving DecidableEq

/-- Physical memory; the pages from `next` on are free. -/
structure Ram where
  mem : FlatMemory.Memory
  next : Nat

structure Proc where
  sz : Word
  pgdir : Pgdir
  killed : Bool

structure Kernel where
  ram : Ram
  procs : List Proc
  nextpid : Word

inductive Op where
  | sbrk (n : Word)
  | load (va : Word)
  | store (va : Word) (b : Byte)
  | fork
deriving DecidableEq

inductive Obs where
  | absent
  | ret (w : Word)
  | value (b : Byte)
  | stored
  | killed
deriving DecidableEq

def pgroundup (sz : Word) : Nat := (sz + 4095).toNat / 4096

def pages (sz : Word) : Nat := (sz.toNat + 4095) / 4096

/-- `kalloc`, `memset` and `mappages` for one page, as in `allocuvm` and `trap`. -/
def allocPage (r : Ram) (pgdir : Pgdir) (v : Nat) : Option (Ram × Pgdir) :=
  (mappages pgdir v 1 r.next true true).map fun pgdir =>
    (⟨FlatMemory.fill r.mem (4096 * r.next) 4096 0, r.next + 1⟩, pgdir)

def allocPages (r : Ram) (pgdir : Pgdir) (v : Nat) : Nat → Option (Ram × Pgdir)
  | 0 => some (r, pgdir)
  | n + 1 => (allocPage r pgdir v).bind fun out => allocPages out.1 out.2 (v + 1) n

def allocuvm (r : Ram) (pgdir : Pgdir) (oldsz newsz : Word) : Option (Ram × Pgdir × Word) :=
  if 4096 * kernbase ≤ newsz.toNat then some (r, pgdir, 0)
  else if newsz.toNat < oldsz.toNat then some (r, pgdir, oldsz)
  else (allocPages r pgdir (pgroundup oldsz) (pages newsz - pgroundup oldsz)).map fun out =>
    (out.1, out.2, newsz)

def kfree (r : Ram) (frame : Nat) : Ram :=
  { r with mem := FlatMemory.fill r.mem (4096 * frame) 4096 1 }

def deallocPages (r : Ram) (pgdir : Pgdir) (v : Nat) : Nat → Ram × Pgdir
  | 0 => (r, pgdir)
  | n + 1 =>
    match pgdir v with
    | none => deallocPages r pgdir (v + 1) n
    | some pte => deallocPages (kfree r pte.frame) (update pgdir v none) (v + 1) n

def deallocuvm (r : Ram) (pgdir : Pgdir) (oldsz newsz : Word) : Ram × Pgdir × Word :=
  if oldsz.toNat ≤ newsz.toNat then (r, pgdir, oldsz)
  else
    let out := deallocPages r pgdir (pgroundup newsz) (pages oldsz - pgroundup newsz)
    (out.1, out.2, newsz)

/-- The end of both cases of `growproc`: the result 0 is a failure. -/
def resize (p : Proc) (out : Ram × Pgdir × Word) : Ram × Proc × Bool :=
  if out.2.2 = 0 then (out.1, { p with pgdir := out.2.1 }, false)
  else (out.1, { p with pgdir := out.2.1, sz := out.2.2 }, true)

def growproc (r : Ram) (p : Proc) (n : Word) : Option (Ram × Proc × Bool) :=
  if 0 < n.toInt then (allocuvm r p.pgdir p.sz (p.sz + n)).map (resize p)
  else if n.toInt < 0 then some (resize p (deallocuvm r p.pgdir p.sz (p.sz + n)))
  else some (r, p, true)

def copyPages (r : Ram) (src d : Pgdir) (v : Nat) : Nat → Option (Ram × Pgdir)
  | 0 => some (r, d)
  | n + 1 =>
    match src v with
    | none => none
    | some pte =>
      (mappages d v 1 r.next pte.w pte.u).bind fun d =>
        copyPages ⟨FlatMemory.copy r.mem (4096 * r.next) (4096 * pte.frame) 4096, r.next + 1⟩
          src d (v + 1) n

def copyuvm (data : Nat) (r : Ram) (pgdir : Pgdir) (sz : Word) : Option (Ram × Pgdir) :=
  (setupkvm data).bind fun d => copyPages r pgdir d 0 (pages sz)

def sysSbrk (design : Design) (r : Ram) (p : Proc) (n : Word) : Option (Ram × Proc × Word) :=
  match design with
  | .growproc => (growproc r p n).map fun out => (out.1, out.2.1, if out.2.2 then p.sz else -1)
  | .onFault => some (r, { p with sz := p.sz + n }, p.sz)

/-- A page fault in user mode in `trap`. -/
def pageFault (design : Design) (r : Ram) (p : Proc) (va : Word) : Option (Ram × Proc) :=
  match design with
  | .growproc => some (r, { p with killed := true })
  | .onFault => (allocPage r p.pgdir (page va)).map fun out => (out.1, { p with pgdir := out.2 })

def permits (pgdir : Pgdir) (va : Word) (write : Bool) : Bool :=
  (pgdir (page va)).any fun pte => pte.u && (pte.w || !write)

/-- An access of user code up to the point where it succeeds, or the process is dead. -/
def access (design : Design) (r : Ram) (p : Proc) (va : Word) (write : Bool) :
    Option (Ram × Proc) :=
  if permits p.pgdir va write then some (r, p) else pageFault design r p va

def load (design : Design) (r : Ram) (p : Proc) (va : Word) : Option (Ram × Proc × Obs) :=
  (access design r p va false).map fun out =>
    (out.1, out.2, if out.2.killed then .killed
    else .value (Space.view ⟨out.2.pgdir, out.1.mem⟩ va))

def poke (r : Ram) (pgdir : Pgdir) (va : Word) (b : Byte) : Ram :=
  match Space.phys ⟨pgdir, r.mem⟩ va with
  | none => r
  | some pa => { r with mem := update r.mem pa b }

def store (design : Design) (r : Ram) (p : Proc) (va : Word) (b : Byte) :
    Option (Ram × Proc × Obs) :=
  (access design r p va true).map fun out =>
    if out.2.killed then (out.1, out.2, .killed) else (poke out.1 out.2.pgdir va b, out.2, .stored)

def nproc : Nat := 64

abbrev Kernel.put (k : Kernel) (i : Nat) (r : Ram) (p : Proc) : Kernel :=
  { k with ram := r, procs := k.procs.set i p }

/-- An operation of process `i`.  There is no state after a panic. -/
def step (design : Design) (data : Nat) (k : Kernel) (i : Nat) (op : Op) : Option (Kernel × Obs) :=
  match k.procs[i]? with
  | none => some (k, .absent)
  | some p =>
    if p.killed then some (k, .absent)
    else
      match op with
      | .sbrk n => (sysSbrk design k.ram p n).map fun out =>
        (k.put i out.1 out.2.1, .ret out.2.2)
      | .load va => (load design k.ram p va).map fun out =>
        (k.put i out.1 out.2.1, out.2.2)
      | .store va b => (store design k.ram p va b).map fun out =>
        (k.put i out.1 out.2.1, out.2.2)
      | .fork =>
        if nproc ≤ k.procs.length then some (k, .ret (-1))
        else (copyuvm data k.ram p.pgdir p.sz).map fun out =>
          (⟨out.1, k.procs ++ [{ p with pgdir := out.2 }], k.nextpid + 1⟩, .ret k.nextpid)

/-- What the processes see of a sequence of operations, if the kernel does not panic. -/
def run (design : Design) (data : Nat) (k : Kernel) : List (Nat × Op) → Option (List Obs)
  | [] => some []
  | (i, op) :: ops =>
    (step design data k i op).bind fun out => (run design data out.1 ops).map (out.2 :: ·)

/-- Both kernels show the same, and do not panic. -/
def Transparent (data : Nat) (k : Kernel) (ops : List (Nat × Op)) : Prop :=
  ∃ obs, run .onFault data k ops = some obs ∧ run .growproc data k ops = some obs

section Loops

variable {r : Ram} {pgdir src d : Pgdir} {p v n x : Nat}

theorem mapped_one (pgdir : Pgdir) (v frame : Nat) (w u : Bool) :
    mapped pgdir v 1 frame w u = update pgdir v (some ⟨frame, w, u⟩) := by
  funext p
  by_cases hp : p = v
  · subst hp
    rw [mapped_inside (Nat.le_refl p) (by omega), update_self, Nat.sub_self, Nat.add_zero]
  · rw [mapped_outside (by omega), update_of_ne hp]

theorem allocPage_eq (h : pgdir v = none) : allocPage r pgdir v =
    some (⟨FlatMemory.fill r.mem (4096 * r.next) 4096 0, r.next + 1⟩,
      update pgdir v (some ⟨r.next, true, true⟩)) := by
  rw [allocPage, mappages_eq, mapped_one]
  · rfl
  · intro p hlo hhi
    rwa [show p = v by omega]

theorem allocPages_eq (h : ∀ p, v ≤ p → p < v + n → pgdir p = none) : allocPages r pgdir v n =
    some (⟨FlatMemory.fill r.mem (4096 * r.next) (4096 * n) 0, r.next + n⟩,
      mapped pgdir v n r.next true true) := by
  induction n generalizing r pgdir v with
  | zero =>
    have hmapped : mapped pgdir v 0 r.next true true = pgdir := by
      funext p
      rw [mapped_outside (by omega)]
    rw [allocPages, Nat.mul_zero, FlatMemory.fill_zero, hmapped]
    rfl
  | succ n ih =>
    rw [allocPages, allocPage_eq (h v (Nat.le_refl v) (by omega)), Option.bind_some, ih]
    · have hmapped : mapped (update pgdir v (some ⟨r.next, true, true⟩)) (v + 1) n
          (r.next + 1) true true = mapped pgdir v (n + 1) r.next true true := by
        funext p
        by_cases hp : p = v
        · subst hp
          rw [mapped_outside (by omega), update_self, mapped_inside (Nat.le_refl p) (by omega),
            Nat.sub_self, Nat.add_zero]
        · by_cases hin : v + 1 ≤ p ∧ p < v + 1 + n
          · rw [mapped_inside hin.1 hin.2, mapped_inside (by omega) (by omega),
              show r.next + 1 + (p - (v + 1)) = r.next + (p - v) by omega]
          · rw [mapped_outside (by omega), update_of_ne hp, mapped_outside (by omega)]
      dsimp only
      rw [hmapped, Nat.mul_add, FlatMemory.fill_fill, Nat.mul_add_one, Nat.add_comm 4096,
        Nat.add_assoc r.next, Nat.add_comm 1 n]
    · intro p hlo hhi
      dsimp only
      rw [update_of_ne (by omega)]
      exact h p (by omega) (by omega)

theorem deallocPages_pgdir (r : Ram) (pgdir : Pgdir) (v n p : Nat) :
    (deallocPages r pgdir v n).2 p = if v ≤ p ∧ p < v + n then none else pgdir p := by
  induction n generalizing r pgdir v with
  | zero => rw [deallocPages, if_neg (by omega)]
  | succ n ih =>
    have hrest : ∀ d : Pgdir, d v = none → (p ≠ v → d p = pgdir p) →
        (if v + 1 ≤ p ∧ p < v + 1 + n then none else d p) =
          if v ≤ p ∧ p < v + (n + 1) then none else pgdir p := by
      intro d hv hd
      by_cases hp : p = v
      · subst hp
        rw [if_neg (by omega), if_pos (by omega), hv]
      · by_cases hin : v + 1 ≤ p ∧ p < v + 1 + n
        · rw [if_pos hin, if_pos (by omega)]
        · rw [if_neg hin, if_neg (by omega), hd hp]
    rw [deallocPages]
    cases hv : pgdir v with
    | none => exact (ih _ _ _).trans (hrest pgdir hv fun _ => rfl)
    | some pte =>
      exact (ih _ _ _).trans (hrest _ (update_self _ _ _) fun hp => update_of_ne hp _ _)

theorem deallocPages_next (r : Ram) (pgdir : Pgdir) (v n : Nat) :
    (deallocPages r pgdir v n).1.next = r.next := by
  induction n generalizing r pgdir v with
  | zero => rfl
  | succ n ih =>
    rw [deallocPages]
    cases pgdir v with
    | none => exact ih _ _ _
    | some pte => exact (ih _ _ _).trans rfl

theorem deallocPages_mem (h : ∀ p pte, v ≤ p → p < v + n → pgdir p = some pte →
    x / 4096 ≠ pte.frame) :
    (deallocPages r pgdir v n).1.mem x = r.mem x := by
  induction n generalizing r pgdir v with
  | zero => rfl
  | succ n ih =>
    rw [deallocPages]
    cases hv : pgdir v with
    | none => exact ih fun p pte hlo hhi hpte => h p pte (by omega) (by omega) hpte
    | some pte =>
      refine (ih fun p pte' hlo hhi hpte => ?_).trans (FlatMemory.within_fill _ _ ?_)
      · rw [update_of_ne (by omega)] at hpte
        exact h p pte' (by omega) (by omega) hpte
      · have := h v pte (Nat.le_refl v) (by omega) hv
        omega

def copied (src d : Pgdir) (v n frame : Nat) : Pgdir := fun p =>
  if v ≤ p ∧ p < v + n then (src p).map fun pte => ⟨frame + (p - v), pte.w, pte.u⟩ else d p

theorem copyPages_eq (hsrc : ∀ p, v ≤ p → p < v + n → ∃ pte, src p = some pte ∧ pte.frame < r.next)
    (hd : ∀ p, v ≤ p → p < v + n → d p = none) :
    ∃ mem, copyPages r src d v n = some (⟨mem, r.next + n⟩, copied src d v n r.next) ∧
      (∀ x, x < 4096 * r.next → mem x = r.mem x) ∧
      ∀ p pte, v ≤ p → p < v + n → src p = some pte → ∀ off < 4096,
        mem (4096 * (r.next + (p - v)) + off) = r.mem (4096 * pte.frame + off) := by
  induction n generalizing r d v with
  | zero =>
    have hcopied : copied src d v 0 r.next = d := by
      funext p
      rw [copied, if_neg (by omega)]
    refine ⟨r.mem, ?_, fun _ _ => rfl, fun p pte hlo hhi => by omega⟩
    rw [copyPages, hcopied]
    rfl
  | succ n ih =>
    obtain ⟨pte, hpte, hlt⟩ := hsrc v (Nat.le_refl v) (by omega)
    obtain ⟨mem, hcopy, hkept, hnew⟩ := @ih
      ⟨FlatMemory.copy r.mem (4096 * r.next) (4096 * pte.frame) 4096, r.next + 1⟩
      (update d v (some ⟨r.next, pte.w, pte.u⟩)) (v + 1)
      (fun p hlo hhi => by
        obtain ⟨pte', hpte', hlt'⟩ := hsrc p (by omega) (by omega)
        exact ⟨pte', hpte', Nat.lt_succ_of_lt hlt'⟩)
      (fun p hlo hhi => by
        rw [update_of_ne (by omega)]
        exact hd p (by omega) (by omega))
    have hfirst : ∀ x, x < 4096 * r.next → mem x = r.mem x := by
      intro x hx
      refine (hkept x (by dsimp only; omega)).trans (FlatMemory.within_copy _ _ (by omega))
    refine ⟨mem, ?_, hfirst, ?_⟩
    · have hcopied : copied src (update d v (some ⟨r.next, pte.w, pte.u⟩)) (v + 1) n
          (r.next + 1) = copied src d v (n + 1) r.next := by
        funext p
        rw [copied, copied]
        by_cases hp : p = v
        · subst hp
          rw [if_neg (by omega), if_pos (by omega), update_self, hpte, Nat.sub_self]
          rfl
        · rw [update_of_ne hp]
          by_cases hin : v + 1 ≤ p ∧ p < v + 1 + n
          · rw [if_pos hin, if_pos (by omega),
              show r.next + 1 + (p - (v + 1)) = r.next + (p - v) by omega]
          · rw [if_neg hin, if_neg (by omega)]
      rw [copyPages, hpte]
      dsimp only
      rw [mappages_eq fun p hlo hhi => hd p hlo (by omega), mapped_one, Option.bind_some, hcopy,
        hcopied]
      dsimp only
      rw [Nat.add_assoc r.next, Nat.add_comm 1 n]
    · intro p pte' hlo hhi hpte' off hoff
      by_cases hp : p = v
      · subst hp
        rw [hpte] at hpte'
        cases hpte'
        rw [Nat.sub_self, Nat.add_zero]
        refine (hkept _ (by dsimp only; omega)).trans ?_
        dsimp only
        rw [FlatMemory.copy, if_pos (by omega), Nat.add_sub_cancel_left]
      · obtain ⟨pte0, hpte0, hlt0⟩ := hsrc p hlo hhi
        rw [hpte'] at hpte0
        cases hpte0
        have hcopy := hnew p pte' (by omega) (by omega) hpte' off hoff
        dsimp only at hcopy
        rw [show r.next + (p - v) = r.next + 1 + (p - (v + 1)) by omega, hcopy]
        exact FlatMemory.within_copy _ _ (by omega)

end Loops

end Mit6828.Xv6.Sbrk
