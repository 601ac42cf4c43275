import Mit6828.Xv6.Sbrk

namespace Mit6828.Xv6.LazyAlloc

open Library Vm Sbrk Function

structure Blank (m : FlatMemory.Memory) (pte : Pte) : Prop where
  w : pte.w = true
  u : pte.u = true
  zero : ∀ off < 4096, m (4096 * pte.frame + off) = 0

structure Same (lm em : FlatMemory.Memory) (l e : Pte) : Prop where
  w : l.w = e.w
  u : l.u = e.u
  eq : ∀ off < 4096, lm (4096 * l.frame + off) = em (4096 * e.frame + off)

/-- A process whose pages come with a fault, and the process with all its pages: what is missing
is blank, and what is left over above `sz` is blank as well. -/
structure Matches (data : Nat) (lm em : FlatMemory.Memory) (l e : Proc) : Prop where
  aliveL : l.killed = false
  aliveE : e.killed = false
  sz : l.sz = e.sz
  pos : 0 < e.sz.toNat
  below : e.sz.toNat < 4096 * kernbase
  kernelL : ∀ v, kernbase ≤ v → l.pgdir v = kvm data v
  kernelE : ∀ v, kernbase ≤ v → e.pgdir v = kvm data v
  unmapped : ∀ v < kernbase, pages e.sz ≤ v → e.pgdir v = none
  mapped : ∀ v < pages e.sz, ∃ pte, e.pgdir v = some pte ∧ pte.w = true ∧
    (l.pgdir v = none → Blank em pte) ∧ ∀ pte', l.pgdir v = some pte' → Same lm em pte' pte
  spare : ∀ v < kernbase, pages e.sz ≤ v → ∀ pte, l.pgdir v = some pte → Blank lm pte

/-- Process `i` has the entry in the user part of its page table. -/
def Holds (procs : List Proc) (i v : Nat) (pte : Pte) : Prop :=
  ∃ p, procs[i]? = some p ∧ v < kernbase ∧ p.pgdir v = some pte

/-- No page of user memory is in two page table entries. -/
structure Owned (next : Nat) (procs : List Proc) : Prop where
  lt : ∀ {i v pte}, Holds procs i v pte → pte.frame < next
  inj : ∀ {i v pte j v' pte'}, Holds procs i v pte → Holds procs j v' pte' →
    pte.frame = pte'.frame → i = j ∧ v = v'

structure Rel (data : Nat) (l e : Kernel) : Prop where
  ownedL : Owned l.ram.next l.procs
  ownedE : Owned e.ram.next e.procs
  length : l.procs.length = e.procs.length
  nextpid : l.nextpid = e.nextpid
  procs : ∀ (i : Nat) (p q : Proc), l.procs[i]? = some p → e.procs[i]? = some q →
    Matches data l.ram.mem e.ram.mem p q

/-- An operation that does not tell the kernels apart: `sbrk` stays in the user part of the address
space and releases only blank pages, accesses are to memory of the process, and `fork` comes when
every page has been used. -/
def Fine (l e : Kernel) (i : Nat) : Op → Prop
  | .sbrk n => ∀ p : Proc, e.procs[i]? = some p → 0 < (p.sz.toNat : Int) + n.toInt ∧
      (p.sz.toNat : Int) + n.toInt < 4096 * kernbase ∧
      ∀ v pte, pages (p.sz + n) ≤ v → v < pages p.sz → p.pgdir v = some pte → Blank e.ram.mem pte
  | .load va => ∀ p : Proc, e.procs[i]? = some p → permits p.pgdir va false
  | .store va _ => ∀ p : Proc, e.procs[i]? = some p → permits p.pgdir va true
  | .fork => l.procs.length < nproc → ∀ p :
      Proc, l.procs[i]? = some p → ∀ v < pages p.sz, (p.pgdir v).isSome

def Careful (data : Nat) (l e : Kernel) : List (Nat × Op) → Prop
  | [] => True
  | (i, op) :: ops => Fine l e i op ∧ ∀ l' e' obs obs', step .onFault data l i op = some (l', obs) →
      step .growproc data e i op = some (e', obs') → Careful data l' e' ops

/-- A process that has been loaded: every page below `sz` is mapped. -/
structure Complete (data : Nat) (p : Proc) : Prop where
  alive : p.killed = false
  pos : 0 < p.sz.toNat
  below : p.sz.toNat < 4096 * kernbase
  kernel : ∀ v, kernbase ≤ v → p.pgdir v = kvm data v
  unmapped : ∀ v < kernbase, pages p.sz ≤ v → p.pgdir v = none
  mapped : ∀ v < pages p.sz, ∃ pte, p.pgdir v = some pte ∧ pte.w = true

structure Loaded (data : Nat) (k : Kernel) : Prop where
  owned : Owned k.ram.next k.procs
  procs : ∀ p ∈ k.procs, Complete data p

variable {data i j frame m : Nat} {l e k : Kernel} {p q p' q' : Proc}
  {lm em lm' em' : FlatMemory.Memory} {procs procs' : List Proc} {next next' v : Nat}
  {va n sz : Word} {b : Byte} {pte : Pte} {write : Bool} {r r' : Ram} {d pgdir src : Pgdir}

theorem Loaded.rel (h : Loaded data k) : Rel data k k where
  ownedL := h.owned
  ownedE := h.owned
  length := rfl
  nextpid := rfl
  procs := by
    intro i p q hp hq
    obtain rfl := Option.mem_unique hp hq
    have hload := h.procs p (List.mem_of_getElem? hp)
    refine ⟨hload.alive, hload.alive, rfl, hload.pos, hload.below, hload.kernel, hload.kernel,
      hload.unmapped, fun v hv => ?_, fun v hv hpages pte hpte => ?_⟩
    · obtain ⟨pte, hpte, hw⟩ := hload.mapped v hv
      refine ⟨pte, hpte, hw, fun hnone => ?_, fun pte' hpte' => ?_⟩
      · rw [hpte] at hnone
        cases hnone
      · rw [hpte] at hpte'
        cases hpte'
        exact ⟨rfl, rfl, fun _ _ => rfl⟩
    · rw [hload.unmapped v hv hpages] at hpte
      cases hpte

section Pages

theorem pages_le (h : sz.toNat < 4096 * kernbase) : pages sz ≤ kernbase := by
  rw [kernbase] at *
  rw [pages]
  omega

theorem pgroundup_eq (h : sz.toNat < 4096 * kernbase) : pgroundup sz = pages sz := by
  rw [kernbase] at h
  rw [pgroundup, pages, BitVec.toNat_add, Nat.mod_eq_of_lt]
  · rfl
  · change sz.toNat + 4095 < 4294967296
    omega

theorem toNat_add_int (hpos : 0 < (sz.toNat : Int) + n.toInt)
    (hbelow : (sz.toNat : Int) + n.toInt < 4096 * kernbase) :
    ((sz + n).toNat : Int) = sz.toNat + n.toInt := by
  rw [BitVec.toInt_eq_toNat_cond] at *
  rw [kernbase] at hbelow
  rw [BitVec.toNat_add]
  have hn := n.isLt
  split at hpos <;> split <;> omega

end Pages

section Frame

def SamePage (m m' : FlatMemory.Memory) (frame : Nat) : Prop :=
  ∀ off < 4096, m' (4096 * frame + off) = m (4096 * frame + off)

theorem Blank.congr (h : Blank lm pte) (hm : SamePage lm lm' pte.frame) : Blank lm' pte :=
  ⟨h.w, h.u, fun off hoff => (hm off hoff).trans (h.zero off hoff)⟩

theorem Same.congr {l e : Pte} (h : Same lm em l e) (hl : SamePage lm lm' l.frame)
    (he : SamePage em em' e.frame) : Same lm' em' l e :=
  ⟨h.w, h.u, fun off hoff => (hl off hoff).trans ((h.eq off hoff).trans (he off hoff).symm)⟩

theorem Matches.congr (h : Matches data lm em p q)
    (hl : ∀ v < kernbase, ∀ pte, p.pgdir v = some pte → SamePage lm lm' pte.frame)
    (he : ∀ v < kernbase, ∀ pte, q.pgdir v = some pte → SamePage em em' pte.frame) :
    Matches data lm' em' p q := by
  have hle := pages_le h.below
  refine { h with mapped := fun v hv => ?_, spare := fun v hv hpages pte hpte => ?_ }
  · obtain ⟨pte, hpte, hw, hnone, hsome⟩ := h.mapped v hv
    have hpage := he v (by omega) pte hpte
    exact ⟨pte, hpte, hw, fun hv' => (hnone hv').congr hpage,
      fun pte' hpte' => (hsome pte' hpte').congr (hl v (by omega) pte' hpte') hpage⟩
  · exact (h.spare v hv hpages pte hpte).congr (hl v hv pte hpte)

/-- The new entries are all of process `i`, and their frames are numbered as their pages are. -/
theorem Owned.extend (h : Owned next procs) (hnext : next ≤ next') (a : Nat)
    (hold : ∀ j v pte, Holds procs' j v pte → Holds procs j v pte ∨
      j = i ∧ next ≤ pte.frame ∧ pte.frame < next' ∧ pte.frame + a = next + v) :
    Owned next' procs' := by
  constructor
  · intro j v pte hpte
    rcases hold j v pte hpte with hprev | ⟨-, -, hlt, -⟩
    · exact Nat.lt_of_lt_of_le (h.lt hprev) hnext
    · exact hlt
  intro j v pte j' v' pte' hpte hpte' heq
  rcases hold j v pte hpte with hprev | ⟨rfl, hnew, -, hframe⟩
  · rcases hold j' v' pte' hpte' with hprev' | ⟨rfl, hnew', -⟩
    · exact h.inj hprev hprev' heq
    · have := h.lt hprev
      omega
  · rcases hold j' v' pte' hpte' with hprev' | ⟨rfl, -, -, hframe'⟩
    · have := h.lt hprev'
      omega
    · exact ⟨rfl, by omega⟩

theorem set_self (h : procs[i]? = some p) : (procs.set i p')[i]? = some p' :=
  List.getElem?_set_self (List.getElem?_eq_some_iff.mp h).1

theorem Owned.set (h : Owned next procs) (hp : procs[i]? = some p) (hnext : next ≤ next') (a : Nat)
    (hold : ∀ v < kernbase, ∀ pte, p'.pgdir v = some pte → p.pgdir v = some pte ∨
      next ≤ pte.frame ∧ pte.frame < next' ∧ pte.frame + a = next + v) :
    Owned next' (procs.set i p') := by
  refine h.extend (i := i) hnext a ?_
  rintro j v pte ⟨q, hq, hv, hpte⟩
  by_cases hj : j = i
  · subst hj
    rw [set_self hp] at hq
    cases hq
    exact (hold v hv pte hpte).imp (fun hprev => ⟨p, hp, hv, hprev⟩) fun hnew => ⟨rfl, hnew⟩
  · rw [List.getElem?_set_ne (Ne.symm hj)] at hq
    exact .inl ⟨q, hq, hv, hpte⟩

def Untouched (procs : List Proc) (i : Nat) (m m' : FlatMemory.Memory) : Prop :=
  ∀ j v pte, j ≠ i → Holds procs j v pte → SamePage m m' pte.frame

theorem Owned.untouched (h : Owned next procs) (hp : procs[i]? = some p)
    (hm : ∀ x, x < 4096 * next →
    (∀ v < kernbase, ∀ pte, p.pgdir v = some pte → x / 4096 ≠ pte.frame) →
      lm' x = lm x) : Untouched procs i lm lm' := by
  intro j v pte hj hpte off hoff
  have hlt := h.lt hpte
  refine hm _ (by omega) fun v' hv' pte' hpte' heq => ?_
  have hframe : pte.frame = pte'.frame := by omega
  exact hj (h.inj hpte ⟨p, hp, hv', hpte'⟩ hframe).1

theorem Rel.set (h : Rel data l e) (hp : l.procs[i]? = some p) (hq : e.procs[i]? = some q)
    {rl re : Ram}
    (hownedL : Owned rl.next (l.procs.set i p')) (hownedE : Owned re.next (e.procs.set i q'))
    (hl : Untouched l.procs i l.ram.mem rl.mem) (he : Untouched e.procs i e.ram.mem re.mem)
    (hmatch : Matches data rl.mem re.mem p' q') : Rel data (l.put i rl p') (e.put i re q') := by
  refine ⟨hownedL, hownedE, by simpa using h.length, h.nextpid, fun j p1 q1 hp1 hq1 => ?_⟩
  dsimp only at hp1 hq1
  by_cases hj : j = i
  · subst hj
    rw [set_self hp] at hp1
    rw [set_self hq] at hq1
    cases hp1
    cases hq1
    exact hmatch
  · rw [List.getElem?_set_ne (Ne.symm hj)] at hp1 hq1
    exact (h.procs j p1 q1 hp1 hq1).congr (fun v hv pte hpte => hl j v pte hj ⟨p1, hp1, hv, hpte⟩)
      fun v hv pte hpte => he j v pte hj ⟨q1, hq1, hv, hpte⟩

end Frame

section Grow

structure Grown (r r' : Ram) (q q' : Proc) (newsz : Word) : Prop where
  sz : q'.sz = newsz
  alive : q'.killed = q.killed
  next : r'.next = r.next + (pages newsz - pages q.sz)
  kept : ∀ v < pages newsz, v < pages q.sz → q'.pgdir v = q.pgdir v
  fresh : ∀ v < pages newsz, pages q.sz ≤ v →
    q'.pgdir v = some ⟨r.next + (v - pages q.sz), true, true⟩
  gone : ∀ v < kernbase, pages newsz ≤ v → q'.pgdir v = none
  kernel : ∀ v, kernbase ≤ v → q'.pgdir v = q.pgdir v
  mem : ∀ x, x < 4096 * r.next → (∀ v < kernbase, ∀ pte, pages newsz ≤ v → q.pgdir v = some pte →
    x / 4096 ≠ pte.frame) → r'.mem x = r.mem x
  zero : ∀ x, 4096 * r.next ≤ x → x < 4096 * r'.next → r'.mem x = 0

theorem pages_mono {sz' : Word} (h : sz.toNat ≤ sz'.toNat) : pages sz ≤ pages sz' := by
  rw [pages, pages]
  omega

section

variable (hbelow : q.sz.toNat < 4096 * kernbase)
  (hnone : ∀ v < kernbase, pages q.sz ≤ v → q.pgdir v = none)
include hbelow hnone

theorem grown_alloc (hle : q.sz.toNat ≤ sz.toNat) (hsz : sz.toNat < 4096 * kernbase) :
    ∃ r' pgdir, allocuvm r q.pgdir q.sz sz = some (r', pgdir, sz) ∧
      Grown r r' q { q with pgdir, sz := sz } sz := by
  have hpages := pages_mono hle
  have hkern := pages_le hsz
  refine ⟨⟨FlatMemory.fill r.mem (4096 * r.next) (4096 * (pages sz - pages q.sz)) 0,
    r.next + (pages sz - pages q.sz)⟩,
    mapped q.pgdir (pages q.sz) (pages sz - pages q.sz) r.next true true, ?_, ?_⟩
  · rw [allocuvm, if_neg (by omega), if_neg (by omega), pgroundup_eq hbelow, allocPages_eq]
    · rfl
    · intro v hlo hhi
      exact hnone v (by omega) hlo
  refine ⟨rfl, rfl, rfl, fun v hv hv' => ?_, fun v hv hv' => ?_, fun v hv hv' => ?_, fun v hv => ?_,
    fun x hx _ => ?_, fun x hlo hhi => ?_⟩
  · exact mapped_outside (.inl hv')
  · exact mapped_inside hv' (by omega)
  · exact (mapped_outside (.inr (by omega))).trans (hnone v hv (by omega))
  · exact mapped_outside (.inr (by omega))
  · exact FlatMemory.within_fill _ _ (by omega)
  · dsimp only at hhi ⊢
    rw [FlatMemory.fill, if_pos (by omega)]

theorem grown_dealloc (hlt : sz.toNat < q.sz.toNat) :
    ∃ r' pgdir, deallocuvm r q.pgdir q.sz sz = (r', pgdir, sz) ∧
      Grown r r' q { q with pgdir, sz := sz } sz := by
  have hpages := pages_mono (Nat.le_of_lt hlt)
  have hkern := pages_le hbelow
  refine ⟨(deallocPages r q.pgdir (pages sz) (pages q.sz - pages sz)).1,
    (deallocPages r q.pgdir (pages sz) (pages q.sz - pages sz)).2, ?_, ?_⟩
  · rw [deallocuvm, if_neg (by omega), pgroundup_eq (by omega)]
  refine ⟨rfl, rfl, ?_, fun v hv hv' => ?_,
    fun v hv hv' => by omega, fun v hv hv' => ?_, fun v hv => ?_,
    fun x hx hfree => ?_, fun x hlo hhi => ?_⟩
  · rw [deallocPages_next]
    omega
  · dsimp only
    rw [deallocPages_pgdir, if_neg (by omega)]
  · dsimp only
    rw [deallocPages_pgdir]
    split
    · rfl
    · exact hnone v hv (by omega)
  · dsimp only
    rw [deallocPages_pgdir, if_neg (by omega)]
  · exact deallocPages_mem fun v pte hlo hhi hpte => hfree v (by omega) pte hlo hpte
  · rw [deallocPages_next] at hhi
    omega

theorem growproc_grown (hpos : 0 < (q.sz.toNat : Int) + n.toInt)
    (hnew : (q.sz.toNat : Int) + n.toInt < 4096 * kernbase) :
    ∃ r' q', growproc r q n = some (r', q', true) ∧ Grown r r' q q' (q.sz + n) := by
  have hadd := toNat_add_int hpos hnew
  have hne : q.sz + n ≠ 0 := by
    intro hzero
    grind
  rw [growproc]
  by_cases hgrow : 0 < n.toInt
  · obtain ⟨r', pgdir, halloc, hgrown⟩ :=
      @grown_alloc q (q.sz + n) r hbelow hnone (by omega) (by omega)
    refine ⟨r', _, ?_, hgrown⟩
    rw [if_pos hgrow, halloc, Option.map_some, resize, if_neg hne]
  rw [if_neg hgrow]
  by_cases hshrink : n.toInt < 0
  · obtain ⟨r', pgdir, hdealloc, hgrown⟩ := @grown_dealloc q (q.sz + n) r hbelow hnone (by omega)
    refine ⟨r', _, ?_, hgrown⟩
    rw [if_pos hshrink, hdealloc, resize, if_neg hne]
  have hn : n = 0 := by
    apply BitVec.eq_of_toInt_eq
    grind
  subst hn
  have hsz : q.sz + 0 = q.sz := by simp
  rw [if_neg hshrink, hsz]
  refine ⟨r, q, rfl, rfl, rfl, by simp, fun _ _ _ => rfl, fun v hv hv' => by omega,
    fun v hv hv' => hnone v hv hv', fun _ _ => rfl, fun _ _ _ => rfl, fun x hlo hhi => by omega⟩

end

end Grow

section Sbrk

theorem Matches.page_lt (h : Matches data lm em p q) (hperm : permits q.pgdir va write) :
    page va < pages q.sz := by
  rw [permits] at hperm
  by_contra hge
  by_cases hv : page va < kernbase
  · rw [h.unmapped _ hv (by omega)] at hperm
    cases hperm
  rw [h.kernelE _ (by omega)] at hperm
  cases hkvm : kvm data (page va) with
  | none =>
    rw [hkvm] at hperm
    cases hperm
  | some pte =>
    rw [hkvm] at hperm
    simp [kvm_not_user hkvm] at hperm

theorem Owned.grown (h : Owned r.next procs) (hq : procs[i]? = some q)
    (hgrown : Grown r r' q q' sz) : Owned r'.next (procs.set i q') := by
  have hnext := hgrown.next
  refine h.set hq (by omega) (pages q.sz) fun v hv pte hpte => ?_
  by_cases hnew : v < pages sz
  · by_cases hold : v < pages q.sz
    · rw [hgrown.kept v hnew hold] at hpte
      exact .inl hpte
    · rw [hgrown.fresh v hnew (by omega)] at hpte
      cases hpte
      exact .inr (by dsimp only; omega)
  · rw [hgrown.gone v hv (by omega)] at hpte
    cases hpte

theorem Blank.same {l e : Pte} (hl : Blank lm l) (he : Blank em e) : Same lm em l e where
  w := hl.w.trans he.w.symm
  u := hl.u.trans he.u.symm
  eq := fun off hoff => (hl.zero off hoff).trans (he.zero off hoff).symm

theorem Blank.of_same {l e : Pte} (he : Blank em e) (h : Same lm em l e) : Blank lm l where
  w := h.w.trans he.w
  u := h.u.trans he.u
  zero := fun off hoff => (h.eq off hoff).trans (he.zero off hoff)

theorem Matches.sbrk (h : Matches data lm r.mem p q) (howned : Owned r.next procs)
    (hq : procs[i]? = some q) (hgrown : Grown r r' q q' sz) (hpos : 0 < sz.toNat)
    (hbelow : sz.toNat < 4096 * kernbase)
    (hblank : ∀ v pte, pages sz ≤ v → v < pages q.sz → q.pgdir v = some pte → Blank r.mem pte) :
    Matches data lm r'.mem { p with sz := sz } q' := by
  have hkern := pages_le hbelow
  have hkern' := pages_le h.below
  have hsz := hgrown.sz
  refine ⟨h.aliveL, hgrown.alive.trans h.aliveE, hsz.symm, hsz ▸ hpos, hsz ▸ hbelow, h.kernelL,
    fun v hv => (hgrown.kernel v hv).trans (h.kernelE v hv), ?_, ?_, ?_⟩
  all_goals rw [hsz]
  · exact hgrown.gone
  · intro v hv
    by_cases hold : v < pages q.sz
    · obtain ⟨pte, hpte, hw, hnone, hsome⟩ := h.mapped v hold
      have hmem : SamePage r.mem r'.mem pte.frame := by
        intro off hoff
        have hheld : Holds procs i v pte := ⟨q, hq, by omega, hpte⟩
        have hlt := howned.lt hheld
        refine hgrown.mem _ (by omega) fun v' hv' pte' hge hpte' heq => ?_
        have hv'' := (howned.inj hheld ⟨q, hq, hv', hpte'⟩ (by omega)).2
        omega
      exact ⟨pte, (hgrown.kept v hv hold).trans hpte, hw, fun hl => (hnone hl).congr hmem,
        fun pte' hl => (hsome pte' hl).congr (fun _ _ => rfl) hmem⟩
    · have hnext := hgrown.next
      have hnew : Blank r'.mem ⟨r.next + (v - pages q.sz), true, true⟩ :=
        ⟨rfl, rfl, fun off hoff => hgrown.zero _ (by dsimp only; omega) (by dsimp only; omega)⟩
      exact ⟨_, hgrown.fresh v hv (by omega), rfl, fun _ => hnew,
        fun pte' hl => (h.spare v (by omega) (by omega) pte' hl).same hnew⟩
  · intro v hv hge pte hl
    by_cases hold : v < pages q.sz
    · obtain ⟨pte', hpte', -, -, hsome⟩ := h.mapped v hold
      exact (hblank v pte' hge hold hpte').of_same (hsome pte hl)
    · exact h.spare v hv (by omega) pte hl

end Sbrk

section Access

theorem permits_congr {pgdir' : Pgdir} {pte' : Pte} (h : pgdir (page va) = some pte)
    (h' : pgdir' (page va) = some pte') (hw : pte'.w = pte.w) (hu : pte'.u = pte.u) :
    permits pgdir' va write = permits pgdir va write := by
  rw [permits, permits, h, h']
  simp [hw, hu]

def faulted (r : Ram) (p : Proc) (v : Nat) : Proc :=
  { p with pgdir := update p.pgdir v (some ⟨r.next, true, true⟩) }

theorem faulted_self (r : Ram) (p : Proc) (v : Nat) :
    (faulted r p v).pgdir v = some ⟨r.next, true, true⟩ := update_self _ _ _

theorem faulted_of_ne {v' : Nat} (h : v' ≠ v) : (faulted r p v).pgdir v' = p.pgdir v' :=
  update_of_ne h _ _

theorem Owned.faulted (h : Owned r.next procs) (hp : procs[i]? = some p) (v : Nat) :
    Owned (r.next + 1) (procs.set i (LazyAlloc.faulted r p v)) := by
  refine h.set hp (Nat.le_succ _) v fun v' hv' pte hpte => ?_
  by_cases hne : v' = v
  · subst hne
    rw [faulted_self] at hpte
    cases hpte
    exact .inr ⟨le_rfl, Nat.lt_succ_self _, rfl⟩
  · rw [faulted_of_ne hne] at hpte
    exact .inl hpte

theorem blank_fill (m : FlatMemory.Memory) (frame : Nat) :
    Blank (FlatMemory.fill m (4096 * frame) 4096 0) ⟨frame, true, true⟩ := by
  refine ⟨rfl, rfl, fun off hoff => ?_⟩
  rw [FlatMemory.fill, if_pos (by dsimp only; omega)]

theorem Matches.faulted (h : Matches data r.mem em p q) (howned : Owned r.next procs)
    (hp : procs[i]? = some p) (hv : v < pages q.sz) (hl : p.pgdir v = none) :
    Matches data (FlatMemory.fill r.mem (4096 * r.next) 4096 0) em (LazyAlloc.faulted r p v) q := by
  have hkern := pages_le h.below
  have hmem : Matches data (FlatMemory.fill r.mem (4096 * r.next) 4096 0) em p q := by
    refine h.congr (fun v' hv' pte hpte off hoff => FlatMemory.within_fill _ _ ?_)
      fun _ _ _ _ _ _ => rfl
    have := howned.lt ⟨p, hp, hv', hpte⟩
    omega
  refine { hmem with
    kernelL := fun v' hv' => ?_
    mapped := fun v' hv' => ?_
    spare := fun v' hv' hge pte hpte => ?_ }
  · rw [faulted_of_ne (by omega)]
    exact h.kernelL v' hv'
  · by_cases hne : v' = v
    · subst hne
      obtain ⟨pte, hpte, hw, hnone, -⟩ := h.mapped v' hv'
      refine ⟨pte, hpte, hw, fun hnone' => ?_, fun pte' hpte' => ?_⟩
      · rw [faulted_self] at hnone'
        cases hnone'
      · rw [faulted_self] at hpte'
        rw [← Option.some.inj hpte']
        exact (blank_fill _ _).same (hnone hl)
    · rw [faulted_of_ne hne]
      exact hmem.mapped v' hv'
  · rw [faulted_of_ne (by omega)] at hpte
    exact hmem.spare v' hv' hge pte hpte

theorem Owned.same (h : Owned next procs) (hp : procs[i]? = some p)
    (hpgdir : p'.pgdir = p.pgdir) : Owned next (procs.set i p') :=
  h.set hp le_rfl 0 fun _ _ _ hpte => .inl (hpgdir ▸ hpte)

theorem Matches.access (h : Matches data r.mem em p q)
    (howned : Owned r.next procs) (hp : procs[i]? = some p) (hperm : permits q.pgdir va write) :
    ∃ r' p' pte pte', Sbrk.access .onFault r p va write = some (r', p') ∧
      Owned r'.next (procs.set i p') ∧ (∀ x, x < 4096 * r.next → r'.mem x = r.mem x) ∧
      Matches data r'.mem em p' q ∧ p'.pgdir (page va) = some pte' ∧ q.pgdir (page va) = some pte ∧
      Same r'.mem em pte' pte := by
  have hpage := h.page_lt hperm
  obtain ⟨pte, hpte, -, hnone, hsome⟩ := h.mapped _ hpage
  cases hl : p.pgdir (page va) with
  | some pte' =>
    have hsame := hsome pte' hl
    refine ⟨r, p, pte, pte', ?_, howned.same hp rfl, fun _ _ => rfl, h, hl, hpte, hsame⟩
    rw [Sbrk.access, permits_congr hpte hl hsame.w hsame.u, if_pos hperm]
  | none =>
    have hnot : permits p.pgdir va write = false := by
      rw [permits, hl]
      rfl
    refine ⟨⟨FlatMemory.fill r.mem (4096 * r.next) 4096 0, r.next + 1⟩,
      LazyAlloc.faulted r p (page va),
      pte, ⟨r.next, true, true⟩, ?_, howned.faulted hp _, fun x hx => ?_,
      h.faulted howned hp hpage hl, faulted_self _ _ _, hpte, (blank_fill _ _).same (hnone hl)⟩
    · rw [Sbrk.access, hnot, if_neg Bool.false_ne_true, pageFault, allocPage_eq hl]
      rfl
    · exact FlatMemory.within_fill _ _ (by omega)

theorem Matches.poke (h : Matches data lm em p q) {pte' : Pte} {off : Nat}
    (hl : p.pgdir v = some pte')
    (he : q.pgdir v = some pte) (hv : v < pages q.sz) (hoff : off < 4096)
    (hinjL : ∀ v' < kernbase, ∀ pte1, p.pgdir v' = some pte1 → pte1.frame = pte'.frame → v' = v)
    (hinjE : ∀ v' < kernbase, ∀ pte1, q.pgdir v' = some pte1 → pte1.frame = pte.frame → v' = v) :
    Matches data (update lm (4096 * pte'.frame + off) b)
      (update em (4096 * pte.frame + off) b) p q := by
  have hkern := pages_le h.below
  have hkeep : ∀ (m : FlatMemory.Memory) {frame frame' : Nat}, frame' ≠ frame → ∀ off' < 4096,
      update m (4096 * frame + off) b (4096 * frame' + off') = m (4096 * frame' + off') :=
    fun m frame frame' hne off' hoff' => update_of_ne (by omega) _ _
  refine { h with mapped := fun v' hv' => ?_, spare := fun v' hv' hge pte1 hpte1 => ?_ }
  · obtain ⟨pte1, hpte1, hw, hnone, hsome⟩ := h.mapped v' hv'
    refine ⟨pte1, hpte1, hw, fun hnone' => ?_, fun pte2 hpte2 => ?_⟩
    · refine (hnone hnone').congr (hkeep em fun heq => ?_)
      rw [hinjE v' (by omega) pte1 hpte1 heq, hl] at hnone'
      cases hnone'
    have hsame := hsome pte2 hpte2
    by_cases hvv : v' = v
    · subst hvv
      rw [he] at hpte1
      rw [hl] at hpte2
      cases hpte1
      cases hpte2
      refine ⟨hsame.w, hsame.u, fun off' hoff' => ?_⟩
      by_cases hpoked : off' = off
      · rw [hpoked, update_self, update_self]
      · rw [update_of_ne (by omega), update_of_ne (by omega)]
        exact hsame.eq off' hoff'
    · exact hsame.congr (hkeep lm fun hframe => hvv (hinjL v' (by omega) pte2 hpte2 hframe))
        (hkeep em fun hframe => hvv (hinjE v' (by omega) pte1 hpte1 hframe))
  · refine (h.spare v' hv' hge pte1 hpte1).congr (hkeep lm fun heq => ?_)
    have := hinjL v' hv' pte1 hpte1 heq
    omega

end Access

section Fork

theorem copyuvm_eq (hlo : 0x100 ≤ data) (hhi : data ≤ 0xE000)
    (hsz : p.sz.toNat < 4096 * kernbase) (howned : Owned r.next procs) (hp : procs[i]? = some p)
    (hall : ∀ v < pages p.sz, (p.pgdir v).isSome) : ∃ mem, copyuvm data r p.pgdir p.sz =
        some (⟨mem, r.next + pages p.sz⟩, copied p.pgdir (kvm data) 0 (pages p.sz) r.next) ∧
      (∀ x, x < 4096 * r.next → mem x = r.mem x) ∧
      ∀ v pte, v < pages p.sz → p.pgdir v = some pte → ∀ off < 4096,
        mem (4096 * (r.next + v) + off) = r.mem (4096 * pte.frame + off) := by
  have hkern := pages_le hsz
  rw [copyuvm, setupkvm_eq hlo hhi, Option.bind_some]
  obtain ⟨mem, hcopy, hkept, hnew⟩ := @copyPages_eq r p.pgdir (kvm data) 0 (pages p.sz)
    (fun v _ hv => by
      obtain ⟨pte, hpte⟩ := Option.isSome_iff_exists.mp (hall v (by omega))
      exact ⟨pte, hpte, howned.lt ⟨p, hp, by omega, hpte⟩⟩)
    (fun v _ hv => kvm_user (by omega))
  exact ⟨mem, hcopy, hkept, fun v pte hv hpte off hoff =>
    hnew v pte (Nat.zero_le v) (by omega) hpte off hoff⟩

theorem copied_some (hv : v < m) (hpte : src v = some pte) :
    copied src d 0 m frame v = some ⟨frame + v, pte.w, pte.u⟩ := by
  rw [copied, if_pos (by omega), hpte]
  rfl

theorem copied_outside (hv : m ≤ v) : copied src d 0 m frame v = d v :=
  if_neg (by omega)

theorem Owned.fork (h : Owned next procs) (hpgdir : p'.pgdir = copied src (kvm data) 0 m next) :
    Owned (next + m) (procs ++ [p']) := by
  refine h.extend (i := procs.length) (by omega) 0 ?_
  rintro j v pte ⟨q, hq, hv, hpte⟩
  by_cases hj : j < procs.length
  · rw [List.getElem?_append_left hj] at hq
    exact .inl ⟨q, hq, hv, hpte⟩
  have hj' : j = procs.length := by
    have := (List.getElem?_eq_some_iff.mp hq).1
    grind
  subst hj'
  rw [show (procs ++ [p'])[procs.length]? = some p' by simp] at hq
  cases hq
  rw [hpgdir] at hpte
  by_cases hvm : v < m
  · rw [copied, if_pos (by omega)] at hpte
    obtain ⟨pte0, -, rfl⟩ := Option.map_eq_some_iff.mp hpte
    exact .inr ⟨rfl, by dsimp only; omega⟩
  · rw [copied_outside (by omega), kvm_user hv] at hpte
    cases hpte

theorem Matches.copied {nl ne : Nat} (h : Matches data lm em p q)
    (hall : ∀ v < pages p.sz, (p.pgdir v).isSome)
    (hl : ∀ v pte, v < pages p.sz → p.pgdir v = some pte → ∀ off < 4096,
      lm' (4096 * (nl + v) + off) = lm (4096 * pte.frame + off))
    (he : ∀ v pte, v < pages q.sz → q.pgdir v = some pte → ∀ off < 4096,
      em' (4096 * (ne + v) + off) = em (4096 * pte.frame + off)) :
    Matches data lm' em' { p with pgdir := Sbrk.copied p.pgdir (kvm data) 0 (pages p.sz) nl }
      { q with pgdir := Sbrk.copied q.pgdir (kvm data) 0 (pages q.sz) ne } := by
  have hkern := pages_le h.below
  rw [h.sz] at hall hl ⊢
  refine ⟨h.aliveL, h.aliveE, rfl, h.pos, h.below, fun v hv => ?_, fun v hv => ?_,
    fun v hv hge => ?_, fun v hv => ?_, fun v hv hge pte hpte => ?_⟩
  · exact copied_outside (by omega)
  · exact copied_outside (by omega)
  · exact (copied_outside hge).trans (kvm_user hv)
  · obtain ⟨pte, hpte, hw, -, hsome⟩ := h.mapped v hv
    obtain ⟨pte', hpte'⟩ := Option.isSome_iff_exists.mp (hall v hv)
    obtain ⟨hw', hu, heq⟩ := hsome pte' hpte'
    refine ⟨_, copied_some hv hpte, hw, fun hnone => ?_, fun pte1 hpte1 => ?_⟩
    · dsimp only at hnone
      rw [copied_some hv hpte'] at hnone
      cases hnone
    dsimp only at hpte1
    rw [copied_some hv hpte'] at hpte1
    rw [← Option.some.inj hpte1]
    refine ⟨hw', hu, fun off hoff => ?_⟩
    dsimp only
    rw [hl v pte' hv hpte' off hoff, he v pte hv hpte off hoff]
    exact heq off hoff
  · dsimp only at hpte
    rw [copied_outside hge, kvm_user hv] at hpte
    cases hpte

end Fork

section Step

theorem phys_eq {m : FlatMemory.Memory} (h : pgdir (page va) = some pte) :
    Space.phys ⟨pgdir, m⟩ va = some (4096 * pte.frame + offset va) := by
  rw [Space.phys]
  dsimp only
  rw [h]
  rfl

theorem offset_lt (va : Word) : offset va < 4096 := Nat.mod_lt _ (by decide)

section

variable (h : Rel data l e) (hp : l.procs[i]? = some p) (hq : e.procs[i]? = some q)
include h hp hq

theorem Rel.sbrk (hfine : Fine l e i (.sbrk n)) :
    ∃ re q', sysSbrk .growproc e.ram q n = some (re, q', q.sz) ∧
      sysSbrk .onFault l.ram p n = some (l.ram, { p with sz := q.sz + n }, q.sz) ∧
      Rel data (l.put i l.ram { p with sz := q.sz + n }) (e.put i re q') := by
  obtain ⟨hpos, hbelow, hblank⟩ := hfine q hq
  have hmatch := h.procs i p q hp hq
  have hadd := toNat_add_int hpos hbelow
  obtain ⟨re, q', hgrow, hgrown⟩ :=
    @growproc_grown q n e.ram hmatch.below hmatch.unmapped hpos hbelow
  refine ⟨re, q', ?_, ?_, ?_⟩
  · rw [sysSbrk, hgrow]
    rfl
  · rw [sysSbrk, hmatch.sz]
  · refine h.set hp hq (h.ownedL.same hp rfl) (h.ownedE.grown hq hgrown)
      (fun _ _ _ _ _ _ _ => rfl) ?_ ?_
    · exact h.ownedE.untouched hq fun x hx hfree =>
        hgrown.mem x hx fun v hv pte _ hpte => hfree v hv pte hpte
    · exact hmatch.sbrk h.ownedE hq hgrown (by omega) (by omega) hblank

theorem Rel.access (hperm : permits q.pgdir va write) :
    ∃ rl p' pte pte', Sbrk.access .onFault l.ram p va write = some (rl, p') ∧
      Sbrk.access .growproc e.ram q va write = some (e.ram, q) ∧
      Rel data (l.put i rl p') (e.put i e.ram q) ∧ p'.pgdir (page va) = some pte' ∧
      q.pgdir (page va) = some pte ∧ Matches data rl.mem e.ram.mem p' q ∧
      Same rl.mem e.ram.mem pte' pte := by
  obtain ⟨rl, p', pte, pte', haccess, howned, hmem, hmatch, hl, he, hsame⟩ :=
    (h.procs i p q hp hq).access h.ownedL hp hperm
  refine ⟨rl, p', pte, pte', haccess, by rw [Sbrk.access, if_pos hperm], ?_, hl, he, hmatch, hsame⟩
  exact h.set hp hq howned (h.ownedE.same hq rfl) (h.ownedL.untouched hp fun x hx _ => hmem x hx)
    (fun _ _ _ _ _ _ _ => rfl) hmatch

theorem Rel.load (hperm : permits q.pgdir va false) :
    ∃ rl p' obs, Sbrk.load .onFault l.ram p va = some (rl, p', obs) ∧
      Sbrk.load .growproc e.ram q va = some (e.ram, q, obs) ∧
      Rel data (l.put i rl p') (e.put i e.ram q) := by
  obtain ⟨rl, p', pte, pte', hl, he, hrel, hpte', hpte, hmatch, hsame⟩ := h.access hp hq hperm
  refine ⟨rl, p', .value (e.ram.mem (4096 * pte.frame + offset va)), ?_, ?_, hrel⟩
  · rw [Sbrk.load, hl, Option.map_some]
    dsimp only
    rw [if_neg (by rw [hmatch.aliveL]; decide), Space.view, phys_eq hpte', Option.map_some,
      Option.getD_some]
    dsimp only
    rw [hsame.eq _ (offset_lt va)]
  · rw [Sbrk.load, he, Option.map_some]
    dsimp only
    rw [if_neg (by rw [hmatch.aliveE]; decide), Space.view, phys_eq hpte]
    rfl

theorem Rel.store (hperm : permits q.pgdir va true) (b : Byte) :
    ∃ rl re p', Sbrk.store .onFault l.ram p va b = some (rl, p', .stored) ∧
      Sbrk.store .growproc e.ram q va b = some (re, q, .stored) ∧
      Rel data (l.put i rl p') (e.put i re q) := by
  obtain ⟨rl, p', pte, pte', hl, he, hrel, hpte', hpte, hmatch, -⟩ := h.access hp hq hperm
  have hpage := hmatch.page_lt hperm
  have hkern := pages_le hmatch.below
  have hself : (l.procs.set i p')[i]? = some p' := set_self hp
  have hself' : (e.procs.set i q)[i]? = some q := set_self hq
  have hpokeL : poke rl p'.pgdir va b =
      { rl with mem := update rl.mem (4096 * pte'.frame + offset va) b } := by
    rw [poke, phys_eq hpte']
  have hpokeE : poke e.ram q.pgdir va b =
      { e.ram with mem := update e.ram.mem (4096 * pte.frame + offset va) b } := by
    rw [poke, phys_eq hpte]
  refine ⟨poke rl p'.pgdir va b, poke e.ram q.pgdir va b, p', ?_, ?_, ?_⟩
  · rw [Sbrk.store, hl, Option.map_some]
    dsimp only
    rw [if_neg (by rw [hmatch.aliveL]; decide)]
  · rw [Sbrk.store, he, Option.map_some]
    dsimp only
    rw [if_neg (by rw [hmatch.aliveE]; decide)]
  have hoff := offset_lt va
  suffices hset : Rel data ((l.put i rl p').put i (poke rl p'.pgdir va b) p')
      ((e.put i e.ram q).put i (poke e.ram q.pgdir va b) q) by
    simpa [Kernel.put] using hset
  refine hrel.set hself hself' ?_ ?_ ?_ ?_ ?_
  · rw [hpokeL]
    exact hrel.ownedL.same hself rfl
  · rw [hpokeE]
    exact hrel.ownedE.same hself' rfl
  · refine hrel.ownedL.untouched hself fun x hx hfree => ?_
    rw [hpokeL]
    have := hfree _ (by omega) pte' hpte'
    exact update_of_ne (by omega) _ _
  · refine hrel.ownedE.untouched hself' fun x hx hfree => ?_
    rw [hpokeE]
    have := hfree _ (by omega) pte hpte
    exact update_of_ne (by omega) _ _
  · rw [hpokeL, hpokeE]
    refine hmatch.poke hpte' hpte hpage hoff (fun v hv pte1 hpte1 heq => ?_)
      fun v hv pte1 hpte1 heq => ?_
    · exact (hrel.ownedL.inj ⟨p', hself, hv, hpte1⟩ ⟨p', hself, by omega, hpte'⟩ heq).2
    · exact (hrel.ownedE.inj ⟨q, hself', hv, hpte1⟩ ⟨q, hself', by omega, hpte⟩ heq).2

end

theorem Rel.fork (hdata : 0x100 ≤ data ∧ data ≤ 0xE000) (h : Rel data l e)
    (hp : l.procs[i]? = some p) (hq : e.procs[i]? = some q)
    (hall : ∀ v < pages p.sz, (p.pgdir v).isSome) :
    ∃ rl re dl de, copyuvm data l.ram p.pgdir p.sz = some (rl, dl) ∧
      copyuvm data e.ram q.pgdir q.sz = some (re, de) ∧
      Rel data ⟨rl, l.procs ++ [{ p with pgdir := dl }], l.nextpid + 1⟩
        ⟨re, e.procs ++ [{ q with pgdir := de }], e.nextpid + 1⟩ := by
  have hmatch := h.procs i p q hp hq
  have hbelow := hmatch.below
  have hall' : ∀ v < pages q.sz, (q.pgdir v).isSome := by
    intro v hv
    obtain ⟨pte, hpte, -⟩ := hmatch.mapped v hv
    exact Option.isSome_iff_exists.mpr ⟨pte, hpte⟩
  have hsz : p.sz.toNat < 4096 * kernbase := hmatch.sz ▸ hbelow
  obtain ⟨lm, hcopyL, hkeptL, hnewL⟩ := copyuvm_eq hdata.1 hdata.2 hsz h.ownedL hp hall
  obtain ⟨em, hcopyE, hkeptE, hnewE⟩ := copyuvm_eq hdata.1 hdata.2 hbelow h.ownedE hq hall'
  have hlength := h.length
  refine ⟨_, _, _, _, hcopyL, hcopyE, ?_⟩
  refine ⟨h.ownedL.fork rfl, h.ownedE.fork rfl, by simpa using hlength,
    by dsimp only; rw [h.nextpid], fun j p1 q1 hp1 hq1 => ?_⟩
  dsimp only at hp1 hq1 ⊢
  by_cases hj : j < l.procs.length
  · rw [List.getElem?_append_left hj] at hp1
    rw [List.getElem?_append_left (by omega)] at hq1
    refine (h.procs j p1 q1 hp1 hq1).congr (fun v hv pte hpte off hoff => hkeptL _ ?_)
      fun v hv pte hpte off hoff => hkeptE _ ?_
    · have := h.ownedL.lt ⟨p1, hp1, hv, hpte⟩
      omega
    · have := h.ownedE.lt ⟨q1, hq1, hv, hpte⟩
      omega
  have hj' : j = l.procs.length := by
    have := (List.getElem?_eq_some_iff.mp hp1).1
    grind
  subst hj'
  rw [List.getElem?_append_right (Nat.le_refl _), Nat.sub_self] at hp1
  rw [List.getElem?_append_right (by omega), hlength, Nat.sub_self] at hq1
  cases hp1
  cases hq1
  exact hmatch.copied hall hnewL hnewE

/-- The step lemma: both kernels do the operation, show the same, and match again. -/
theorem Rel.step (hdata : 0x100 ≤ data ∧ data ≤ 0xE000) (h : Rel data l e) {op : Op}
    (hfine : Fine l e i op) :
    ∃ l' e' obs, Sbrk.step .onFault data l i op = some (l', obs) ∧
      Sbrk.step .growproc data e i op = some (e', obs) ∧ Rel data l' e' := by
  rw [Sbrk.step, Sbrk.step]
  cases hp : l.procs[i]? with
  | none =>
    have hq : e.procs[i]? = none := by
      rw [List.getElem?_eq_none_iff] at hp ⊢
      rw [← h.length]
      exact hp
    rw [hq]
    exact ⟨l, e, .absent, rfl, rfl, h⟩
  | some p =>
    obtain ⟨q, hq⟩ : ∃ q, e.procs[i]? = some q := by
      have := (List.getElem?_eq_some_iff.mp hp).1
      exact ⟨_, List.getElem?_eq_getElem (by rw [← h.length]; exact this)⟩
    have hmatch := h.procs i p q hp hq
    rw [hq]
    dsimp only
    rw [if_neg (show ¬ p.killed = true by rw [hmatch.aliveL]; decide),
      if_neg (show ¬ q.killed = true by rw [hmatch.aliveE]; decide)]
    cases op with
    | sbrk n =>
      obtain ⟨re, q', he, hl, hrel⟩ := h.sbrk hp hq hfine
      refine ⟨_, _, .ret q.sz, ?_, ?_, hrel⟩
      · dsimp only
        rw [hl]
        rfl
      · dsimp only
        rw [he]
        rfl
    | load va =>
      obtain ⟨rl, p', obs, hl, he, hrel⟩ := h.load hp hq (hfine q hq)
      refine ⟨_, _, obs, ?_, ?_, hrel⟩
      · dsimp only
        rw [hl]
        rfl
      · dsimp only
        rw [he]
        rfl
    | store va b =>
      obtain ⟨rl, re, p', hl, he, hrel⟩ := h.store hp hq (hfine q hq) b
      refine ⟨_, _, .stored, ?_, ?_, hrel⟩
      · dsimp only
        rw [hl]
        rfl
      · dsimp only
        rw [he]
        rfl
    | fork =>
      dsimp only
      by_cases hfull : nproc ≤ l.procs.length
      · rw [if_pos hfull, if_pos (by rw [← h.length]; exact hfull)]
        exact ⟨l, e, .ret (-1), rfl, rfl, h⟩
      obtain ⟨rl, re, dl, de, hl, he, hrel⟩ := h.fork hdata hp hq (hfine (by omega) p hp)
      rw [if_neg hfull, if_neg (by rw [← h.length]; exact hfull), hl, he]
      refine ⟨_, _, .ret e.nextpid, ?_, rfl, hrel⟩
      rw [← h.nextpid]
      rfl

end Step

theorem Rel.run (hdata : 0x100 ≤ data ∧ data ≤ 0xE000) (h : Rel data l e) {ops : List (Nat × Op)}
    (hcareful : Careful data l e ops) :
    ∃ obs, Sbrk.run .onFault data l ops = some obs ∧ Sbrk.run .growproc data e ops = some obs := by
  induction ops generalizing l e with
  | nil => exact ⟨[], rfl, rfl⟩
  | cons iop ops ih =>
    obtain ⟨i, op⟩ := iop
    obtain ⟨hfine, hrest⟩ := hcareful
    obtain ⟨l', e', obs, hl, he, hrel⟩ := h.step hdata hfine
    obtain ⟨rest, hrunL, hrunE⟩ := ih hrel (hrest l' e' obs obs hl he)
    refine ⟨obs :: rest, ?_, ?_⟩
    · rw [Sbrk.run, hl, Option.bind_some, hrunL]
      rfl
    · rw [Sbrk.run, he, Option.bind_some, hrunE]
      rfl

/-- Allocation on a fault is transparent for careful programs: they keep `sz` in the user part,
release only pages of zeros, access only memory below `sz` that is theirs, and fork only when
they have used every page. -/
theorem lazy_transparent (hdata : 0x100 ≤ data ∧ data ≤ 0xE000) (hk : Loaded data k)
    {ops : List (Nat × Op)} (hcareful : Careful data k k ops) : Transparent data k ops :=
  hk.rel.run hdata hcareful

def first : Proc := ⟨4096, mapped (kvm 0x107) 0 1 0x1000 true true, false⟩

theorem first_pgdir (hv : 1 ≤ v) : first.pgdir v = kvm 0x107 v := mapped_outside (.inr hv)

def booted : Kernel := ⟨⟨fun _ => 0, 0x1001⟩, [first], 2⟩

theorem loaded_booted : Loaded 0x107 booted := by
  have hheld : ∀ i v pte, Holds booted.procs i v pte →
      i = 0 ∧ v = 0 ∧ pte = ⟨0x1000, true, true⟩ := by
    rintro i v pte ⟨p, hp, hv, hpte⟩
    obtain ⟨hi, rfl⟩ := List.getElem?_eq_some_iff.mp hp
    obtain rfl : i = 0 := Nat.lt_one_iff.mp hi
    by_cases hv' : v < 1
    · obtain rfl : v = 0 := Nat.lt_one_iff.mp hv'
      exact ⟨rfl, rfl, (Option.some.inj hpte).symm⟩
    · have hnone : first.pgdir v = none := by rw [first_pgdir (by omega), kvm_user hv]
      cases hnone.symm.trans hpte
  refine ⟨⟨fun hpte => ?_, fun hpte hpte' _ => ?_⟩,
    List.forall_mem_singleton.mpr ⟨rfl, by decide, by decide, fun v hv => ?_, fun v hv hge => ?_,
      fun v hv => ?_⟩⟩
  · rw [(hheld _ _ _ hpte).2.2]
    decide
  · obtain ⟨rfl, rfl, -⟩ := hheld _ _ _ hpte
    obtain ⟨rfl, rfl, -⟩ := hheld _ _ _ hpte'
    exact ⟨rfl, rfl⟩
  · rw [first_pgdir (by grind)]
  · rw [first_pgdir hge, kvm_user hv]
  · obtain rfl : v = 0 := Nat.lt_one_iff.mp hv
    exact ⟨_, rfl, rfl⟩

theorem lazy_transparent_heap :
    Transparent 0x107 booted [(0, .sbrk 4096), (0, .store 4096 7), (0, .load 4096)] := by
  refine lazy_transparent (by decide) loaded_booted ⟨?_, ?_⟩
  · intro p hp
    cases hp
    have hpages : pages first.sz = 1 ∧ pages (first.sz + 4096) = 2 := by decide
    exact ⟨by decide, by decide, fun v pte hlo hhi => by omega⟩
  intro l e obs obs' hl he
  cases hl
  cases he
  refine ⟨?_, ?_⟩
  · intro p hp
    cases hp
    decide
  intro l e obs obs' hl he
  cases hl
  cases he
  refine ⟨?_, fun _ _ _ _ _ _ => trivial⟩
  intro p hp
  cases hp
  decide

theorem fork_panics : run .onFault 0x107 booted [(0, .sbrk 4096), (0, .fork)] = none := by
  have hcopy : copyuvm 0x107 booted.ram first.pgdir (first.sz + 4096) = none := by
    rw [copyuvm, setupkvm_eq (by decide) (by decide), Option.bind_some]
    rfl
  have hfork : step .onFault 0x107 (booted.put 0 booted.ram { first with sz := first.sz + 4096 }) 0
      .fork = none := by
    rw [step, set_self (p := first) rfl]
    dsimp only
    rw [if_neg (show ¬ first.killed = true by decide), if_neg (by decide)]
    exact congrArg _ hcopy
  have hsbrk : step .onFault 0x107 booted 0 (.sbrk 4096) =
      some (booted.put 0 _ { first with sz := first.sz + 4096 }, .ret 4096) := rfl
  rw [run, hsbrk, Option.bind_some, run, hfork]
  rfl

/-- An access above `sz` is not fatal, memory that is released and grown again has its old
contents, and `fork` panics. -/
theorem lazy_visible : ¬ Transparent 0x107 booted [(0, .load 0x5000)] ∧
    ¬ Transparent 0x107 booted
      [(0, .sbrk 4096), (0, .store 4096 7), (0, .sbrk (-4096)), (0, .sbrk 4096), (0, .load 4096)] ∧
    ¬ Transparent 0x107 booted [(0, .sbrk 4096), (0, .fork)] := by
  refine ⟨?_, ?_, ?_⟩
  · rintro ⟨obs, hl, he⟩
    exact absurd (hl.trans he.symm) (by decide +kernel)
  · rintro ⟨obs, hl, he⟩
    exact absurd (hl.trans he.symm) (by decide +kernel)
  · rintro ⟨obs, hl, -⟩
    rw [fork_panics] at hl
    cases hl

end Mit6828.Xv6.LazyAlloc
