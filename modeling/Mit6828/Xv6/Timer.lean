import Mit6828.Xv6.Vm

namespace Mit6828.Xv6.Timer

open Library Vm

structure Trapframe where
  eip : Word
  esp : Word
  cs : BitVec 16
deriving DecidableEq

structure Alarm where
  alarmticks : Word
  alarmhandler : Word
  curalarmticks : Word
deriving DecidableEq

/-- `sys_alarm` in a process of the given size; `argptr` checks that the handler is below it. -/
def sysAlarm (sz : Word) (p : Alarm) (ticks handler : Word) : Alarm × Word :=
  if sz.toNat ≤ handler.toNat ∨ (handler + 1).toNat > sz.toNat then (p, -1)
  else ({ p with alarmticks := ticks, alarmhandler := handler }, 0)

/-- The interrupt comes from user mode, with the last tick of the alarm. -/
def Fires (p : Alarm) (tf : Trapframe) : Prop :=
  tf.cs &&& 3 = 3 ∧ p.curalarmticks + 1 = p.alarmticks
deriving Decidable

/-- The timer interrupt in a process; a store that faults ends in the panic of `trap`. -/
def timerInterrupt (p : Alarm) (tf : Trapframe) (s : Space) : Option (Alarm × Trapframe × Space) :=
  if tf.cs &&& 3 = 3 then
    let p := { p with curalarmticks := p.curalarmticks + 1 }
    if p.curalarmticks = p.alarmticks then
      let p := { p with curalarmticks := 0 }
      let tf := { tf with esp := tf.esp - 4 }
      (s.storeWord tf.esp tf.eip).map fun s => (p, { tf with eip := p.alarmhandler }, s)
    else some (p, tf, s)
  else some (p, tf, s)

/-- The instruction `ret` in user mode. -/
def ret (s : Space) (tf : Trapframe) : Option Trapframe :=
  if ∀ i < 4, s.accessible (tf.esp + BitVec.ofNat 32 i) then
    some { tf with eip := ByteMemory.readWord s.view tf.esp, esp := tf.esp + 4 }
  else none

variable {p : Alarm} {tf : Trapframe} {s s' : Space} {va w : Word} {pa i : Nat}

theorem timerInterrupt_fires (h : Fires p tf) : timerInterrupt p tf s =
    (s.storeWord (tf.esp - 4) tf.eip).map fun s =>
      ({ p with curalarmticks := 0 }, ⟨p.alarmhandler, tf.esp - 4, tf.cs⟩, s) := by
  rw [timerInterrupt, if_pos h.1]
  dsimp only
  rw [if_pos h.2]

theorem timerInterrupt_user (hcs : tf.cs &&& 3 = 3) (h : p.curalarmticks + 1 ≠ p.alarmticks) :
    timerInterrupt p tf s = some ({ p with curalarmticks := p.curalarmticks + 1 }, tf, s) := by
  rw [timerInterrupt, if_pos hcs]
  dsimp only
  rw [if_neg h]

theorem timerInterrupt_kernel (hcs : tf.cs &&& 3 ≠ 3) : timerInterrupt p tf s = some (p, tf, s) :=
  if_neg hcs

section Store

theorem phys_inj {j : Nat} (hi : i < 4) (hj : j < 4) (h : s.phys (va + BitVec.ofNat 32 i) = some pa)
    (h' : s.phys (va + BitVec.ofNat 32 j) = some pa) : i = j := by
  have hoff : ∀ k < 4, s.phys (va + BitVec.ofNat 32 k) = some pa →
    pa % 4096 = (va.toNat + k) % 4096 := by
    intro k hk hphys
    obtain ⟨pte, -, hpa⟩ := Option.map_eq_some_iff.mp hphys
    rw [offset, BitVec.toNat_add, BitVec.toNat_ofNat] at hpa
    omega
  have hi := hoff i hi h
  have hj := hoff j hj h'
  omega

theorem storeWord_eq_some (h : s.storeWord va w = some s') :
    (∀ i < 4, s.writable (va + BitVec.ofNat 32 i)) ∧ s'.pgdir = s.pgdir ∧
      (∀ i < 4, ∀ pa, s.phys (va + BitVec.ofNat 32 i) = some pa → s'.mem pa = ByteMemory.byte w i) ∧
      ∀ pa, (∀ i < 4, s.phys (va + BitVec.ofNat 32 i) ≠ some pa) → s'.mem pa = s.mem pa := by
  obtain ⟨hwritable, heq⟩ := Option.ite_none_right_eq_some.mp h
  cases heq
  refine ⟨hwritable, rfl, fun i hi pa hpa => ?_, fun pa hpa => ?_⟩
  · dsimp only
    cases hfind : (List.range 4).find? fun i => s.phys (va + BitVec.ofNat 32 i) = some pa with
    | none =>
      rw [List.find?_eq_none] at hfind
      exact absurd (by simpa using hpa) (hfind i (List.mem_range.mpr hi))
    | some j =>
      have hj := List.mem_range.mp (List.mem_of_find?_eq_some hfind)
      have hphys : s.phys (va + BitVec.ofNat 32 j) = some pa := by simpa using List.find?_some hfind
      dsimp only
      rw [phys_inj hj hi hphys hpa]
  · dsimp only
    rw [List.find?_eq_none.mpr]
    intro i hi
    simpa using hpa i (List.mem_range.mp hi)

theorem exists_phys (h : s.writable va) : ∃ pa, s.phys va = some pa := by
  rw [Space.writable] at h
  cases hpte : s.pgdir (page va) with
  | none =>
    rw [hpte] at h
    cases h
  | some pte => exact ⟨_, Option.map_eq_some_iff.mpr ⟨pte, hpte, rfl⟩⟩

end Store

/-- The interrupt ends, and changes no memory but that of pages the user code can access. -/
def Confined (p : Alarm) (tf : Trapframe) (s : Space) : Prop :=
  ∃ p' tf' s', timerInterrupt p tf s = some (p', tf', s') ∧ s'.pgdir = s.pgdir ∧
    ∀ pa, s'.mem pa ≠ s.mem pa → s.UserOwned pa

/-- The interrupt stores the word of `eip` below the stack pointer of the user, with the rights of
the kernel and without any check.  So it is confined exactly if the alarm does not fire, or if each
of the four bytes can be written and is on a page of the user or has its value already. -/
theorem confined_iff (p : Alarm) (tf : Trapframe) (s : Space) :
    Confined p tf s ↔ (Fires p tf → ∀ i < 4, s.writable (tf.esp - 4 + BitVec.ofNat 32 i) ∧
      ∀ pa, s.phys (tf.esp - 4 + BitVec.ofNat 32 i) = some pa →
        s.UserOwned pa ∨ s.mem pa = ByteMemory.byte tf.eip i) := by
  constructor
  · rintro ⟨p', tf', s', hint, -, hconfined⟩ hfires i hi
    rw [timerInterrupt_fires hfires] at hint
    obtain ⟨s1, hstore, heq⟩ := Option.map_eq_some_iff.mp hint
    cases heq
    obtain ⟨hwritable, -, hbytes, -⟩ := storeWord_eq_some hstore
    refine ⟨hwritable i hi, fun pa hpa => ?_⟩
    by_cases hmem : s'.mem pa = s.mem pa
    · exact .inr (hmem.symm.trans (hbytes i hi pa hpa))
    · exact .inl (hconfined pa hmem)
  · intro h
    by_cases hcs : tf.cs &&& 3 = 3
    · by_cases hticks : p.curalarmticks + 1 = p.alarmticks
      · have hwrite := h ⟨hcs, hticks⟩
        obtain ⟨s', hstore⟩ : ∃ s', s.storeWord (tf.esp - 4) tf.eip = some s' :=
          ⟨_, if_pos fun i hi => (hwrite i hi).1⟩
        obtain ⟨-, hpgdir, hbytes, hrest⟩ := storeWord_eq_some hstore
        have hrun := timerInterrupt_fires ⟨hcs, hticks⟩ (s := s)
        rw [hstore] at hrun
        refine ⟨_, _, s', hrun, hpgdir, fun pa hpa => ?_⟩
        by_contra howned
        refine hpa (hrest pa fun i hi hphys => ?_)
        rcases (hwrite i hi).2 pa hphys with hown | hsame
        · exact howned hown
        · exact hpa ((hbytes i hi pa hphys).trans hsame.symm)
      · exact ⟨_, _, s, timerInterrupt_user hcs hticks, rfl, fun pa hpa => absurd rfl hpa⟩
    · exact ⟨_, _, s, timerInterrupt_kernel hcs, rfl, fun pa hpa => absurd rfl hpa⟩

/-- The first process after `userinit`, in memory that was 0, calls `alarm(1, 0)`.  At the next
timer interrupt its stack pointer is just above the start of the kernel memory: the interrupt writes
the physical page 0.  With a stack pointer on a page that is not mapped, the kernel faults. -/
theorem alarm_writes_kernel_memory :
    ∃ s p, (setupkvm 0x107).bind (fun pgdir => Space.inituvm ⟨pgdir, fun _ => 0⟩ 0x1000 []) =
      some s ∧
      sysAlarm 4096 ⟨0, 0, 0⟩ 1 0 = (p, 0) ∧ ¬ Confined p ⟨0x10, 0x80000004, 0x1B⟩ s ∧
      timerInterrupt p ⟨0x10, 0x5004, 0x1B⟩ s = none := by
  obtain ⟨mem, hinit, hmem⟩ := @inituvm_kvm 0x107 (fun _ => 0) 0x1000 []
  refine ⟨_, ⟨1, 0, 0⟩,
    by rw [setupkvm_eq (by decide) (by decide), Option.bind_some, hinit], by decide,
    fun hconfined => ?_, ?_⟩
  · have hfires : Fires ⟨1, 0, 0⟩ ⟨0x10, 0x80000004, 0x1B⟩ := by decide
    have hphys : Space.phys ⟨mapped (kvm 0x107) 0 1 0x1000 true true, mem⟩
        ((0x80000004 : Word) - 4 + BitVec.ofNat 32 0) = some 0 := by
      rw [Space.phys]
      dsimp only
      decide
    rcases ((confined_iff _ _ _).mp hconfined hfires 0 (by decide)).2 0 hphys with howned | hsame
    · obtain ⟨v, pte, hpte, huser, hframe⟩ := howned
      dsimp only at hpte
      by_cases hv : v < 1
      · rw [mapped_inside (Nat.zero_le v) (by omega)] at hpte
        rw [← Option.some.inj hpte] at hframe
        exact absurd hframe (by simp; omega)
      · rw [mapped_outside (by omega)] at hpte
        rw [kvm_not_user hpte] at huser
        cases huser
    · dsimp only at hsame
      rw [hmem 0 (by decide) (by decide)] at hsame
      exact absurd hsame (by decide)
  · rw [timerInterrupt_fires (by decide), Space.storeWord, if_neg]
    · rfl
    · intro hwritable
      have h := hwritable 0 (by decide)
      rw [Space.writable] at h
      dsimp only at h
      exact absurd h (by decide)

end Mit6828.Xv6.Timer
