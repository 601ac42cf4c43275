import Mit6828.Kern.UserMemCheck

namespace Mit6828.Kern.PageFault

open Mmu Pmap AddressSpace Environment Syscall Trap PageTableSpec RefInvariant
open KernelInvariant EnvSpec AddressSpaceSpec TrapSpec BootSpec Execution UserMap UserMemCheck

/-- How `page_fault_handler` leaves: through `env_run` in a state with the frame in place,
through `env_destroy`, or through a fault of its own. -/
inductive Handling where
  | resume (k : Kernel)
  | destroy
  | fault

def Handling.finish (c cur : Nat) (k : Kernel) : Handling → Exit Unit
  | .resume k' => .leave (envRun c cur k')
  | .destroy => envDestroy c cur k
  | .fault => .stop

/-- The environment is set to go on at its upcall, with the stack pointer at the frame. -/
def atUpcall (cur : Nat) (utf : Word) (m : Mem) (k : Kernel) : Kernel :=
  { k with mem := m }.setEnv cur { k.envs cur with
    envTf := { (k.envs cur).envTf with
      tfEsp := utf, tfEip := (k.envs cur).envPgfaultUpcall } }

def handling (cur : Nat) (faultVa : Word) (tf : Trapframe) (k : Kernel) : Handling :=
  if (k.envs cur).envPgfaultUpcall = 0 then .destroy
  else
    match (k.envs cur).envPgdir with
    | none => .fault
    | some d =>
      match userMemCheck d (utfAddr tf.tfEsp) utrapframeSize (pteW ||| pteU) k.mem with
      | none => .fault
      | some (some _) => .destroy
      | some none =>
        if utfAddr tf.tfEsp > uxstacktop - pgsize then
          match storeBytes d k.mem (utfAddr tf.tfEsp)
              ((utrapframe faultVa tf).flatMap bytesOf) with
          | none => .fault
          | some m => .resume (atUpcall cur (utfAddr tf.tfEsp) m k)
        else .destroy

variable {h : Boot.Machine} {K : KernelMap} {k k' : Kernel} {free : List Nat} {c cur e d : Nat}
  {faultVa : Word} {tf : Trapframe}

theorem leave_andThen {α β : Type} (o : Option Kernel) (f : α → Kernel → Exit β) :
    (Exit.leave o).andThen f = Exit.leave o := by
  cases o <;> rfl

theorem pageFaultHandler_eq_handling (hcur : k.curenv c = some cur) :
    pageFaultHandler c cur faultVa tf k = (handling cur faultVa tf k).finish c cur k := by
  rw [pageFaultHandler, handling]
  by_cases hup : (k.envs cur).envPgfaultUpcall = 0
  · rw [if_neg (not_not.mpr hup), if_pos hup]
    rfl
  rw [if_pos hup, if_neg hup]
  simp only [pgfaultUpcall, userMemAssert]
  cases hd : (k.envs cur).envPgdir with
  | none => rfl
  | some d =>
    rcases hcheck : userMemCheck d (utfAddr tf.tfEsp) utrapframeSize (pteW ||| pteU) k.mem
      with _ | _ | a
    · simp only [hcheck]
      rfl
    · simp only [hcheck, Exit.andThen, hd]
      by_cases hroom : utfAddr tf.tfEsp > uxstacktop - pgsize
      · rw [if_pos hroom, if_pos hroom]
        cases storeBytes d k.mem (utfAddr tf.tfEsp)
          ((utrapframe faultVa tf).flatMap bytesOf) with
        | none => rfl
        | some m => simp only [Handling.finish, atUpcall, hd]
      · rw [if_neg hroom, if_neg hroom]
        rfl
    · simp only [hcheck, envDestroy_curenv hcur, leave_andThen]
      exact (envDestroy_curenv hcur).symm

/-- The frame is on the exception stack, on addresses that the environment may write. -/
def FrameStored (cur : Nat) (faultVa : Word) (tf : Trapframe) (k k' : Kernel) : Prop :=
  ∃ d utf m, (k.envs cur).envPgdir = some d ∧ uxstacktop - pgsize ≤ utf ∧
    utf.toNat + 52 ≤ uxstacktop.toNat ∧ (∀ x ∈ addrs utf 52, userMay d ⟨x, true⟩ k.mem) ∧
    storeBytes d k.mem utf ((utrapframe faultVa tf).flatMap bytesOf) = some m ∧
    k' = atUpcall cur utf m k

/-- The fault reaches the upcall with its frame in place, or `env_destroy` is called and
`env_free` frees the environment. -/
def Handled (cur : Nat) (faultVa : Word) (tf : Trapframe) (k : Kernel) : Prop :=
  (handling cur faultVa tf k = .destroy ∧ ∃ k', envFree cur k = some k') ∨
    ∃ k', handling cur faultVa tf k = .resume k' ∧ FrameStored cur faultVa tf k k'

theorem not_handled_of_fault (hway : handling cur faultVa tf k = .fault) :
    ¬ Handled cur faultVa tf k := by
  rintro (⟨hdestroy, -⟩ | ⟨k', hresume, -⟩)
  · exact absurd (hway.symm.trans hdestroy) (by simp)
  · exact absurd (hway.symm.trans hresume) (by simp)

def xstack : Word := uxstacktop - pgsize

theorem xstack_lt_utop : xstack < utop := by decide

theorem frame_on_xstack {utf x : Word} (hlo : utf > xstack)
    (hhi : utf.toNat + 52 ≤ uxstacktop.toNat) (hx : x ∈ addrs utf 52) :
    rounddown x = xstack ∧ pdx x = pdx xstack ∧ ptx x = ptx xstack ∧ x < utop := by
  have hlo' : 4005556224 < utf.toNat := hlo
  have hhi' : utf.toNat + 52 ≤ 4005560320 := hhi
  obtain ⟨i, hi, rfl⟩ := mem_addrs.mp hx
  have hnat : (utf + BitVec.ofNat 32 i).toNat = utf.toNat + i := by grind
  have hbase : xstack.toNat = 4005556224 := rfl
  refine ⟨BitVec.eq_of_toNat_eq ?_, ?_, ?_, ?_⟩
  · grind
  · grind
  · grind
  · change (utf + BitVec.ofNat 32 i).toNat < 4005560320
    omega

theorem utfAddr_gt_iff (esp : Word) :
    utfAddr esp > xstack ↔ ¬ (xstack ≤ esp ∧ esp ≤ xstack + 56) := by
  have hbase : xstack.toNat = 4005556224 := rfl
  have htop : (uxstacktop - 1).toNat = 4005560319 := rfl
  have hlow : (xstack + 56).toNat = 4005556280 := rfl
  rw [utfAddr, utrapframeSize]
  change xstack < (if xstack ≤ esp ∧ esp ≤ uxstacktop - 1 then _ else _) ↔ _
  simp only [BitVec.lt_def, BitVec.le_def, htop, hbase, hlow]
  split
  · grind
  · grind

variable {esp : Word}

section

variable (hinv : Inv K k free) (he : e < nenv)
include hinv he

/-- The check passes whenever the exception stack is mapped, writable or not. -/
theorem checked_frame_iff (hd : (k.envs e).envPgdir = some d) (hroom : utfAddr esp > xstack) :
    Checked d (utfAddr esp) utrapframeSize (pteW ||| pteU) k.mem ↔
      pteOf k e (pdx xstack) (ptx xstack) &&& pteP ≠ 0 := by
  have hle : (utfAddr esp).toNat + 52 ≤ 4005560320 := utfAddr_le esp
  have hfit : Fits (utfAddr esp) utrapframeSize := by
    change _ + 52 + 4095 < 4294967296
    omega
  have hpage : ∀ i < 52, rounddown (utfAddr esp + BitVec.ofNat 32 i) = xstack := fun i hi =>
    (frame_on_xstack hroom (utfAddr_le esp) (mem_addrs.mpr ⟨i, hi, rfl⟩)).1
  rw [checked_iff_pages hinv he hd hfit (by decide), ← pageOk_iff_mapped hinv he hd xstack_lt_utop]
  constructor
  · intro hall
    rw [← hpage 0 (by decide)]
    exact hall 0 (by decide)
  · intro hok i hi
    rw [hpage i hi]
    exact hok

theorem frame_storable (hroom : utfAddr esp > xstack)
    (hP : pteOf k e (pdx xstack) (ptx xstack) &&& pteP ≠ 0)
    (hW : pteOf k e (pdx xstack) (ptx xstack) &&& pteW ≠ 0) :
    ∀ x ∈ addrs (utfAddr esp) 52, Storable k free e x := by
  intro x hx
  obtain ⟨-, hpdx, hptx, hlt⟩ := frame_on_xstack hroom (utfAddr_le esp) hx
  rw [Storable, pteSlot, ← pteOf_eq_view free hinv.env he, hpdx, hptx]
  exact ⟨hlt, hP, hW⟩

theorem frame_userMay (hd : (k.envs e).envPgdir = some d)
    (hroom : utfAddr esp > xstack) (hP : pteOf k e (pdx xstack) (ptx xstack) &&& pteP ≠ 0)
    (hW : pteOf k e (pdx xstack) (ptx xstack) &&& pteW ≠ 0) :
    ∀ x ∈ addrs (utfAddr esp) 52, userMay d ⟨x, true⟩ k.mem := by
  intro x hx
  obtain ⟨-, hpdx, hptx, hlt⟩ := frame_on_xstack hroom (utfAddr_le esp) hx
  have hpresent : k.mem.phys d (pdx xstack) &&& pteP ≠ 0 := fun habsent => by
    rw [pteOf_of_absent hd habsent] at hP
    exact hP BitVec.zero_and
  have hdir := hinv.mem.shaped.pde e he _ (pdx_lt_pdxUtop xstack_lt_utop)
  rw [← pde_eq_view hinv he hd] at hdir
  have hflags := (hdir.resolve_left fun hzero => hpresent (by
    rw [hzero]
    exact BitVec.zero_and)).flags
  have huser := isUserEntry_pteOf hinv he xstack_lt_utop hP
  rw [pteOf_of_present hd hpresent] at hP hW huser
  refine ⟨BitVec.lt_def.mpr (lt_trans (BitVec.lt_def.mp hlt) (by decide)),
    (k.mem.phys d (pdx xstack), k.mem.phys (pgnum (k.mem.phys d (pdx xstack))) (ptx xstack)), ?_,
    hflags.2.2, huser.2, fun _ => ⟨hflags.2.1, hW⟩⟩
  rw [Option.mem_def, AddressSpace.translate, hpdx, hptx]
  exact if_pos ⟨hpresent, hP⟩

end

theorem storeFrame_readOnly (hd : (k.envs e).envPgdir = some d) (hroom : utfAddr esp > xstack)
    (hW : pteOf k e (pdx xstack) (ptx xstack) &&& pteW = 0) (b : Byte) (bs : List Byte) :
    storeBytes d k.mem (utfAddr esp) (b :: bs) = none := by
  obtain ⟨-, hpdx, hptx, -⟩ := frame_on_xstack hroom (utfAddr_le esp)
    (mem_addrs.mpr ⟨0, by decide, (BitVec.add_zero _).symm⟩)
  have hbyte : storeByte d k.mem (utfAddr esp) b = none := by
    rw [storeByte, AddressSpace.translate, hpdx, hptx]
    split
    · rename_i hpresent
      rw [pteOf_of_present hd hpresent.1] at hW
      exact if_neg fun hboth => hboth.2 hW
    · rfl
  rw [storeBytes, hbyte]
  rfl

/-- With room for the frame, the handler destroys the environment if the exception stack is not
mapped, stores the frame if it is writable, and faults otherwise. -/
theorem handling_of_room (faultVa : Word) (hinv : Inv K k free) (hlt : cur < nenv)
    (hup : (k.envs cur).envPgfaultUpcall ≠ 0) (hd : (k.envs cur).envPgdir = some d)
    (hroom : utfAddr tf.tfEsp > xstack) :
    (pteOf k cur (pdx xstack) (ptx xstack) &&& pteP = 0 ∧
      handling cur faultVa tf k = .destroy) ∨
    (pteOf k cur (pdx xstack) (ptx xstack) &&& pteW ≠ 0 ∧
      ∃ k', handling cur faultVa tf k = .resume k' ∧ FrameStored cur faultVa tf k k') ∨
    (pteOf k cur (pdx xstack) (ptx xstack) &&& pteP ≠ 0 ∧
      pteOf k cur (pdx xstack) (ptx xstack) &&& pteW = 0 ∧
      handling cur faultVa tf k = .fault) := by
  have hroom' : utfAddr tf.tfEsp > uxstacktop - pgsize := hroom
  by_cases hP : pteOf k cur (pdx xstack) (ptx xstack) &&& pteP = 0
  · obtain ⟨a, hfail⟩ := userMemCheck_fails hinv hlt hd
      (mt (checked_frame_iff hinv hlt hd hroom).mp (not_not.mpr hP))
    refine .inl ⟨hP, ?_⟩
    simp only [handling, if_neg hup, hd, hfail]
  have hcheck : userMemCheck d _ _ _ k.mem = some none :=
    (checked_frame_iff hinv hlt hd hroom).mpr hP
  by_cases hW : pteOf k cur (pdx xstack) (ptx xstack) &&& pteW = 0
  · refine .inr (.inr ⟨hP, hW, ?_⟩)
    obtain ⟨b, bs, hbytes⟩ : ∃ b bs, (utrapframe faultVa tf).flatMap bytesOf = b :: bs :=
      ⟨_, _, rfl⟩
    have hstore := storeFrame_readOnly hd hroom hW b bs
    simp only [handling, if_neg hup, hd, hcheck, if_pos hroom', hbytes, hstore]
  · obtain ⟨m, hm⟩ := storeBytes_returns hinv hlt hd ((utrapframe faultVa tf).flatMap bytesOf)
      (by rw [length_utrapframe]; exact frame_storable hinv hlt hroom hP hW)
    refine .inr (.inl ⟨hW, _, ?_, d, utfAddr tf.tfEsp, m, hd, ?_, utfAddr_le _,
      frame_userMay hinv hlt hd hroom hP hW, hm, rfl⟩)
    · simp only [handling, if_neg hup, hd, hcheck, if_pos hroom', hm]
    · exact BitVec.le_def.mpr (BitVec.lt_def.mp hroom).le

theorem handling_of_noRoom (hinv : Inv K k free) (hlt : cur < nenv)
    (hup : (k.envs cur).envPgfaultUpcall ≠ 0) (hd : (k.envs cur).envPgdir = some d)
    (hroom : ¬ utfAddr tf.tfEsp > xstack) : handling cur faultVa tf k = .destroy := by
  have hroom' : ¬ utfAddr tf.tfEsp > uxstacktop - pgsize := hroom
  by_cases hcheck : Checked d (utfAddr tf.tfEsp) utrapframeSize (pteW ||| pteU) k.mem
  · rw [Checked] at hcheck
    simp only [handling, if_neg hup, hd, hcheck, if_neg hroom']
  · obtain ⟨a, hfail⟩ := userMemCheck_fails hinv hlt hd hcheck
    simp only [handling, if_neg hup, hd, hfail]

theorem handled_iff (hinv : Inv K k free) (hw : k.mem.wrapped = false) (hlt : cur < nenv) :
    Handled cur faultVa tf k ↔ (k.envs cur).envPgdir ≠ none ∧
      ((k.envs cur).envPgfaultUpcall = 0 ∨ xstack ≤ tf.tfEsp ∧ tf.tfEsp ≤ xstack + 56 ∨
        pteOf k cur (pdx xstack) (ptx xstack) &&& pteP = 0 ∨
        pteOf k cur (pdx xstack) (ptx xstack) &&& pteW ≠ 0) := by
  cases hd : (k.envs cur).envPgdir with
  | none =>
    refine iff_of_false ?_ fun hsome => hsome.1 rfl
    rintro (⟨-, k', hfree⟩ | ⟨k', -, d, -, -, hd', -⟩)
    · obtain ⟨d, m, hd', -⟩ := envFree_eq_some hfree
      exact absurd (hd.symm.trans hd') (by simp)
    · exact absurd (hd.symm.trans hd') (by simp)
  | some d =>
    obtain ⟨k1, free', hfreed⟩ := envFree_spec hinv hw hlt hd
    have hfree : ∃ k', envFree cur k = some k' := ⟨k1, hfreed.result⟩
    rw [and_iff_right (by simp)]
    by_cases hup : (k.envs cur).envPgfaultUpcall = 0
    · exact iff_of_true (.inl ⟨if_pos hup, hfree⟩) (.inl hup)
    by_cases hroom : utfAddr tf.tfEsp > xstack
    · obtain ⟨hP, hway⟩ | ⟨hW, k', hway⟩ | ⟨hP, hW, hway⟩ :=
        handling_of_room faultVa hinv hlt hup hd hroom
      · exact iff_of_true (.inl ⟨hway, hfree⟩) (.inr (.inr (.inl hP)))
      · exact iff_of_true (.inr ⟨k', hway⟩) (.inr (.inr (.inr hW)))
      · refine iff_of_false (not_handled_of_fault hway) ?_
        rintro (hzero | hspace | hP' | hW')
        · exact hup hzero
        · exact (utfAddr_gt_iff tf.tfEsp).mp hroom hspace
        · exact hP hP'
        · exact hW' hW
    · have hspace := not_not.mp (mt (utfAddr_gt_iff tf.tfEsp).mpr hroom)
      exact iff_of_true (.inl ⟨handling_of_noRoom hinv hlt hup hd hroom, hfree⟩)
        (.inr (.inl hspace))

/-- A page fault in user mode, from the moment `trap` has copied the trap frame. -/
theorem page_fault_handled_iff (hk : Reachable h NoWrap k) (hcur : k.curenv c = some cur)
    (faultVa : Word) (tf : Trapframe) :
    pageFaultHandler c cur faultVa tf (entered c cur tf k) =
      (handling cur faultVa tf (entered c cur tf k)).finish c cur (entered c cur tf k) ∧
    (Handled cur faultVa tf (entered c cur tf k) ↔ (k.envs cur).envPgdir ≠ none ∧
        ((k.envs cur).envPgfaultUpcall = 0 ∨ xstack ≤ tf.tfEsp ∧ tf.tfEsp ≤ xstack + 56 ∨
          pteOf k cur (pdx xstack) (ptx xstack) &&& pteP = 0 ∨
          pteOf k cur (pdx xstack) (ptx xstack) &&& pteW ≠ 0)) := by
  obtain ⟨K, free, hinv, -, hw⟩ := reachable_inv hk
  have halike := alike_entered c cur tf k
  have hcur' := (halike.curenv c).trans hcur
  have henv : (entered c cur tf k).envs cur = { k.envs cur with envTf := tf } :=
    Kernel.setEnv_envs_self
  refine ⟨pageFaultHandler_eq_handling hcur', ?_⟩
  rw [handled_iff (hinv.harmless halike.harmless) (halike.mem ▸ hw)
    (hinv.env.curenv_lt c cur hcur), henv, pteOf_of_alike halike]

theorem small_upcall {perm : Word} (hperm : ¬ badPerm perm) : ∃ k p,
    Reachable smallMachine NoWrap k ∧ k.curenv 0 = some 0 ∧ (k.envs 0).envPgfaultUpcall = 1 ∧
      (k.envs 0).envPgdir ≠ none ∧
      pteOf k 0 (pdx xstack) (ptx xstack) = page2pa p ||| perm ||| pteP := by
  obtain ⟨K, k, free, hk⟩ := smallMachine_runs
  obtain ⟨d, p, k1, free1, hd, hstep1, hinv1, halike1, -, hmap, -⟩ :=
    FirstRunning.pageAlloc hk (show ¬ badVa xstack by decide) hperm
  have hd1 : (k1.envs 0).envPgdir = some d := (halike1.harmless.pgdir 0).trans hd
  have hcur1 : k1.curenv 0 = some 0 := (halike1.curenv 0).trans hk.curenv
  have hrun1 : (k1.envs 0).envStatus = .running := (halike1.status_eq 0).trans hk.running
  obtain ⟨k2, k3, hstep2, ⟨hup, hmem, hd2, hcur2⟩, halike2⟩ := step_syscall
    (P := fun k2 => (k2.envs 0).envPgfaultUpcall = 1 ∧ k2.mem = k1.mem ∧
      (k2.envs 0).envPgdir = some d ∧ k2.curenv 0 = some 0) ⟨0, 0⟩ 10 0 1 0 0 0
    (by rw [halike1.ncpu]; exact hk.ncpu ▸ by decide) hcur1 hrun1 fun k0 halike => by
      have hd0 := (halike.harmless.pgdir 0).trans hd1
      have hcur0 := (halike.curenv 0).trans hcur1
      exact ⟨0, _, rfl, hcur0, (halike.status_eq 0).trans hrun1, ⟨d, hd0⟩, rfl, halike.mem, hd0,
        hcur0⟩
  have hd3 := (halike2.harmless.pgdir 0).trans hd2
  have hmem3 : k3.mem = k1.mem := halike2.mem.trans hmem
  obtain ⟨tf, runs, cpu, henv⟩ := halike2.env 0
  have hreach1 := (hk.reach.step hstep1).mono fun _ _ hs => hs.noWrap
  refine ⟨k3, p, hreach1.step ⟨.inl hstep2, hmem3 ▸ hstep1.2⟩, (halike2.curenv 0).trans hcur2, ?_,
    by simp [hd3], ?_⟩
  · rw [henv]
    exact hup
  · have hsame : pteOf k3 0 (pdx xstack) (ptx xstack) = pteOf k1 0 (pdx xstack) (ptx xstack) := by
      simp only [pteOf, pdeOf, hd3, hd1, hmem3]
    rw [hsame, hmap.self (by decide) (by decide)]

theorem page_fault_handled_small : ∃ k, Reachable smallMachine NoWrap k ∧ k.curenv 0 = some 0 ∧
    (k.envs 0).envPgfaultUpcall = 1 ∧
    Handled 0 0 { initTf with tfEsp := 0xeebfe000 }
      (entered 0 0 { initTf with tfEsp := 0xeebfe000 } k) := by
  obtain ⟨k, p, hk, hcur, hup, hd, hpte⟩ := small_upcall (show ¬ badPerm 7 by decide)
  refine ⟨k, hk, hcur, hup, (page_fault_handled_iff hk hcur 0 _).2.mpr ⟨hd, .inr (.inr (.inr ?_))⟩⟩
  rw [hpte]
  exact fun hzero => absurd (or_and_eq_zero_iff.mp (or_and_eq_zero_iff.mp hzero).1).2 (by decide)

/-- A fault with a read-only exception stack makes the kernel fault. -/
theorem read_only_xstack_faults : ∃ k, Reachable smallMachine NoWrap k ∧ k.curenv 0 = some 0 ∧
    pageFaultHandler 0 0 0 { initTf with tfEsp := 0xeebfe000 }
      (entered 0 0 { initTf with tfEsp := 0xeebfe000 } k) = .stop ∧
    ¬ Handled 0 0 { initTf with tfEsp := 0xeebfe000 }
      (entered 0 0 { initTf with tfEsp := 0xeebfe000 } k) := by
  obtain ⟨k, p, hk, hcur, hup, hd, hpte⟩ := small_upcall (show ¬ badPerm 5 by decide)
  obtain ⟨K, free, hinv, -, -⟩ := reachable_inv hk
  obtain ⟨d, hd⟩ := Option.ne_none_iff_exists'.mp hd
  generalize htf : { initTf with tfEsp := 0xeebfe000 } = tf
  have hroom : utfAddr tf.tfEsp > xstack := htf ▸ by decide
  have halike := alike_entered 0 0 tf k
  have henv : (entered 0 0 tf k).envs 0 = { k.envs 0 with envTf := tf } := Kernel.setEnv_envs_self
  have hway : handling 0 0 tf (entered 0 0 tf k) = .fault := by
    have hcases := handling_of_room 0 (hinv.harmless halike.harmless)
      (show 0 < nenv by decide) (by rw [henv, hup]; decide) (by rw [henv, hd]) hroom
    rw [pteOf_of_alike halike, hpte] at hcases
    obtain ⟨hP, -⟩ | ⟨hW, -⟩ | ⟨-, -, hway⟩ := hcases
    · exact absurd (or_and_eq_zero_iff.mp hP).2 (by decide)
    · refine absurd (or_and_eq_zero_iff.mpr ⟨or_and_eq_zero_iff.mpr ⟨?_, ?_⟩, ?_⟩) hW
      · exact page2pa_and_eq_zero (by decide) p
      · decide
      · decide
    · exact hway
  refine ⟨k, hk, hcur, ?_, ?_⟩
  · rw [pageFaultHandler_eq_handling ((halike.curenv 0).trans hcur), hway]
    rfl
  · exact not_handled_of_fault hway

end Mit6828.Kern.PageFault
