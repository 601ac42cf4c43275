import Mit6828.Kern.UserMemCheck

namespace Mit6828.Kern.UserPointers

open Mmu Pmap AddressSpace Environment Syscall RefInvariant KernelInvariant PageCallSpec EnvSpec
open BootSpec Execution UserMap UserMemCheck

section Format

variable {load : Word → Option Byte} {fuel : Nat} {s x : Word} {precision : Int} {n : Nat}

/-- The string at `s` ends at its byte `n`, for a print with this precision. -/
def EndsAt (load : Word → Option Byte) (s : Word) (precision : Int) (n : Nat) : Prop :=
  load (s + BitVec.ofNat 32 n) = some 0 ∨ precision = n

theorem add_ofNat_succ (s : Word) (n : Nat) :
    s + BitVec.ofNat 32 (n + 1) = s + 1 + BitVec.ofNat 32 n := by
  rw [BitVec.ofNat_add, BitVec.add_assoc, BitVec.add_comm (BitVec.ofNat 32 n)]
  rfl

theorem mem_fmtString_self (hfuel : 0 < fuel) : s ∈ (fmtString load fuel s precision).1 := by
  obtain ⟨fuel, rfl⟩ := Nat.exists_eq_succ_of_ne_zero hfuel.ne'
  rw [fmtString]
  split
  · exact List.mem_singleton_self s
  split
  · exact List.mem_singleton_self s
  split
  · exact List.mem_cons_self
  · split
    · exact List.mem_cons_self
    · exact List.mem_singleton_self s

theorem fmtString_step {ch : Byte} (hload : load s = some ch) (hch : ch ≠ 0)
    (hprec : precision ≠ 0) : fmtString load (fuel + 1) s precision =
      (s :: (fmtString load fuel (s + 1) (if precision < 0 then precision else precision - 1)).1,
        (fmtString load fuel (s + 1) (if precision < 0 then precision else precision - 1)).2) := by
  rw [fmtString]
  simp only [hload, if_neg hch]
  by_cases hneg : precision < 0
  · rw [if_pos hneg, if_pos hneg]
  · rw [if_neg hneg, if_neg hneg, if_pos (by omega)]

theorem fmtString_visits (hload : ∀ i ≤ n, ∃ ch, load (s + BitVec.ofNat 32 i) = some ch)
    (hend : EndsAt load s precision n) (hx : x ∈ (fmtString load fuel s precision).1) :
    ∃ i ≤ n, x = s + BitVec.ofNat 32 i := by
  induction fuel generalizing s precision n with
  | zero => cases hx
  | succ fuel ih =>
    have hfirst : x = s → ∃ i ≤ n, x = s + BitVec.ofNat 32 i := fun heq =>
      ⟨0, Nat.zero_le n, by rw [heq, BitVec.add_zero]⟩
    obtain ⟨ch, hch⟩ := hload 0 (Nat.zero_le n)
    rw [BitVec.add_zero] at hch
    by_cases hlast : ch = 0 ∨ precision = 0
    · refine hfirst ?_
      rw [fmtString] at hx
      simp only [hch] at hx
      rcases hlast with hzero | hzero
      · rw [if_pos hzero] at hx
        exact List.mem_singleton.mp hx
      · rw [hzero] at hx
        split at hx
        · exact List.mem_singleton.mp hx
        · exact List.mem_singleton.mp hx
    · push Not at hlast
      rw [fmtString_step hch hlast.1 hlast.2] at hx
      rcases List.mem_cons.mp hx with heq | hrest
      · exact hfirst heq
      obtain ⟨n, rfl⟩ : ∃ n', n = n' + 1 := by
        refine Nat.exists_eq_succ_of_ne_zero ?_
        rintro rfl
        rcases hend with hend | hend
        · rw [BitVec.add_zero, hch] at hend
          exact hlast.1 (Option.some.inj hend)
        · exact hlast.2 hend
      obtain ⟨i, hi, heq⟩ := ih (n := n) (fun i hi => by
        rw [← add_ofNat_succ]
        exact hload (i + 1) (by omega)) (by
        rcases hend with hend | hend
        · left
          rw [← add_ofNat_succ]
          exact hend
        · right
          rw [if_neg (by omega)]
          omega) hrest
      exact ⟨i + 1, by omega, by rw [heq, add_ofNat_succ]⟩

theorem fmtString_covers
    (hload : ∀ x ∈ (fmtString load fuel s precision).1, ∃ ch, load x = some ch) :
    (∀ i < fuel, s + BitVec.ofNat 32 i ∈ (fmtString load fuel s precision).1) ∨
      ∃ n, (∀ i ≤ n, s + BitVec.ofNat 32 i ∈ (fmtString load fuel s precision).1) ∧
        EndsAt load s precision n := by
  induction fuel generalizing s precision with
  | zero => exact .inl fun i hi => absurd hi (by omega)
  | succ fuel ih =>
    have hself : s ∈ (fmtString load (fuel + 1) s precision).1 := mem_fmtString_self (by omega)
    obtain ⟨ch, hch⟩ := hload s hself
    by_cases hlast : ch = 0 ∨ precision = 0
    · refine .inr ⟨0, fun i hi => ?_, ?_⟩
      · rw [Nat.le_zero.mp hi, BitVec.add_zero]
        exact hself
      · rcases hlast with hzero | hzero
        · left
          rw [BitVec.add_zero, hch, hzero]
        · exact .inr hzero
    push Not at hlast
    rw [fmtString_step hch hlast.1 hlast.2] at hload ⊢
    have hcons : ∀ {n : Nat} {l : List Word}, (∀ i < n, s + 1 + BitVec.ofNat 32 i ∈ l) →
        ∀ i < n + 1, s + BitVec.ofNat 32 i ∈ s :: l := fun hl i hi => by
      cases i with
      | zero =>
        rw [BitVec.add_zero]
        exact List.mem_cons_self
      | succ i =>
        rw [add_ofNat_succ]
        exact List.mem_cons_of_mem _ (hl i (by omega))
    rcases ih (fun x hx => hload x (List.mem_cons_of_mem _ hx)) with hall | ⟨n, hall, hend⟩
    · exact .inl (hcons hall)
    have hall' := hcons fun i (hi : i < n + 1) => hall i (by omega)
    refine .inr ⟨n + 1, fun i hi => hall' i (by omega), ?_⟩
    rcases hend with hend | hend
    · left
      rw [add_ofNat_succ]
      exact hend
    · right
      split at hend <;> omega

end Format

variable {h : Boot.Machine} {K : KernelMap} {k : Kernel} {free : List Nat} {c cur d : Nat}
  {va len perm : Word} {m : Mem}

/-- Every address that the call accesses because user mode has passed it is one that user mode
may access itself. -/
def PointersSafe (c cur : Nat) (hw : Hw) (k : Kernel) (call : Call) : Prop :=
  ∀ d, (k.envs cur).envPgdir = some d → ∀ a ∈ (exec c cur hw k call).1, userMay d a k.mem

/-- The arguments and states with which a call of the environment with directory `d` is safe. -/
def SafeWhen (cur : Nat) (k : Kernel) (d : Nat) : Call → Prop
  | .cputs s len => ¬ Checked d s len pteU k.mem ∨ s = 0 ∨
      -- the string ends, by its terminator or one byte behind the checked range, while it can
      -- be read
      ∃ n, (∀ i ≤ n, userMay d ⟨s + BitVec.ofNat 32 i, false⟩ k.mem) ∧
        EndsAt (loadByte d k.mem) s len.toInt n
  | .envSetTrapframe envid tf => ∀ e d', envid2env cur envid true k = some e →
      (k.envs e).envPgdir = some d' → Checked d' tf 68 pteU k.mem →
        -- the check in the other address space says nothing about the caller's
        Fits tf 68 ∧ Checked d tf 68 pteU k.mem
  | .pktTrySend buf len => ¬ Checked d buf len pteU k.mem ∨ k.nic.txDd k.nic.tdt = false ∨
      len = 0 ∨ Fits buf len
  | .pktTryRecv buf len => k.nic.rxDd k.nic.next = false ∨
      (∀ x ∈ addrs len 4, userMay d ⟨x, true⟩ k.mem) ∧
        ∀ x ∈ addrs buf (k.nic.rxLength k.nic.next).toNat, userMay d ⟨x, true⟩ k.mem
  | _ => True

theorem userMay_read {x : Word} (hmay : userMay d ⟨x, true⟩ m) : userMay d ⟨x, false⟩ m := by
  obtain ⟨hlt, e, he, hpde, hpte, -⟩ := hmay
  exact ⟨hlt, e, he, hpde, hpte, fun hfalse => by cases hfalse⟩

theorem loadByte_of_userMay {x : Word} (hmay : userMay d ⟨x, false⟩ m) :
    ∃ b, loadByte d m x = some b := by
  obtain ⟨-, e, he, -⟩ := hmay
  rw [loadByte, Option.mem_def.mp he]
  exact ⟨_, rfl⟩

theorem forall_readsOf {vas : List Word} : (∀ a ∈ readsOf vas, userMay d a m) ↔
    ∀ x ∈ vas, userMay d ⟨x, false⟩ m := by
  simp [readsOf]

theorem forall_writesOf {vas : List Word} : (∀ a ∈ writesOf vas, userMay d a m) ↔
    ∀ x ∈ vas, userMay d ⟨x, true⟩ m := by
  simp [writesOf]

theorem userMemAssert_cases (va len perm : Word) (hinv : Inv K k free)
    (hcur : k.curenv c = some cur) (hd : (k.envs cur).envPgdir = some d) :
    Checked d va len (perm ||| pteU) k.mem ∧ userMemAssert c cur va len perm k = .ret () k ∨
      ¬ Checked d va len (perm ||| pteU) k.mem ∧
        ∃ o, userMemAssert c cur va len perm k = .leave o := by
  by_cases hcheck : Checked d va len (perm ||| pteU) k.mem
  · refine .inl ⟨hcheck, ?_⟩
    rw [Checked] at hcheck
    simp only [userMemAssert, hd, hcheck]
  · obtain ⟨a, hfail⟩ := userMemCheck_fails hinv (hinv.env.curenv_lt c cur hcur) hd hcheck
    refine .inr ⟨hcheck, _, Eq.trans ?_ (envDestroy_curenv hcur)⟩
    simp only [userMemAssert, hd, hfail]

theorem cprintfString_safe_iff {s : Word} : (∀ x ∈ (cprintfString d s len m).1,
      userMay d ⟨x, false⟩ m) ↔
    s = 0 ∨ ∃ n, (∀ i ≤ n, userMay d ⟨s + BitVec.ofNat 32 i, false⟩ m) ∧
      EndsAt (loadByte d m) s len.toInt n := by
  rw [cprintfString]
  by_cases hs : s = 0
  · rw [if_pos hs]
    exact iff_of_true (fun x hx => by cases hx) (.inl hs)
  rw [if_neg hs]
  constructor
  · intro hall
    rcases fmtString_covers (fun x hx => loadByte_of_userMay (hall x hx)) with
      hforever | ⟨n, hmem, hend⟩
    · -- going round the whole address space, it would have met ULIM
      have hmay := hall _ (hforever (ulim - s).toNat (ulim - s).isLt)
      rw [BitVec.ofNat_toNat, BitVec.setWidth_eq, BitVec.add_comm, BitVec.sub_add_cancel] at hmay
      exact absurd hmay.1 (BitVec.lt_irrefl ulim)
    · exact .inr ⟨n, fun i hi => hall _ (hmem i hi), hend⟩
  · rintro (hzero | ⟨n, hmay, hend⟩)
    · exact absurd hzero hs
    · intro x hx
      obtain ⟨i, hi, rfl⟩ := fmtString_visits (fun i hi => loadByte_of_userMay (hmay i hi)) hend hx
      exact hmay i hi

section Calls

variable (hinv : Inv K k free) (hcur : k.curenv c = some cur) (hd : (k.envs cur).envPgdir = some d)

include hinv hcur hd

theorem sysCputs_safe_iff (s len : Word) : (∀ a ∈ (sysCputs c cur s len k).1, userMay d a k.mem) ↔
    SafeWhen cur k d (.cputs s len) := by
  obtain ⟨hcheck, hret⟩ | ⟨hcheck, o, hleave⟩ := userMemAssert_cases s len pteU hinv hcur hd
  · have haccess : (sysCputs c cur s len k).1 = readsOf (cprintfString d s len k.mem).1 := by
      simp only [sysCputs, hret, hd]
    rw [haccess, forall_readsOf, cprintfString_safe_iff]
    exact (or_iff_right (not_not.mpr hcheck)).symm
  · have haccess : (sysCputs c cur s len k).1 = [] := by
      cases o <;> simp only [sysCputs, hleave, Exit.leave]
    rw [haccess]
    exact iff_of_true (fun a ha => by cases ha) (.inl hcheck)

theorem sysPktTrySend_safe_iff (buf len : Word) :
    (∀ a ∈ (sysPktTrySend c cur buf len k).1, userMay d a k.mem) ↔
      SafeWhen cur k d (.pktTrySend buf len) := by
  have hlt := hinv.env.curenv_lt c cur hcur
  obtain ⟨hcheck, hret⟩ | ⟨hcheck, o, hleave⟩ := userMemAssert_cases buf len pteU hinv hcur hd
  · have hsend : sysPktTrySend c cur buf len k = e1000Transmit d buf len k := by
      simp only [sysPktTrySend, hret, hd]
    have hcheck : Checked d buf len pteU k.mem := hcheck
    rw [hsend, SafeWhen, e1000Transmit, or_iff_right (not_not.mpr hcheck)]
    by_cases hfull : k.nic.txDd k.nic.tdt = false
    · rw [if_pos hfull]
      exact iff_of_true (fun a ha => by cases ha) (.inl hfull)
    rw [if_neg hfull, or_iff_right hfull, forall_readsOf]
    rcases Nat.eq_zero_or_pos len.toNat with hzero | hpos
    · rw [hzero]
      exact iff_of_true (fun x hx => by cases hx) (.inl (BitVec.eq_of_toNat_eq hzero))
    have hne : len ≠ 0 := fun heq => by
      rw [heq] at hpos
      exact absurd hpos (by decide)
    rw [or_iff_right hne]
    exact ⟨fits_of_userMay hpos, fun hfit =>
      (checked_iff_userMay hinv hlt hd hfit hpos).mp hcheck⟩
  · have haccess : (sysPktTrySend c cur buf len k).1 = [] := by
      cases o <;> simp only [sysPktTrySend, hleave, Exit.leave]
    rw [haccess]
    exact iff_of_true (fun a ha => by cases ha) (.inl hcheck)

theorem sysEnvSetTrapframe_safe_iff (envid tf : Word) :
    (∀ a ∈ (sysEnvSetTrapframe cur envid tf k).1, userMay d a k.mem) ↔
      SafeWhen cur k d (.envSetTrapframe envid tf) := by
  have hlt := hinv.env.curenv_lt c cur hcur
  rw [SafeWhen, sysEnvSetTrapframe]
  cases he : envid2env cur envid true k with
  | none => exact iff_of_true (fun a ha => by cases ha) fun e d' he' => by cases he'
  | some e =>
    cases hd' : (k.envs e).envPgdir with
    | none =>
      simp only [hd']
      refine iff_of_true (fun a ha => by cases ha) fun e' d' he' hd'' => ?_
      rw [← Option.some.inj he', hd'] at hd''
      cases hd''
    | some d' =>
      simp only [hd', hd]
      by_cases hcheck : Checked d' tf 68 pteU k.mem
      · have hres : userMemCheck d' tf (BitVec.ofNat 32 trapframeSize) pteU k.mem = some none :=
          hcheck
        simp only [hres, forall_readsOf]
        constructor
        · intro hmay _ _ _ _ _
          have hfit : Fits tf 68 := fits_of_userMay (by decide) hmay
          exact ⟨hfit, (checked_iff_userMay hinv hlt hd hfit (by decide)).mpr hmay⟩
        · intro hsafe
          obtain ⟨hfit, hchecked⟩ := hsafe e d' rfl hd' hcheck
          exact (checked_iff_userMay hinv hlt hd hfit (by decide)).mp hchecked
      · obtain ⟨a, hfail⟩ := userMemCheck_fails hinv (envid2env_lt hlt he) hd' hcheck
        have hres : userMemCheck d' tf (BitVec.ofNat 32 trapframeSize) pteU k.mem =
            some (some a) := hfail
        simp only [hres]
        refine iff_of_true (fun a ha => by cases ha) fun e' d'' he' hd'' hcheck' => ?_
        rw [← Option.some.inj he', hd'] at hd''
        exact absurd (Option.some.inj hd'' ▸ hcheck') hcheck

omit hinv hcur in
theorem sysPktTryRecv_safe_iff (buf len : Word) :
    (∀ a ∈ (sysPktTryRecv cur buf len k).1, userMay d a k.mem) ↔
      SafeWhen cur k d (.pktTryRecv buf len) := by
  have hrecv : sysPktTryRecv cur buf len k = e1000Receive d buf len k := by
    simp only [sysPktTryRecv, hd]
  rw [hrecv, SafeWhen, e1000Receive]
  by_cases hempty : k.nic.rxDd k.nic.next = false
  · rw [if_pos hempty]
    exact iff_of_true (fun a ha => by cases ha) (.inl hempty)
  · rw [if_neg hempty, or_iff_right hempty]
    simp only [receiveAccesses, List.forall_mem_append, forall_readsOf, forall_writesOf]
    exact ⟨fun hall => ⟨hall.1.1, hall.2⟩,
      fun hall => ⟨⟨hall.1, fun x hx => userMay_read (hall.1 x hx)⟩, hall.2⟩⟩

end Calls

/-- Which system calls of which arguments keep to the caller's memory. -/
theorem pointers_safe_iff (hk : Reachable h NoWrap k) (hcur : k.curenv c = some cur) (hw : Hw)
    (call : Call) : PointersSafe c cur hw k call ↔
      ∀ d, (k.envs cur).envPgdir = some d → SafeWhen cur k d call := by
  obtain ⟨K, free, hinv, -, -⟩ := reachable_inv hk
  refine forall_congr' fun d => forall_congr' fun hd => ?_
  cases call with
  | cputs s len => exact sysCputs_safe_iff hinv hcur hd s len
  | envSetTrapframe envid tf => exact sysEnvSetTrapframe_safe_iff hinv hcur hd envid tf
  | pktTrySend buf len => exact sysPktTrySend_safe_iff hinv hcur hd buf len
  | pktTryRecv buf len => exact sysPktTryRecv_safe_iff hd buf len
  | _ => exact iff_of_true (fun a ha => by cases ha) trivial

/-- Environment 0 maps a page and sends its first four bytes. -/
theorem pointers_safe_small : ∃ k, Reachable smallMachine NoWrap k ∧ k.curenv 0 = some 0 ∧
    (exec 0 0 ⟨0, 0⟩ k (.pktTrySend 4096 4)).1 = readsOf (addrs 4096 4) ∧
    PointersSafe 0 0 ⟨0, 0⟩ k (.pktTrySend 4096 4) := by
  obtain ⟨K, k0, free0, hk0⟩ := smallMachine_runs
  obtain ⟨d, p, k, free, hd0, hstep, hinv, halike, -, hmap, -⟩ :=
    FirstRunning.pageAlloc hk0 (show ¬ badVa 4096 by decide) (show ¬ badPerm 7 by decide)
  have hreach := (hk0.reach.step hstep).mono fun _ _ hs => hs.noWrap
  have hcur : k.curenv 0 = some 0 := (halike.curenv 0).trans hk0.curenv
  have hd : (k.envs 0).envPgdir = some d := (halike.harmless.pgdir 0).trans hd0
  have hmapped : pteOf k 0 (pdx 4096) (ptx 4096) &&& pteP ≠ 0 := by
    rw [hmap.self (by decide) (by decide)]
    exact fun hzero => absurd (or_and_eq_zero_iff.mp hzero).2 (by decide)
  have hround : ∀ i < 4, rounddown (4096 + BitVec.ofNat 32 i) = 4096 := by decide
  have hchecked : Checked d 4096 4 (pteU ||| pteU) k.mem := by
    rw [checked_iff_pages hinv (by decide) hd (by decide) (by decide)]
    intro i hi
    rw [hround i hi, pageOk_iff_mapped hinv (by decide) hd (by decide)]
    exact hmapped
  refine ⟨k, hreach, hcur, ?_,
    (pointers_safe_iff hreach hcur _ _).mpr fun _ _ => .inr (.inr (.inr (by decide)))⟩
  obtain ⟨-, hret⟩ | ⟨hnot, -⟩ := userMemAssert_cases 4096 4 pteU hinv hcur hd
  · have hnic : k.nic = smallMachine.nic := halike.nic.trans hk0.nic
    simp only [exec, sysPktTrySend, hret, hd, e1000Transmit, hnic]
    rfl
  · exact absurd hchecked hnot

/-- A length that takes the end of the range around the address space makes `sys_cputs` read
kernel memory. -/
theorem cputs_reads_kernel : ∃ k, Reachable smallMachine NoWrap k ∧ k.curenv 0 = some 0 ∧
    ¬ PointersSafe 0 0 ⟨0, 0⟩ k (.cputs 0xf0000000 0x10000000) := by
  obtain ⟨K, k, free, hk⟩ := smallMachine_runs
  obtain ⟨d, hd⟩ := (hk.made 0 (by decide)).pgdir
  have hd : (k.envs 0).envPgdir = some d := hd
  refine ⟨k, hk.reach.mono fun _ _ hs => hs.noWrap, hk.curenv, fun hsafe => ?_⟩
  have hret : userMemAssert 0 0 0xf0000000 0x10000000 pteU k = .ret () k := by
    have hcheck : ∀ perm, userMemCheck d 0xf0000000 0x10000000 perm k.mem = some none :=
      fun perm => rfl
    simp only [userMemAssert, hd, hcheck]
  have haccess : (exec 0 0 ⟨0, 0⟩ k (.cputs 0xf0000000 0x10000000)).1 =
      readsOf (fmtString (loadByte d k.mem) (2 ^ 32) 0xf0000000 (0x10000000 : Word).toInt).1 := by
    simp only [exec, sysCputs, hret, hd, cprintfString,
      if_neg (show ¬ (0xf0000000 : Word) = 0 by decide)]
  have hmay := hsafe d hd
  rw [haccess, forall_readsOf] at hmay
  exact absurd (hmay _ (mem_fmtString_self (by decide))).1 (by decide)

end Mit6828.Kern.UserPointers
