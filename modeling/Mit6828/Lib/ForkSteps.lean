import Mit6828.Kern.UserMemCheck
import Mit6828.Lib.ForkSimulation

namespace Mit6828.Lib.ForkSteps

open Kern.Mmu Kern.Pmap Kern.AddressSpace Kern.RefInvariant Kern.Environment Kern.Separation
open Kern.KernelInvariant Kern.PageMap Kern.UserMap
open Kern.UserPages Kern.EnvNames Kern.Syscall Kern.TrapSpec Fork EagerFork ForkInvariant
open ForkSimulation Function

variable {K : KernelMap} {k k' : Kernel} {free : List Nat} {e x c n pn p d i : Nat}
  {va addr w r mask : Word} {proc : Nat → Option Process} {P P' : Process} {a : Eager}
  {o : Option Process} {m : Mem}

section Addresses

theorem pgnum_rounddown (addr : Word) : pgnum (rounddown addr) = pgnum addr := by
  grind

theorem InRegion.lt (h : InRegion pn) : pn < pgnumUtop :=
  h.2.trans (by decide)

theorem lt_utop_of_pgnum (h : pgnum va < pgnumUtop) : va < utop := by
  have hutop : utop.toNat = 955 * 1024 * 4096 := rfl
  rw [pgnum_eq, pgnumUtop, show pdxUtop = 955 from rfl, show nptentries = 1024 from rfl] at h
  rw [BitVec.lt_def, hutop]
  omega

theorem lt_utop_of_inRegion (h : InRegion (pgnum va)) : va < utop :=
  lt_utop_of_pgnum (InRegion.lt h)

theorem toNat_vaOf (h : pn < 1048576) : (vaOf pn).toNat = pn * 4096 := by
  have hsize : pgsize.toNat = 4096 := rfl
  rw [vaOf, BitVec.toNat_mul, BitVec.toNat_ofNat, hsize]
  omega

theorem pgnum_vaOf (h : pn < 1048576) : pgnum (vaOf pn) = pn := by
  rw [pgnum_eq, toNat_vaOf h]
  omega

theorem vaOf_not_badVa (h : pn < pgnum ustacktop) : ¬ badVa (vaOf pn) := by
  rw [show pgnum ustacktop = 977918 by decide] at h
  rw [not_badVa_iff, toNat_vaOf (by omega)]
  omega

@[grind =]
theorem toNat_pgoff (la : Word) : (pgoff la).toNat = la.toNat % 4096 := by
  rw [pgoff, BitVec.toNat_and]
  exact Nat.and_two_pow_sub_one_eq_mod la.toNat 12

theorem pgnum_word (halign : addr.toNat % 4096 = 0) (hi : i < 1024) :
    pgnum (addr + BitVec.ofNat 32 (4 * i)) = pgnum addr ∧
      (pgoff (addr + BitVec.ofNat 32 (4 * i))).toNat / 4 = i := by
  have hlt := addr.isLt
  have hadd : (addr + BitVec.ofNat 32 (4 * i)).toNat = addr.toNat + 4 * i := by grind
  grind

end Addresses

section Tests

theorem pde_of_pte {j : Nat} (h : pteOf k e i j &&& mask ≠ 0) : pdeOf k e i &&& pteP ≠ 0 := by
  intro hP
  have hzero : pteOf k e i j = 0 := by
    simp only [pteOf, frameOf, hP, ne_eq, not_true_eq_false, if_false]
  rw [hzero] at h
  exact h BitVec.zero_and

theorem present_iff (he : e < nenv) (hpn : pn < pgnumUtop) :
    Present k e pn ↔ frameOf ((pages k).entry e pn) ≠ none := by
  rw [pages_entry he hpn, pteAt, Present, frameOf]
  constructor
  · rintro ⟨-, hP⟩
    rw [if_pos hP]
    simp
  · intro hframe
    have hP : pteOf k e (pn / 1024) (pn % 1024) &&& pteP ≠ 0 := fun hP =>
      hframe (if_neg (not_not.mpr hP))
    exact ⟨pde_of_pte hP, hP⟩

theorem cow_iff (he : e < nenv) (hva : va < utop) :
    Cow k e va ↔ (pages k).entry e (pgnum va) &&& pteCow ≠ 0 := by
  rw [pages_entry_pgnum he hva, Cow, and_iff_right_of_imp]
  exact pde_of_pte

theorem maps_of_mask (h : Inv K k free) (he : e < nenv) (hva : va < utop)
    (hmask : (pages k).entry e (pgnum va) &&& mask ≠ 0) : ∃ p, (pages k).Maps e (pgnum va) p := by
  rw [pages_entry_pgnum he hva] at hmask
  have huser := isUserEntry_pteOf h he hva hmask
  rw [← pages_entry_pgnum he hva] at huser
  exact ⟨_, if_pos huser.1⟩

end Tests

structure Matches (s : Machine) (a : Eager) : Prop where
  inv : ∃ K free, Inv K s.kernel free
  named : Named s.kernel
  family : Family s.kernel s.proc
  sound : Sound s.proc (pages s.kernel)
  sim : Sim s.proc (pages s.kernel) a

section Memory

variable {s : Machine}

theorem dir_of_mem (hk : k' = { k with mem := k'.mem }) (x : Nat) :
    (k'.envs x).envPgdir = (k.envs x).envPgdir := by
  rw [hk]

/-- The kernel `k` that a call leaves is sound, with the same directories. -/
structure After (s : Machine) (k : Kernel) : Prop where
  inv : ∃ K free, Inv K k free
  named : Named k
  dir : ∀ x, (k.envs x).envPgdir = (s.kernel.envs x).envPgdir

theorem After.refl (h : Matches s a) : After s s.kernel := ⟨h.inv, h.named, fun _ => rfl⟩

theorem After.of_mem (h : Matches s a) (hk : ∃ K free, Inv K k free)
    (hmem : k = { s.kernel with mem := k.mem }) : After s k :=
  ⟨hk, named_of_mem h.named hmem, dir_of_mem hmem⟩

section

variable (h : Matches s a) (hP : s.proc e = some P)
include h hP

theorem inv_env : ∃ K free, Inv K s.kernel free ∧ e < nenv :=
  let ⟨K, free, hinv⟩ := h.inv
  ⟨K, free, hinv, (h.family.live e (by simp [hP])).1⟩

theorem matches_setFault {f : Option Handler} {a' : Eager} (hk : ∃ K free, Inv K k free)
    (hmem : k = { s.kernel with mem := k.mem })
    (hsound : Sound (update s.proc e (some { P with fault := f })) (pages k))
    (hsim : Sim (update s.proc e (some { P with fault := f })) (pages k) a') :
    Matches ⟨k, update s.proc e (some { P with fault := f })⟩ a' :=
  ⟨hk, named_of_mem h.named hmem, (h.family.moves (moves_update hP { P with fault := f })
    (fun _ n hc => ⟨n, hc⟩) fun pc envid n hpc => h.family.ids e P pc envid n hP hpc).kernel
      fun y hy => (dir_of_mem hmem y).symm ▸ hy, hsound, hsim⟩

theorem matches_store {b : Byte} (hidle : P.fault = none ∨ pgnum va = pgnum (uxstacktop - pgsize))
    (hd : (s.kernel.envs e).envPgdir = some d) (hmay : userMay d ⟨va, true⟩ s.kernel.mem)
    (hm : storeByte d s.kernel.mem va b = some m) :
    ∃ a', Eager.Run a [.store e va b] a' ∧ Matches (s.setKernel { s.kernel with mem := m }) a' := by
  obtain ⟨K, free, hinv, he⟩ := inv_env h hP
  obtain ⟨hva, p, hp, hW⟩ := (userMay_pages hinv he hd va).mp hmay
  obtain ⟨hstored, hpages⟩ := storeByte_pages hinv he hd hp hva hm
  obtain ⟨a', hrun, hsim⟩ := h.sim.stored h.sound h.family hP hidle hp hW (b := b)
  refine ⟨a', hrun, ⟨K, free, hstored.inv⟩, h.named.congr fun _ => rfl,
    h.family.kernel fun _ => id, ?_, ?_⟩
  · change Sound s.proc (pages { s.kernel with mem := m })
    rw [hpages]
    exact h.sound.stored h.family hP hidle hp hW
  · change Sim s.proc (pages { s.kernel with mem := m }) a'
    rw [hpages]
    exact hsim

theorem matches_fault (hidle : P.fault = none) (hd : (s.kernel.envs e).envPgdir = some d)
    (hmay : ¬ userMay d ⟨va, true⟩ s.kernel.mem) (hcow : Cow s.kernel e va) :
    Matches (s.setProc e (some { P with fault := some (.alloc va) })) a := by
  obtain ⟨K, free, hinv, he⟩ := inv_env h hP
  have hm := moves_update hP { P with fault := some (.alloc va) }
  refine matches_setFault h hP ⟨K, free, hinv⟩ rfl (h.sound.setFault hm rfl (by simp [hidle]) ?_)
    (h.sim.outside h.sound h.family hm (.refl _) (fun _ _ => Iff.rfl) fun _ _ => Iff.rfl)
  rintro f ⟨⟩ hin
  have hva := lt_utop_of_inRegion hin
  have hC := (cow_iff he hva).mp hcow
  obtain ⟨p, hp⟩ := maps_of_mask hinv he hva hC
  have hW : (pages s.kernel).entry e (pgnum va) &&& pteW = 0 := by
    by_contra hW
    exact hmay ((userMay_pages hinv he hd va).mpr ⟨hva, p, hp, hW⟩)
  refine ⟨⟨p, hp⟩, ?_, hW, hC⟩
  by_contra hS
  exact h.sound.tidy e _ (known_of_proc hP) hin hS hC hW

theorem matches_stopped (hk : After s k) (hsame : (pages s.kernel).Same (pages k)) :
    Matches ⟨k, update s.proc e none⟩ ((a.setLive e False).setForking e none) := by
  have hlive : s.proc e ≠ none := by simp [hP]
  have hnone : update s.proc e none e = none := update_self _ _ _
  have hother : ∀ y, y ≠ e → update s.proc e none y = s.proc y := fun y hne =>
    update_of_ne hne _ _
  exact ⟨hk.inv, hk.named, (h.family.stopped hnone hother).kernel fun x hx => (hk.dir x).symm ▸ hx,
    (h.sound.stopped h.family hlive hnone hother).same hsame,
    h.sim.stopped h.sound h.family hlive hnone hother (.of_same hsame)⟩

end

theorem translate_maps (h : Inv K k free) (he : e < nenv) (hd : (k.envs e).envPgdir = some d)
    (hva : va < utop) {pde pte : Word} (htr : translate d va k.mem = some (pde, pte)) :
    (pages k).Maps e (pgnum va) (pgnum pte) := by
  obtain ⟨-, hnone⟩ | ⟨pde', p, hp, -, hnum, -, htr'⟩ := translate_pages h he hd hva
  · rw [hnone] at htr
    cases htr
  · rw [htr'] at htr
    cases htr
    exact hnum ▸ hp

theorem copyWord_eq {m' : Mem} {dst src : Word} (h : copyWord d m dst src = some m') :
    ∃ pde pte pde' pte', translate d src m = some (pde, pte) ∧
      translate d dst m = some (pde', pte') ∧
      m' = m.setWord (wordAt pte' dst) (m.word (wordAt pte src)) := by
  simp only [copyWord, Option.bind_eq_bind, Option.bind_eq_some_iff, Prod.exists] at h
  obtain ⟨pde, pte, hsrc, pde', pte', hdst, h⟩ := h
  split at h
  · cases h
    exact ⟨pde, pte, pde', pte', hsrc, hdst, rfl⟩
  · cases h

theorem matches_copy (h : Matches s a) (hP : s.proc e = some P)
    (hfault : P.fault = some (.copy addr i)) (hi : i < 1024)
    (hd : (s.kernel.envs e).envPgdir = some d)
    (hm : copyWord d s.kernel.mem (pftemp + BitVec.ofNat 32 (4 * i))
      (addr + BitVec.ofNat 32 (4 * i)) = some m) :
    Matches ((s.setKernel { s.kernel with mem := m }).setProc e
      (some { P with fault := some (.copy addr (i + 1)) })) a := by
  obtain ⟨K, free, hinv, he⟩ := inv_env h hP
  obtain ⟨halign, -, q, ⟨hq, honly⟩, -, -⟩ : Copied (pages s.kernel) e addr i :=
    h.sound.fault e P _ hP hfault
  obtain ⟨pde, pte, pde', pte', hsrc, hdst, rfl⟩ := copyWord_eq hm
  obtain ⟨hpn, hoff⟩ := pgnum_word (show pftemp.toNat % 4096 = 0 by decide) hi
  obtain ⟨hpn', hoff'⟩ := pgnum_word halign hi
  have hlt : pftemp + BitVec.ofNat 32 (4 * i) < utop := lt_utop_of_pgnum (by rw [hpn]; decide)
  have hword : wordAt pte' (pftemp + BitVec.ofNat 32 (4 * i)) = (q, i) := by
    have hq' := translate_maps hinv he hd hlt hdst
    rw [hpn] at hq'
    rw [wordAt, hoff, Option.mem_unique hq hq']
  rw [hword]
  obtain ⟨hstored, hpages⟩ := setWord_pages hinv hq i
    (s.kernel.mem.word (wordAt pte (addr + BitVec.ofNat 32 (4 * i))))
  have hmoves := moves_update hP { P with fault := some (.copy addr (i + 1)) }
  refine matches_setFault h hP ⟨K, free, hstored.inv⟩ rfl ?_ ?_
  · change Sound _ (pages { s.kernel with mem := _ })
    rw [hpages]
    refine h.sound.wordCopied hfault hi hmoves hq fun hin => ?_
    have hp := translate_maps hinv he hd (lt_utop_of_inRegion (hpn'.symm ▸ hin)) hsrc
    rw [hpn'] at hp
    refine ⟨_, hp, ?_⟩
    rw [wordAt, hoff']
    rfl
  · change Sim _ (pages { s.kernel with mem := _ }) a
    rw [hpages]
    refine h.sim.outside h.sound h.family hmoves ⟨fun _ _ _ => rfl, fun x pn p hin hp => ?_⟩
      (fun _ _ => Iff.rfl) fun _ _ => Iff.rfl
    funext j
    refine Pages.setWord_of_ne _ _ fun heq => pftemp_notIn ?_
    obtain ⟨rfl, -⟩ := heq
    exact (honly x pn hp).2 ▸ hin

theorem matches_copied (h : Matches s a) (hP : s.proc e = some P)
    (hfault : P.fault = some (.copy addr 1024)) :
    Matches (s.setProc e (some { P with fault := some (.map addr) })) a := by
  have hm := moves_update hP { P with fault := some (.map addr) }
  refine matches_setFault h hP h.inv rfl (h.sound.setFault hm rfl (by simp [hfault]) ?_)
    (h.sim.outside h.sound h.family hm (.refl _) (fun _ _ => Iff.rfl) fun _ _ => Iff.rfl)
  rintro f ⟨⟩
  exact h.sound.fault e P (.copy addr 1024) hP hfault

end Memory

section Loop

variable {s : Machine} {envid : Word}

theorem makes_none {pc : ForkPc} (hpc : P.fork = some pc) (hmake : making pc = none) :
    ¬ Makes P c n := by
  rintro ⟨pc', envid, hpc', hmk, -⟩
  cases hpc.symm.trans hpc'
  cases hmake.symm.trans hmk

theorem makes_of_fork (hpc : P.fork = none) : ¬ Makes P c n := by
  rintro ⟨pc', envid, hpc', -⟩
  cases hpc.symm.trans hpc'

theorem makes_iff {pc pc' : ForkPc} (hpc : P.fork = some pc) (hpc' : P'.fork = some pc')
    (hmake : making pc' = making pc) : Makes P' c n ↔ Makes P c n := by
  simp only [Makes, hpc, hpc', Option.some.injEq, existsAndEq, true_and, hmake]

theorem ids_of_fork {pc : ForkPc} (hpc : P.fork = some pc)
    (hids : ∀ envid n, making pc = some (envid, n) → envid ≠ 0) :
    ∀ pc envid n, P.fork = some pc → making pc = some (envid, n) → envid ≠ 0 := by
  intro pc' envid n hpc' hmk
  cases hpc.symm.trans hpc'
  exact hids envid n hmk

theorem matches_fork (h : Matches s a) (hP : s.proc e = some P) (hfork : P.fork = none) :
    Matches (s.setProc e (some { P with
      fork := some (if P.handler then .exofork else .newStack) })) a := by
  have hm := moves_update hP { P with fork := some (if P.handler then .exofork else .newStack) }
  have hmake : making (if P.handler then .exofork else .newStack) = none := by
    split <;> rfl
  refine ⟨h.inv, h.named, h.family.moves hm (fun c n hc => absurd hc (makes_none rfl hmake))
    (ids_of_fork rfl fun envid n hmk => ?_), h.sound.setFork h.family hm rfl
    (fun c n hc => absurd hc (makes_none rfl hmake)) (fun envid pn hpc => ?_) ?_,
    h.sim.outside h.sound h.family hm (.refl _)
      (fun c n => iff_of_false (makes_none rfl hmake) (makes_of_fork hfork)) fun envid pn => ?_⟩
  · rw [hmake] at hmk
    cases hmk
  · rw [hfork] at hpc
    cases hpc
  · rintro pc ⟨⟩
    split <;> trivial
  · rw [hfork]
    split <;> simp

theorem duppage_cases (envid : Word) (pn : Nat) (w : Word) :
    ∃ perm again, duppage envid pn w = .child envid pn perm again ∧ Branch w perm again := by
  rw [duppage]
  split
  · rename_i hS
    exact ⟨_, _, rfl, .inl ⟨hS, rfl⟩⟩
  rename_i hS
  split
  · rename_i hflags
    exact ⟨_, _, rfl, not_not.mp hS, hflags, rfl⟩
  · rename_i hflags
    rw [not_or, not_not, not_not] at hflags
    exact ⟨_, _, rfl, .inr ⟨not_not.mp hS, hflags.1, hflags.2, rfl⟩⟩

theorem loopStep_cases (k : Kernel) (envid : Word) (he : e < nenv) (hle : pgnum utext ≤ pn)
    (hend : pn ≤ pgnum ustacktop) :
    (InRegion pn ∧ ∃ perm again, loopStep k e envid pn = .child envid pn perm again ∧
      Branch ((pages k).entry e pn) perm again) ∨
    (InRegion pn ∧ frameOf ((pages k).entry e pn) = none ∧
      loopStep k e envid pn = .loop envid (pn + 1)) ∨
    (pn = pgnum ustacktop ∧ loopStep k e envid pn = .stack envid) := by
  rw [loopStep]
  split
  · rename_i hlt
    have hin : InRegion pn := ⟨hle, hlt⟩
    split
    · rw [pages_entry he (InRegion.lt hin), pteAt]
      exact .inl ⟨hin, duppage_cases envid pn _⟩
    · rename_i hpresent
      rw [present_iff he (InRegion.lt hin), not_not] at hpresent
      exact .inr (.inl ⟨hin, hpresent, rfl⟩)
  · exact .inr (.inr ⟨by omega, rfl⟩)

theorem matches_forward {pc pc' : ForkPc} (h : Matches s a) (hP : s.proc e = some P)
    (hpc : P.fork = some pc) (hpc' : P'.fork = some pc') (hfault : P'.fault = P.fault)
    (hmake : making pc' = making pc) (hnot : ∀ envid pn, pc ≠ .parent envid pn)
    (hnot' : ∀ envid pn, pc' ≠ .parent envid pn) (hk : After s k)
    (hsound : Sound s.proc (pages k)) (hout : Outside (pages s.kernel) (pages k))
    (hok : ForkOk (pages k) e pc') : Matches ⟨k, update s.proc e (some P')⟩ a := by
  have hm := moves_update hP P'
  have hiff : ∀ c n, Makes P' c n ↔ Makes P c n := fun c n => makes_iff hpc hpc' hmake
  refine ⟨hk.inv, hk.named, (h.family.moves hm (fun c n hc => ⟨n, (hiff c n).mp hc⟩)
    (ids_of_fork hpc' fun envid n hmk => ?_)).kernel fun x hx => (hk.dir x).symm ▸ hx,
    hsound.setFork h.family hm hfault (fun c n hc => ⟨n, (hiff c n).mp hc⟩) (fun envid pn hw => ?_)
      fun pc1 hpc1 => ?_,
    h.sim.outside h.sound h.family hm hout hiff fun envid pn => iff_of_false ?_ ?_⟩
  · exact h.family.ids e P pc envid n hP hpc (hmake ▸ hmk)
  · exact absurd (Option.mem_unique hpc hw) (hnot envid pn)
  · cases hpc'.symm.trans hpc1
    exact hok
  · rw [hpc', Option.some.injEq]
    exact hnot' envid pn
  · rw [hpc, Option.some.injEq]
    exact hnot envid pn

theorem matches_loop (h : Matches s a) (hP : s.proc e = some P)
    (hpc : P.fork = some (.loop envid pn)) :
    ∃ a', Eager.Run a [] a' ∧ Matches (s.setProc e (some { P with
      fork := some (loopStep s.kernel e envid pn) })) a' := by
  obtain ⟨-, -, -, he⟩ := inv_env h hP
  obtain ⟨hle, hend, hempty⟩ : ForkOk (pages s.kernel) e (.loop envid pn) :=
    h.sound.fork e P _ hP hpc
  have hnot : ∀ envid' pn', ForkPc.loop envid pn ≠ .parent envid' pn' := fun _ _ => by simp
  obtain ⟨hin, perm, again, hstep, hbranch⟩ | ⟨hin, hnone, hstep⟩ | ⟨rfl, hstep⟩ :=
    loopStep_cases s.kernel envid he hle hend
  · rw [hstep]
    exact ⟨a, .refl, matches_forward h hP hpc rfl rfl rfl hnot (by simp) (.refl h)
      h.sound (.refl _) ⟨hin, hbranch, hempty⟩⟩
  · rw [hstep]
    have hm := moves_update hP { P with fork := some (.loop envid (pn + 1)) }
    have hmakes : ∀ c n, Makes { P with fork := some (ForkPc.loop envid (pn + 1)) } c n →
        ∃ m, Makes P c m :=
      fun c n hc => ⟨pn, (makes_at hpc rfl).mpr ⟨rfl, ((makes_at rfl rfl).mp hc).2⟩⟩
    obtain ⟨a', hrun, hsim⟩ := h.sim.skipped h.sound h.family hpc hin hm hnone
    refine ⟨a', hrun, h.inv, h.named, h.family.moves hm hmakes (ids_of_fork rfl ?_),
      h.sound.setFork h.family hm rfl hmakes (fun _ _ hpc' => ?_) ?_, hsim⟩
    · rintro envid n ⟨⟩
      exact h.family.ids e P _ envid pn hP hpc rfl
    · rw [hpc] at hpc'
      cases hpc'
    · rintro pc ⟨⟩
      exact ⟨by omega, hin.2, fun hneg pn' hpn' hle' => hempty hneg pn' hpn' (by omega)⟩
  · rw [hstep]
    exact ⟨a, .refl, matches_forward h hP hpc rfl rfl rfl hnot (by simp) (.refl h)
      h.sound (.refl _) trivial⟩

end Loop

section Calls

/-- A call that leaves the kernel `k` and the process `o` is answered by a silent run. -/
def Answers (s : Machine) (a : Eager) (e : Nat) (k : Kernel) (o : Option Process) : Prop :=
  ∃ a', Eager.Run a [] a' ∧ Matches ⟨k, update s.proc e o⟩ a'

variable {s : Machine} {f : Handler} {envid : Word} {pc : ForkPc}

theorem inv_of_ends {x : Exit Word} (hx : Ends (Kept K) x) (hres : x = .ret r k)
    (hsafe : k.mem.wrapped = false) : ∃ K free, Inv K k free := by
  rw [hres] at hx
  obtain ⟨free, hinv⟩ := hx hsafe
  exact ⟨K, free, hinv⟩

theorem next_of_fault (hfault : P.fault = some f) : P.next 0 = some { P with fault := f.next } := by
  simp only [Process.next, hfault, if_neg (show ¬ isNeg 0 by decide)]

theorem next_of_fork (r : Word) (hfault : P.fault = none) (hpc : P.fork = some pc)
    (hne : pc ≠ .newUpcall) : P.next r = some { P with fork := pc.next r } := by
  have hhandler : (P.handler || decide (P.fork = some .newUpcall)) = P.handler := by
    simp [hpc, hne]
  simp only [Process.next, hfault]
  rw [hhandler, hpc]
  rfl

theorem started_of_fault (hfault : P.fault = some f) :
    started proc e P o r = (update proc e o, none) := by
  simp only [started, hfault]

theorem started_of_fork (hpc : P.fork = some pc)
    (hne : ∀ envid, pc ≠ .start envid) : started proc e P o r = (update proc e o, none) := by
  rw [started]
  split
  · rename_i envid _ hpc'
    exact absurd (Option.mem_unique hpc hpc') (hne envid)
  · rfl

theorem upcall_harmless {func : Word} (hres : sysEnvSetPgfaultUpcall e envid func k = .ret r k')
    (hk : Named k) : Harmless k k' ∧ Named k' ∧ (isNeg r ∨ r = 0) := by
  rw [sysEnvSetPgfaultUpcall] at hres
  split at hres
  · cases hres
    exact ⟨.refl k, hk, .inl (by decide)⟩
  · cases hres
    exact ⟨harmless_setEnv rfl rfl (.inl rfl), hk.setEnv rfl, .inr rfl⟩

variable (h : Matches s a) (hP : s.proc e = some P)
include h hP

theorem matches_panic (hfault : P.fault = some f) (hr : isNeg r) (hk : After s k)
    (hsame : (pages s.kernel).Same (pages k)) : Answers s a e k (P.next r) := by
  have hnext : P.next r = none := by simp only [Process.next, hfault, if_pos hr]
  rw [hnext]
  exact ⟨_, .single (Eager.Step.stop e ((h.sim.live e).mpr (by simp [hP]))),
    matches_stopped h hP hk hsame⟩

theorem matches_abandon (hfault : P.fault = none) (hpc : P.fork = some pc) (hne : pc ≠ .newUpcall)
    (hnext : pc.next r = none) (hk : After s k) (hsame : (pages s.kernel).Same (pages k)) :
    Answers s a e k (P.next r) := by
  rw [next_of_fork r hfault hpc hne, hnext]
  have hm := moves_update hP { P with fork := none }
  have hidle : ∀ c n, ¬ Makes { P with fork := none } c n := fun c n => makes_of_fork rfl
  obtain ⟨a', hrun, hsim⟩ := h.sim.abandoned h.sound h.family hm hidle (.of_same hsame)
  refine ⟨a', hrun, hk.inv, hk.named,
    (h.family.moves hm (fun c n hc => absurd hc (hidle c n)) ?_).kernel
    fun x hx => (hk.dir x).symm ▸ hx, (h.sound.setFork h.family hm rfl
      (fun c n hc => absurd hc (hidle c n)) (fun _ _ _ => rfl) ?_).same hsame, hsim⟩
  · rintro pc envid n ⟨⟩
  · rintro pc ⟨⟩

theorem matches_newUpcall (hfault : P.fault = none) (hpc : P.fork = some .newUpcall)
    (hres : sysEnvSetPgfaultUpcall e (s.kernel.envs e).envId pgfaultUpcall s.kernel = .ret r k) :
    Matches ⟨k, update s.proc e (P.next r)⟩ a := by
  obtain ⟨K, free, hinv⟩ := h.inv
  obtain ⟨hharm, hnamed, -⟩ := upcall_harmless hres h.named
  have hsame := same_of_harmless hinv hharm
  have hnext : P.next r =
    some ⟨P.handler || decide (P.fork = some .newUpcall), some .exofork, P.fault⟩ := by
    simp only [Process.next, hfault, hpc]
    rfl
  rw [hnext]
  exact matches_forward h hP hpc rfl rfl rfl (by simp) (by simp) ⟨⟨K, free, hinv.harmless hharm⟩,
    hnamed, hharm.pgdir⟩ (h.sound.same hsame) (.of_same hsame) trivial

theorem child_of_found (hpc : P.fork = some pc) (hmake : making pc = some (envid, n))
    (hfound : envid2env e envid true s.kernel = some x) : ¬ isNeg envid ∧ envx envid = x := by
  obtain ⟨-, -, -, he⟩ := inv_env h hP
  refine ⟨fun hneg => ?_, (envid2env_eq_some (h.family.ids e P pc envid n hP hpc hmake) hfound).1⟩
  rw [envid2env_neg h.named he hneg] at hfound
  cases hfound

section

variable (hfault : P.fault = none)
include hfault

theorem matches_upcall (hpc : P.fork = some (.upcall envid))
    (hres : sysEnvSetPgfaultUpcall e envid pgfaultUpcall s.kernel = .ret r k) :
    Answers s a e k (P.next r) := by
  obtain ⟨K, free, hinv⟩ := h.inv
  obtain ⟨hharm, hnamed, hr⟩ := upcall_harmless hres h.named
  have hsame := same_of_harmless hinv hharm
  have hk : ∃ K free, Inv K k free := ⟨K, free, hinv.harmless hharm⟩
  rcases hr with hr | rfl
  · exact matches_abandon h hP hfault hpc (by simp) (if_pos hr) ⟨hk, hnamed, hharm.pgdir⟩ hsame
  · have hnext : ForkPc.next 0 (.upcall envid) = some (.start envid) := rfl
    rw [next_of_fork 0 hfault hpc (by simp), hnext]
    exact ⟨a, .refl, matches_forward h hP hpc rfl rfl rfl (by simp) (by simp) ⟨hk,
      hnamed, hharm.pgdir⟩ (h.sound.same hsame) (.of_same hsame) trivial⟩

theorem matches_start (hpc : P.fork = some (.start envid))
    (hres : sysEnvSetStatus e envid envRunnable s.kernel = .ret r k) :
    ∃ a', Eager.Run a (started s.proc e P (P.next r) r).2.toList a' ∧
      Matches ⟨k, (started s.proc e P (P.next r) r).1⟩ a' := by
  obtain ⟨K, free, hinv⟩ := h.inv
  rw [sysEnvSetStatus] at hres
  split at hres
  · cases hres
    have hr : isNeg (-eBadEnv) := by decide
    simp only [started, hfault, hpc, if_pos hr]
    exact matches_abandon h hP hfault hpc (by simp) rfl (.refl h) (.refl _)
  rename_i x hfound
  cases hres
  have hr : ¬ isNeg 0 := by decide
  obtain ⟨hneg, rfl⟩ := child_of_found h hP hpc rfl hfound
  have hharm := harmless_setStatus s.kernel (envx envid) .runnable
  have hsame := same_of_harmless hinv hharm
  have hmake : Making s.proc e (envx envid) (pgnum ustacktop) :=
    ⟨P, hP, _, envid, hpc, rfl, hneg, rfl⟩
  have hce : envx envid ≠ e := h.family.ne_child (by simp [hP]) hmake
  simp only [started, hfault, hpc, if_neg hr]
  rw [next_of_fork 0 hfault hpc (by simp)]
  have hst : Starts s.proc (update (update s.proc e
      (some { P with fork := none })) (envx envid) (some newProcess)) e (envx envid) P
      { P with fork := none } := by
    refine ⟨hP, hfault, ⟨envid, hpc, hneg, rfl⟩, ?_, ⟨rfl, hfault⟩, update_self _ _ _,
      fun y hye hyc => ?_⟩
    · rw [update_of_ne hce.symm, update_self]
    · rw [update_of_ne hyc, update_of_ne hye]
  obtain ⟨a', hrun, hsim⟩ := h.sim.finished h.sound h.family hst (.of_same hsame)
  exact ⟨a', hrun, ⟨K, free, hinv.harmless hharm⟩, h.named.setEnv rfl,
    (hst.family h.family).kernel fun x hx => (hharm.pgdir x).symm ▸ hx,
    (hst.sound h.family h.sound).same hsame, hsim⟩

end

section

variable (hsafe : k.mem.wrapped = false)
include hsafe

theorem matches_alloc (hfault : P.fault = some (.alloc addr))
    (hres : sysPageAlloc e (s.kernel.envs e).envId pftemp puw s.kernel = .ret r k)
    : Answers s a e k (P.next r) := by
  obtain ⟨K, free, hinv, he⟩ := inv_env h hP
  have hk := inv_of_ends (kept_sysPageAlloc hinv he) hres hsafe
  obtain ⟨hr, hsame, hmem⟩ | ⟨x, q, rfl, -, hfound, hq, hlt, hset, hmem⟩ :=
    sysPageAlloc_pages hinv he hres
  · exact matches_panic h hP hfault hr (.of_mem h hk hmem) hsame
  obtain rfl := envid2env_self h.named he hfound
  have hframe : frameOf (page2pa q ||| puw ||| pteP) = some q := frameOf_entry hlt (by decide)
  have hsound := h.sound.fresh hset hframe hq pftemp_notIn fun P1 f hP1 hf => by
    obtain rfl := Option.mem_unique hP hP1
    exact ⟨addr, Option.mem_unique hf hfault⟩
  have hm := moves_update hP { P with fault := some (.copy (rounddown addr) 0) }
  rw [next_of_fault hfault]
  refine ⟨a, .refl, matches_setFault h hP hk hmem (hsound.setFault hm rfl (by simp [hfault]) ?_)
    (h.sim.outside h.sound h.family hm
      (.of_set hset pftemp_notIn) (fun _ _ => Iff.rfl) fun _ _ => Iff.rfl)⟩
  rintro f ⟨⟩
  refine ⟨?_, Nat.zero_le _, q, ⟨?_, fun y pn hy => ?_⟩, ?_, fun hin => ?_⟩
  · grind
  · rw [Pages.Maps, Set.entry_self hset, hframe]
  · rcases Set.maps_cases hset hy with ⟨rfl, rfl, -⟩ | ⟨-, hy⟩
    · exact ⟨rfl, rfl⟩
    · exact absurd ⟨y, pn, hy⟩ hq
  · rw [Set.entry_self hset, entry_and q puw (by decide)]
    decide
  · rw [pgnum_rounddown] at hin ⊢
    obtain ⟨⟨p, hp⟩, hcow⟩ : (∃ p, (pages k).Maps x (pgnum addr) p) ∧
      Copyable ((pages k).entry x (pgnum addr)) := hsound.fault x P _ hP hfault hin
    exact ⟨p, hp, hcow, fun j hj => absurd hj (Nat.not_lt_zero j)⟩

theorem matches_map (hfault : P.fault = some (.map addr))
    (hres : sysPageMap e (s.kernel.envs e).envId pftemp (s.kernel.envs e).envId addr puw s.kernel =
      .ret r k) :
    Answers s a e k (P.next r) := by
  obtain ⟨K, free, hinv, he⟩ := inv_env h hP
  have hk := inv_of_ends (kept_sysPageMap hinv he) hres hsafe
  obtain ⟨hr, rfl⟩ | ⟨x, y, q, rfl, -, hsrc, hdst, hq, hset, hmem⟩ := sysPageMap_pages hinv he hres
  · exact matches_panic h hP hfault hr (.refl h) (.refl _)
  obtain rfl := envid2env_self h.named he hsrc
  obtain rfl := envid2env_self h.named he hdst
  have hm := moves_update hP { P with fault := some .unmap }
  obtain ⟨a', hrun, hsim⟩ := h.sim.mapped h.sound h.family hm hfault hq (maps_pool hinv hq) hset
  rw [next_of_fault hfault]
  exact ⟨a', hrun, matches_setFault h hP hk hmem
    (h.sound.mapped h.family hm hfault hq (maps_pool hinv hq) hset) hsim⟩

theorem matches_unmap (hfault : P.fault = some .unmap)
    (hres : sysPageUnmap e (s.kernel.envs e).envId pftemp s.kernel = .ret r k)
    : Answers s a e k (P.next r) := by
  obtain ⟨K, free, hinv, he⟩ := inv_env h hP
  have hk := inv_of_ends (kept_sysPageUnmap hinv he) hres hsafe
  obtain ⟨hr, rfl⟩ | ⟨x, rfl, -, hfound, hset, hmem⟩ := sysPageUnmap_pages hinv he hres
  · exact matches_panic h hP hfault hr (.refl h) (.refl _)
  obtain rfl := envid2env_self h.named he hfound
  have hm := moves_update hP { P with fault := none }
  rw [next_of_fault hfault]
  exact ⟨a, .refl, matches_setFault h hP hk hmem (h.sound.unmapped h.family hm hset)
    (h.sim.outside h.sound h.family hm
      (.of_set hset pftemp_notIn) (fun _ _ => Iff.rfl) fun _ _ => Iff.rfl)⟩

theorem matches_newStack (hfault : P.fault = none) (hpc : P.fork = some .newStack)
    (hres : sysPageAlloc e (s.kernel.envs e).envId (uxstacktop - pgsize) puw s.kernel = .ret r k)
    : Matches ⟨k, update s.proc e (P.next r)⟩ a := by
  obtain ⟨K, free, hinv, he⟩ := inv_env h hP
  have hk := inv_of_ends (kept_sysPageAlloc hinv he) hres hsafe
  rw [next_of_fork r hfault hpc (by simp)]
  obtain ⟨-, hsame, hmem⟩ | ⟨x, q, rfl, -, hfound, hq, hlt, hset, hmem⟩ :=
    sysPageAlloc_pages hinv he hres
  · exact matches_forward h hP hpc rfl rfl rfl (by simp) (by simp) (.of_mem h hk hmem)
      (h.sound.same hsame) (.of_same hsame) trivial
  obtain rfl := envid2env_self h.named he hfound
  refine matches_forward h hP hpc rfl rfl rfl (by simp) (by simp) (.of_mem h hk hmem)
    (h.sound.fresh hset (frameOf_entry hlt (by decide)) hq uxstack_notIn ?_)
    (.of_set hset uxstack_notIn) trivial
  intro P1 f hP1 hf
  obtain rfl := Option.mem_unique hP hP1
  cases hfault.symm.trans hf

variable (hfault : P.fault = none)
include hfault

theorem matches_stack (hpc : P.fork = some (.stack envid))
    (hres : sysPageAlloc e envid (uxstacktop - pgsize) puw s.kernel = .ret r k)
    : Answers s a e k (P.next r) := by
  obtain ⟨K, free, hinv, he⟩ := inv_env h hP
  have hk := inv_of_ends (kept_sysPageAlloc hinv he) hres hsafe
  obtain ⟨hr, hsame, hmem⟩ | ⟨x, q, rfl, -, hfound, hq, hlt, hset, hmem⟩ :=
    sysPageAlloc_pages hinv he hres
  · exact matches_abandon h hP hfault hpc (by simp) (if_pos hr) (.of_mem h hk hmem) hsame
  have hnext : ForkPc.next 0 (.stack envid) = some (.upcall envid) := rfl
  rw [next_of_fork 0 hfault hpc (by simp), hnext]
  obtain ⟨hneg, rfl⟩ := child_of_found h hP hpc rfl hfound
  refine ⟨a, .refl, matches_forward h hP hpc rfl rfl rfl (by simp) (by simp) (.of_mem h hk hmem)
    (h.sound.fresh hset (frameOf_entry hlt (by decide)) hq uxstack_notIn ?_)
    (.of_set hset uxstack_notIn) trivial⟩
  rintro P1 f hP1 -
  have hmake : Making s.proc e (envx envid) (pgnum ustacktop) :=
    ⟨P, hP, _, envid, hpc, rfl, hneg, rfl⟩
  cases (h.family.child e _ _ hmake).2.2.symm.trans hP1

theorem matches_exofork (hpc : P.fork = some .exofork) (hres : sysExofork e s.kernel = .ret r k)
    : Answers s a e k (P.next r) := by
  obtain ⟨K, free, hinv, he⟩ := inv_env h hP
  have hk := inv_of_ends (kept_sysExofork hinv) hres hsafe
  have hm := moves_update hP { P with fork := some (.loop r (pgnum utext)) }
  have hidle : ∀ c n, ¬ Makes P c n := fun c n => makes_none hpc rfl
  have hnot : ∀ envid pn, P.fork ≠ some (.parent envid pn) := fun _ _ => by simp [hpc]
  have hmakes : ∀ c n, Makes { P with fork := some (ForkPc.loop r (pgnum utext)) } c n →
      ¬ isNeg r ∧ envx r = c := fun c n hc => ((makes_at rfl rfl).mp hc).2
  have hids : r ≠ 0 → ∀ pc envid n, some (ForkPc.loop r (pgnum utext)) = some pc →
      making pc = some (envid, n) → envid ≠ 0 := by
    rintro hne pc envid n ⟨⟩ ⟨⟩
    exact hne
  obtain ⟨hr, rfl⟩ | ⟨c, hpos, hforked⟩ := sysExofork_pages hinv hres
  · -- `fork` does not see the error and goes on without a child
    have hne : r ≠ 0 := by
      rintro rfl
      exact absurd hr (by decide)
    have hnone : ∀ c n, ¬ Makes { P with fork := some (ForkPc.loop r (pgnum utext)) } c n :=
      fun c n hc => (hmakes c n hc).1 hr
    rw [next_of_fork r hfault hpc (by simp), ForkPc.next, if_neg hne]
    refine ⟨a, .refl, hk, h.named,
      h.family.moves hm (fun c n hc => absurd hc (hnone c n)) (hids hne),
      h.sound.setFork h.family hm rfl (fun c n hc => absurd hc (hnone c n))
        (fun envid pn hw => absurd hw (hnot envid pn)) ?_,
      h.sim.outside h.sound h.family hm (.refl _) (fun c n => iff_of_false (hnone c n) (hidle c n))
        fun envid pn => iff_of_false (by simp) (hnot envid pn)⟩
    rintro pc ⟨⟩
    exact ⟨le_rfl, by decide, fun hneg => absurd hr hneg⟩
  · rw [next_of_fork r hfault hpc (by simp), ForkPc.next, if_neg hforked.ne_zero]
    have hzero : ∀ pn, (pages s.kernel).entry c pn = 0 := entry_of_noDir hforked.unused
    have hmakes' : ∀ c' n, Makes { P with fork := some (ForkPc.loop r (pgnum utext)) } c' n →
        c' = c := fun c' n hc' => (hmakes c' n hc').2.symm.trans hforked.slot
    have hnone : s.proc c = none := by
      by_contra hlive
      exact (h.family.live c hlive).2 hforked.unused
    obtain ⟨a', hrun, hsim⟩ := h.sim.begun h.sound h.family hm hidle
      ⟨_, r, rfl, rfl, hpos, hforked.slot⟩ (fun _ _ => by simp) (.of_same hforked.same) hnone
      fun y n hy => (h.family.child y c n hy).2.1 hforked.unused
    refine ⟨a', hrun, hk, ?_, h.family.begun hm hforked.lt hforked.unused hforked.dir hforked.others
      hmakes' (hids hforked.ne_zero),
        (h.sound.begun hm rfl hnot hmakes' hzero ?_).same hforked.same,
      hsim⟩
    · intro x hx
      by_cases heq : x = c
      · rw [heq, hforked.id]
        exact ⟨hpos, fun _ => hforked.slot⟩
      · rw [hforked.others x heq]
        exact h.named x hx
    · rintro pc ⟨⟩
      refine ⟨le_rfl, by decide, fun _ pn _ _ => ?_⟩
      rw [hforked.slot, hzero, frameOf_zero]

theorem matches_child {perm : Word} {again : Bool}
    (hpc : P.fork = some (.child envid pn perm again))
    (hres : sysPageMap e (s.kernel.envs e).envId (vaOf pn) envid (vaOf pn) perm s.kernel = .ret r k)
    : Answers s a e k (P.next r) := by
  obtain ⟨K, free, hinv, he⟩ := inv_env h hP
  have hk := inv_of_ends (kept_sysPageMap hinv he) hres hsafe
  obtain ⟨hin, -⟩ : ForkOk (pages s.kernel) e (.child envid pn perm again) :=
    h.sound.fork e P _ hP hpc
  have hva : pgnum (vaOf pn) = pn := pgnum_vaOf ((InRegion.lt hin).trans (by decide))
  obtain ⟨hr, rfl⟩ | ⟨x, y, p, rfl, -, hsrc, hdst, hp, hset, hmem⟩ := sysPageMap_pages hinv he hres
  · exact matches_abandon h hP hfault hpc (by simp) (if_pos hr) (.refl h) (.refl _)
  have hnext : ForkPc.next 0 (.child envid pn perm again) =
      some (if again then .parent envid pn else .loop envid (pn + 1)) := by
    cases again <;> rfl
  rw [next_of_fork 0 hfault hpc (by simp), hnext]
  obtain rfl := envid2env_self h.named he hsrc
  obtain ⟨hneg, rfl⟩ := child_of_found h hP hpc rfl hdst
  rw [hva] at hp hset
  have hm := moves_update hP { P with
    fork := some (if again then .parent envid pn else .loop envid (pn + 1)) }
  have hlt := maps_pool hinv hp
  obtain ⟨a', hrun, hsim⟩ := h.sim.childMapped h.sound h.family hpc hm hneg hp hlt hset
  have hid : ∀ envid' n, making (if again then .parent envid pn else .loop envid (pn + 1)) =
      some (envid', n) → envid' = envid := by
    intro envid' n hmk
    cases again <;> cases hmk <;> rfl
  refine ⟨a', hrun, hk, named_of_mem h.named hmem, (h.family.moves hm (fun c n hc => ?_)
    (ids_of_fork rfl fun envid' n hmk => ?_)).kernel fun y hy => (dir_of_mem hmem y).symm ▸ hy,
    h.sound.childMapped h.family hpc hfault hm hneg hp hlt hset, hsim⟩
  · obtain ⟨pc, envid', hpc', hmk, hneg', hc⟩ := hc
    cases hpc'
    obtain rfl := hid envid' n hmk
    exact ⟨pn, _, envid', hpc, rfl, hneg', hc⟩
  · rw [hid envid' n hmk]
    exact h.family.ids _ P _ envid pn hP hpc rfl

theorem matches_parent (hpc : P.fork = some (.parent envid pn))
    (hres : sysPageMap e (s.kernel.envs e).envId (vaOf pn) (s.kernel.envs e).envId (vaOf pn) puc
      s.kernel = .ret r k) : Answers s a e k (P.next r) := by
  obtain ⟨K, free, hinv, he⟩ := inv_env h hP
  have hk := inv_of_ends (kept_sysPageMap hinv he) hres hsafe
  obtain ⟨hin, -⟩ : ForkOk (pages s.kernel) e (.parent envid pn) := h.sound.fork e P _ hP hpc
  have hva : pgnum (vaOf pn) = pn := pgnum_vaOf ((InRegion.lt hin).trans (by decide))
  obtain ⟨hr, rfl⟩ | ⟨x, y, p, rfl, -, hsrc, hdst, hp, hset, hmem⟩ := sysPageMap_pages hinv he hres
  · exact matches_abandon h hP hfault hpc (by simp) (if_pos hr) (.refl h) (.refl _)
  have hnext : ForkPc.next 0 (.parent envid pn) = some (.loop envid (pn + 1)) := rfl
  rw [next_of_fork 0 hfault hpc (by simp), hnext]
  obtain rfl := envid2env_self h.named he hsrc
  obtain rfl := envid2env_self h.named he hdst
  rw [hva] at hp hset
  have hm := moves_update hP { P with fork := some (.loop envid (pn + 1)) }
  have hlt := maps_pool hinv hp
  obtain ⟨a', hrun, hsim⟩ := h.sim.parentMapped h.sound h.family hpc hm hp hlt hset
  refine ⟨a', hrun, hk, named_of_mem h.named hmem, (h.family.moves hm (fun c n hc => ?_)
    (ids_of_fork rfl ?_)).kernel fun y hy => (dir_of_mem hmem y).symm ▸ hy,
    h.sound.parentMapped h.family hpc hfault hm hp hlt hset, hsim⟩
  · exact ⟨pn, (makes_at hpc rfl).mpr ⟨rfl, ((makes_at rfl rfl).mp hc).2⟩⟩
  · rintro envid' n ⟨⟩
    exact h.family.ids _ P _ envid pn hP hpc rfl

end

theorem matches_call {hw : Hw} {call : Call} (hcall : P.call (s.kernel.envs e).envId = some call)
    (hres : (exec 0 e hw s.kernel call).2 = .ret r k) (hsafe : k.mem.wrapped = false) :
    ∃ a', Eager.Run a (started s.proc e P (P.next r) r).2.toList a' ∧
      Matches ⟨k, (started s.proc e P (P.next r) r).1⟩ a' := by
  cases hfault : P.fault with
  | some f =>
    rw [started_of_fault hfault]
    simp only [Process.call, hfault] at hcall
    cases f with
    | alloc addr =>
      cases hcall
      exact matches_alloc h hP hsafe hfault hres
    | copy addr i => cases hcall
    | map addr =>
      cases hcall
      exact matches_map h hP hsafe hfault hres
    | unmap =>
      cases hcall
      exact matches_unmap h hP hsafe hfault hres
  | none =>
    simp only [Process.call, hfault] at hcall
    cases hpc : P.fork with
    | none =>
      rw [hpc] at hcall
      cases hcall
    | some pc =>
      rw [hpc] at hcall
      by_cases hstart : ∃ envid, pc = .start envid
      · obtain ⟨envid, rfl⟩ := hstart
        cases hcall
        exact matches_start h hP hfault hpc hres
      rw [started_of_fork hpc (not_exists.mp hstart)]
      cases pc with
      | newStack =>
        cases hcall
        exact ⟨a, .refl, matches_newStack h hP hsafe hfault hpc hres⟩
      | newUpcall =>
        cases hcall
        exact ⟨a, .refl, matches_newUpcall h hP hfault hpc hres⟩
      | exofork =>
        cases hcall
        exact matches_exofork h hP hsafe hfault hpc hres
      | loop envid pn => cases hcall
      | child envid pn perm again =>
        cases hcall
        exact matches_child h hP hsafe hfault hpc hres
      | parent envid pn =>
        cases hcall
        exact matches_parent h hP hsafe hfault hpc hres
      | stack envid =>
        cases hcall
        exact matches_stack h hP hsafe hfault hpc hres
      | upcall envid =>
        cases hcall
        exact matches_upcall h hP hfault hpc hres
      | start envid => exact absurd ⟨envid, rfl⟩ hstart

end Calls

end Mit6828.Lib.ForkSteps
