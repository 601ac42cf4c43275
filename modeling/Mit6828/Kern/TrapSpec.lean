import Mit6828.Kern.AddressSpaceSpec
import Mit6828.Kern.Trap

namespace Mit6828.Kern.TrapSpec

open Mmu Pmap AddressSpace Environment Syscall Trap Separation PageTableSpec
open RefInvariant KernelInvariant PageCallSpec EnvSpec AddressSpaceSpec

def Ends {α : Type} (P : Kernel → Prop) : Exit α → Prop
  | .ret _ k => P k
  | .left k => P k
  | .stop => True
  | .corrupt => True

variable {α β : Type} {P : Kernel → Prop} {K : KernelMap} {k k' : Kernel} {free : List Nat}
  {c cur e d : Nat} {x : Exit α} {addr len : Word} {tf : Trapframe}

theorem Ends.andThen {f : α → Kernel → Exit β} (hx : Ends P x)
    (hf : ∀ a k, x = .ret a k → P k → Ends P (f a k)) : Ends P (x.andThen f) := by
  cases x with
  | ret a k => exact hf a k rfl hx
  | left k => exact hx
  | stop => trivial
  | corrupt => trivial

theorem Ends.leave {o : Option Kernel} (h : ∀ k, o = some k → P k) :
    Ends P (Exit.leave o : Exit α) := by
  cases o with
  | none => trivial
  | some k => exact h k rfl

def Returns {α : Type} : Exit α → Prop
  | .left _ => False
  | _ => True

theorem Returns.ends (h : Returns x) (hret : ∀ a k, x = .ret a k → P k) : Ends P x := by
  cases x with
  | ret a k => exact hret a k rfl
  | left k => exact h.elim
  | stop => trivial
  | corrupt => trivial

theorem Ends.of_eq {a : α} (h : Ends P x) (hx : x = .ret a k ∨ x = .left k) : P k := by
  obtain rfl | rfl := hx
  · exact h
  · exact h

theorem Ends.mono {Q : Kernel → Prop} (h : Ends P x) (hPQ : ∀ k, P k → Q k) : Ends Q x := by
  cases x with
  | ret a k => exact hPQ k h
  | left k => exact hPQ k h
  | stop => trivial
  | corrupt => trivial

/-- The state satisfies the invariant if no count has wrapped on the way to it. -/
def Kept (K : KernelMap) (k : Kernel) : Prop :=
  k.mem.wrapped = false → ∃ free, Inv K k free

theorem kept_of_inv (h : Inv K k free) : Kept K k := fun _ => ⟨free, h⟩

theorem Kept.harmless (h : Kept K k) (hk : Harmless k k') : Kept K k' := by
  intro hw
  obtain ⟨free, hinv⟩ := h (hk.mem ▸ hw)
  exact ⟨free, hinv.harmless hk⟩

section Calls

variable {envid va perm srcenvid srcva dstenvid dstva value : Word}

theorem userMemAssert_ret {u : Unit} (hcur : k.curenv c = some cur)
    (h : userMemAssert c cur va len perm k = .ret u k') : k' = k := by
  rw [userMemAssert] at h
  split at h
  · cases h
  split at h
  · cases h
  · cases h
    rfl
  · obtain ⟨-, hne, -⟩ | hres | ⟨k1, -, ⟨hne, -⟩ | ⟨-, hres⟩⟩ := envDestroy_cases c cur k
    · exact absurd hcur hne
    · rw [hres] at h
      cases h
    · exact absurd hcur hne
    · rw [hres] at h
      unfold Exit.leave at h
      split at h <;> cases h

theorem returns_sysPageAlloc : Returns (sysPageAlloc cur envid va perm k) := by
  simp only [sysPageAlloc]
  repeat' split
  all_goals trivial

theorem returns_sysPageMap : Returns (sysPageMap cur srcenvid srcva dstenvid dstva perm k) := by
  unfold sysPageMap
  repeat' split
  all_goals trivial

theorem returns_sysPageUnmap : Returns (sysPageUnmap cur envid va k) := by
  unfold sysPageUnmap
  repeat' split
  all_goals trivial

theorem returns_sysIpcTrySend : Returns (sysIpcTrySend cur envid value srcva perm k) := by
  unfold sysIpcTrySend
  repeat' split
  all_goals trivial

theorem Edited.inv {b : World} {w : Word} (hedit : Edited K e va w (world k free) b)
    (h : Inv K k free) (he : e < nenv) (hw : w = 0 ∨ IsUserEntry w)
    (hsafe : b.mem.wrapped = false ∨ (world k free).ref (pteSlot e va) = none) :
    Inv K { k with mem := b.mem } b.free := by
  refine ⟨?_, h.env.setMem _⟩
  rw [world_of_root hedit.root]
  exact hedit.memInv h.mem he hw hsafe

theorem harmless_ipcDeliver (cur e : Nat) (value perm : Word) (k : Kernel) :
    Harmless k (ipcDeliver cur e value perm k) :=
  harmless_setEnv rfl rfl (.inl rfl)

theorem harmless_ipcRecvBlock (h : ipcRecvBlock cur dstva k = some k') : Harmless k k' := by
  rw [ipcRecvBlock] at h
  split at h
  · cases h
  cases h
  refine harmless_setEnv rfl rfl ?_
  by_cases hlt : dstva < utop
  · exact .inr (by rwa [if_pos hlt])
  · exact .inl (by rw [if_neg hlt])

theorem utfAddr_le (esp : Word) : (utfAddr esp).toNat + 52 ≤ utop.toNat := by
  rw [utfAddr, utrapframeSize]
  split
  · rename_i hstack
    have hlo : (uxstacktop - pgsize).toNat ≤ esp.toNat := hstack.1
    have hhi : esp.toNat ≤ (uxstacktop - 1).toNat := hstack.2
    grind
  · decide

theorem length_utrapframe (faultVa : Word) (tf : Trapframe) :
    ((utrapframe faultVa tf).flatMap bytesOf).length = 52 := by
  simp [utrapframe, bytesOf]

theorem lt_utop_of_mem_addrs {esp x : Word} (h : x ∈ addrs (utfAddr esp) 52) : x < utop := by
  obtain ⟨i, hi, rfl⟩ := mem_addrs.mp h
  have hle := utfAddr_le esp
  have hutop : utop.toNat = 4005560320 := rfl
  have hnat : (utfAddr esp + BitVec.ofNat 32 i).toNat = (utfAddr esp).toNat + i := by grind
  change (utfAddr esp + BitVec.ofNat 32 i).toNat < utop.toNat
  omega

theorem harmless_timeTick (h : timeTick k = some k') : Harmless k k' := by
  simp only [timeTick] at h
  split at h
  · cases h
  · cases h
    exact ⟨rfl, rfl, rfl, fun _ => rfl, fun _ => rfl, fun _ => .inl rfl, fun _ _ h => .inl h⟩

variable (h : Inv K k free)
include h

theorem kept_schedYield : Ends (Kept K) (Exit.leave (schedYield c k) : Exit α) :=
  Ends.leave fun _ hk => (kept_of_inv h).harmless (harmless_schedYield (h.env.curenv_lt c) hk)

theorem kept_envDestroy (hw : k.mem.wrapped = false) (he : e < nenv) :
    Ends (Kept K) (envDestroy c e k) := by
  obtain ⟨-, -, hres⟩ | hres | ⟨k1, hfree, hret⟩ := envDestroy_cases c e k
  · rw [hres]
    exact (kept_of_inv h).harmless (harmless_setStatus k e _)
  · rw [hres]
    trivial
  · obtain ⟨d, m, hd, -⟩ := envFree_eq_some hfree
    obtain ⟨k2, free', hfreed⟩ := envFree_spec h hw he hd
    obtain rfl := Option.mem_unique hfreed.result hfree
    obtain ⟨-, -, hres⟩ | ⟨-, hres⟩ := hret
    · rw [hres]
      exact kept_of_inv hfreed.inv
    · rw [hres]
      exact kept_schedYield (hfreed.inv.harmless (harmless_setCurenv k2 c none (by simp)))

theorem kept_userMemAssert (hw : k.mem.wrapped = false) (hlt : cur < nenv)
    (c : Nat) (va len perm : Word) : Ends (Kept K) (userMemAssert c cur va len perm k) := by
  rw [userMemAssert]
  split
  · trivial
  · split
    · trivial
    · exact kept_of_inv h
    · exact kept_envDestroy h hw hlt

theorem kept_sysPageUnmap (hlt : cur < nenv) : Ends (Kept K) (sysPageUnmap cur envid va k) := by
  refine returns_sysPageUnmap.ends fun r k' hres hw => ?_
  obtain ⟨-, rfl⟩ | ⟨e, b, -, -, he, -, hedit, rfl⟩ := sysPageUnmap_cases h hlt hres
  · exact ⟨free, h⟩
  · exact ⟨b.free, Edited.inv hedit h he (.inl rfl) (.inl hw)⟩

theorem kept_sysPageMap (hlt : cur < nenv) :
    Ends (Kept K) (sysPageMap cur srcenvid srcva dstenvid dstva perm k) := by
  refine returns_sysPageMap.ends fun r k' hres hw => ?_
  obtain ⟨-, rfl⟩ | ⟨src, dst, p, b, -, -, -, -, hdst, hperm, -, -, -, hedit, rfl⟩ :=
    sysPageMap_cases h hlt hres
  · exact ⟨free, h⟩
  · exact ⟨b.free, Edited.inv hedit h hdst (.inr (isUserEntry_of_perm hperm p)) (.inl hw)⟩

theorem kept_sysIpcTrySend (hlt : cur < nenv) :
    Ends (Kept K) (sysIpcTrySend cur envid value srcva perm k) := by
  refine returns_sysIpcTrySend.ends fun r k' hres => ?_
  obtain ⟨-, rfl⟩ | ⟨dst, -, hdst, -, -, -, ⟨-, rfl⟩ | ⟨p, b, -, hperm, -, -, -, hedit, rfl⟩⟩ :=
    sysIpcTrySend_cases h hlt hres
  · exact kept_of_inv h
  · exact (kept_of_inv h).harmless (harmless_ipcDeliver cur dst value 0 k)
  · refine Kept.harmless (fun hw => ?_) (harmless_ipcDeliver cur dst value perm _)
    exact ⟨b.free, Edited.inv hedit h hdst (.inr (isUserEntry_of_perm hperm p)) (.inl hw)⟩

theorem kept_sysPageAlloc (hlt : cur < nenv) :
    Ends (Kept K) (sysPageAlloc cur envid va perm k) := by
  refine returns_sysPageAlloc.ends fun r k' hres hw => ?_
  obtain ⟨-, rfl⟩ | ⟨p, l, m, -, -, -, -, rfl, hm, rfl⟩ | ⟨p, -, rfl, rfl⟩ |
    ⟨e, p, a, b, -, -, he, hperm, -, hdet, hroot, hedit, rfl⟩ := sysPageAlloc_cases h hlt hres
  · exact ⟨free, h⟩
  · exact ⟨l, h.mem.detach (detached_of_allocated h.mem rfl hm), h.env.setMem m⟩
  · refine ⟨[p], (updatePage_stored h (fun s hs _ => ?_) _).inv⟩
    exact h.mem.counted.unreferenced (by simp [world]) s hs
  · have ha := (world_of_root hroot).symm
    have hinv : Inv K { k with mem := a.mem } a.free :=
      ⟨ha ▸ h.mem.detach hdet, h.env.setMem _⟩
    rw [ha] at hedit
    have hinv' := Edited.inv hedit hinv he (.inr (isUserEntry_of_perm hperm p)) (.inl hw)
    exact ⟨b.free, hinv'⟩

theorem kept_sysExofork : Ends (Kept K) (sysExofork cur k) := by
  obtain ⟨r, -, -, hres⟩ | ⟨e, p, l, k', halloc, hres⟩ := sysExofork_cases cur h
  · rw [hres]
    exact kept_of_inv h
  · rw [hres]
    exact (kept_of_inv halloc.inv).harmless (harmless_setEnv rfl rfl (.inl rfl))

theorem kept_sysIpcRecv : Ends (Kept K) (sysIpcRecv c cur dstva k) := by
  rw [sysIpcRecv]
  split
  · exact kept_of_inv h
  · rename_i k' hblock
    exact kept_schedYield (h.harmless (harmless_ipcRecvBlock hblock))

theorem kept_sysEnvSetTrapframe {tf : Word} :
    Ends (Kept K) (sysEnvSetTrapframe cur envid tf k).2 := by
  rw [sysEnvSetTrapframe]
  split
  · exact kept_of_inv h
  split
  · split
    · trivial
    · exact kept_of_inv h
    · dsimp only
      split
      · trivial
      · exact (kept_of_inv h).harmless (harmless_setEnv rfl rfl (.inl rfl))
  · trivial

theorem kept_e1000Receive (he : e < nenv)
    (hd : (k.envs e).envPgdir = some d) : Ends (Kept K) (e1000Receive d addr len k).2 := by
  simp only [e1000Receive]
  split
  · exact kept_of_inv h
  split
  · rename_i hmay
    have hlen : ∀ x ∈ addrs len 4, x < utop := fun x hx =>
      lt_utop_of_userMay h he hd (hmay ⟨x, true⟩ (by simp [receiveAccesses, writesOf, hx]))
    have haddr : ∀ x ∈ addrs addr (k.nic.rxLength k.nic.next).toNat, x < utop := fun x hx =>
      lt_utop_of_userMay h he hd (hmay ⟨x, true⟩ (by simp [receiveAccesses, writesOf, hx]))
    split
    · trivial
    rename_i m hstore
    obtain ⟨hinv, -⟩ := storeBytes_stored h he hd (by simpa [bytesOf] using hlen) hstore
    split
    · trivial
    rename_i m' hstore'
    obtain ⟨hinv', -⟩ := storeBytes_stored (k := { k with mem := m }) hinv he hd
      (by simpa using haddr) hstore'
    exact (kept_of_inv hinv').harmless ⟨rfl, rfl, rfl, fun _ => rfl, fun _ => rfl,
      fun _ => .inl rfl, fun _ _ h => .inl h⟩
  · trivial

theorem kept_e1000Transmit : Ends (Kept K) (e1000Transmit d addr len k).2 := by
  simp only [e1000Transmit]
  split
  · exact kept_of_inv h
  dsimp only
  split
  · trivial
  · split
    · trivial
    · exact (kept_of_inv h).harmless ⟨rfl, rfl, rfl, fun _ => rfl, fun _ => rfl,
        fun _ => .inl rfl, fun _ _ h => .inl h⟩

theorem kept_exec (hw : Hw) (hwrap : k.mem.wrapped = false)
    (hcur : k.curenv c = some cur) (call : Call) : Ends (Kept K) (exec c cur hw k call).2 := by
  have hlt := h.env.curenv_lt c cur hcur
  have hkept := kept_of_inv h
  cases call with
  | cputs s len =>
    simp only [exec, sysCputs]
    cases hassert : userMemAssert c cur s len pteU k with
    | ret u k' =>
      obtain rfl := userMemAssert_ret hcur hassert
      dsimp only
      split
      · trivial
      · dsimp only
        split
        · exact hkept
        · trivial
    | left k' =>
      have hends := kept_userMemAssert h hwrap hlt c s len pteU
      rw [hassert] at hends
      exact hends
    | stop => trivial
    | corrupt => trivial
  | cgetc => exact hkept
  | getenvid => exact hkept
  | envDestroy envid =>
    simp only [exec, sysEnvDestroy]
    split
    · exact hkept
    · rename_i e he
      exact (kept_envDestroy h hwrap (envid2env_lt hlt he)).andThen fun _ _ _ hk => hk
  | pageAlloc envid va perm => exact kept_sysPageAlloc h hlt
  | pageMap srcenvid srcva dstenvid dstva perm => exact kept_sysPageMap h hlt
  | pageUnmap envid va => exact kept_sysPageUnmap h hlt
  | exofork => exact kept_sysExofork h
  | envSetStatus envid status =>
    simp only [exec, sysEnvSetStatus]
    split
    · exact hkept
    · split
      · exact hkept
      · exact hkept.harmless (harmless_setStatus k _ _)
  | envSetTrapframe envid tf =>
    simp only [exec]
    exact kept_sysEnvSetTrapframe h
  | envSetPgfaultUpcall envid func =>
    simp only [exec, sysEnvSetPgfaultUpcall]
    split
    · exact hkept
    · exact hkept.harmless (harmless_setEnv rfl rfl (.inl rfl))
  | yield => exact kept_schedYield h
  | ipcTrySend envid value srcva perm => exact kept_sysIpcTrySend h hlt
  | ipcRecv dstva => exact kept_sysIpcRecv h
  | timeMsec => exact hkept
  | pktTrySend buf len =>
    simp only [exec, sysPktTrySend]
    cases hassert : userMemAssert c cur buf len pteU k with
    | ret u k' =>
      obtain rfl := userMemAssert_ret hcur hassert
      dsimp only
      split
      · trivial
      · exact kept_e1000Transmit h
    | left k' =>
      have hends := kept_userMemAssert h hwrap hlt c buf len pteU
      rw [hassert] at hends
      exact hends
    | stop => trivial
    | corrupt => trivial
  | pktTryRecv buf len =>
    simp only [exec, sysPktTryRecv]
    split
    · trivial
    · rename_i d hd
      exact kept_e1000Receive h hlt hd
  | invalid => exact hkept

theorem kept_pageFaultHandler {faultVa : Word} (hwrap : k.mem.wrapped = false)
    (hcur : k.curenv c = some cur) : Ends (Kept K) (pageFaultHandler c cur faultVa tf k) := by
  have hlt := h.env.curenv_lt c cur hcur
  rw [pageFaultHandler]
  split
  · refine (kept_userMemAssert h hwrap hlt c _ _ _).andThen fun u k' hassert _ => ?_
    obtain rfl := userMemAssert_ret hcur hassert
    split
    · split
      · trivial
      · rename_i d hd
        split
        · trivial
        rename_i m hstore
        obtain ⟨hinv, -⟩ := storeBytes_stored h hlt hd
          (by rw [length_utrapframe]; exact fun x hx => lt_utop_of_mem_addrs hx) hstore
        refine Ends.leave fun k'' hrun => (kept_of_inv hinv).harmless ?_
        refine Harmless.trans ?_ (harmless_envRun hlt hrun)
        exact harmless_setEnv rfl rfl (.inl rfl)
    · exact kept_envDestroy h hwrap hlt
  · exact kept_envDestroy h hwrap hlt

theorem kept_timer : Ends (Kept K) (Exit.leave ((timeTick k).bind (schedYield c)) : Exit α) := by
  refine Ends.leave fun k' hk => ?_
  obtain ⟨k1, htick, hyield⟩ := Option.bind_eq_some_iff.mp hk
  have hinv := h.harmless (harmless_timeTick htick)
  exact (kept_of_inv hinv).harmless (harmless_schedYield (hinv.env.curenv_lt c) hyield)

theorem kept_trapDispatchUser {hw : Hw} (hwrap : k.mem.wrapped = false)
    (hcur : k.curenv c = some cur) : Ends (Kept K) (trapDispatchUser c cur hw tf k) := by
  have hlt := h.env.curenv_lt c cur hcur
  have hkept := kept_of_inv h
  rw [trapDispatchUser]
  split
  · exact kept_pageFaultHandler h hwrap hcur
  split
  · exact hkept
  split
  · refine (kept_exec h hw hwrap hcur _).andThen fun r k' _ hk => ?_
    exact hk.harmless (harmless_setEnv rfl rfl (.inl rfl))
  split
  · exact hkept
  split
  · exact kept_timer h
  · split
    · exact hkept
    · exact kept_envDestroy h hwrap hlt

end Calls

theorem kept_trapReturn (h : Kept K k) : Ends (Kept K) (trapReturn c k) := by
  have hyield : Ends (Kept K) (Exit.leave (schedYield c k) : Exit Unit) := by
    refine Ends.leave fun k' hk hw => ?_
    obtain ⟨free, hinv⟩ := h (schedYield_mem hk ▸ hw)
    exact ⟨free, hinv.harmless (harmless_schedYield (hinv.env.curenv_lt c) hk)⟩
  rw [trapReturn]
  split
  · rename_i cur hcur
    split
    · refine Ends.leave fun k' hk hw => ?_
      obtain ⟨free, hinv⟩ := h (envRun_mem hk ▸ hw)
      exact ⟨free, hinv.harmless (harmless_envRun (hinv.env.curenv_lt c cur hcur) hk)⟩
    · exact hyield
  · exact hyield

theorem harmless_cpuStarted (c : Nat) (k : Kernel) : Harmless k (cpuStarted c k) :=
  ⟨rfl, rfl, rfl, fun _ => rfl, fun _ => rfl, fun _ => .inl rfl,
    fun c' _ he => .inl (cpuStarted_curenv c c' k ▸ he)⟩

theorem kept_trap (c : Nat) (hw : Hw) (tf : Trapframe) (h : Inv K k free)
    (hwrap : k.mem.wrapped = false) : Ends (Kept K) (trap c hw tf k) := by
  have hinv := h.harmless (harmless_cpuStarted c k)
  have hwrap1 : (cpuStarted c k).mem.wrapped = false := hwrap
  rw [trap]
  generalize cpuStarted c k = k1 at hinv hwrap1
  dsimp only
  split
  · split
    · trivial
    · rename_i cur hcur
      have hlt := hinv.env.curenv_lt c cur hcur
      split
      · cases hd : (k1.envs cur).envPgdir with
        | none =>
          have hnone : envFree cur k1 = none := by simp [envFree, hd]
          rw [hnone]
          trivial
        | some d =>
          obtain ⟨k', free', hfreed⟩ := envFree_spec hinv hwrap1 hlt hd
          rw [hfreed.result]
          exact kept_schedYield (hfreed.inv.harmless (harmless_setCurenv k' c none (by simp)))
      · have hset : Inv K (k1.setEnv cur { k1.envs cur with envTf := tf }) free :=
          hinv.harmless (harmless_setEnv rfl rfl (.inl rfl))
        exact (kept_trapDispatchUser hset hwrap1 hcur).andThen fun _ _ _ hk => kept_trapReturn hk
  · refine Ends.andThen ?_ fun _ _ _ hk => kept_trapReturn hk
    rw [trapDispatchKernel]
    split
    · exact kept_of_inv hinv
    · split
      · exact kept_timer hinv
      · trivial

end Mit6828.Kern.TrapSpec
