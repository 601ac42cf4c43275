import Mit6828.Kern.CallProgress
import Mit6828.Lib.ForkSteps

namespace Mit6828.Lib.ForkProgress

open Kern.Mmu Kern.Pmap Kern.AddressSpace Kern.KernelInvariant Kern.Environment Kern.Separation
open Kern.PageCallSpec Kern.UserPages Kern.EnvNames Kern.Syscall Kern.CallProgress Fork
open EagerFork ForkInvariant ForkSteps Library Function

variable {k k' : Kernel} {s : Machine} {n e d i j p q : Nat} {va addr : Word} {P : Process}

section Memory

theorem rounddown_not_badVa (h : va < utop) : ¬ badVa (rounddown va) := by
  have hlt : va.toNat < 4005560320 := h
  rw [not_badVa_iff, toNat_rounddown]
  omega

structure Copying (n e d q p : Nat) (addr : Word) (k : Kernel) : Prop where
  room : Room n k
  lt : e < nenv
  dir : (k.envs e).envPgdir = some d
  temp : (pages k).Maps e (pgnum pftemp) q
  write : (pages k).entry e (pgnum pftemp) &&& pteW ≠ 0
  source : (pages k).Maps e (pgnum addr) p
  align : addr.toNat % 4096 = 0

theorem translate_of_maps (h : Room n k) (he : e < nenv) (hd : (k.envs e).envPgdir = some d)
    (hp : (pages k).Maps e (pgnum va) p) : ∃ pde, IsTableEntry pde ∧
      pgnum ((pages k).entry e (pgnum va)) = p ∧
      translate d va k.mem = some (pde, (pages k).entry e (pgnum va)) := by
  obtain ⟨K, free, hinv, -⟩ := h.inv
  obtain ⟨hnone, -⟩ | ⟨pde, p', hp', hpde, hnum, -, htr⟩ :=
    translate_pages hinv he hd (lt_utop_of_pgnum (maps_lt hp).2)
  · rw [Pages.Maps, hnone] at hp
    cases hp
  · exact ⟨pde, hpde, hnum.trans (Option.mem_unique hp' hp), htr⟩

theorem Copying.copyWord (h : Copying n e d q p addr k) (hi : i < 1024) :
    copyWord d k.mem (pftemp + BitVec.ofNat 32 (4 * i)) (addr + BitVec.ofNat 32 (4 * i)) =
      some (k.mem.setWord (q, i) ((pages k).phys p i)) := by
  obtain ⟨hpn, hoff⟩ := pgnum_word (show pftemp.toNat % 4096 = 0 by decide) hi
  obtain ⟨hpn', hoff'⟩ := pgnum_word h.align hi
  have hW := h.write
  rw [← hpn] at hW
  obtain ⟨pde, hpde, hnum, hdst⟩ := translate_of_maps h.room h.lt h.dir (hpn.symm ▸ h.temp)
  obtain ⟨pde', -, hnum', hsrc⟩ := translate_of_maps h.room h.lt h.dir (hpn'.symm ▸ h.source)
  simp only [Fork.copyWord, hdst, hsrc, Option.bind_eq_bind, Option.bind_some]
  rw [if_pos ⟨hpde.flags.2.1, hW⟩, wordAt, wordAt, hnum, hoff, hnum', hoff']
  rfl

theorem Copying.next (h : Copying n e d q p addr k) (w : Word) :
    Copying n e d q p addr { k with mem := k.mem.setWord (q, i) w } ∧
      pages { k with mem := k.mem.setWord (q, i) w } = (pages k).setWord q i w := by
  obtain ⟨K, free, hinv, hlen⟩ := h.room.inv
  obtain ⟨hstored, hpages⟩ := setWord_pages hinv h.temp i w
  refine ⟨⟨⟨⟨K, free, hstored.inv, hlen⟩, hstored.wrapped.trans h.room.wrapped,
    named_of_mem h.room.named rfl⟩, h.lt, h.dir, ?_, ?_, ?_, h.align⟩, hpages⟩
  · rw [hpages]
    exact h.temp
  · rw [hpages]
    exact h.write
  · rw [hpages]
    exact h.source

theorem copies_run (j : Nat) : ∀ {s : Machine} {i : Nat}, i + j = 1024 →
    Copying n e d q p addr s.kernel → s.proc e = some { P with fault := some (.copy addr i) } →
    ∃ m, Run s [] ⟨{ s.kernel with mem := m },
        update s.proc e (some { P with fault := some (.copy addr 1024) })⟩ ∧
      Copying n e d q p addr { s.kernel with mem := m } ∧
      (pages { s.kernel with mem := m }).entry = (pages s.kernel).entry ∧
      ∀ p', p' ≠ q → m.phys p' = s.kernel.mem.phys p' := by
  induction j with
  | zero =>
    intro s i hi h hP
    obtain rfl : i = 1024 := hi
    refine ⟨s.kernel.mem, ?_, h, rfl, fun _ _ => rfl⟩
    rw [update_eq_self_iff.mpr hP.symm]
    exact .refl
  | succ j ih =>
    intro s i hi h hP
    have hstep := Step.copy e d addr i hP rfl (by omega) h.dir (h.copyWord (by omega))
    obtain ⟨h', hpages⟩ := h.next (i := i) ((pages s.kernel).phys p i)
    obtain ⟨m, hrun, hcopying, hentry, hphys⟩ := ih (s := (s.setKernel { s.kernel with
      mem := s.kernel.mem.setWord (q, i) ((pages s.kernel).phys p i) }).setProc e
        (some { P with fault := some (.copy addr (i + 1)) })) (by omega) h'
      (update_self _ _ _)
    refine ⟨m, ?_, hcopying, hentry.trans ?_, fun p' hne => (hphys p' hne).trans ?_⟩
    · have := (Simulation.Run.single hstep).trans hrun
      simpa [Machine.setProc, Machine.setKernel] using this
    · change (pages { s.kernel with mem := _ }).entry = _
      rw [hpages]
      rfl
    · exact update_of_ne hne _ _

end Memory

section Calls

variable {f : Handler} {pc : ForkPc} {call : Call} {r : Word}

theorem handler_call (proc : Nat → Option Process) (hP : proc e = some P)
    (hfault : P.fault = some f)
    (hcall : f.call (k.envs e).envId = some call) (hres : (exec 0 e ⟨0, 0⟩ k call).2 = .ret 0 k')
    (hw : k'.mem.wrapped = false) :
    Run ⟨k, proc⟩ [] ⟨k', update proc e (some { P with fault := f.next })⟩ := by
  have hstep := Step.call (s := ⟨k, proc⟩) e ⟨0, 0⟩ call hP
    (by simp only [Process.call, hfault]; exact hcall) hres hw
  rw [started_of_fault hfault, next_of_fault hfault] at hstep
  exact .single hstep

/-- The machine at `k` in which `e` has got to `pc` of `fork`. -/
def forking (k : Kernel) (proc : Nat → Option Process) (e : Nat) (P : Process) (pc : ForkPc) :
    Machine :=
  ⟨k, update proc e (some { P with fork := some pc })⟩

variable (proc : Nat → Option Process) (hidle : P.fault = none)
include hidle

theorem loop_turn (envid : Word) (pn : Nat) (hloop : loopStep k e envid pn = pc) :
    Run (forking k proc e P (.loop envid pn)) [] (forking k proc e P pc) := by
  have hstep := Step.loop (s := forking k proc e P (.loop envid pn)) e envid pn
    (update_self _ _ _) hidle rfl
  simp only [forking, Machine.setProc, update_idem, hloop] at hstep
  exact .single hstep

theorem fork_call (pc : ForkPc) (hupcall : pc ≠ .newUpcall) (hstart : ∀ envid, pc ≠ .start envid)
    (hcall : pc.call (k.envs e).envId = some call) (hres : (exec 0 e ⟨0, 0⟩ k call).2 = .ret r k')
    (hw : k'.mem.wrapped = false) :
    Run (forking k proc e P pc) [] ⟨k', update proc e (some { P with fork := pc.next r })⟩ := by
  have hstep := Step.call (s := forking k proc e P pc) e ⟨0, 0⟩ call (update_self _ _ _)
    (by simp only [Process.call, hidle]; exact hcall) hres hw
  rw [started_of_fork rfl hstart,
    next_of_fork (P := { P with fork := some pc }) r hidle rfl hupcall] at hstep
  simp only [forking, update_idem] at hstep
  exact .single hstep

theorem start_call (envid : Word)
    (hres : (exec 0 e ⟨0, 0⟩ k (.envSetStatus envid envRunnable)).2 = .ret 0 k')
    (hw : k'.mem.wrapped = false) :
    Run (forking k proc e P (.start envid)) [.fork e (envx envid)]
      ⟨k', update (update proc e (some { P with fork := none })) (envx envid)
        (some newProcess)⟩ := by
  obtain ⟨handler, fork, fault⟩ := P
  obtain rfl : fault = none := hidle
  have hstep := Step.call (s := forking k proc e ⟨handler, fork, none⟩ (.start envid)) e ⟨0, 0⟩ _
    (update_self _ _ _) rfl hres hw
  rw [started, next_of_fork 0 rfl rfl (by simp)] at hstep
  simp only [show ¬ isNeg (0 : Word) by decide, if_false, forking, update_idem] at hstep
  exact .single hstep

end Calls

section CopyOnWrite

variable {b : Byte}

theorem getByte_putByte (w : Word) (hi : i < 4) (b : Byte) : getByte (putByte w i b) i = b := by
  have hbit : ∀ j < 8, (0xFF : Word).getLsbD j = true := by decide
  ext j hj
  have hlt : 8 * i + j < 32 := by omega
  simp only [getByte, putByte, BitVec.getElem_setWidth, BitVec.getLsbD_ushiftRight,
    BitVec.getLsbD_or, BitVec.getLsbD_and, BitVec.getLsbD_not, BitVec.getLsbD_shiftLeft, hlt,
    Nat.add_sub_cancel_left, hbit j hj]
  simp [hj, show j < 32 by omega]

theorem store_runs (hroom : Room n k) (he : e < nenv) (hd : (k.envs e).envPgdir = some d)
    {proc : Nat → Option Process} (hP : proc e = some P) (hidle : P.fault = none)
    (hq : (pages k).Maps e (pgnum va) q) (hW : (pages k).entry e (pgnum va) &&& pteW ≠ 0) :
    ∃ m, Run ⟨k, proc⟩ [.store e va b] ⟨{ k with mem := m }, proc⟩ ∧
      Room n { k with mem := m } ∧ (pages { k with mem := m }).entry = (pages k).entry ∧
      (∀ p, p ≠ q → m.phys p = k.mem.phys p) ∧ loadByte d m va = some b := by
  obtain ⟨K, free, hinv, hlen⟩ := hroom.inv
  have hva := lt_utop_of_pgnum (maps_lt hq).2
  obtain ⟨pde, hpde, hnum, htr⟩ := translate_of_maps hroom he hd hq
  have hstore : storeByte d k.mem va b = some (k.mem.setWord (q, (pgoff va).toNat / 4)
      (putByte (k.mem.phys q ((pgoff va).toNat / 4)) (va.toNat % 4) b)) := by
    rw [storeByte, htr]
    simp only [Option.bind_eq_bind, Option.bind_some]
    rw [if_pos ⟨hpde.flags.2.1, hW⟩, wordAt, hnum]
    rfl
  obtain ⟨hstored, hpages⟩ := storeByte_pages hinv he hd hq hva hstore
  have hstep := Step.store (s := ⟨k, proc⟩) e d va b hP (.inl hidle) hd
    ((userMay_pages hinv he hd va).mpr ⟨hva, q, hq, hW⟩) hstore
  refine ⟨_, .single hstep, ⟨⟨K, free, hstored.inv, hlen⟩, hstored.wrapped.trans hroom.wrapped,
    named_of_mem hroom.named rfl⟩, by rw [hpages]; rfl, fun p hne => update_of_ne hne _ _, ?_⟩
  have hload := loadByte_pages hstored.inv he hd hva
  rw [hpages] at hload
  rw [Pages.Maps] at hq
  refine hload.trans ?_
  simp only [Pages.setWord, hq, Option.map_some, update_self]
  rw [getByte_putByte _ (Nat.mod_lt _ (by decide))]

variable {proc : Nat → Option Process}

theorem handler_copies (hroom : Room 3 k) (he : e < nenv) (hd : (k.envs e).envPgdir = some d)
    (hself : envid2env e (k.envs e).envId true k = some e)
    (hP : proc e = some { P with fault := some (.alloc va) }) (hp : (pages k).Maps e (pgnum va) p)
    (hne : pgnum va ≠ pgnum pftemp) :
    ∃ m q, Run ⟨k, proc⟩ [] ⟨{ k with mem := m },
        update proc e (some { P with fault := some (.map (rounddown va)) })⟩ ∧
      Copying 1 e d q p (rounddown va) { k with mem := m } ∧ q < 1048576 ∧ ¬ (pages k).InUse q ∧
      (∀ x pn, ¬ (x = e ∧ pn = pgnum pftemp) →
        (pages { k with mem := m }).entry x pn = (pages k).entry x pn) ∧
      ∀ p, (pages k).InUse p → m.phys p = k.mem.phys p := by
  have hdir : (k.envs e).envPgdir ≠ none := by simp [hd]
  obtain ⟨q, m1, hres, hroom1, hq, hlt, hset⟩ := alloc_progress (n := 1) hroom he
    (show ¬ badVa pftemp by decide) puw_ok hself he hdir
  have hrun1 := handler_call proc hP rfl rfl hres hroom1.wrapped
  have hcopying : Copying 1 e d q p (rounddown va) { k with mem := m1 } := by
    refine ⟨hroom1, he, hd, ?_, ?_, ?_, ?_⟩
    · rw [Pages.Maps, Set.entry_self hset]
      exact frameOf_entry hlt (by decide)
    · rw [Set.entry_self hset, entry_and q puw (by decide)]
      decide
    · rw [pgnum_rounddown, Pages.Maps, Set.entry_of_ne hset fun heq => hne heq.2]
      exact hp
    · grind
  obtain ⟨m, hrun2, hcopying2, hentry, hphys⟩ := copies_run 1024 (P := P)
    (s := ⟨_, update proc e (some { P with fault := some (.copy (rounddown va) 0) })⟩) rfl
    hcopying (update_self _ _ _)
  have hstep := Step.copied (s := ⟨{ k with mem := m }, update proc e
    (some { P with fault := some (.copy (rounddown va) 1024) })⟩) e (rounddown va)
    (update_self _ _ _) rfl
  simp only [update_idem, Machine.setProc] at hrun2 hstep
  refine ⟨m, q, (hrun1.trans hrun2).silent hstep, hcopying2, hlt, hq, fun x pn hslot => ?_,
    fun p' huse => ?_⟩
  · rw [hentry]
    exact Set.entry_of_ne hset hslot
  · exact (hphys p' fun heq => hq (heq ▸ huse)).trans (hset.phys p' huse)

theorem handler_maps (h : Copying 1 e d q p addr k)
    (hself : envid2env e (k.envs e).envId true k = some e)
    (hP : proc e = some { P with fault := some (.map addr) }) (haddr : ¬ badVa addr)
    (hne : pgnum addr ≠ pgnum pftemp)
    (honly : ∀ y pn, (pages k).Maps y pn q → y = e ∧ pn = pgnum pftemp) :
    ∃ m, Run ⟨k, proc⟩ [] ⟨{ k with mem := m }, update proc e (some { P with fault := none })⟩ ∧
      Room 0 { k with mem := m } ∧ (pages { k with mem := m }).Maps e (pgnum addr) q ∧
      (pages { k with mem := m }).entry e (pgnum addr) &&& pteW ≠ 0 ∧
      ∀ x, x ≠ e → (pages { k with mem := m }).entry x = (pages k).entry x ∧
        ∀ pn p, (pages k).Maps x pn p → m.phys p = k.mem.phys p := by
  have hdir : (k.envs e).envPgdir ≠ none := by simp [h.dir]
  have hlt : q < 1048576 := by
    obtain ⟨K, free, hinv, -⟩ := h.room.inv
    exact maps_pool hinv h.temp
  obtain ⟨m1, hres1, hroom1, hset1⟩ := map_progress (n := 0) h.room h.lt
    (show ¬ badVa pftemp by decide) haddr puw_ok hself hself h.lt h.lt hdir
    hdir h.temp [(e, pgnum pftemp)] (by simp) (by simpa using honly)
  have htemp : (pages { k with mem := m1 }).Maps e (pgnum pftemp) q := by
    rw [Pages.Maps, Set.entry_of_ne hset1 fun heq => hne heq.2.symm]
    exact h.temp
  obtain ⟨m2, hres2, hroom2, hset2⟩ := unmap_progress hroom1 h.lt
    (show ¬ badVa pftemp by decide) hself h.lt hdir htemp
  have hrun1 := handler_call proc hP rfl rfl hres1 hroom1.wrapped
  have hrun2 := handler_call (k := { k with mem := m1 })
    (update proc e (some { P with fault := some .unmap }))
    (update_self _ _ _) rfl rfl hres2 hroom2.wrapped
  rw [update_idem] at hrun2
  have hentry : ∀ x pn, ¬ (x = e ∧ (pn = pgnum addr ∨ pn = pgnum pftemp)) →
      (pages { k with mem := m2 }).entry x pn = (pages k).entry x pn := by
    intro x pn hslot
    rw [Set.entry_of_ne hset2 fun heq => hslot ⟨heq.1, .inr heq.2⟩,
      Set.entry_of_ne hset1 fun heq => hslot ⟨heq.1, .inl heq.2⟩]
  have hnew : (pages { k with mem := m2 }).entry e (pgnum addr) = page2pa q ||| puw ||| pteP := by
    rw [Set.entry_of_ne hset2 fun heq => hne heq.2, Set.entry_self hset1]
  refine ⟨m2, hrun1.trans hrun2, hroom2, ?_, ?_, fun x hx => ⟨?_, fun pn p' hp' => ?_⟩⟩
  · rw [Pages.Maps, hnew]
    exact frameOf_entry hlt (by decide)
  · rw [hnew, entry_and q puw (by decide)]
    decide
  · funext pn
    exact hentry x pn fun heq => hx heq.1
  · have huse : (pages { k with mem := m1 }).InUse p' := by
      refine ⟨x, pn, ?_⟩
      rw [Pages.Maps, Set.entry_of_ne hset1 fun heq => hx heq.1]
      exact hp'
    exact (hset2.phys p' huse).trans (hset1.phys p' ⟨x, pn, hp'⟩)

/-- A store to a page that is marked copy-on-write goes to a copy of the page: `pgfault` makes
one as long as three pages are free.  No other environment sees the store. -/
theorem cow_store_runs (hroom : Room 3 k) (he : e < nenv) (hd : (k.envs e).envPgdir = some d)
    (hself : envid2env e (k.envs e).envId true k = some e)
    (hP : proc e = some P) (hidle : P.fault = none) (hp : (pages k).Maps e (pgnum va) p)
    (hne : pgnum va ≠ pgnum pftemp) (hC : (pages k).entry e (pgnum va) &&& pteCow ≠ 0)
    (hW : (pages k).entry e (pgnum va) &&& pteW = 0) (b : Byte) :
    ∃ m, Run ⟨k, proc⟩ [.store e va b] ⟨{ k with mem := m }, proc⟩ ∧
      Room 0 { k with mem := m } ∧ loadByte d m va = some b ∧
      ∀ x, x ≠ e → (pages { k with mem := m }).entry x = (pages k).entry x ∧
        ∀ pn p, (pages k).Maps x pn p → m.phys p = k.mem.phys p := by
  obtain ⟨K, free, hinv, -⟩ := hroom.inv
  have hva := lt_utop_of_pgnum (maps_lt hp).2
  have hmay : ¬ userMay d ⟨va, true⟩ k.mem := fun hmay => by
    obtain ⟨-, -, -, hW'⟩ := (userMay_pages hinv he hd va).mp hmay
    exact hW' hW
  have hstep := Step.fault (s := ⟨k, proc⟩) e d va hP hidle hd hmay ((cow_iff he hva).mpr hC)
  simp only [Machine.setProc] at hstep
  obtain ⟨m1, q, hrun1, hcopying, hlt, hq, hentry1, hphys1⟩ := handler_copies hroom he hd hself
    (update_self e (some { P with fault := some (Handler.alloc va) }) proc) hp hne
  rw [update_idem] at hrun1
  obtain ⟨m2, hrun2, hroom2, hq2, hW2, hothers2⟩ := handler_maps hcopying hself
    (update_self e (some { P with fault := some (Handler.map (rounddown va)) }) proc)
    (rounddown_not_badVa hva) (by rwa [pgnum_rounddown]) fun y pn hy => by
      by_contra hslot
      rw [Pages.Maps, hentry1 y pn hslot] at hy
      exact hq ⟨y, pn, hy⟩
  have hdone : update proc e (some { P with fault := none }) = proc := by
    rw [← hidle]
    exact update_eq_self_iff.mpr hP.symm
  rw [update_idem, hdone] at hrun2
  rw [pgnum_rounddown] at hq2 hW2
  obtain ⟨m3, hrun3, hroom3, hentry3, hphys3, hload⟩ :=
    store_runs (b := b) hroom2 he hd hP hidle hq2 hW2
  refine ⟨m3, ((Simulation.Run.refl.silent hstep).trans hrun1).trans (hrun2.trans hrun3), hroom3,
    hload, fun x hx => ?_⟩
  obtain ⟨hsame, hkeep⟩ := hothers2 x hx
  have hsame1 : ∀ pn, (pages { k with mem := m1 }).entry x pn = (pages k).entry x pn := fun pn =>
    hentry1 x pn fun heq => hx heq.1
  refine ⟨?_, fun pn p' hp' => ?_⟩
  · rw [hentry3, hsame]
    exact funext hsame1
  have hp1 : (pages { k with mem := m1 }).Maps x pn p' := by
    rw [Pages.Maps, hsame1]
    exact hp'
  rw [hphys3 p' fun heq => ?_, hkeep pn p' hp1, hphys1 p' ⟨x, pn, hp'⟩]
  exact hq ⟨x, pn, heq ▸ hp'⟩

end CopyOnWrite

section Fork

variable {c pn : Nat} {envid : Word} {proc : Nat → Option Process}

structure Forking (n e c : Nat) (envid : Word) (k : Kernel) : Prop where
  room : Room n k
  lt : e < nenv
  dir : (k.envs e).envPgdir ≠ none
  self : envid2env e (k.envs e).envId true k = some e
  childLt : c < nenv
  childDir : (k.envs c).envPgdir ≠ none
  child : envid2env e envid true k = some c
  ne : c ≠ e

theorem Forking.setMem {n' : Nat} {m : Mem} (h : Forking n e c envid k)
    (hroom : Room n' { k with mem := m }) : Forking n' e c envid { k with mem := m } :=
  { h with room := hroom }

theorem skips_run (proc : Nat → Option Process) (envid : Word) (he : e < nenv)
    (hidle : P.fault = none) (j : Nat) : ∀ pn,
    pgnum utext ≤ pn → pn + j ≤ pgnum ustacktop →
    (∀ pn', pn ≤ pn' → pn' < pn + j → frameOf ((pages k).entry e pn') = none) →
    Run (forking k proc e P (.loop envid pn)) [] (forking k proc e P (.loop envid (pn + j))) := by
  induction j with
  | zero => exact fun _ _ _ _ => .refl
  | succ j ih =>
    intro pn hle hend hnone
    have hin : InRegion pn := ⟨hle, by omega⟩
    have hloop : loopStep k e envid pn = .loop envid (pn + 1) := by
      rw [loopStep, if_pos hin.2, if_neg]
      rw [present_iff he (InRegion.lt hin), not_not]
      exact hnone pn le_rfl (by omega)
    have hrest := ih (pn + 1) (by omega) (by omega) fun pn' hle' hlt =>
      hnone pn' (by omega) (by omega)
    rw [show pn + (j + 1) = pn + 1 + j by omega]
    exact (loop_turn proc hidle envid pn hloop).trans hrest

/-- `duppage` maps the page at `pn` into the child and, if it is to become copy-on-write, into the
parent again. -/
theorem dup_runs {perm : Word} {again : Bool} (proc : Nat → Option Process)
    (h : Forking (n + 2) e c envid k) (hidle : P.fault = none) (hin : InRegion pn)
    (hp : (pages k).Maps e pn p) (honly : ∀ y pn', (pages k).Maps y pn' p → y = e ∧ pn' = pn)
    (hdup : duppage envid pn ((pages k).entry e pn) = .child envid pn perm again)
    (hperm : ¬ badPerm perm) :
    ∃ m, Run (forking k proc e P (.loop envid pn)) []
        (forking { k with mem := m } proc e P (.loop envid (pn + 1))) ∧
      Forking n e c envid { k with mem := m } ∧
      (pages { k with mem := m }).entry c pn = page2pa p ||| perm ||| pteP ∧
      (pages { k with mem := m }).entry e pn =
        (if again then page2pa p ||| puc ||| pteP else (pages k).entry e pn) ∧
      ∀ x pn', pn' ≠ pn → (pages { k with mem := m }).entry x pn' = (pages k).entry x pn' := by
  have hva : pgnum (vaOf pn) = pn := pgnum_vaOf ((InRegion.lt hin).trans (by decide))
  have hloop : loopStep k e envid pn = .child envid pn perm again := by
    rw [loopStep, if_pos hin.2, if_pos]
    · rw [pages_entry h.lt (InRegion.lt hin)] at hdup
      exact hdup
    · rw [present_iff h.lt (InRegion.lt hin), show frameOf _ = some p from hp]
      simp
  obtain ⟨m, hres, hroom, hset⟩ := map_progress (n := n + 1) h.room h.lt (vaOf_not_badVa hin.2)
    (vaOf_not_badVa hin.2) hperm h.self h.child h.lt h.childLt h.dir h.childDir
    (by rw [hva]; exact hp) [(e, pn)] (by simp) (by simpa using honly)
  rw [hva] at hset
  have hrun := (loop_turn proc hidle envid pn hloop).trans
    (fork_call proc hidle _ (by simp) (by simp) rfl hres hroom.wrapped)
  have hself : (pages { k with mem := m }).entry e pn = (pages k).entry e pn :=
    Set.entry_of_ne hset fun heq => h.ne heq.1.symm
  cases again with
  | false =>
    exact ⟨m, hrun, h.setMem (hroom.mono (Nat.le_succ n)),
      Set.entry_self hset, hself, fun x pn' hne => Set.entry_of_ne hset fun heq => hne heq.2⟩
  | true =>
    obtain ⟨m', hres', hroom', hset'⟩ := map_progress hroom h.lt (vaOf_not_badVa hin.2)
      (vaOf_not_badVa hin.2) (show ¬ badPerm puc by decide) h.self h.self h.lt h.lt h.dir h.dir
      (by rw [hva, Pages.Maps, hself]; exact hp) [(e, pn), (c, pn)] (by simp)
      fun y pn' hy => by
        rcases Set.maps_cases hset hy with ⟨rfl, rfl, -⟩ | ⟨-, hy⟩
        · simp
        · obtain ⟨rfl, rfl⟩ := honly y pn' hy
          simp
    rw [hva] at hset'
    have hrun' := fork_call proc hidle (.parent envid pn) (by simp) (by simp) rfl hres'
      hroom'.wrapped
    refine ⟨m', hrun.trans hrun', h.setMem hroom', ?_, Set.entry_self hset', fun x pn' hne => ?_⟩
    · rw [Set.entry_of_ne hset' fun heq => h.ne heq.1, Set.entry_self hset]
    · rw [Set.entry_of_ne hset' fun heq => hne heq.2, Set.entry_of_ne hset fun heq => hne heq.2]

theorem finish_runs (proc : Nat → Option Process) (h : Forking (n + 2) e c envid k)
    (hidle : P.fault = none) :
    ∃ k', Run (forking k proc e P (.loop envid (pgnum ustacktop))) [.fork e c]
        ⟨k', update (update proc e (some { P with fork := none })) c
          (some newProcess)⟩ ∧
      Room n k' ∧ (∀ x, (k'.envs x).envPgdir = (k.envs x).envPgdir) ∧
      (k'.envs c).envStatus = .runnable ∧
      ∀ x pn, InRegion pn → (pages k').entry x pn = (pages k).entry x pn := by
  have hne : envid ≠ 0 := by
    rintro rfl
    have hchild := h.child
    rw [envid2env, if_pos rfl] at hchild
    exact h.ne (Option.some.inj hchild).symm
  obtain ⟨hx, -⟩ := envid2env_eq_some hne h.child
  have hrun0 := loop_turn (k := k) (e := e) proc hidle envid (pgnum ustacktop)
    (show _ = .stack envid by rw [loopStep, if_neg (lt_irrefl _)])
  obtain ⟨q, m, hres1, hroom1, -, -, hset1⟩ := alloc_progress h.room h.lt
    (show ¬ badVa (uxstacktop - pgsize) by decide) puw_ok h.child h.childLt
    h.childDir
  let k1 := { k with mem := m }
  have hrun1 := fork_call proc hidle (.stack envid) (by simp) (by simp) rfl hres1 hroom1.wrapped
  let k2 := k1.setEnv c { k1.envs c with envPgfaultUpcall := pgfaultUpcall }
  have hharm2 : Harmless k1 k2 := harmless_setEnv rfl rfl (.inl rfl)
  obtain ⟨hroom2, hsame2⟩ := hroom1.harmless hharm2 (hroom1.named.setEnv rfl)
  have hres2 : sysEnvSetPgfaultUpcall e envid pgfaultUpcall k1 = .ret 0 k2 := by
    rw [sysEnvSetPgfaultUpcall, show envid2env e envid true k1 = some c from h.child]
  have hrun2 := fork_call proc hidle (.upcall envid) (by simp) (by simp) rfl hres2 hroom2.wrapped
  have hchild2 : envid2env e envid true k2 = some c := by
    simpa [envid2env, k2, k1, hx, Kernel.setEnv, h.ne.symm] using h.child
  have hharm3 := harmless_setStatus k2 c .runnable
  obtain ⟨hroom3, hsame3⟩ := hroom2.harmless hharm3 (hroom2.named.setEnv rfl)
  have hres3 : sysEnvSetStatus e envid envRunnable k2 = .ret 0 (k2.setStatus c .runnable) := by
    rw [sysEnvSetStatus, hchild2]
    rfl
  have hlast := start_call proc hidle envid hres3 hroom3.wrapped
  rw [hx] at hlast
  refine ⟨_, ((hrun0.trans hrun1).trans hrun2).trans hlast, hroom3,
    fun x => ?_, congrArg Env.envStatus Kernel.setEnv_envs_self, fun x pn hin => ?_⟩
  · rw [hharm3.pgdir, hharm2.pgdir]
  · rw [hsame3.entry, hsame2.entry]
    refine Set.entry_of_ne hset1 fun heq => uxstack_notIn ?_
    rw [← heq.2]
    exact hin

theorem envid2env_own (hnamed : Named k) (he : e < nenv) (hstatus : (k.envs e).envStatus ≠ .free)
    (checkperm : Bool) : envid2env e (k.envs e).envId checkperm k = some e := by
  rw [envid2env]
  split
  · rfl
  · rename_i hne
    simp [(hnamed e he).2 hne, hstatus]

end Fork

end Mit6828.Lib.ForkProgress
