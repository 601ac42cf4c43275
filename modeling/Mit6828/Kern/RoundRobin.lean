import Mit6828.Kern.EnvFreeList

namespace Mit6828.Kern.RoundRobin

open Environment EnvSpec Boot

variable {c e : Nat} {k k' : Kernel} {es rest : List Nat} {idle : Option Nat}

def Ready (c : Nat) (k : Kernel) (e : Nat) : Prop :=
  (k.envs e).envStatus = .runnable ∨ (k.envs e).envStatus = .running ∧ k.curenv c = some e
deriving Decidable

/-- The members of the ready set, in circular order after `curenv`. -/
def order (c : Nat) (k : Kernel) : List Nat :=
  ((List.range nenv).rotate (startidx (k.curenv c) k)).filter (Ready c k)

/-- The ids name the slots, and what can run has an address space. -/
structure Schedulable (c : Nat) (k : Kernel) : Prop where
  current : ∀ e, k.curenv c = some e → e < nenv ∧ envx (k.envs e).envId = e
  ready : ∀ e < nenv, Ready c k e → envx (k.envs e).envId = e ∧ (k.envs e).envPgdir ≠ none

/-- `e` is the first `ENV_RUNNABLE` environment after `curenv`, or `curenv` and the only one to
run. -/
def Next (c : Nat) (k : Kernel) (e : Nat) : Prop :=
  (∃ n < nenv, e = (startidx (k.curenv c) k + n) % nenv ∧ (k.envs e).envStatus = .runnable ∧
    ∀ m < n, (k.envs ((startidx (k.curenv c) k + m) % nenv)).envStatus ≠ .runnable) ∨
  k.curenv c = some e ∧ (k.envs e).envStatus = .running ∧ ∀ e' < nenv, Ready c k e' → e' = e

theorem mem_order : e ∈ order c k ↔ e < nenv ∧ Ready c k e := by
  simp [order]

/-- Where the first member stands in the circle. -/
theorem order_cons {s : Nat} (hs : s = startidx (k.curenv c) k) (h : order c k = e :: rest) :
    ∃ l1 l2, (List.range nenv).rotate s = l1 ++ e :: l2 ∧ (∀ x ∈ l1, ¬ Ready c k x) ∧
      Ready c k e ∧ l2.filter (Ready c k) = rest ∧ l1.length + l2.length + 1 = nenv ∧
      e = (s + l1.length) % nenv ∧
      ∀ m < l1.length, (k.envs ((s + m) % nenv)).envStatus ≠ .runnable := by
  rw [order, ← hs] at h
  obtain ⟨l1, l2, heq, hno, hyes, hrest⟩ := List.filter_eq_cons_iff.mp h
  have hlen := congrArg List.length heq
  simp only [List.length_rotate, List.length_range, List.length_append, List.length_cons] at hlen
  have hget : ∀ m < nenv, ((List.range nenv).rotate s)[m]? = some ((s + m) % nenv) := fun m hm => by
    rw [List.getElem?_rotate (by simpa using hm), List.length_range,
      List.getElem?_range (Nat.mod_lt _ (by decide)), Nat.add_comm]
  rw [heq] at hget
  refine ⟨l1, l2, heq, by simpa using hno, by simpa using hyes, hrest, by omega, ?_,
    fun m hm hrun => ?_⟩
  · simpa using hget l1.length (by omega)
  · have hmem := hget m (by omega)
    rw [List.getElem?_append_left hm] at hmem
    have hnot := hno _ (List.mem_of_getElem? hmem)
    simp [Ready, hrun] at hnot

theorem schedPick_eq_none (h : ∀ e < nenv, (k.envs e).envStatus ≠ .runnable) :
    schedPick idle k = none :=
  Option.eq_none_iff_forall_ne_some.mpr fun e he => h e (schedPick_some he).1 (schedPick_some he).2

theorem schedYield_first (hk : Schedulable c k) (h : order c k = e :: rest) :
    Next c k e ∧ schedYield c k = envRun c e k := by
  obtain ⟨l1, l2, heq, hno, hready, hrest, hlen, he, hbefore⟩ := order_cons rfl h
  by_cases hrun : (k.envs e).envStatus = .runnable
  · refine ⟨.inl ⟨l1.length, by omega, he, hrun, hbefore⟩, ?_⟩
    have hpick := schedPick_of_first l1.length (by omega) (by rwa [← he]) hbefore
    rw [← he] at hpick
    simp only [schedYield, hpick]
  obtain ⟨hrunning, hcur⟩ := hready.resolve_left hrun
  obtain ⟨hlt, hid⟩ := hk.current e hcur
  have hlast : l2 = [] := by
    rw [hcur, startidx, hid] at he
    refine List.eq_nil_of_length_eq_zero ?_
    grind
  have honly : ∀ e' < nenv, Ready c k e' → e' = e := fun e' hlt' hready' => by
    have hmem := mem_order.mpr ⟨hlt', hready'⟩
    rw [h, ← hrest, hlast] at hmem
    simpa using hmem
  have hpick : schedPick (some e) k = none := schedPick_eq_none fun e' hlt' hrun' =>
    hrun (honly e' hlt' (.inl hrun') ▸ hrun')
  refine ⟨.inr ⟨hcur, hrunning, honly⟩, ?_⟩
  simp only [schedYield, hcur, hpick, if_pos hrunning]

theorem schedYield_none (hnone : ∀ e < nenv, ¬ Ready c k e) (hk : Schedulable c k) :
    schedYield c k = schedHalt c k := by
  rw [schedYield, schedPick_eq_none fun e hlt hrun => hnone e hlt (.inl hrun)]
  cases hcur : k.curenv c with
  | none => rfl
  | some e =>
    exact if_neg fun hrun => hnone e (hk.current e hcur).1 (.inr ⟨hrun, hcur⟩)

theorem ready_of_ran (hran : Ran c e k k') (he : Ready c k e) (e' : Nat) :
    Ready c k' e' ↔ Ready c k e' := by
  rw [Ready, hran.status_eq, statusAfter, hran.curenv]
  by_cases heq : e' = e
  · subst heq
    simp [he]
  rw [if_neg heq]
  by_cases hcur : k.curenv c = some e' ∧ (k.envs e').envStatus = .running
  · rw [if_pos hcur]
    exact iff_of_true (.inl rfl) (.inr ⟨hcur.2, hcur.1⟩)
  · rw [if_neg hcur, Ready]
    refine or_congr_right (iff_of_false ?_ fun h => hcur ⟨h.2, h.1⟩)
    rintro ⟨-, h⟩
    exact heq (Option.some.inj h).symm

theorem order_of_ran (hk : Schedulable c k) (hran : Ran c e k k') (h : order c k = e :: rest) :
    order c k' = rest ++ [e] := by
  obtain ⟨l1, l2, heq, hno, hready, hrest, hlen, he, -⟩ := order_cons rfl h
  obtain ⟨hlt, -⟩ := mem_order.mp (h ▸ List.mem_cons_self : e ∈ order c k)
  have hid := hran.field Env.envId (fun _ _ _ _ => rfl) e
  have hstart : startidx (k'.curenv c) k' =
      (startidx (k.curenv c) k + (l1 ++ [e]).length) % nenv := by
    rw [hran.curenv, startidx, hid, (hk.ready e hlt hready).1, List.length_append,
      List.length_singleton]
    conv_rhs => rw [← Nat.add_assoc, ← Nat.mod_add_mod, ← he]
  have hsame : Ready c k' = Ready c k := funext fun e' => propext (ready_of_ran hran hready e')
  have hrotate : (List.range nenv).rotate (startidx (k'.curenv c) k') = l2 ++ (l1 ++ [e]) := by
    have hmod := List.rotate_mod (List.range nenv) (startidx (k.curenv c) k + (l1 ++ [e]).length)
    rw [List.length_range] at hmod
    rw [hstart, hmod, ← List.rotate_rotate, heq, List.append_cons, List.rotate_append_length_eq]
  have hskip : l1.filter (Ready c k) = [] := List.filter_eq_nil_iff.mpr (by simpa using hno)
  rw [order, hrotate]
  simp only [hsame, List.filter_append, hrest, hskip, List.nil_append]
  simp [hready]

/-- What may happen between two calls: no status changes. -/
structure Undisturbed (c : Nat) (k k' : Kernel) : Prop where
  curenv : k'.curenv c = k.curenv c
  status : ∀ e, (k'.envs e).envStatus = (k.envs e).envStatus
  id : ∀ e, (k'.envs e).envId = (k.envs e).envId
  pgdir : ∀ e, (k.envs e).envPgdir ≠ none → (k'.envs e).envPgdir ≠ none

/-- Calls of `sched_yield` that run the environments `es` one after the other. -/
inductive Turns (c : Nat) : Kernel → List Nat → Kernel → Prop
  | idle {k k' : Kernel} (h : Undisturbed c k k') : Turns c k [] k'
  | call {k k1 k2 k' : Kernel} {e : Nat} {es : List Nat} (h : Undisturbed c k k1)
      (hyield : schedYield c k1 = some k2) (hrun : k2.curenv c = some e)
      (hrest : Turns c k2 es k') :
      Turns c k (e :: es) k'

theorem Schedulable.keep (hk : Schedulable c k) (hready : ∀ e, Ready c k' e ↔ Ready c k e)
    (hcur : ∀ e, k'.curenv c = some e → k.curenv c = some e ∨ e < nenv ∧ Ready c k e)
    (hid : ∀ e, (k'.envs e).envId = (k.envs e).envId)
    (hpgdir : ∀ e, (k.envs e).envPgdir ≠ none → (k'.envs e).envPgdir ≠ none) :
    Schedulable c k' := by
  refine ⟨fun e he => ?_, fun e hlt he => ?_⟩
  · rw [hid]
    exact (hcur e he).elim (hk.current e) fun h => ⟨h.1, (hk.ready e h.1 h.2).1⟩
  · obtain ⟨hx, hdir⟩ := hk.ready e hlt ((hready e).mp he)
    exact ⟨(hid e).symm ▸ hx, hpgdir e hdir⟩

theorem Undisturbed.spec (h : Undisturbed c k k') (hk : Schedulable c k) :
    Schedulable c k' ∧ order c k' = order c k := by
  have hready : ∀ e, Ready c k' e ↔ Ready c k e := fun e => by
    rw [Ready, Ready, h.status, h.curenv]
  refine ⟨hk.keep hready (fun e he => .inl (h.curenv ▸ he)) h.id h.pgdir, ?_⟩
  have hstart : startidx (k'.curenv c) k' = startidx (k.curenv c) k := by
    rw [h.curenv]
    cases k.curenv c with
    | none => rfl
    | some e => rw [startidx, startidx, h.id]
  simp only [order, hready, hstart]

theorem schedYield_runs (hk : Schedulable c k) (h : order c k = e :: rest) :
    ∃ k', schedYield c k = some k' ∧ k'.curenv c = some e ∧ Schedulable c k' ∧
      order c k' = rest ++ [e] := by
  obtain ⟨hlt, hready⟩ := mem_order.mp (h ▸ List.mem_cons_self : e ∈ order c k)
  obtain ⟨d, hd⟩ := Option.ne_none_iff_exists'.mp (hk.ready e hlt hready).2
  obtain ⟨k', hrun⟩ := envRun_returns (c := c) hd
  have hran := envRun_ran hrun
  refine ⟨k', (schedYield_first hk h).2.trans hrun, hran.curenv, ?_, order_of_ran hk hran h⟩
  refine hk.keep (ready_of_ran hran hready) (fun e' he => .inr ?_)
    (hran.field Env.envId fun _ _ _ _ => rfl) fun e' he =>
      (hran.field Env.envPgdir (fun _ _ _ _ => rfl) e').symm ▸ he
  obtain rfl := Option.some.inj (hran.curenv.symm.trans he)
  exact ⟨hlt, hready⟩

/-- The turns go through the circular order, which each of them rotates by one. -/
theorem Turns.spec (h : Turns c k es k') (hk : Schedulable c k) (hne : order c k ≠ []) :
    Schedulable c k' ∧ order c k' = (order c k).rotate es.length ∧
      (es.length ≤ (order c k).length → es = (order c k).take es.length) := by
  induction h with
  | idle h =>
    obtain ⟨hk', horder⟩ := h.spec hk
    exact ⟨hk', by rw [horder, List.length_nil, List.rotate_zero], fun _ => rfl⟩
  | call h hyield hrun _ ih =>
    obtain ⟨hk1, horder1⟩ := h.spec hk
    obtain ⟨e', rest, hcons⟩ := List.exists_cons_of_ne_nil hne
    obtain ⟨k2, hyield', hrun', hk2, hnext⟩ := schedYield_runs hk1 (horder1.trans hcons)
    obtain rfl := Option.some.inj (hyield.symm.trans hyield')
    obtain rfl := Option.some.inj (hrun.symm.trans hrun')
    obtain ⟨hk', horder, htake⟩ := ih hk2 (by simp [hnext])
    rw [hnext] at horder htake
    rw [hcons, List.length_cons, List.length_cons]
    refine ⟨hk', by rw [horder, List.rotate_cons_succ], fun hle => ?_⟩
    have hes := htake (by simp; omega)
    rw [List.take_append_of_le_length (by omega)] at hes
    rw [List.take_succ_cons, ← hes]

/-- `sched_yield` is round robin: each call runs the next environment of the ready set, and as
many calls as the set has members run every member once.  Without members it halts. -/
theorem sched_yield_round_robin (hk : Schedulable c k) :
    ((∀ e < nenv, ¬ Ready c k e) → schedYield c k = schedHalt c k) ∧
      ∀ es k1, (∃ e < nenv, Ready c k e) → Turns c k es k1 →
        (∃ e k', Next c k1 e ∧ schedYield c k1 = envRun c e k1 ∧ envRun c e k1 = some k') ∧
        ∀ es' k2, Turns c k1 es' k2 → es'.length = (order c k).length →
          es'.Nodup ∧ ∀ e, e ∈ es' ↔ e < nenv ∧ Ready c k e := by
  refine ⟨fun hnone => schedYield_none hnone hk, fun es k1 hsome hturns => ?_⟩
  have hne : order c k ≠ [] := by
    obtain ⟨e, he⟩ := hsome
    exact List.ne_nil_of_mem (mem_order.mpr he)
  obtain ⟨hk1, horder, -⟩ := hturns.spec hk hne
  have hne1 : order c k1 ≠ [] := by rwa [horder, Ne, List.rotate_eq_nil_iff]
  refine ⟨?_, fun es' k2 hturns' hlen => ?_⟩
  · obtain ⟨e, rest, hcons⟩ := List.exists_cons_of_ne_nil hne1
    obtain ⟨hnext, hyield⟩ := schedYield_first hk1 hcons
    obtain ⟨k', hrun, -⟩ := schedYield_runs hk1 hcons
    exact ⟨e, k', hnext, hyield, hyield ▸ hrun⟩
  rw [← List.length_rotate (order c k) es.length, ← horder] at hlen
  obtain ⟨-, -, htake⟩ := hturns'.spec hk1 hne1
  have hes := htake hlen.le
  rw [hlen, List.take_length] at hes
  rw [hes]
  refine ⟨(List.nodup_rotate.mpr List.nodup_range).filter _, fun e => ?_⟩
  rw [horder, List.mem_rotate, mem_order]

/-- Environments 0 and 1 are runnable. -/
def twoReady : Kernel := { EnvFreeList.zeroed with
  envs := fun e => { zeroEnv with
    envId := BitVec.ofNat 32 e, envStatus := if e < 2 then .runnable else .free
    envPgdir := some 0 } }

theorem round_robin_twoReady : ∃ e k', Next 0 twoReady e ∧
    schedYield 0 twoReady = envRun 0 e twoReady ∧ envRun 0 e twoReady = some k' := by
  have hk : Schedulable 0 twoReady := by
    refine ⟨fun e hcur => (nomatch hcur), fun e hlt hready => ⟨?_, by simp [twoReady]⟩⟩
    have hlt : e < 2 := by
      by_contra hge
      have hfree : (twoReady.envs e).envStatus = .free := if_neg hge
      rcases hready with h | ⟨h, -⟩ <;> cases hfree.symm.trans h
    rcases (by omega : e = 0 ∨ e = 1) with rfl | rfl <;> rfl
  exact ((sched_yield_round_robin hk).2 [] _ ⟨0, by decide, .inl rfl⟩
    (.idle ⟨rfl, fun _ => rfl, fun _ => rfl, fun _ => id⟩)).1

end Mit6828.Kern.RoundRobin
