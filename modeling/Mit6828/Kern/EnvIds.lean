import Mit6828.Kern.EnvFreeList

namespace Mit6828.Kern.EnvIds

open Mmu Pmap Environment EnvSpec EnvTable EnvFreeList Function

/-- The table, the ids of the environments that were created in each slot, in order, and the
slots whose last environment has not been freed. -/
structure Log where
  kernel : Kernel
  ids : Nat → List Word
  live : Nat → Prop

inductive Calls (k0 : Kernel) : Log → Prop
  | init : Calls k0 ⟨envInit k0, fun _ => [], fun _ => False⟩
  | alloc {s : Log} {parentId : Word} {e : Nat} {k : Kernel} (hs : Calls k0 s)
      (hres : envAlloc parentId s.kernel = (.ok e, k)) :
      Calls k0 ⟨k, update s.ids e (s.ids e ++ [(k.envs e).envId]), update s.live e True⟩
  | fail {s : Log} {parentId r : Word} {k : Kernel} (hs : Calls k0 s)
      (hres : envAlloc parentId s.kernel = (.error r, k)) : Calls k0 { s with kernel := k }
  | free {s : Log} {e : Nat} {k : Kernel} (hs : Calls k0 s) (he : e < nenv)
      (hres : envFree e s.kernel = some k) :
      Calls k0 ⟨k, s.ids, update s.live e False⟩

section Generation

variable {e n : Nat} {old : Word}

theorem toNat_and_not (x : Word) : (x &&& ~~~(1023 : Word)).toNat = x.toNat / 1024 * 1024 := by
  have hmask : ∀ i < 32, (~~~1023 : Word).getLsbD i = !decide (i < 10) := by decide
  have hshift : x &&& ~~~(1023 : Word) = x >>> 10 <<< 10 := by
    apply BitVec.eq_of_getLsbD_eq
    intro i hi
    rw [BitVec.getLsbD_and, hmask i hi, BitVec.getLsbD_shiftLeft, BitVec.getLsbD_ushiftRight]
    by_cases h : i < 10
    · simp [h]
    · simp [h, hi, Nat.add_sub_cancel' (Nat.not_lt.mp h)]
  have hlt := x.isLt
  rw [hshift, BitVec.toNat_shiftLeft, BitVec.toNat_ushiftRight, Nat.shiftLeft_eq,
    Nat.shiftRight_eq_div_pow]
  omega

theorem toNat_nextEnvId {g r : Nat} (he : e < nenv) (hold : old.toNat = g * 4096 + r)
    (hr : r < 1024) (hg : g < 2 ^ 19) :
    (nextEnvId old e).toNat = (if g + 1 < 2 ^ 19 then g + 1 else 1) * 4096 + e := by
  have he' : e < 1024 := he
  have hsum : (old + (1 <<< 12 : Word)).toNat = (g + 1) * 4096 + r := by grind
  have hgen : ((old + (1 <<< 12 : Word)) &&& ~~~(1023 : Word)).toNat = (g + 1) * 4096 := by
    rw [toNat_and_not, hsum]
    omega
  have hint := BitVec.toInt_eq_toNat_cond ((old + (1 <<< 12 : Word)) &&& ~~~(1023 : Word))
  have hor : ∀ (gen : Word) (n : Nat), gen.toNat = n * 4096 →
      (gen ||| BitVec.ofNat 32 e).toNat = n * 4096 + e := by
    intro gen n hn
    rw [BitVec.toNat_or, hn, BitVec.toNat_ofNat, Nat.mod_eq_of_lt (by omega),
      show n * 4096 = n <<< 12 by rw [Nat.shiftLeft_eq],
      ← Nat.shiftLeft_add_eq_or_of_lt (by omega)]
  rw [nextEnvId]
  apply hor
  rw [hgen] at hint
  by_cases hlt : g + 1 < 2 ^ 19
  · rw [if_pos hlt, if_neg, hgen]
    split at hint <;> omega
  · rw [if_neg hlt, if_pos]
    · rfl
    · split at hint <;> omega

/-- The id of the `n`-th environment in slot `e`. -/
def idAt (e n : Nat) : Word := (fun id => nextEnvId id e)^[n] 0

theorem idAt_succ (e n : Nat) : idAt e (n + 1) = nextEnvId (idAt e n) e :=
  Function.iterate_succ_apply' _ _ _

theorem toNat_idAt (he : e < nenv) (n : Nat) :
    (idAt e (n + 1)).toNat = (n % (2 ^ 19 - 1) + 1) * 4096 + e := by
  rw [show 2 ^ 19 - 1 = 524287 from rfl]
  induction n with
  | zero =>
    rw [idAt_succ, toNat_nextEnvId (g := 0) (r := 0) he (by simp [idAt]) (by decide) (by omega)]
    simp
  | succ n ih =>
    rw [idAt_succ, toNat_nextEnvId he ih he (by omega)]
    split <;> omega

theorem idAt_eq_iff (he : e < nenv) (i j : Nat) :
    idAt e (i + 1) = idAt e (j + 1) ↔ i ≡ j [MOD 2 ^ 19 - 1] := by
  rw [← BitVec.toNat_inj, toNat_idAt he, toNat_idAt he, Nat.ModEq]
  omega

end Generation

structure Inv (s : Log) : Prop where
  head : ∀ e, s.kernel.envFreeList = some e → e < nenv
  link : ∀ e < nenv, ∀ e', (s.kernel.envs e).envLink = some e' → e' < nenv
  id : ∀ e < nenv, (s.kernel.envs e).envId = idAt e (s.ids e).length
  ids : ∀ e < nenv, s.ids e = (List.range (s.ids e).length).map fun i => idAt e (i + 1)
  live : ∀ e, s.live e → s.ids e ≠ []
  dead : ∀ e, s.ids e ≠ [] → ¬ s.live e → (s.kernel.envs e).envStatus = .free

variable {k0 : Kernel} {s : Log}

theorem inv_envInit (h : k0.envFreeList = none) :
    Inv ⟨envInit k0, fun _ => [], fun _ => False⟩ := by
  have hslots : ∀ i ≤ nenv, ∀ k : Kernel, (∀ e, k.envFreeList = some e → e < nenv) →
      (∀ e < nenv, i ≤ e → (k.envs e).envId = 0 ∧
        ∀ e', (k.envs e).envLink = some e' → e' < nenv) →
      (∀ e, (envInitSlots i k).envFreeList = some e → e < nenv) ∧
        ∀ e < nenv, ((envInitSlots i k).envs e).envId = 0 ∧
          ∀ e', ((envInitSlots i k).envs e).envLink = some e' → e' < nenv := by
    intro i
    induction i with
    | zero => exact fun _ k hhead hlinks => ⟨hhead, fun e he => hlinks e he (Nat.zero_le e)⟩
    | succ i ih =>
      intro hi k hhead hlinks
      refine ih (by omega) _ (fun e he => Option.some.inj he ▸ hi) fun e he hle => ?_
      by_cases heq : e = i
      · subst heq
        simpa using hhead
      · simpa [Kernel.setEnv_envs_of_ne heq] using hlinks e he (by omega)
  have hinit := hslots nenv (Nat.le_refl nenv) k0 (fun e he => by rw [h] at he; cases he)
    fun e he hle => absurd he (Nat.not_lt.mpr hle)
  rw [← envInit] at hinit
  generalize envInit k0 = k at hinit
  obtain ⟨hhead, hlinks⟩ := hinit
  exact ⟨hhead, fun e he => (hlinks e he).2, fun e he => (hlinks e he).1, fun _ _ => rfl,
    fun _ hlive => hlive.elim, fun _ hne => absurd rfl hne⟩

/-- Slot `e` is taken off the free list and gets its next id. -/
theorem Inv.alloc {parentId : Word} {p e : Nat} {m : Mem} (h : Inv s)
    (hhead : s.kernel.envFreeList = some e) : Inv ⟨allocated parentId e p m s.kernel,
      update s.ids e (s.ids e ++ [(freshEnv parentId e p (s.kernel.envs e)).envId]),
      update s.live e True⟩ := by
  have he := h.head e hhead
  have hnext : (freshEnv parentId e p (s.kernel.envs e)).envId = idAt e ((s.ids e).length + 1) := by
    rw [freshEnv, h.id e he, idAt_succ]
  refine ⟨h.link e he, fun e' he' => ?_, fun e' he' => ?_, fun e' he' => ?_, fun e' => ?_,
    fun e' => ?_⟩
  all_goals by_cases heq : e' = e
  · subst heq
    simpa [freshEnv] using h.link e' he
  · simpa [heq] using h.link e' he'
  · subst heq
    simpa using hnext
  · simpa [heq] using h.id e' he'
  · subst heq
    simp only [update_self, List.length_append, List.length_singleton, List.range_succ,
      List.map_append, List.map_singleton, ← h.ids e' he, hnext]
  · simpa [heq] using h.ids e' he'
  · simp [heq]
  · simpa [heq] using h.live e'
  · simp [heq]
  · simpa [heq] using h.dead e'

theorem Inv.free {m : Mem} {e : Nat} (h : Inv s) (he : e < nenv) :
    Inv ⟨freed e m s.kernel, s.ids, update s.live e False⟩ := by
  refine ⟨fun e' he' => Option.some.inj he' ▸ he, fun e' he' => ?_, fun e' he' => ?_, h.ids,
    fun e' => ?_, fun e' => ?_⟩
  all_goals by_cases heq : e' = e
  · subst heq
    simpa using h.head
  · simpa [heq] using h.link e' he'
  · subst heq
    simpa using h.id e' he
  · simpa [heq] using h.id e' he'
  · simp [heq]
  · simpa [heq] using h.live e'
  · simp [heq]
  · simpa [heq] using h.dead e'

theorem Calls.inv (h : k0.envFreeList = none) (hs : Calls k0 s) : Inv s := by
  induction hs with
  | init => exact inv_envInit h
  | @alloc s parentId e k _ hres ih =>
    obtain ⟨r, m, hfail⟩ | ⟨e', p, m, hhead, hok⟩ := envAlloc_table parentId s.kernel
    · rw [hfail] at hres
      cases hres
    rw [hok] at hres
    cases hres
    simpa using ih.alloc (m := m) hhead
  | @fail s parentId r k _ hres ih =>
    obtain ⟨r, m, hfail⟩ | ⟨e', p, m, hhead, hok⟩ := envAlloc_table parentId s.kernel
    · rw [hfail] at hres
      cases hres
      exact { ih with }
    · rw [hok] at hres
      cases hres
  | @free s e k _ he hres ih =>
    obtain ⟨d, m, -, rfl⟩ := envFree_eq_some hres
    exact ih.free he

/-- What ids are for. -/
structure Cyclic (s : Log) : Prop where
  positive : ∀ e < nenv, s.live e → 0 < (s.kernel.envs e).envId.toInt
  slot : ∀ e < nenv, s.live e → envx (s.kernel.envs e).envId = e
  distinct : ∀ e < nenv, ∀ e' < nenv, s.live e → s.live e' → e ≠ e' →
    (s.kernel.envs e).envId ≠ (s.kernel.envs e').envId
  cycle : ∀ e < nenv, ∀ i j, ∀ (hi : i < (s.ids e).length) (hj : j < (s.ids e).length),
    (s.ids e)[i] = (s.ids e)[j] ↔ i ≡ j [MOD 2 ^ 19 - 1]
  /-- The environment is gone, and its slot has been reused `2 ^ 19 - 2` times at most. -/
  stale : ∀ e < nenv, ∀ i, ∀ (hi : i < (s.ids e).length), (s.live e → i + 1 < (s.ids e).length) →
    (s.ids e).length - (i + 1) ≤ 2 ^ 19 - 2 →
      ∀ cur checkperm, envid2env cur (s.ids e)[i] checkperm s.kernel = none

theorem Inv.getElem (h : Inv s) {e i : Nat} (he : e < nenv) (hi : i < (s.ids e).length) :
    (s.ids e)[i] = idAt e (i + 1) := by
  have hget : (s.ids e)[i]? = some (idAt e (i + 1)) := by
    rw [h.ids e he]
    simp [hi]
  exact Option.some.inj ((List.getElem?_eq_getElem hi).symm.trans hget)

theorem Inv.cyclic (h : Inv s) : Cyclic s := by
  have hspec : ∀ e < nenv, s.live e → envx (s.kernel.envs e).envId = e ∧
      (s.kernel.envs e).envId ≠ 0 ∧ ¬ isNeg (s.kernel.envs e).envId := by
    intro e he hlive
    obtain ⟨n, hn⟩ := Nat.exists_eq_succ_of_ne_zero
      (List.length_eq_zero_iff.not.mpr (h.live e hlive))
    rw [h.id e he, hn, idAt_succ]
    exact nextEnvId_spec _ he
  refine ⟨fun e he hlive => ?_, fun e he hlive => (hspec e he hlive).1,
    fun e he e' he' hlive hlive' hne heq => hne ?_, fun e he i j hi hj => ?_,
    fun e he i hi hstale hreuse cur checkperm => ?_⟩
  · obtain ⟨-, hne, hpos⟩ := hspec e he hlive
    have : (s.kernel.envs e).envId.toInt ≠ 0 := fun hzero => hne (BitVec.eq_of_toInt_eq hzero)
    rw [isNeg] at hpos
    omega
  · rw [← (hspec e he hlive).1, ← (hspec e' he' hlive').1, heq]
  · rw [h.getElem he hi, h.getElem he hj, idAt_eq_iff he]
  obtain ⟨hx, hne, -⟩ := nextEnvId_spec (idAt e i) he
  rw [← idAt_succ] at hx hne
  rw [h.getElem he hi]
  simp only [envid2env, if_neg hne, hx]
  refine if_pos ?_
  by_cases hlive : s.live e
  · refine .inr fun hid => ?_
    obtain ⟨n, hn⟩ : ∃ n, (s.ids e).length = n + 1 := ⟨_, (Nat.sub_add_cancel (by omega)).symm⟩
    rw [h.id e he, hn, idAt_eq_iff he, Nat.ModEq] at hid
    grind
  · exact .inl (h.dead e (List.ne_nil_of_length_pos (by omega)) hlive)

theorem env_ids_cyclic (h : k0.envFreeList = none) (hs : Calls k0 s) : Cyclic s :=
  (hs.inv h).cyclic

theorem env_ids_cyclic_two : ∃ s : Log, Calls zeroed s ∧ s.live 0 ∧ s.live 1 ∧ Cyclic s := by
  obtain ⟨k1, hres, -, hhead, hpage⟩ := zeroed_alloc
  obtain ⟨k2, hres', -⟩ := envAlloc_ok 0 hhead hpage
  have hinit : Calls zeroed _ := .init
  generalize envInit zeroed = k at hres hinit
  have hs := (hinit.alloc hres).alloc hres'
  exact ⟨_, hs, by simp, by simp, env_ids_cyclic rfl hs⟩

end Mit6828.Kern.EnvIds
