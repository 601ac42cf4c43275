import Mathlib.Data.Fintype.Card

/-!
The barrier of `HW9:Barriers/barrier.c` with any number of threads.  The parts of `barrier` under
the mutex are single steps, and `pthread_cond_wait` may return without a broadcast.
-/

namespace Mit6828.Homework.Barrier

open Function

/-- Where a thread is in its iteration: before it reads `bstate.round`, before it calls `barrier`,
or in `pthread_cond_wait`, with the broadcast for it sent or not. -/
inductive Pc where
  | read
  | call
  | wait (signaled : Bool)
deriving DecidableEq

/-- `nthread` and `round` are the fields of `bstate`, and `iter` is the variable `i` of each
thread. -/
structure State (n : Nat) where
  nthread : Nat
  round : Nat
  pc : Fin n → Pc
  iter : Fin n → Nat

def iterations : Nat := 20000

inductive Event (n : Nat) where
  | read (a : Fin n)
  | enter (a : Fin n)
  | wake (a : Fin n)
  | spurious (a : Fin n)
deriving DecidableEq

variable {n : Nat}

def init (n : Nat) : State n := ⟨0, 0, fun _ => .read, fun _ => 0⟩

namespace State

def setPc (s : State n) (a : Fin n) (pc : Pc) : State n := { s with pc := update s.pc a pc }

def leave (s : State n) (a : Fin n) : State n :=
  { s with pc := update s.pc a .read, iter := update s.iter a (s.iter a + 1) }

def broadcast (s : State n) : State n :=
  { s with pc := fun a => if s.pc a = .wait false then .wait true else s.pc a }

/-- `barrier` up to its return or to `pthread_cond_wait`. -/
def barrier (s : State n) (a : Fin n) : State n :=
  if s.nthread + 1 = n then State.leave { s.broadcast with round := s.round + 1, nthread := 0 } a
  else State.setPc { s with nthread := s.nthread + 1 } a (.wait false)

end State

/-- One step of a thread.  If the assertion fails the program ends, and no step follows. -/
def step (s : State n) : Event n → Option (State n)
  | .read a =>
    if s.pc a = .read ∧ s.iter a < iterations ∧ s.iter a = s.round then some (s.setPc a .call)
    else none
  | .enter a => if s.pc a = .call then some (s.barrier a) else none
  | .wake a => if s.pc a = .wait true then some (s.leave a) else none
  | .spurious a => if s.pc a = .wait false then some (s.leave a) else none

def run (s : State n) : List (Event n) → Option (State n)
  | [] => some s
  | e :: es => (step s e).bind fun s => run s es

/-- How many calls of `barrier` the thread has entered; it has returned from `iter` of them. -/
def State.entered (s : State n) (a : Fin n) : Nat :=
  match s.pc a with
  | .wait _ => s.iter a + 1
  | _ => s.iter a

/-- No thread has returned from a call that some thread has not entered, and a thread that is
about to read `bstate.round` finds the number of its iteration. -/
structure Lawful (s : State n) : Prop where
  returned : ∀ a b, s.iter a ≤ s.entered b
  reads : ∀ a, s.pc a = .read → s.iter a < iterations → s.round = s.iter a

/-- The iteration of a thread, when the barrier is in the given round. -/
def Pc.InRound (round iter : Nat) : Pc → Prop
  | .wait true => iter + 1 = round
  | _ => iter = round

def State.waiting (s : State n) : Finset (Fin n) := Finset.univ.filter fun a => s.pc a = .wait false

structure Inv (s : State n) : Prop where
  inRound : ∀ a, (s.pc a).InRound s.round (s.iter a)
  count : s.nthread = s.waiting.card
  lt : ∀ _ : Fin n, s.nthread < n

variable {s s' : State n} {a b : Fin n} {e : Event n} {es : List (Event n)}

theorem mem_waiting : a ∈ s.waiting ↔ s.pc a = .wait false := by
  simp [State.waiting]

theorem inv_init (n : Nat) : Inv (init n) where
  inRound := fun _ => rfl
  count := by simp [State.waiting, init]
  lt := fun a => a.pos

theorem Inv.lawful (h : Inv s) : Lawful s := by
  have hle : ∀ a, s.iter a ≤ s.round ∧ s.round ≤ s.entered a := by
    intro a
    have ha := h.inRound a
    rw [State.entered]
    cases hpc : s.pc a with
    | read =>
      rw [hpc] at ha
      exact ⟨Nat.le_of_eq ha, Nat.le_of_eq ha.symm⟩
    | call =>
      rw [hpc] at ha
      exact ⟨Nat.le_of_eq ha, Nat.le_of_eq ha.symm⟩
    | wait signaled =>
      rw [hpc] at ha
      cases signaled with
      | true =>
        have ha : s.iter a + 1 = s.round := ha
        grind
      | false =>
        have ha : s.iter a = s.round := ha
        grind
  refine ⟨fun a b => (hle a).1.trans (hle b).2, fun a hpc _ => ?_⟩
  have ha := h.inRound a
  rw [hpc] at ha
  exact ha.symm

theorem Inv.setPc {pc : Pc} (h : Inv s) (hold : s.pc a ≠ .wait false) (hnew : pc ≠ .wait false)
    {iter : Nat} (hin : pc.InRound s.round iter) :
    Inv { s with pc := update s.pc a pc, iter := update s.iter a iter } where
  inRound := by
    intro b
    by_cases hb : b = a
    · subst hb
      simpa using hin
    · simpa [update_of_ne hb] using h.inRound b
  count := by
    rw [h.count]
    congr 1
    ext b
    rw [mem_waiting, mem_waiting]
    by_cases hb : b = a
    · subst hb
      simp [hold, hnew]
    · simp [update_of_ne hb]
  lt := h.lt

theorem Inv.enter (h : Inv s) (hpc : s.pc a = .call) : Inv (s.barrier a) := by
  have ha : s.iter a = s.round := by simpa [hpc, Pc.InRound] using h.inRound a
  have hnot : a ∉ s.waiting := by rw [mem_waiting, hpc]; decide
  rw [State.barrier]
  split
  · rename_i hlast
    have hall : ∀ b, b ≠ a → s.pc b = .wait false := by
      intro b hb
      have hfull : insert a s.waiting = Finset.univ := by
        rw [← Finset.card_eq_iff_eq_univ, Finset.card_insert_of_notMem hnot, ← h.count, hlast,
          Fintype.card_fin]
      have hmem : b ∈ insert a s.waiting := hfull ▸ Finset.mem_univ b
      exact mem_waiting.mp (Finset.mem_of_mem_insert_of_ne hmem hb)
    refine ⟨fun b => ?_, ?_, fun b => b.pos⟩
    · by_cases hb : b = a
      · subst hb
        simp [State.leave, State.broadcast, Pc.InRound, ha]
      · have hround : s.iter b = s.round := by simpa [hall b hb, Pc.InRound] using h.inRound b
        simp [State.leave, State.broadcast, update_of_ne hb, hall b hb, Pc.InRound, hround]
    · refine (Finset.card_eq_zero.mpr (Finset.eq_empty_of_forall_notMem fun b hb => ?_)).symm
      rw [mem_waiting] at hb
      by_cases hba : b = a
      · subst hba
        simp [State.leave] at hb
      · simp [State.leave, State.broadcast, update_of_ne hba, hall b hba] at hb
  · rename_i hlast
    refine ⟨fun b => ?_, ?_, fun b => ?_⟩
    · by_cases hb : b = a
      · subst hb
        simp [State.setPc, Pc.InRound, ha]
      · simpa [State.setPc, update_of_ne hb] using h.inRound b
    · have hset : (State.setPc { s with nthread := s.nthread + 1 } a (.wait false)).waiting =
          insert a s.waiting := by
        ext b
        rw [mem_waiting, Finset.mem_insert, mem_waiting]
        by_cases hb : b = a
        · subst hb
          simp [State.setPc]
        · simp [State.setPc, hb]
      rw [hset, Finset.card_insert_of_notMem hnot, ← h.count]
      rfl
    · have hlt := h.lt b
      simp only [State.setPc]
      omega

theorem Inv.step (h : Inv s) (hcalm : ∀ a, e ≠ .spurious a) (hstep : Barrier.step s e = some s') :
    Inv s' := by
  cases e with
  | read a =>
    obtain ⟨⟨hpc, -, hround⟩, heq⟩ := Option.ite_none_right_eq_some.mp hstep
    cases heq
    have hin : Inv { s with
        pc := update s.pc a .call
        iter := update s.iter a (s.iter a) } :=
      h.setPc (by rw [hpc]; decide) (by decide) hround
    rwa [update_eq_self] at hin
  | enter a =>
    obtain ⟨hpc, heq⟩ := Option.ite_none_right_eq_some.mp hstep
    cases heq
    exact h.enter hpc
  | wake a =>
    obtain ⟨hpc, heq⟩ := Option.ite_none_right_eq_some.mp hstep
    cases heq
    have ha : s.iter a + 1 = s.round := by simpa [hpc, Pc.InRound] using h.inRound a
    exact h.setPc (by rw [hpc]; decide) (by decide) ha
  | spurious a => exact absurd rfl (hcalm a)

/-- A thread that wakes up by itself returns before some thread has entered the call. -/
theorem Inv.not_lawful (h : Inv s) (hstep : Barrier.step s (.spurious a) = some s') :
    ¬ Lawful s' := by
  obtain ⟨hpc, heq⟩ := Option.ite_none_right_eq_some.mp hstep
  cases heq
  have ha : s.iter a = s.round := by simpa [hpc, Pc.InRound] using h.inRound a
  obtain ⟨b, hb⟩ : ∃ b, b ∉ s.waiting := by
    by_contra hall
    push Not at hall
    have hfull : s.waiting = Finset.univ := Finset.eq_univ_of_forall hall
    have hlt := h.lt a
    rw [h.count, hfull, Finset.card_univ, Fintype.card_fin] at hlt
    exact absurd hlt (Nat.lt_irrefl n)
  have hba : b ≠ a := by
    rintro rfl
    exact hb (mem_waiting.mpr hpc)
  rw [mem_waiting] at hb
  intro hlaw
  have hret := hlaw.returned a b
  have hin := h.inRound b
  simp only [State.leave, State.entered, update_self, update_of_ne hba] at hret
  cases hpcb : s.pc b with
  | read =>
    simp only [hpcb, Pc.InRound] at hret hin
    omega
  | call =>
    simp only [hpcb, Pc.InRound] at hret hin
    omega
  | wait signaled =>
    cases signaled with
    | true =>
      simp only [hpcb, Pc.InRound] at hret hin
      omega
    | false => exact hb hpcb

theorem run_append (s : State n) (es es' : List (Event n)) :
    run s (es ++ es') = (run s es).bind fun s => run s es' := by
  induction es generalizing s with
  | nil => rfl
  | cons e es ih =>
    rw [List.cons_append, run, run, Option.bind_assoc]
    congr 1
    funext s
    exact ih s

theorem Inv.run (h : Inv s) (hcalm : ∀ a, .spurious a ∉ es) (hrun : Barrier.run s es = some s') :
    Inv s' := by
  induction es generalizing s with
  | nil =>
    cases hrun
    exact h
  | cons e es ih =>
    obtain ⟨s1, hstep, hrest⟩ := Option.bind_eq_some_iff.mp hrun
    refine ih (h.step (fun a ha => hcalm a ?_) hstep) (fun a ha => hcalm a ?_) hrest
    · rw [ha]
      exact List.mem_cons_self
    · exact List.mem_cons_of_mem _ ha

/-- A run is lawful at every point exactly if no `pthread_cond_wait` in it returns without a
broadcast. -/
theorem barrier_lawful_iff (hrun : run (init n) es = some s) :
    (∀ es1 s1, es1 <+: es → run (init n) es1 = some s1 → Lawful s1) ↔ ∀ a, .spurious a ∉ es := by
  constructor
  · intro hlaw
    induction es using List.reverseRecOn generalizing s with
    | nil => exact fun _ => List.not_mem_nil
    | append_singleton es e ih =>
      rw [run_append] at hrun
      obtain ⟨s1, hrun1, hlast⟩ := Option.bind_eq_some_iff.mp hrun
      obtain ⟨s2, hstep, hnil⟩ := Option.bind_eq_some_iff.mp hlast
      cases hnil
      have hcalm := ih hrun1 fun es1 s1 hpre => hlaw es1 s1 (hpre.trans (List.prefix_append _ _))
      intro a ha
      rcases List.mem_append.mp ha with ha | ha
      · exact hcalm a ha
      · obtain rfl := List.mem_singleton.mp ha
        refine ((inv_init n).run hcalm hrun1).not_lawful hstep (hlaw _ _ (List.prefix_refl _) ?_)
        rw [run_append]
        exact hrun
  · intro hcalm es1 s1 hpre hrun1
    exact ((inv_init n).run (fun a ha => hcalm a (hpre.subset ha)) hrun1).lawful

def onePass : List (Event 2) := [.read 0, .enter 0, .read 1, .enter 1, .wake 0]

theorem barrier_lawful_iff_onePass : ∃ s, run (init 2) onePass = some s ∧
    ((∀ es1 s1, es1 <+: onePass → run (init 2) es1 = some s1 → Lawful s1) ↔
      ∀ a, .spurious a ∉ onePass) := by
  obtain ⟨s, hs⟩ : ∃ s, run (init 2) onePass = some s := ⟨_, rfl⟩
  exact ⟨s, hs, barrier_lawful_iff hs⟩

/-- The first of two threads wakes up by itself, returns before the second has called `barrier`, and
finds round 0 in its iteration 1. -/
theorem spurious_wakeup_passes : ∃ s : State 2,
    run (init 2) [.read 0, .enter 0, .spurious 0] = some s ∧ s.iter 0 = 1 ∧ s.entered 1 = 0 ∧
      s.pc 0 = .read ∧ s.round = 0 ∧ ¬ Lawful s := by
  refine ⟨_, rfl, rfl, rfl, rfl, rfl, fun hlaw => ?_⟩
  exact absurd (hlaw.returned 0 1) (by decide)

end Mit6828.Homework.Barrier
