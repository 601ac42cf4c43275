import Mathlib.Algebra.BigOperators.Intervals
import Mathlib.Algebra.Group.Action.Defs
import Mathlib.Algebra.Order.BigOperators.Group.List
import Mit6828.Xv6.Param

namespace Mit6828.Xv6.LogSpace

structure Log where
  lh : List Nat
  outstanding : Nat

def size : Nat := logsize

def beginOp (log : Log) : Option Log :=
  if log.lh.length + (log.outstanding + 1) * maxopblocks > logsize then none
  else some { log with outstanding := log.outstanding + 1 }

def logWrite (log : Log) (b : Nat) : Option Log :=
  if log.lh.length ≥ logsize ∨ log.lh.length ≥ size - 1 then none
  else if log.outstanding < 1 then none
  else some { log with lh := if b ∈ log.lh then log.lh else log.lh ++ [b] }

def endOp (log : Log) : Log :=
  if log.outstanding - 1 = 0 then ⟨[], 0⟩ else { log with outstanding := log.outstanding - 1 }

structure State where
  log : Log
  active : List (List Nat)

def boot : State := ⟨⟨[], 0⟩, []⟩

inductive Step (S : Set (List Nat)) : State → State → Prop
  | begins {log log' : Log} {active : List (List Nat)} {ws : List Nat} (hws : ws ∈ S)
      (hbegin : beginOp log = some log') : Step S ⟨log, active⟩ ⟨log', ws :: active⟩
  | writes {log log' : Log} {l l' : List (List Nat)} {b : Nat} {ws : List Nat}
      (hwrite : logWrite log b = some log') :
      Step S ⟨log, l ++ (b :: ws) :: l'⟩ ⟨log', l ++ ws :: l'⟩
  | ends {log : Log} {l l' : List (List Nat)} : Step S ⟨log, l ++ [] :: l'⟩ ⟨endOp log, l ++ l'⟩

def Reachable (S : Set (List Nat)) (s : State) : Prop := Relation.ReflTransGen (Step S) boot s

def State.Panics (s : State) : Prop :=
  ∃ l b ws l', s.active = l ++ (b :: ws) :: l' ∧ logWrite s.log b = none

/-- How many blocks a section is going to add to those in `lh`. -/
def extra (lh ws : List Nat) : Nat := (ws.toFinset \ lh.toFinset).card

/-- The log has room for what the sections are going to add. -/
structure Inv (s : State) : Prop where
  outstanding : s.log.outstanding = s.active.length
  small : ∀ ws ∈ s.active, ws.toFinset.card < maxopblocks
  space : s.log.lh.length + (s.active.map (extra s.log.lh)).sum ≤ logsize - 2
  empty : s.active = [] → s.log.lh = []

variable {S : Set (List Nat)} {s s' : State} {log log' : Log} {lh ws : List Nat} {b : Nat}
  {l l' : List (List Nat)}

section Extra

theorem extra_le (lh ws : List Nat) : extra lh ws ≤ ws.toFinset.card :=
  Finset.card_le_card Finset.sdiff_subset

theorem extra_append_le (lh ws : List Nat) (b : Nat) : extra (lh ++ [b]) ws ≤ extra lh ws := by
  refine Finset.card_le_card (Finset.sdiff_subset_sdiff (Finset.Subset.refl _) ?_)
  rw [List.toFinset_append]
  exact Finset.subset_union_left

theorem extra_cons_le (lh ws : List Nat) (b : Nat) : extra lh ws ≤ extra lh (b :: ws) := by
  refine Finset.card_le_card (Finset.sdiff_subset_sdiff ?_ (Finset.Subset.refl _))
  rw [List.toFinset_cons]
  exact Finset.subset_insert _ _

theorem extra_new (ws : List Nat) (hb : b ∉ lh) :
    extra (lh ++ [b]) ws + 1 ≤ extra lh (b :: ws) := by
  have hmem : b ∈ (b :: ws).toFinset \ lh.toFinset := by simp [hb]
  have hsub : ws.toFinset \ (lh ++ [b]).toFinset ⊆ ((b :: ws).toFinset \ lh.toFinset).erase b := by
    intro x hx
    simp only [Finset.mem_sdiff, List.mem_toFinset, List.mem_append, List.mem_cons, not_or,
      Finset.mem_erase] at hx ⊢
    exact ⟨hx.2.2.1, .inr hx.1, hx.2.1⟩
  have hle := Finset.card_le_card hsub
  have hpos := Finset.card_pos.mpr ⟨b, hmem⟩
  rw [Finset.card_erase_of_mem hmem] at hle
  rw [extra, extra]
  omega

theorem sum_extra_le (lh : List Nat) (active : List (List Nat))
    (hsmall : ∀ ws ∈ active, ws.toFinset.card < maxopblocks) :
    (active.map (extra lh)).sum ≤ active.length * (maxopblocks - 1) := by
  have hle := List.sum_le_card_nsmul (active.map (extra lh)) (maxopblocks - 1) fun x hx => by
    obtain ⟨ws, hws, rfl⟩ := List.mem_map.mp hx
    have hlt := hsmall ws hws
    have hext := extra_le lh ws
    omega
  rwa [List.length_map, smul_eq_mul] at hle

end Extra

section Steps

theorem inv_boot : Inv boot where
  outstanding := rfl
  small := fun _ hws => absurd hws List.not_mem_nil
  space := Nat.zero_le _
  empty := fun _ => rfl

theorem Inv.begins {active : List (List Nat)} (h : Inv ⟨log, active⟩)
    (hws : ws.toFinset.card < maxopblocks)
    (hbegin : beginOp log = some log') : Inv ⟨log', ws :: active⟩ := by
  obtain ⟨hout, hsmall, hspace, hempty⟩ := h
  rw [beginOp] at hbegin
  split at hbegin
  · cases hbegin
  rename_i hroom
  cases hbegin
  have hsmall' : ∀ ws' ∈ ws :: active, ws'.toFinset.card < maxopblocks :=
    List.forall_mem_cons.mpr ⟨hws, hsmall⟩
  have hsum := sum_extra_le log.lh (ws :: active) hsmall'
  refine ⟨congrArg (· + 1) hout, hsmall', ?_, fun hnil => by cases hnil⟩
  simp only [show maxopblocks = 10 from rfl, show logsize = 30 from rfl, List.length_cons] at *
  by_cases hnil : active = []
  · -- after a commit the log is empty
    grind
  · have hpos := List.length_pos_iff.mpr hnil
    omega

theorem Inv.writes (h : Inv ⟨log, l ++ (b :: ws) :: l'⟩)
    (hwrite : logWrite log b = some log') : Inv ⟨log', l ++ ws :: l'⟩ := by
  obtain ⟨hout, hsmall, hspace, -⟩ := h
  rw [logWrite] at hwrite
  split at hwrite
  · cases hwrite
  split at hwrite
  · cases hwrite
  cases hwrite
  simp only [List.length_append, List.length_cons, List.map_append, List.map_cons, List.sum_append,
    List.sum_cons] at hout hspace
  refine ⟨?_, fun ws' hmem => ?_, ?_, fun hnil => by simp at hnil⟩
  · simpa using hout
  · simp only [List.mem_append, List.mem_cons] at hmem hsmall
    rcases hmem with hmem | rfl | hmem
    · exact hsmall ws' (.inl hmem)
    · have hlt := hsmall (b :: ws') (.inr (.inl rfl))
      rw [List.toFinset_cons] at hlt
      exact (Finset.card_le_card (Finset.subset_insert _ _)).trans_lt hlt
    · exact hsmall ws' (.inr (.inr hmem))
  simp only [List.map_append, List.map_cons, List.sum_append, List.sum_cons]
  split
  · have hle := extra_cons_le log.lh ws b
    omega
  rename_i hb
  have hnew := extra_new ws hb
  have hsum : ∀ l : List (List Nat),
    (l.map (extra (log.lh ++ [b]))).sum ≤ (l.map (extra log.lh)).sum :=
    fun l => List.sum_le_sum fun ws _ => extra_append_le log.lh ws b
  have hl := hsum l
  have hl' := hsum l'
  grind

theorem Inv.ends (h : Inv ⟨log, l ++ [] :: l'⟩) : Inv ⟨endOp log, l ++ l'⟩ := by
  obtain ⟨hout, hsmall, hspace, -⟩ := h
  simp only [List.length_append, List.length_cons, List.map_append, List.map_cons, List.sum_append,
    List.sum_cons] at hout hspace
  have hsmall' : ∀ ws ∈ l ++ l', ws.toFinset.card < maxopblocks := by
    intro ws hws
    refine hsmall ws ?_
    simp only [List.mem_append, List.mem_cons] at hws ⊢
    tauto
  rw [endOp]
  split
  · have hnil : l ++ l' = [] := by
      rw [← List.length_eq_zero_iff, List.length_append]
      omega
    rw [hnil]
    exact inv_boot
  refine ⟨?_, hsmall', ?_, fun hnil => ?_⟩
  · change log.outstanding - 1 = (l ++ l').length
    grind
  · grind
  · have hzero : (l ++ l').length = 0 := List.length_eq_zero_iff.mpr hnil
    grind

theorem Inv.step (hS : ∀ ws ∈ S, ws.toFinset.card < maxopblocks) (h : Inv s) (hstep : Step S s s') :
    Inv s' := by
  cases hstep with
  | begins hws hbegin => exact h.begins (hS _ hws) hbegin
  | writes hwrite => exact h.writes hwrite
  | ends => exact h.ends

theorem Reachable.inv (hS : ∀ ws ∈ S, ws.toFinset.card < maxopblocks) (h : Reachable S s) :
    Inv s := by
  induction h with
  | refl => exact inv_boot
  | tail _ hstep ih => exact ih.step hS hstep

end Steps

theorem Inv.not_panics (h : Inv s) : ¬ s.Panics := by
  rintro ⟨l, b, ws, l', hactive, hwrite⟩
  have hspace := h.space
  have hout := h.outstanding
  rw [hactive, List.length_append, List.length_cons] at hout
  simp only [show logsize = 30 from rfl] at hspace
  rw [logWrite, if_neg, if_neg (by omega)] at hwrite
  · cases hwrite
  · simp only [size, show logsize = 30 from rfl]
    omega

theorem Reachable.not_panics (hS : ∀ ws ∈ S, ws.toFinset.card < maxopblocks) (h : Reachable S s) :
    ¬ s.Panics :=
  (h.inv hS).not_panics

end Mit6828.Xv6.LogSpace
