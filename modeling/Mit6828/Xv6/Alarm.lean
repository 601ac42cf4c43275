import Mit6828.Xv6.Timer

namespace Mit6828.Xv6.Alarm

open Library Vm Timer Function

inductive Procstate where
  | unused
  | embryo
  | live
  | zombie
deriving DecidableEq

abbrev Slot := Fin 64

structure Proc where
  state : Procstate
  pid : Word
  parent : Option Slot
  alarm : Timer.Alarm

structure Table where
  proc : Slot → Proc
  nextpid : Word

/-- What a process does, or the timer interrupt that it gets, with its registers and memory then. -/
inductive Event where
  | fork (p : Slot) (ok : Bool)
  | exec (p : Slot)
  | exit (p : Slot)
  | wait (p : Slot)
  | alarm (p : Slot) (sz ticks handler : Word)
  | timer (p : Slot) (tf : Trapframe) (s : Space)

def Event.slot : Event → Slot
  | fork p _ => p
  | exec p => p
  | exit p => p
  | wait p => p
  | alarm p _ _ _ => p
  | timer p _ _ => p

def initproc : Slot := 0

namespace Table

def set (t : Table) (p : Slot) (proc : Proc) : Table := { t with proc := update t.proc p proc }

def setAlarm (t : Table) (p : Slot) (alarm : Timer.Alarm) : Table :=
  t.set p { t.proc p with alarm }

def free (t : Table) : Option Slot := (List.finRange 64).find? fun p => (t.proc p).state = .unused

def allocproc (t : Table) (p : Slot) : Table :=
  let alarm := { (t.proc p).alarm with curalarmticks := 0 }
  Table.set { t with nextpid := t.nextpid + 1 } p
    { t.proc p with state := .embryo, pid := t.nextpid, alarm }

/-- `fork`; without memory for the kernel stack or the copy of the pages the slot is given back. -/
def fork (t : Table) (p : Slot) (ok : Bool) : Table :=
  match t.free with
  | none => t
  | some np =>
    let t := t.allocproc np
    if ok then t.set np { t.proc np with state := .live, parent := some p }
    else t.set np { t.proc np with state := .unused }

/-- `exit`; it panics in `initproc`. -/
def exit (t : Table) (p : Slot) : Option Table :=
  if p = initproc then none
  else
    let proc := fun q => if (t.proc q).parent =
      some p then { t.proc q with parent := some initproc }
      else t.proc q
    some (Table.set { t with proc } p { proc p with state := .zombie })

/-- `wait`, with a child that has exited; otherwise the process sleeps or gets -1. -/
def wait (t : Table) (p : Slot) : Table :=
  match (List.finRange 64).find? fun q => (t.proc q).parent = some p ∧
    (t.proc q).state = .zombie with
  | none => t
  | some q => t.set q { t.proc q with state := .unused, pid := 0, parent := none }

end Table

def boot : Table where
  proc p := if p = initproc then ⟨.live, 1, none, ⟨0, 0, 0⟩⟩ else ⟨.unused, 0, none, ⟨0, 0, 0⟩⟩
  nextpid := 2

/-- One event of a live process; there is no state after a panic. -/
def step (t : Table) (e : Event) : Option Table :=
  if (t.proc e.slot).state = .live then
    match e with
    | .fork p ok => some (t.fork p ok)
    | .exec _ => some t
    | .exit p => t.exit p
    | .wait p => some (t.wait p)
    | .alarm p sz ticks handler => some
        (t.setAlarm p (sysAlarm sz (t.proc p).alarm ticks handler).1)
    | .timer p tf s => (timerInterrupt (t.proc p).alarm tf s).map fun out => t.setAlarm p out.1
  else none

/-- What has happened to a process since it was created or called `alarm`: the arguments of the
call, the timer interrupts in user mode, and `curalarmticks` then. -/
structure Period where
  call : Option (Word × Word)
  ticks : Nat
  start : Word

def record (t : Table) (g : Slot → Period) : Event → Slot → Period
  | .fork _ ok =>
    match t.free with
    | none => g
    | some np => if ok then update g np ⟨none, 0, 0⟩ else g
  | .alarm p sz ticks handler =>
    if (sysAlarm sz (t.proc p).alarm ticks handler).2 = 0 then
      update g p ⟨some (ticks, handler), 0, (t.proc p).alarm.curalarmticks⟩
    else g
  | .timer p tf _ => if tf.cs &&& 3 = 3 then update g p { g p with ticks := (g p).ticks + 1 } else g
  | _ => g

def Undisturbed (tf : Trapframe) (s : Space) (out : Option (Timer.Alarm × Trapframe × Space)) :
    Prop :=
  ∃ p, out = some (p, tf, s)

def Entered (handler : Word) (tf : Trapframe) (out : Option (Timer.Alarm × Trapframe × Space)) :
    Prop :=
  ∃ p tf' s', out = some (p, tf', s') ∧ tf'.eip = handler ∧ ret s' tf' = some tf

/-- What is asked of a timer interrupt: only a process that has called `alarm` is diverted, and
after `alarm(n, h)` it is at every `n`-th interrupt in user mode. -/
def Timely (g : Period) (tf : Trapframe) (s : Space)
    (out : Option (Timer.Alarm × Trapframe × Space)) :
    Prop :=
  match g.call with
  | none => Undisturbed tf s out
  | some (n, h) => 0 < n.toInt →
      if tf.cs &&& 3 = 3 ∧ (g.ticks + 1) % n.toNat = 0 then Entered h tf out
        else Undisturbed tf s out

def Lawful (t : Table) (g : Slot → Period) : List Event → Prop
  | [] => True
  | e :: es =>
    (∀ p tf s, e = .timer p tf s → (t.proc p).state = .live →
      Timely (g p) tf s (timerInterrupt (t.proc p).alarm tf s)) ∧
    ∀ t', step t e = some t' → Lawful t' (record t g e) es

/-- The tick at which a counter that starts at `c` is `a`. -/
def first (a c : Word) : Nat := (a - c - 1).toNat + 1

def StackOk (tf : Trapframe) (s : Space) : Prop :=
  ∀ i < 4, s.writable (tf.esp - 4 + BitVec.ofNat 32 i) ∧
    s.accessible (tf.esp - 4 + BitVec.ofNat 32 i)

/-- When an interrupt in user mode is timely.  A process without a call of its own has not yet had
as many ticks as the slot's last owner had asked for (2^32 if it had asked for none).  A call was
made when the counter was 0, or there are fewer ticks than it takes the counter to reach `n`, and
fewer than `n`; and the stack can be used when the alarm is due. -/
def OnTime (g : Period) (alarmticks : Word) (tf : Trapframe) (s : Space) : Prop :=
  match g.call with
  | none => g.ticks + 1 ≠ first alarmticks 0
  | some (n, _) => 0 < n.toInt → (g.start = 0 ∨ g.ticks + 1 < min n.toNat (first n g.start)) ∧
        ((g.ticks + 1) % n.toNat = 0 → StackOk tf s)

def Punctual (t : Table) (g : Slot → Period) : List Event → Prop
  | [] => True
  | e :: es =>
    (∀ p tf s, e = .timer p tf s → (t.proc p).state = .live → tf.cs &&& 3 = 3 →
      OnTime (g p) (t.proc p).alarm.alarmticks tf s) ∧
    ∀ t', step t e = some t' → Punctual t' (record t g e) es

/-- How the counter of a process stands in a period that has been on time so far. -/
def Counts (g : Period) (a : Timer.Alarm) : Prop :=
  match g.call with
  | none => g.ticks < first a.alarmticks 0 ∧ a.curalarmticks = BitVec.ofNat 32 g.ticks
  | some (n, h) => a.alarmticks = n ∧ a.alarmhandler = h ∧ (0 < n.toInt →
      if g.start = 0 then a.curalarmticks.toNat = g.ticks % n.toNat
      else g.ticks < min n.toNat (first n g.start) ∧
        a.curalarmticks = g.start + BitVec.ofNat 32 g.ticks)

def Inv (t : Table) (g : Slot → Period) : Prop :=
  ∀ p, (t.proc p).state = .live → Counts (g p) (t.proc p).alarm

variable {t t' : Table} {g : Slot → Period} {per : Period} {a : Timer.Alarm} {tf : Trapframe}
  {s : Space} {c n h : Word} {k : Nat} {p q : Slot} {e : Event} {proc : Proc}
  {out : Timer.Alarm × Trapframe × Space}

section Counter

theorem reaches_iff (hk : k < first n c) : c + BitVec.ofNat 32 k + 1 = n ↔ k + 1 = first n c := by
  rw [first] at *
  constructor
  · intro heq
    bv_omega
  · intro heq
    bv_omega

theorem first_ne (hc : c ≠ 0) : first n c ≠ n.toNat := by
  rw [first]
  bv_omega

theorem toNat_pos (hn : 0 < n.toInt) : 0 < n.toNat ∧ n.toNat < 2 ^ 31 := by
  rw [BitVec.toInt_eq_toNat_cond] at hn
  split at hn <;> omega

theorem mod_succ_eq_zero_iff {n : Nat} (hn : 0 < n) : (k + 1) % n = 0 ↔ k % n + 1 = n := by
  have hlt := Nat.mod_lt k hn
  constructor
  · intro h
    by_contra hne
    rw [Nat.add_mod, Nat.mod_eq_of_lt (show 1 < n by omega), Nat.mod_eq_of_lt (by omega)] at h
    omega
  · intro h
    have hk := Nat.div_add_mod k n
    rw [show k + 1 = n * (k / n + 1) by grind, Nat.mul_mod_right]

theorem reaches_iff_mod (hn : 0 < n.toInt) (hc : c.toNat = k % n.toNat) :
    c + 1 = n ↔ (k + 1) % n.toNat = 0 := by
  obtain ⟨hpos, hsmall⟩ := toNat_pos hn
  have hlt := Nat.mod_lt k hpos
  rw [mod_succ_eq_zero_iff hpos]
  constructor
  · intro heq
    bv_omega
  · intro heq
    bv_omega

end Counter

section Interrupt

theorem undisturbed_of_ne (h : a.curalarmticks + 1 ≠ a.alarmticks) :
    Undisturbed tf s (timerInterrupt a tf s) := by
  by_cases hcs : tf.cs &&& 3 = 3
  · exact ⟨_, timerInterrupt_user hcs h⟩
  · exact ⟨_, timerInterrupt_kernel hcs⟩

theorem undisturbed_of_kernel (hcs : tf.cs &&& 3 ≠ 3) : Undisturbed tf s (timerInterrupt a tf s) :=
  ⟨_, timerInterrupt_kernel hcs⟩

theorem sub_four_ne (w : Word) : w - 4 ≠ w := by bv_omega

theorem not_undisturbed (h : Fires a tf) : ¬ Undisturbed tf s (timerInterrupt a tf s) := by
  rintro ⟨p, hout⟩
  rw [timerInterrupt_fires h] at hout
  obtain ⟨s', -, heq⟩ := Option.map_eq_some_iff.mp hout
  simp only [Prod.mk.injEq] at heq
  exact sub_four_ne tf.esp (congrArg Trapframe.esp heq.2.1)

theorem Undisturbed.not_entered {out : Option (Timer.Alarm × Trapframe × Space)}
    (h : Undisturbed tf s out) (handler : Word) : ¬ Entered handler tf out := by
  obtain ⟨p, rfl⟩ := h
  rintro ⟨p', tf', s', heq, -, hret⟩
  cases heq
  obtain ⟨-, heq⟩ := Option.ite_none_right_eq_some.mp hret
  have hesp := congrArg Trapframe.esp (Option.some.inj heq)
  dsimp only at hesp
  bv_omega

theorem view_storeWord {s' : Space} {va w : Word} (h : s.storeWord va w = some s') :
    ByteMemory.readWord s'.view va = w := by
  obtain ⟨hwritable, hpgdir, hbytes, -⟩ := storeWord_eq_some h
  refine ByteMemory.readWord_of_bytes fun i hi => ?_
  obtain ⟨pa, hpa⟩ := exists_phys (hwritable i hi)
  have hview : s'.view (va + BitVec.ofNat 32 i) = s'.mem pa := by
    rw [Space.view, Space.phys, hpgdir]
    rw [Space.phys] at hpa
    rw [hpa]
    rfl
  rw [hview, hbytes i hi pa hpa]

theorem entered_iff (h : Fires a tf) (handler : Word) :
    Entered handler tf (timerInterrupt a tf s) ↔ a.alarmhandler = handler ∧ StackOk tf s := by
  rw [timerInterrupt_fires h]
  constructor
  · rintro ⟨p, tf', s', hout, heip, hret⟩
    obtain ⟨s1, hstore, heq⟩ := Option.map_eq_some_iff.mp hout
    cases heq
    obtain ⟨haccess, -⟩ := Option.ite_none_right_eq_some.mp hret
    obtain ⟨hwritable, hpgdir, -, -⟩ := storeWord_eq_some hstore
    refine ⟨heip, fun i hi => ⟨hwritable i hi, ?_⟩⟩
    rw [Space.accessible, ← hpgdir]
    exact haccess i hi
  rintro ⟨rfl, hstack⟩
  obtain ⟨s', hstore⟩ : ∃ s', s.storeWord (tf.esp - 4) tf.eip = some s' :=
    ⟨_, if_pos fun i hi => (hstack i hi).1⟩
  obtain ⟨-, hpgdir, -, -⟩ := storeWord_eq_some hstore
  refine ⟨_, _, s', by rw [hstore]; rfl, rfl, ?_⟩
  rw [ret, if_pos]
  · dsimp only
    rw [view_storeWord hstore, show tf.esp - 4 + 4 = tf.esp by bv_omega]
  · intro i hi
    rw [Space.accessible, hpgdir]
    exact (hstack i hi).2

end Interrupt

section Ticks

theorem undisturbed_iff (hcs : tf.cs &&& 3 = 3) :
    Undisturbed tf s (timerInterrupt a tf s) ↔ a.curalarmticks + 1 ≠ a.alarmticks := by
  constructor
  · intro h heq
    exact not_undisturbed ⟨hcs, heq⟩ h
  · exact undisturbed_of_ne

theorem timely_iff (hcounts : Counts per a) (hcs : tf.cs &&& 3 = 3) :
    Timely per tf s (timerInterrupt a tf s) ↔ OnTime per a.alarmticks tf s := by
  obtain ⟨call, ticks, start⟩ := per
  cases call with
  | none =>
    obtain ⟨hlt, hcur⟩ := hcounts
    have hreach : a.curalarmticks + 1 = a.alarmticks ↔ ticks + 1 = first a.alarmticks 0 := by
      rw [hcur, ← reaches_iff hlt]
      simp
    exact (undisturbed_iff hcs).trans (not_congr hreach)
  | some call =>
    obtain ⟨n, h⟩ := call
    obtain ⟨hticks, hhandler, hcount⟩ := hcounts
    refine forall_congr' fun hn => ?_
    have hcount := hcount hn
    obtain ⟨hpos, hsmall⟩ := toNat_pos hn
    dsimp only at hcount ⊢
    by_cases hstart : start = 0
    · rw [if_pos hstart] at hcount
      have hfires : a.curalarmticks + 1 = a.alarmticks ↔ (ticks + 1) % n.toNat = 0 := by
        rw [hticks, reaches_iff_mod hn hcount]
      by_cases hdue : (ticks + 1) % n.toNat = 0
      · rw [if_pos ⟨hcs, hdue⟩, entered_iff ⟨hcs, hfires.mpr hdue⟩]
        constructor
        · intro hstack
          exact ⟨.inl hstart, fun _ => hstack.2⟩
        · intro hontime
          exact ⟨hhandler, hontime.2 hdue⟩
      · rw [if_neg fun hand => hdue hand.2, undisturbed_iff hcs]
        constructor
        · intro _
          exact ⟨.inl hstart, fun hdue' => absurd hdue' hdue⟩
        · intro _ heq
          exact hdue (hfires.mp heq)
    · rw [if_neg hstart] at hcount
      obtain ⟨hlt, hcur⟩ := hcount
      have hreach : a.curalarmticks + 1 = a.alarmticks ↔ ticks + 1 = first n start := by
        rw [hcur, hticks, reaches_iff (by omega)]
      have hne := first_ne (n := n) hstart
      have hmod : (ticks + 1) % n.toNat = 0 ↔ ticks + 1 = n.toNat := by
        rw [mod_succ_eq_zero_iff hpos, Nat.mod_eq_of_lt (by omega)]
      by_cases hdue : (ticks + 1) % n.toNat = 0
      · rw [if_pos ⟨hcs, hdue⟩]
        have hundisturbed : Undisturbed tf s (timerInterrupt a tf s) :=
          undisturbed_of_ne fun heq => hne ((hreach.mp heq).symm.trans (hmod.mp hdue))
        constructor
        · intro hentered
          exact absurd hentered (hundisturbed.not_entered h)
        · rintro ⟨hzero | hlt', -⟩
          · exact absurd hzero hstart
          · have := hmod.mp hdue
            omega
      · rw [if_neg fun hand => hdue hand.2, undisturbed_iff hcs, Ne, hreach]
        constructor
        · intro hnot
          have hnot' : ticks + 1 ≠ n.toNat := fun heq => hdue (hmod.mpr heq)
          exact ⟨.inr (by omega), fun hdue' => absurd hdue' hdue⟩
        · rintro ⟨hzero | hlt', -⟩
          · exact absurd hzero hstart
          · omega

theorem timely_of_kernel (hcs : tf.cs &&& 3 ≠ 3) : Timely per tf s (timerInterrupt a tf s) := by
  obtain ⟨call, ticks, start⟩ := per
  cases call with
  | none => exact undisturbed_of_kernel hcs
  | some call =>
    intro _
    rw [if_neg fun hand => hcs hand.1]
    exact undisturbed_of_kernel hcs

theorem timerInterrupt_alarm (hcs : tf.cs &&& 3 = 3) (hout : timerInterrupt a tf s = some out) :
    out.1 = { a with curalarmticks :=
      if a.curalarmticks + 1 = a.alarmticks then 0 else a.curalarmticks + 1 } := by
  by_cases hticks : a.curalarmticks + 1 = a.alarmticks
  · rw [timerInterrupt_fires ⟨hcs, hticks⟩] at hout
    obtain ⟨s', -, rfl⟩ := Option.map_eq_some_iff.mp hout
    rw [if_pos hticks]
  · rw [timerInterrupt_user hcs hticks] at hout
    cases hout
    rw [if_neg hticks]

theorem Counts.tick (hcounts : Counts per a) (hcs : tf.cs &&& 3 = 3)
    (hontime : OnTime per a.alarmticks tf s) (hout : timerInterrupt a tf s = some out) :
    Counts { per with ticks := per.ticks + 1 } out.1 := by
  rw [timerInterrupt_alarm hcs hout]
  obtain ⟨call, ticks, start⟩ := per
  cases call with
  | none =>
    obtain ⟨hlt, hcur⟩ := hcounts
    have hontime : ticks + 1 ≠ first a.alarmticks 0 := hontime
    dsimp only at hlt hcur
    have hnot : a.curalarmticks + 1 ≠ a.alarmticks := by
      rw [hcur, Ne, ← BitVec.zero_add (BitVec.ofNat 32 ticks)]
      exact fun heq => hontime ((reaches_iff hlt).mp heq)
    refine ⟨by dsimp only; omega, ?_⟩
    dsimp only
    rw [if_neg hnot, hcur, BitVec.ofNat_add]
    rfl
  | some call =>
    obtain ⟨n, h⟩ := call
    obtain ⟨hticks, hhandler, hcount⟩ := hcounts
    refine ⟨hticks, hhandler, fun hn => ?_⟩
    have hcount := hcount hn
    obtain ⟨hor, -⟩ := hontime hn
    obtain ⟨hpos, hsmall⟩ := toNat_pos hn
    dsimp only at hcount hor ⊢
    by_cases hstart : start = 0
    · rw [if_pos hstart] at hcount ⊢
      have hfires : a.curalarmticks + 1 = a.alarmticks ↔ (ticks + 1) % n.toNat = 0 := by
        rw [hticks, reaches_iff_mod hn hcount]
      by_cases hdue : (ticks + 1) % n.toNat = 0
      · rw [if_pos (hfires.mpr hdue), hdue]
        rfl
      have hmod := Nat.mod_lt ticks hpos
      have hnot : ticks % n.toNat + 1 ≠ n.toNat := fun hlast =>
        hdue ((mod_succ_eq_zero_iff hpos).mpr hlast)
      rw [if_neg fun heq => hdue (hfires.mp heq), Nat.add_mod,
        Nat.mod_eq_of_lt (show 1 < n.toNat by omega), Nat.mod_eq_of_lt (by omega)]
      bv_omega
    · rw [if_neg hstart] at hcount ⊢
      obtain ⟨hlt, hcur⟩ := hcount
      have hlt' := hor.resolve_left hstart
      have hnot : a.curalarmticks + 1 ≠ a.alarmticks := by
        rw [hcur, hticks, Ne, reaches_iff (by omega)]
        omega
      rw [if_neg hnot, hcur, BitVec.ofNat_add, BitVec.add_assoc]
      exact ⟨hlt', rfl⟩

end Ticks

section Table

@[simp]
theorem set_proc (t : Table) (p q : Slot) (proc : Proc) :
    (t.set p proc).proc q = if q = p then proc else t.proc q := by
  rw [Table.set]
  exact update_apply _ _ _ _

theorem Inv.set (h : Inv t g) (hproc : proc.state = .live → Counts per proc.alarm) :
    Inv (t.set p proc) (update g p per) := by
  intro q hq
  by_cases hqp : q = p
  · subst hqp
    simp only [set_proc, if_true, update_self] at hq ⊢
    exact hproc hq
  · simp only [set_proc, if_neg hqp] at hq ⊢
    rw [update_of_ne hqp]
    exact h q hq

theorem Inv.set_same (h : Inv t g)
    (hproc : proc.state = .live → Counts (g p) proc.alarm) : Inv (t.set p proc) g := by
  have hset : Inv (t.set p proc) (update g p (g p)) := h.set hproc
  rwa [update_eq_self] at hset

theorem Inv.fork (h : Inv t g) (p : Slot) (ok : Bool) :
    Inv (t.fork p ok) (record t g (.fork p ok)) := by
  rw [Table.fork, record]
  cases t.free with
  | none => exact h
  | some np =>
    have halloc : Inv (t.allocproc np) g :=
      Inv.set_same (t := { t with nextpid := t.nextpid + 1 }) h (fun hlive => by cases hlive)
    cases ok with
    | false => exact halloc.set_same fun hlive => by cases hlive
    | true =>
      refine halloc.set fun _ => ⟨Nat.succ_pos _, ?_⟩
      simp [Table.allocproc]

theorem Inv.exit (h : Inv t g) (hexit : t.exit p = some t') : Inv t' g := by
  obtain ⟨-, heq⟩ := Option.ite_none_left_eq_some.mp hexit
  cases heq
  refine Inv.set_same (fun q hq => ?_) fun hlive => by cases hlive
  by_cases hparent : (t.proc q).parent = some p
  · simp only [if_pos hparent] at hq ⊢
    exact h q hq
  · simp only [if_neg hparent] at hq ⊢
    exact h q hq

theorem Inv.wait (h : Inv t g) (p : Slot) : Inv (t.wait p) g := by
  rw [Table.wait]
  split
  · exact h
  · exact h.set_same fun hlive => by cases hlive

theorem Inv.alarm (h : Inv t g) (hlive : (t.proc p).state = .live) (sz n handler : Word) :
    Inv (t.setAlarm p (sysAlarm sz (t.proc p).alarm n handler).1)
      (record t g (.alarm p sz n handler)) := by
  rw [record, sysAlarm]
  split
  · rw [if_neg (show (-1 : Word) ≠ 0 by decide)]
    exact h.set_same fun _ => h p hlive
  rw [if_pos rfl]
  refine h.set fun _ => ⟨rfl, rfl, fun hn => ?_⟩
  obtain ⟨hpos, hsmall⟩ := toNat_pos hn
  dsimp only
  split
  · rename_i hzero
    rw [hzero]
    simp
  · rw [first]
    exact ⟨by omega, by simp⟩

/-- The step lemma: an event that is on time keeps the counts. -/
theorem Inv.step (h : Inv t g) (hstep : Alarm.step t e = some t')
    (hontime : ∀ p tf s, e = .timer p tf s → (t.proc p).state = .live → tf.cs &&& 3 = 3 →
      OnTime (g p) (t.proc p).alarm.alarmticks tf s) : Inv t' (record t g e) := by
  obtain ⟨hlive, hstep⟩ := Option.ite_none_right_eq_some.mp hstep
  cases e with
  | fork p ok =>
    cases hstep
    exact h.fork p ok
  | exec p =>
    cases hstep
    exact h
  | exit p => exact h.exit hstep
  | wait p =>
    cases hstep
    exact h.wait p
  | alarm p sz n handler =>
    cases hstep
    exact h.alarm hlive sz n handler
  | timer p tf s =>
    obtain ⟨out, hout, rfl⟩ := Option.map_eq_some_iff.mp hstep
    rw [record]
    by_cases hcs : tf.cs &&& 3 = 3
    · rw [if_pos hcs]
      exact h.set fun _ => (h p hlive).tick hcs (hontime p tf s rfl hlive hcs) hout
    · rw [if_neg hcs]
      rw [timerInterrupt_kernel hcs] at hout
      cases hout
      exact h.set_same fun _ => h p hlive

end Table

theorem Inv.lawful_iff (h : Inv t g) (es : List Event) : Lawful t g es ↔ Punctual t g es := by
  induction es generalizing t g with
  | nil => exact Iff.rfl
  | cons e es ih =>
    have hhead : (∀ p tf s, e = .timer p tf s → (t.proc p).state = .live →
          Timely (g p) tf s (timerInterrupt (t.proc p).alarm tf s)) ↔
        ∀ p tf s, e = .timer p tf s → (t.proc p).state = .live → tf.cs &&& 3 = 3 →
          OnTime (g p) (t.proc p).alarm.alarmticks tf s := by
      constructor
      · intro htimely p tf s he hlive hcs
        exact (timely_iff (h p hlive) hcs).mp (htimely p tf s he hlive)
      · intro hontime p tf s he hlive
        by_cases hcs : tf.cs &&& 3 = 3
        · exact (timely_iff (h p hlive) hcs).mpr (hontime p tf s he hlive hcs)
        · exact timely_of_kernel hcs
    rw [Lawful, Punctual, hhead]
    refine and_congr_right fun hontime => forall_congr' fun t' => forall_congr' fun hstep => ?_
    exact ih (h.step hstep hontime)

def fresh : Slot → Period := fun _ => ⟨none, 0, 0⟩

theorem inv_boot : Inv boot fresh := by
  intro p hp
  refine ⟨Nat.succ_pos _, ?_⟩
  rw [boot]
  dsimp only
  split <;> rfl

/-- The alarm of xv6 keeps its promise in a history exactly if every interrupt in user mode comes
on time: `allocproc` leaves the period of the slot's last owner in place, and `sys_alarm` does not
set the counter back. -/
theorem alarm_lawful_iff (es : List Event) : Lawful boot fresh es ↔ Punctual boot fresh es :=
  inv_boot.lawful_iff es

/-- A child calls `alarm(1, 0)` and exits; the next child gets its slot and calls nothing. -/
def reuse : List Event :=
  [.fork 0 true, .alarm 1 4096 1 0, .exit 1, .wait 0, .fork 0 true]

def onePage : Space := ⟨fun p => if p = 0 then some ⟨1, true, true⟩ else none, fun _ => 0⟩

/-- The second child is diverted to the handler of the first one at its first timer interrupt. -/
theorem stale_alarm_fires : (∃ t, reuse.foldlM step boot = some t ∧
      Entered 0 ⟨0x10, 0xFF0, 0x1B⟩ (timerInterrupt (t.proc 1).alarm ⟨0x10, 0xFF0, 0x1B⟩ onePage)) ∧
    ¬ Lawful boot fresh (reuse ++ [.timer 1 ⟨0x10, 0xFF0, 0x1B⟩ onePage]) := by
  constructor
  · refine ⟨_, rfl, (entered_iff ?_ 0).mpr ⟨?_, ?_⟩⟩
    · decide
    · decide
    · unfold StackOk
      decide
  · rw [inv_boot.lawful_iff]
    intro h
    have hlast := (((((h.2 _ rfl).2 _ rfl).2 _ rfl).2 _ rfl).2 _ rfl).1 1 _ _ rfl
    exact hlast (by decide) (by decide) rfl

end Mit6828.Xv6.Alarm
