import Mathlib.Tactic.IntervalCases
import Mit6828.Lib.Pfentry
import Mit6828.Kern.TrapSpec

namespace Mit6828.Lib.PfentrySpec

open Kern.Mmu Kern.AddressSpace Kern.AddressSpaceSpec Kern.Environment Kern.Trap Kern.TrapSpec
open Pfentry Library.ByteMemory

variable {img : Image} {c q r r' : Regs} {m m' : Memory} {x esp sp : Word} {p : Pending}
  {rest : List Pending} {s s' : State} {i : Nat} {ins : Instr} {w : List Word} {Ok : Word → Prop}

/-- The stack pointers for which the word below lies outside a frame at the top of the
exception stack. -/
def Clear (esp : Word) : Prop := ¬ (uxstacktop ≤ esp ∧ esp ≤ uxstacktop + 3)

theorem utfAddr_cases (esp : Word) : (4005556224 ≤ esp.toNat ∧ esp.toNat < 4005560320 ∧
      (utfAddr esp).toNat = esp.toNat - 56) ∨
    ((esp.toNat < 4005556224 ∨ 4005560320 ≤ esp.toNat) ∧
      (utfAddr esp).toNat = 4005560268) := by
  have htop : (uxstacktop - 1).toNat = 4005560319 := rfl
  have hbase : (uxstacktop - pgsize).toNat = 4005556224 := rfl
  rw [utfAddr, utrapframeSize]
  split
  · rename_i hstack
    obtain ⟨hlo, hhi⟩ := hstack
    rw [ge_iff_le, BitVec.le_def, hbase] at hlo
    rw [BitVec.le_def, htop] at hhi
    left
    grind
  · rename_i hstack
    rw [ge_iff_le, BitVec.le_def, BitVec.le_def, hbase, htop] at hstack
    right
    grind

/-- A fault that the kernel can push, on top of the pending ones. -/
structure Placed (c : Regs) (rest : List Pending) : Prop where
  room : 4005556224 < (utfAddr c.esp).toNat
  clear : c.esp.toNat < 4005560320 ∨ 4005560323 < c.esp.toNat
  onTop : OnTop c.esp rest

def Stacked : List Pending → Prop
  | [] => True
  | p :: rest => Placed p.regs rest ∧ Stacked rest

theorem utfAddr_lt (esp : Word) : (utfAddr esp).toNat ≤ 4005560268 := by
  have := utfAddr_cases esp
  omega

theorem inFrame_iff : InFrame c x ↔
    (utfAddr c.esp).toNat ≤ x.toNat ∧ x.toNat < (utfAddr c.esp).toNat + 52 := by
  have hle := utfAddr_lt c.esp
  have hx := x.isLt
  rw [InFrame, inRange_iff]
  omega

theorem inScratch_iff : InScratch c x ↔
    (x.toNat < c.esp.toNat ∧ c.esp.toNat ≤ x.toNat + 4) ∨ 4294967292 + c.esp.toNat ≤ x.toNat := by
  have hx := x.isLt
  have hc := c.esp.isLt
  rw [InScratch, inRange_iff, BitVec.toNat_sub, show (4 : Word).toNat = 4 from rfl]
  omega

/-- The kernel has room for a frame, and a word below it. -/
abbrev HasRoom (c : Regs) : Prop := 4005556224 < (utfAddr c.esp).toNat

/-- The word below the stack pointer is not in a frame at the top of the stack. -/
abbrev OffTop (c : Regs) : Prop := c.esp.toNat < 4005560320 ∨ 4005560323 < c.esp.toNat

theorem inCall_iff (hroom : HasRoom c) : InCall c x ↔
    x.toNat < (utfAddr c.esp).toNat ∧ (utfAddr c.esp).toNat ≤ x.toNat + 8 := by
  have hle := utfAddr_lt c.esp
  have hx := x.isLt
  rw [InCall, inRange_iff, BitVec.toNat_sub, show (8 : Word).toNat = 8 from rfl]
  omega

theorem inGuardPage_iff : InGuardPage x ↔ 4005552128 ≤ x.toNat ∧ x.toNat < 4005556224 := by
  rw [InGuardPage, BitVec.le_def, BitVec.lt_def,
    show (uxstacktop - 2 * pgsize).toNat = 4005552128 from rfl,
    show (uxstacktop - pgsize).toNat = 4005556224 from rfl]

theorem Stacked.below (h : Stacked (p :: rest)) {q : Pending} (hq : q ∈ rest) :
    4005556224 ≤ p.regs.esp.toNat ∧ p.regs.esp.toNat < 4005560320 ∧
      p.regs.esp.toNat ≤ (utfAddr q.regs.esp).toNat ∧ Placed q.regs [] := by
  induction rest generalizing p with
  | nil => cases hq
  | cons p' rest ih =>
    obtain ⟨hplaced, hstacked⟩ := h
    obtain ⟨hlo, hhi, hle⟩ := hplaced.onTop
    rw [BitVec.le_def] at hlo hhi hle
    rw [show (uxstacktop - pgsize).toNat = 4005556224 from rfl] at hlo
    rw [show (uxstacktop - 1).toNat = 4005560319 from rfl] at hhi
    rcases List.mem_cons.mp hq with rfl | hq
    · exact ⟨hlo, by omega, hle, hstacked.1.room, hstacked.1.clear, trivial⟩
    · obtain ⟨hlo', hhi', hle', hplaced'⟩ := ih hstacked hq
      have hcases := utfAddr_cases p'.regs.esp
      exact ⟨hlo, by omega, by omega, hplaced'⟩

/-- What the kernel and the upcall write for a fault touches no frame of the faults before it,
nor the words below their stack pointers. -/
theorem Stacked.apart (h : Stacked (p :: rest)) {q : Pending} (hq : q ∈ rest)
    (hx : InFrame p.regs x ∨ InScratch p.regs x ∨ InCall p.regs x ∧ ¬ InGuardPage x) :
    ¬ InFrame q.regs x ∧ ¬ InScratch q.regs x := by
  obtain ⟨hlo, hhi, hle, hplaced⟩ := h.below hq
  have hroom := h.1.room
  have hcases := utfAddr_cases p.regs.esp
  have hcases' := utfAddr_cases q.regs.esp
  have hroom' := hplaced.room
  have hclear' := hplaced.clear
  rw [inFrame_iff, inScratch_iff, inCall_iff hroom, inGuardPage_iff] at hx
  rw [inFrame_iff, inScratch_iff]
  omega

/-- The fields of a frame that the upcall reads, with their offsets; `sp` is what is to
become the stack pointer. -/
def fields (c : Regs) (sp : Word) : List (Nat × Word) :=
  [(8, c.edi), (12, c.esi), (16, c.ebp), (24, c.ebx), (28, c.edx), (32, c.ecx), (36, c.eax),
    (40, c.eip), (44, c.eflags), (48, sp)]

theorem fields_offset {f : Nat × Word} (hf : f ∈ fields c sp) :
    f.1 = 48 ∧ f.2 = sp ∨ f.1 ≤ 44 ∧ ∀ sp', f ∈ fields c sp' := by
  simp only [fields, List.mem_cons, List.not_mem_nil, or_false] at hf
  rcases hf with rfl | rfl | rfl | rfl | rfl | rfl | rfl | rfl | rfl | rfl <;> simp [fields]

def Held (c : Regs) (m : Memory) (sp : Word) : Prop :=
  ∀ f ∈ fields c sp, readWord m (utfAddr c.esp + BitVec.ofNat 32 f.1) = f.2

theorem Held.congr (h : Held c m sp) (hm : ∀ x, InFrame c x → m' x = m x) : Held c m' sp := by
  intro f hf
  rw [← h f hf]
  refine readWord_congr fun x hx => hm x (hx.of_offset ?_)
  rcases fields_offset hf with ⟨hoff, -⟩ | ⟨hoff, -⟩ <;> omega

theorem held_pushed (faultVa : Word) (tf : Trapframe) : Held (Regs.ofTrapframe tf)
      (write m (utfAddr tf.tfEsp) ((utrapframe faultVa tf).flatMap bytesOf)) tf.tfEsp := by
  intro f hf
  have hword : ∃ k, f.1 = 4 * k ∧ (utrapframe faultVa tf)[k]? = some f.2 := by
    simp only [fields, List.mem_cons, List.not_mem_nil, or_false] at hf
    rcases hf with rfl | rfl | rfl | rfl | rfl | rfl | rfl | rfl | rfl | rfl
    exacts [⟨2, rfl, rfl⟩, ⟨3, rfl, rfl⟩, ⟨4, rfl, rfl⟩, ⟨6, rfl, rfl⟩, ⟨7, rfl, rfl⟩,
      ⟨8, rfl, rfl⟩, ⟨9, rfl, rfl⟩, ⟨10, rfl, rfl⟩, ⟨11, rfl, rfl⟩, ⟨12, rfl, rfl⟩]
  obtain ⟨k, hoff, hk⟩ := hword
  rw [hoff]
  exact readWord_write_words (by simp [utrapframe]) hk

def espAt (c : Regs) : Nat → Word
  | 0 | 4 | 5 | 6 | 7 | 8 | 9 => utfAddr c.esp
  | 1 | 2 | 3 => utfAddr c.esp - 4
  | 10 => utfAddr c.esp + 8
  | 11 => utfAddr c.esp + 40
  | 12 => utfAddr c.esp + 44
  | 13 => utfAddr c.esp + 48
  | 14 => c.esp - 4
  | _ => 0

def general (r : Regs) : List Word := [r.edi, r.esi, r.ebp, r.ebx, r.edx, r.ecx, r.eax]

/-- What holds before instruction `i` of the upcall for the fault `c`. -/
structure At (i : Nat) (c r : Regs) (m : Memory) : Prop where
  esp : r.esp = espAt c i
  trapEsp : i = 5 → r.eax = c.esp
  newEsp : 6 ≤ i → i ≤ 8 → r.eax = c.esp - 4
  trapEip : i = 7 → r.ebx = c.eip
  pushed : 8 ≤ i → readWord m (c.esp - 4) = c.eip
  frame : i ≤ 8 → Held c m c.esp
  adjusted : 9 ≤ i → i ≤ 13 → Held c m (c.esp - 4)
  general : 11 ≤ i → general r = general c
  flags : 13 ≤ i → r.eflags = c.eflags

theorem At.congr (h : At i c r m)
    (hm : ∀ x, InFrame c x ∨ InScratch c x → m' x = m x) : At i c r m' :=
  { h with
    pushed := fun hi => by
      rw [← h.pushed hi]
      exact readWord_congr fun x hx => hm x (.inr hx)
    frame := fun hi => (h.frame hi).congr fun x hx => hm x (.inl hx)
    adjusted := fun hi hi' => (h.adjusted hi hi').congr fun x hx => hm x (.inl hx) }

/-- The faults that are pending, while the machine has registers `r`: the upcall of the last one
is at one of its instructions, or its C handler runs, and then the stack that it has to leave
as it found it is the one that counts. -/
def Pends (img : Image) : Regs → Memory → List Pending → Prop
  | r, _, [] => ¬ img.InText r.eip
  | r, m, p :: rest => r.eflags &&& systemFlags = p.regs.eflags &&& systemFlags ∧
      ((∃ i < 15, r.eip = img.text i ∧ At i p.regs r m ∧ Pends img p.regs m rest) ∨
        (¬ img.InText r.eip ∧ Held p.regs p.found p.regs.esp ∧ Pends img p.regs p.found rest))

theorem Pends.congr (h : Pends img r m rest)
    (hm : ∀ q ∈ rest, ∀ x, InFrame q.regs x ∨ InScratch q.regs x → m' x = m x) :
    Pends img r m' rest := by
  induction rest generalizing r with
  | nil => exact h
  | cons p rest ih =>
    obtain ⟨hflags, ⟨i, hi, heip, hat, hrest⟩ | hown⟩ := h
    · refine ⟨hflags, .inl ⟨i, hi, heip, hat.congr (hm p List.mem_cons_self), ih hrest ?_⟩⟩
      exact fun q hq => hm q (List.mem_cons_of_mem p hq)
    · exact ⟨hflags, .inr hown⟩

structure Good (img : Image) (s : State) : Prop where
  stacked : Stacked s.pending
  pends : Pends img s.regs s.mem s.pending

theorem arithFlags_system (flags a b result : Word) (carry overflow : Bool) :
    arithFlags flags a b result carry overflow &&& systemFlags = flags &&& systemFlags := by
  have hmask : ~~~statusFlags &&& systemFlags = systemFlags := by decide
  have hzero : systemFlags &&& statusFlags = 0#32 := by decide
  rw [arithFlags, BitVec.and_comm _ systemFlags, BitVec.and_or_distrib_left,
    ← BitVec.and_assoc _ statusFlags, hzero, BitVec.zero_and, BitVec.or_zero, BitVec.and_comm,
    BitVec.and_assoc, hmask]

theorem poppedFlags_eq {flags w : Word} (h : flags &&& systemFlags = w &&& systemFlags) :
    poppedFlags flags w = w := by
  rw [poppedFlags, h, ← BitVec.and_or_distrib_left,
    show systemFlags ||| ~~~systemFlags = BitVec.allOnes 32 by decide, BitVec.and_allOnes]

theorem mem_addrs_iff {a : Word} {n : Nat} (hn : n ≤ 2 ^ 32) : x ∈ addrs a n ↔ InRange a n x := by
  rw [mem_addrs]
  constructor
  · rintro ⟨i, hi, rfl⟩
    exact inRange_add hi hn
  · intro hx
    refine ⟨(x - a).toNat, hx, ?_⟩
    rw [BitVec.ofNat_toNat, BitVec.setWidth_eq, BitVec.add_comm, BitVec.sub_add_cancel]

theorem exec_outside (next : Word) (ins : Instr) (hx : x ∉ ins.writes r) :
    (exec img next r m ins).2 x = m x := by
  cases ins with
  | pushl src => exact writeWord_outside fun h => hx ((mem_addrs_iff (by omega)).mpr h)
  | call target => exact writeWord_outside fun h => hx ((mem_addrs_iff (by omega)).mpr h)
  | store src off base => exact writeWord_outside fun h => hx ((mem_addrs_iff (by omega)).mpr h)
  | _ => rfl

theorem after_outside (i : Nat) (hx : x ∉ ins.writes s.regs) :
    (after img i ins s).mem x = s.mem x :=
  exec_outside (img.text (i + 1)) ins hx

theorem exec_flags (next : Word) (ins : Instr) :
    (exec img next r m ins).1.eflags &&& systemFlags = r.eflags &&& systemFlags := by
  cases ins with
  | addl imm dst => exact arithFlags_system _ _ _ _ _ _
  | subl imm dst => exact arithFlags_system _ _ _ _ _ _
  | popfl =>
    have hzero : ~~~systemFlags &&& systemFlags = 0#32 := by decide
    change poppedFlags _ _ &&& systemFlags = _
    rw [poppedFlags, BitVec.and_comm, BitVec.and_or_distrib_left, BitVec.and_comm systemFlags,
      BitVec.and_comm systemFlags, BitVec.and_assoc, BitVec.and_self, BitVec.and_assoc, hzero,
      BitVec.and_zero, BitVec.or_zero]
  | movlHandler dst => cases dst <;> rfl
  | load off base dst => cases dst <;> rfl
  | popl dst => cases dst <;> rfl
  | _ => rfl

theorem at_frame (hi : i ≤ 4) (hesp : r.esp = espAt c i) (hheld : Held c m c.esp) :
    At i c r m where
  esp := hesp
  trapEsp h := by omega
  newEsp h := by omega
  trapEip h := by omega
  pushed h := by omega
  frame _ := hheld
  adjusted h := by omega
  general h := by omega
  flags h := by omega

theorem not_inFrame_of_inCall (hroom : HasRoom c) (hx : InCall c x) : ¬ InFrame c x := by
  rw [inCall_iff hroom] at hx
  rw [inFrame_iff]
  omega

theorem not_inFrame_of_inScratch (hclear : OffTop c) (hx : InScratch c x) : ¬ InFrame c x := by
  have hcases := utfAddr_cases c.esp
  rw [inScratch_iff] at hx
  rw [inFrame_iff]
  omega

theorem inCall_of_push {k : Nat} (hk : k ≤ 1)
    (hesp : r.esp = utfAddr c.esp - BitVec.ofNat 32 (4 * k))
    (hroom : HasRoom c) (hx : x ∈ addrs (r.esp - 4) 4) : InCall c x := by
  have hle := utfAddr_lt c.esp
  rw [mem_addrs_iff (by omega), hesp, inRange_iff, BitVec.toNat_sub, BitVec.toNat_sub,
    BitVec.toNat_ofNat, show (4 : Word).toNat = 4 from rfl] at hx
  rw [inCall_iff hroom]
  omega

section Instructions

variable {next : Word}

theorem at_pushl (hroom : HasRoom c) (hat : At 0 c r m) :
    At 1 c (exec img next r m (.pushl .esp)).1 (exec img next r m (.pushl .esp)).2 := by
  have hesp : r.esp = utfAddr c.esp := by rw [hat.esp, espAt]
  refine at_frame (by omega) ?_ ((hat.frame (by omega)).congr fun x hx => ?_)
  · rw [espAt, exec, hesp]
  · refine exec_outside _ _ fun hmem => not_inFrame_of_inCall hroom ?_ hx
    exact inCall_of_push (Nat.zero_le 1) (by rw [hesp, Nat.mul_zero, BitVec.sub_zero]) hroom hmem

theorem at_store_eip (hclear : OffTop c)
    (hat : At 7 c r m) :
    At 8 c (exec img next r m (.store .ebx 0 .eax)).1
      (exec img next r m (.store .ebx 0 .eax)).2 := by
  have hat' : r.get .eax + 0 = c.esp - 4 :=
    (BitVec.add_zero _).trans (hat.newEsp (by omega) (by omega))
  have hmem : (exec img next r m (.store .ebx 0 .eax)).2 = writeWord m (c.esp - 4) c.eip := by
    rw [exec, hat', Regs.get, hat.trapEip rfl]
  constructor
  case esp => rw [exec, hat.esp, espAt, espAt]
  case newEsp => exact fun _ _ => hat.newEsp (by omega) (by omega)
  case pushed =>
    intro _
    rw [hmem, readWord_writeWord]
  case frame =>
    intro _
    refine (hat.frame (by omega)).congr fun x hx => ?_
    rw [hmem]
    exact writeWord_outside fun hscratch => not_inFrame_of_inScratch hclear hscratch hx
  all_goals intros; omega

theorem at_store_esp (hclear : OffTop c) (hat : At 8 c r m) :
    At 9 c (exec img next r m (.store .eax 48 .esp)).1
      (exec img next r m (.store .eax 48 .esp)).2 := by
  have hmem : (exec img next r m (.store .eax 48 .esp)).2 =
      writeWord m (utfAddr c.esp + BitVec.ofNat 32 48) (c.esp - 4) := by
    rw [exec, Regs.get, Regs.get, hat.newEsp (by omega) (by omega), hat.esp, espAt]
    rfl
  constructor
  case esp => rw [exec, hat.esp, espAt, espAt]
  case pushed =>
    intro _
    rw [← hat.pushed (by omega), hmem]
    refine readWord_congr fun x hx => writeWord_outside fun hfield => ?_
    exact not_inFrame_of_inScratch hclear hx (hfield.of_offset (by omega))
  case adjusted =>
    intro _ _ f hf
    rw [hmem]
    rcases fields_offset hf with ⟨hoff, hval⟩ | ⟨hoff, hother⟩
    · rw [hoff, hval, readWord_writeWord]
    rw [← hat.frame (by omega) f (hother _)]
    refine readWord_congr fun x hx => writeWord_outside fun hfield => ?_
    have hle := utfAddr_lt c.esp
    rw [inRange_iff, BitVec.toNat_add, BitVec.toNat_ofNat] at hx hfield
    omega
  all_goals intros; omega

/-- The instructions that load: the frame is still as the kernel pushed it. -/
theorem At.load (hat : At i c r m) (hi : 4 ≤ i) (hi' : i ≤ 6) (hesp : r'.esp = utfAddr c.esp)
    (heax : r'.eax = if i = 4 then c.esp else c.esp - 4) (hebx : i = 6 → r'.ebx = c.eip) :
    At (i + 1) c r' m := by
  have hcases : i = 4 ∨ i = 5 ∨ i = 6 := by omega
  constructor
  case esp => rcases hcases with rfl | rfl | rfl <;> exact hesp
  case trapEsp => exact fun h => by rw [heax, if_pos (by omega)]
  case newEsp => exact fun h _ => by rw [heax, if_neg (by omega)]
  case trapEip => exact fun h => hebx (by omega)
  case frame => exact fun _ => hat.frame (by omega)
  all_goals intros; omega

/-- The instructions that pop: the program counter and the new stack pointer have been stored. -/
theorem At.pop (hat : At i c r m) (hi : 9 ≤ i) (hesp : r'.esp = espAt c (i + 1))
    (hgeneral : 10 ≤ i → PfentrySpec.general r' = PfentrySpec.general c)
    (hflags : 12 ≤ i → r'.eflags = c.eflags) : At (i + 1) c r' m := by
  constructor
  case esp => exact hesp
  case pushed => exact fun _ => hat.pushed (by omega)
  case adjusted => exact fun _ _ => hat.adjusted (by omega) (by omega)
  case general => exact fun _ => hgeneral (by omega)
  case flags => exact fun _ => hflags (by omega)
  all_goals intros; omega

theorem at_registers (hat : At i c r m)
    (hflags : r.eflags &&& systemFlags = c.eflags &&& systemFlags) (hi : 0 < i) (hlt : i < 14)
    (hother : i ≠ 2 ∧ i ≠ 7 ∧ i ≠ 8) (hins : pgfaultUpcallCode[i]? = some ins) :
    At (i + 1) c (exec img next r m ins).1 (exec img next r m ins).2 := by
  have hesp := hat.esp
  have hframe := hat.frame
  have hadjusted := hat.adjusted
  interval_cases i <;> (try exact absurd hother (by decide)) <;> cases hins <;> rw [espAt] at hesp
  · exact at_frame (by omega) (by rw [espAt, exec, Regs.set, hesp]) (hframe (by omega))
  · refine at_frame (by omega) ?_ (hframe (by omega))
    rw [espAt, exec, Regs.set, Regs.get, hesp, BitVec.sub_add_cancel]
  · -- movl 48(%esp), %eax
    refine hat.load (by omega) (by omega) hesp ?_ (by omega)
    rw [exec, Regs.set, Regs.get, hesp]
    exact hframe (by omega) (48, c.esp) (by simp [fields])
  · -- subl $4, %eax
    refine hat.load (by omega) (by omega) hesp ?_ (by omega)
    rw [exec, Regs.set, Regs.get, hat.trapEsp rfl, if_neg (by omega)]
  · -- movl 40(%esp), %ebx
    refine hat.load (by omega) (by omega) hesp (hat.newEsp (by omega) (by omega)) fun _ => ?_
    rw [exec, Regs.set, Regs.get, hesp]
    exact hframe (by omega) (40, c.eip) (by simp [fields])
  · -- addl $8, %esp
    refine hat.pop (by omega) ?_ (by omega) (by omega)
    rw [espAt, exec, Regs.set, Regs.get, hesp]
  · -- popal
    have hfield : ∀ k w, (k + 8, w) ∈ fields c (c.esp - 4) →
        readWord m (r.esp + BitVec.ofNat 32 k) = w := fun k w hf => by
      have hword := hadjusted (by omega) (by omega) _ hf
      rw [Nat.add_comm, BitVec.ofNat_add, ← BitVec.add_assoc] at hword
      rw [hesp]
      exact hword
    have h0 := hfield 0 c.edi (by simp [fields])
    rw [BitVec.add_zero] at h0
    refine hat.pop (by omega) ?_ (fun _ => ?_) (by omega)
    · have hsum : (utfAddr c.esp + 8) + 32 = utfAddr c.esp + 40 := BitVec.add_assoc _ _ _
      rw [espAt, exec, hesp, hsum]
    rw [exec, general, general]
    simp only [List.cons.injEq, and_true]
    exact ⟨h0, hfield 4 c.esi (by simp [fields]), hfield 8 c.ebp (by simp [fields]),
      hfield 16 c.ebx (by simp [fields]), hfield 20 c.edx (by simp [fields]),
      hfield 24 c.ecx (by simp [fields]), hfield 28 c.eax (by simp [fields])⟩
  · -- addl $4, %esp
    refine hat.pop (by omega) ?_ (fun _ => hat.general (by omega)) (by omega)
    rw [espAt, exec, Regs.set, Regs.get, hesp, BitVec.add_assoc]
    rfl
  · -- popfl
    have hword : readWord m (utfAddr c.esp + 44) = c.eflags :=
      hadjusted (by omega) (by omega) (44, c.eflags) (by simp [fields])
    refine hat.pop (by omega) ?_ (fun _ => hat.general (by omega)) fun _ => ?_
    · rw [espAt, exec, hesp, BitVec.add_assoc]
      rfl
    · rw [exec, hesp, hword, poppedFlags_eq hflags]
  · -- popl %esp
    have hword : readWord m (utfAddr c.esp + 48) = c.esp - 4 :=
      hadjusted (by omega) (by omega) (48, c.esp - 4) (by simp [fields])
    refine hat.pop (by omega) ?_ (fun _ => hat.general (by omega)) fun _ => hat.flags (by omega)
    rw [espAt, exec, Regs.set, hesp, hword]

theorem at_instr (img : Image) (next : Word) (hroom : HasRoom c) (hclear : 7 ≤ i → OffTop c)
    (hat : At i c r m) (hflags : r.eflags &&& systemFlags = c.eflags &&& systemFlags) (hi : i < 14)
    (hcall : i ≠ 2) (hins : pgfaultUpcallCode[i]? = some ins) :
    At (i + 1) c (exec img next r m ins).1 (exec img next r m ins).2 ∧
      (exec img next r m ins).1.eip = next := by
  constructor
  · by_cases hregs : i = 0 ∨ i = 7 ∨ i = 8
    · rcases hregs with rfl | rfl | rfl <;> cases hins
      · exact at_pushl hroom hat
      · exact at_store_eip (hclear (by omega)) hat
      · exact at_store_esp (hclear (by omega)) hat
    · exact at_registers hat hflags (by omega) hi (by omega) hins
  · interval_cases i <;> (try exact absurd rfl hcall) <;> cases hins <;> rfl

theorem writes_instr (hroom : HasRoom c)
    (hat : At i c r m) (hi : i < 14) (hins : pgfaultUpcallCode[i]? = some ins)
    (hx : x ∈ ins.writes r) : InFrame c x ∨ InScratch c x ∨ InCall c x ∧ i ≤ 2 := by
  have hesp := hat.esp
  have hi' : i = 0 ∨ i = 2 ∨ i = 7 ∨ i = 8 ∨ i ≠ 0 ∧ i ≠ 2 ∧ i ≠ 7 ∧ i ≠ 8 := by omega
  rcases hi' with rfl | rfl | rfl | rfl | hnone
  · cases hins
    rw [espAt] at hesp
    exact .inr (.inr ⟨inCall_of_push (Nat.zero_le 1)
      (by rw [hesp, Nat.mul_zero, BitVec.sub_zero]) hroom hx, by omega⟩)
  · cases hins
    rw [espAt] at hesp
    exact .inr (.inr ⟨inCall_of_push (Nat.le_refl 1) hesp hroom hx, by omega⟩)
  · cases hins
    have haddr : r.get .eax + 0 = c.esp - 4 :=
      (BitVec.add_zero _).trans (hat.newEsp (by omega) (by omega))
    rw [Instr.writes, haddr] at hx
    exact .inr (.inl ((mem_addrs_iff (by omega)).mp hx))
  · cases hins
    rw [espAt] at hesp
    rw [Instr.writes, Regs.get, hesp] at hx
    exact .inl (((mem_addrs_iff (by omega)).mp hx).of_offset (k := 48) (by omega))
  · interval_cases i <;> (try exact absurd hnone (by decide)) <;> cases hins <;> cases hx

end Instructions

theorem Good.at_text (h : Good img s) (hi : i < 15)
    (heip : s.regs.eip = img.text i) : ∃ p rest, s.pending = p :: rest ∧ Stacked (p :: rest) ∧
      s.regs.eflags &&& systemFlags = p.regs.eflags &&& systemFlags ∧
      At i p.regs s.regs s.mem ∧ Pends img p.regs s.mem rest := by
  have hpends := h.pends
  have hstacked := h.stacked
  cases hpending : s.pending with
  | nil =>
    rw [hpending] at hpends
    exact absurd ⟨i, hi, heip⟩ hpends
  | cons p rest =>
    rw [hpending] at hpends hstacked
    obtain ⟨hflags, ⟨j, hj, heip', hat, hrest⟩ | ⟨hout, -⟩⟩ := hpends
    · rw [heip] at heip'
      obtain rfl := img.text_inj i hi j hj heip'
      exact ⟨p, rest, rfl, hstacked, hflags, hat, hrest⟩
    · exact absurd ⟨i, hi, heip⟩ hout

/-- The writes of a step belong to the fault on top, and spare the frames below it. -/
def WritesTop (s : State) (w : List Word) (s' : State) : Prop :=
  ∀ x ∈ w, ∃ p rest, (s.pending = p :: rest ∨ s'.pending = p :: rest) ∧
    (InFrame p.regs x ∨ InScratch p.regs x ∨ InCall p.regs x) ∧ ∀ q ∈ rest, ¬ InFrame q.regs x

theorem good_fault (h : Good img s) (faultVa : Word) (tf : Trapframe)
    (hregs : Regs.ofTrapframe tf = s.regs) (hroom : utfAddr tf.tfEsp > uxstacktop - pgsize)
    (hclear : Clear tf.tfEsp) (hstack : OnTop tf.tfEsp s.pending) :
    Good img (faulted img faultVa tf s) := by
  have hesp : s.regs.esp = tf.tfEsp := by rw [← hregs]; rfl
  have hplaced : Placed s.regs s.pending := by
    rw [Clear, BitVec.le_def, BitVec.le_def, show uxstacktop.toNat = 4005560320 from rfl,
      show (uxstacktop + 3).toNat = 4005560323 from rfl] at hclear
    refine ⟨?_, ?_, ?_⟩
    · rw [hesp]
      exact hroom
    · grind
    · rw [hesp]
      exact hstack
  have hstacked : Stacked (⟨s.regs, s.mem⟩ :: s.pending) := ⟨hplaced, h.stacked⟩
  refine ⟨hstacked, ?_, .inl ⟨0, by omega, rfl, at_frame (by omega) ?_ ?_, h.pends.congr ?_⟩⟩
  · rw [← hregs]
    rfl
  · rw [espAt, ← hregs]
    rfl
  · rw [hesp, ← hregs]
    exact held_pushed faultVa tf
  · intro q hq x hx
    refine write_outside (by rw [length_utrapframe]; omega) fun hframe => ?_
    rw [length_utrapframe, ← hesp] at hframe
    have hapart := hstacked.apart hq (.inl hframe)
    exact hx.elim hapart.1 hapart.2

theorem pends_exec {next : Word} (hstacked : Stacked (p :: rest))
    (hwrites : ∀ x ∈ ins.writes s.regs,
      InFrame p.regs x ∨ InScratch p.regs x ∨ InCall p.regs x ∧ i ≤ 2)
    (hmapped : ∀ x ∈ ins.writes s.regs, ¬ InGuardPage x) (hrest : Pends img p.regs s.mem rest) :
    Pends img p.regs (exec img next s.regs s.mem ins).2 rest := by
  refine hrest.congr fun q hq x hx => exec_outside next ins fun hmem => ?_
  have hapart := hstacked.apart hq
    ((hwrites x hmem).imp_right (Or.imp_right fun hcall => ⟨hcall.1, hmapped x hmem⟩))
  exact hx.elim hapart.1 hapart.2

theorem good_instr (h : Good img s) (hi : i < 14) (hcall : i ≠ 2)
    (hins : pgfaultUpcallCode[i]? = some ins) (heip : s.regs.eip = img.text i)
    (hmapped : ∀ x ∈ ins.writes s.regs, ¬ InGuardPage x) : Good img (after img i ins s) := by
  obtain ⟨p, rest, hpending, hstacked, hflags, hat, hrest⟩ := h.at_text (by omega) heip
  obtain ⟨hnext, heip'⟩ := at_instr img (img.text (i + 1)) hstacked.1.room
    (fun _ => hstacked.1.clear) hat hflags hi hcall hins
  rw [show after img i ins s = { after img i ins s with pending := p :: rest } by
    rw [after, hpending]]
  refine ⟨hstacked, (exec_flags _ ins).trans hflags, .inl ⟨i + 1, by omega, heip', hnext, ?_⟩⟩
  exact pends_exec hstacked (fun x hx => writes_instr hstacked.1.room hat hi hins hx) hmapped hrest

theorem good_call (h : Good img s) (hpending : s.pending = p :: rest)
    (heip : s.regs.eip = img.text 2) (htarget : ¬ img.InText s.regs.eax)
    (hmapped : ∀ x ∈ (Instr.call .eax).writes s.regs, ¬ InGuardPage x) :
    Good img { after img 2 (.call .eax) s with
      pending := { p with found := (after img 2 (.call .eax) s).mem } :: rest } := by
  obtain ⟨p', rest', hpending', hstacked, hflags, hat, hrest⟩ := h.at_text (by omega) heip
  rw [hpending] at hpending'
  obtain ⟨rfl, rfl⟩ := List.cons.inj hpending'
  have hframe : ∀ x, InFrame p.regs x → (after img 2 (.call .eax) s).mem x = s.mem x := by
    intro x hx
    refine after_outside 2 fun hmem => ?_
    have hesp : s.regs.esp = utfAddr p.regs.esp - 4 := by rw [hat.esp, espAt]
    exact not_inFrame_of_inCall hstacked.1.room
      (inCall_of_push (Nat.le_refl 1) hesp hstacked.1.room hmem) hx
  refine ⟨hstacked, hflags, .inr ⟨htarget, (hat.frame (by omega)).congr hframe, ?_⟩⟩
  exact pends_exec hstacked (fun x hx => writes_instr hstacked.1.room hat (by omega) rfl hx)
    hmapped hrest

theorem ret_restores (img : Image) (next : Word) (hat : At 14 c r m) :
    (exec img next r m .ret).1 = c := by
  have hesp : r.esp = c.esp - 4 := by rw [hat.esp, espAt]
  have hgeneral := hat.general (by omega)
  have hflags := hat.flags (by omega)
  have hpushed := hat.pushed (by omega)
  simp only [general, List.cons.injEq, and_true] at hgeneral
  obtain ⟨hedi, hesi, hebp, hebx, hedx, hecx, heax⟩ := hgeneral
  rw [exec, hesp, hpushed, BitVec.sub_add_cancel, hedi, hesi, hebp, hebx, hedx, hecx, heax, hflags]

section

variable (h : Good img s)
include h

theorem good_ret (hpending : s.pending = p :: rest) (heip : s.regs.eip = img.text 14) :
    (after img 14 .ret s).regs = p.regs ∧
      Good img { after img 14 .ret s with pending := rest } := by
  obtain ⟨p', rest', hpending', hstacked, -, hat, hrest⟩ := h.at_text (by omega) heip
  rw [hpending] at hpending'
  obtain ⟨rfl, rfl⟩ := List.cons.inj hpending'
  have hregs : (after img 14 .ret s).regs = p.regs := ret_restores img (img.text 15) hat
  refine ⟨hregs, hstacked.2, ?_⟩
  rw [hregs]
  exact hrest

theorem good_own (hown : OwnStep img s r m) :
    Good img { regs := r, mem := m, pending := s.pending } := by
  cases hpending : s.pending with
  | nil =>
    refine ⟨trivial, hown.control.resolve_right ?_⟩
    rintro ⟨p, rest, hcons, -⟩
    rw [hpending] at hcons
    cases hcons
  | cons p rest =>
    have hstacked := h.stacked
    have hpends := h.pends
    rw [hpending] at hstacked hpends
    obtain ⟨hflags, ⟨i, hi, heip, -⟩ | ⟨-, hheld, hrest⟩⟩ := hpends
    · exact absurd ⟨i, hi, heip⟩ hown.outside
    refine ⟨hstacked, hown.flags.trans hflags, ?_⟩
    rcases hown.control with hout | ⟨p', rest', hpending', hreturns⟩
    · exact .inr ⟨hout, hheld, hrest⟩
    rw [hpending] at hpending'
    obtain ⟨rfl, rfl⟩ := List.cons.inj hpending'
    refine .inl ⟨3, by omega, hreturns.eip, at_frame (by omega) ?_ ?_, ?_⟩
    · rw [espAt, hreturns.esp]
    · exact hheld.congr hreturns.frame
    · exact hrest.congr hreturns.stack

theorem good_step (hstep : Step img Clear s w s') : Good img s' := by
  cases hstep with
  | fault faultVa tf hregs hroom hclear hstack =>
    exact good_fault h faultVa tf hregs hroom hclear hstack
  | instr i hi hcall ins hins heip hmapped => exact good_instr h hi hcall hins heip hmapped
  | call p rest hpending heip htarget hmapped => exact good_call h hpending heip htarget hmapped
  | ret p rest hpending heip => exact (good_ret h hpending heip).2
  | own r m hown => exact good_own h hown

theorem good_run (hrun : Run img Clear s s') : Good img s' := by
  induction hrun with
  | refl => exact h
  | step _ hstep ih => exact good_step ih hstep

theorem writesTop_exec (hi : i < 14)
    (hins : pgfaultUpcallCode[i]? = some ins) (heip : s.regs.eip = img.text i)
    (hmapped : ∀ x ∈ ins.writes s.regs, ¬ InGuardPage x) : WritesTop s (ins.writes s.regs) s' := by
  intro x hx
  obtain ⟨p, rest, hpending, hstacked, -, hat, -⟩ := h.at_text (by omega) heip
  have hwrites := writes_instr hstacked.1.room hat hi hins hx
  refine ⟨p, rest, .inl hpending, ?_, fun q hq => (hstacked.apart hq ?_).1⟩
  · exact hwrites.imp_right (Or.imp_right And.left)
  · exact hwrites.imp_right (Or.imp_right fun hcall => ⟨hcall.1, hmapped x hx⟩)

theorem writesTop_step (hstep : Step img Clear s w s') : WritesTop s w s' := by
  cases hstep with
  | fault faultVa tf hregs hroom hclear hstack =>
    intro x hx
    have hgood := good_fault h faultVa tf hregs hroom hclear hstack
    have hesp : s.regs.esp = tf.tfEsp := by rw [← hregs]; rfl
    have hframe : InFrame s.regs x := by
      rw [InFrame, hesp]
      exact (mem_addrs_iff (by omega)).mp hx
    exact ⟨_, _, .inr rfl, .inl hframe, fun q hq => (hgood.stacked.apart hq (.inl hframe)).1⟩
  | instr i hi hcall ins hins heip hmapped => exact writesTop_exec h hi hins heip hmapped
  | call p rest hpending heip htarget hmapped => exact writesTop_exec h (by omega) rfl heip hmapped
  | ret p rest hpending heip => exact fun x hx => by cases hx
  | own r m hown => exact fun x hx => by cases hx

end

/-- Every way back from a fault restores the registers of the fault that it ends, which is the
last one pending, and the kernel and the upcall write nothing but the frame of a fault, the
word below its stack pointer and the two words of the call, and no other pending frame. -/
theorem upcall_restores {s0 s s' : State} {w : List Word} (hs0 : s0.pending = [])
    (houtside : ¬ img.InText s0.regs.eip) (hrun : Run img Clear s0 s)
    (hstep : Step img Clear s w s') :
    (∀ p, s.pending = p :: s'.pending → s'.regs = p.regs) ∧ WritesTop s w s' := by
  have hgood : Good img s := good_run ⟨hs0 ▸ trivial, hs0 ▸ houtside⟩ hrun
  refine ⟨fun p hpop => ?_, writesTop_step hgood hstep⟩
  cases hstep with
  | fault => exact absurd (congrArg List.length hpop) (by simp [faulted]; omega)
  | instr => exact absurd (congrArg List.length hpop) (by simp [after])
  | call p' rest hpending =>
    rw [hpending] at hpop
    exact absurd (congrArg List.length hpop) (by simp)
  | ret p' rest hpending heip =>
    rw [hpending] at hpop
    obtain ⟨rfl, -⟩ := List.cons.inj hpop
    exact (good_ret hgood hpending heip).1
  | own => exact absurd (congrArg List.length hpop) (by simp)

/-- The state after `n` instructions of the upcall from instruction `i` on. -/
def executed (img : Image) (i : Nat) (s : State) : Nat → State
  | 0 => s
  | n + 1 => after img (i + n) (pgfaultUpcallCode.getD (i + n) .ret) (executed img i s n)

/-- Each of these instructions is in its turn, and writes only to pages that are mapped. -/
def proceeds (img : Image) (i : Nat) (s : State) (n : Nat) : Bool := (List.range n).all fun j =>
  decide (i + j < 14 ∧ i + j ≠ 2 ∧ (executed img i s j).regs.eip = img.text (i + j)) &&
    ((pgfaultUpcallCode.getD (i + j) .ret).writes (executed img i s j).regs).all (¬ InGuardPage ·)

theorem run_executed (n : Nat) (h : proceeds img i s n = true) :
    Run img Ok s (executed img i s n) := by
  simp only [proceeds, List.all_eq_true, List.mem_range, Bool.and_eq_true, decide_eq_true_eq] at h
  induction n with
  | zero => exact .refl s
  | succ n ih =>
    obtain ⟨⟨hi, hcall, heip⟩, hmapped⟩ := h n (Nat.lt_succ_self n)
    have hlen : i + n < pgfaultUpcallCode.length := hi.trans (by decide)
    refine (ih fun j hj => h j (hj.trans (Nat.lt_succ_self n))).step
      (.instr _ (i + n) hi hcall _ ?_ heip hmapped)
    rw [List.getElem?_eq_getElem hlen, List.getD_eq_getElem _ _ hlen]

def smallImage : Image where
  text i := BitVec.ofNat 32 (0x800100 + i)
  handler := 0x804000
  text_inj i hi j hj h := by
    have hnat := congrArg BitVec.toNat h
    grind

/-- A program at `0x800020` about to fault with this stack pointer, in an empty memory. -/
def faulting (esp : Word) : Trapframe :=
  { initTf with tfEip := 0x800020, tfEsp := esp, regEax := 1, regEbx := 2 }

def faultingState (esp : Word) : State := ⟨Regs.ofTrapframe (faulting esp), fun _ => 0, []⟩

instance (img : Image) (eip : Word) : Decidable (img.InText eip) :=
  inferInstanceAs (Decidable (∃ i < 15, _))

/-- The upcall is about to call the C handler. -/
def calling (esp : Word) : State :=
  executed smallImage 0 (faulted smallImage 0 (faulting esp) (faultingState esp)) 2

/-- The C handler, which does nothing, has returned. -/
def returned (esp : Word) : State :=
  let s := after smallImage 2 (.call .eax) (calling esp)
  ⟨{ s.regs with eip := smallImage.text 3, esp := utfAddr esp - 4 }, s.mem,
    [⟨(faultingState esp).regs, s.mem⟩]⟩

theorem run_upcall (hesp : esp = 0xeebfe000 ∨ esp = 0xeec00000) (hok : Ok esp) :
    Run smallImage Ok (faultingState esp) (executed smallImage 3 (returned esp) 11) := by
  have hfault : Step smallImage Ok (faultingState esp) _ _ := .fault _ 0 (faulting esp) rfl
    (by rcases hesp with rfl | rfl <;> decide +kernel) hok trivial
  have hstart : Run smallImage Ok _ (calling esp) := run_executed 2 (by
    rcases hesp with rfl | rfl <;> decide +kernel)
  have htarget : ¬ smallImage.InText (calling esp).regs.eax := by
    rcases hesp with rfl | rfl <;> decide +kernel
  have hmapped : ((Instr.call .eax).writes (calling esp).regs).all (¬ InGuardPage ·) = true := by
    rcases hesp with rfl | rfl <;> decide +kernel
  have hcall : Step smallImage Ok (calling esp) _ _ := .call _ _ _ rfl
    (by rcases hesp with rfl | rfl <;> decide +kernel) htarget (by simpa using hmapped)
  let s := after smallImage 2 (.call .eax) (calling esp)
  have hown : Step smallImage Ok ⟨s.regs, s.mem, _⟩ _ (returned esp) :=
    .own ⟨s.regs, s.mem, [⟨_, s.mem⟩]⟩ _ s.mem ⟨htarget, rfl, .inr ⟨_, _, rfl, rfl, rfl,
      fun _ _ => rfl, fun _ _ _ _ => rfl⟩⟩
  refine ((((Run.single hfault).trans hstart).step hcall).step hown).trans (run_executed 11 ?_)
  rcases hesp with rfl | rfl <;> decide +kernel

theorem upcall_restores_small : ∃ s s' w, Run smallImage Clear (faultingState 0xeebfe000) s ∧
    Step smallImage Clear s w s' ∧ s'.pending = [] ∧
    s'.regs = (faultingState 0xeebfe000).regs := by
  have hclear : Clear 0xeebfe000 := by unfold Clear; decide
  have hrun := run_upcall (.inl rfl) hclear
  have hret : Step smallImage Clear (executed smallImage 3 (returned 0xeebfe000) 11) _ _ :=
    .ret _ _ _ rfl (by decide +kernel)
  exact ⟨_, _, _, hrun, hret, rfl, (upcall_restores rfl (by decide) hrun hret).1 _ rfl⟩

/-- A program whose stack pointer is `UXSTACKTOP` when it faults does not get its program counter
back, since the word below that stack pointer is the last word of the frame; and every upcall
writes the two words below its frame. -/
theorem upcall_fails_at_top :
    (∃ s s' p, Run smallImage (fun _ => True) (faultingState 0xeec00000) s ∧
      Step smallImage (fun _ => True) s [] s' ∧ s.pending = [p] ∧ s'.pending = [] ∧
      p.regs = (faultingState 0xeec00000).regs ∧ s'.regs.eip ≠ p.regs.eip) ∧
    ∃ s s' w p x, Run smallImage Clear (faultingState 0xeebfe000) s ∧
      Step smallImage Clear s w s' ∧ s.pending = [p] ∧ s'.pending = [p] ∧ x ∈ w ∧
      ¬ InFrame p.regs x ∧ ¬ InScratch p.regs x := by
  constructor
  · exact ⟨_, _, _, run_upcall (.inr rfl) trivial, .ret _ _ _ rfl (by decide +kernel), rfl, rfl,
      rfl, by decide +kernel⟩
  have hfault : Step smallImage Clear (faultingState 0xeebfe000) _
      (faulted smallImage 0 (faulting 0xeebfe000) (faultingState 0xeebfe000)) :=
    .fault _ 0 (faulting 0xeebfe000) rfl (by decide) (by unfold Clear; decide) trivial
  have hpush : Step smallImage Clear
      (faulted smallImage 0 (faulting 0xeebfe000) (faultingState 0xeebfe000))
      (addrs (utfAddr 0xeebfe000 - 4) 4) _ :=
    .instr _ 0 (by decide) (by decide) (.pushl .esp) rfl rfl fun x hx => by
      have hin : InRange (utfAddr 0xeebfe000 - 4) 4 x := (mem_addrs_iff (by omega)).mp hx
      rw [inRange_iff, show (utfAddr 0xeebfe000 - 4).toNat = 4005560264 from rfl] at hin
      rw [inGuardPage_iff]
      omega
  refine ⟨_, _, _, _, utfAddr 0xeebfe000 - 4, .single hfault, hpush, rfl, rfl,
    mem_addrs.mpr ⟨0, by decide, (BitVec.add_zero _).symm⟩, ?_, ?_⟩
  · rw [inFrame_iff]
    decide
  · rw [inScratch_iff]
    decide

end Mit6828.Lib.PfentrySpec
