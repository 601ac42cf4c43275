import Mit6828.Kern.Trap
import Mit6828.Library.ByteMemory

namespace Mit6828.Lib.Pfentry

open Kern.Mmu Kern.AddressSpace Kern.Environment Kern.Trap Library.ByteMemory

structure Regs where
  edi : Word
  esi : Word
  ebp : Word
  ebx : Word
  edx : Word
  ecx : Word
  eax : Word
  esp : Word
  eip : Word
  eflags : Word
  deriving DecidableEq

/-- The registers with which the kernel leaves for user mode. -/
def Regs.ofTrapframe (tf : Trapframe) : Regs where
  edi := tf.regEdi
  esi := tf.regEsi
  ebp := tf.regEbp
  ebx := tf.regEbx
  edx := tf.regEdx
  ecx := tf.regEcx
  eax := tf.regEax
  esp := tf.tfEsp
  eip := tf.tfEip
  eflags := tf.tfEflags

inductive Reg where
  | eax
  | ebx
  | esp
  deriving DecidableEq

def Regs.get (r : Regs) : Reg → Word
  | .eax => r.eax
  | .ebx => r.ebx
  | .esp => r.esp

def Regs.set (r : Regs) (v : Word) : Reg → Regs
  | .eax => { r with eax := v }
  | .ebx => { r with ebx := v }
  | .esp => { r with esp := v }

inductive Instr where
  | pushl (src : Reg)
  | movlHandler (dst : Reg)
  | call (target : Reg)
  | addl (imm : Word) (dst : Reg)
  | subl (imm : Word) (dst : Reg)
  | load (off : Word) (base dst : Reg)
  | store (src : Reg) (off : Word) (base : Reg)
  | popal
  | popfl
  | popl (dst : Reg)
  | ret
  deriving DecidableEq

def pgfaultUpcallCode : List Instr :=
  [.pushl .esp, .movlHandler .eax, .call .eax, .addl 4 .esp,
    .load 48 .esp .eax, .subl 4 .eax, .load 40 .esp .ebx, .store .ebx 0 .eax, .store .eax 48 .esp,
    .addl 8 .esp, .popal, .addl 4 .esp, .popfl, .popl .esp, .ret]

/-- Where the program has been loaded: the addresses of the instructions of
`_pgfault_upcall` and of the variable `_pgfault_handler`. -/
structure Image where
  text : Nat → Word
  handler : Word
  text_inj : ∀ i < 15, ∀ j < 15, text i = text j → i = j

def Image.InText (img : Image) (eip : Word) : Prop := ∃ i < 15, eip = img.text i

def statusFlags : Word := 0x8D5

/-- `IF` and `IOPL`, which user mode cannot change. -/
def systemFlags : Word := 0x3200

def parity (w : Word) : Bool := (List.range 8).foldl (fun p i => p ^^ w.getLsbD i) true

/-- The status flags after an addition or subtraction of `a` and `b`. -/
def arithFlags (flags a b result : Word) (carry overflow : Bool) : Word :=
  let bit (c : Bool) (i : Nat) : Word := if c then (1 : Word) <<< i else 0
  (flags &&& ~~~statusFlags) ||| (statusFlags &&&
    (bit carry 0 ||| bit (parity result) 2 ||| bit ((a ^^^ b ^^^ result).getLsbD 4) 4 |||
      bit (result == 0) 6 ||| bit result.msb 7 ||| bit overflow 11))

def poppedFlags (flags w : Word) : Word := (flags &&& systemFlags) ||| (w &&& ~~~systemFlags)

/-- One instruction; `next` is the address of the one behind it. -/
def exec (img : Image) (next : Word) (r : Regs) (m : Memory) : Instr → Regs × Memory
  | .pushl src =>
    ({ r with esp := r.esp - 4, eip := next }, writeWord m (r.esp - 4) (r.get src))
  | .movlHandler dst => ({ r.set (readWord m img.handler) dst with eip := next }, m)
  | .call target =>
    ({ r with esp := r.esp - 4, eip := r.get target }, writeWord m (r.esp - 4) next)
  | .addl imm dst =>
    let a := r.get dst
    ({ r.set (a + imm) dst with
      eip := next
      eflags := arithFlags r.eflags a imm (a + imm) (a + imm < a)
        (a.msb == imm.msb && a.msb != (a + imm).msb) }, m)
  | .subl imm dst =>
    let a := r.get dst
    ({ r.set (a - imm) dst with
      eip := next
      eflags := arithFlags r.eflags a imm (a - imm) (a < imm)
        (a.msb != imm.msb && a.msb != (a - imm).msb) }, m)
  | .load off base dst => ({ r.set (readWord m (r.get base + off)) dst with eip := next }, m)
  | .store src off base => ({ r with eip := next }, writeWord m (r.get base + off) (r.get src))
  | .popal =>
    ({ r with
      edi := readWord m r.esp
      esi := readWord m (r.esp + 4)
      ebp := readWord m (r.esp + 8)
      ebx := readWord m (r.esp + 16)
      edx := readWord m (r.esp + 20)
      ecx := readWord m (r.esp + 24)
      eax := readWord m (r.esp + 28)
      esp := r.esp + 32
      eip := next }, m)
  | .popfl =>
    ({ r with
      eflags := poppedFlags r.eflags (readWord m r.esp), esp := r.esp + 4, eip := next }, m)
  | .popl dst => ({ ({ r with esp := r.esp + 4 }.set (readWord m r.esp) dst) with eip := next }, m)
  | .ret => ({ r with eip := readWord m r.esp, esp := r.esp + 4 }, m)

def Instr.writes (r : Regs) : Instr → List Word
  | .pushl _ => addrs (r.esp - 4) 4
  | .call _ => addrs (r.esp - 4) 4
  | .store _ off base => addrs (r.get base + off) 4
  | _ => []

/-- A fault that has not been returned from: its trap-time registers, and the memory when its
C handler was called. -/
structure Pending where
  regs : Regs
  found : Memory

/-- A user environment.  `pending` is no part of the machine: it records the faults that have
not been returned from, the last one first. -/
structure State where
  regs : Regs
  mem : Memory
  pending : List Pending

/-- The frame of a fault with these trap-time registers. -/
def InFrame (c : Regs) (x : Word) : Prop := InRange (utfAddr c.esp) 52 x

def InScratch (c : Regs) (x : Word) : Prop := InRange (c.esp - 4) 4 x

/-- The argument and the return address of the call of the C handler. -/
def InCall (c : Regs) (x : Word) : Prop := InRange (utfAddr c.esp - 8) 8 x

/-- The page below the exception stack, which is not mapped. -/
def InGuardPage (x : Word) : Prop := uxstacktop - 2 * pgsize ≤ x ∧ x < uxstacktop - pgsize
deriving Decidable

/-- A fault on the exception stack, at or below the frame of the last one. -/
def OnTop (esp : Word) : List Pending → Prop
  | [] => True
  | p :: _ => uxstacktop - pgsize ≤ esp ∧ esp ≤ uxstacktop - 1 ∧ esp ≤ utfAddr p.regs.esp

structure HandlerReturns (img : Image) (p : Pending) (rest : List Pending) (r : Regs)
    (m : Memory) : Prop where
  eip : r.eip = img.text 3
  esp : r.esp = utfAddr p.regs.esp - 4
  frame : ∀ x, InFrame p.regs x → m x = p.found x
  stack : ∀ q ∈ rest, ∀ x, InFrame q.regs x ∨ InScratch q.regs x → m x = p.found x

/-- What the C handler, or the program itself, may do in one go. -/
structure OwnStep (img : Image) (s : State) (r : Regs) (m : Memory) : Prop where
  outside : ¬ img.InText s.regs.eip
  flags : r.eflags &&& systemFlags = s.regs.eflags &&& systemFlags
  control : ¬ img.InText r.eip ∨
    ∃ p rest, s.pending = p :: rest ∧ HandlerReturns img p rest r m

/-- `page_fault_handler` has pushed the frame, and the environment goes on at the upcall. -/
def faulted (img : Image) (faultVa : Word) (tf : Trapframe) (s : State) : State where
  regs := Regs.ofTrapframe { tf with tfEsp := utfAddr tf.tfEsp, tfEip := img.text 0 }
  mem := write s.mem (utfAddr tf.tfEsp) ((utrapframe faultVa tf).flatMap bytesOf)
  pending := ⟨s.regs, s.mem⟩ :: s.pending

def after (img : Image) (i : Nat) (ins : Instr) (s : State) : State where
  regs := (exec img (img.text (i + 1)) s.regs s.mem ins).1
  mem := (exec img (img.text (i + 1)) s.regs s.mem ins).2
  pending := s.pending

/-- A step with the addresses that the kernel or the upcall writes.  `Clear` restricts the
stack pointers with which a program may fault. -/
inductive Step (img : Image) (Clear : Word → Prop) : State → List Word → State → Prop
  /-- A page fault, if there is room for the frame. -/
  | fault (s : State) (faultVa : Word) (tf : Trapframe) (hregs : Regs.ofTrapframe tf = s.regs)
      (hroom : utfAddr tf.tfEsp > uxstacktop - pgsize) (hclear : Clear tf.tfEsp)
      (hstack : OnTop tf.tfEsp s.pending) :
      Step img Clear s (addrs (utfAddr tf.tfEsp) 52) (faulted img faultVa tf s)
  | instr (s : State) (i : Nat) (hi : i < 14) (hcall : i ≠ 2) (ins : Instr)
      (hins : pgfaultUpcallCode[i]? = some ins) (heip : s.regs.eip = img.text i)
      (hmapped : ∀ x ∈ ins.writes s.regs, ¬ InGuardPage x) :
      Step img Clear s (ins.writes s.regs) (after img i ins s)
  /-- The call of the C handler, which is no part of the upcall. -/
  | call (s : State) (p : Pending) (rest : List Pending) (hpending : s.pending = p :: rest)
      (heip : s.regs.eip = img.text 2) (htarget : ¬ img.InText s.regs.eax)
      (hmapped : ∀ x ∈ (Instr.call .eax).writes s.regs, ¬ InGuardPage x) :
      Step img Clear s ((Instr.call .eax).writes s.regs)
        { after img 2 (.call .eax) s with
          pending := { p with found := (after img 2 (.call .eax) s).mem } :: rest }
  /-- The `ret` of the upcall ends the last pending fault. -/
  | ret (s : State) (p : Pending) (rest : List Pending) (hpending : s.pending = p :: rest)
      (heip : s.regs.eip = img.text 14) :
      Step img Clear s [] { after img 14 .ret s with pending := rest }
  | own (s : State) (r : Regs) (m : Memory) (hown : OwnStep img s r m) :
      Step img Clear s [] { regs := r, mem := m, pending := s.pending }

inductive Run (img : Image) (Clear : Word → Prop) : State → State → Prop
  | refl (s : State) : Run img Clear s s
  | step {s s' s'' : State} {w : List Word} :
      Run img Clear s s' → Step img Clear s' w s'' → Run img Clear s s''

theorem Run.trans {img : Image} {Clear : Word → Prop} {s s' s'' : State} (h : Run img Clear s s')
    (h' : Run img Clear s' s'') : Run img Clear s s'' := by
  induction h' with
  | refl => exact h
  | step _ hstep ih => exact .step ih hstep

theorem Run.single {img : Image} {Clear : Word → Prop} {s s' : State} {w : List Word}
    (h : Step img Clear s w s') : Run img Clear s s' := .step (.refl s) h

end Mit6828.Lib.Pfentry
