import Mit6828.Kern.EnvFreeList

/-!
Requests to the file server: `fsipc` of `lib/file.c`, `ipc_send` and `ipc_recv` of `lib/ipc.c`,
and the loop of `serve` in `fs/serv.c`, over the fields of `struct Env` that messages use.
-/

namespace Mit6828.Lib.Fsipc

open Kern.Mmu Kern.Environment Kern.Syscall Function

/-- The fields of a `struct Env` that messages use; `live` if it is not `ENV_FREE`. -/
structure Box where
  id : Word
  live : Bool
  recving : Bool
  dstva : Word
  value : Word
  sender : Word
  perm : Word

def findEnv (box : Nat → Box) (cur : Nat) (envid : Word) : Option Nat :=
  if envid = 0 then some cur
  else if (box (envx envid)).live = false ∨ (box (envx envid)).id ≠ envid then none
  else some (envx envid)

/-- `sys_ipc_recv` with an aligned address, up to `sched_yield`. -/
def Box.block (b : Box) (dstva : Word) : Box :=
  { b with dstva := if dstva < utop then dstva else b.dstva, recving := true, sender := 0 }

def Box.deliver (b : Box) (sender value perm : Word) : Box :=
  { b with recving := false, sender := sender, value := value, perm := perm }

/-- `sys_ipc_try_send`: the result, and the receiver with its new fields if the message is
delivered.  `page` is the result of the checks of the page and of `page_insert`. -/
def trySend (box : Nat → Box) (cur : Nat) (envid value srcva perm page : Word) :
    Word × Option (Nat × Box) :=
  match findEnv box cur envid with
  | none => (-eBadEnv, none)
  | some dst =>
    if (box dst).recving = false ∨ (box dst).sender ≠ 0 then (-eIpcNotRecv, none)
    else if srcva < utop then
      if isNeg page then (page, none)
      else (0, some (dst, (box dst).deliver (box cur).id value
        (if (box dst).dstva ≠ 0 then perm else 0)))
    else (0, some (dst, (box dst).deliver (box cur).id value 0))

/-- What a message is: the request of the `n`-th `fsipc` of environment `e`, the reply of the
server to a request, if it was one, or any other message. -/
inductive Kind where
  | other
  | request (e n : Nat)
  | answer (req : Option (Nat × Nat))
  deriving DecidableEq

/-- `perm` is 0 if no page was mapped for the receiver. -/
structure Message where
  sender : Nat
  kind : Kind
  value : Word
  perm : Word
  deriving DecidableEq

inductive Pc where
  | out
  /-- In `ipc_send`. -/
  | send (n : Nat) (type dstva : Word)
  /-- Before `sys_ipc_recv`. -/
  | recv (n : Nat) (dstva : Word)
  /-- In `sys_ipc_recv`. -/
  | wait (n : Nat)
  | panicked
  deriving DecidableEq

inductive Srv where
  /-- Before `sys_ipc_recv`. -/
  | recv
  /-- In `sys_ipc_recv`. -/
  | wait
  /-- In `ipc_send`, for the request `req`. -/
  | reply (req : Option (Nat × Nat)) (whom value pg perm : Word)
  | panicked
  deriving DecidableEq

/-- The `n`-th `fsipc` of environment `env` has returned `value`, with a page mapped unless `perm`
is 0, on account of the message `message`. -/
structure Return where
  env : Nat
  n : Nat
  value : Word
  perm : Word
  message : Message

/-- `mail` is the last message that each environment got, `count` the number of its calls of
`fsipc`. -/
structure State where
  box : Nat → Box
  pc : Nat → Pc
  srv : Srv
  mail : Nat → Message
  count : Nat → Nat
  returned : List Return

namespace State

def setPc (s : State) (e : Nat) (pc : Pc) : State := { s with pc := update s.pc e pc }

def setBox (s : State) (e : Nat) (b : Box) : State := { s with box := update s.box e b }

def sent (s : State) (cur : Nat) (kind : Kind) (value : Word) : Option (Nat × Box) → State
  | none => s
  | some (dst, b) =>
    { s.setBox dst b with mail := update s.mail dst ⟨cur, kind, value, b.perm⟩ }

end State

def fsreq : Word := 0x0FFFF000

def asked (m : Message) : Option (Nat × Nat) :=
  match m.kind with
  | .request e n => some (e, n)
  | _ => none

structure Runs (fs : Nat) (s : State) (e : Nat) : Prop where
  other : e ≠ fs
  live : (s.box e).live = true
  running : (s.box e).recving = false

/-- The steps of all environments, with the sender and the receiver of a message that is
delivered.  `fs` is the slot of the server and `fsid` its `env_id`. -/
inductive Step (fs : Nat) (fsid : Word) (s : State) : Option (Nat × Nat) → State → Prop
  /-- Outside `fsipc` an environment receives and sends what it likes. -/
  | recv (e : Nat) (dstva : Word) (hrun : Runs fs s e) (hpc : s.pc e = .out) :
      Step fs fsid s none (s.setBox e ((s.box e).block dstva))
  | send {r : Word} {o : Option (Nat × Box)} (e : Nat) (envid value srcva perm page : Word)
      (hrun : Runs fs s e) (hpc : s.pc e = .out)
      (hsend : trySend s.box e envid value srcva perm page = (r, o)) :
      Step fs fsid s (o.map fun x => (e, x.1)) (s.sent e .other value o)
  /-- `fsipc(type, dstva)`, with a page address or 0. -/
  | call (e : Nat) (type dstva : Word) (hrun : Runs fs s e) (hpc : s.pc e = .out)
      (hdstva : pgoff dstva = 0) :
      Step fs fsid s none { s.setPc e (.send (s.count e) type dstva) with
        count := update s.count e (s.count e + 1) }
  | request {r : Word} {o : Option (Nat × Box)} {n : Nat} {type dstva : Word} (e : Nat)
      (fsipcbuf page : Word) (hrun : Runs fs s e) (hpc : s.pc e = .send n type dstva)
      (hbuf : fsipcbuf < utop)
      (hsend : trySend s.box e fsid type fsipcbuf (pteP ||| pteW ||| pteU) page = (r, o)) :
      Step fs fsid s (o.map fun x => (e, x.1)) ((s.sent e (.request e n) type o).setPc e
        (if r = 0 then .recv n dstva else if r = -eIpcNotRecv then .send n type dstva
          else .panicked))
  | block {n : Nat} {dstva : Word} (e : Nat) (hrun : Runs fs s e) (hpc : s.pc e = .recv n dstva) :
      Step fs fsid s none ((s.setBox e ((s.box e).block (if dstva = 0 then utop else dstva))).setPc
        e
        (.wait n))
  | ret {n : Nat} (e : Nat) (hrun : Runs fs s e) (hpc : s.pc e = .wait n) :
      Step fs fsid s none { s.setPc e .out with
        returned := ⟨e, n, (s.box e).value, (s.box e).perm, s.mail e⟩ :: s.returned }
  | serverRecv (hsrv : s.srv = .recv) :
      Step fs fsid s none { s.setBox fs ((s.box fs).block fsreq) with srv := .wait }
  /-- A request without a page is dropped; otherwise the handler computes a reply. -/
  | serverGet (value pg perm : Word) (hsrv : s.srv = .wait) (hrun : (s.box fs).recving = false) :
      Step fs fsid s none { s with
        srv := (if (s.box fs).perm &&& pteP = 0 then .recv
          else .reply (asked (s.mail fs)) (s.box fs).sender value pg perm) }
  | serverReply {req : Option (Nat × Nat)} {whom value pg perm r : Word} {o : Option (Nat × Box)}
      (page : Word) (hsrv : s.srv = .reply req whom value pg perm)
      (hsend : trySend s.box fs whom value (if pg = 0 then utop else pg) perm page = (r, o)) :
      Step fs fsid s (o.map fun x => (fs, x.1)) { s.sent fs (.answer req) value o with
        srv := (if r = 0 then .recv else if r = -eIpcNotRecv then s.srv else .panicked) }

/-- A step in which no message from another environment than the server arrives at an
environment that waits in `fsipc`. -/
def CalmStep (fs : Nat) (fsid : Word) (s s' : State) : Prop :=
  ∃ d, Step fs fsid s d s' ∧ ∀ a b n, d = some (a, b) → s.pc b = .wait n → a = fs

/-- No `fsipc` is under way, and the server is at the start of its loop. -/
structure Start (fs : Nat) (fsid : Word) (s : State) : Prop where
  named : ∀ e, (s.box e).live = true → envx (s.box e).id = e ∧ (s.box e).id ≠ 0
  server : (s.box fs).live = true ∧ (s.box fs).id = fsid
  recving : (s.box fs).recving = false
  pc : ∀ e, s.pc e = .out
  srv : s.srv = .recv
  returned : s.returned = []

/-- A call has returned what the server sent in answer to its request. -/
structure Matches (fs : Nat) (r : Return) : Prop where
  sender : r.message.sender = fs
  answer : r.message.kind = .answer (some (r.env, r.n))
  value : r.value = r.message.value
  perm : r.perm = r.message.perm

section Kernel

variable {k k' : Kernel} {cur : Nat} {r envid value srcva perm dstva : Word}

def boxes (k : Kernel) (e : Nat) : Box where
  id := (k.envs e).envId
  live := decide ((k.envs e).envStatus ≠ .free)
  recving := (k.envs e).envIpcRecving
  dstva := (k.envs e).envIpcDstva
  value := (k.envs e).envIpcValue
  sender := (k.envs e).envIpcFrom
  perm := (k.envs e).envIpcPerm

theorem findEnv_boxes : findEnv (boxes k) cur envid = envid2env cur envid false k := by
  simp only [findEnv, envid2env, boxes, decide_eq_false_iff_not, not_not, ne_eq, Bool.false_eq_true,
    false_and, if_false]

theorem ipcRecvBlock_boxes (hlive : (k.envs cur).envStatus ≠ .free)
    (h : ipcRecvBlock cur dstva k = some k') :
    boxes k' = update (boxes k) cur ((boxes k cur).block dstva) := by
  rw [ipcRecvBlock] at h
  split at h
  · cases h
  cases h
  funext e
  by_cases he : e = cur
  · subst he
    rw [update_self]
    simp [boxes, Box.block, Kernel.setEnv_envs_self, hlive]
  · rw [update_of_ne he]
    simp [boxes, Kernel.setEnv_envs_of_ne he]

theorem ipcDeliver_boxes {dst : Nat} {m : Kern.Pmap.Mem} (hlive : (k.envs dst).envStatus ≠ .free) :
    boxes (ipcDeliver cur dst value perm { k with mem := m }) =
      update (boxes k) dst ((boxes k dst).deliver (boxes k cur).id value perm) := by
  funext e
  by_cases he : e = dst
  · subst he
    rw [update_self]
    simp [boxes, Box.deliver, ipcDeliver, Kernel.setEnv_envs_self, hlive]
  · rw [update_of_ne he]
    simp [boxes, ipcDeliver, Kernel.setEnv_envs_of_ne he]

def delivered (box : Nat → Box) : Option (Nat × Box) → Nat → Box
  | none => box
  | some (dst, b) => update box dst b

theorem sysIpcTrySend_boxes (hlive : (k.envs cur).envStatus ≠ .free)
    (h : sysIpcTrySend cur envid value srcva perm k = .ret r k') :
    ∃ page o, trySend (boxes k) cur envid value srcva perm page = (r, o) ∧
      boxes k' = delivered (boxes k) o := by
  simp only [trySend, findEnv_boxes]
  unfold sysIpcTrySend at h
  cases hdst : envid2env cur envid false k with
  | none =>
    rw [hdst] at h
    cases h
    exact ⟨0, none, rfl, rfl⟩
  | some dst =>
    simp only [hdst] at h
    have hdstlive := Kern.EnvFreeList.envid2env_ne_free hlive hdst
    by_cases hbusy : (k.envs dst).envIpcRecving = false ∨ (k.envs dst).envIpcFrom ≠ 0
    · rw [if_pos hbusy] at h
      cases h
      exact ⟨0, none, if_pos hbusy, rfl⟩
    rw [if_neg hbusy] at h
    by_cases hpage : srcva < utop
    · rw [if_pos hpage] at h
      obtain ⟨hneg, m, rfl⟩ | ⟨rfl, m, rfl⟩ : (isNeg r ∧ ∃ m, k' = { k with mem := m }) ∨
          (r = 0 ∧ ∃ m, k' = ipcDeliver cur dst value
            (if (k.envs dst).envIpcDstva ≠ 0 then perm else 0) { k with mem := m }) := by
        repeat' split at h
        all_goals first
          | cases h; exact .inl ⟨by decide, _, rfl⟩
          | cases h; exact .inl ⟨by assumption, _, rfl⟩
          | cases h; exact .inr ⟨rfl, _, by rw [if_pos (by assumption)]⟩
          | cases h; exact .inr ⟨rfl, k.mem, by rw [if_neg (by assumption)]⟩
          | cases h
      · exact ⟨r, none, (if_neg hbusy).trans ((if_pos hpage).trans (if_pos hneg)), rfl⟩
      · exact ⟨0, _, (if_neg hbusy).trans ((if_pos hpage).trans (if_neg (by decide))),
          ipcDeliver_boxes hdstlive⟩
    · rw [if_neg hpage] at h
      cases h
      exact ⟨0, _, (if_neg hbusy).trans (if_neg hpage), ipcDeliver_boxes (m := k.mem) hdstlive⟩

/-- The kernel's calls act on the boxes as the steps of `fsipc` and of the server do. -/
theorem ipcCalls_boxes (hlive : (k.envs cur).envStatus ≠ .free) :
    (∀ envid value srcva perm r k', sysIpcTrySend cur envid value srcva perm k = .ret r k' →
      ∃ page o, trySend (boxes k) cur envid value srcva perm page = (r, o) ∧
        boxes k' = delivered (boxes k) o) ∧
    ∀ dstva k', ipcRecvBlock cur dstva k = some k' →
      boxes k' = update (boxes k) cur ((boxes k cur).block dstva) :=
  ⟨fun _ _ _ _ _ _ => sysIpcTrySend_boxes hlive, fun _ _ => ipcRecvBlock_boxes hlive⟩

/-- Environment 0 receives, and environment 1 sends to it. -/
theorem ipcCalls_boxes_pair : ∃ k k1 k2 : Kernel, ipcRecvBlock 0 utop k = some k1 ∧
    sysIpcTrySend 1 0x1000 42 utop 0 k1 = .ret 0 k2 ∧
    boxes k1 = update (boxes k) 0 ((boxes k 0).block utop) ∧
    ∃ page o, trySend (boxes k1) 1 0x1000 42 utop 0 page = (0, o) ∧
      boxes k2 = delivered (boxes k1) o := by
  have hrecv : ipcRecvBlock 0 utop { Kern.EnvFreeList.littered with envs := fun e =>
      { Kern.Boot.zeroEnv with envId := 0x1000 + e, envStatus := .running } } = some _ := rfl
  exact ⟨_, _, _, hrecv, rfl, (ipcCalls_boxes (by decide)).2 _ _ hrecv,
    (ipcCalls_boxes (by decide)).1 _ _ _ _ _ _ rfl⟩

end Kernel

end Mit6828.Lib.Fsipc
