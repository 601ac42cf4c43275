import Mit6828.Lib.Fsipc

namespace Mit6828.Lib.FsipcSpec

open Kern.Mmu Kern.Environment Fsipc Function

def Asks (s : State) (e n : Nat) : Prop := (∃ dstva, s.pc e = .recv n dstva) ∨ s.pc e = .wait n

/-- The message that an environment waiting in its `n`-th call has got is the answer to it. -/
structure Answered (fs : Nat) (m : Message) (b : Box) (e n : Nat) : Prop where
  sender : m.sender = fs
  answer : m.kind = .answer (some (e, n))
  value : b.value = m.value
  perm : b.perm = m.perm

structure Inv (fs : Nat) (fsid : Word) (s : State) : Prop where
  named : ∀ e, (s.box e).live = true → envx (s.box e).id = e ∧ (s.box e).id ≠ 0
  server : (s.box fs).live = true ∧ (s.box fs).id = fsid
  live : ∀ e, s.pc e ≠ .out → (s.box e).live = true
  idle : s.srv ≠ .wait → (s.box fs).recving = false
  /-- A message from an environment that asks is its request. -/
  taken : s.srv = .wait → (s.box fs).recving = false → ∀ e n, Asks s e n →
    (s.box e).id = (s.box fs).sender → (s.mail fs).kind = .request e n
  reply : ∀ {req whom value pg perm}, s.srv = .reply req whom value pg perm → ∀ e n, Asks s e n →
    (s.box e).id = whom → req = some (e, n)
  came : ∀ e n, s.pc e = .wait n → (s.box e).recving = false → Answered fs (s.mail e) (s.box e) e n
  returned : ∀ r ∈ s.returned, Matches fs r

variable {fs e dst n cur x : Nat} {fsid envid value srcva perm page r dstva pg : Word}
  {s s' : State} {o : Option (Nat × Box)} {box : Nat → Box} {b : Box} {pc : Pc}

namespace State

theorem setBox_self : (s.setBox e b).box e = b := update_self _ _ _

theorem setBox_of_ne (hne : x ≠ e) : (s.setBox e b).box x = s.box x :=
  update_of_ne hne _ _

theorem setBox_same (hid : b.id = (s.box e).id) (hlive : b.live = (s.box e).live) (x : Nat) :
    ((s.setBox e b).box x).id = (s.box x).id ∧ ((s.setBox e b).box x).live = (s.box x).live := by
  by_cases hx : x = e
  · rw [hx, setBox_self]
    exact ⟨hid, hlive⟩
  · rw [setBox_of_ne hx]
    exact ⟨rfl, rfl⟩

theorem setPc_self : (s.setPc e pc).pc e = pc := update_self _ _ _

theorem setPc_of_ne (hne : x ≠ e) : (s.setPc e pc).pc x = s.pc x :=
  update_of_ne hne _ _

end State

theorem trySend_cases
    (h : trySend box cur envid value srcva perm page = (r, o)) : (o = none ∧ r ≠ 0) ∨
      ∃ dst p, r = 0 ∧ o = some (dst, (box dst).deliver (box cur).id value p) ∧
        findEnv box cur envid = some dst ∧ (box dst).recving = true := by
  rw [trySend] at h
  split at h
  · cases h
    exact .inl ⟨rfl, by decide⟩
  rename_i dst hdst
  split at h
  · cases h
    exact .inl ⟨rfl, by decide⟩
  rename_i hopen
  push Not at hopen
  have hrecving : (box dst).recving = true := by simpa using hopen.1
  split at h
  · split at h
    · rename_i hneg
      cases h
      refine .inl ⟨rfl, ?_⟩
      rintro rfl
      exact absurd hneg (by decide)
    · cases h
      exact .inr ⟨dst, _, rfl, rfl, hdst, hrecving⟩
  · cases h
    exact .inr ⟨dst, 0, rfl, rfl, hdst, hrecving⟩

theorem findEnv_eq_some (hne : envid ≠ 0) (h : findEnv box cur envid = some dst) :
    envx envid = dst ∧ (box dst).id = envid := by
  rw [findEnv, if_neg hne] at h
  split at h
  · cases h
  · rename_i hid
    push Not at hid
    cases h
    exact ⟨rfl, hid.2⟩

theorem inv_start (h : Start fs fsid s) : Inv fs fsid s where
  named := h.named
  server := h.server
  live := fun e hpc => absurd (h.pc e) hpc
  idle := fun _ => h.recving
  taken := by simp [h.srv]
  reply := by simp [h.srv]
  came := by simp [h.pc]
  returned := by simp [h.returned]

theorem Inv.id_inj {e' : Nat} (h : Inv fs fsid s) (he : (s.box e).live = true)
    (he' : (s.box e').live = true) (hid : (s.box e).id = (s.box e').id) : e = e' := by
  rw [← (h.named e he).1, ← (h.named e' he').1, hid]

theorem Inv.asks_live (h : Inv fs fsid s) (hasks : Asks s e n) : (s.box e).live = true := by
  apply h.live
  rcases hasks with ⟨dstva, hpc⟩ | hpc <;> simp [hpc]

def posted (s : State) (dst : Nat) (b : Box) (m : Message) : State :=
  { s.setBox dst b with mail := update s.mail dst m }

section

variable (h : Inv fs fsid s)
include h

theorem Inv.post {m : Message} (hid : b.id = (s.box dst).id) (hlive : b.live = (s.box dst).live)
    (hcame : ∀ n, s.pc dst = .wait n → b.recving = false → Answered fs m b dst n)
    (hfs : dst = fs → s.srv = .wait ∧ ∀ x n, Asks s x n → (s.box x).id = b.sender →
      m.kind = .request x n) : Inv fs fsid (posted s dst b m) := by
  have hself : (posted s dst b m).box dst = b := State.setBox_self
  have hother : ∀ x, x ≠ dst → (posted s dst b m).box x = s.box x ∧
      (posted s dst b m).mail x = s.mail x := fun x hx =>
    ⟨State.setBox_of_ne hx, update_of_ne hx _ _⟩
  have hmail : (posted s dst b m).mail dst = m := update_self _ _ _
  have hids : ∀ x, ((posted s dst b m).box x).id = (s.box x).id ∧
      ((posted s dst b m).box x).live = (s.box x).live := State.setBox_same hid hlive
  refine ⟨?_, ?_, ?_, ?_, ?_, ?_, ?_, h.returned⟩
  · intro x hx
    rw [(hids x).2] at hx
    rw [(hids x).1]
    exact h.named x hx
  · rw [(hids fs).1, (hids fs).2]
    exact h.server
  · intro x hx
    rw [(hids x).2]
    exact h.live x hx
  · intro hsrv
    have hne : fs ≠ dst := fun heq => hsrv (hfs heq.symm).1
    rw [(hother fs hne).1]
    exact h.idle hsrv
  · intro hsrv hrecving x n hasks hx
    rw [(hids x).1] at hx
    by_cases heq : fs = dst
    · subst heq
      rw [hself] at hx
      rw [hmail]
      exact (hfs rfl).2 x n hasks hx
    · rw [(hother fs heq).1] at hx hrecving
      rw [(hother fs heq).2]
      exact h.taken hsrv hrecving x n hasks hx
  · intro req whom value pg perm hsrv x n hasks hx
    rw [(hids x).1] at hx
    exact h.reply hsrv x n hasks hx
  · intro x n hpc hrecving
    by_cases hx : x = dst
    · subst hx
      rw [hself] at hrecving ⊢
      rw [hmail]
      exact hcame n hpc hrecving
    · rw [(hother x hx).1] at hrecving ⊢
      rw [(hother x hx).2]
      exact h.came x n hpc hrecving

theorem Inv.block (hne : e ≠ fs) : Inv fs fsid (s.setBox e ((s.box e).block dstva)) := by
  have hpost : Inv fs fsid (posted s e ((s.box e).block dstva) (s.mail e)) := h.post rfl rfl
    (fun n _ hrecving => absurd hrecving (by simp [Box.block])) (fun heq => absurd heq hne)
  rwa [posted, update_eq_self] at hpost

theorem Inv.setPc (hlive : (s.box e).live = true)
    (hasks : (∀ n, Asks (s.setPc e pc) e n → Asks s e n) ∨
      s.srv = .wait ∧ (s.box fs).recving = true)
    (hwait : ∀ n, pc = .wait n → (s.box e).recving = true) : Inv fs fsid (s.setPc e pc) := by
  have hask : ∀ x n, Asks (s.setPc e pc) x n → Asks s x n ∨
      s.srv = .wait ∧ (s.box fs).recving = true := by
    intro x n hx
    by_cases hxe : x = e
    · subst hxe
      exact hasks.imp (fun himp => himp n hx) id
    · rw [Asks, State.setPc_of_ne hxe] at hx
      exact .inl hx
  refine ⟨h.named, h.server, ?_, h.idle, ?_, ?_, ?_, h.returned⟩
  · intro x hx
    by_cases hxe : x = e
    · subst hxe
      exact hlive
    · rw [State.setPc_of_ne hxe] at hx
      exact h.live x hx
  · intro hsrv hrecving x n hx hid
    rcases hask x n hx with hbefore | ⟨-, hready⟩
    · exact h.taken hsrv hrecving x n hbefore hid
    · rw [show (s.box fs).recving = false from hrecving] at hready
      cases hready
  · intro req whom value pg perm hsrv x n hx hid
    rcases hask x n hx with hbefore | ⟨hready, -⟩
    · exact h.reply hsrv x n hbefore hid
    · rw [show s.srv = _ from hsrv] at hready
      cases hready
  · intro x n hpc hrecving
    by_cases hxe : x = e
    · subst hxe
      rw [State.setPc_self] at hpc
      rw [show ((s.setPc x pc).box x).recving = _ from hwait n hpc] at hrecving
      cases hrecving
    · rw [State.setPc_of_ne hxe] at hpc
      exact h.came x n hpc hrecving

theorem Inv.leave (hlive : (s.box e).live = true)
    (hpc : ∀ n dstva, pc ≠ .recv n dstva ∧ pc ≠ .wait n) : Inv fs fsid (s.setPc e pc) := by
  refine h.setPc hlive (.inl fun n hasks => ?_) fun n hn => absurd hn (hpc n 0).2
  rw [Asks, State.setPc_self] at hasks
  rcases hasks with ⟨dstva, heq⟩ | heq
  · exact absurd heq (hpc n dstva).1
  · exact absurd heq (hpc n 0).2

theorem inv_send (hrun : Runs fs s e) (hpc : s.pc e = .out)
    (hsend : trySend s.box e envid value srcva perm page = (r, o))
    (hcalm : ∀ a b n, o.map (fun x => (e, x.1)) = some (a, b) → s.pc b = .wait n → a = fs) :
    Inv fs fsid (s.sent e .other value o) := by
  obtain ⟨rfl, -⟩ | ⟨dst, p, -, rfl, -, hrecving⟩ := trySend_cases hsend
  · exact h
  change Inv fs fsid (posted s dst ((s.box dst).deliver (s.box e).id value p) ⟨e, .other, value, p⟩)
  refine h.post rfl rfl (fun n hn _ => ?_) fun heq => ⟨?_, fun x n hx hid => ?_⟩
  · exact absurd (hcalm e dst n rfl hn) hrun.other
  · subst heq
    by_contra hsrv
    rw [h.idle hsrv] at hrecving
    cases hrecving
  · -- the sender is outside `fsipc`
    have hxe : x = e := h.id_inj (h.asks_live hx) hrun.live hid
    subst hxe
    rcases hx with ⟨dstva, heq⟩ | heq <;> simp [hpc] at heq

theorem inv_request {type fsipcbuf : Word} (hrun : Runs fs s e) (hpc : s.pc e = .send n type dstva)
    (hsend : trySend s.box e fsid type fsipcbuf (pteP ||| pteW ||| pteU) page = (r, o))
    (hcalm : ∀ a b n, o.map (fun x => (e, x.1)) = some (a, b) → s.pc b = .wait n → a = fs) :
    Inv fs fsid ((s.sent e (.request e n) type o).setPc e
      (if r = 0 then .recv n dstva else if r = -eIpcNotRecv then .send n type dstva
        else .panicked)) := by
  obtain ⟨rfl, hr⟩ | ⟨dst, p, rfl, rfl, hdst, hrecving⟩ := trySend_cases hsend
  · rw [if_neg hr]
    refine h.leave hrun.live fun m d => ?_
    split <;> simp
  have hfsid : fsid ≠ 0 := by
    rw [← h.server.2]
    exact (h.named fs h.server.1).2
  have hdfs : dst = fs := by
    rw [← (findEnv_eq_some hfsid hdst).1, ← h.server.2]
    exact (h.named fs h.server.1).1
  subst hdfs
  have hsrv : s.srv = .wait := by
    by_contra hsrv
    rw [h.idle hsrv] at hrecving
    cases hrecving
  have hasks : Inv dst fsid (s.setPc e (.recv n dstva)) :=
    h.setPc hrun.live (.inr ⟨hsrv, hrecving⟩) (by simp)
  have hpost : Inv dst fsid (posted (s.setPc e (.recv n dstva)) dst
      ((s.box dst).deliver (s.box e).id type p) ⟨e, .request e n, type, p⟩) :=
    hasks.post rfl rfl (fun n' hn _ => ?_) fun _ => ⟨hsrv, fun x n' hx hid => ?_⟩
  · exact hpost
  · rw [State.setPc_of_ne (Ne.symm hrun.other)] at hn
    exact absurd (hcalm e dst n' rfl hn) hrun.other
  · have hxe : x = e := h.id_inj (hasks.asks_live hx) hrun.live hid
    subst hxe
    rw [Asks, State.setPc_self] at hx
    rcases hx with ⟨d, heq⟩ | heq
    · cases heq
      rfl
    · cases heq

theorem inv_ret (hrun : Runs fs s e) (hpc : s.pc e = .wait n) : Inv fs fsid { s.setPc e .out with
      returned := ⟨e, n, (s.box e).value, (s.box e).perm, s.mail e⟩ :: s.returned } := by
  have hout : Inv fs fsid (s.setPc e .out) := h.leave hrun.live (by simp)
  have hcame := h.came e n hpc hrun.running
  exact { hout with returned := List.forall_mem_cons.mpr ⟨{ hcame with }, h.returned⟩ }

theorem inv_serverRecv :
    Inv fs fsid { s.setBox fs ((s.box fs).block fsreq) with srv := .wait } := by
  have hids := State.setBox_same (s := s) (e := fs) (b := (s.box fs).block fsreq) rfl rfl
  have hrecving : ((s.setBox fs ((s.box fs).block fsreq)).box fs).recving = true := by
    rw [State.setBox_self]
    rfl
  refine ⟨fun x hx => ?_, ?_, fun x hx => ?_, fun hsrv => absurd rfl hsrv, fun _ hfalse => ?_,
    (fun hreply => by cases hreply), fun x n hpc hfalse => ?_, h.returned⟩
  · dsimp only at hx ⊢
    rw [(hids x).2] at hx
    rw [(hids x).1]
    exact h.named x hx
  · dsimp only
    rw [(hids fs).1, (hids fs).2]
    exact h.server
  · dsimp only at hx ⊢
    rw [(hids x).2]
    exact h.live x hx
  · rw [show _ = false from hfalse] at hrecving
    cases hrecving
  · have hx : x ≠ fs := by
      rintro rfl
      rw [show _ = false from hfalse] at hrecving
      cases hrecving
    have hbox : (s.setBox fs ((s.box fs).block fsreq)).box x = s.box x := State.setBox_of_ne hx
    dsimp only at hfalse ⊢
    rw [hbox] at hfalse ⊢
    exact h.came x n hpc hfalse

theorem Inv.setSrv {srv : Srv} (hrun : (s.box fs).recving = false)
    (hwait : srv ≠ .wait) (hreply : ∀ req whom value pg perm, srv = .reply req whom value pg perm →
      ∀ e n, Asks s e n → (s.box e).id = whom → req = some (e, n)) :
    Inv fs fsid { s with srv := srv } :=
  { h with
    idle := fun _ => hrun
    taken := fun heq => absurd heq hwait
    reply := fun heq => hreply _ _ _ _ _ heq }

theorem inv_serverGet (hsrv : s.srv = .wait)
    (hrun : (s.box fs).recving = false) : Inv fs fsid { s with
      srv := (if (s.box fs).perm &&& pteP = 0 then .recv
        else .reply (asked (s.mail fs)) (s.box fs).sender value pg perm) } := by
  apply h.setSrv hrun
  · split <;> simp
  intro req whom value pg perm hreply x n hx hid
  split at hreply
  · cases hreply
  · cases hreply
    rw [asked, h.taken hsrv hrun x n hx hid]

theorem inv_serverReply {req : Option (Nat × Nat)} {whom : Word}
    (hsrv : s.srv = .reply req whom value pg perm)
    (hsend : trySend s.box fs whom value (if pg = 0 then utop else pg) perm page = (r, o)) :
    Inv fs fsid { s.sent fs (.answer req) value o with
      srv := (if r = 0 then .recv else if r = -eIpcNotRecv then s.srv else .panicked) } := by
  have hrun : (s.box fs).recving = false := h.idle (by simp [hsrv])
  obtain ⟨rfl, hr⟩ | ⟨dst, p, rfl, rfl, hdst, hrecving⟩ := trySend_cases hsend
  · rw [if_neg hr]
    apply h.setSrv hrun
    · split <;> simp [hsrv]
    · intro req' whom' value' pg' perm' hreply
      split at hreply
      · exact h.reply hreply
      · cases hreply
  have hne : dst ≠ fs := by
    rintro rfl
    rw [hrun] at hrecving
    cases hrecving
  have hwhom : whom ≠ 0 := by
    rintro rfl
    rw [findEnv, if_pos rfl] at hdst
    exact hne (Option.some.inj hdst).symm
  have hpost : Inv fs fsid (posted s dst ((s.box dst).deliver (s.box fs).id value p)
      ⟨fs, .answer req, value, p⟩) := h.post rfl rfl
    (fun n hn _ => ⟨rfl, by rw [h.reply hsrv dst n (.inr hn) (findEnv_eq_some hwhom hdst).2],
      rfl, rfl⟩) (fun heq => absurd heq hne)
  refine hpost.setSrv ?_ (by simp) (by simp)
  rw [show (posted s dst _ _).box fs = s.box fs from State.setBox_of_ne (Ne.symm hne)]
  exact hrun

theorem inv_step (hstep : CalmStep fs fsid s s') : Inv fs fsid s' := by
  obtain ⟨d, hstep, hcalm⟩ := hstep
  cases hstep with
  | recv e dstva hrun hpc => exact h.block hrun.other
  | send e envid value srcva perm page hrun hpc hsend => exact inv_send h hrun hpc hsend hcalm
  | call e type dstva hrun hpc hdstva =>
    have hleave : Inv fs fsid (s.setPc e (.send (s.count e) type dstva)) :=
      h.leave hrun.live (by simp)
    exact { hleave with }
  | request e fsipcbuf page hrun hpc hbuf hsend => exact inv_request h hrun hpc hsend hcalm
  | @block n dstva e hrun hpc =>
    refine (h.block hrun.other).setPc ?_ (.inl fun m hasks => ?_) fun _ _ => ?_
    · rw [State.setBox_self]
      exact hrun.live
    · rw [Asks, State.setPc_self] at hasks
      rcases hasks with ⟨d, heq⟩ | heq
      · cases heq
      · cases heq
        exact .inl ⟨dstva, hpc⟩
    · rw [State.setBox_self]
      rfl
  | ret e hrun hpc => exact inv_ret h hrun hpc
  | serverRecv hsrv => exact inv_serverRecv h
  | serverGet value pg perm hsrv hrun => exact inv_serverGet h hsrv hrun
  | serverReply page hsrv hsend => exact inv_serverReply h hsrv hsend

end

/-- If every message that arrives at an environment waiting in `fsipc` comes from the file server,
then each call returns the value and the page that the server sent in answer to its request. -/
theorem fsipc_returns_answer {s0 : State} (h0 : Start fs fsid s0)
    (hrun : Relation.ReflTransGen (CalmStep fs fsid) s0 s) : ∀ r ∈ s.returned, Matches fs r := by
  have hinv : Inv fs fsid s := by
    induction hrun with
    | refl => exact inv_start h0
    | tail _ hstep ih => exact inv_step ih hstep
  exact hinv.returned

/-- The file server, a client and a third environment, in slots 0, 1 and 2. -/
def three : State where
  box := fun e => ⟨if e < 3 then 4096 + BitVec.ofNat 32 e else 0, decide (e < 3), false, 0, 0, 0, 0⟩
  pc := fun _ => .out
  srv := .recv
  mail := fun _ => ⟨0, .other, 0, 0⟩
  count := fun _ => 0
  returned := []

theorem three_start : Start 0 4096 three where
  named := by
    intro e he
    have hlt : e < 3 := by simpa [three] using he
    have : e = 0 ∨ e = 1 ∨ e = 2 := by omega
    rcases this with rfl | rfl | rfl <;> decide
  server := by decide
  recving := rfl
  pc := fun _ => rfl
  srv := rfl
  returned := rfl

def ready : State := { three.setBox 0 ((three.box 0).block fsreq) with srv := .wait }

def called : State :=
  { ready.setPc 1 (.send 0 5 0) with count := update ready.count 1 1 }

def requested : State :=
  (called.sent 1 (.request 1 0) 5 (some (0, (called.box 0).deliver 4097 5 7))).setPc 1 (.recv 0 0)

def waiting : State :=
  (requested.setBox 1 ((requested.box 1).block utop)).setPc 1 (.wait 0)

theorem three_waits : Relation.ReflTransGen (CalmStep 0 4096) three waiting := by
  have hready : CalmStep 0 4096 three ready := ⟨none, .serverRecv rfl, by simp⟩
  have hcall : CalmStep 0 4096 ready called :=
    ⟨none, .call 1 5 0 ⟨Nat.one_ne_zero, rfl, rfl⟩ rfl rfl, by simp⟩
  have hrequest : CalmStep 0 4096 called requested := by
    refine ⟨some (1, 0), @Step.request 0 4096 called 0 _ 0 5 0 1 0x806000 0
      ⟨Nat.one_ne_zero, rfl, rfl⟩ rfl (by decide) rfl, ?_⟩
    rintro a b n ⟨⟩ hwait
    cases hwait
  have hblock : CalmStep 0 4096 requested waiting :=
    ⟨none, @Step.block 0 4096 requested 0 0 1 ⟨Nat.one_ne_zero, rfl, rfl⟩ rfl, by simp⟩
  exact (((Relation.ReflTransGen.single hready).tail hcall).tail hrequest).tail hblock

/-- The server answers 0. -/
theorem fsipc_returns_answer_three : ∃ s, Relation.ReflTransGen (CalmStep 0 4096) three s ∧
    s.returned = [⟨1, 0, 0, 0, ⟨0, .answer (some (1, 0)), 0, 0⟩⟩] ∧
    ∀ r ∈ s.returned, Matches 0 r := by
  have hreply : CalmStep 0 4096 { waiting with srv := .reply (some (1, 0)) 4097 0 0 7 } _ :=
    ⟨_, .serverReply 0 rfl rfl, fun a b n hd _ => by cases hd; rfl⟩
  have hrun := ((three_waits.tail ⟨none, .serverGet 0 0 7 rfl rfl, by simp⟩).tail hreply).tail
    ⟨none, .ret 1 ⟨by decide, rfl, rfl⟩ rfl, by simp⟩
  exact ⟨_, hrun, rfl, fsipc_returns_answer three_start hrun⟩

/-- While the client waits, the third environment sends it the number 42, which its `fsipc`
returns. -/
theorem fsipc_returns_other : Start 0 4096 three ∧
    ∃ s, Relation.ReflTransGen (fun s s' => ∃ d, Step 0 4096 s d s') three s ∧
      ∃ r ∈ s.returned, r.env = 1 ∧ r.value = 42 ∧ r.message.sender = 2 ∧ ¬ Matches 0 r := by
  have hwaits : Relation.ReflTransGen (fun s s' => ∃ d, Step 0 4096 s d s') three waiting :=
    Relation.ReflTransGen.mono (fun _ _ hstep => ⟨_, hstep.choose_spec.1⟩) _ _ three_waits
  refine ⟨three_start, _, (hwaits.tail
    ⟨_, .send 2 4097 42 utop 0 0 ⟨by decide, rfl, rfl⟩ rfl rfl⟩).tail
    ⟨none, .ret 1 ⟨by decide, rfl, rfl⟩ rfl⟩, _, List.mem_cons_self, rfl, rfl, rfl,
      fun hmatch => ?_⟩
  exact absurd hmatch.sender (by decide)

end Mit6828.Lib.FsipcSpec
