import Mit6828.User.Httpd
import Mit6828.User.SendFile

namespace Mit6828.User.Descriptors

open SendFile

/-- A request: what `read` stores, the rest of the stack, the results of `malloc`, the file of each
url, and what the socket takes. -/
structure Request where
  received : Option (List Byte)
  rest : List Byte
  mallocUrl : Bool
  mallocVersion : Bool
  file : List Byte → File
  socket : Socket

/-- The open descriptors, and the strings that are not freed. -/
structure Server where
  fds : Finset Nat
  blocks : List Httpd.Target
deriving DecidableEq

namespace Server

def fdAlloc (s : Server) : Option Nat := (List.range 32).find? (· ∉ s.fds)

def close (s : Server) (fd : Nat) : Server := { s with fds := s.fds.erase fd }

end Server

/-- The server after `c`, if `c` returns. -/
def returns (c : HttpM Int) (s : Server) : Option Server :=
  match c.run.run [] with
  | some (.ok _, _) => some s
  | _ => none

/-- `send_file`; the descriptor is closed at `end` only. -/
def sendFile (sock : Socket) (f : File) (s : Server) : Option Server :=
  match if f.opened < 0 then none else s.fdAlloc with
  | none => returns (sendError sock 404) s
  | some fd =>
    let s := { s with fds := insert fd s.fds }
    if f.fstat < 0 then returns (sendError sock 404) s
    else if f.isdir then returns (sendError sock 404) s
    else (returns (SendFile.sendFile sock { f with opened := fd }) s).map (·.close fd)

def handleClient (sock : Nat) (r : Request) (s : Server) : Option Server := do
  let received ← r.received
  match (Httpd.handleClient received r.rest r.mallocUrl r.mallocVersion).2 with
  | .fault => none
  | .badReq => return (← returns (sendError r.socket 400) s).close sock
  | .parsed url _ =>
    let s ← sendFile r.socket (r.file url) { s with blocks := .version :: .url :: s.blocks }
    return { s with blocks := (s.blocks.erase .url).erase .version }.close sock

/-- The loop of `umain` over the requests: `accept` takes the first free descriptor. -/
def umain : List Request → Server → Option Server
  | [], s => some s
  | r :: rs, s => do
    let sock ← s.fdAlloc
    umain rs (← handleClient sock r { s with fds := insert sock s.fds })

def Leaves (s : Server) (f : File) : Prop :=
  0 ≤ f.opened ∧ s.fdAlloc ≠ none ∧ (f.fstat < 0 ∨ f.isdir)

/-- The request is for a file that can be opened and not be sent. -/
def Leaks (r : Request) (s : Server) : Prop :=
  ∃ received url version, r.received = some received ∧ Leaves s (r.file url) ∧
    (Httpd.handleClient received r.rest r.mallocUrl r.mallocVersion).2 = .parsed url version

variable {c : HttpM Int} {s s' : Server} {sock fd : Nat} {so : Socket} {f : File} {r : Request}

theorem eq_of_returns (h : returns c s = some s') : s' = s := by
  unfold returns at h
  split at h
  · exact (Option.some.inj h).symm
  · cases h

theorem notMem_of_fdAlloc (h : s.fdAlloc = some fd) : fd ∉ s.fds := by
  simpa using List.find?_some h

theorem sendFile_eq (h : sendFile so f s = some s') :
    s' = s ∧ ¬ Leaves s f ∨ ∃ fd, fd ∉ s.fds ∧ s' = { s with fds := insert fd s.fds } ∧
      Leaves s f := by
  unfold sendFile at h
  split at h
  · rename_i hnone
    refine .inl ⟨eq_of_returns h, fun ⟨hopen, halloc, _⟩ => halloc ?_⟩
    rwa [if_neg (Int.not_lt.mpr hopen)] at hnone
  rename_i fd hfd
  obtain ⟨hopen, hfd⟩ := Option.ite_none_left_eq_some.mp hfd
  have hnot := notMem_of_fdAlloc hfd
  have hopened : 0 ≤ f.opened ∧ s.fdAlloc ≠ none := ⟨Int.not_lt.mp hopen, by simp [hfd]⟩
  dsimp only at h
  split_ifs at h with hstat hdir
  · exact .inr ⟨fd, hnot, eq_of_returns h, hopened.1, hopened.2, .inl hstat⟩
  · exact .inr ⟨fd, hnot, eq_of_returns h, hopened.1, hopened.2, .inr hdir⟩
  · obtain ⟨s1, hs1, rfl⟩ := Option.map_eq_some_iff.mp h
    rw [eq_of_returns hs1, Server.close, Finset.erase_insert hnot]
    exact .inl ⟨rfl, fun hleaves => hleaves.2.2.elim hstat hdir⟩

theorem handleClient_cases (h : handleClient sock r s = some s') : s' = s.close sock ∧ ¬ Leaks r s ∨
      ∃ fd, fd ∉ s.fds ∧ s' = { s with fds := insert fd s.fds }.close sock ∧ Leaks r s := by
  obtain ⟨received, hreceived, h⟩ := Option.bind_eq_some_iff.mp h
  split at h
  · cases h
  · rename_i hbad
    obtain ⟨s1, hs1, h⟩ := Option.bind_eq_some_iff.mp h
    cases h
    rw [eq_of_returns hs1]
    exact .inl ⟨rfl, by simp [Leaks, hreceived, hbad]⟩
  rename_i url version hparsed
  obtain ⟨s1, hs1, h⟩ := Option.bind_eq_some_iff.mp h
  cases h
  rcases sendFile_eq hs1 with ⟨rfl, hnot⟩ | ⟨fd, hfd, rfl, hleaves⟩
  · refine .inl ⟨by simp [Server.close], ?_⟩
    rintro ⟨_, _, _, heq, hleaves, hurl⟩
    cases hreceived.symm.trans heq
    cases hparsed.symm.trans hurl
    exact hnot hleaves
  · exact .inr ⟨fd, hfd, by simp [Server.close], received, url, version, hreceived, hleaves,
      hparsed⟩

/-- What `handle_client` opened and allocated is released, unless the request was for a directory or
for a file of which `fstat` fails: their descriptor stays open. -/
theorem handleClient_releases_iff (hsock : sock ∈ s.fds) (h : handleClient sock r s = some s') :
    s' = s.close sock ↔ ¬ Leaks r s := by
  rcases handleClient_cases h with ⟨rfl, hnot⟩ | ⟨fd, hfd, rfl, hleaks⟩
  · exact iff_of_true rfl hnot
  · refine iff_of_false (fun heq => ?_) (not_not_intro hleaks)
    have hne : fd ≠ sock := fun heq => hfd (heq ▸ hsock)
    have hmem := congrArg (fd ∈ Server.fds ·) heq
    simp [Server.close, hne, hfd] at hmem

/-- Any number of requests that do not leak leave the server as it was. -/
theorem umain_releases {rs : List Request} (hrs : ∀ r ∈ rs, ∀ s, ¬ Leaks r s)
    (h : umain rs s = some s') : s' = s := by
  induction rs generalizing s with
  | nil => exact (Option.some.inj h).symm
  | cons r rs ih =>
    obtain ⟨sock, hsock, h⟩ := Option.bind_eq_some_iff.mp h
    obtain ⟨s1, hs1, h⟩ := Option.bind_eq_some_iff.mp h
    rw [List.forall_mem_cons] at hrs
    rcases handleClient_cases hs1 with ⟨rfl, -⟩ | ⟨_, _, _, hleaks⟩
    · rw [ih hrs.2 h, Server.close, Finset.erase_insert (notMem_of_fdAlloc hsock)]
    · exact absurd hleaks (hrs.1 _)

/-- `GET /`, and `/` is a directory. -/
def directory : Request where
  received := some (Httpd.get ++ [0x2F, Httpd.space, Httpd.newline])
  rest := []
  mallocUrl := true
  mallocVersion := true
  file _ := ⟨[], true, 0, 0, 0⟩
  socket := taking

theorem handleClient_directory : handleClient 0 directory ⟨{0}, []⟩ = some ⟨{1}, []⟩ := by
  have hsend : ∀ s, returns (sendError taking 404) s = some s := fun s => by
    rw [returns, show (sendError taking 404).run.run [] = _ from writeAll_of_eq rfl]
  change (returns (sendError taking 404) ⟨{1, 0}, [.version, .url]⟩ >>= fun s => _) = _
  rw [hsend]
  rfl

theorem handleClient_releases_directory : ∃ s', handleClient 0 directory ⟨{0}, []⟩ = some s' ∧
    (s' = Server.close ⟨{0}, []⟩ 0 ↔ ¬ Leaks directory ⟨{0}, []⟩) :=
  ⟨_, handleClient_directory, handleClient_releases_iff (by decide) handleClient_directory⟩

theorem directory_stays_open : ∃ s', handleClient 0 directory ⟨{0}, []⟩ = some s' ∧
    s' ≠ Server.close ⟨{0}, []⟩ 0 :=
  ⟨_, handleClient_directory, by decide⟩

end Mit6828.User.Descriptors
