import Mathlib.Data.BitVec
import Mit6828.Lib.Printfmt
import Mit6828.Library.Command

namespace Mit6828.User.SendFile

open Library Lib.Printfmt

abbrev Byte := BitVec 8

/-- The requested file, with what `open`, `fstat` and the `FSREQ_READ` of `devfile_read` return. -/
structure File where
  contents : List Byte
  isdir : Bool
  opened : Int
  fstat : Int
  fsipc : Int

/-- A read gets bytes of the file, at least one if there is one. -/
structure Regular extends File where
  regular : isdir = false
  size_lt : contents.length < 2 ^ 31
  read_le : fsipc ≤ contents.length
  read_pos : contents ≠ [] → fsipc ≠ 0

/-- How many of the bytes it is given a socket takes, by what it has got before; negative for an
error. -/
abbrev Socket := List Byte → List Byte → Int

/-- The state is what the socket has got; `.error` is the end of the program by `die`, `panic` or
`assert`. -/
abbrev HttpM := Command (List Byte) String

def byte (c : Char) : Byte := BitVec.ofNat 8 c.toNat

def bytes (s : String) : List Byte := s.toList.map byte

/-- `printnum` for `%d` and `%ld`. -/
def decimal (num : Nat) : List Byte := ((printnum 20 num 10 (-1) 32).getD []).map (·.setWidth 8)

def write (sock : Socket) (buf : List Byte) : HttpM Int := do
  let sent ← get
  set (sent ++ buf.take (sock sent buf).toNat)
  return sock sent buf

/-- A write of all of `buf`; what follows if the socket takes another number of bytes differs. -/
def writeAll (sock : Socket) (buf : List Byte) (failed : HttpM Int) : HttpM Int := do
  if (← write sock buf) ≠ buf.length then failed else return 0

def die : HttpM Int := throw "Failed to send bytes to client"

def headers : List (Int × String) := [(200, "HTTP/1.0 200 OK\r\nServer: jhttpd/0.1\r\n")]

def sendHeader (sock : Socket) (code : Int) : HttpM Int :=
  match headers.lookup code with
  | none => return -1
  | some header => writeAll sock (bytes header) die

def buffsize : Nat := 512

def devfileRead (f : File) (n : Nat) : HttpM Int :=
  if f.fsipc < 0 then return f.fsipc
  else if ¬ f.fsipc ≤ n then throw "assertion failed: r <= n"
  else if ¬ f.fsipc ≤ 4096 then throw "assertion failed: r <= PGSIZE"
  else return f.fsipc

def sendData (sock : Socket) (f : File) : HttpM Int := do
  let r ← devfileRead f buffsize
  if r < 0 then return -1 else writeAll sock (f.contents.take r.toNat) die

def sendSize (sock : Socket) (size : Int) : HttpM Int :=
  let sign := if size < 0 then bytes "-" else []
  let buf := bytes "Content-Length: " ++ (sign ++ decimal size.natAbs) ++ bytes "\r\n"
  if 63 < buf.length then throw "buffer too small!" else writeAll sock buf (return -1)

def sendContentType (sock : Socket) : HttpM Int :=
  writeAll sock (bytes "Content-Type: text/html\r\n") (return -1)

def sendHeaderFin (sock : Socket) : HttpM Int := writeAll sock (bytes "\r\n") (return -1)

/-- `errors`, which has no end mark. -/
def errors : List (Int × String) := [(400, "Bad Request"), (404, "Not Found")]

def sendError (sock : Socket) (code : Int) : HttpM Int :=
  match errors.lookup code with
  | none => Command.fail
  | some msg =>
    let number := decimal code.natAbs
    writeAll sock (bytes "HTTP/1.0 " ++ number ++ bytes " " ++ bytes msg ++
      bytes "\r\nServer: jhttpd/0.1\r\nConnection: close" ++
      bytes "Content-type: text/html\r\n\r\n<html><body><p>" ++ number ++ bytes " - " ++
      bytes msg ++ bytes "</p></body></html>\r\n") (return -1)

/-- `if ((r = c) < 0) goto end;`, and what comes next. -/
def andThen (c next : HttpM Int) : HttpM Int := do
  let r ← c
  if r < 0 then return r else next

def sendFile (sock : Socket) (f : File) : HttpM Int :=
  if f.opened < 0 then sendError sock 404
  else if f.fstat < 0 then sendError sock 404
  else if f.isdir then sendError sock 404
  else
    andThen (sendHeader sock 200) (andThen (sendSize sock f.contents.length)
      (andThen (sendContentType sock) (andThen (sendHeaderFin sock) (sendData sock f))))

def contentLength (n : Nat) : List Byte :=
  bytes "Content-Length: " ++ (Nat.toDigits 10 n).map byte ++ bytes "\r\n"

def okHeader (n : Nat) : List Byte :=
  bytes "HTTP/1.0 200 OK\r\nServer: jhttpd/0.1\r\n" ++ (contentLength n ++
    (bytes "Content-Type: text/html\r\n" ++ bytes "\r\n"))

/-- Whatever the socket does, a return of 0 means that the file was sent. -/
def Correct (f : File) : Prop :=
  ∀ sock out, (sendFile sock f).run.run [] = some (.ok 0, out) →
    out = okHeader f.contents.length ++ f.contents

variable {sock : Socket} {f : File} {buf buf' s s' : List Byte} {c next failed : HttpM Int}

theorem length_toDigits {n : Nat} (hn : n < 2 ^ 31) : (Nat.toDigits 10 n).length ≤ 10 :=
  (Nat.length_toDigits_le_iff (by decide) (by decide)).mpr (by omega)

theorem decimal_eq {n : Nat} (hn : n < 2 ^ 31) : decimal n = (Nat.toDigits 10 n).map byte := by
  have hlength := length_toDigits hn
  have hwidth : (-1 : BitVec 32).toInt = -1 := by decide
  rw [decimal, printnum_depth (by decide) (by decide) (by omega), if_pos (by omega)]
  simp [numeral, code, byte]

theorem sendSize_eq {n : Nat} (hn : n < 2 ^ 31) :
    sendSize sock n = writeAll sock (contentLength n) (return -1) := by
  have hlength := length_toDigits hn
  have hsign : ¬ (n : Int) < 0 := by omega
  simp only [sendSize, if_neg hsign, Int.natAbs_natCast, List.nil_append, List.length_append]
  rw [decimal_eq hn, List.length_map, show (bytes "Content-Length: ").length =
    16 by decide, show (bytes "\r\n").length = 2 by decide, if_neg (by omega)]
  rfl

/-- A return that is no error means that `buf` was written. -/
def Sends (c : HttpM Int) (buf : List Byte) : Prop :=
  ∀ s r s', c.run.run s = some (.ok r, s') → ¬ r < 0 → s' = s ++ buf

def Fails (c : HttpM Int) : Prop := ∀ s r s', c.run.run s = some (.ok r, s') → r < 0

theorem fails_die : Fails die := by
  rintro s r s' ⟨⟩

theorem fails_return : Fails (return -1) := by
  rintro s r s' ⟨⟩
  decide

theorem writeAll_of_eq (h : sock s buf = buf.length) :
    (writeAll sock buf failed).run.run s = some (.ok 0, s ++ buf) := by
  refine Command.bind_run_eq_ok.mpr ⟨sock s buf, s ++ buf.take (sock s buf).toNat, rfl, ?_⟩
  rw [if_neg (not_not_intro h), h, Int.toNat_natCast, List.take_length]
  rfl

theorem sends_writeAll (hfailed : Fails failed) : Sends (writeAll sock buf failed) buf := by
  intro s r s' hrun hr
  by_cases heq : sock s buf = buf.length
  · rw [writeAll_of_eq heq] at hrun
    cases hrun
    rfl
  · obtain ⟨_, s1, hwrite, hrun⟩ := Command.bind_run_eq_ok.mp hrun
    cases hwrite
    rw [if_pos heq] at hrun
    exact absurd (hfailed _ r s' hrun) hr

theorem sends_andThen (hc : Sends c buf) (hnext : Sends next buf') :
    Sends (andThen c next) (buf ++ buf') := by
  intro s r s' hrun hr
  obtain ⟨r1, s1, hrun1, hrun⟩ := Command.bind_run_eq_ok.mp hrun
  split at hrun
  · rename_i hneg
    cases hrun
    exact absurd hneg hr
  · rename_i hpos
    rw [hnext s1 r s' hrun hr, hc s r1 s1 hrun1 hpos, List.append_assoc]

theorem andThen_of_eq (hc : c.run.run s = some (.ok 0, s')) :
    (andThen c next).run.run s = next.run.run s' := by
  change (c.run.run s >>= fun x => _) = _
  rw [hc]
  rfl

theorem sends_sendData (h : 0 ≤ f.fsipc → f.fsipc ≤ buffsize → f.fsipc = f.contents.length) :
    Sends (sendData sock f) f.contents := by
  intro s r s' hrun hr
  obtain ⟨r1, s1, hread, hrun⟩ := Command.bind_run_eq_ok.mp hrun
  rw [devfileRead] at hread
  split_ifs at hread with hneg hn hpage
  · cases hread
    rw [if_pos hneg] at hrun
    cases hrun
    exact absurd (by decide) hr
  · cases hread
    rw [if_neg hneg, h (by omega) hn, Int.toNat_natCast, List.take_length] at hrun
    exact sends_writeAll fails_die s r s' hrun hr
  · cases hread
  · cases hread

theorem sendFile_of_opened (f : Regular) (hopen : 0 ≤ f.opened) (hstat : 0 ≤ f.fstat) :
    sendFile sock f.toFile =
      andThen (writeAll sock (bytes "HTTP/1.0 200 OK\r\nServer: jhttpd/0.1\r\n") die)
      (andThen (writeAll sock (contentLength f.contents.length) (return -1))
        (andThen (sendContentType sock)
        (andThen (sendHeaderFin sock) (sendData sock f.toFile)))) := by
  rw [sendFile, if_neg (by omega), if_neg (by omega), if_neg (by simp [f.regular]),
    sendSize_eq f.size_lt]
  rfl

/-- A socket that takes all it is given. -/
def taking : Socket := fun _ buf => buf.length

theorem sendFile_taking (f : Regular) (hopen : 0 ≤ f.opened) (hstat : 0 ≤ f.fstat)
    (hread : 0 ≤ f.fsipc) (hbuf : f.fsipc ≤ buffsize) :
    (sendFile taking f.toFile).run.run [] =
      some (.ok 0, okHeader f.contents.length ++ f.contents.take f.fsipc.toNat) := by
  have hdata : devfileRead f.toFile buffsize = return f.fsipc := by
    have hpage : f.fsipc ≤ 4096 := hbuf.trans (by decide)
    rw [devfileRead, if_neg (by omega), if_neg (not_not_intro hbuf), if_neg (not_not_intro hpage)]
  rw [sendFile_of_opened f hopen hstat, andThen_of_eq (writeAll_of_eq rfl),
    andThen_of_eq (writeAll_of_eq rfl), sendContentType, andThen_of_eq (writeAll_of_eq rfl),
    sendHeaderFin,
    andThen_of_eq (writeAll_of_eq rfl), sendData, hdata, pure_bind, if_neg (by omega),
    writeAll_of_eq rfl]
  simp only [okHeader, List.nil_append, List.append_assoc]

theorem not_correct_of_error (h : sendFile taking f = sendError taking 404) : ¬ Correct f := by
  intro hcorrect
  have hout := hcorrect taking _ (by rw [h]; exact writeAll_of_eq rfl)
  have hthird := congrArg (fun l => l[9]?) hout
  rw [decimal_eq (by decide)] at hthird
  cases hthird

theorem not_correct_of_short (f : Regular) (hopen : 0 ≤ f.opened) (hstat : 0 ≤ f.fstat)
    (hread : 0 ≤ f.fsipc) (hbuf : f.fsipc ≤ buffsize) (hshort : f.fsipc ≠ f.contents.length) :
    ¬ Correct f.toFile := by
  intro hcorrect
  have hout := hcorrect taking _ (sendFile_taking f hopen hstat hread hbuf)
  have hlength := congrArg List.length (List.append_cancel_left hout)
  rw [List.length_take] at hlength
  have := f.read_le
  omega

/-- `send_data` reads once, so a file of more than `BUFFSIZE` bytes is cut off; and for a file that
cannot be opened a page with an error is sent. -/
theorem sendFile_correct_iff (f : Regular) : Correct f.toFile ↔ 0 ≤ f.opened ∧ 0 ≤ f.fstat ∧
      (0 ≤ f.fsipc → f.fsipc ≤ buffsize → f.fsipc = f.contents.length) := by
  constructor
  · intro hcorrect
    have hopen : 0 ≤ f.opened := by
      by_contra hneg
      exact not_correct_of_error (if_pos (by omega)) hcorrect
    have hstat : 0 ≤ f.fstat := by
      by_contra hneg
      exact not_correct_of_error ((if_neg (by omega)).trans (if_pos (by omega))) hcorrect
    refine ⟨hopen, hstat, fun hread hbuf => ?_⟩
    by_contra hshort
    exact not_correct_of_short f hopen hstat hread hbuf hshort hcorrect
  · rintro ⟨hopen, hstat, hread⟩ sock out hrun
    rw [sendFile_of_opened f hopen hstat] at hrun
    have hsends := sends_andThen (sends_writeAll fails_die)
      (sends_andThen (sends_writeAll fails_return) (sends_andThen (sends_writeAll fails_return)
        (sends_andThen (sends_writeAll fails_return) (sends_sendData hread)))) [] 0 out hrun
        (by decide)
    rw [hsends]
    simp only [okHeader, List.nil_append, List.append_assoc]

/-- A file of 513 bytes, of which `send_data` gets 512. -/
def longFile : Regular where
  contents := List.replicate 513 0
  isdir := false
  opened := 0
  fstat := 0
  fsipc := 512
  regular := rfl
  size_lt := by
    rw [List.length_replicate]
    decide
  read_le := by
    rw [List.length_replicate]
    decide
  read_pos _ := by decide

theorem longFile_cut_off : ¬ Correct longFile.toFile := by
  refine not_correct_of_short longFile (by decide) (by decide) (by decide) (by decide) ?_
  rw [show longFile.contents.length = 513 from List.length_replicate]
  decide

end Mit6828.User.SendFile
