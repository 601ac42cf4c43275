import Mathlib.Data.BitVec

namespace Mit6828.User.Httpd

abbrev Byte := BitVec 8

/-- The strings that `malloc` returned for a request, or a null pointer. -/
inductive Target where
  | null
  | url
  | version
deriving DecidableEq

/-- Accesses to byte `i` of the request buffer and of the strings. -/
inductive Access where
  | read (i : Nat)
  | malloc (t : Target) (size : Nat)
  | write (t : Target) (i : Nat)
deriving DecidableEq

inductive Result where
  | badReq
  | fault
  | parsed (url version : List Byte)
deriving DecidableEq

def get : List Byte := [0x47, 0x45, 0x54, 0x20]

def space : Byte := 0x20

def newline : Byte := 0x0A

/-- `strncmp` with a literal of `n` characters on the bytes of the stack from byte `i` of the
buffer on: what it reads, and if the strings are equal.  There is nothing to read past the end of
the stack. -/
def strncmp : List Byte → List Byte → Nat → List Access × Option Bool
  | _, [], _ => ([], some true)
  | [], _ :: _, i => ([.read i], none)
  | b :: bs, c :: cs, i =>
    if b ≠ 0 ∧ b = c then (.read i :: (strncmp bs cs (i + 1)).1, (strncmp bs cs (i + 1)).2)
    else ([.read i], some false)

/-- `while (*request && *request != stop) request++;`: what it reads, and where it ends. -/
def scan (stop : Byte) : List Byte → Nat → List Access × Option Nat
  | [], i => ([.read i], none)
  | b :: bs, i =>
    if b ≠ 0 ∧ b ≠ stop then (.read i :: (scan stop bs (i + 1)).1, (scan stop bs (i + 1)).2)
    else ([.read i], some i)

/-- `malloc(len + 1)`, the `memmove` of `len` bytes from byte `i` of the buffer and the final 0; the
result of `malloc` is not checked. -/
def copyString (ok : Bool) (t : Target) (i len : Nat) : List Access × Bool :=
  if ok then
    (.malloc t (len + 1) ::
      ((List.range len).flatMap fun k => [.read (i + k), .write t k]) ++ [.write t len], true)
  else (if len = 0 then [.write .null 0] else [.read i, .write .null 0], false)

/-- The second half of `http_request_parse`, with `mem` the stack from the buffer on and `version`
at its byte `i`. -/
def parseVersion (mem : List Byte) (ok : Bool) (url : List Byte) (i : Nat) : List Access × Result :=
  match scan newline (mem.drop i) i with
  | (t, none) => (t, .fault)
  | (t, some e) =>
    let (t', ok) := copyString ok .version i (e - i)
    (t ++ t', if ok then .parsed url ((mem.drop i).take (e - i)) else .fault)

def parseUrl (mem : List Byte) (mallocUrl mallocVersion : Bool) : List Access × Result :=
  match scan space (mem.drop 4) 4 with
  | (t, none) => (t, .fault)
  | (t, some e) =>
    let (t', ok) := copyString mallocUrl .url 4 (e - 4)
    if ok then
      let (t'', r) := parseVersion mem mallocVersion ((mem.drop 4).take (e - 4)) (e + 1)
      (t ++ t' ++ t'', r)
    else (t ++ t', .fault)

/-- `http_request_parse` on the stack from the buffer on; each `malloc` succeeds or not. -/
def httpRequestParse (mem : List Byte) (mallocUrl mallocVersion : Bool) : List Access × Result :=
  match strncmp mem get 0 with
  | (t, none) => (t, .fault)
  | (t, some false) => (t, .badReq)
  | (t, some true) =>
    let (t', r) := parseUrl mem mallocUrl mallocVersion
    (t ++ t', r)

/-- `handle_client` up to the end of the parser: `received` is what `read` stored in the buffer, and
`rest` the rest of the buffer and of the stack. -/
def handleClient (received rest : List Byte) (mallocUrl mallocVersion : Bool) :
    List Access × Result :=
  httpRequestParse (received ++ rest) mallocUrl mallocVersion

/-- Only received bytes are read, and only the allocated strings are written. -/
structure Safe (received : List Byte) (t : List Access) : Prop where
  reads : ∀ i, .read i ∈ t → i < received.length
  writes : ∀ s i, .write s i ∈ t → ∃ size, .malloc s size ∈ t ∧ i < size

structure Field (stop : Byte) (s : List Byte) (sep : Byte) : Prop where
  chars : ∀ c ∈ s, c ≠ 0 ∧ c ≠ stop
  sep : sep = 0 ∨ sep = stop

structure Proper (received : List Byte) (out : List Access × Result) : Prop where
  safe : Safe received out.1
  exact : ∀ url version tail, received = get ++ url ++ space :: version ++ newline :: tail →
    Field space url space → Field newline version newline → out.2 = .parsed url version

/-- The first received byte that differs from `"GET "` is among the received ones. -/
def Foreign (received : List Byte) : Prop :=
  ∃ p b c tail more, received = p ++ b :: tail ∧ get = p ++ c :: more ∧ b ≠ c

def Delimited (received : List Byte) : Prop :=
  ∃ url sep version sep' tail, received = get ++ url ++ sep :: version ++ sep' :: tail ∧
    Field space url sep ∧ Field newline version sep'

def reads (i n : Nat) : List Access := (List.range' i n).map .read

variable {received rest tail s l p q : List Byte} {stop sep b c sep' : Byte} {i n len : Nat}
  {t : Target} {a : Access}

theorem mem_reads : a ∈ reads i n ↔ ∃ k, i ≤ k ∧ k < i + n ∧ a = .read k := by
  simp only [reads, List.mem_map, List.mem_range'_1]
  constructor
  · rintro ⟨k, ⟨hlo, hhi⟩, rfl⟩
    exact ⟨k, hlo, hhi, rfl⟩
  · rintro ⟨k, hlo, hhi, rfl⟩
    exact ⟨k, ⟨hlo, hhi⟩, rfl⟩

theorem reads_succ (i n : Nat) : reads i (n + 1) = .read i :: reads (i + 1) n := rfl

section Loops

theorem strncmp_eq (hq : ∀ c ∈ q, c ≠ 0) (l : List Byte) (i : Nat) :
    strncmp (q ++ l) q i = (reads i q.length, some true) := by
  induction q generalizing i with
  | nil => rw [List.nil_append, strncmp]; rfl
  | cons c q ih =>
    rw [List.cons_append, strncmp, if_pos ⟨hq c List.mem_cons_self, rfl⟩,
      ih (fun d hd => hq d (List.mem_cons_of_mem _ hd)), List.length_cons, reads_succ]

theorem strncmp_ne (hp : ∀ c ∈ p, c ≠ 0) (hbc : b ≠ c) (l q : List Byte) (i : Nat) :
    strncmp (p ++ b :: l) (p ++ c :: q) i = (reads i (p.length + 1), some false) := by
  induction p generalizing i with
  | nil =>
    rw [List.nil_append, List.nil_append, strncmp, if_neg fun h => hbc h.2]
    rfl
  | cons d p ih =>
    rw [List.cons_append, List.cons_append, strncmp, if_pos ⟨hp d List.mem_cons_self, rfl⟩,
      ih fun d hd => hp d (List.mem_cons_of_mem _ hd)]
    rfl

theorem strncmp_past (hp : ∀ c ∈ p, c ≠ 0) (l q : List Byte) (i : Nat) :
    .read (i + p.length) ∈ (strncmp (p ++ l) (p ++ c :: q) i).1 := by
  induction p generalizing i with
  | nil =>
    cases l with
    | nil => exact List.mem_cons_self
    | cons b l =>
      rw [List.nil_append, List.nil_append, strncmp]
      split <;> exact List.mem_cons_self
  | cons d p ih =>
    rw [List.cons_append, List.cons_append, strncmp, if_pos ⟨hp d List.mem_cons_self, rfl⟩]
    refine List.mem_cons_of_mem _ ?_
    rw [List.length_cons, Nat.add_comm p.length 1, ← Nat.add_assoc]
    exact ih (fun d hd => hp d (List.mem_cons_of_mem _ hd)) (i + 1)

theorem scan_field (h : Field stop s sep) (l : List Byte) (i : Nat) :
    scan stop (s ++ sep :: l) i = (reads i (s.length + 1), some (i + s.length)) := by
  obtain ⟨hs, hsep⟩ := h
  induction s generalizing i with
  | nil =>
    rw [List.nil_append, scan, if_neg fun hgo => hsep.elim hgo.1 hgo.2]
    rfl
  | cons c s ih =>
    rw [List.cons_append, scan, if_pos (hs c List.mem_cons_self),
      ih (i + 1) fun d hd => hs d (List.mem_cons_of_mem _ hd)]
    rw [List.length_cons, ← reads_succ, show i + 1 + s.length = i + (s.length + 1) by omega]

theorem scan_past (hs : ∀ c ∈ s, c ≠ 0 ∧ c ≠ stop) (l : List Byte) (i : Nat) :
    .read (i + s.length) ∈ (scan stop (s ++ l) i).1 := by
  induction s generalizing i with
  | nil =>
    cases l with
    | nil => exact List.mem_cons_self
    | cons b l =>
      rw [List.nil_append, scan]
      split <;> exact List.mem_cons_self
  | cons c s ih =>
    rw [List.cons_append, scan, if_pos (hs c List.mem_cons_self)]
    refine List.mem_cons_of_mem _ ?_
    rw [List.length_cons, Nat.add_comm s.length 1, ← Nat.add_assoc]
    exact ih (fun d hd => hs d (List.mem_cons_of_mem _ hd)) (i + 1)

theorem field_or_run (stop : Byte) (l : List Byte) :
    (∃ s sep tail, l = s ++ sep :: tail ∧ Field stop s sep) ∨ ∀ c ∈ l, c ≠ 0 ∧ c ≠ stop := by
  induction l with
  | nil => exact .inr fun _ hc => absurd hc List.not_mem_nil
  | cons b l ih =>
    by_cases hb : b ≠ 0 ∧ b ≠ stop
    · rcases ih with ⟨s, sep, tail, rfl, hs⟩ | hl
      · exact .inl ⟨b :: s, sep, tail, rfl, List.forall_mem_cons.mpr ⟨hb, hs.chars⟩, hs.sep⟩
      · exact .inr (List.forall_mem_cons.mpr ⟨hb, hl⟩)
    · refine .inl ⟨[], b, l, rfl, fun _ hc => absurd hc List.not_mem_nil, ?_⟩
      by_contra hnot
      exact hb ⟨fun h => hnot (.inl h), fun h => hnot (.inr h)⟩

theorem prefix_or_differ (l q : List Byte) :
    (∃ tail, l = q ++ tail) ∨ (∃ c more, q = l ++ c :: more) ∨
      ∃ p b c tail more, l = p ++ b :: tail ∧ q = p ++ c :: more ∧ b ≠ c := by
  induction q generalizing l with
  | nil => exact .inl ⟨l, rfl⟩
  | cons c q ih =>
    cases l with
    | nil => exact .inr (.inl ⟨c, q, rfl⟩)
    | cons b l =>
      by_cases hbc : b = c
      · subst hbc
        rcases ih l with ⟨tail, rfl⟩ | ⟨d, more, rfl⟩ | ⟨p, d, d', tail, more, rfl, rfl, hne⟩
        · exact .inl ⟨tail, rfl⟩
        · exact .inr (.inl ⟨d, more, rfl⟩)
        · exact .inr (.inr ⟨b :: p, d, d', tail, more, rfl, rfl, hne⟩)
      · exact .inr (.inr ⟨[], b, c, l, q, rfl, rfl, hbc⟩)

end Loops

section Traces

theorem get_ne_zero : ∀ c ∈ get, c ≠ 0 := by decide

theorem mem_copyString (h : a ∈ (copyString true t i len).1) :
    a = .malloc t (len + 1) ∨ (∃ k, i ≤ k ∧ k < i + len ∧ a = .read k) ∨
      ∃ k, k < len + 1 ∧ a = .write t k := by
  rw [copyString, if_pos rfl, List.cons_append, List.mem_cons, List.mem_append,
    List.mem_flatMap] at h
  rcases h with rfl | ⟨k, hk, hmem⟩ | hlast
  · exact .inl rfl
  · rw [List.mem_range] at hk
    rcases List.mem_pair.mp hmem with rfl | rfl
    · exact .inr (.inl ⟨i + k, by omega, by omega, rfl⟩)
    · exact .inr (.inr ⟨k, by omega, rfl⟩)
  · exact .inr (.inr ⟨len, by omega, List.mem_singleton.mp hlast⟩)

theorem safe_copyString (h : i + len ≤ received.length) :
    Safe received (copyString true t i len).1 := by
  constructor
  · intro j hj
    rcases mem_copyString hj with heq | ⟨k, -, hk, heq⟩ | ⟨k, -, heq⟩
    · cases heq
    · cases heq
      omega
    · cases heq
  · intro s j hj
    rcases mem_copyString hj with heq | ⟨k, -, -, heq⟩ | ⟨k, hk, heq⟩
    · cases heq
    · cases heq
    · cases heq
      exact ⟨len + 1, List.mem_cons_self, hk⟩

theorem safe_reads (h : i + n ≤ received.length) : Safe received (reads i n) := by
  constructor
  · intro j hj
    obtain ⟨k, -, hk, heq⟩ := mem_reads.mp hj
    cases heq
    omega
  · intro s j hj
    obtain ⟨k, -, -, heq⟩ := mem_reads.mp hj
    cases heq

theorem Safe.append {l1 l2 : List Access} (h1 : Safe received l1) (h2 : Safe received l2) :
    Safe received (l1 ++ l2) := by
  constructor
  · intro i hi
    exact (List.mem_append.mp hi).elim (h1.reads i) (h2.reads i)
  intro s i hi
  rcases List.mem_append.mp hi with hi | hi
  · obtain ⟨size, hsize, hlt⟩ := h1.writes s i hi
    exact ⟨size, List.mem_append_left _ hsize, hlt⟩
  · obtain ⟨size, hsize, hlt⟩ := h2.writes s i hi
    exact ⟨size, List.mem_append_right _ hsize, hlt⟩

theorem malloc_null_not_mem_reads (i n size : Nat) : .malloc .null size ∉ reads i n := by
  intro h
  obtain ⟨k, -, -, heq⟩ := mem_reads.mp h
  cases heq

theorem malloc_null_not_mem_copyString {ok : Bool} (ht : t ≠ .null) (i len size : Nat) :
    .malloc .null size ∉ (copyString ok t i len).1 := by
  intro h
  cases ok with
  | true =>
    rcases mem_copyString h with heq | ⟨k, -, -, heq⟩ | ⟨k, -, heq⟩
    · cases heq
      exact ht rfl
    · cases heq
    · cases heq
  | false =>
    rw [copyString, if_neg Bool.false_ne_true] at h
    split at h <;> simp at h

theorem mem_copyString_null (t : Target) (i len : Nat) :
    .write .null 0 ∈ (copyString false t i len).1 := by
  rw [copyString, if_neg Bool.false_ne_true]
  dsimp only
  split <;> simp

theorem Safe.write_null_not_mem {l : List Access} (h : Safe received l)
    (hmalloc : ∀ size, .malloc .null size ∉ l) : .write .null 0 ∉ l := by
  intro hmem
  obtain ⟨size, hsize, -⟩ := h.writes _ _ hmem
  exact hmalloc size hsize

end Traces

section Parse

variable {mem url version : List Byte} {ok mallocUrl mallocVersion : Bool}

theorem parseVersion_field (hmem : mem.drop i = version ++ sep :: l)
    (h : Field newline version sep) :
    parseVersion mem ok url i =
      (reads i (version.length + 1) ++ (copyString ok .version i version.length).1,
      if ok then .parsed url version else .fault) := by
  rw [parseVersion, hmem, scan_field h]
  dsimp only
  rw [Nat.add_sub_cancel_left, List.take_left]
  cases ok <;> rfl

theorem mem_parseVersion (h : a ∈ (scan newline (mem.drop i) i).1) :
    a ∈ (parseVersion mem ok url i).1 := by
  rw [parseVersion]
  rcases hscan : scan newline (mem.drop i) i with ⟨t, _ | e⟩
  · rwa [hscan] at h
  · rw [hscan] at h
    exact List.mem_append_left _ h

theorem mem_parseUrl (h : a ∈ (scan space (mem.drop 4) 4).1) :
    a ∈ (parseUrl mem mallocUrl mallocVersion).1 := by
  rw [parseUrl]
  rcases hscan : scan space (mem.drop 4) 4 with ⟨t, _ | e⟩
  · rwa [hscan] at h
  rw [hscan] at h
  dsimp only
  split
  · exact List.mem_append_left _ (List.mem_append_left _ h)
  · exact List.mem_append_left _ h

theorem parseUrl_field (hmem : mem.drop 4 = url ++ sep :: l) (h : Field space url sep) :
    parseUrl mem mallocUrl mallocVersion =
      if mallocUrl then
        (reads 4 (url.length + 1) ++ (copyString mallocUrl .url 4 url.length).1 ++
            (parseVersion mem mallocVersion url (4 + url.length + 1)).1,
          (parseVersion mem mallocVersion url (4 + url.length + 1)).2)
      else (reads 4 (url.length + 1) ++ (copyString mallocUrl .url 4 url.length).1, .fault) := by
  rw [parseUrl, hmem, scan_field h]
  dsimp only
  rw [Nat.add_sub_cancel_left, List.take_left]
  cases mallocUrl <;> rfl

theorem parse_get (l : List Byte) : httpRequestParse (get ++ l) mallocUrl mallocVersion =
    (reads 0 4 ++ (parseUrl (get ++ l) mallocUrl mallocVersion).1,
      (parseUrl (get ++ l) mallocUrl mallocVersion).2) := by
  rw [httpRequestParse, strncmp_eq get_ne_zero]
  rfl

theorem drop_url (url : List Byte) (sep : Byte) (l : List Byte) :
    (get ++ (url ++ sep :: l)).drop (4 + url.length + 1) = l := by
  rw [show 4 + url.length + 1 = get.length + (url.length + 1) by simp [get]; omega,
    List.drop_length_add_append, List.drop_length_add_append]
  rfl

theorem parse_delimited (hurl : Field space url sep) (hversion : Field newline version sep')
    (l : List Byte) : httpRequestParse (get ++ url ++ sep :: version ++ sep' :: l) true true =
      (reads 0 4 ++ (reads 4 (url.length + 1) ++ (copyString true .url 4 url.length).1 ++
        (reads (4 + url.length + 1) (version.length + 1) ++
          (copyString true .version (4 + url.length + 1) version.length).1)),
        .parsed url version) := by
  have hmem : get ++ url ++ sep :: version ++ sep' :: l =
      get ++ (url ++ sep :: (version ++ sep' :: l)) := by simp
  rw [hmem, parse_get, parseUrl_field rfl hurl, if_pos rfl,
    parseVersion_field (drop_url _ _ _) hversion, if_pos rfl]

theorem safe_delimited (hurl : Field space url sep) (hversion : Field newline version sep')
    (l l' : List Byte) (hreceived : received = get ++ url ++ sep :: version ++ sep' :: l) :
    Safe received (httpRequestParse (get ++ url ++ sep :: version ++ sep' :: l') true true).1 := by
  have hlength : received.length = 4 + url.length + 1 + version.length + 1 + l.length := by
    rw [hreceived]
    simp [get]
    omega
  rw [parse_delimited hurl hversion]
  refine (safe_reads ?_).append (((safe_reads ?_).append (safe_copyString ?_)).append
    ((safe_reads ?_).append (safe_copyString ?_)))
  all_goals omega

theorem parse_foreign (h : Foreign received) (rest : List Byte) (mallocUrl mallocVersion : Bool) :
    ∃ n ≤ received.length,
      httpRequestParse (received ++ rest) mallocUrl mallocVersion = (reads 0 n, .badReq) := by
  obtain ⟨p, b, c, tail, more, rfl, hget, hbc⟩ := h
  have hp : ∀ d ∈ p, d ≠ 0 := fun d hd =>
    get_ne_zero d (hget ▸ List.mem_append_left _ hd)
  refine ⟨p.length + 1, by simp, ?_⟩
  rw [httpRequestParse, hget, List.append_assoc, List.cons_append, strncmp_ne hp hbc]

theorem Foreign.not_get (h : Foreign received) (tail : List Byte) : received ≠ get ++ tail := by
  intro heq
  obtain ⟨p, b, c, tail', more, hreceived, hget, hbc⟩ := h
  rw [hreceived, hget, List.append_assoc, List.append_cancel_left_eq, List.cons_append,
    List.cons.injEq] at heq
  exact hbc heq.1

end Parse

section Main

variable {mallocUrl mallocVersion : Bool}

theorem proper_of_foreign (h : Foreign received) (rest : List Byte)
    (mallocUrl mallocVersion : Bool) :
    Proper received (handleClient received rest mallocUrl mallocVersion) := by
  obtain ⟨n, hn, hparse⟩ := parse_foreign h rest mallocUrl mallocVersion
  rw [handleClient, hparse]
  refine ⟨safe_reads (by omega), fun url version tail hreceived _ _ => ?_⟩
  rw [List.append_assoc, List.append_assoc] at hreceived
  exact absurd hreceived (h.not_get _)

theorem proper_of_delimited (h : Delimited received) (rest : List Byte) :
    Proper received (handleClient received rest true true) := by
  refine ⟨?_, ?_⟩
  · obtain ⟨url, sep, version, sep', tail, hreceived, hurl, hversion⟩ := h
    have hmem : received ++ rest = get ++ url ++ sep :: version ++ sep' :: (tail ++ rest) := by
      rw [hreceived]
      simp
    rw [handleClient, hmem]
    exact safe_delimited hurl hversion tail (tail ++ rest) hreceived
  · intro url version tail hreceived hurl hversion
    have hmem : received ++ rest = get ++ url ++ space :: version ++ newline :: (tail ++ rest) := by
      rw [hreceived]
      simp
    rw [handleClient, hmem, parse_delimited hurl hversion]

theorem not_safe_of_short (hget : get = received ++ c :: l) :
    ¬ Safe received (handleClient received rest mallocUrl mallocVersion).1 := by
  intro h
  have hp : ∀ d ∈ received, d ≠ 0 := fun d hd =>
    get_ne_zero d (hget ▸ List.mem_append_left _ hd)
  have hread : .read (0 + received.length) ∈
    (strncmp (received ++ rest) (received ++ c :: l) 0).1 :=
    strncmp_past hp rest l 0
  have hlt := h.reads (0 + received.length) (by
    rw [handleClient, httpRequestParse, hget]
    rcases hcmp : strncmp (received ++ rest) (received ++ c :: l) 0 with ⟨t, _ | _ | _⟩ <;>
      rw [hcmp] at hread
    · exact hread
    · exact hread
    · exact List.mem_append_left _ hread)
  omega

theorem not_safe_of_run_url (hl : ∀ c ∈ l, c ≠ 0 ∧ c ≠ space) :
    ¬ Safe (get ++ l) (handleClient (get ++ l) rest mallocUrl mallocVersion).1 := by
  intro h
  have hread : .read (4 + l.length) ∈ (parseUrl (get ++ (l ++ rest)) mallocUrl mallocVersion).1 :=
    mem_parseUrl (scan_past hl rest 4)
  have hlt := h.reads (4 + l.length) (by
    rw [handleClient, List.append_assoc, parse_get]
    exact List.mem_append_right _ hread)
  rw [List.length_append] at hlt
  exact absurd hlt (by simp [get])

section AfterUrl

variable {url version : List Byte} (hurl : Field space url sep)

include hurl

theorem handleClient_url (l rest : List Byte) :
    handleClient (get ++ (url ++ sep :: l)) rest true mallocVersion =
      (reads 0 4 ++ (reads 4 (url.length + 1) ++ (copyString true .url 4 url.length).1 ++
          (parseVersion (get ++ (url ++ sep :: (l ++ rest))) mallocVersion url
          (4 + url.length + 1)).1),
        (parseVersion (get ++ (url ++ sep :: (l ++ rest))) mallocVersion url
        (4 + url.length + 1)).2) := by
  rw [handleClient, List.append_assoc, List.append_assoc, List.cons_append, parse_get,
    parseUrl_field rfl hurl, if_pos rfl]

theorem not_safe_of_mallocUrl (l : List Byte) : ¬ Safe (get ++ (url ++ sep :: l))
      (handleClient (get ++ (url ++ sep :: l)) rest false mallocVersion).1 := by
  intro h
  rw [handleClient, List.append_assoc, List.append_assoc, List.cons_append, parse_get,
    parseUrl_field rfl hurl, if_neg Bool.false_ne_true] at h
  refine h.write_null_not_mem (fun size => ?_)
    (List.mem_append_right _ (List.mem_append_right _ (mem_copyString_null _ _ _)))
  simp only [List.mem_append, not_or]
  exact ⟨malloc_null_not_mem_reads _ _ _, malloc_null_not_mem_reads _ _ _,
    malloc_null_not_mem_copyString (by decide) _ _ _⟩

theorem not_safe_of_run_version (hl : ∀ c ∈ l, c ≠ 0 ∧ c ≠ newline) :
    ¬ Safe (get ++ (url ++ sep :: l))
      (handleClient (get ++ (url ++ sep :: l)) rest true mallocVersion).1 := by
  intro h
  rw [handleClient_url hurl] at h
  have hscan := scan_past hl rest (4 + url.length + 1)
  rw [← drop_url url sep (l ++ rest)] at hscan
  have hlt := h.reads _ (List.mem_append_right _ (List.mem_append_right _ (mem_parseVersion hscan)))
  simp [get] at hlt
  omega

theorem not_safe_of_mallocVersion (hversion : Field newline version stop) (l : List Byte) :
    ¬ Safe (get ++ (url ++ sep :: (version ++ stop :: l)))
      (handleClient (get ++ (url ++ sep :: (version ++ stop :: l))) rest true false).1 := by
  intro h
  rw [handleClient_url hurl, List.append_assoc version, List.cons_append,
    parseVersion_field (drop_url _ _ _) hversion] at h
  refine h.write_null_not_mem (fun size => ?_) (List.mem_append_right _ (List.mem_append_right _
    (List.mem_append_right _ (mem_copyString_null _ _ _))))
  simp only [List.mem_append, not_or]
  exact ⟨malloc_null_not_mem_reads _ _ _, ⟨malloc_null_not_mem_reads _ _ _,
    malloc_null_not_mem_copyString (by decide) _ _ _⟩, malloc_null_not_mem_reads _ _ _,
    malloc_null_not_mem_copyString (by decide) _ _ _⟩

end AfterUrl

/-- The parser keeps to the received bytes and the allocated strings, whatever follows the received
bytes on the stack, exactly for a request that differs from `"GET "` and for one whose two fields
end among the received bytes, with memory for both strings.  Nothing ends the received bytes. -/
theorem handleClient_proper_iff (received rest : List Byte) (mallocUrl mallocVersion : Bool) :
    Proper received (handleClient received rest mallocUrl mallocVersion) ↔
      Foreign received ∨ (Delimited received ∧ mallocUrl = true ∧ mallocVersion = true) := by
  constructor
  · intro h
    rcases prefix_or_differ received get with ⟨l, rfl⟩ | ⟨c, more, hget⟩ | hforeign
    · refine .inr ?_
      rcases field_or_run space l with ⟨url, sep, l, rfl, hurl⟩ | hrun
      · cases mallocUrl with
        | false => exact absurd h.safe (not_safe_of_mallocUrl hurl l)
        | true =>
          rcases field_or_run newline l with ⟨version, sep', l, rfl, hversion⟩ | hrun
          · cases mallocVersion with
            | false => exact absurd h.safe (not_safe_of_mallocVersion hurl hversion l)
            | true => exact ⟨⟨url, sep, version, sep', l, by simp, hurl, hversion⟩, rfl, rfl⟩
          · exact absurd h.safe (not_safe_of_run_version hurl hrun)
      · exact absurd h.safe (not_safe_of_run_url hrun)
    · exact absurd h.safe (not_safe_of_short hget)
    · exact .inl hforeign
  · rintro (hforeign | ⟨hdelimited, rfl, rfl⟩)
    · exact proper_of_foreign hforeign rest mallocUrl mallocVersion
    · exact proper_of_delimited hdelimited rest

/-- The client sends `GET /` and no more: the loop for the url reads the byte after the `/`, which
is not received. -/
theorem unterminated_request_reads_on :
    Access.read 5 ∈ (handleClient (get ++ [0x2F]) [0, 0, 0] true true).1 ∧
      ¬ Proper (get ++ [0x2F]) (handleClient (get ++ [0x2F]) [0, 0, 0] true true) := by
  have hread : Access.read 5 ∈ (handleClient (get ++ [0x2F]) [0, 0, 0] true true).1 := by decide
  refine ⟨hread, fun h => ?_⟩
  have hlt := h.safe.reads 5 hread
  exact absurd hlt (by decide)

end Main

end Mit6828.User.Httpd
