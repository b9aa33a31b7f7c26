import SocketTest.Http.FileResponse
import SocketTest.Lib.Path

/-!
# The path that `do_request` opens

The path is `doc_root` with the URL behind it, cut to the size of `m_real_file`. Nothing looks at the
components of the URL: `confined_iff` says for which URLs the path stays in `doc_root`.
-/

namespace SocketTest.Http

open SocketTest.Lib

/-- A component of a path between two slashes. -/
def component (s : List UInt8) : Path.Component (List UInt8) :=
  if s = [] ∨ s = bytes "." then .here else if s = bytes ".." then .up else .name s

def components (path : List UInt8) : List (Path.Component (List UInt8)) :=
  (path.splitOn 47).map component

/-- The directory or file that a path from the root names. -/
def resolved (path : List UInt8) : List (List UInt8) := Path.resolve [] (components path)

/-- The path is `doc_root` itself or lies below it. -/
def Confined (path : List UInt8) : Prop := resolved docRoot <+: resolved path

/-- What the URL goes up behind `doc_root`, it goes down again. -/
def Inside (url : List UInt8) : Prop :=
  let k := Path.climb (components url)
  (resolved docRoot).drop ((resolved docRoot).length - k.ups) <+: k.rest

theorem resolved_docRoot_append {url : List UInt8} (h : url = [] ∨ url.head? = some 47) :
    resolved (docRoot ++ url) = Path.resolve (resolved docRoot) (components url) := by
  cases url with
  | nil => rw [List.append_nil]; rfl
  | cons b u =>
    have hb : b = 47 := by simpa using h
    have hu : components (47 :: u) = .here :: components u := by
      have := List.splitOn_append_cons_self (a := (47 : UInt8)) [] u
      rw [components, ← List.nil_append (47 :: u), this]
      rfl
    rw [hb, resolved, components, List.splitOn_append_cons_self, List.map_append,
      Path.resolve_append, hu]
    rfl

theorem confined_append_iff {url : List UInt8} (h : url = [] ∨ url.head? = some 47) :
    Confined (docRoot ++ url) ↔ Inside url := by
  rw [Confined, resolved_docRoot_append h]
  exact Path.prefix_resolve_iff _ _

namespace HttpConn

variable {c₀ c c' : HttpConn} {o : Outcome}

/-- The path in `m_real_file` for the URL at `url`. -/
def requestPath (c : HttpConn) (url : ℕ) : List UInt8 :=
  cstring FILENAME_LEN (c.setRealFile (cstring READ_BUFFER_SIZE c.readBuf url)).realFile 0

/-- Of the file system `do_request` sees what is under this path. -/
theorem doRequest_congr {files files' : Files} {url : ℕ} (hurl : c.url = some url)
    (h : files (c.requestPath url) = files' (c.requestPath url)) :
    c.doRequest files = c.doRequest files' := by
  unfold doRequest
  rw [hurl]
  dsimp only
  unfold requestPath at h
  rw [h]

/-! ## The text in `m_real_file` -/

theorem setRealFile_realFile (c : HttpConn) (s : List UInt8) :
    (c.setRealFile s).realFile = strncpy (strncpy c.realFile 0 (docRoot.length + 1) docRoot)
      docRoot.length (FILENAME_LEN - docRoot.length - 1) s := rfl

/-- The URL behind `doc_root` is cut to 186 bytes. -/
theorem requestPath_eq (hnul : c.realFile (FILENAME_LEN - 1) = NUL) (url : ℕ) :
    c.requestPath url = docRoot ++
      (cstring READ_BUFFER_SIZE c.readBuf url).take (FILENAME_LEN - docRoot.length - 1) := by
  have hno : ∀ b ∈ cstring READ_BUFFER_SIZE c.readBuf url, b ≠ NUL := fun b => cstring_ne_nul
  rw [requestPath]
  generalize cstring READ_BUFFER_SIZE c.readBuf url = s at hno
  have hroot : NUL ∉ docRoot := by decide
  have hlen : docRoot.length = 13 := by decide
  have hlast : (c.setRealFile s).realFile 199 = NUL := by
    rw [setRealFile_realFile, strncpy, if_neg (by rw [hlen, FILENAME_LEN]; omega), strncpy,
      if_neg (by omega)]
    exact hnul
  have hfirst : contents (c.setRealFile s).realFile 0 13 = docRoot := by
    rw [setRealFile_realFile, contents_strncpy_below (by omega)]
    have h14 := contents_strncpy c.realFile 0 (docRoot.length + 1) docRoot
    rw [List.take_of_length_le (by omega), Nat.add_sub_cancel_left, hlen, contents_add] at h14
    exact (List.append_inj h14 (by rw [contents_length, hlen])).1
  have hurl : contents (c.setRealFile s).realFile 13 186 =
      s.take 186 ++ List.replicate (186 - s.length) NUL := by
    rw [setRealFile_realFile, hlen]
    exact contents_strncpy _ 13 186 s
  rw [hlen]
  apply cstring_eq (t := List.replicate (186 - s.length) NUL ++ [NUL])
  · intro b hb
    rcases List.mem_append.1 hb with hb | hb
    · exact ne_of_mem_of_not_mem hb hroot
    · exact hno b (List.mem_of_mem_take hb)
  · cases 186 - s.length <;> rfl
  · show contents _ 0 (13 + 186 + 1) = _
    rw [contents_add, contents_add, hfirst, Nat.zero_add, hurl, List.append_assoc, List.append_assoc,
      List.append_assoc]
    show docRoot ++ (_ ++ (_ ++ [(c.setRealFile s).realFile 199])) = _
    rw [hlast]
    rfl

/-! ## The URL between `parse_request_line` and `do_request` -/

/-- Behind the request line `m_url` points to the slash that `parse_request_line` has seen, or to a NUL
written there since; the last byte of `m_real_file` is NUL. -/
structure Located (c : HttpConn) : Prop where
  clear : Clear c
  realFile : c.realFile (FILENAME_LEN - 1) = NUL
  url : c.checkState ≠ .requestLine →
    ∃ url < c.readIdx, c.url = some url ∧ (c.readBuf url = 47 ∨ c.readBuf url = NUL)

theorem Located.init (c : HttpConn) : Located c.init := ⟨Clear.init c, rfl, fun h => absurd rfl h⟩

theorem Located.read (h : Located c) {chunk : List UInt8} (hr : (c.read chunk).1 = true) :
    Located (c.read chunk).2 := by
  rw [(read_eq hr).1]
  refine ⟨h.clear.receive chunk, h.realFile, fun hst => ?_⟩
  obtain ⟨url, hlt, hurl, hbyte⟩ := h.url hst
  have hsame : (c.receive chunk).readBuf url = c.readBuf url := if_neg (by omega)
  refine ⟨url, ?_, hurl, by rwa [hsame]⟩
  show url < c.readIdx + chunk.length
  omega

/-- A step that writes NUL only. -/
theorem Located.blank (h : Located c) (hc : Clear c') (hreal : c'.realFile = c.realFile)
    (hurl : c'.url = c.url) (hidx : c'.readIdx = c.readIdx)
    (hbuf : ∀ i, c'.readBuf i = c.readBuf i ∨ c'.readBuf i = NUL)
    (hst : c'.checkState ≠ .requestLine → c.checkState ≠ .requestLine) : Located c' := by
  refine ⟨hc, by rw [hreal, h.realFile], fun hne => ?_⟩
  obtain ⟨url, hlt, hsome, hbyte⟩ := h.url (hst hne)
  refine ⟨url, by rw [hidx]; exact hlt, by rw [hurl, hsome], ?_⟩
  rcases hbuf url with hb | hb
  · rwa [hb]
  · exact .inr hb

theorem Located.parseLine (h : Located c) : Located c.parseLine.2 := by
  have hclear := h.clear.parseLine
  obtain ⟨buf, i, he⟩ := parseLine_frame c
  have hbuf : ∀ i, c.parseLine.2.readBuf i = c.readBuf i ∨ c.parseLine.2.readBuf i = NUL := by
    intro j
    have hp := parseLine_spec h.clear.checked_le
    generalize c.parseLine = r at hp
    cases hp with
    | stopped _ _ _ _ => exact .inl rfl
    | @line k _ _ _ _ =>
      rw [takeLine_readBuf]
      by_cases h1 : j = k + 1
      · rw [h1, Function.update_self]
        exact .inr rfl
      · rw [Function.update_of_ne h1]
        by_cases h2 : j = k
        · rw [h2, Function.update_self]
          exact .inr rfl
        · rw [Function.update_of_ne h2]
          exact .inl rfl
  apply h.blank hclear _ _ _ hbuf
  · rw [he]
    exact id
  · rw [he]
  · rw [he]
  · rw [he]

theorem parseRequestLine_url (c : HttpConn) (text : ℕ) :
    (c.parseRequestLine text).1 = .badRequest ∨ ∃ url,
      (c.parseRequestLine text).2.url = some url ∧
        (c.parseRequestLine text).2.readBuf url = 47 := by
  unfold parseRequestLine
  split
  · exact .inl rfl
  · dsimp only
    split_ifs with hget
    · split
      · exact .inl rfl
      · split_ifs with hversion hscheme
        · split
          · exact .inl rfl
          · next w hw =>
            split_ifs with hslash
            · exact .inr ⟨w, hw, hslash⟩
            · exact .inl rfl
        · dsimp only
          split_ifs with hslash
          · exact .inr ⟨_, rfl, hslash⟩
          · exact .inl rfl
        · exact .inl rfl
    · exact .inl rfl

theorem Located.parses (h : Located c) (hp : Parses c c') : Located c' := by
  have hclear : Clear c' := h.clear.nextLine.keeps hp.keeps
  cases hp with
  | requestLine hst =>
    by_cases hacc : (c.nextLine.parseRequestLine c.startLine).1 = .badRequest
    · obtain ⟨buf, st, m, u, v, he, -, -⟩ := parseRequestLine_frame c.nextLine c.startLine
      have hst' := parseRequestLine_rejects hacc
      refine ⟨hclear, ?_, fun hne => absurd (hst'.trans hst) hne⟩
      rw [he]
      exact h.realFile
    · obtain ⟨url, hurl, hbyte⟩ := (parseRequestLine_url _ _).resolve_left hacc
      obtain ⟨buf, st, m, u, v, he, -, -⟩ := parseRequestLine_frame c.nextLine c.startLine
      refine ⟨hclear, ?_, fun _ => ⟨url, ?_, hurl, .inl hbyte⟩⟩
      · rw [he]
        exact h.realFile
      · by_contra hge
        rw [hclear.nul url (not_lt.1 hge)] at hbyte
        exact absurd hbyte (by decide)
  | headers hst =>
    obtain ⟨st, n, l, host, he, -⟩ := parseHeaders_frame c.nextLine c.startLine
    apply h.blank hclear _ _ _ _ fun _ => hst
    · rw [he]
      rfl
    · rw [he]
      rfl
    · rw [he]
      rfl
    · intro i
      rw [he]
      exact .inl rfl
  | content hst =>
    have hk := Keeps.content c.nextLine c.startLine
    obtain ⟨buf, fs, he⟩ : ∃ buf fs, (c.nextLine.parseContent c.startLine).2 =
        { c.nextLine with readBuf := buf, faults := fs } := by
      unfold parseContent putAt
      split_ifs
      · exact ⟨_, _, rfl⟩
      · exact ⟨_, _, rfl⟩
      · exact ⟨_, _, rfl⟩
    apply h.blank hclear _ _ hk.readIdx hk.readBuf fun _ => hst
    · rw [he]
      rfl
    · rw [he]
      rfl

theorem located_of_run {ls : List (List UInt8 × Outcome)} (h : Run Call c₀.init ls c) : Located c :=
  h.invariant (fun _ _ _ hs ha => (ha.2.parses (fun _ h => h.parseLine) (fun _ _ h => h.parses)
    (hs.read ha.1)).1) (Located.init c₀)

/-- The path that a run comes to `do_request` with is `doc_root` with the URL behind it. -/
theorem requestPath_of_run {ls : List (List UInt8 × Outcome)} {chunk : List UInt8}
    (hr : Run Call c₀.init (ls ++ [(chunk, .doRequest)]) c) : ∃ url, c.url = some url ∧
      c.requestPath url = docRoot ++
        (cstring READ_BUFFER_SIZE c.readBuf url).take (FILENAME_LEN - docRoot.length - 1) ∧
      (cstring READ_BUFFER_SIZE c.readBuf url = [] ∨
        (cstring READ_BUFFER_SIZE c.readBuf url).head? = some 47) := by
  have hloc := located_of_run hr
  have hst : c.checkState ≠ .requestLine := by
    obtain ⟨c₁, -, hlast⟩ := hr.split
    cases hlast with
    | cons hcall hnil =>
      cases hnil
      exact (hcall.2.parses (I := fun _ => True) (fun _ _ => trivial) (fun _ _ _ _ => trivial)
        trivial).2 rfl
  obtain ⟨url, -, hurl, hbyte⟩ := hloc.url hst
  refine ⟨url, hurl, requestPath_eq hloc.realFile url, ?_⟩
  rcases hbyte with hb | hb
  · right
    rw [cstring_head (by decide) (by rw [hb]; decide), hb]
  · left
    rw [cstring_nil hb]

/-- **The document root.** The path that `do_request` passes to `stat` and `open` is `doc_root` with
the URL behind it, as far as it fits. It is `doc_root` or below it exactly when the URL goes down again
what it goes up behind `doc_root`. -/
theorem confined_iff {ls : List (List UInt8 × Outcome)} {chunk : List UInt8}
    (hr : Run Call c₀.init (ls ++ [(chunk, .doRequest)]) c) : ∃ url, c.url = some url ∧
      c.requestPath url = docRoot ++
        (cstring READ_BUFFER_SIZE c.readBuf url).take (FILENAME_LEN - docRoot.length - 1) ∧
      (Confined (c.requestPath url) ↔ Inside
        ((cstring READ_BUFFER_SIZE c.readBuf url).take (FILENAME_LEN - docRoot.length - 1))) := by
  obtain ⟨url, hurl, hpath, hhead⟩ := requestPath_of_run hr
  refine ⟨url, hurl, hpath, ?_⟩
  rw [hpath]
  apply confined_append_iff
  rcases hhead with hnil | hslash
  · rw [hnil]
    exact .inl List.take_nil
  · right
    rw [List.head?_take, if_neg (by decide), hslash]

theorem confined_iff_dispatched : ∃ url, dispatched.url = some url ∧
    dispatched.requestPath url = docRoot ++
      (cstring READ_BUFFER_SIZE dispatched.readBuf url).take (FILENAME_LEN - docRoot.length - 1) ∧
    (Confined (dispatched.requestPath url) ↔ Inside
      ((cstring READ_BUFFER_SIZE dispatched.readBuf url).take
        (FILENAME_LEN - docRoot.length - 1))) := by
  have hrun : Run Call unused.init ([] ++ [(bytes "GET / HTTP/1.1", .doRequest)]) dispatched :=
    dispatched_run
  exact confined_iff hrun

/-- A slot in `do_request` with a URL that climbs. -/
def climbing : HttpConn := (unused.init.receive (bytes "GET /../x HTTP/1.1")).pendingLine.2

theorem climbing_run : Run Call unused.init [(bytes "GET /../x HTTP/1.1", .doRequest)] climbing :=
  run_pendingLine (by decide) ⟨by decide, by decide⟩ (by decide)

/-- This URL leads to `/var/www/x`. -/
theorem climbing_escapes : ¬ ∀ (c₀ c : HttpConn) (ls : List (List UInt8 × Outcome))
    (chunk : List UInt8), Run Call c₀.init (ls ++ [(chunk, .doRequest)]) c →
    ∃ url, c.url = some url ∧ Confined (c.requestPath url) := by
  intro hall
  obtain ⟨url, hurl, hpath⟩ := hall _ _ [] _ climbing_run
  have h4 : url = 4 := Option.some.inj (hurl.symm.trans (by decide +kernel))
  have hout : ¬ resolved docRoot <+: resolved (climbing.requestPath 4) := by decide +kernel
  rw [h4] at hpath
  exact hout hpath

end HttpConn

end SocketTest.Http
