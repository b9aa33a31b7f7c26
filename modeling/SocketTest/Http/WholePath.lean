import SocketTest.Http.DocRoot
import SocketTest.Http.RequestLine
import SocketTest.Http.Requests

/-!
# The path of the URL in `m_real_file`

From `parse_request_line` to `do_request` the path of the URL stays the string at `m_url`.
`do_request` copies what fits behind `doc_root` and does not look at what does not: `whole_path` says
for which paths and files the client gets the file it has named, or an error.
-/

namespace SocketTest.Http.HttpConn

open SocketTest.Lib

variable {c₀ c c₀' c' : HttpConn} {g g' : GetLine} {files : Files} {url : ℕ} {u : List UInt8}

/-- A request whose line is `g` comes to `do_request` with the connection `c`: after calls that returned
`NO_REQUEST`, the last one gives the line to `parse_request_line`. -/
def Requested (c₀ : HttpConn) (g : GetLine) (c : HttpConn) : Prop :=
  ∃ (earlier : List (List UInt8)) (last : List UInt8) (c₁ : HttpConn),
    Run Call c₀.init (earlier.map fun chunk => (chunk, .code .noRequest)) c₁ ∧
      Call c₁ (last, .doRequest) c ∧
      g.line = cstring READ_BUFFER_SIZE (c₁.read last).2.parseLine.2.readBuf (c₁.read last).2.startLine

/-- `do_request` finds a file that it serves. -/
def Served (files : Files) (path : List UInt8) : Prop :=
  ∃ st, files path = some st ∧ st.othersRead = true ∧ st.isDir = false

/-- The room for the URL in `m_real_file`. -/
def URL_ROOM : ℕ := FILENAME_LEN - docRoot.length - 1

/-- `m_real_file` is `doc_root` and all of the path, with its NUL, or the answer is an error page. -/
def WholePath (c : HttpConn) (files : Files) (u : List UInt8) : Prop :=
  (cstring FILENAME_LEN (c.doRequest files).2.realFile 0 = docRoot ++ u ∧
      (docRoot ++ u).length < FILENAME_LEN) ∨
    (c.doRequest files).1 ∈ errorCodes

/-! ## The path at `m_url` -/

/-- Such a call accepts the text at `m_start_line`, which a NUL ends. -/
theorem call_accepts {earlier : List (List UInt8)} {last : List UInt8} {c₁ : HttpConn}
    (hrun : Run Call c₀.init (earlier.map fun chunk => (chunk, .code .noRequest)) c₁)
    (hcall : Call c₁ (last, .doRequest) c) :
    (∃ i ≤ READ_BUFFER_SIZE, (c₁.read last).2.parseLine.2.nextLine.readBuf
        ((c₁.read last).2.startLine + i) = NUL) ∧
      (c₁.read last).2.pendingLine.1 ≠ .badRequest ∧ c = (c₁.read last).2.pendingLine.2 := by
  obtain ⟨hread, hr⟩ := hcall
  dsimp only at hread hr
  have hun := (unread_of_run hrun).read hread
  have hroom := (read_eq hread).2
  have hidx : (c₁.read last).2.readIdx = c₁.readIdx + last.length := by
    rw [(read_eq hread).1]
    rfl
  generalize (c₁.read last).2 = d at hr hun hidx ⊢
  have hend : d.parseLine.2.nextLine.readBuf (d.startLine + d.readIdx) = NUL :=
    hun.resumed.clear.parseLine.nul _ (by rw [parseLine_readIdx]; omega)
  rcases returns_requestLine hun.resumed hun.checkState hr with ⟨-, he⟩ | ⟨-, -, he⟩ | ⟨-, hacc, he⟩
  · cases he
  · cases he
  · cases he
    exact ⟨⟨d.readIdx, by omega, hend⟩, hacc, rfl⟩

/-- `do_request` gets the path that `parse_request_line` has accepted. -/
theorem Requested.path (h : Requested c₀ g c) :
    ∃ p, c.url = some p ∧ cstring READ_BUFFER_SIZE c.readBuf p = g.path := by
  obtain ⟨earlier, last, c₁, hrun, hcall, hg⟩ := h
  obtain ⟨hend, -, rfl⟩ := call_accepts hrun hcall
  obtain ⟨hurl, hstr⟩ := url_of_getLine hend hg
  exact ⟨_, hurl, hstr⟩

/-- Every request that comes to `do_request` has such a line. -/
theorem requested_of_run {earlier : List (List UInt8)} {last : List UInt8} {c₁ : HttpConn}
    (hrun : Run Call c₀.init (earlier.map fun chunk => (chunk, .code .noRequest)) c₁)
    (hcall : Call c₁ (last, .doRequest) c) : ∃ g, Requested c₀ g c := by
  obtain ⟨hend, hacc, -⟩ := call_accepts hrun hcall
  by_cases hno : (c₁.read last).2.pendingLine.1 = .noRequest
  · obtain ⟨g, hg⟩ := (accepted_iff_getLine hend).1 hno
    exact ⟨g, earlier, last, c₁, hrun, hcall, hg⟩
  · exact absurd (parseRequestLine_refuses hno).1 hacc

theorem Requested.located (h : Requested c₀ g c) : Located c := by
  obtain ⟨earlier, last, c₁, hrun, hcall, -⟩ := h
  exact located_of_run (hrun.append (.single hcall))

/-! ## `do_request` -/

theorem doRequest_realFile (hurl : c.url = some url) :
    cstring FILENAME_LEN (c.doRequest files).2.realFile 0 = c.requestPath url := by
  unfold doRequest requestPath
  rw [hurl]
  dsimp only
  cases files _ with
  | none => rfl
  | some st =>
    dsimp only
    split_ifs <;> rfl

/-- The answer is an error page exactly when the path names nothing that is served. -/
theorem doRequest_error_iff (hurl : c.url = some url) :
    (c.doRequest files).1 ∈ errorCodes ↔ ¬ Served files (c.requestPath url) := by
  unfold doRequest Served
  rw [hurl]
  dsimp only
  rw [show cstring FILENAME_LEN (c.setRealFile (cstring READ_BUFFER_SIZE c.readBuf url)).realFile 0 =
    c.requestPath url from rfl]
  have hnotFound : HttpCode.noResource ∈ errorCodes := by decide
  have hforbidden : HttpCode.forbiddenRequest ∈ errorCodes := by decide
  have hbad : HttpCode.badRequest ∈ errorCodes := by decide
  have hfile : HttpCode.fileRequest ∉ errorCodes := by decide
  cases files (c.requestPath url) with
  | none => exact iff_of_true hnotFound fun ⟨st, hst, _⟩ => by cases hst
  | some st =>
    dsimp only
    by_cases hread : st.othersRead = true
    · rw [if_neg (not_not_intro hread)]
      by_cases hdir : st.isDir = true
      · rw [if_pos hdir]
        refine iff_of_true hbad fun ⟨st', hst, _, h2⟩ => ?_
        cases hst
        rw [hdir] at h2
        cases h2
      · rw [if_neg hdir]
        exact iff_of_false hfile (not_not_intro ⟨st, rfl, hread, by simpa using hdir⟩)
    · rw [if_pos hread]
      refine iff_of_true hforbidden fun ⟨st', hst, h1, _⟩ => ?_
      cases hst
      exact hread h1

theorem Requested.realFile (h : Requested c₀ g c) (files : Files) :
    cstring FILENAME_LEN (c.doRequest files).2.realFile 0 = docRoot ++ g.path.take URL_ROOM ∧
      ((c.doRequest files).1 ∈ errorCodes ↔ ¬ Served files (docRoot ++ g.path.take URL_ROOM)) := by
  obtain ⟨p, hurl, hstr⟩ := h.path
  have hpath := requestPath_eq h.located.realFile p
  rw [hstr] at hpath
  rw [doRequest_realFile hurl, doRequest_error_iff hurl, hpath]
  exact ⟨rfl, Iff.rfl⟩

/-- **The requested path.** It is used whole, or the answer is an error, exactly when it fits or the
part that fits names no file that is served. Two requests for which this is so get one file only when
they have named the same one. -/
theorem whole_path (h : Requested c₀ g c) (files : Files) :
    (WholePath c files g.path ↔
        g.path.length ≤ URL_ROOM ∨ ¬ Served files (docRoot ++ g.path.take URL_ROOM)) ∧
      ∀ c₀' c' g', Requested c₀' g' c' → WholePath c files g.path → WholePath c' files g'.path →
        (c.doRequest files).1 = .fileRequest → (c'.doRequest files).1 = .fileRequest →
        cstring FILENAME_LEN (c.doRequest files).2.realFile 0 =
          cstring FILENAME_LEN (c'.doRequest files).2.realFile 0 → g.path = g'.path := by
  have hnames : ∀ {d : HttpConn} {u : List UInt8}, WholePath d files u →
      (d.doRequest files).1 = .fileRequest →
      cstring FILENAME_LEN (d.doRequest files).2.realFile 0 = docRoot ++ u := by
    rintro d u (⟨hw, -⟩ | herr) hfile
    · exact hw
    · rw [hfile] at herr
      exact absurd herr (by decide)
  constructor
  · obtain ⟨hreal, herr⟩ := h.realFile files
    have hroom : URL_ROOM + docRoot.length + 1 = FILENAME_LEN := by decide
    unfold WholePath
    rw [herr, hreal]
    constructor
    · rintro (⟨-, hlen⟩ | hno)
      · rw [List.length_append] at hlen
        exact .inl (by omega)
      · exact .inr hno
    · rintro (hlen | hno)
      · rw [List.take_of_length_le hlen, List.length_append]
        exact .inl ⟨rfl, by omega⟩
      · exact .inr hno
  · intro c₀' c' g' _ hw hw' hfile hfile' hsame
    rw [hnames hw hfile, hnames hw' hfile'] at hsame
    exact List.append_cancel_left hsame

/-! ## Requests -/

/-- `GET <path> HTTP/1.1` without a line end. -/
def plainLine (path : List UInt8) (hhead : path.head? = some 47) (hword : ∀ b ∈ path, b ∉ blanks) :
    GetLine where
  method := bytes "GET"
  sep := [SP]
  origin := []
  path := path
  sep' := [SP]
  version := bytes "HTTP/1.1"
  method_get := rfl
  sep_separator := separator_one
  origin_origin := .inl rfl
  path_head := hhead
  url_word := hword
  sep'_separator := separator_one
  version_http := rfl

/-- A path of 201 bytes. -/
def longPath : List UInt8 := 47 :: List.replicate 200 97

theorem longPath_word : ∀ b ∈ longPath, b ∉ blanks := by
  intro b hb
  rcases List.mem_cons.1 hb with rfl | hb
  · decide
  · rw [List.eq_of_mem_replicate hb]
    decide

def longLine : GetLine := plainLine longPath rfl longPath_word

def rootLine : GetLine :=
  plainLine (bytes "/") rfl fun b hb => by
    rw [List.mem_singleton.1 hb]
    decide

/-- A slot that has got the line at once. -/
def requesting (g : GetLine) : HttpConn := (unused.init.receive g.line).pendingLine.2

theorem requested_line (hread : (unused.init.read g.line).1 = true)
    (hout : (unused.init.receive g.line).RunsOut)
    (hacc : (unused.init.receive g.line).pendingLine.1 ≠ .badRequest)
    (hline : g.line = cstring READ_BUFFER_SIZE (unused.init.receive g.line).parseLine.2.readBuf 0) :
    Requested unused g (requesting g) := by
  have hrun := run_pendingLine hread hout hacc
  obtain ⟨hread', hr⟩ : Call unused.init (g.line, .doRequest) (requesting g) := by
    cases hrun with
    | cons hcall hnil =>
      cases hnil
      exact hcall
  refine ⟨[], g.line, unused.init, .nil _, ⟨hread', hr⟩, ?_⟩
  rw [(read_eq hread).1]
  exact hline

theorem requested_root : Requested unused rootLine (requesting rootLine) :=
  requested_line (by decide) ⟨by decide, by decide⟩ (by decide) (by decide +kernel)

theorem requested_long : Requested unused longLine (requesting longLine) :=
  requested_line (by decide +kernel) ⟨by decide +kernel, by decide +kernel⟩ (by decide +kernel)
    (by decide +kernel)

theorem whole_path_root : WholePath (requesting rootLine) oneByte rootLine.path :=
  ((whole_path requested_root oneByte).1).2 (.inl (by decide))

/-- The client asks for 201 bytes and gets the file under the first 186. -/
theorem path_cut : ¬ ∀ (c₀ : HttpConn) (g : GetLine) (c : HttpConn) (files : Files),
    Requested c₀ g c → WholePath c files g.path := by
  intro hall
  rcases hall _ _ _ oneByte requested_long with ⟨-, hlen⟩ | herr
  · exact absurd hlen (by decide +kernel)
  · exact ((requested_long.realFile oneByte).2.1 herr) ⟨_, rfl, rfl, rfl⟩

end SocketTest.Http.HttpConn
