import SocketTest.Http.ProcessRead
import SocketTest.Lib.CText

/-!
# The grammar of request lines

`parse_request_line` takes a line apart where it finds blanks and compares the parts; the NUL that it
writes behind each part ends the next comparison. `request_line_grammar` gives the lines that it
accepts and where `m_url` points then.
-/

namespace SocketTest.Http

open SocketTest.Lib

/-- Blanks or tabs, at least one. -/
def Separator (s : List UInt8) : Prop := s ≠ [] ∧ ∀ b ∈ s, b ∈ blanks

theorem separator_one : Separator [SP] := by
  refine ⟨List.cons_ne_nil _ _, fun b hb => ?_⟩
  rw [List.mem_singleton.1 hb]
  exact List.mem_cons_self

theorem separator_two : Separator [SP, SP] := by
  refine ⟨List.cons_ne_nil _ _, fun b hb => ?_⟩
  rcases List.mem_cons.1 hb with rfl | hb
  · exact List.mem_cons_self
  · exact separator_one.2 b hb

/-- What stands in front of the path of a URL: nothing, or `http://` and a host. -/
def Origin (s : List UInt8) : Prop :=
  s = [] ∨ ∃ scheme host, s = scheme ++ host ∧ CaseEq scheme (bytes "http://") ∧ 47 ∉ host

/-- A request line that is accepted. -/
structure GetLine where
  method : List UInt8
  sep : List UInt8
  origin : List UInt8
  path : List UInt8
  sep' : List UInt8
  version : List UInt8
  method_get : CaseEq method (bytes "GET")
  sep_separator : Separator sep
  origin_origin : Origin origin
  path_head : path.head? = some 47
  url_word : ∀ b ∈ origin ++ path, b ∉ blanks
  sep'_separator : Separator sep'
  version_http : CaseEq version (bytes "HTTP/1.1")

namespace GetLine

def url (g : GetLine) : List UInt8 := g.origin ++ g.path

def line (g : GetLine) : List UInt8 := g.method ++ g.sep ++ g.url ++ g.sep' ++ g.version

/-- Where the path begins. -/
def pathPos (g : GetLine) : ℕ := g.method.length + g.sep.length + g.origin.length

end GetLine

/-- Three fields with separators between them. -/
structure Fields where
  method : List UInt8
  sep : List UInt8
  url : List UInt8
  sep' : List UInt8
  version : List UInt8
  method_word : ∀ b ∈ method, b ∉ blanks
  sep_separator : Separator sep
  url_ne : url ≠ []
  url_word : ∀ b ∈ url, b ∉ blanks
  sep'_separator : Separator sep'
  version_head : version.headD NUL ∉ blanks

def Fields.line (f : Fields) : List UInt8 := f.method ++ f.sep ++ f.url ++ f.sep' ++ f.version

theorem nul_not_mem_blanks : NUL ∉ blanks := by decide

/-- The letters of a word of the protocol are no blanks. -/
theorem not_blank_of_caseEq {s t : List UInt8} (h : CaseEq s t)
    (hSP : SP ∉ t.map toLower) (hTAB : TAB ∉ t.map toLower) : ∀ b ∈ s, b ∉ blanks := by
  intro b hb hblank
  have hmem : toLower b ∈ t.map toLower := h ▸ List.mem_map_of_mem hb
  rcases List.mem_cons.1 hblank with rfl | hblank
  · exact hSP hmem
  · rw [List.mem_singleton.1 hblank] at hmem
    exact hTAB hmem

theorem GetLine.url_ne (g : GetLine) : g.url ≠ [] := by
  intro h
  have hp := g.path_head
  rw [(List.append_eq_nil_iff.1 h).2] at hp
  cases hp

def GetLine.toFields (g : GetLine) : Fields where
  method := g.method
  sep := g.sep
  url := g.url
  sep' := g.sep'
  version := g.version
  method_word := not_blank_of_caseEq g.method_get (by decide) (by decide)
  sep_separator := g.sep_separator
  url_ne := g.url_ne
  url_word := g.url_word
  sep'_separator := g.sep'_separator
  version_head := by
    have hall := not_blank_of_caseEq g.version_http (by decide) (by decide)
    cases hv : g.version with
    | nil => exact nul_not_mem_blanks
    | cons b v => exact hall b (hv ▸ List.mem_cons_self)

/-- A text without a byte of a kind, or cut in front of the first one. -/
theorem cut_at (P : UInt8 → Prop) [DecidablePred P] (s : List UInt8) :
    (∀ b ∈ s, ¬ P b) ∨ ∃ u b v, s = u ++ b :: v ∧ (∀ b ∈ u, ¬ P b) ∧ P b := by
  induction s with
  | nil => exact .inl fun b hb => absurd hb List.not_mem_nil
  | cons a s ih =>
    by_cases ha : P a
    · exact .inr ⟨[], a, s, rfl, fun b hb => absurd hb List.not_mem_nil, ha⟩
    · rcases ih with h | ⟨u, b, v, rfl, hu, hb⟩
      · exact .inl (List.forall_mem_cons.2 ⟨ha, h⟩)
      · exact .inr ⟨a :: u, b, v, rfl, List.forall_mem_cons.2 ⟨ha, hu⟩, hb⟩

/-- The blanks that a text begins with, and the rest. -/
theorem skip_blanks (s : List UInt8) :
    ∃ u v, s = u ++ v ∧ (∀ b ∈ u, b ∈ blanks) ∧ v.headD NUL ∉ blanks := by
  rcases cut_at (· ∉ blanks) s with h | ⟨u, b, v, rfl, hu, hb⟩
  · exact ⟨s, [], by rw [List.append_nil], fun b hb => not_not.1 (h b hb), nul_not_mem_blanks⟩
  · exact ⟨u, b :: v, rfl, fun b hb => not_not.1 (hu b hb), hb⟩

namespace HttpConn

variable {c : HttpConn} {text : ℕ}

/-! ## The URL -/

/-- Where `parse_request_line` looks for the slash of the URL at `p`. -/
def slash (buf : Buf) (p : ℕ) : Option ℕ :=
  if strncaseeq buf p (bytes "http://") then strchr READ_BUFFER_SIZE buf (p + 7) 47 else some p

/-- A string with a slash in it, split at the first one. -/
theorem strchr_slash_iff {buf : Buf} {p q : ℕ} {v : List UInt8} (h : StringAt buf p v)
    (hn : v.length ≤ READ_BUFFER_SIZE) : (strchr READ_BUFFER_SIZE buf p 47 = some q ∧ buf q = 47) ↔
      ∃ host rest, v = host ++ 47 :: rest ∧ 47 ∉ host ∧ q = p + host.length := by
  rcases cut_at (· = 47) v with hno | ⟨host, _, rest, rfl, hhost, rfl⟩
  · have hnot : (47 : UInt8) ∉ v := fun hm => hno 47 hm rfl
    rw [h.strchr_none hn hnot (by decide)]
    apply iff_of_false (fun hx => by cases hx.1)
    rintro ⟨host, rest, rfl, -, -⟩
    exact hnot (List.mem_append_right _ List.mem_cons_self)
  · have hnot : (47 : UInt8) ∉ host := fun hm => hhost 47 hm rfl
    rw [List.length_append] at hn
    rw [h.strchr_some (by omega) hnot]
    constructor
    · rintro ⟨hq, -⟩
      exact ⟨host, rest, rfl, hnot, (Option.some.inj hq).symm⟩
    · rintro ⟨host', rest', hv, hnot', rfl⟩
      obtain ⟨rfl, -⟩ := append_cons_inj hnot hnot' hv
      exact ⟨rfl, h.getD⟩

/-- An absolute URL does not begin with the slash. -/
theorem absolute_head {u v : List UInt8} (hu : CaseEq u (bytes "http://")) :
    (u ++ v).head? ≠ some 47 := by
  intro h47
  have hu47 : u.head? = some 47 := by
    cases u with
    | nil => cases hu.length
    | cons a u => exact h47
  have := hu.head
  rw [hu47] at this
  exact absurd this (by decide)

theorem origin_absolute_iff {u v : List UInt8} {p q : ℕ} (hu : CaseEq u (bytes "http://")) :
    (∃ origin path, u ++ v = origin ++ path ∧ Origin origin ∧ path.head? = some 47 ∧
        q = p + origin.length) ↔
      ∃ host rest, v = host ++ 47 :: rest ∧ 47 ∉ host ∧ q = p + 7 + host.length := by
  have hlen : u.length = 7 := hu.length
  constructor
  · rintro ⟨origin, path, hurl, rfl | ⟨scheme, host, rfl, hscheme, hnot⟩, hpath, rfl⟩
    · rw [List.nil_append] at hurl
      exact absurd (hurl ▸ hpath) (absolute_head hu)
    · obtain ⟨rest, rfl⟩ : ∃ rest, path = 47 :: rest := by
        cases path with
        | nil => cases hpath
        | cons b rest => exact ⟨rest, by rw [Option.some.inj hpath]⟩
      rw [List.append_assoc] at hurl
      obtain ⟨-, rfl⟩ := List.append_inj hurl (hlen.trans hscheme.length.symm)
      refine ⟨host, rest, rfl, hnot, ?_⟩
      rw [List.length_append, hscheme.length]
      exact (Nat.add_assoc _ _ _).symm
  · rintro ⟨host, rest, rfl, hnot, rfl⟩
    refine ⟨u ++ host, 47 :: rest, (List.append_assoc _ _ _).symm, .inr ⟨u, host, rfl, hu, hnot⟩, rfl, ?_⟩
    rw [List.length_append, hlen, Nat.add_assoc]

theorem slash_iff {buf : Buf} {p q : ℕ} {url : List UInt8} (h : StringAt buf p url)
    (hn : url.length ≤ READ_BUFFER_SIZE) : (slash buf p = some q ∧ buf q = 47) ↔
      ∃ origin path, url = origin ++ path ∧ Origin origin ∧ path.head? = some 47 ∧
        q = p + origin.length := by
  unfold slash
  have hiff := strncaseeq_iff h (show NUL ∉ bytes "http://" by decide)
  by_cases hs : strncaseeq buf p (bytes "http://") = true
  · obtain ⟨u, v, rfl, hu⟩ := hiff.1 hs
    have hlen : u.length = 7 := hu.length
    have hv : StringAt buf (p + 7) v := hlen ▸ h.append
    rw [List.length_append] at hn
    rw [if_pos hs, strchr_slash_iff hv (by omega), origin_absolute_iff hu]
  · rw [if_neg hs]
    constructor
    · rintro ⟨hq, h47⟩
      obtain rfl : p = q := Option.some.inj hq
      refine ⟨[], url, rfl, .inl rfl, ?_, rfl⟩
      cases url with
      | nil => exact absurd (h47.symm.trans h) (by decide)
      | cons b t => rw [List.head?_cons, ← h.1, h47]
    · rintro ⟨origin, path, rfl, rfl | ⟨scheme, host, rfl, hscheme, -⟩, hpath, rfl⟩
      · refine ⟨rfl, ?_⟩
        cases path with
        | nil => cases hpath
        | cons b t => exact h.1.trans (Option.some.inj hpath)
      · exact absurd (hiff.2 ⟨scheme, host ++ path, List.append_assoc _ _ _, hscheme⟩) hs

/-! ## `parse_request_line` in parts -/

/-- From the assignment of `m_version` on, `v` being the end of the URL. -/
def parseVersion (c : HttpConn) (url v : ℕ) : HttpCode × HttpConn :=
  let c₃ := c.put v NUL
  let version := strspn READ_BUFFER_SIZE c₃.readBuf (v + 1) blanks
  let c₄ : HttpConn := { c₃ with version := some version }
  if strcaseeq c₄.readBuf version (bytes "HTTP/1.1") then
    let c₅ : HttpConn := { c₄ with url := slash c₄.readBuf url }
    match slash c₄.readBuf url with
    | none => (.badRequest, c₅)
    | some w =>
      if c₅.readBuf w = 47 then (.noRequest, { c₅ with checkState := .header })
      else (.badRequest, c₅)
  else (.badRequest, c₄)

/-- Behind the method, which ends in front of `p`. -/
def parseUrl (c : HttpConn) (p : ℕ) : HttpCode × HttpConn :=
  let url := strspn READ_BUFFER_SIZE c.readBuf p blanks
  let c₂ : HttpConn := { c with method := .get, url := some url }
  match strpbrk READ_BUFFER_SIZE c₂.readBuf url blanks with
  | none => (.badRequest, { c₂ with version := none })
  | some v => c₂.parseVersion url v

/-- The text in front of the first blank is the method. -/
def endMethod (c : HttpConn) (u : ℕ) : HttpConn := { c.put u NUL with url := some (u + 1) }

theorem parseRequestLine_eq (c : HttpConn) (text : ℕ) :
    c.parseRequestLine text =
      match strpbrk READ_BUFFER_SIZE c.readBuf text blanks with
      | none => (.badRequest, { c with url := none })
      | some u =>
        if strcaseeq (c.endMethod u).readBuf text (bytes "GET") then
          (c.endMethod u).parseUrl (u + 1)
        else (.badRequest, c.endMethod u) := by
  unfold parseRequestLine parseUrl parseVersion slash endMethod
  rfl

section

variable {url v : ℕ} {w sep version : List UInt8}

/-- What `parse_request_line` does with the URL and what stands behind it. -/
theorem parseVersion_spec (hw : StringAt (c.put v NUL).readBuf url w)
    (hwn : w.length ≤ READ_BUFFER_SIZE)
    (hv : StringAt (c.put v NUL).readBuf (v + 1) (sep ++ version))
    (hsn : sep.length ≤ READ_BUFFER_SIZE) (hsep : ∀ b ∈ sep, b ∈ blanks)
    (hhead : version.headD NUL ∉ blanks) :
    ((c.parseVersion url v).1 = .noRequest → CaseEq version (bytes "HTTP/1.1") ∧
        ∃ origin path, w = origin ++ path ∧ Origin origin ∧ path.head? = some 47) ∧
      ∀ origin path, CaseEq version (bytes "HTTP/1.1") → w = origin ++ path → Origin origin →
        path.head? = some 47 → (c.parseVersion url v).1 = .noRequest ∧
          (c.parseVersion url v).2.url = some (url + origin.length) ∧
          (c.parseVersion url v).2.readBuf = (c.put v NUL).readBuf := by
  have hversion : strspn READ_BUFFER_SIZE (c.put v NUL).readBuf (v + 1) blanks =
      v + 1 + sep.length := hv.strspn hsn hsep hhead
  have hiff := strcaseeq_iff hv.append (show NUL ∉ bytes "HTTP/1.1" by decide)
  have hurl := fun q => @slash_iff _ _ q _ hw hwn
  unfold parseVersion
  dsimp only
  rw [hversion]
  by_cases hhttp : CaseEq version (bytes "HTTP/1.1")
  · rw [if_pos (hiff.2 hhttp)]
    cases hu : slash (c.put v NUL).readBuf url with
    | none =>
      refine ⟨fun hno => (by cases hno), fun origin path _ h1 h2 h3 => ?_⟩
      have := ((hurl _).2 ⟨origin, path, h1, h2, h3, rfl⟩).1
      rw [hu] at this
      cases this
    | some q =>
      dsimp only
      by_cases h47 : (c.put v NUL).readBuf q = 47
      · rw [if_pos h47]
        refine ⟨fun _ => ⟨hhttp, ?_⟩, fun origin path _ h1 h2 h3 => ⟨rfl, ?_, rfl⟩⟩
        · obtain ⟨origin, path, h1, h2, h3, -⟩ := (hurl q).1 ⟨hu, h47⟩
          exact ⟨origin, path, h1, h2, h3⟩
        · exact hu.symm.trans ((hurl _).2 ⟨origin, path, h1, h2, h3, rfl⟩).1
      · rw [if_neg h47]
        refine ⟨fun hno => (by cases hno), fun origin path _ h1 h2 h3 => ?_⟩
        obtain ⟨hq, hslash⟩ := (hurl _).2 ⟨origin, path, h1, h2, h3, rfl⟩
        rw [hu] at hq
        rw [← Option.some.inj hq] at hslash
        exact absurd hslash h47
  · rw [if_neg fun h => hhttp (hiff.1 h)]
    exact ⟨fun hno => (by cases hno), fun _ _ h => absurd h hhttp⟩

end

/-- The line up to the URL is taken off. -/
theorem parseRequestLine_method {method sep rest : List UInt8}
    (h : StringAt c.readBuf text (method ++ sep ++ rest))
    (hn : (method ++ sep ++ rest).length ≤ READ_BUFFER_SIZE) (hm : ∀ b ∈ method, b ∉ blanks)
    (hsep : Separator sep) (hrest : rest.headD NUL ∉ blanks) :
    ∃ d : HttpConn, StringAt d.readBuf (text + method.length + sep.length) rest ∧
      ((c.parseRequestLine text).1 = .noRequest → CaseEq method (bytes "GET")) ∧
      (CaseEq method (bytes "GET") → c.parseRequestLine text =
        match strpbrk READ_BUFFER_SIZE d.readBuf (text + method.length + sep.length) blanks with
        | none => (.badRequest, { d with version := none })
        | some v => d.parseVersion (text + method.length + sep.length) v) := by
  obtain ⟨hne, hblank⟩ := hsep
  obtain ⟨b, sep, rfl⟩ := List.exists_cons_of_ne_nil hne
  rw [List.append_assoc, List.cons_append] at h
  simp only [List.length_append, List.length_cons] at hn
  have hu : strpbrk READ_BUFFER_SIZE c.readBuf text blanks = some (text + method.length) :=
    h.strpbrk_some (by omega) hm (hblank b List.mem_cons_self)
  have hmethod : StringAt (c.endMethod (text + method.length)).readBuf text method := h.put_left
  have hright : StringAt (c.endMethod (text + method.length)).readBuf (text + method.length + 1)
      (sep ++ rest) := h.put_right
  have hiff := strcaseeq_iff hmethod (show NUL ∉ bytes "GET" by decide)
  have hpos : text + method.length + 1 + sep.length =
      text + method.length + (b :: sep).length := by
    rw [List.length_cons]
    omega
  have hurl : strspn READ_BUFFER_SIZE (c.endMethod (text + method.length)).readBuf
      (text + method.length + 1) blanks = text + method.length + (b :: sep).length := by
    rw [← hpos]
    exact hright.strspn (by omega) (fun c hc => hblank c (List.mem_cons_of_mem _ hc)) hrest
  rw [parseRequestLine_eq, hu]
  dsimp only
  refine ⟨{ c.endMethod (text + method.length) with
    method := .get, url := some (text + method.length + (b :: sep).length) }, ?_, ?_, ?_⟩
  · rw [← hpos]
    exact hright.append
  · intro hacc
    by_contra hget
    rw [if_neg fun h => hget (hiff.1 h)] at hacc
    cases hacc
  · intro hget
    rw [if_pos (hiff.2 hget), parseUrl, hurl]

/-! ## Lines with three fields and others -/

theorem parseRequestLine_fields (f : Fields) (h : StringAt c.readBuf text f.line)
    (hn : f.line.length ≤ READ_BUFFER_SIZE) :
    ((c.parseRequestLine text).1 = .noRequest → CaseEq f.method (bytes "GET") ∧
        CaseEq f.version (bytes "HTTP/1.1") ∧
        ∃ origin path, f.url = origin ++ path ∧ Origin origin ∧ path.head? = some 47) ∧
      ∀ origin path, CaseEq f.method (bytes "GET") → CaseEq f.version (bytes "HTTP/1.1") →
        f.url = origin ++ path → Origin origin → path.head? = some 47 →
          (c.parseRequestLine text).1 = .noRequest ∧
            (c.parseRequestLine text).2.url =
              some (text + f.method.length + f.sep.length + origin.length) ∧
            StringAt (c.parseRequestLine text).2.readBuf
              (text + f.method.length + f.sep.length + origin.length) path := by
  obtain ⟨method, sep, url, sep', version, hm, hsep, hne, hurl, ⟨hne', hblank⟩, hhead⟩ := f
  obtain ⟨b, sep', rfl⟩ := List.exists_cons_of_ne_nil hne'
  dsimp only [Fields.line] at h hn ⊢
  rw [List.append_assoc _ url, List.append_assoc _ (url ++ _)] at h hn
  have hfirst : (url ++ b :: sep' ++ version).headD NUL ∉ blanks := by
    obtain ⟨a, url, rfl⟩ := List.exists_cons_of_ne_nil hne
    exact hurl a List.mem_cons_self
  obtain ⟨d, hd, hget, hrest⟩ := parseRequestLine_method h hn hm hsep hfirst
  generalize text + method.length + sep.length = p at hd hrest ⊢
  rw [List.append_assoc, List.cons_append] at hd
  simp only [List.length_append, List.length_cons] at hn
  have hv : strpbrk READ_BUFFER_SIZE d.readBuf p blanks = some (p + url.length) :=
    hd.strpbrk_some (by omega) hurl (hblank b List.mem_cons_self)
  rw [hv] at hrest
  have hw : StringAt (d.put (p + url.length) NUL).readBuf p url := hd.put_left
  have hright : StringAt (d.put (p + url.length) NUL).readBuf (p + url.length + 1)
      (sep' ++ version) := hd.put_right
  obtain ⟨hsound, hcomplete⟩ := parseVersion_spec hw (by omega) hright (by omega)
    (fun c hc => hblank c (List.mem_cons_of_mem _ hc)) hhead
  constructor
  · intro hacc
    have hg := hget hacc
    rw [hrest hg] at hacc
    exact ⟨hg, hsound hacc⟩
  · intro origin path hg hhttp hsplit horigin hpath
    rw [hrest hg]
    obtain ⟨h1, h2, h3⟩ := hcomplete origin path hhttp hsplit horigin hpath
    refine ⟨h1, h2, ?_⟩
    show StringAt (d.parseVersion p (p + url.length)).2.readBuf _ path
    rw [h3]
    subst hsplit
    exact hw.append

theorem parseRequestLine_other {s : List UInt8} (h : StringAt c.readBuf text s)
    (hn : s.length ≤ READ_BUFFER_SIZE) (hno : ∀ f : Fields, f.line ≠ s) :
    (c.parseRequestLine text).1 ≠ .noRequest := by
  rcases cut_at (· ∈ blanks) s with hs | ⟨method, b, rest, rfl, hm, hb⟩
  · rw [parseRequestLine_eq, h.strpbrk_none hn hs nul_not_mem_blanks]
    nofun
  obtain ⟨sep, rest, rfl, hsep, hhead⟩ := skip_blanks rest
  have hsep' : Separator (b :: sep) :=
    ⟨List.cons_ne_nil b sep, List.forall_mem_cons.2 ⟨hb, hsep⟩⟩
  have hline : method ++ b :: (sep ++ rest) = method ++ b :: sep ++ rest := by
    rw [List.append_assoc, List.cons_append]
  rw [hline] at h hn hno
  obtain ⟨d, hd, hget, hrest⟩ := parseRequestLine_method h hn hm hsep' hhead
  intro hacc
  rw [hrest (hget hacc)] at hacc
  rw [List.length_append] at hn
  rcases cut_at (· ∈ blanks) rest with hs | ⟨url, b', rest', rfl, hurl, hb'⟩
  · rw [hd.strpbrk_none (by omega) hs nul_not_mem_blanks] at hacc
    cases hacc
  · -- with a second separator there would be three fields
    obtain ⟨sep', version, rfl, hsep', hhead'⟩ := skip_blanks rest'
    refine hno ⟨method, b :: sep, url, b' :: sep', version, hm, ‹_›, ?_, hurl,
      ⟨List.cons_ne_nil b' sep', List.forall_mem_cons.2 ⟨hb', hsep'⟩⟩, hhead'⟩ ?_
    · rintro rfl
      exact hhead hb'
    · simp only [Fields.line, List.append_assoc, List.cons_append]

theorem parseRequestLine_getLine (g : GetLine) (hs : StringAt c.readBuf text g.line)
    (hn : g.line.length ≤ READ_BUFFER_SIZE) : (c.parseRequestLine text).1 = .noRequest ∧
      (c.parseRequestLine text).2.url = some (text + g.pathPos) ∧
      cstring READ_BUFFER_SIZE (c.parseRequestLine text).2.readBuf (text + g.pathPos) = g.path := by
  have hpos : text + g.pathPos = text + g.method.length + g.sep.length + g.origin.length := by
    rw [GetLine.pathPos]
    omega
  have hroom : g.path.length ≤ READ_BUFFER_SIZE := by
    simp only [GetLine.line, GetLine.url, List.length_append] at hn
    omega
  obtain ⟨hacc, hurl, hpath⟩ := (parseRequestLine_fields g.toFields hs hn).2 g.origin g.path
    g.method_get g.version_http rfl g.origin_origin g.path_head
  rw [hpos]
  exact ⟨hacc, hurl, hpath.cstring hroom⟩

theorem getLine_of_accepted {line : List UInt8} (hs : StringAt c.readBuf text line)
    (hn : line.length ≤ READ_BUFFER_SIZE) (hacc : (c.parseRequestLine text).1 = .noRequest) :
    ∃ g : GetLine, g.line = line := by
  by_cases hf : ∃ f : Fields, f.line = line
  · obtain ⟨f, rfl⟩ := hf
    obtain ⟨hget, hhttp, origin, path, hurl, horigin, hpath⟩ :=
      (parseRequestLine_fields f hs hn).1 hacc
    refine ⟨⟨f.method, f.sep, origin, path, f.sep', f.version, hget, f.sep_separator, horigin, hpath,
      hurl ▸ f.url_word, f.sep'_separator, hhttp⟩, ?_⟩
    show f.method ++ f.sep ++ (origin ++ path) ++ f.sep' ++ f.version = f.line
    rw [← hurl]
    rfl
  · exact absurd hacc (parseRequestLine_other hs hn fun f hf' => hf ⟨f, hf'⟩)

theorem accepted_iff_getLine (hnul : ∃ i ≤ READ_BUFFER_SIZE, c.readBuf (text + i) = NUL) :
    (c.parseRequestLine text).1 = .noRequest ↔
      ∃ g : GetLine, g.line = cstring READ_BUFFER_SIZE c.readBuf text := by
  obtain ⟨i, hi, hend⟩ := hnul
  obtain ⟨line, hline, hs, hn⟩ := exists_stringAt hi hend
  rw [hline]
  constructor
  · exact getLine_of_accepted hs hn
  · rintro ⟨g, rfl⟩
    exact (parseRequestLine_getLine g hs hn).1

theorem url_of_getLine (hnul : ∃ i ≤ READ_BUFFER_SIZE, c.readBuf (text + i) = NUL) {g : GetLine}
    (hg : g.line = cstring READ_BUFFER_SIZE c.readBuf text) :
    (c.parseRequestLine text).2.url = some (text + g.pathPos) ∧
      cstring READ_BUFFER_SIZE (c.parseRequestLine text).2.readBuf (text + g.pathPos) = g.path := by
  obtain ⟨i, hi, hend⟩ := hnul
  obtain ⟨line, hline, hs, hn⟩ := exists_stringAt hi hend
  rw [hline] at hg
  subst hg
  exact (parseRequestLine_getLine g hs hn).2

theorem parseRequestLine_refuses (hrej : (c.parseRequestLine text).1 ≠ .noRequest) :
    (c.parseRequestLine text).1 = .badRequest ∧
      (c.parseRequestLine text).2.checkState = c.checkState := by
  obtain ⟨buf, st, m, u, v, -, -, ⟨hbad, -⟩ | ⟨hno, -⟩⟩ := parseRequestLine_frame c text
  · exact ⟨hbad, parseRequestLine_rejects hbad⟩
  · exact absurd hno hrej

/-- **The request line.** Whatever string stands at `text`, `parse_request_line` accepts it exactly
when it is a `GetLine`; `m_url` then points to the path, which is a string of its own. -/
theorem request_line_grammar (c : HttpConn) (text : ℕ)
    (hnul : ∃ i < READ_BUFFER_SIZE, c.readBuf (text + i) = NUL) :
    ((c.parseRequestLine text).1 = .noRequest ↔
        ∃ g : GetLine, g.line = cstring READ_BUFFER_SIZE c.readBuf text) ∧
      (∀ g : GetLine, g.line = cstring READ_BUFFER_SIZE c.readBuf text →
        (c.parseRequestLine text).2.url = some (text + g.pathPos) ∧
        cstring READ_BUFFER_SIZE (c.parseRequestLine text).2.readBuf (text + g.pathPos) = g.path ∧
        (c.parseRequestLine text).2.checkState = .header) ∧
      ((c.parseRequestLine text).1 ≠ .noRequest →
        (c.parseRequestLine text).1 = .badRequest ∧
          (c.parseRequestLine text).2.checkState = c.checkState) := by
  obtain ⟨i, hi, hend⟩ := hnul
  have hnul' : ∃ i ≤ READ_BUFFER_SIZE, c.readBuf (text + i) = NUL := ⟨i, hi.le, hend⟩
  refine ⟨accepted_iff_getLine hnul', fun g hg => ?_, parseRequestLine_refuses⟩
  obtain ⟨hurl, hpath⟩ := url_of_getLine hnul' hg
  have hacc := (accepted_iff_getLine hnul').2 ⟨g, hg⟩
  exact ⟨hurl, hpath, parseRequestLine_accepts (by rw [hacc]; decide)⟩

/-- An absolute URL with two blanks in front of it. -/
def absolute : GetLine where
  method := bytes "get"
  sep := [SP, SP]
  origin := bytes "HTTP://h"
  path := bytes "/x"
  sep' := [SP]
  version := bytes "Http/1.1"
  method_get := by decide
  sep_separator := separator_two
  origin_origin := .inr ⟨bytes "HTTP://", bytes "h", by decide, by decide, by decide⟩
  path_head := by decide
  url_word := by
    have hall : (bytes "HTTP://h" ++ bytes "/x").all fun b => b ∉ blanks := by decide
    exact fun b hb => of_decide_eq_true (List.all_eq_true.1 hall b hb)
  sep'_separator := separator_one
  version_http := by decide

theorem request_line_grammar_absolute :
    ((unused.receive absolute.line).parseRequestLine 0).1 = .noRequest ∧
      ((unused.receive absolute.line).parseRequestLine 0).2.url = some 13 := by
  obtain ⟨hiff, hall, -⟩ := request_line_grammar (unused.receive absolute.line) 0
    ⟨24, by decide, by decide +kernel⟩
  have hline : absolute.line =
      cstring READ_BUFFER_SIZE (unused.receive absolute.line).readBuf 0 := by decide +kernel
  exact ⟨hiff.2 ⟨absolute, hline⟩, (hall absolute hline).1⟩

end HttpConn

end SocketTest.Http
