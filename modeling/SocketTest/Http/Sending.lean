import SocketTest.Http.FileResponse

/-!
# Sending a file

The main thread calls `write` on `EPOLLOUT`, and `writev` may take any part of what `m_iv` lists.
`write` neither moves `m_iv` on nor keeps its counters from call to call, and it compares what is left
of the header with what has been sent: `sent_once_iff` says for which results of `writev` the socket
still gets the response.
-/

namespace SocketTest.Http

open SocketTest.Lib

/-- A connection with a response, where the response is, and what the socket has accepted of it. -/
structure Sending where
  conn : HttpConn
  phase : Phase
  accepted : List UInt8

/-- The bytes that `writev` has taken. -/
def Writev.count : Writev → ℕ
  | .sent n => n
  | _ => 0

inductive Event
  /-- the main thread calls `write` -/
  | epollout
  /-- `writev` returns in the loop of `write` -/
  | writev (r : Writev)
  deriving DecidableEq, Repr

def Event.count : Event → ℕ
  | .epollout => 0
  | .writev r => r.count

inductive SendStep : Sending → Event → Sending → Prop
  | call {s : Sending} : s.phase = .waiting →
      SendStep s .epollout ⟨s.conn.writeStart.2, s.conn.writeStart.1, s.accepted⟩
  | round {s : Sending} {toSend haveSend : ℤ} {r : Writev} : s.phase = .loop toSend haveSend →
      r.count ≤ s.conn.gather.length →
      SendStep s (.writev r) ⟨(s.conn.writeRound toSend haveSend r).2,
        (s.conn.writeRound toSend haveSend r).1, s.accepted ++ s.conn.gather.take r.count⟩

/-- The numbers of bytes that `writev` took, where it took any. -/
def counts (es : List Event) : List ℕ := (es.map Event.count).filter fun n => n ≠ 0

/-- `write` has treated the response as finished. -/
def Phase.Finished : Phase → Prop
  | .finished _ => True
  | _ => False

/-- `writev` has taken nothing, or everything at once, or less than half of the header and nothing
more. -/
def AtOnce (header file : ℕ) (ns : List ℕ) : Prop :=
  ns = [] ∨ ns = [header + file] ∨ ∃ n, ns = [n] ∧ 2 * n < header

namespace HttpConn

variable {c₀ c : HttpConn} {files : Files} {es : List Event} {s s' : Sending} {e : Event}

/-- A file response behind `init`, `process_read`, `do_request` and `process_write`. -/
def Prepared (c₀ : HttpConn) (files : Files) (c : HttpConn) : Prop :=
  ∃ ls c₁ c₂, Run Call c₀.init ls c₁ ∧ c₁.doRequest files = (.fileRequest, c₂) ∧
    c₂.processWrite .fileRequest = (true, c)

/-! ## The prepared response -/

/-- Only the first byte of the header is an `H`. -/
theorem fileHeader_head (linger : Bool) (size : ℤ) :
    ∃ rest, fileHeader linger size = 72 :: rest ∧ 72 ∉ rest := by
  refine ⟨_, by rw [fileHeader, statusLine_ok, List.cons_append], ?_⟩
  have hn : (72 : UInt8) ∉ decimal (toInt32 size) := by
    intro h
    rcases decimal_bytes h with h | ⟨-, h⟩
    · exact absurd h (by decide)
    · exact absurd h (by decide)
  have hlinger : (72 : UInt8) ∉ connectionLine linger := by cases linger <;> decide
  simp only [headerLines, contentLengthLine, List.mem_append, not_or]
  exact ⟨by decide, ⟨⟨⟨by decide, hn⟩, by decide⟩, hlinger⟩, by decide⟩

/-- What `process_write` has prepared for `writev`. -/
structure Ready (c : HttpConn) : Prop where
  gather : c.gather = c.response ++ c.file
  head : ∃ rest, c.response = 72 :: rest ∧ 72 ∉ rest

theorem Prepared.ready (h : Prepared c₀ files c) : Ready c := by
  obtain ⟨ls, c₁, c₂, hrun, hdo, hwrite⟩ := h
  have hfound : Found c₀ files c₂ := ⟨ls, c₁, hrun, hdo⟩
  by_cases h0 : c₂.fileSize = 0
  · rw [Prod.ext_iff, hfound.processWrite_empty h0] at hwrite
    cases hwrite.1
  obtain ⟨d, hd⟩ := hfound.processWrite_file h0
  rw [hd.processWrite] at hwrite
  cases hwrite
  constructor
  · exact hd.gather
  · obtain ⟨rest, hrest, hno⟩ := fileHeader_head c₂.linger c₂.fileSize
    exact ⟨rest, hd.response.trans hrest, hno⟩

/-! ## Runs -/

/-- The response is ready and the main thread waits for `EPOLLOUT`. -/
def sending (c : HttpConn) : Sending := ⟨c, .waiting, []⟩

theorem counts_append (es : List Event) (e : Event) :
    counts (es ++ [e]) = counts es ++ if e.count = 0 then [] else [e.count] := by
  by_cases h : e.count = 0 <;> simp [counts, h]

theorem counts_ne_zero {n : ℕ} (h : n ∈ counts es) : n ≠ 0 := by
  simpa using (List.mem_filter.1 h).2

/-- What `writev` has been told to send so far, and what the counters of `write` know of it. -/
structure Progress (c : HttpConn) (es : List Event) (s : Sending) : Prop where
  accepted : s.accepted = (counts es).flatMap fun n => c.gather.take n
  le : ∀ n ∈ counts es, n ≤ c.gather.length
  conn : ¬ s.phase.Finished → s.phase ≠ .failed → s.conn = c
  loop : ∀ a b, s.phase = .loop a b →
    a = c.writeIdx - b ∧ 2 * b < c.writeIdx ∧ (counts es = [] → b = 0)
  none : counts es = [] → ¬ s.phase.Finished
  single : ∀ n, counts es = [n] → (s.phase.Finished ↔ c.writeIdx ≤ 2 * n)
  first : ∀ n ns, counts es = n :: ns → ns ≠ [] → 2 * n < c.writeIdx

/-- A step that neither takes bytes nor finishes the response. -/
theorem Progress.idle (h : Progress c es s) (he : e.count = 0) (hs : ¬ s.phase.Finished)
    (hs' : ¬ s'.phase.Finished) (hacc : s'.accepted = s.accepted)
    (hconn : s'.phase ≠ .failed → s'.conn = c)
    (hloop : ∀ a b, s'.phase = .loop a b →
      a = c.writeIdx - b ∧ 2 * b < c.writeIdx ∧ (counts es = [] → b = 0)) :
    Progress c (es ++ [e]) s' := by
  have hcounts : counts (es ++ [e]) = counts es := by
    rw [counts_append, if_pos he, List.append_nil]
  constructor
  · rw [hcounts, hacc, h.accepted]
  · rw [hcounts]
    exact h.le
  · exact fun _ => hconn
  · rw [hcounts]
    exact hloop
  · exact fun _ => hs'
  · intro n hn
    rw [hcounts] at hn
    have hsingle := h.single n hn
    tauto
  · rw [hcounts]
    exact h.first

/-- A step that takes bytes. -/
theorem Progress.take {a b : ℤ} {n : ℕ} (h : Progress c es s) (hphase : s.phase = .loop a b)
    (hn : n ≠ 0) (hle : n ≤ c.gather.length) (he : e.count = n)
    (hacc : s'.accepted = s.accepted ++ c.gather.take n)
    (hfin : s'.phase.Finished ↔ a - n ≤ b + n)
    (hconn : ¬ s'.phase.Finished → s'.conn = c)
    (hloop : ¬ s'.phase.Finished → s'.phase = .loop (a - n) (b + n)) :
    Progress c (es ++ [e]) s' := by
  have hcounts : counts (es ++ [e]) = counts es ++ [n] := by
    rw [counts_append, if_neg (by omega), he]
  have hs : ¬ s.phase.Finished := by
    rw [hphase]
    exact id
  obtain ⟨ha, hb, hzero⟩ := h.loop a b hphase
  constructor
  · rw [hcounts, hacc, h.accepted, List.flatMap_append, List.flatMap_singleton]
  · intro k hk
    rw [hcounts, List.mem_append, List.mem_singleton] at hk
    rcases hk with hk | rfl
    · exact h.le k hk
    · exact hle
  · exact fun hnot _ => hconn hnot
  · intro a' b' hab
    have hnot : ¬ s'.phase.Finished := by
      rw [hab]
      exact id
    rw [hloop hnot] at hab
    cases hab
    rw [hfin] at hnot
    refine ⟨by omega, by omega, fun h => ?_⟩
    simp [hcounts] at h
  · intro h
    simp [hcounts] at h
  · intro k hk
    rw [hcounts] at hk
    have hnil : counts es = [] := by
      cases hes : counts es with
      | nil => rfl
      | cons x xs =>
        rw [hes] at hk
        simp at hk
    rw [hnil, List.nil_append, List.singleton_inj] at hk
    have hb0 := hzero hnil
    rw [hfin, ← hk]
    omega
  · intro k ks hk hks
    rw [hcounts] at hk
    cases hes : counts es with
    | nil =>
      rw [hes] at hk
      cases hk
      exact absurd rfl hks
    | cons x xs =>
      rw [hes, List.cons_append] at hk
      cases hk
      by_cases hxs : xs = []
      · -- the first count did not finish the response, for the loop goes on
        subst hxs
        have hsingle := h.single _ hes
        have hnot : ¬ c.writeIdx ≤ 2 * k := fun hle => hs (hsingle.2 hle)
        omega
      · exact h.first _ _ hes hxs

theorem writeRound_finished (c : HttpConn) {a b : ℤ} {n : ℕ} (h : a - n ≤ b + n) :
    c.writeRound a b (.sent n)
      = (.finished c.linger, if c.linger then c.unmap.init else c.unmap) := by
  rw [writeRound, if_pos h]

theorem writeRound_more (c : HttpConn) {a b : ℤ} {n : ℕ} (h : ¬ a - n ≤ b + n) :
    c.writeRound a b (.sent n) = (.loop (a - n) (b + n), c) := by
  rw [writeRound, if_neg h]

theorem Ready.writeIdx_ne (h : Ready c) : c.writeIdx ≠ 0 := by
  intro h0
  obtain ⟨rest, hrest, -⟩ := h.head
  rw [response, h0] at hrest
  cases hrest

/-- The main thread calls `write`. -/
theorem Progress.call (hc : Ready c) (h : Progress c es s) (hw : s.phase = .waiting) :
    Progress c (es ++ [.epollout]) ⟨s.conn.writeStart.2, s.conn.writeStart.1, s.accepted⟩ := by
  have hs : ¬ s.phase.Finished := by
    rw [hw]
    exact id
  have hconn : s.conn = c := h.conn hs (by rw [hw]; simp)
  have hstart : s.conn.writeStart = (.loop c.writeIdx 0, c) := by
    rw [hconn, writeStart, if_neg hc.writeIdx_ne]
  have hpos := hc.writeIdx_ne
  rw [hstart]
  apply h.idle rfl hs
  · exact id
  · rfl
  · exact fun _ => rfl
  · intro a b hab
    cases hab
    exact ⟨by omega, by omega, fun _ => rfl⟩

/-- `writev` has taken `n` bytes. -/
theorem Progress.sent {a b : ℤ} {n : ℕ} (h : Progress c es s) (hphase : s.phase = .loop a b)
    (hle : n ≤ c.gather.length) :
    Progress c (es ++ [.writev (.sent n)]) ⟨(c.writeRound a b (.sent n)).2,
      (c.writeRound a b (.sent n)).1, s.accepted ++ c.gather.take n⟩ := by
  by_cases hfin : a - n ≤ b + n
  · have hn : n ≠ 0 := by
      obtain ⟨ha, hb, -⟩ := h.loop a b hphase
      omega
    rw [writeRound_finished c hfin]
    apply h.take hphase hn hle rfl rfl
    · exact iff_of_true trivial hfin
    · exact fun hnot => absurd trivial hnot
    · exact fun hnot => absurd trivial hnot
  · rw [writeRound_more c hfin]
    by_cases hn : n = 0
    · subst hn
      have hs : ¬ s.phase.Finished := by
        rw [hphase]
        exact id
      apply h.idle rfl hs id
      · rw [List.take_zero, List.append_nil]
      · exact fun _ => rfl
      · intro a' b' hab
        cases hab
        simpa using h.loop a b hphase
    · apply h.take hphase hn hle rfl rfl
      · exact iff_of_false id hfin
      · exact fun _ => rfl
      · exact fun _ => rfl

theorem Progress.step (hc : Ready c) (h : Progress c es s) (hst : SendStep s e s') :
    Progress c (es ++ [e]) s' := by
  cases hst with
  | call hw => exact h.call hc hw
  | @round a b r hphase hle =>
    have hs : ¬ s.phase.Finished := by
      rw [hphase]
      exact id
    have hconn : s.conn = c := h.conn hs (by rw [hphase]; simp)
    have hnil : s.accepted ++ c.gather.take 0 = s.accepted := by
      rw [List.take_zero, List.append_nil]
    rw [hconn] at hle ⊢
    cases r with
    | again => exact h.idle rfl hs id hnil (fun _ => rfl) (fun _ _ hab => by cases hab)
    | error =>
      exact h.idle rfl hs id hnil (fun hnot => absurd rfl hnot) (fun _ _ hab => by cases hab)
    | sent n => exact h.sent hphase hle

theorem progress_of_run (hc : Ready c) (h : Run SendStep (sending c) es s) : Progress c es s := by
  apply h.history (Progress c) _ (fun _ _ _ _ h hst => h.step hc hst)
  refine ⟨rfl, by simp [counts], fun _ _ => rfl, ?_, fun _ => id, ?_, ?_⟩
  · intro a b hab
    cases hab
  · intro n hn
    cases hn
  · intro n ns hn
    cases hn

/-- A second part starts with the first byte of the header again. -/
theorem Progress.not_prefix (hc : Ready c) (h : Progress c es s) {n m : ℕ} {ns : List ℕ}
    (hcounts : counts es = n :: m :: ns) : ¬ s.accepted <+: c.gather := by
  rintro ⟨t, ht⟩
  obtain ⟨rest, hrest, hno⟩ := hc.head
  have hnmem : n ∈ counts es := by simp [hcounts]
  have hmmem : m ∈ counts es := by simp [hcounts]
  have hn := counts_ne_zero hnmem
  have hm := counts_ne_zero hmmem
  have hle := h.le n hnmem
  have hfirst : 2 * n < c.writeIdx := h.first n (m :: ns) hcounts (by simp)
  have hlen : rest.length + 1 = c.writeIdx := by
    rw [← contents_length c.writeBuf 0 c.writeIdx]
    exact (congrArg List.length hrest).symm
  have hgather : c.gather = 72 :: (rest ++ c.file) := by rw [hc.gather, hrest, List.cons_append]
  have hacc : s.accepted = c.gather.take n ++ (c.gather.take m ++
      ns.flatMap fun n => c.gather.take n) := by
    rw [h.accepted, hcounts, List.flatMap_cons, List.flatMap_cons]
  have hbyte : c.gather[n]? = some 72 := by
    obtain ⟨k, rfl⟩ : ∃ k, m = k + 1 := ⟨m - 1, by omega⟩
    rw [← ht, hacc, List.append_assoc,
      List.getElem?_append_right (by rw [List.length_take]; omega), List.length_take,
      Nat.min_eq_left hle, Nat.sub_self, hgather]
    rfl
  obtain ⟨k, rfl⟩ : ∃ k, n = k + 1 := ⟨n - 1, by omega⟩
  rw [hgather, List.getElem?_cons_succ, List.getElem?_append_left (by omega)] at hbyte
  exact hno (List.mem_of_getElem? hbyte)

/-- The socket has a prefix of the response, and all of it when `write` treats it as finished, exactly
when `writev` took it at once (or so far less than half of the header, in one part). -/
theorem sent_once_iff (hp : Prepared c₀ files c) (hr : Run SendStep (sending c) es s) :
    (s.accepted <+: c.response ++ c.file ∧
        (s.phase.Finished → s.accepted = c.response ++ c.file)) ↔
      AtOnce c.response.length c.file.length (counts es) := by
  have hc := hp.ready
  have h := progress_of_run hc hr
  have hidx : c.response.length = c.writeIdx := contents_length _ _ _
  have htotal : c.gather.length = c.response.length + c.file.length := by
    rw [hc.gather, List.length_append]
  rw [← hc.gather]
  cases hcounts : counts es with
  | nil =>
    apply iff_of_true _ (.inl rfl)
    have hacc : s.accepted = [] := by rw [h.accepted, hcounts, List.flatMap_nil]
    rw [hacc]
    exact ⟨List.nil_prefix, fun hfin => absurd hfin (h.none hcounts)⟩
  | cons n ns =>
    cases ns with
    | nil =>
      have hacc : s.accepted = c.gather.take n := by
        rw [h.accepted, hcounts, List.flatMap_singleton]
      have hle : n ≤ c.gather.length := h.le n (by simp [hcounts])
      have hfin := h.single n hcounts
      rw [hacc]
      constructor
      · rintro ⟨-, hall⟩
        right
        by_cases hf : s.phase.Finished
        · left
          have hlen := congrArg List.length (hall hf)
          rw [List.length_take, Nat.min_eq_left hle] at hlen
          rw [hlen, htotal]
        · right
          have hlt : ¬ c.writeIdx ≤ 2 * n := fun hle => hf (hfin.2 hle)
          exact ⟨n, rfl, by omega⟩
      · rintro (hnil | hn | ⟨k, hk, hlt⟩)
        · cases hnil
        · have hn' : n = c.gather.length := by
            rw [htotal]
            exact List.singleton_inj.1 hn
          rw [hn', List.take_length]
          exact ⟨List.prefix_refl _, fun _ => rfl⟩
        · cases hk
          rw [hidx] at hlt
          exact ⟨List.take_prefix _ _, fun hf => absurd (hfin.1 hf) (by omega)⟩
    | cons m ns =>
      apply iff_of_false
      · exact fun hall => h.not_prefix hc hcounts hall.1
      · rintro (hnil | hn | ⟨k, hk, -⟩)
        · cases hnil
        · cases hn
        · cases hk

/-- The one byte with its header, ready to be sent. -/
def prepared : HttpConn := ((dispatched.doRequest oneByte).2.processWrite .fileRequest).2

theorem prepared_prepared : Prepared unused oneByte prepared :=
  ⟨_, dispatched, (dispatched.doRequest oneByte).2, dispatched_run,
    Prod.ext (by decide +kernel) rfl, Prod.ext (by decide +kernel) rfl⟩

/-- `writev` takes the first `n` bytes of the one response that is ready. -/
theorem run_prepared (n : ℕ) (hn : n ≤ prepared.gather.length) :
    Run SendStep (sending prepared) [.epollout, .writev (.sent n)]
      ⟨(prepared.writeRound prepared.writeIdx 0 (.sent n)).2,
        (prepared.writeRound prepared.writeIdx 0 (.sent n)).1, prepared.gather.take n⟩ := by
  have hstart : prepared.writeStart = (.loop prepared.writeIdx 0, prepared) := by
    rw [writeStart, if_neg prepared_prepared.ready.writeIdx_ne]
  have hcall := SendStep.call (s := sending prepared) rfl
  have hround := SendStep.round (s := ⟨prepared, .loop prepared.writeIdx 0, []⟩)
    (r := .sent n) rfl hn
  refine .cons hcall (.single ?_)
  show SendStep ⟨prepared.writeStart.2, prepared.writeStart.1, []⟩ _ _
  rw [hstart]
  exact hround

theorem sent_once_iff_prepared :
    (prepared.gather.take 58 <+: prepared.response ++ prepared.file ∧
        ((prepared.writeRound prepared.writeIdx 0 (.sent 58)).1.Finished →
          prepared.gather.take 58 = prepared.response ++ prepared.file)) ↔
      AtOnce prepared.response.length prepared.file.length [58] :=
  sent_once_iff prepared_prepared (run_prepared 58 (by decide +kernel))

/-- The socket takes the header and not the file, and `write` is done with the response. -/
theorem file_dropped : ¬ ∀ (c₀ : HttpConn) (files : Files) (c : HttpConn) (es : List Event)
    (s : Sending), Prepared c₀ files c → Run SendStep (sending c) es s →
    s.accepted <+: c.response ++ c.file ∧ (s.phase.Finished → s.accepted = c.response ++ c.file) := by
  intro h
  obtain ⟨-, hall⟩ := h unused oneByte prepared _ _ prepared_prepared
    (run_prepared 57 (by decide +kernel))
  have hround := writeRound_finished prepared (a := prepared.writeIdx) (b := 0) (n := 57)
    (by decide +kernel)
  have hlen := congrArg List.length (hall (by rw [hround]; trivial))
  exact absurd hlen (by decide +kernel)

end HttpConn

end SocketTest.Http
