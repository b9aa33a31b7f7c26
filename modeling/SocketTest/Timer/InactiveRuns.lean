import SocketTest.Timer.InactiveTimer
import SocketTest.Timer.MinHeapActive

/-!
# Runs of the idle-client server

Between two events the open descriptors correspond to the active timers of the heap: `Serving` is
that correspondence, with the expiry each timer has. Cancelled timers keep pointing at the record of
a descriptor that may be in use again; they are not active, so the correspondence leaves them out.
-/

namespace SocketTest.Timer

open SocketTest.Lib

/-- When each descriptor was last accepted or last delivered data, after one more event. -/
def seenAfter (seen : ℕ → ℤ) : Event → ℕ → ℤ
  | .accept connfd _ _ now => Function.update seen connfd now
  | .client sockfd ret _ now => if 0 < ret then Function.update seen sockfd now else seen
  | _ => seen

def lastSeen (es : List Event) : ℕ → ℤ := es.foldl seenAfter fun _ => 0

namespace Server

/-- The timer of an open descriptor is active, belongs to its record and expires `3*DEFAULT_TIME`
after the client was last seen; an active timer is that of an open descriptor. -/
structure Serving (seen : ℕ → ℤ) (s : Server) : Prop where
  rep : TimeHeap.Rep s.heap
  client : ∀ fd, s.isOpen fd = true → (s.users fd).timer ∈ s.heap.active ∧
    (s.heap.mem.cell (s.users fd).timer).data = (seen fd + 3 * DEFAULT_TIME, ⟨CB_FUNC, fd⟩) ∧
    (s.users fd).sockfd = fd ∧ seen fd ≤ s.clock
  timer : ∀ t ∈ s.heap.active, s.isOpen (s.heap.mem.cell t).userData = true ∧
    (s.users (s.heap.mem.cell t).userData).timer = t

variable {seen : ℕ → ℤ} {s : Server}

theorem init_serving (mem : Mem HeapTimer) (users : ℕ → ClientData) (clock : ℤ) :
    Serving seen (.init mem users clock) where
  rep := TimeHeap.ofCapacity_rep mem (by decide)
  client fd h := by cases h
  timer t h := by simp [TimeHeap.active, TimeHeap.slots, init, TimeHeap.ofCapacity] at h

theorem Serving.timer_ne (S : Serving seen s) {fd : ℕ} (ho : s.isOpen fd = true) :
    (s.users fd).timer ≠ 0 :=
  (S.rep.indexed.valid_of_mem (TimeHeap.mem_active.mp (S.client fd ho).1).1).1

/-- Two open descriptors have different timers. -/
theorem Serving.inj (S : Serving seen s) {fd fd' : ℕ} (ho : s.isOpen fd = true)
    (ho' : s.isOpen fd' = true) (he : (s.users fd).timer = (s.users fd').timer) : fd = fd' := by
  have h := (S.client fd ho).2.1
  have h' := (S.client fd' ho').2.1
  rw [he, h'] at h
  exact (congrArg (fun d => d.2.arg) h).symm

/-! ## One event -/

theorem onAccept_serving (S : Serving seen s) {connfd : ℕ} {timer : Ptr} {index : ℕ} {now : ℤ}
    (ha : (Event.accept connfd timer index now).Allowed s) :
    Serving (Function.update seen connfd now) (s.onAccept connfd timer index now) := by
  obtain ⟨⟨hclosed, h0, hl⟩, hclock⟩ := ha
  obtain ⟨r, hact, hnot, -, hd⟩ := @TimeHeap.add_active s.heap timer S.rep
    ⟨now + 3 * DEFAULT_TIME, CB_FUNC, connfd, index⟩ ⟨h0, hl⟩ Nat.one_ne_zero
  have hne : ∀ t ∈ s.heap.active, t ≠ timer :=
    fun t ht he => hnot (he ▸ (TimeHeap.mem_active.mp ht).1)
  constructor
  · exact r
  · intro fd ho
    by_cases hfd : fd = connfd
    · subst hfd
      show (Function.update s.users fd _ fd).timer ∈ _ ∧ _
      simp only [onAccept, Function.update_self]
      refine ⟨hact.symm.subset List.mem_cons_self, ?_, trivial, le_refl _⟩
      rw [hd, if_pos rfl]
      rfl
    · have ho' : s.isOpen fd = true := by
        simpa [onAccept, Function.update_of_ne hfd] using ho
      obtain ⟨hm, hdata, hsock, hseen⟩ := S.client fd ho'
      simp only [onAccept, Function.update_of_ne hfd]
      refine ⟨hact.symm.subset (List.mem_cons_of_mem _ hm), ?_, hsock, hseen.trans hclock⟩
      rw [hd, if_neg (hne _ hm)]
      exact hdata
  · intro t ht
    rcases List.mem_cons.mp (hact.subset ht) with rfl | hm
    · have hud : ((s.onAccept connfd t index now).heap.mem.cell t).userData = connfd := by
        have := hd t
        rw [if_pos rfl] at this
        exact congrArg (fun d => d.2.arg) this
      rw [hud]
      simp [onAccept]
    · obtain ⟨ho, hu⟩ := S.timer t hm
      have hud : ((s.onAccept connfd timer index now).heap.mem.cell t).userData =
          (s.heap.mem.cell t).userData := by
        have := hd t
        rw [if_neg (hne t hm)] at this
        exact congrArg (fun d => d.2.arg) this
      have hfd : (s.heap.mem.cell t).userData ≠ connfd := by
        rintro he
        rw [he, hclosed] at ho
        cases ho
      rw [hud]
      simp only [onAccept, Function.update_of_ne hfd]
      exact ⟨ho, hu⟩

theorem closeClient_serving (S : Serving seen s) {fd : ℕ} (ho : s.isOpen fd = true) :
    Serving seen (s.closeClient fd) := by
  have h0 := S.timer_ne ho
  obtain ⟨hm, hdata, hsock, -⟩ := S.client fd ho
  obtain ⟨r, hact, -, hd⟩ := TimeHeap.del_active S.rep h0
  have hclose : s.closeClient fd = { s with
      heap := s.heap.delTimer (s.users fd).timer
      isOpen := Function.update s.isOpen fd false } := by
    unfold closeClient cbFunc
    rw [if_pos h0, hsock]
  rw [hclose]
  constructor
  · exact r
  · intro fd' ho'
    have hne : fd' ≠ fd := by
      rintro rfl
      simp at ho'
    have ho'' : s.isOpen fd' = true := by simpa [Function.update_of_ne hne] using ho'
    obtain ⟨hm', hdata', hsock', hseen'⟩ := S.client fd' ho''
    have ht : (s.users fd').timer ≠ (s.users fd).timer := fun he => hne (S.inj ho'' ho he)
    refine ⟨?_, ?_, hsock', hseen'⟩
    · rw [hact, List.mem_filter]
      exact ⟨hm', by simpa using ht⟩
    · rw [hd _ ht]
      exact hdata'
  · intro t ht
    rw [hact, List.mem_filter] at ht
    obtain ⟨htm, htne⟩ := ht
    have htne : t ≠ (s.users fd).timer := by simpa using htne
    obtain ⟨ho', hu⟩ := S.timer t htm
    have hud : ((s.heap.delTimer (s.users fd).timer).mem.cell t).userData =
        (s.heap.mem.cell t).userData := congrArg (fun d => d.2.arg) (hd t htne)
    have hne : (s.heap.mem.cell t).userData ≠ fd := by
      rintro he
      rw [he] at hu
      exact htne hu.symm
    rw [hud]
    exact ⟨by simpa [Function.update_of_ne hne] using ho', hu⟩

/-- Data from a client: its timer moves to the new expiry. -/
theorem refresh_serving (S : Serving seen s) {fd : ℕ} {now : ℤ} (ho : s.isOpen fd = true)
    (hclock : s.clock ≤ now) :
    Serving (Function.update seen fd now) { s with
      heap := s.heap.refresh (s.users fd).timer (now + 3 * DEFAULT_TIME), clock := now } := by
  obtain ⟨hm, hdata, hsock, hseen⟩ := S.client fd ho
  have hexp : s.heap.expire (s.users fd).timer = seen fd + 3 * DEFAULT_TIME :=
    congrArg Prod.fst hdata
  have hcall : (s.heap.mem.cell (s.users fd).timer).call = ⟨CB_FUNC, fd⟩ := congrArg Prod.snd hdata
  obtain ⟨r, hact, -, hd⟩ := TimeHeap.refresh_active S.rep (TimeHeap.mem_active.mp hm).1
    (e := now + 3 * DEFAULT_TIME) (by rw [hexp]; linarith)
  have hud : ∀ t, ((s.heap.refresh (s.users fd).timer (now + 3 * DEFAULT_TIME)).mem.cell t).userData
      = (s.heap.mem.cell t).userData := by
    intro t
    have := congrArg (fun d => d.2.arg) (hd t)
    by_cases ht : t = (s.users fd).timer
    · rw [if_pos ht] at this
      rw [ht] at this ⊢
      exact this
    · rw [if_neg ht] at this
      exact this
  constructor
  · exact r
  · intro fd' ho'
    obtain ⟨hm', hdata', hsock', hseen'⟩ := S.client fd' ho'
    refine ⟨hact.symm.subset hm', ?_, hsock', ?_⟩
    · rw [hd]
      by_cases hfd : fd' = fd
      · subst hfd
        rw [if_pos rfl, hcall, Function.update_self]
      · rw [if_neg fun he => hfd (S.inj ho' ho he), Function.update_of_ne hfd]
        exact hdata'
    · by_cases hfd : fd' = fd
      · subst hfd
        rw [Function.update_self]
      · rw [Function.update_of_ne hfd]
        exact hseen'.trans hclock
  · intro t ht
    rw [hud]
    exact S.timer t (hact.subset ht)

/-- The callbacks of a tick close the descriptors of their records and nothing else. -/
theorem foldl_invoke {calls : List Call} (hc : ∀ c ∈ calls, c.func = CB_FUNC) :
    calls.foldl invoke s = { s with
      isOpen := fun fd =>
        if fd ∈ calls.map (fun c => (s.users c.arg).sockfd) then false else s.isOpen fd } := by
  induction calls generalizing s with
  | nil => simp
  | cons c calls ih =>
    have hinv : s.invoke c = s.cbFunc c.arg := by
      unfold invoke
      rw [if_pos (hc c List.mem_cons_self)]
    rw [List.foldl_cons, hinv, ih fun c hm => hc c (List.mem_cons_of_mem _ hm)]
    unfold cbFunc
    congr 1
    funext fd
    by_cases hfd : fd = (s.users c.arg).sockfd
    · simp [hfd]
    · simp [hfd]

/-- The due timers of a tick are those of the descriptors idle for `3*DEFAULT_TIME`. -/
theorem Serving.idle_iff (S : Serving seen s) {now : ℤ} {due : List Ptr}
    (hdue : due.Perm (s.heap.active.filter fun p => decide (s.heap.expire p ≤ now))) {fd : ℕ}
    (ho : s.isOpen fd = true) :
    fd ∈ (due.map fun p => (s.heap.mem.cell p).call).map (fun c => (s.users c.arg).sockfd) ↔
      seen fd + 3 * DEFAULT_TIME ≤ now := by
  obtain ⟨hm, hdata, hsock, -⟩ := S.client fd ho
  have hexp : s.heap.expire (s.users fd).timer = seen fd + 3 * DEFAULT_TIME :=
    congrArg Prod.fst hdata
  have hud : (s.heap.mem.cell (s.users fd).timer).userData = fd :=
    congrArg (fun d => d.2.arg) hdata
  rw [List.map_map, List.mem_map]
  constructor
  · rintro ⟨t, ht, htfd⟩
    obtain ⟨hta, hte⟩ := List.mem_filter.mp (hdue.subset ht)
    obtain ⟨hto, htu⟩ := S.timer t hta
    change (s.users (s.heap.mem.cell t).userData).sockfd = fd at htfd
    rw [(S.client _ hto).2.2.1] at htfd
    rw [htfd] at htu
    rw [← hexp, htu]
    simpa using hte
  · intro hle
    refine ⟨(s.users fd).timer, hdue.symm.subset ?_, ?_⟩
    · rw [List.mem_filter, decide_eq_true_eq, hexp]
      exact ⟨hm, hle⟩
    · show (s.users (s.heap.mem.cell (s.users fd).timer).userData).sockfd = fd
      rw [hud, hsock]

/-- The callbacks of a tick are those that `accept` has set. -/
theorem Serving.callbacks (S : Serving seen s) (now : ℤ) :
    ∀ c ∈ (s.heap.tick now).2, c.func = CB_FUNC := by
  obtain ⟨due, -, hdue, -, hcalls, -⟩ := TimeHeap.tick_active S.rep now
  rw [hcalls]
  intro c hc
  obtain ⟨t, ht, rfl⟩ := List.mem_map.mp hc
  obtain ⟨hto, htu⟩ := S.timer t (List.mem_of_mem_filter (hdue.subset ht))
  have hdata := (S.client _ hto).2.1
  rw [htu] at hdata
  exact congrArg (fun d => d.2.func) hdata

theorem Serving.timerHandler_fields (S : Serving seen s) (now now' : ℤ) :
    (s.timerHandler now now').users = s.users ∧
      ((s.timerHandler now now').clock = now ∨ (s.timerHandler now now').clock = now') ∧
      (s.timerHandler now now').isOpen = fun fd =>
        if fd ∈ (s.heap.tick now).2.map (fun c => (s.users c.arg).sockfd) then false
        else s.isOpen fd := by
  have hfold := foldl_invoke (s := { s with heap := (s.heap.tick now).1, clock := now })
    (S.callbacks now)
  unfold timerHandler
  dsimp only
  rw [hfold]
  dsimp only
  by_cases he : (s.heap.tick now).1.empty = true
  · rw [if_pos he]
    exact ⟨rfl, .inl rfl, rfl⟩
  · rw [if_neg he]
    exact ⟨rfl, .inr rfl, rfl⟩

theorem Serving.timerHandler_isOpen (S : Serving seen s) (now now' : ℤ) (fd : ℕ) :
    (s.timerHandler now now').isOpen fd =
      (s.isOpen fd && decide (now < seen fd + 3 * DEFAULT_TIME)) := by
  obtain ⟨due, -, hdue, -, hcalls, -⟩ := TimeHeap.tick_active S.rep now
  rw [(S.timerHandler_fields now now').2.2, hcalls]
  cases ho : s.isOpen fd with
  | false => simp [ho]
  | true =>
    dsimp only
    by_cases hidle : seen fd + 3 * DEFAULT_TIME ≤ now
    · rw [if_pos ((S.idle_iff hdue ho).mpr hidle)]
      simp [not_lt.mpr hidle]
    · rw [if_neg (mt (S.idle_iff hdue ho).mp hidle), ho]
      simp [not_le.mp hidle]

/-- The timer handler closes exactly the idle clients. -/
theorem timerHandler_serving (S : Serving seen s) {now now' : ℤ} (hclock : s.clock ≤ now)
    (hnow : now ≤ now') :
    Serving seen (s.timerHandler now now') ∧ ∀ fd, (s.timerHandler now now').isOpen fd =
      (s.isOpen fd && decide (now < seen fd + 3 * DEFAULT_TIME)) := by
  obtain ⟨due, r, -, -, -, hact, hd, -⟩ := TimeHeap.tick_active S.rep now
  obtain ⟨husers, hclk, -⟩ := S.timerHandler_fields now now'
  have hopen := S.timerHandler_isOpen now now'
  have hheap := timerHandler_heap s now now'
  refine ⟨?_, hopen⟩
  constructor
  · rw [hheap]
    exact r
  · intro fd ho
    rw [hopen, Bool.and_eq_true, decide_eq_true_eq] at ho
    obtain ⟨hm, hdata, hsock, hseen⟩ := S.client fd ho.1
    rw [hheap, husers]
    refine ⟨hact.symm.subset (List.mem_filter.mpr ⟨hm, ?_⟩), ?_, hsock, hseen.trans ?_⟩
    · rw [decide_eq_true_eq, show s.heap.expire (s.users fd).timer = seen fd + 3 * DEFAULT_TIME from
        congrArg Prod.fst hdata]
      exact ho.2
    · rw [hd]
      exact hdata
    · rcases hclk with he | he
      · exact hclock.trans he.ge
      · exact (hclock.trans hnow).trans he.ge
  · intro t ht
    rw [hheap] at ht ⊢
    obtain ⟨htm, hlt⟩ := List.mem_filter.mp (hact.subset ht)
    obtain ⟨hto, htu⟩ := S.timer t htm
    have hud : ((s.heap.tick now).1.mem.cell t).userData = (s.heap.mem.cell t).userData :=
      congrArg (fun d => d.2.arg) (hd t)
    rw [hud, husers, hopen, hto]
    refine ⟨?_, htu⟩
    have hdata := (S.client _ hto).2.1
    rw [htu] at hdata
    have hexp : s.heap.expire t = seen (s.heap.mem.cell t).userData + 3 * DEFAULT_TIME :=
      congrArg Prod.fst hdata
    rw [Bool.true_and, ← hexp]
    simpa using hlt

theorem Serving.congr {s' : Server} (S : Serving seen s) (hh : s'.heap = s.heap)
    (hu : s'.users = s.users) (ho : s'.isOpen = s.isOpen) (hc : s'.clock = s.clock) :
    Serving seen s' := by
  constructor
  · rw [hh]
    exact S.rep
  · rw [hh, hu, ho, hc]
    exact S.client
  · rw [hh, hu, ho]
    exact S.timer

theorem foldl_onSignal (sigs : List Signal) :
    (sigs.foldl onSignal s).heap = s.heap ∧ (sigs.foldl onSignal s).users = s.users ∧
      (sigs.foldl onSignal s).isOpen = s.isOpen ∧ (sigs.foldl onSignal s).clock = s.clock := by
  induction sigs generalizing s with
  | nil => exact ⟨rfl, rfl, rfl, rfl⟩
  | cons sig sigs ih =>
    obtain ⟨h1, h2, h3, h4⟩ := ih (s := s.onSignal sig)
    rw [List.foldl_cons, h1, h2, h3, h4]
    cases sig with
    | alrm => exact ⟨rfl, rfl, rfl, rfl⟩
    | term => exact ⟨rfl, rfl, rfl, rfl⟩
    | other => exact ⟨rfl, rfl, rfl, rfl⟩

theorem onClient_serving (S : Serving seen s) {fd : ℕ} {ret : ℤ} {again : Bool} {now : ℤ}
    (ha : (Event.client fd ret again now).Allowed s) :
    Serving (seenAfter seen (.client fd ret again now)) (s.onClient fd ret again now) := by
  obtain ⟨ho, hclock⟩ := ha
  show Serving (if 0 < ret then Function.update seen fd now else seen) _
  unfold onClient
  by_cases hneg : ret < 0
  · rw [if_pos hneg, if_neg (show ¬ 0 < ret by omega)]
    by_cases hag : again = true
    · rw [if_pos hag]
      exact S
    · rw [if_neg hag]
      exact closeClient_serving S ho
  · rw [if_neg hneg]
    by_cases h0 : ret = 0
    · rw [if_pos h0, if_neg (show ¬ 0 < ret by omega)]
      exact closeClient_serving S ho
    · rw [if_neg h0, if_pos (show 0 < ret by omega), if_pos (S.timer_ne ho)]
      exact refresh_serving S ho hclock

theorem handle_serving (S : Serving seen s) {e : Event} (ha : e.Allowed s) :
    Serving (seenAfter seen e) (s.handle e) := by
  cases e with
  | accept connfd timer index now => exact onAccept_serving S ha
  | client fd ret again now => exact onClient_serving S ha
  | signals sigs =>
    obtain ⟨h1, h2, h3, h4⟩ := foldl_onSignal (s := s) sigs
    exact S.congr h1 h2 h3 h4
  | other => exact S
  | batchEnd now now' =>
    show Serving seen (s.onBatchEnd now now')
    unfold onBatchEnd
    by_cases ht : s.timeout = true
    · rw [if_pos ht]
      exact (timerHandler_serving S ha.1 ha.2).1.congr rfl rfl rfl rfl
    · rw [if_neg ht]
      exact S.congr rfl rfl rfl rfl
  | epollFailure => exact S.congr rfl rfl rfl rfl

theorem serving_of_run {mem : Mem HeapTimer} {users : ℕ → ClientData} {clock : ℤ}
    {es : List Event} (hr : Run ServerStep (.init mem users clock) es s) :
    Serving (lastSeen es) s := by
  refine hr.history (fun es s => Serving (lastSeen es) s) (init_serving mem users clock) ?_
  rintro es s e s' S ⟨⟨-, ha⟩, rfl⟩
  rw [lastSeen, List.foldl_append]
  exact handle_serving S ha

end Server

/-- **The idle-client server.** In every state between two events the open client descriptors
correspond one to one to the timers of the heap that have a callback: that of a descriptor is the
one its record names, points back to the record and expires `3*DEFAULT_TIME` after the client was
accepted or last sent data. A tick closes exactly the clients that have been idle for that long. -/
theorem idle_client_server {mem : Mem HeapTimer} {users : ℕ → ClientData} {clock : ℤ}
    {es : List Event} {s : Server} (hr : Run ServerStep (.init mem users clock) es s) :
    (∀ fd, s.isOpen fd = true →
      ((s.users fd).timer ∈ s.heap.slots ∧ (s.heap.mem.cell (s.users fd).timer).cbFunc = CB_FUNC) ∧
        (s.heap.mem.cell (s.users fd).timer).userData = fd ∧
        (s.heap.mem.cell (s.users fd).timer).expire = lastSeen es fd + 3 * DEFAULT_TIME) ∧
      (∀ t ∈ s.heap.slots, (s.heap.mem.cell t).cbFunc ≠ 0 →
        s.isOpen (s.heap.mem.cell t).userData = true ∧
          (s.users (s.heap.mem.cell t).userData).timer = t) ∧
      ∀ now now' s', s.timeout = true → ServerStep s (.batchEnd now now') s' →
        ∀ fd, s'.isOpen fd =
          (s.isOpen fd && decide (now < lastSeen es fd + 3 * DEFAULT_TIME)) := by
  have S := Server.serving_of_run hr
  refine ⟨?_, ?_, ?_⟩
  · intro fd ho
    obtain ⟨hm, hdata, -⟩ := S.client fd ho
    exact ⟨⟨(TimeHeap.mem_active.mp hm).1, congrArg (fun d => d.2.func) hdata⟩,
      congrArg (fun d => d.2.arg) hdata, congrArg Prod.fst hdata⟩
  · intro t ht hcb
    exact S.timer t (TimeHeap.mem_active.mpr ⟨ht, hcb⟩)
  · rintro now now' s' htime ⟨⟨-, hclock, hnow⟩, rfl⟩ fd
    show (s.onBatchEnd now now').isOpen fd = _
    unfold Server.onBatchEnd
    rw [if_pos htime]
    exact (Server.timerHandler_serving S hclock hnow).2 fd

/-- A descriptor closed by its peer and accepted again while the old timer is still in the heap: a
tick past the old expiry leaves the new connection open. -/
theorem idle_client_server_reuse :
    let es : List Event := [.accept 7 8 0 100, .client 7 0 false 103, .accept 7 16 0 110,
      .signals [.alrm]]
    let s := es.foldl Server.handle (.init (Mem.blank ⟨0, 0, 0, 0⟩) (fun _ => ⟨0, 0⟩) 100)
    (s.onBatchEnd 120 120).isOpen 7 = true := by
  intro es s
  have hr : Run ServerStep (.init (Mem.blank ⟨0, 0, 0, 0⟩) (fun _ => ⟨0, 0⟩) 100) es s :=
    .cons ⟨by decide +kernel, rfl⟩ (.cons ⟨by decide +kernel, rfl⟩
      (.cons ⟨by decide +kernel, rfl⟩ (.cons ⟨by decide +kernel, rfl⟩ (.nil _))))
  have htick := (idle_client_server hr).2.2 120 120 _ (by decide +kernel) ⟨by decide +kernel, rfl⟩ 7
  refine htick.trans ?_
  decide +kernel

end SocketTest.Timer
