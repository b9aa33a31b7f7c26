import SocketTest.Timer.InactiveTimer

/-!
# The next alarm of `timer_handler`

`tick` reads the clock, and `timer_handler` reads it again for the time to the first timer left. The
second reading may have reached this timer already. `alarm_armed_iff` says for which readings the
alarm is set to a time that has not passed.
-/

namespace SocketTest.Timer

open SocketTest.Lib

namespace Server

/-- The expiries that a tick at `now` leaves in the heap. -/
def remaining (h : TimeHeap) (now : ℤ) : Set ℤ := {e | now < e ∧ ∃ t ∈ h.slots, h.expire t = e}

/-- What `alarm` has been given is 1 with no timer left, and else at least 1 and at most the time to
the first timer. -/
def Armed (s : Server) (now' : ℤ) : Prop :=
  if s.heap.empty then s.alarm = 1
  else 1 ≤ s.alarm ∧ s.alarm ≤ max 1 (s.heap.expire s.heap.top - now')

/-- A difference of two times that is positive as an `unsigned` and does not grow. -/
def InTime (d : ℤ) : Prop := 0 < d ∧ d % 2 ^ 32 ≠ 0 ∨ d % 2 ^ 32 = 1

variable {s : Server} {now now' : ℤ}

theorem timerHandler_alarm (s : Server) (now now' : ℤ) :
    (s.timerHandler now now').alarm = if (s.heap.tick now).1.empty then 1
      else ((s.heap.tick now).1.expire (s.heap.tick now).1.top - now') % 2 ^ 32 := by
  have hheap := foldl_invoke_heap (s := { s with heap := (s.heap.tick now).1, clock := now })
    (s.heap.tick now).2
  unfold timerHandler
  dsimp only at hheap ⊢
  rw [hheap, toUInt32_toInt32]
  split_ifs <;> rfl

/-- The first timer left by a tick has the least expiry behind the clock. -/
theorem isLeast_remaining {h : TimeHeap} (r : TimeHeap.Rep h)
    (hne : (h.tick now).1.empty = false) :
    IsLeast (remaining h now) ((h.tick now).1.expire (h.tick now).1.top) := by
  obtain ⟨due, ht⟩ := TimeHeap.tick_spec r now
  have hn := TimeHeap.Rep.curSize_pos hne
  have htop : (h.tick now).1.top = (h.tick now).1.array 0 := by
    unfold TimeHeap.top
    rw [if_neg (by simp [hne])]
  have hexp : (h.tick now).1.expire = h.expire := funext fun p => congrArg Prod.fst (ht.data p)
  have hmem : (h.tick now).1.array 0 ∈ (h.tick now).1.slots := TimeHeap.mem_slots.mpr ⟨0, hn, rfl⟩
  rw [htop]
  constructor
  · rw [hexp]
    exact ⟨ht.rest_lt _ hmem, _, ht.perm.subset (List.mem_append_right _ hmem), rfl⟩
  · rintro e ⟨hlt, t, htm, rfl⟩
    rcases List.mem_append.mp (ht.perm.symm.subset htm) with hdue | hrest
    · have := ht.due_le t hdue
      omega
    · have hroot := ht.rep.root_le hrest
      rwa [hexp] at hroot ⊢

theorem remaining_eq_empty {h : TimeHeap} (r : TimeHeap.Rep h)
    (he : (h.tick now).1.empty = true) (e : ℤ) : e ∉ remaining h now := by
  rintro ⟨hlt, t, htm, rfl⟩
  obtain ⟨due, ht⟩ := TimeHeap.tick_spec r now
  have hnil : (h.tick now).1.slots = [] := by
    rw [TimeHeap.slots_eq_nil]
    simpa [TimeHeap.empty] using he
  have hperm := ht.perm
  rw [hnil, List.append_nil] at hperm
  have := ht.due_le t (hperm.symm.subset htm)
  omega

theorem inTime_iff (d : ℤ) : (1 ≤ d % 2 ^ 32 ∧ d % 2 ^ 32 ≤ max 1 d) ↔ InTime d := by
  unfold InTime
  omega

end Server

/-- **The alarm.** From any state that the heap can be in, `timer_handler` sets an alarm that is not
too late exactly when no timer is left or its second reading of the clock has not reached the first
expiry left (and the time to it is no multiple of `2 ^ 32`). -/
theorem alarm_armed_iff {h₀ : TimeHeap} {ts : List Ptr} {ops : List HeapOp} {s : Server}
    {now now' : ℤ} (h0 : HeapStart h₀ ts) (hr : Run HeapStep h₀ ops s.heap) :
    (s.timerHandler now now').Armed now' ↔
      ∀ e, IsLeast (Server.remaining s.heap now) e → Server.InTime (e - now') := by
  obtain ⟨r, -⟩ := TimeHeap.rep_of_run h0 hr
  unfold Server.Armed
  rw [Server.timerHandler_heap, Server.timerHandler_alarm]
  by_cases he : (s.heap.tick now).1.empty = true
  · rw [if_pos he, if_pos he]
    exact iff_of_true rfl fun e hl => absurd hl.1 (Server.remaining_eq_empty r he e)
  · have hl := Server.isLeast_remaining r (by simpa using he)
    rw [if_neg he, if_neg he, Server.inTime_iff]
    constructor
    · intro hin e hle
      rwa [hle.unique hl]
    · exact fun hall => hall _ hl

/-- A server with one timer, which expires at 15. -/
def oneTimer : Server :=
  { Server.init (Mem.blank ⟨0, 0, 0, 0⟩) (fun _ => ⟨0, 0⟩) 0 with
    heap := HeapOp.exec (.ofCapacity (Mem.blank ⟨0, 0, 0, 0⟩) 20) (.add 8 ⟨15, 1, 0, 0⟩) }

theorem oneTimer_run : Run HeapStep (.ofCapacity (Mem.blank ⟨0, 0, 0, 0⟩) 20)
    [.add 8 ⟨15, 1, 0, 0⟩] oneTimer.heap := .single ⟨by decide, rfl⟩

theorem alarm_armed_iff_oneTimer : (oneTimer.timerHandler 12 13).Armed 13 ↔
    ∀ e, IsLeast (Server.remaining oneTimer.heap 12) e → Server.InTime (e - 13) :=
  alarm_armed_iff (.ofCapacity _ rfl rfl (by decide)) oneTimer_run

/-- The clock goes from 14 to 15 between the two readings: `alarm(0)`. -/
theorem alarm_zero : ¬ ∀ (h₀ : TimeHeap) (ts : List Ptr) (ops : List HeapOp) (s : Server)
    (now now' : ℤ), HeapStart h₀ ts → Run HeapStep h₀ ops s.heap → now ≤ now' →
    (s.timerHandler now now').Armed now' := by
  intro hall
  have harmed := hall _ [] _ oneTimer 14 15 (.ofCapacity _ rfl rfl (by decide)) oneTimer_run
    (by decide)
  unfold Server.Armed at harmed
  rw [if_neg (by decide +kernel)] at harmed
  exact absurd harmed.1 (by decide +kernel)

end SocketTest.Timer
