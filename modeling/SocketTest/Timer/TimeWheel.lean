import SocketTest.Timer.Basic

/-!
# `time_wheel`: timers in the slots of a wheel

The model of `timer/time_wheel_timer.h`. Each slot points to a doubly linked list of timers; a timer
waits for `rotation` rounds of the wheel before it fires. The loop of `tick` follows `next`, so it
takes a bound on its rounds and answers `none` when the bound is reached.
-/

namespace SocketTest.Timer

open SocketTest.Lib

/-- `tw_timer`. -/
structure TwTimer where
  rotation : ℕ
  timeSlot : ℕ
  cbFunc : Ptr
  userData : ℕ
  next : Ptr
  prev : Ptr
  deriving DecidableEq, Repr

def TwTimer.call (t : TwTimer) : Call := ⟨t.cbFunc, t.userData⟩

/-- `time_wheel`, together with the timers it points to. -/
structure TimeWheel where
  mem : Mem TwTimer
  slots : ℕ → Ptr
  curSlot : ℕ

namespace TimeWheel

/-- The number of slots. -/
def N : ℕ := 60

/-- The time between two slots. -/
def SI : ℤ := 1

def next (w : TimeWheel) (p : Ptr) : Ptr := (w.mem.cell p).next
def prev (w : TimeWheel) (p : Ptr) : Ptr := (w.mem.cell p).prev
def rotation (w : TimeWheel) (p : Ptr) : ℕ := (w.mem.cell p).rotation
def timeSlot (w : TimeWheel) (p : Ptr) : ℕ := (w.mem.cell p).timeSlot

/-- An access to `slots[i]`. -/
def slot (w : TimeWheel) (i : ℕ) : TimeWheel :=
  if i < N then w else { w with mem := w.mem.fault (.outOfBounds i) }

/-- A read of a field of `p`. -/
def deref (w : TimeWheel) (p : Ptr) : TimeWheel := { w with mem := w.mem.check p }

/-- `slots[i] = p`. -/
def setSlot (w : TimeWheel) (i : ℕ) (p : Ptr) : TimeWheel :=
  { w.slot i with slots := Function.update w.slots i p }

/-- `p->next = q`. -/
def setNext (w : TimeWheel) (p q : Ptr) : TimeWheel :=
  { w with mem := w.mem.modify p fun t => { t with next := q } }

/-- `p->prev = q`. -/
def setPrev (w : TimeWheel) (p q : Ptr) : TimeWheel :=
  { w with mem := w.mem.modify p fun t => { t with prev := q } }

/-- `--p->rotation`. -/
def decRotation (w : TimeWheel) (p : Ptr) : TimeWheel :=
  { w with mem := w.mem.modify p fun t => { t with rotation := t.rotation - 1 } }

/-- `delete p`. -/
def delete (w : TimeWheel) (p : Ptr) : TimeWheel := { w with mem := w.mem.delete p }

/-- `time_wheel()`. -/
def init (mem : Mem TwTimer) : TimeWheel := ⟨mem, fun _ => 0, 0⟩

/-- The number of ticks a timeout stands for. -/
def ticksOf (timeout : ℤ) : ℕ := if timeout < SI then 1 else (timeout / SI).toNat

/-- `add_timer`, with `timer` the address of the new object and the pointer returned. The
constructor leaves the callback as the memory has it. -/
def addTimer (w : TimeWheel) (timer : Ptr) (timeout : ℤ) : TimeWheel × Ptr :=
  if timeout < 0 then (w, 0)
  else
    let ticks := ticksOf timeout
    let ts := (w.curSlot + ticks % N) % N
    let w₁ := { w with mem := w.mem.create timer { w.mem.cell timer with
      rotation := ticks / N, timeSlot := ts, next := 0, prev := 0 } }
    if w.slots ts = 0 then ((w₁.slot ts).setSlot ts timer, timer)
    else
      ((((w₁.slot ts).setNext timer (w.slots ts)).setPrev (w.slots ts) timer).setSlot ts timer,
        timer)

/-- The caller's assignments to the timer it got from `add_timer`. -/
def setCall (w : TimeWheel) (timer : Ptr) (call : Call) : TimeWheel :=
  { w with mem := w.mem.modify timer fun t =>
      { t with cbFunc := call.func, userData := call.arg } }

/-- `slots[i] = timer->next; if(slots[i]) slots[i]->prev = NULL`. -/
def dropHead (w : TimeWheel) (i : ℕ) (timer : Ptr) : TimeWheel :=
  if w.next timer = 0 then w.setSlot i (w.next timer)
  else (w.setSlot i (w.next timer)).setPrev (w.next timer) 0

/-- `timer->prev->next = timer->next; if(timer->next) timer->next->prev = timer->prev`. -/
def bypass (w : TimeWheel) (timer : Ptr) : TimeWheel :=
  let w₁ := w.setNext (w.prev timer) (w.next timer)
  if w₁.next timer = 0 then w₁ else w₁.setPrev (w₁.next timer) (w₁.prev timer)

def delTimer (w : TimeWheel) (timer : Ptr) : TimeWheel :=
  if timer = 0 then w
  else
    let ts := w.timeSlot timer
    let w₁ := (w.deref timer).slot ts
    if timer = w.slots ts then (w₁.dropHead ts timer).delete timer
    else (w₁.bypass timer).delete timer

/-- The `while` loop of `tick` from `tmp` on, with the timers whose callbacks it invokes. A call
through a null callback is recorded as a fault. -/
def tickLoop (fuel : ℕ) (w : TimeWheel) (tmp : Ptr) : Option (TimeWheel × List (Ptr × Call)) :=
  match fuel with
  | 0 => none
  | fuel + 1 =>
    if tmp = 0 then some (w, [])
    else
      let w₁ := w.deref tmp
      if 0 < w.rotation tmp then tickLoop fuel (w₁.decRotation tmp) (w.next tmp)
      else
        let w₂ : TimeWheel :=
          if (w.mem.cell tmp).cbFunc = 0 then { w₁ with mem := w₁.mem.fault .null } else w₁
        let w₃ := w₂.slot w.curSlot
        if tmp = w.slots w.curSlot then
          -- the object goes before the new head's `prev` is cleared
          let w₄ := (w₃.setSlot w.curSlot (w.next tmp)).delete tmp
          let w₅ := if w.next tmp = 0 then w₄ else w₄.setPrev (w.next tmp) 0
          (tickLoop fuel w₅ (w.next tmp)).map fun r => (r.1, (tmp, (w.mem.cell tmp).call) :: r.2)
        else
          let w₄ := w₃.bypass tmp
          (tickLoop fuel (w₄.delete tmp) (w₄.next tmp)).map
            fun r => (r.1, (tmp, (w.mem.cell tmp).call) :: r.2)

def tick (fuel : ℕ) (w : TimeWheel) : Option (TimeWheel × List (Ptr × Call)) :=
  (tickLoop fuel (w.slot w.curSlot) (w.slots w.curSlot)).map fun r =>
    ({ r.1 with curSlot := (r.1.curSlot + 1) % N }, r.2)

end TimeWheel

end SocketTest.Timer
