import SocketTest.Timer.Basic

/-!
# `sort_timer_lst`: timers in a sorted doubly linked list

The model of `timer/list_timer.h`. Fields are read and written through pointers, in the order of the
source. The `while` loops follow `next` pointers, so each takes a bound on its rounds and answers
`none` when the bound is reached.
-/

namespace SocketTest.Timer

open SocketTest.Lib

structure UtilTimer where
  expire : ℤ
  cbFunc : Ptr
  userData : ℕ
  prev : Ptr
  next : Ptr
  deriving DecidableEq, Repr

def UtilTimer.call (t : UtilTimer) : Call := ⟨t.cbFunc, t.userData⟩

/-- `util_timer()` followed by the caller's assignments. -/
def UtilTimer.fresh (expire : ℤ) (cbFunc : Ptr) (userData : ℕ) : UtilTimer :=
  ⟨expire, cbFunc, userData, 0, 0⟩

/-- `sort_timer_lst`, together with the timers it points to. -/
structure SortTimerLst where
  mem : Mem UtilTimer
  head : Ptr
  tail : Ptr

namespace SortTimerLst

def expire (l : SortTimerLst) (p : Ptr) : ℤ := (l.mem.cell p).expire
def next (l : SortTimerLst) (p : Ptr) : Ptr := (l.mem.cell p).next
def prev (l : SortTimerLst) (p : Ptr) : Ptr := (l.mem.cell p).prev

/-- A read of a field of `p`. -/
def deref (l : SortTimerLst) (p : Ptr) : SortTimerLst := { l with mem := l.mem.check p }

/-- `p->next = q`. -/
def setNext (l : SortTimerLst) (p q : Ptr) : SortTimerLst :=
  { l with mem := l.mem.modify p fun t => { t with next := q } }

/-- `p->prev = q`. -/
def setPrev (l : SortTimerLst) (p q : Ptr) : SortTimerLst :=
  { l with mem := l.mem.modify p fun t => { t with prev := q } }

/-- `delete p`. -/
def delete (l : SortTimerLst) (p : Ptr) : SortTimerLst := { l with mem := l.mem.delete p }

/-- The empty list. -/
def init (mem : Mem UtilTimer) : SortTimerLst := ⟨mem, 0, 0⟩

/-- `add_timer(timer, lst_head)` from `prev` on: `tmp` is `prev->next`, and the timer goes before
the first `tmp` that expires later, else behind the last element. -/
def insertFrom (fuel : ℕ) (l : SortTimerLst) (timer prev : Ptr) : Option SortTimerLst :=
  match fuel with
  | 0 => none
  | fuel + 1 =>
    let l₁ := l.deref prev
    let tmp := l.next prev
    if tmp = 0 then
      some { ((l₁.setNext prev timer).setPrev timer prev).setNext timer 0 with tail := timer }
    else
      let l₂ := (l₁.deref timer).deref tmp
      if l.expire timer < l.expire tmp then
        some ((((l₂.setNext prev timer).setNext timer tmp).setPrev timer prev).setPrev tmp timer)
      else insertFrom fuel l₂ timer tmp

def addTimer (fuel : ℕ) (l : SortTimerLst) (timer : Ptr) : Option SortTimerLst :=
  if timer = 0 then some l
  else if l.head = 0 then some { l with head := timer, tail := timer }
  else
    let l₁ := (l.deref timer).deref l.head
    if l.expire timer < l.expire l.head then
      some { (l₁.setNext timer l.head).setPrev l.head timer with head := timer }
    else insertFrom fuel l₁ timer l.head

def adjustTimer (fuel : ℕ) (l : SortTimerLst) (timer : Ptr) : Option SortTimerLst :=
  if timer = 0 then some l
  else
    let l₁ := l.deref timer
    let tmp := l.next timer
    if tmp = 0 then some l₁
    else if l.expire timer < l.expire tmp then some (l₁.deref tmp)
    else if timer = l.head then
      let l₂ : SortTimerLst := { (l₁.deref tmp).deref l.head with head := l.next l.head }
      let l₃ := (l₂.setPrev l₂.head 0).setNext timer 0
      insertFrom fuel l₃ timer l₃.head
    else
      let l₂ := (l₁.deref tmp).setNext (l.prev timer) (l.next timer)
      let l₃ := l₂.setPrev (l₂.next timer) (l₂.prev timer)
      insertFrom fuel l₃ timer (l₃.next timer)

def delTimer (l : SortTimerLst) (timer : Ptr) : SortTimerLst :=
  if timer = 0 then l
  else if timer = l.head ∧ timer = l.tail then { l.delete timer with head := 0, tail := 0 }
  else if timer = l.head then
    let l₁ : SortTimerLst := { l.deref l.head with head := l.next l.head }
    (l₁.setPrev l₁.head 0).delete timer
  else if timer = l.tail then
    let l₁ : SortTimerLst := { l.deref l.tail with tail := l.prev l.tail }
    (l₁.setNext l₁.tail 0).delete timer
  else
    let l₁ := (l.deref timer).setNext (l.prev timer) (l.next timer)
    (l₁.setPrev (l₁.next timer) (l₁.prev timer)).delete timer

/-- The `while(tmp)` loop of `tick`, with the callbacks it invokes. A call through a null callback
is recorded as a fault. -/
def tickLoop (fuel : ℕ) (l : SortTimerLst) (cur : ℤ) (tmp : Ptr) :
    Option (SortTimerLst × List Call) :=
  match fuel with
  | 0 => none
  | fuel + 1 =>
    if tmp = 0 then some (l, [])
    else
      let l₁ := l.deref tmp
      if cur < l.expire tmp then some (l₁, [])
      else
        let l₂ : SortTimerLst :=
          if (l.mem.cell tmp).cbFunc = 0 then { l₁ with mem := l₁.mem.fault .null } else l₁
        let l₃ : SortTimerLst := { l₂ with head := l₂.next tmp }
        let l₄ := if l₃.head = 0 then l₃ else l₃.setPrev l₃.head 0
        let l₅ := l₄.delete tmp
        (tickLoop fuel l₅ cur l₅.head).map fun r => (r.1, (l.mem.cell tmp).call :: r.2)

/-- `tick` with the clock at `cur`. -/
def tick (fuel : ℕ) (l : SortTimerLst) (cur : ℤ) : Option (SortTimerLst × List Call) :=
  if l.head = 0 then some (l, []) else tickLoop fuel l cur l.head

/-- A caller's `p->expire = e`. -/
def setExpire (l : SortTimerLst) (p : Ptr) (e : ℤ) : SortTimerLst :=
  { l with mem := l.mem.modify p fun t => { t with expire := e } }

/-- A caller's extension of a timer: the new `expire`, then `adjust_timer`. -/
def extend (fuel : ℕ) (l : SortTimerLst) (timer : Ptr) (expire : ℤ) : Option SortTimerLst :=
  adjustTimer fuel (l.setExpire timer expire) timer

end SortTimerLst

end SocketTest.Timer
