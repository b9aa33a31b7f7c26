import SocketTest.Lib.Threads
import SocketTest.ProcessPool.Parent

/-!
# From the listening socket to the children

A connection that arrives wakes the parent, which writes to a child's pipe; this wakes the child,
which reads from the pipe and accepts. Both sockets are registered with `EPOLLET`: what has arrived on
one since its last report gives one more report or several. Each wake-up serves one connection.

1. The children and the steps, with the wake-ups that a step loses.
2. `backlog_eq`: the connections waiting are the wake-ups on their way and those lost.
3. `dispatched_iff`: at rest nothing is waiting exactly when no wake-up has been lost.
-/

namespace SocketTest.ProcessPool

open SocketTest.Lib

/-- A child in `run_child`: before `epoll_wait`, with an event of its pipe before `recv`, between
`recv` and `accept`, or gone. -/
inductive ChildPhase
  | polling
  | reading
  | accepting
  | exited
  deriving DecidableEq

/-- The `recv` that the child comes to. -/
def ChildPhase.reads : ChildPhase → ℕ
  | .reading => 1
  | _ => 0

/-- The `accept` that it comes to next. -/
def ChildPhase.accepts : ChildPhase → ℕ
  | .accepting => 1
  | _ => 0

structure Child where
  phase : ChildPhase
  /-- the notifications in its pipe -/
  unread : ℕ
  /-- the reports of its pipe that `epoll_wait` has not returned -/
  reports : ℕ

structure Pool where
  parent : Parent
  /-- the connections that have not been accepted -/
  backlog : ℕ
  /-- the reports of the listening socket that the parent's `epoll_wait` has not returned -/
  reports : ℕ
  /-- and those that it has returned, before the parent has come to them -/
  batch : ℕ
  child : ℕ → Child

/-- The steps. An arrival or a notification is `merged` when it gives no report of its own, in which
case one must be on its way. -/
inductive Act
  | arrive (merged : Bool)
  | poll
  | notify (i : ℕ) (merged : Bool)
  | notifyExited (i : ℕ) (killed : Bool)
  | noChild (dropped : ℕ)
  | parent (e : Event)
  | wake (i : ℕ)
  | recv (i : ℕ)
  | accept (i : ℕ)
  | acceptFails (i : ℕ)
  | exit (i : ℕ) (dropped : ℕ)
  deriving DecidableEq

/-- The wake-ups that a step leaves without effect. -/
def Act.lost : Act → ℕ
  | .arrive true | .notify _ true | .notifyExited _ _ | .acceptFails _ => 1
  | .noChild dropped | .exit _ dropped => dropped
  | _ => 0

/-- Events of the parent that are no connection events. -/
def Event.Aside : Event → Prop
  | .poll | .listen _ => False
  | .sigchld _ | .sigterm _ | .other | .handled | .failure _ => True

namespace Child

/-- The notifications that it will be made to read. -/
def due (c : Child) : ℕ := c.reports + c.phase.reads

/-- The wake-ups on their way in it. -/
def pending (c : Child) : ℕ := c.due + c.phase.accepts

/-- A notification arrives. -/
def notified (c : Child) (merged : Bool) : Child :=
  { c with
    unread := c.unread + 1
    reports := if merged then c.reports else c.reports + 1 }

/-- `epoll_wait` returns a report. -/
def woken (c : Child) : Child := { c with phase := .reading, reports := c.reports - 1 }

/-- `recv` takes a notification; with none it fails with `EAGAIN`, which makes no difference. -/
def read (c : Child) : Child := { c with phase := .accepting, unread := c.unread - 1 }

/-- Behind `accept`. -/
def served (c : Child) : Child := { c with phase := .polling }

def gone : Child := ⟨.exited, 0, 0⟩

variable {c : Child}

theorem notified_pending (c : Child) : (c.notified false).pending = c.pending + 1 := by
  show c.reports + 1 + c.phase.reads + c.phase.accepts =
    c.reports + c.phase.reads + c.phase.accepts + 1
  omega

theorem woken_pending (h : c.phase = .polling) (hpos : 0 < c.reports) :
    c.woken.pending = c.pending := by
  rw [pending, pending, due, due, h]
  show c.reports - 1 + 1 + 0 = c.reports + 0 + 0
  omega

theorem read_pending (h : c.phase = .reading) : c.read.pending = c.pending := by
  rw [pending, pending, due, due, h]
  rfl

theorem woken_due (h : c.phase = .polling) (hpos : 0 < c.reports) : c.woken.due = c.due := by
  rw [due, due, h]
  show c.reports - 1 + 1 = c.reports + 0
  omega

theorem read_due (h : c.phase = .reading) : c.read.due + 1 = c.due := by
  rw [due, due, h]
  rfl

theorem served_due (h : c.phase = .accepting) : c.served.due = c.due := by
  rw [due, due, h]
  rfl

theorem served_pending (h : c.phase = .accepting) : c.served.pending + 1 = c.pending := by
  rw [pending, pending, due, due, h]
  rfl

end Child

namespace Pool

def setChild (s : Pool) (i : ℕ) (c : Child) : Pool := { s with child := Function.update s.child i c }

/-- What is sent to a child that is gone is lost; with the other end of the pipe closed, `SIGPIPE`
kills the parent. `accept` on an empty backlog fails with `EAGAIN`. The steps `recv` are those of a
child whose parent is there. -/
inductive Step (n : ℕ) : Pool → Act → Pool → Prop
  | arrive {s : Pool} {merged : Bool} : (merged = true → 0 < s.reports) →
      Step n s (.arrive merged)
        { s with
          backlog := s.backlog + 1
          reports := if merged then s.reports else s.reports + 1 }
  | poll {s : Pool} {p : Parent} : Parent.Step n s.parent .poll p →
      Step n s .poll
        { s with parent := p, reports := s.reports - 1, batch := s.batch + min s.reports 1 }
  | notify {s : Pool} {p : Parent} {i : ℕ} {merged : Bool} : 0 < s.batch →
      Parent.Step n s.parent (.listen (some i)) p → i < n → (s.child i).phase ≠ .exited →
      (merged = true → 0 < (s.child i).reports) →
      Step n s (.notify i merged)
        { s.setChild i ((s.child i).notified merged) with parent := p, batch := s.batch - 1 }
  | notifyExited {s : Pool} {p : Parent} {i : ℕ} {killed : Bool} : 0 < s.batch →
      Parent.Step n s.parent (.listen (some i)) p → (s.child i).phase = .exited →
      Step n s (.notifyExited i killed)
        { s with
          parent := if killed then { p with phase := .left } else p
          batch := s.batch - 1 }
  | noChild {s : Pool} {p : Parent} : 0 < s.batch → Parent.Step n s.parent (.listen none) p →
      Step n s (.noChild s.batch) { s with parent := p, batch := 0 }
  | parent {s : Pool} {p : Parent} {e : Event} : e.Aside → (e = .handled → s.batch = 0) →
      (∀ pids, e = .sigchld pids → ∀ i < n, s.parent.pid i ∈ pids → (s.child i).phase = .exited) →
      Parent.Step n s.parent e p → Step n s (.parent e) { s with parent := p }
  | wake {s : Pool} {i : ℕ} : i < n → (s.child i).phase = .polling → 0 < (s.child i).reports →
      Step n s (.wake i)
        (s.setChild i (s.child i).woken)
  | recv {s : Pool} {i : ℕ} : i < n → s.parent.phase ≠ .left → (s.child i).phase = .reading →
      Step n s (.recv i) (s.setChild i (s.child i).read)
  | accept {s : Pool} {i : ℕ} : i < n → (s.child i).phase = .accepting →
      Step n s (.accept i) { s.setChild i (s.child i).served with backlog := s.backlog - 1 }
  | acceptFails {s : Pool} {i : ℕ} : i < n → (s.child i).phase = .accepting →
      Step n s (.acceptFails i) (s.setChild i (s.child i).served)
  | exit {s : Pool} {i : ℕ} : i < n → (s.child i).phase ≠ .exited →
      Step n s (.exit i (s.child i).pending) (s.setChild i .gone)

/-- The pool when its processes have been forked. -/
structure Started (n : ℕ) (s : Pool) : Prop where
  parent : s.parent.Started n
  backlog : s.backlog = 0
  reports : s.reports = 0
  batch : s.batch = 0
  child : ∀ i, s.child i = ⟨.polling, 0, 0⟩

/-- The parent and the children that run are in `epoll_wait`, and no event for them is on its way. -/
structure Quiescent (n : ℕ) (s : Pool) : Prop where
  parent : s.parent.phase = .polling ∧ s.parent.stop = false
  reports : s.reports = 0
  child : ∀ i < n, (s.child i).phase ≠ .exited → (s.child i).phase = .polling ∧ (s.child i).reports = 0

/-- No connection waits, and no child that runs has a notification left. -/
def Dispatched (n : ℕ) (s : Pool) : Prop :=
  s.backlog = 0 ∧ ∀ i < n, (s.child i).phase ≠ .exited → (s.child i).unread = 0

/-! ## Wake-ups on their way -/

/-- Those in the children. -/
def inChildren (n : ℕ) (child : ℕ → Child) : ℕ := ∑ i ∈ Finset.range n, (child i).pending

/-- The wake-ups on their way. -/
def wakeups (n : ℕ) (s : Pool) : ℕ := s.reports + s.batch + inChildren n s.child

variable {n i : ℕ} {s t : Pool} {a : Act} {as : List Act}

theorem inChildren_update (hi : i < n) (child : ℕ → Child) (c : Child) :
    inChildren n (Function.update child i c) + (child i).pending =
      inChildren n child + c.pending :=
  sum_move (Finset.mem_range.mpr hi) Child.pending child c

/-- A connection waits for each wake-up on its way and for each that has been lost. -/
theorem backlog_step (hs : Step n s a t) {lost : ℕ} (h : s.backlog = s.wakeups n + lost) :
    t.backlog = t.wakeups n + (lost + a.lost) := by
  unfold wakeups at h
  cases hs with
  | @arrive merged _ =>
    cases merged with
    | false =>
      show s.backlog + 1 = s.reports + 1 + s.batch + inChildren n s.child + (lost + 0)
      omega
    | true =>
      show s.backlog + 1 = s.reports + s.batch + inChildren n s.child + (lost + 1)
      omega
  | poll _ =>
    show s.backlog =
      s.reports - 1 + (s.batch + min s.reports 1) + inChildren n s.child + (lost + 0)
    omega
  | @notify p i merged hbatch _ hi _ _ =>
    have hsum := inChildren_update hi s.child ((s.child i).notified merged)
    cases merged with
    | false =>
      have hpending := Child.notified_pending (s.child i)
      show s.backlog = s.reports + (s.batch - 1) +
        inChildren n (Function.update s.child i ((s.child i).notified false)) + (lost + 0)
      omega
    | true =>
      have hpending : ((s.child i).notified true).pending = (s.child i).pending := rfl
      show s.backlog = s.reports + (s.batch - 1) +
        inChildren n (Function.update s.child i ((s.child i).notified true)) + (lost + 1)
      omega
  | @notifyExited p i killed hbatch _ _ =>
    show s.backlog = s.reports + (s.batch - 1) + inChildren n s.child + (lost + 1)
    omega
  | noChild _ _ =>
    show s.backlog = s.reports + 0 + inChildren n s.child + (lost + s.batch)
    omega
  | parent _ _ _ _ => exact h
  | @wake i hi hphase hpos =>
    have hsum := inChildren_update hi s.child (s.child i).woken
    have hpending := Child.woken_pending hphase hpos
    show s.backlog = s.reports + s.batch +
      inChildren n (Function.update s.child i (s.child i).woken) + (lost + 0)
    omega
  | @recv i hi _ hphase =>
    have hsum := inChildren_update hi s.child (s.child i).read
    have hpending := Child.read_pending hphase
    show s.backlog = s.reports + s.batch +
      inChildren n (Function.update s.child i (s.child i).read) + (lost + 0)
    omega
  | @accept i hi hphase =>
    have hsum := inChildren_update hi s.child (s.child i).served
    have hpending := Child.served_pending hphase
    show s.backlog - 1 = s.reports + s.batch +
      inChildren n (Function.update s.child i (s.child i).served) + (lost + 0)
    omega
  | @acceptFails i hi hphase =>
    have hsum := inChildren_update hi s.child (s.child i).served
    have hpending := Child.served_pending hphase
    show s.backlog = s.reports + s.batch +
      inChildren n (Function.update s.child i (s.child i).served) + (lost + 1)
    omega
  | @exit i hi _ =>
    have hsum := inChildren_update hi s.child .gone
    have hpending : Child.gone.pending = 0 := rfl
    show s.backlog = s.reports + s.batch +
      inChildren n (Function.update s.child i .gone) + (lost + (s.child i).pending)
    omega

/-! ## Notifications -/

/-- What is in the pipe of a child when `lost` wake-ups have been lost. -/
structure Noted (lost : ℕ) (c : Child) : Prop where
  due_le : c.due ≤ c.unread
  unread_eq : lost = 0 → c.unread = c.due
  exited : c.phase = .exited → c.due = 0

theorem Noted.mono {lost : ℕ} {c : Child} (h : Noted lost c) (l : ℕ) : Noted (lost + l) c :=
  ⟨h.due_le, fun h0 => h.unread_eq (Nat.eq_zero_of_add_eq_zero_right h0), h.exited⟩

theorem Noted.of_due {lost : ℕ} {c c' : Child} (h : Noted lost c) (hdue : c'.due = c.due)
    (hunread : c'.unread = c.unread) (hrun : c'.phase ≠ .exited) : Noted lost c' := by
  refine ⟨?_, fun h0 => ?_, fun he => absurd he hrun⟩
  · rw [hdue, hunread]
    exact h.due_le
  · rw [hdue, hunread]
    exact h.unread_eq h0

theorem Noted.notified {lost : ℕ} {c : Child} (h : Noted lost c) (hrun : c.phase ≠ .exited)
    (merged : Bool) : Noted (lost + (Act.notify i merged).lost) (c.notified merged) := by
  have hle := h.due_le
  have hunread : (c.notified merged).unread = c.unread + 1 := rfl
  cases merged with
  | false =>
    have hdue : (c.notified false).due = c.due + 1 := Nat.add_right_comm _ _ _
    exact ⟨by omega, fun h0 => by rw [hunread, hdue, h.unread_eq h0], fun he => absurd he hrun⟩
  | true =>
    have hdue : (c.notified true).due = c.due := rfl
    exact ⟨by omega, fun h0 => absurd h0 (Nat.succ_ne_zero _), fun he => absurd he hrun⟩

theorem Noted.read {lost : ℕ} {c : Child} (h : Noted lost c) (hphase : c.phase = .reading) :
    Noted lost c.read := by
  have hle := h.due_le
  have hdue := Child.read_due hphase
  have hunread : c.read.unread = c.unread - 1 := rfl
  exact ⟨by omega, fun h0 => by have := h.unread_eq h0; omega, nofun⟩

theorem noted_step (hs : Step n s a t) {lost : ℕ} (h : ∀ i, Noted lost (s.child i)) (i : ℕ) :
    Noted (lost + a.lost) (t.child i) := by
  -- a step of one child
  have hmove : ∀ j c l, Noted (lost + l) c →
      Noted (lost + l) (Function.update s.child j c i) := by
    intro j c l hc
    by_cases hj : i = j
    · rwa [hj, Function.update_self]
    · rw [Function.update_of_ne hj]
      exact (h i).mono l
  cases hs with
  | arrive _ | poll _ | notifyExited _ _ _ | noChild _ _ | parent _ _ _ _ => exact (h i).mono _
  | @notify p j merged _ _ _ hrun _ => exact hmove j _ _ ((h j).notified hrun merged)
  | @wake j _ hphase hpos =>
    exact hmove j _ 0 ((h j).of_due (Child.woken_due hphase hpos) rfl nofun)
  | @recv j _ _ hphase => exact hmove j _ 0 ((h j).read hphase)
  | @accept j _ hphase => exact hmove j _ 0 ((h j).of_due (Child.served_due hphase) rfl nofun)
  | @acceptFails j _ hphase =>
    exact hmove j _ 1 (((h j).of_due (Child.served_due hphase) rfl nofun).mono 1)
  | exit _ _ => exact hmove _ _ _ ⟨le_rfl, fun _ => rfl, fun _ => rfl⟩

/-! ## The connection events at hand -/

theorem batch_step (hs : Step n s a t) (h : s.parent.phase = .polling → s.batch = 0) :
    t.parent.phase = .polling → t.batch = 0 := by
  cases hs with
  | arrive _ | wake _ _ _ | recv _ _ _ | accept _ _ | acceptFails _ _ | exit _ _ => exact h
  | poll hp =>
    intro hpolling
    cases hp
    cases hpolling
  | notify _ hp _ _ _ =>
    intro hpolling
    cases hp with
    | notify hphase _ _ => exact absurd (hphase.symm.trans hpolling) nofun
  | @notifyExited p i killed _ hp _ =>
    intro hpolling
    cases hp with
    | notify hphase _ _ =>
      cases killed with
      | false => exact absurd (hphase.symm.trans hpolling) nofun
      | true => cases hpolling
  | noChild _ _ => exact fun _ => rfl
  | parent haside hhandled _ hp =>
    intro hpolling
    cases hp with
    | poll _ _ | notify _ _ _ | noChild _ _ _ => exact absurd haside id
    | @sigchld pids hphase _ =>
      have := (Parent.sigchld_frame n s.parent pids).1
      exact absurd (hphase.symm.trans (this.symm.trans hpolling)) nofun
    | sigterm hphase => exact absurd (hphase.symm.trans hpolling) nofun
    | other hphase => exact absurd (hphase.symm.trans hpolling) nofun
    | handled _ => exact hhandled rfl
    | failure _ _ => cases hpolling

/-! ## The pool at rest -/

/-- The wake-ups lost in a run. -/
def lostIn (as : List Act) : ℕ := (as.map Act.lost).sum

/-- What holds of the pool after the steps `as`. -/
structure Tracked (n : ℕ) (as : List Act) (s : Pool) : Prop where
  backlog : s.backlog = s.wakeups n + lostIn as
  noted : ∀ i, Noted (lostIn as) (s.child i)
  batch : s.parent.phase = .polling → s.batch = 0

theorem Started.tracked (h : s.Started n) : Tracked n [] s := by
  have hpending : ∀ i, (s.child i).pending = 0 := fun i => by rw [h.child]; rfl
  constructor
  · simp [wakeups, inChildren, lostIn, h.backlog, h.reports, h.batch, hpending]
  · intro i
    rw [h.child]
    exact ⟨le_rfl, fun _ => rfl, nofun⟩
  · exact fun _ => h.batch

theorem Tracked.step (h : Tracked n as s) (hs : Step n s a t) : Tracked n (as ++ [a]) t := by
  have hlost : lostIn (as ++ [a]) = lostIn as + a.lost := by simp [lostIn]
  refine ⟨?_, ?_, batch_step hs h.batch⟩
  · rw [hlost]
    exact backlog_step hs h.backlog
  · rw [hlost]
    exact noted_step hs h.noted

theorem tracked_of_run {s₀ : Pool} (h0 : s₀.Started n) (hr : Run (Step n) s₀ as s) :
    Tracked n as s :=
  hr.history (Tracked n) h0.tracked fun _ _ _ _ h hs => h.step hs

/-- At rest no wake-up is on its way in a child. -/
theorem Quiescent.due_eq (hq : s.Quiescent n) (h : Tracked n as s) (hi : i < n) :
    (s.child i).due = 0 ∧ (s.child i).phase.accepts = 0 := by
  by_cases hphase : (s.child i).phase = .exited
  · exact ⟨(h.noted i).exited hphase, by rw [hphase]; rfl⟩
  · obtain ⟨hp, hr⟩ := hq.child i hi hphase
    rw [Child.due, hp, hr]
    exact ⟨rfl, rfl⟩

theorem Quiescent.backlog_eq (hq : s.Quiescent n) (h : Tracked n as s) :
    s.backlog = lostIn as := by
  have hchild : inChildren n s.child = 0 := by
    apply Finset.sum_eq_zero
    intro i hi
    obtain ⟨hdue, haccepts⟩ := hq.due_eq h (Finset.mem_range.mp hi)
    rw [Child.pending, hdue, haccepts, Nat.add_zero]
  rw [h.backlog, wakeups, hq.reports, h.batch hq.parent.1, hchild, Nat.zero_add]

/-- **Dispatch.** When everybody is at rest, every connection has been accepted and every notification
read exactly when no step of the run has lost a wake-up. -/
theorem dispatched_iff {s₀ : Pool} (h0 : s₀.Started n) (hr : Run (Step n) s₀ as s)
    (hq : s.Quiescent n) : s.Dispatched n ↔ ∀ a ∈ as, a.lost = 0 := by
  have h := tracked_of_run h0 hr
  have hbacklog := hq.backlog_eq h
  have hlost : lostIn as = 0 ↔ ∀ a ∈ as, a.lost = 0 := by
    rw [lostIn, List.sum_eq_zero_iff]
    simp
  rw [← hlost]
  constructor
  · intro hd
    rw [← hbacklog]
    exact hd.1
  · intro hnone
    refine ⟨hbacklog.trans hnone, fun i hi _ => ?_⟩
    rw [(h.noted i).unread_eq hnone, (hq.due_eq h hi).1]

/-- A pool of one child. -/
def single : Pool where
  parent := ⟨fun _ => 10, fun _ => true, 0, false, .polling⟩
  backlog := 0
  reports := 0
  batch := 0
  child := fun _ => ⟨.polling, 0, 0⟩

theorem single_started : single.Started 1 :=
  ⟨⟨fun _ _ => show (0 : ℤ) < 10 by decide, fun _ _ => rfl, rfl, rfl, rfl⟩, rfl, rfl, rfl, fun _ => rfl⟩

/-- The way of one wake-up to the child and the connection it serves. -/
def served : List Act :=
  [.poll, .notify 0 false, .parent .handled, .wake 0, .recv 0, .accept 0]

theorem served_run {s : Pool} (hparent : s.parent = single.parent) (hreports : s.reports = 1)
    (hbatch : s.batch = 0) (hchild : s.child = single.child) : ∃ t, Run (Step 1) s served t ∧
      t.Quiescent 1 ∧ t.backlog = s.backlog - 1 := by
  obtain ⟨parent, backlog, reports, batch, child⟩ := s
  obtain rfl : parent = single.parent := hparent
  obtain rfl : reports = 1 := hreports
  obtain rfl : batch = 0 := hbatch
  obtain rfl : child = single.child := hchild
  have hnotify : Parent.Step 1 { single.parent with phase := .handling } (.listen (some 0))
      { single.parent with phase := .handling } := .notify rfl ⟨1, rfl⟩ (by decide)
  refine ⟨_, .cons (.poll (.poll rfl rfl)) (.cons (.notify Nat.one_pos hnotify Nat.one_pos nofun nofun)
    (.cons (.parent trivial (fun _ => rfl) nofun (.handled rfl))
      (.cons (.wake Nat.one_pos rfl Nat.one_pos) (.cons (.recv Nat.one_pos nofun rfl)
        (.cons (.accept Nat.one_pos rfl) (.nil _)))))), ?_, rfl⟩
  refine ⟨⟨rfl, rfl⟩, rfl, fun i hi _ => ?_⟩
  obtain rfl : i = 0 := by omega
  exact ⟨rfl, rfl⟩

/-- One connection. -/
theorem dispatched_iff_single : ∃ t : Pool,
    t.Dispatched 1 ↔ ∀ a ∈ Act.arrive false :: served, a.lost = 0 := by
  have harrive : Step 1 single (.arrive false) { single with backlog := 1, reports := 1 } :=
    .arrive nofun
  obtain ⟨t, hr, hq, -⟩ := served_run (s := { single with backlog := 1, reports := 1 }) rfl rfl rfl rfl
  exact ⟨t, dispatched_iff single_started (.cons harrive hr) hq⟩

/-- Two connections that come as one report: one of them is never accepted. -/
theorem merged_arrival : ¬ ∀ (n : ℕ) (s₀ s : Pool) (as : List Act), s₀.Started n →
    (∃ i < n, ∀ dropped, .exit i dropped ∉ as) → Run (Step n) s₀ as s → s.Quiescent n →
    s.Dispatched n := by
  intro hall
  have hfirst : Step 1 single (.arrive false) { single with backlog := 1, reports := 1 } :=
    .arrive nofun
  have hsecond : Step 1 { single with backlog := 1, reports := 1 } (.arrive true)
      { single with backlog := 2, reports := 1 } := .arrive fun _ => Nat.one_pos
  obtain ⟨t, hr, hq, hbacklog⟩ :=
    served_run (s := { single with backlog := 2, reports := 1 }) rfl rfl rfl rfl
  have hd := hall 1 single t _ single_started
    ⟨0, Nat.one_pos, fun _ => by simp [served]⟩ (.cons hfirst (.cons hsecond hr)) hq
  exact absurd (hd.1.symm.trans hbacklog) (by decide)

end Pool

end SocketTest.ProcessPool
