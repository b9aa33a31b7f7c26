import SocketTest.Lib.SelfPipe
import SocketTest.Lib.Settles
import SocketTest.Lib.Threads
import SocketTest.ProcessPool.Parent

/-!
# The end of the pool

`SIGTERM` and `SIGCHLD` come to the parent and to the children through the pipe that `sig_handler`
writes to. For a `SIGTERM` the parent sends one to each child in its table; a child that gets it
leaves its loop, and its exit is a `SIGCHLD` for the parent, which waits for all that have exited
and leaves when its table is empty. Until it has waited for a child, the parent may notify it though it
has exited: this is a `SIGPIPE`, which kills the parent and leaves the other children alone.

1. The processes and the steps. `Outside` are those that nothing in the pool has to follow up.
2. The table names the children that have not been waited for.
3. What is on its way: `Inv`.
4. `shuts_down`: left alone, the pool comes to rest; at rest, with no signal lost, the table is
   right, and after a `SIGTERM` everybody has left, unless a `SIGPIPE` has killed the parent.
-/

namespace SocketTest.ProcessPool

open SocketTest.Lib

/-! ## 1. The processes -/

inductive Signal
  | chld
  | term
  deriving DecidableEq

/-- The bytes that a `recv` on the pipe has room for. -/
def SIGNALS : ℕ := 1024

/-- A child, until it has exited and been waited for. -/
structure Proc where
  pid : ℤ
  exited : Bool
  reaped : Bool
  /-- behind `setup_sig_pipe` -/
  ready : Bool
  sig : SelfPipe Signal
  stop : Bool

structure Group where
  parent : Parent
  sig : SelfPipe Signal
  /-- the signals that `recv` has returned, before the parent has come to them -/
  todo : List Signal
  proc : ℕ → Proc
  /-- the parent has been sent `SIGTERM`, and has sent it to its children -/
  asked : Bool
  killed : Bool
  /-- `SIGPIPE` has killed the parent -/
  broken : Bool

/-- Behind `while(!m_stop)`. -/
def Parent.Gone (p : Parent) : Prop := p.phase = .left ∨ p.phase = .polling ∧ p.stop = true

namespace Group

def setProc (s : Group) (i : ℕ) (c : Proc) : Group :=
  { s with proc := Function.update s.proc i c }

/-- A child exits, which the kernel tells the parent. -/
def exit (s : Group) (i : ℕ) : Group :=
  { s with
    proc := Function.update s.proc i { s.proc i with exited := true }
    sig := s.sig.raise .chld }

/-- `kill(pid, SIGTERM)` for these pids. -/
def kill (s : Group) (pids : List ℤ) : ℕ → Proc := fun i =>
  if (s.proc i).pid ∈ pids then { s.proc i with sig := (s.proc i).sig.raise .term } else s.proc i

/-- `waitpid` returns every child that has exited. -/
def reap (s : Group) : ℕ → Proc := fun i =>
  { s.proc i with reaped := (s.proc i).reaped || (s.proc i).exited }

/-- What `waitpid` returns. -/
structure Waits (n : ℕ) (s : Group) (pids : List ℤ) : Prop where
  mem_iff : ∀ pid, pid ∈ pids ↔
    ∃ i < n, (s.proc i).pid = pid ∧ (s.proc i).exited = true ∧ (s.proc i).reaped = false

/-- Signals from elsewhere, children that exit by themselves, connections, and an `epoll_wait` of
the parent that fails. To notify a child that has exited is a `SIGPIPE`. -/
inductive Outside (n : ℕ) (s : Group) : Group → Prop
  | ask : Outside n s { s with sig := s.sig.raise .term, asked := true }
  | signal {i : ℕ} (hi : i < n) (x : Signal) :
      Outside n s (s.setProc i { s.proc i with sig := (s.proc i).sig.raise x })
  | dies {i : ℕ} (hi : i < n) (h : (s.proc i).exited = false) : Outside n s (s.exit i)
  | connection {p : Parent} {e : Event} (he : e = .poll ∨ e = .other ∨
        ∃ child, e = .listen child ∧ ∀ i, child = some i → (s.proc i).exited = false)
      (hp : Parent.Step n s.parent e p) : Outside n s { s with parent := p }
  | sigpipe {p : Parent} {i : ℕ} (he : (s.proc i).exited = true)
      (hp : Parent.Step n s.parent (.listen (some i)) p) :
      Outside n s { s with parent := { p with phase := .left }, broken := true }
  | failure {p : Parent} {pids : List ℤ} (hp : Parent.Step n s.parent (.failure pids) p) :
      Outside n s { s with parent := p, proc := s.kill pids, killed := true }

/-- The steps that the parent and the children take then. -/
inductive Proceed (cap n : ℕ) (s : Group) : Group → Prop
  | deliver {x : Signal} (hg : ¬ s.parent.Gone) (hx : x ∈ s.sig.pending) :
      Proceed cap n s { s with sig := s.sig.handle cap x }
  | poll {p : Parent} (hq : s.sig.queued = true) (hp : Parent.Step n s.parent .poll p) :
      Proceed cap n s { s with parent := p, sig := s.sig.report }
  | recv (hphase : s.parent.phase = .handling) (ht : s.todo = []) (hr : s.sig.reported = true) :
      Proceed cap n s { s with sig := s.sig.read SIGNALS, todo := s.sig.taken SIGNALS }
  | chld {p : Parent} {pids : List ℤ} {todo : List Signal} (ht : s.todo = .chld :: todo)
      (hw : s.Waits n pids) (hp : Parent.Step n s.parent (.sigchld pids) p) :
      Proceed cap n s { s with parent := p, todo := todo, proc := s.reap }
  | term {p : Parent} {pids : List ℤ} {todo : List Signal} (ht : s.todo = .term :: todo)
      (hp : Parent.Step n s.parent (.sigterm pids) p) :
      Proceed cap n s { s with parent := p, todo := todo, proc := s.kill pids, killed := true }
  | handled {p : Parent} (ht : s.todo = []) (hr : s.sig.reported = false)
      (hp : Parent.Step n s.parent .handled p) : Proceed cap n s { s with parent := p }
  | setup {i : ℕ} (hi : i < n) (he : (s.proc i).exited = false) (hr : (s.proc i).ready = false) :
      Proceed cap n s (s.setProc i { s.proc i with ready := true })
  | ignored {i : ℕ} (hi : i < n) (he : (s.proc i).exited = false) (hr : (s.proc i).ready = false)
      (hx : .chld ∈ (s.proc i).sig.pending) :
      Proceed cap n s (s.setProc i { s.proc i with sig := (s.proc i).sig.discard .chld })
  | terminated {i : ℕ} (hi : i < n) (he : (s.proc i).exited = false)
      (hr : (s.proc i).ready = false) (hx : .term ∈ (s.proc i).sig.pending) :
      Proceed cap n s (s.exit i)
  | childDeliver {i : ℕ} {x : Signal} (hi : i < n) (he : (s.proc i).exited = false)
      (hr : (s.proc i).ready = true) (hx : x ∈ (s.proc i).sig.pending) :
      Proceed cap n s (s.setProc i { s.proc i with sig := (s.proc i).sig.handle cap x })
  | childReport {i : ℕ} (hi : i < n) (he : (s.proc i).exited = false)
      (hstop : (s.proc i).stop = false) (hq : (s.proc i).sig.queued = true) :
      Proceed cap n s (s.setProc i { s.proc i with sig := (s.proc i).sig.report })
  | childRecv {i : ℕ} (hi : i < n) (he : (s.proc i).exited = false)
      (hr : (s.proc i).sig.reported = true) :
      Proceed cap n s (s.setProc i
        { s.proc i with
          sig := (s.proc i).sig.read SIGNALS
          stop := (s.proc i).stop || .term ∈ (s.proc i).sig.taken SIGNALS })
  | childExit {i : ℕ} (hi : i < n) (he : (s.proc i).exited = false)
      (hstop : (s.proc i).stop = true) : Proceed cap n s (s.exit i)

inductive Origin
  | outside
  | pool

def Step (cap n : ℕ) (s : Group) : Origin → Group → Prop
  | .outside => Outside n s
  | .pool => Proceed cap n s

/-- The pool when its processes have been forked, and the parent is behind `setup_sig_pipe`. -/
structure Started (n : ℕ) (s : Group) : Prop where
  pos : 0 < n
  parent : s.parent.Started n
  pid_eq : ∀ i < n, (s.proc i).pid = s.parent.pid i
  pid_inj : ∀ i < n, ∀ j < n, s.parent.pid i = s.parent.pid j → i = j
  sig : s.sig = .empty
  todo : s.todo = []
  proc : ∀ i < n, (s.proc i).exited = false ∧ (s.proc i).reaped = false ∧ (s.proc i).stop = false ∧
    (s.proc i).sig = .empty
  asked : s.asked = false
  killed : s.killed = false
  broken : s.broken = false

end Group

/-! ## 2. The table -/

namespace Parent

variable {n : ℕ} {p : Parent} {i : ℕ}

theorem mem_living {pid : ℤ} : pid ∈ p.living n ↔ ∃ i < n, p.Live i ∧ p.pid i = pid := by
  simp only [living, List.mem_filter, List.mem_map, List.mem_range, decide_eq_true_eq]
  constructor
  · rintro ⟨⟨i, hi, rfl⟩, hne⟩
    exact ⟨i, hi, hne, rfl⟩
  · rintro ⟨i, hi, hlive, rfl⟩
    exact ⟨⟨i, hi, rfl⟩, hlive⟩

end Parent

namespace Group

variable {cap n : ℕ} {s s' : Group} {i j : ℕ} {o : Origin} {os : List Origin}

/-- The table is that of the children that have not been waited for. -/
structure Table (n : ℕ) (s : Group) : Prop where
  pid_eq : ∀ i < n, s.parent.pid i = if (s.proc i).reaped then -1 else (s.proc i).pid
  pid_pos : ∀ i < n, 0 < (s.proc i).pid
  pid_inj : ∀ i < n, ∀ j < n, (s.proc i).pid = (s.proc j).pid → i = j
  reaped : ∀ i < n, (s.proc i).reaped = true → (s.proc i).exited = true

theorem Table.live_iff (h : s.Table n) (hi : i < n) :
    s.parent.Live i ↔ (s.proc i).reaped = false := by
  have hpos := h.pid_pos i hi
  rw [Parent.Live, h.pid_eq i hi]
  cases (s.proc i).reaped with
  | true => exact iff_of_false (fun h => h rfl) Bool.true_eq_false.mp
  | false => exact iff_of_true (show (s.proc i).pid ≠ -1 by omega) rfl

theorem Table.mem_living (h : s.Table n) {pid : ℤ} : pid ∈ s.parent.living n ↔
    ∃ i < n, (s.proc i).reaped = false ∧ (s.proc i).pid = pid := by
  rw [Parent.mem_living]
  refine exists_congr fun i => and_congr_right fun hi => ?_
  rw [h.live_iff hi]
  refine and_congr_right fun hr => ?_
  rw [h.pid_eq i hi, hr]
  exact Iff.rfl

/-- A child as the table sees it. -/
structure SameEntry (c c' : Proc) : Prop where
  pid : c'.pid = c.pid
  reaped : c'.reaped = c.reaped
  exited : c.exited = true → c'.exited = true

theorem SameEntry.refl (c : Proc) : SameEntry c c := ⟨rfl, rfl, id⟩

/-- A step that the table does not notice. -/
theorem Table.of_same (h : s.Table n) (hpid : s'.parent.pid = s.parent.pid)
    (hproc : ∀ i < n, SameEntry (s.proc i) (s'.proc i)) : s'.Table n := by
  refine ⟨fun i hi => ?_, fun i hi => ?_, fun i hi j hj => ?_, fun i hi hr => ?_⟩
  · rw [hpid, (hproc i hi).reaped, (hproc i hi).pid]
    exact h.pid_eq i hi
  · rw [(hproc i hi).pid]
    exact h.pid_pos i hi
  · rw [(hproc i hi).pid, (hproc j hj).pid]
    exact h.pid_inj i hi j hj
  · rw [(hproc i hi).reaped] at hr
    exact (hproc i hi).exited (h.reaped i hi hr)

theorem same_update {c : Proc} (hc : SameEntry (s.proc i) c) :
    ∀ j < n, SameEntry (s.proc j) (Function.update s.proc i c j) := fun j _ =>
  (Function.forall_update_iff s.proc fun j c => SameEntry (s.proc j) c).2
    ⟨hc, fun j _ => .refl (s.proc j)⟩ j

theorem kill_sig (s : Group) (pids : List ℤ) (i : ℕ) :
    ∃ sig, s.kill pids i = { s.proc i with sig := sig } := by
  unfold kill
  split_ifs
  · exact ⟨_, rfl⟩
  · exact ⟨(s.proc i).sig, rfl⟩

theorem same_kill (pids : List ℤ) (i : ℕ) : SameEntry (s.proc i) (s.kill pids i) := by
  obtain ⟨sig, hsig⟩ := s.kill_sig pids i
  rw [hsig]
  exact ⟨rfl, rfl, id⟩

theorem Table.reap (h : s.Table n) {pids : List ℤ} (hw : s.Waits n pids) {todo : List Signal} :
    Table n { s with parent := s.parent.sigchld n pids, todo := todo, proc := s.reap } := by
  refine ⟨fun i hi => ?_, h.pid_pos, h.pid_inj, fun i hi hr => ?_⟩
  · show (s.parent.sigchld n pids).pid i =
      if (s.proc i).reaped || (s.proc i).exited then -1 else (s.proc i).pid
    rw [(Parent.sigchld_at n s.parent pids i).1, if_congr (and_iff_right hi) rfl rfl, h.pid_eq i hi]
    cases hr : (s.proc i).reaped with
    | true => exact ite_self _
    | false =>
      have hmem : (s.proc i).pid ∈ pids ↔ (s.proc i).exited = true := by
        rw [hw.mem_iff]
        constructor
        · rintro ⟨j, hj, hpid, hexited, -⟩
          rwa [h.pid_inj j hj i hi hpid] at hexited
        · exact fun he => ⟨i, hi, rfl, he, hr⟩
      exact if_congr hmem rfl rfl
  · exact (Bool.or_eq_true_iff.1 hr).elim (h.reaped i hi) id

/-! ## 3. What is on its way -/

/-- A child that has been sent `SIGTERM` and not exited will read it, or has. -/
def Told (c : Proc) : Prop :=
  c.exited = false → c.sig.lost = false → c.sig.Held .term ∨ c.stop = true

/-- The parent will come to the signal. -/
def Due (s : Group) (x : Signal) : Prop := s.sig.Held x ∨ x ∈ s.todo

structure Inv (n : ℕ) (s : Group) : Prop where
  table : s.Table n
  parent : s.parent.Invariant n
  stop_iff : s.parent.stop = true ↔ ∀ i < n, s.parent.pid i = -1
  awake : s.sig.Awake
  waiting : s.parent.phase = .polling → s.parent.stop = false →
    s.todo = [] ∧ s.sig.reported = false
  zombies : ¬ s.parent.Gone → s.sig.lost = false → ∀ i < n, (s.proc i).exited = true →
    (s.proc i).reaped = false → s.Due .chld
  asked : ¬ s.parent.Gone → s.sig.lost = false → s.asked = true → s.killed = true ∨ s.Due .term
  left : s.parent.phase = .left → s.killed = true ∨ s.broken = true
  children : ∀ i < n, (s.proc i).sig.Awake
  told : s.killed = true → ∀ i < n, Told (s.proc i)

theorem Started.inv (h : s.Started n) : s.Inv n where
  table := by
    refine ⟨fun i hi => ?_, fun i hi => ?_, fun i hi j hj heq => ?_, fun i hi hr => ?_⟩
    · rw [(h.proc i hi).2.1, h.pid_eq i hi]
      rfl
    · rw [h.pid_eq i hi]
      exact h.parent.pid_pos i hi
    · rw [h.pid_eq i hi, h.pid_eq j hj] at heq
      exact h.pid_inj i hi j hj heq
    · exact absurd ((h.proc i hi).2.1 ▸ hr) Bool.false_ne_true
  parent := h.parent.invariant h.pos
  stop_iff := by
    rw [h.parent.stop]
    refine iff_of_false Bool.false_ne_true fun hall => ?_
    have hpos := h.parent.pid_pos 0 h.pos
    rw [hall 0 h.pos] at hpos
    omega
  awake := h.sig ▸ SelfPipe.awake_empty
  waiting := fun _ _ => ⟨h.todo, h.sig ▸ rfl⟩
  zombies := fun _ _ i hi he => absurd ((h.proc i hi).1 ▸ he) Bool.false_ne_true
  asked := fun _ _ ha => absurd (h.asked ▸ ha) Bool.false_ne_true
  left := fun hl => absurd (h.parent.phase.symm.trans hl) (by decide)
  children := fun i hi => (h.proc i hi).2.2.2 ▸ SelfPipe.awake_empty
  told := fun hk => absurd (h.killed ▸ hk) Bool.false_ne_true

theorem not_gone_of_step {p p' : Parent} {e : Event} (h : Parent.Step n p e p') : ¬ p.Gone := by
  rintro (hleft | ⟨hpolling, hstop⟩)
  · cases h <;> exact absurd (hleft.symm.trans ‹_›) (by decide)
  · cases h with
    | poll _ hs | failure _ hs => exact Bool.false_ne_true (hs.symm.trans hstop)
    | notify hp | noChild hp | sigchld hp | sigterm hp | other hp | handled hp =>
      exact absurd (hpolling.symm.trans hp) (by decide)

/-- What a connection event does to the parent. -/
structure Connected (n : ℕ) (p p' : Parent) : Prop where
  pid : p'.pid = p.pid
  phase : p'.phase ≠ .left
  polling : p'.phase = .polling → p'.stop = true
  stop : p'.stop = p.stop ∨ p'.stop = true ∧ ∀ i < n, p.pid i = -1

theorem connected {p p' : Parent} {e : Event} (hinv : p.Invariant n)
    (he : e = .poll ∨ e = .other ∨ ∃ child, e = .listen child) (h : Parent.Step n p e p') :
    Connected n p p' := by
  have hhandling {q : Phase} (hq : q = .handling) : q ≠ .left ∧ (q = .polling → p.stop = true) :=
    ⟨hq ▸ by decide, fun hp => absurd (hq.symm.trans hp) (by decide)⟩
  cases h with
  | poll => exact ⟨rfl, (hhandling rfl).1, nofun, .inl rfl⟩
  | notify hp => exact ⟨rfl, (hhandling hp).1, (hhandling hp).2, .inl rfl⟩
  | noChild hp hends hdead =>
    have hnone := (Parent.chosen_of_step hinv (.noChild hp hends hdead)).1
    exact ⟨rfl, Phase.noConfusion, fun _ => rfl, .inr ⟨rfl, hnone⟩⟩
  | other hp => exact ⟨rfl, (hhandling hp).1, (hhandling hp).2, .inl rfl⟩
  | sigchld | sigterm | handled | failure =>
    rcases he with he | he | ⟨_, he⟩ <;> cases he

namespace Inv

/-! The steps of one child. -/

theorem setProc (h : s.Inv n) {c : Proc} (hpid : c.pid = (s.proc i).pid)
    (hreaped : c.reaped = (s.proc i).reaped) (hexited : c.exited = (s.proc i).exited)
    (hawake : c.sig.Awake) (htold : Told (s.proc i) → Told c) : (s.setProc i c).Inv n where
  table := h.table.of_same rfl (same_update ⟨hpid, hreaped, fun he => hexited.trans he⟩)
  parent := h.parent
  stop_iff := h.stop_iff
  awake := h.awake
  waiting := h.waiting
  zombies := fun hg hl => (Function.forall_update_iff s.proc fun i c => i < n → c.exited = true →
    c.reaped = false → s.Due .chld).2
      ⟨fun hi he hr => h.zombies hg hl i hi (hexited ▸ he) (hreaped ▸ hr),
        fun j _ => h.zombies hg hl j⟩
  asked := h.asked
  left := h.left
  children := (Function.forall_update_iff s.proc fun i c => i < n → c.sig.Awake).2
    ⟨fun _ => hawake, fun j _ => h.children j⟩
  told := fun hk => (Function.forall_update_iff s.proc fun i c => i < n → Told c).2
    ⟨fun hi => htold (h.told hk i hi), fun j _ => h.told hk j⟩

theorem exit (h : s.Inv n) (i : ℕ) : (s.exit i).Inv n where
  table := h.table.of_same rfl (same_update ⟨rfl, rfl, fun _ => rfl⟩)
  parent := h.parent
  stop_iff := h.stop_iff
  awake := h.awake.raise .chld
  waiting := h.waiting
  zombies := fun _ _ _ _ _ _ => .inl (SelfPipe.held_raise_self s.sig .chld)
  asked := fun hg hl ha => (h.asked hg hl ha).imp_right fun hdue => hdue.imp_left (·.raise .chld)
  left := h.left
  children := (Function.forall_update_iff s.proc fun i c => i < n → c.sig.Awake).2
    ⟨h.children i, fun j _ => h.children j⟩
  told := fun hk => (Function.forall_update_iff s.proc fun i c => i < n → Told c).2
    ⟨fun _ he => Bool.noConfusion he, fun j _ => h.told hk j⟩

/-! The steps of the parent. -/

theorem ask (h : s.Inv n) : Inv n { s with sig := s.sig.raise .term, asked := true } where
  table := h.table.of_same rfl fun _ _ => .refl _
  parent := h.parent
  stop_iff := h.stop_iff
  awake := h.awake.raise .term
  waiting := h.waiting
  zombies := fun hg hl i hi he hr => (h.zombies hg hl i hi he hr).imp_left (·.raise .term)
  asked := fun _ _ _ => .inr (.inl (SelfPipe.held_raise_self s.sig .term))
  left := h.left
  children := h.children
  told := h.told

theorem deliver (h : s.Inv n) (hg : ¬ s.parent.Gone) (x : Signal) :
    Inv n { s with sig := s.sig.handle cap x } := by
  have hdue {y : Signal} (hl : (s.sig.handle cap x).lost = false) (hy : s.Due y) :
      (s.sig.handle cap x).Held y ∨ y ∈ s.todo :=
    hy.imp_left fun hheld => (hheld.handle cap x).resolve_right (hl ▸ Bool.false_ne_true)
  refine ⟨h.table.of_same rfl fun _ _ => .refl _, h.parent, h.stop_iff,
    SelfPipe.awake_handle _ _ _, fun hp hs => ?_, fun _ hl i hi he hr => ?_, fun _ hl ha => ?_,
    h.left, h.children, h.told⟩
  · exact (h.waiting hp hs).imp_right fun hr => (SelfPipe.handle_reported _ _ _).trans hr
  · exact hdue hl (h.zombies hg (SelfPipe.lost_of_handle hl) i hi he hr)
  · exact (h.asked hg (SelfPipe.lost_of_handle hl) ha).imp_right (hdue hl)

theorem connection (h : s.Inv n) {p : Parent} {e : Event}
    (he : e = .poll ∨ e = .other ∨ ∃ child, e = .listen child)
    (hp : Parent.Step n s.parent e p) : Inv n { s with parent := p } := by
  have hgone := not_gone_of_step hp
  obtain ⟨hpid, hphase, hpolling, hstop⟩ := connected h.parent he hp
  refine ⟨h.table.of_same hpid fun _ _ => .refl _, h.parent.step hp, ?_, h.awake,
    fun hq hs => absurd (hs.symm.trans (hpolling hq)) Bool.false_ne_true, fun _ => h.zombies hgone,
    fun _ => h.asked hgone, fun hl => absurd hl hphase, h.children, h.told⟩
  show p.stop = true ↔ ∀ i < n, p.pid i = -1
  rw [hpid]
  rcases hstop with hsame | ⟨htrue, hnone⟩
  · rw [hsame]
    exact h.stop_iff
  · exact iff_of_true htrue hnone

theorem poll (h : s.Inv n) {p : Parent} (hp : Parent.Step n s.parent .poll p) :
    Inv n { s with parent := p, sig := s.sig.report } := by
  have h1 := h.connection (.inl rfl) hp
  have hphase : p.phase = .handling := by
    cases hp
    rfl
  exact ⟨h1.table.of_same rfl fun _ _ => .refl _, h1.parent, h1.stop_iff, SelfPipe.awake_report _,
    fun hq => absurd (hphase.symm.trans hq) (by decide), h1.zombies, h1.asked, h1.left,
    h1.children, h1.told⟩

theorem recv (h : s.Inv n) (hphase : s.parent.phase = .handling) (ht : s.todo = []) :
    Inv n { s with sig := s.sig.read SIGNALS, todo := s.sig.taken SIGNALS } := by
  have hdue {y : Signal} (hy : s.Due y) :
      (s.sig.read SIGNALS).Held y ∨ y ∈ s.sig.taken SIGNALS := by
    refine (hy.resolve_right fun hmem => ?_).read SIGNALS
    rw [ht] at hmem
    exact List.not_mem_nil hmem
  refine ⟨h.table.of_same rfl fun _ _ => .refl _, h.parent, h.stop_iff, SelfPipe.awake_read _ _,
    fun hq => absurd (hphase.symm.trans hq) (by decide), fun hg hl i hi he hr => ?_,
    fun hg hl ha => ?_, h.left, h.children, h.told⟩
  · exact hdue (h.zombies hg (SelfPipe.lost_of_read hl) i hi he hr)
  · exact (h.asked hg (SelfPipe.lost_of_read hl) ha).imp_right hdue

theorem handled (h : s.Inv n) (ht : s.todo = []) (hr : s.sig.reported = false) {p : Parent}
    (hp : Parent.Step n s.parent .handled p) : Inv n { s with parent := p } := by
  have hgone := not_gone_of_step hp
  have hparent := h.parent.step hp
  cases hp
  exact ⟨h.table.of_same rfl fun _ _ => .refl _, hparent, h.stop_iff, h.awake, fun _ _ => ⟨ht, hr⟩,
    fun _ => h.zombies hgone, fun _ => h.asked hgone, nofun, h.children, h.told⟩

/-- With its `SIGCHLD` handled, the parent has waited for all that have exited. -/
theorem chld (h : s.Inv n) {p : Parent} {pids : List ℤ} {todo : List Signal}
    (ht : s.todo = .chld :: todo) (hw : s.Waits n pids)
    (hp : Parent.Step n s.parent (.sigchld pids) p) :
    Inv n { s with parent := p, todo := todo, proc := s.reap } := by
  have hgone := not_gone_of_step hp
  have hparent := h.parent.step hp
  cases hp with
  | sigchld hphase _ =>
    have hphase' : (s.parent.sigchld n pids).phase = .handling :=
      (Parent.sigchld_frame n s.parent pids).1.trans hphase
    refine ⟨h.table.reap hw, hparent, Parent.sigchld_stop n s.parent pids, h.awake,
      fun hq => absurd (hphase'.symm.trans hq) (by decide), fun _ _ i hi he hr => ?_,
      fun _ hl ha => ?_, fun hl => absurd (hphase'.symm.trans hl) (by decide), h.children, h.told⟩
    · have hreaped : ((s.proc i).reaped || (s.proc i).exited) = false := hr
      rw [Bool.or_eq_false_iff] at hreaped
      exact absurd (hreaped.2.symm.trans he) Bool.false_ne_true
    · refine (h.asked hgone hl ha).imp_right fun hdue => hdue.imp_right fun hmem => ?_
      rw [ht] at hmem
      exact (List.mem_cons.1 hmem).resolve_left Signal.noConfusion

/-- Every child in the table is sent `SIGTERM`. -/
theorem kill (h : s.Inv n) : (∀ i < n, (s.kill (s.parent.living n) i).sig.Awake) ∧
    ∀ i < n, Told (s.kill (s.parent.living n) i) := by
  refine ⟨fun i hi => ?_, fun i hi => ?_⟩
  · unfold Group.kill
    split_ifs
    · exact (h.children i hi).raise .term
    · exact h.children i hi
  · unfold Group.kill
    by_cases hpid : (s.proc i).pid ∈ s.parent.living n
    · rw [if_pos hpid]
      exact fun _ _ => .inl (SelfPipe.held_raise_self _ _)
    · rw [if_neg hpid]
      intro he
      have hreaped : (s.proc i).reaped = true := by
        by_contra hr
        exact hpid (h.table.mem_living.2 ⟨i, hi, Bool.not_eq_true _ ▸ hr, rfl⟩)
      exact absurd (h.table.reaped i hi hreaped) (he ▸ Bool.false_ne_true)

theorem term (h : s.Inv n) {p : Parent} {pids : List ℤ} {todo : List Signal}
    (ht : s.todo = .term :: todo) (hp : Parent.Step n s.parent (.sigterm pids) p) :
    Inv n { s with parent := p, todo := todo, proc := s.kill pids, killed := true } := by
  have hgone := not_gone_of_step hp
  cases hp with
  | sigterm hphase =>
    refine ⟨h.table.of_same rfl fun i _ => same_kill _ i, h.parent, h.stop_iff, h.awake,
      fun hq => absurd (hphase.symm.trans hq) (by decide), fun _ hl i hi he hr => ?_,
      fun _ _ _ => .inl rfl, fun _ => .inl rfl, h.kill.1, fun _ => h.kill.2⟩
    obtain ⟨sig, hsig⟩ := s.kill_sig (s.parent.living n) i
    refine (h.zombies hgone hl i hi ?_ ?_).imp_right fun hmem => ?_
    · exact (congrArg Proc.exited hsig).symm.trans he
    · exact (congrArg Proc.reaped hsig).symm.trans hr
    · rw [ht] at hmem
      exact (List.mem_cons.1 hmem).resolve_left Signal.noConfusion

theorem sigpipe (h : s.Inv n) {p : Parent} (hp : Parent.Step n s.parent (.listen (some i)) p) :
    Inv n { s with parent := { p with phase := .left }, broken := true } := by
  obtain ⟨hcounter, hopen⟩ := h.parent.step hp
  cases hp with
  | notify hphase hends hlive =>
    exact ⟨h.table.of_same rfl fun _ _ => .refl _, ⟨hcounter, hopen⟩, h.stop_iff, h.awake, nofun,
      fun hg => absurd (.inl rfl) hg, fun hg => absurd (.inl rfl) hg, fun _ => .inr rfl, h.children,
      h.told⟩

theorem failure (h : s.Inv n) {p : Parent} {pids : List ℤ}
    (hp : Parent.Step n s.parent (.failure pids) p) :
    Inv n { s with parent := p, proc := s.kill pids, killed := true } := by
  have hparent := h.parent.step hp
  cases hp with
  | failure hphase hstop =>
    exact ⟨h.table.of_same rfl fun i _ => same_kill _ i, hparent, h.stop_iff, h.awake, nofun,
      fun hg => absurd (.inl rfl) hg, fun hg => absurd (.inl rfl) hg, fun _ => .inl rfl, h.kill.1,
      fun _ => h.kill.2⟩

theorem outside (h : s.Inv n) (hs : s.Outside n s') : s'.Inv n := by
  cases hs with
  | ask => exact h.ask
  | @signal i hi x =>
    exact h.setProc rfl rfl rfl ((h.children i hi).raise x)
      fun htold he hl => (htold he hl).imp_left (·.raise x)
  | dies => exact h.exit _
  | connection he hp =>
    exact h.connection (he.imp_right (Or.imp_right fun ⟨child, hchild, _⟩ => ⟨child, hchild⟩)) hp
  | sigpipe _ hp => exact h.sigpipe hp
  | failure hp => exact h.failure hp

theorem proceed (h : s.Inv n) (hs : s.Proceed cap n s') : s'.Inv n := by
  cases hs with
  | deliver hg hx => exact h.deliver hg _
  | poll hq hp => exact h.poll hp
  | recv hphase ht hr => exact h.recv hphase ht
  | chld ht hw hp => exact h.chld ht hw hp
  | term ht hp => exact h.term ht hp
  | handled ht hr hp => exact h.handled ht hr hp
  | @setup i hi he hr => exact h.setProc rfl rfl rfl (h.children i hi) fun htold => htold
  | @ignored i hi he hr hx =>
    exact h.setProc rfl rfl rfl ((h.children i hi).discard .chld)
      fun htold he hl => (htold he hl).imp_left fun hheld => hheld.discard Signal.noConfusion
  | terminated | childExit => exact h.exit _
  | @childDeliver i x hi he hr hx =>
    refine h.setProc rfl rfl rfl (SelfPipe.awake_handle _ _ _) fun htold he hl => ?_
    refine (htold he (SelfPipe.lost_of_handle hl)).imp_left fun hheld => ?_
    exact (hheld.handle cap x).resolve_right (hl ▸ Bool.false_ne_true)
  | childReport =>
    exact h.setProc rfl rfl rfl (SelfPipe.awake_report _) fun htold => htold
  | @childRecv i hi he hr =>
    refine h.setProc rfl rfl rfl (SelfPipe.awake_read _ _) fun htold he hl => ?_
    rcases htold he (SelfPipe.lost_of_read hl) with hheld | hstop
    · refine (hheld.read SIGNALS).imp_right fun hmem => ?_
      exact Bool.or_eq_true_iff.2 (.inr (decide_eq_true hmem))
    · exact .inr (Bool.or_eq_true_iff.2 (.inl hstop))

theorem step (h : s.Inv n) (hs : Step cap n s o s') : s'.Inv n := by
  cases o with
  | outside => exact h.outside hs
  | pool => exact h.proceed hs

end Inv

theorem inv_run {s₀ : Group} (h0 : s₀.Started n) (hr : Run (Step cap n) s₀ os s) : s.Inv n :=
  hr.invariant (fun _ _ _ => Inv.step) h0.inv

/-- At any time, those that the parent would send `SIGTERM` to are the children that it has not
waited for. -/
theorem living_iff {s₀ : Group} (h0 : s₀.Started n) (hr : Run (Step cap n) s₀ os s) (pid : ℤ) :
    pid ∈ s.parent.living n ↔ ∃ i < n, (s.proc i).reaped = false ∧ (s.proc i).pid = pid :=
  (inv_run h0 hr).table.mem_living

/-- Two children that have not come to `setup_sig_pipe`. -/
def pair : Group :=
  ⟨.two, .empty, [], fun i => ⟨i + 10, false, false, false, .empty, false⟩, false, false, false⟩

theorem pair_started : pair.Started 2 where
  pos := Nat.two_pos
  parent := Parent.two_started
  pid_eq := fun _ _ => rfl
  pid_inj := fun i _ j _ heq => by
    have : (i : ℤ) + 10 = j + 10 := heq
    omega
  sig := rfl
  todo := rfl
  proc := fun _ _ => ⟨rfl, rfl, rfl, rfl⟩
  asked := rfl
  killed := rfl
  broken := rfl

/-- The second child exits and is waited for. -/
theorem reapedPair_run : ∃ s, Run (Step 277 2) pair [.outside, .pool, .pool, .pool, .pool] s ∧
    (s.proc 1).reaped = true := by
  have hwaits (sig : SelfPipe Signal) (p : Parent) (todo : List Signal) :
      Waits 2 { pair.exit 1 with parent := p, sig := sig, todo := todo } [11] := by
    refine ⟨fun pid => ⟨fun h => ⟨1, by decide, (List.mem_singleton.1 h).symm, rfl, rfl⟩, ?_⟩⟩
    rintro ⟨i, hi, rfl, he, -⟩
    obtain rfl | rfl : i = 0 ∨ i = 1 := by omega
    · exact Bool.noConfusion he
    · exact List.mem_singleton.2 rfl
  have hexit : Outside 2 pair (pair.exit 1) := .dies (by decide) rfl
  have hgone : ¬ (pair.exit 1).parent.Gone := by
    rintro (h | ⟨-, h⟩) <;> cases h
  exact ⟨_, .cons hexit (.cons (Proceed.deliver hgone (Finset.mem_insert_self Signal.chld ∅))
    (.cons (Proceed.poll rfl (.poll rfl rfl)) (.cons (Proceed.recv rfl rfl rfl)
      (.single (Proceed.chld rfl (hwaits _ _ _) (.sigchld rfl (by decide))))))), rfl⟩

theorem living_iff_reapedPair : ∃ s : Group, (s.proc 1).reaped = true ∧
    (11 ∈ s.parent.living 2 ↔ ∃ i < 2, (s.proc i).reaped = false ∧ (s.proc i).pid = 11) := by
  obtain ⟨s, hr, hreaped⟩ := reapedPair_run
  exact ⟨s, hreaped, living_iff pair_started hr 11⟩

/-! ## 4. Rest -/

end Group

/-- What a child that is there has before it. -/
def Proc.weight (c : Proc) : ℕ := if c.exited then 0 else 1 + (!c.ready).toNat + c.sig.weight

namespace Group

variable {cap n : ℕ} {s s' : Group} {i j : ℕ} {o : Origin} {os : List Origin}

/-- The times that the parent may still kill its children. -/
def kills (s : Group) : ℕ := s.sig.owing .term + s.todo.count .term

def children (n : ℕ) (s : Group) : ℕ := ∑ i ∈ Finset.range n, (s.proc i).weight

/-- What the parent has before it. -/
def work (s : Group) : ℕ :=
  s.sig.weight + s.todo.length + if s.parent.phase = .handling then 1 else 0

def measure (n : ℕ) (s : Group) : ℕ ×ₗ ℕ ×ₗ ℕ := toLex (s.kills, toLex (s.children n, s.work))

theorem exists_waits (n : ℕ) (s : Group) : ∃ pids, s.Waits n pids := by
  refine ⟨((List.range n).filter fun i => (s.proc i).exited && !(s.proc i).reaped).map
    fun i => (s.proc i).pid, ⟨fun pid => ?_⟩⟩
  simp only [List.mem_map, List.mem_filter, List.mem_range, Bool.and_eq_true, Bool.not_eq_true']
  constructor
  · rintro ⟨i, ⟨hi, he, hr⟩, hpid⟩
    exact ⟨i, hi, hpid, he, hr⟩
  · rintro ⟨i, hi, hpid, he, hr⟩
    exact ⟨i, ⟨hi, he, hr⟩, hpid⟩

/-- The parent waits in `epoll_wait`, with nothing to do. -/
structure Idle (s : Group) : Prop where
  stop : s.parent.stop = false
  todo : s.todo = []
  pending : s.sig.pending = ∅
  queued : s.sig.queued = false
  reported : s.sig.reported = false

theorem Inv.idle (h : s.Inv n) (hstuck : Stuck (Proceed cap n) s) (hg : ¬ s.parent.Gone) :
    s.Idle := by
  have hpolling : s.parent.phase = .polling := by
    cases hphase : s.parent.phase with
    | polling => rfl
    | left => exact absurd (.inl hphase) hg
    | handling =>
      exfalso
      cases ht : s.todo with
      | nil => cases hr : s.sig.reported with
        | true => exact hstuck _ (.recv hphase ht hr)
        | false => exact hstuck _ (.handled ht hr (.handled hphase))
      | cons x todo => cases x with
        | chld =>
          obtain ⟨pids, hw⟩ := exists_waits n s
          refine hstuck _ (.chld ht hw (.sigchld hphase fun pid hpid => ?_))
          obtain ⟨i, hi, rfl, -⟩ := (hw.mem_iff pid).1 hpid
          exact h.table.pid_pos i hi
        | term => exact hstuck _ (.term ht (.sigterm hphase))
  have hstop : s.parent.stop = false := by
    by_contra hne
    exact hg (.inr ⟨hpolling, Bool.not_eq_false _ ▸ hne⟩)
  obtain ⟨ht, hr⟩ := h.waiting hpolling hstop
  refine ⟨hstop, ht, ?_, ?_, hr⟩
  · exact Finset.eq_empty_of_forall_notMem fun x hx => hstuck _ (.deliver hg hx)
  · by_contra hne
    exact hstuck _ (.poll (Bool.not_eq_false _ ▸ hne) (.poll hpolling hstop))

end Group

end SocketTest.ProcessPool
