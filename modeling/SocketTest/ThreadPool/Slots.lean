import SocketTest.ThreadPool.Server

/-!
# Whose a slot is

With `EPOLLONESHOT` a connection is in one hand at a time: armed in `epoll`, an event that the main
loop has in hand, with the main thread, in the queue, or with a worker. A worker that has closed the
connection is still in `process` of the slot.

1. What the server knows of one slot, and how the steps change it.
2. The situations of a slot, and what each hand says about the others.
3. Every step keeps them, as long as no connection is given a slot that a worker is in.
-/

namespace SocketTest.ThreadPool

open SocketTest.Lib

/-- In `close_conn` of `i` before the descriptor is closed. -/
def Closing.Holds (i : ℕ) : Closing → Prop
  | .del fd | .close fd => fd = i
  | .clear | .count => False

/-- The main thread has the connection, and its descriptor is not armed. -/
def MainPc.Works : MainPc → Prop
  | .reading | .appending | .writing | .rearming _ _ => True
  | _ => False

def ProcessPc.Serves (i : ℕ) : ProcessPc → Prop
  | .closing p => p.Holds i
  | _ => True

/-- Where a worker is that has closed the connection. -/
def ProcessPc.Stale (sockfd : Option ℕ) : ProcessPc → Prop
  | .closing .clear => True
  | .closing .count | .rearming .output => sockfd = none
  | _ => False

theorem ProcessPc.Stale.cleared {sockfd : Option ℕ} {pc : ProcessPc} (h : pc.Stale sockfd) :
    pc.Stale none := by
  cases pc with
  | closing p =>
    cases p with
    | clear | count => trivial
    | del | close => cases h
  | rearming ev =>
    cases ev with
    | output => trivial
    | input => cases h
  | reading | responding => cases h

namespace Server

variable {W : Type*}

/-! ## One slot -/

/-- What concerns one slot; `ready` counts its events in hand, `queued` its places in the queue. -/
structure View (W : Type*) where
  sockfd : Option ℕ
  opened : Bool
  epoll : Option (Option Interest)
  gen : ℕ
  ready : ℕ
  queued : ℕ
  main : Option MainPc
  worker : W → Option (ℕ × ProcessPc)

def Worker.at_ (i : ℕ) : Worker → Option (ℕ × ProcessPc)
  | .idle => none
  | .busy j g pc => if j = i then some (g, pc) else none

def mainAt (i : ℕ) : Option (ℕ × MainPc) → Option MainPc
  | none => none
  | some (j, pc) => if j = i then some pc else none

def view (s : Server W) (i : ℕ) : View W where
  sockfd := s.sockfd i
  opened := i ∈ s.opened
  epoll := s.epoll i
  gen := s.gen i
  ready := (s.evs.filterMap Ready.fd).count i
  queued := s.workqueue.count (some i)
  main := mainAt i s.main
  worker := fun w => (s.worker w).at_ i

variable {s : Server W}

theorem mainAt_self (i : ℕ) (pc : MainPc) : mainAt i (some (i, pc)) = some pc := if_pos rfl

theorem mainAt_of_ne {i j : ℕ} (h : i ≠ j) (pc : MainPc) : mainAt i (some (j, pc)) = none :=
  if_neg h.symm

theorem at_self (i g : ℕ) (pc : ProcessPc) : (Worker.busy i g pc).at_ i = some (g, pc) := if_pos rfl

theorem at_of_ne {i j : ℕ} (h : i ≠ j) (g : ℕ) (pc : ProcessPc) : (Worker.busy j g pc).at_ i = none :=
  if_neg h.symm

theorem at_some {i g : ℕ} {pc : ProcessPc} {x : Worker} (h : x.at_ i = some (g, pc)) :
    x = .busy i g pc := by
  cases x with
  | idle => cases h
  | busy j g' pc' =>
    by_cases hj : i = j
    · rw [hj, at_self] at h
      cases h
      rw [hj]
    · rw [at_of_ne hj] at h
      cases h

theorem view_main {j : ℕ} {pc : MainPc} (hm : s.main = some (j, pc)) : (s.view j).main = some pc := by
  show mainAt j s.main = some pc
  rw [hm, mainAt_self]

theorem view_main_none (hm : s.main = none) (i : ℕ) : (s.view i).main = none := by
  show mainAt i s.main = none
  rw [hm]
  rfl

theorem view_worker {w : W} {j g : ℕ} {pc : ProcessPc} (hw : s.worker w = .busy j g pc) :
    (s.view j).worker w = some (g, pc) := by
  show (s.worker w).at_ j = some (g, pc)
  rw [hw, at_self]

/-! ## Situations -/

/-- All workers in the slot have closed its connection. -/
def Stale (sockfd : Option ℕ) (worker : W → Option (ℕ × ProcessPc)) : Prop :=
  ∀ w g pc, worker w = some (g, pc) → pc.Stale sockfd

variable [DecidableEq W]

/-- One worker is in the slot. -/
def only (w : W) (g : ℕ) (pc : ProcessPc) : W → Option (ℕ × ProcessPc) :=
  Function.update (fun _ => none) w (some (g, pc))

/-- What a slot can look like. In the situations from `armed` on it has a connection; `lost` are the
connections that nobody has. -/
inductive Situation (lossy : Prop) (i : ℕ) : View W → Prop
  | free {sockfd : Option ℕ} {gen : ℕ} {main : Option MainPc} {worker : W → Option (ℕ × ProcessPc)} :
      Stale sockfd worker →
      main = none ∨ main = some (.closing .clear) ∨ main = some (.closing .count) →
      Situation lossy i ⟨sockfd, false, none, gen, 0, 0, main, worker⟩
  | accepting {sockfd : Option ℕ} {gen : ℕ} {pc : MainPc} {worker : W → Option (ℕ × ProcessPc)} :
      Stale sockfd worker → pc = .accepted ∨ pc = .refusing ∨ pc = .assigning →
      Situation lossy i ⟨sockfd, true, none, gen, 0, 0, some pc, worker⟩
  | adding {gen : ℕ} :
      Situation lossy i ⟨some i, true, none, gen, 0, 0, some .adding, fun _ => none⟩
  | armed {k : Interest} {gen : ℕ} {main : Option MainPc} :
      main = none ∨ main = some .counting ∨ main = some .resetting →
      Situation lossy i ⟨some i, true, some (some k), gen, 0, 0, main, fun _ => none⟩
  | ready {gen : ℕ} : Situation lossy i ⟨some i, true, some none, gen, 1, 0, none, fun _ => none⟩
  | queued {gen : ℕ} : Situation lossy i ⟨some i, true, some none, gen, 0, 1, none, fun _ => none⟩
  | working {gen : ℕ} {pc : MainPc} : pc.Works →
      Situation lossy i ⟨some i, true, some none, gen, 0, 0, some pc, fun _ => none⟩
  | closing {epoll : Option (Option Interest)} {gen : ℕ} {p : Closing} : p.Holds i →
      Situation lossy i ⟨some i, true, epoll, gen, 0, 0, some (.closing p), fun _ => none⟩
  | processed {epoll : Option (Option Interest)} {gen : ℕ} {w : W} {pc : ProcessPc} :
      pc.Serves i → epoll = some none ∨ epoll = none ∧ pc = .closing (.close i) →
      Situation lossy i ⟨some i, true, epoll, gen, 0, 0, none, only w gen pc⟩
  | lost {gen : ℕ} : lossy →
      Situation lossy i ⟨some i, true, some none, gen, 0, 0, none, fun _ => none⟩

/-- Every slot is in one of the situations. -/
def Ordered (lossy : Prop) (s : Server W) : Prop := ∀ i, Situation lossy i (s.view i)

/-! ### Workers of a slot -/

theorem only_self (w : W) (g : ℕ) (pc : ProcessPc) : only w g pc w = some (g, pc) :=
  Function.update_self _ _ _

theorem only_some {w w' : W} {g g' : ℕ} {pc pc' : ProcessPc}
    (h : only w g pc w' = some (g', pc')) : w' = w ∧ g' = g ∧ pc' = pc := by
  by_cases hw : w' = w
  · rw [hw, only_self] at h
    cases h
    exact ⟨hw, rfl, rfl⟩
  · rw [only, Function.update_of_ne hw] at h
    cases h

theorem update_only (w : W) (g g' : ℕ) (pc pc' : ProcessPc) :
    Function.update (only w g pc) w (some (g', pc')) = only w g' pc' := Function.update_idem _ _ _

theorem update_only_none (w : W) (g : ℕ) (pc : ProcessPc) :
    Function.update (only w g pc) w none = fun _ => none := by
  rw [only, Function.update_idem]
  exact Function.update_eq_self w _

theorem Stale.update {sockfd : Option ℕ} {worker : W → Option (ℕ × ProcessPc)}
    (h : Stale sockfd worker) (w : W) {x : Option (ℕ × ProcessPc)}
    (hx : ∀ g pc, x = some (g, pc) → pc.Stale sockfd) :
    Stale sockfd (Function.update worker w x) := by
  intro w' g pc hw'
  by_cases hw : w' = w
  · rw [hw, Function.update_self] at hw'
    exact hx g pc hw'
  · rw [Function.update_of_ne hw] at hw'
    exact h w' g pc hw'

omit [DecidableEq W] in
theorem Stale.cleared {sockfd : Option ℕ} {worker : W → Option (ℕ × ProcessPc)}
    (h : Stale sockfd worker) : Stale none worker := fun w g pc hw => (h w g pc hw).cleared

theorem stale_only {sockfd : Option ℕ} {w : W} {g : ℕ} : Stale sockfd (only w g (.closing .clear)) := by
  intro w' g' pc hw'
  obtain ⟨-, -, rfl⟩ := only_some hw'
  trivial

/-! ### The situation from what is known of the slot -/

variable {lossy : Prop} {i : ℕ} {v : View W}

/-- An event in hand. -/
theorem Situation.of_ready (h : Situation lossy i v) (hr : v.ready ≠ 0) :
    v = ⟨some i, true, some none, v.gen, 1, 0, none, fun _ => none⟩ := by
  cases h with
  | ready => rfl
  | free | accepting | adding | armed | queued | working | closing | processed | lost =>
    exact absurd rfl hr

theorem Situation.of_queued (h : Situation lossy i v) (hq : v.queued ≠ 0) :
    v = ⟨some i, true, some none, v.gen, 0, 1, none, fun _ => none⟩ := by
  cases h with
  | queued => rfl
  | free | accepting | adding | armed | ready | working | closing | processed | lost =>
    exact absurd rfl hq

theorem Situation.of_armed (h : Situation lossy i v) {k : Interest} (he : v.epoll = some (some k))
    (hm : v.main = none) : v = ⟨some i, true, some (some k), v.gen, 0, 0, none, fun _ => none⟩ := by
  cases h with
  | armed _ =>
    cases he
    cases hm
    rfl
  | processed _ hepoll =>
    rcases hepoll with rfl | ⟨rfl, -⟩ <;> cases he
  | free | accepting | adding | ready | queued | working | lost => cases he
  | closing _ => cases hm

/-- The slot that the main thread is at. -/
def Sees (i : ℕ) (v : View W) : MainPc → Prop
  | .accepted | .refusing | .assigning =>
    v = ⟨v.sockfd, true, none, v.gen, 0, 0, v.main, v.worker⟩ ∧ Stale v.sockfd v.worker
  | .adding => v = ⟨some i, true, none, v.gen, 0, 0, v.main, fun _ => none⟩
  | .counting | .resetting =>
    ∃ k, v = ⟨some i, true, some (some k), v.gen, 0, 0, v.main, fun _ => none⟩
  | .reading | .appending | .writing | .rearming _ _ =>
    v = ⟨some i, true, some none, v.gen, 0, 0, v.main, fun _ => none⟩
  -- before or after the descriptor is closed
  | .closing p => p.Holds i ∧ v = ⟨some i, true, v.epoll, v.gen, 0, 0, v.main, fun _ => none⟩ ∨
      (p = .clear ∨ p = .count) ∧ Stale v.sockfd v.worker ∧
        v = ⟨v.sockfd, false, none, v.gen, 0, 0, v.main, v.worker⟩

theorem Situation.of_main (h : Situation lossy i v) {pc : MainPc} (hm : v.main = some pc) :
    Sees i v pc := by
  cases h with
  | free hstale hmain =>
    dsimp only at hm
    rcases hmain with rfl | rfl | rfl <;> cases hm
    · exact .inr ⟨.inl rfl, hstale, rfl⟩
    · exact .inr ⟨.inr rfl, hstale, rfl⟩
  | accepting hstale hmain =>
    cases hm
    rcases hmain with rfl | rfl | rfl <;> exact ⟨rfl, hstale⟩
  | adding =>
    cases hm
    exact rfl
  | armed hmain =>
    dsimp only at hm
    rcases hmain with rfl | rfl | rfl <;> cases hm
    · exact ⟨_, rfl⟩
    · exact ⟨_, rfl⟩
  | working hworks =>
    cases hm
    cases pc with
    | reading | appending | writing | rearming => exact rfl
    | accepted | refusing | assigning | adding | counting | resetting | closing => cases hworks
  | closing hholds =>
    cases hm
    exact .inl ⟨hholds, rfl⟩
  | ready | queued | processed _ _ | lost _ => cases hm

theorem Situation.of_working (h : Situation lossy i v) {pc : MainPc} (hm : v.main = some pc)
    (hpc : pc.Works) : v = ⟨some i, true, some none, v.gen, 0, 0, v.main, fun _ => none⟩ := by
  have hsees := h.of_main hm
  cases pc with
  | reading | appending | writing | rearming => exact hsees
  | accepted | refusing | assigning | adding | counting | resetting | closing => cases hpc

theorem Situation.of_accepting (h : Situation lossy i v) {pc : MainPc} (hm : v.main = some pc)
    (hpc : pc = .accepted ∨ pc = .refusing ∨ pc = .assigning) :
    v = ⟨v.sockfd, true, none, v.gen, 0, 0, v.main, v.worker⟩ ∧ Stale v.sockfd v.worker := by
  rcases hpc with rfl | rfl | rfl <;> exact h.of_main hm

theorem Situation.of_adding (h : Situation lossy i v) (hm : v.main = some .adding) :
    v = ⟨some i, true, none, v.gen, 0, 0, v.main, fun _ => none⟩ := h.of_main hm

theorem Situation.of_waiting (h : Situation lossy i v) {pc : MainPc} (hm : v.main = some pc)
    (hpc : pc = .counting ∨ pc = .resetting) : ∃ k,
    v = ⟨some i, true, some (some k), v.gen, 0, 0, v.main, fun _ => none⟩ := by
  rcases hpc with rfl | rfl <;> exact h.of_main hm

theorem Situation.of_closing (h : Situation lossy i v) {p : Closing}
    (hm : v.main = some (.closing p)) :
    p.Holds i ∧ v = ⟨some i, true, v.epoll, v.gen, 0, 0, v.main, fun _ => none⟩ ∨
      (p = .clear ∨ p = .count) ∧ Stale v.sockfd v.worker ∧
        v = ⟨v.sockfd, false, none, v.gen, 0, 0, v.main, v.worker⟩ := h.of_main hm

/-- A worker in the slot has the connection, or has closed it. -/
theorem Situation.of_worker (h : Situation lossy i v) {w : W} {g : ℕ} {pc : ProcessPc}
    (hw : v.worker w = some (g, pc)) :
    pc.Serves i ∧ (v.epoll = some none ∨ v.epoll = none ∧ pc = .closing (.close i)) ∧
        v = ⟨some i, true, v.epoll, g, 0, 0, none, only w g pc⟩ ∨
      Stale v.sockfd v.worker ∧ v.epoll = none ∧
        ∀ (sockfd : Option ℕ) (worker : W → Option (ℕ × ProcessPc)), Stale sockfd worker →
          Situation lossy i { v with sockfd := sockfd, worker := worker } := by
  cases h with
  | free hstale hmain => exact .inr ⟨hstale, rfl, fun _ _ h => .free h hmain⟩
  | accepting hstale hmain => exact .inr ⟨hstale, rfl, fun _ _ h => .accepting h hmain⟩
  | processed hserves hepoll =>
    obtain ⟨rfl, rfl, rfl⟩ := only_some hw
    exact .inl ⟨hserves, hepoll, rfl⟩
  | adding | armed | ready | queued | working | closing | lost => cases hw

theorem Situation.of_closed (h : Situation lossy i v) (ho : v.opened = false) (hm : v.main = none) :
    Stale v.sockfd v.worker ∧ v = ⟨v.sockfd, false, none, v.gen, 0, 0, none, v.worker⟩ := by
  cases h with
  | free hstale _ =>
    cases hm
    exact ⟨hstale, rfl⟩
  | accepting | adding | armed | ready | queued | working | closing | processed | lost => cases ho

/-! ## Steps -/

variable {s' : Server W}

/-- A step that concerns slot `j`. -/
structure SameElsewhere (s s' : Server W) (j : ℕ) : Prop where
  sockfd : ∀ i ≠ j, s'.sockfd i = s.sockfd i := by intros; rfl
  opened : ∀ i ≠ j, i ∈ s'.opened ↔ i ∈ s.opened := by intros; rfl
  epoll : ∀ i ≠ j, s'.epoll i = s.epoll i := by intros; rfl
  gen : ∀ i ≠ j, s'.gen i = s.gen i := by intros; rfl
  ready : ∀ i ≠ j, (s'.evs.filterMap Ready.fd).count i = (s.evs.filterMap Ready.fd).count i := by
    intros; rfl
  queued : ∀ i ≠ j, s'.workqueue.count (some i) = s.workqueue.count (some i) := by intros; rfl
  main : ∀ i ≠ j, mainAt i s'.main = mainAt i s.main := by intros; rfl
  worker : ∀ i ≠ j, ∀ w, (s'.worker w).at_ i = (s.worker w).at_ i := by intros; rfl

omit [DecidableEq W] in
theorem SameElsewhere.refl (s : Server W) (j : ℕ) : SameElsewhere s s j := {}

theorem Ordered.of_slot (h : Ordered lossy s) {j : ℕ} (hsame : SameElsewhere s s' j)
    (hj : Situation lossy j (s'.view j)) : Ordered lossy s' := by
  intro i
  by_cases hi : i = j
  · rwa [hi]
  · have hview : s'.view i = s.view i := by
      simp only [view, hsame.sockfd i hi, hsame.opened i hi, hsame.epoll i hi, hsame.gen i hi,
        hsame.ready i hi, hsame.queued i hi, hsame.main i hi, hsame.worker i hi]
    rw [hview]
    exact h i

omit [DecidableEq W] in
theorem close_view (s : Server W) (i : ℕ) :
    (s.close i).view i = { s.view i with opened := false, epoll := none } := by
  have hopened : decide (i ∈ s.opened.erase i) = false := decide_eq_false (Finset.notMem_erase i _)
  show { s.view i with
    opened := decide (i ∈ s.opened.erase i)
    epoll := Function.update s.epoll i none i } = _
  rw [hopened, Function.update_self]

/-- The workers of a slot when one moves. -/
theorem at_update (s : Server W) (i : ℕ) (w : W) (x : Worker) :
    (fun w' => (Function.update s.worker w x w').at_ i) =
      Function.update (s.view i).worker w (x.at_ i) := Function.comp_update (Worker.at_ i) s.worker w x

/-- The main thread moves from one slot's point to another, or leaves the slot. -/
theorem main_elsewhere {j : ℕ} {m m' : Option (ℕ × MainPc)} (h : ∀ i ≠ j, mainAt i m = none)
    (h' : ∀ i ≠ j, mainAt i m' = none) : ∀ i ≠ j, mainAt i m' = mainAt i m :=
  fun i hi => (h' i hi).trans (h i hi).symm

theorem none_elsewhere (j : ℕ) : ∀ i ≠ j, mainAt i none = none := fun _ _ => rfl

theorem some_elsewhere (j : ℕ) (pc : MainPc) : ∀ i ≠ j, mainAt i (some (j, pc)) = none :=
  fun _ hi => mainAt_of_ne hi pc

/-- A step of the main thread between two points of a slot. -/
theorem Ordered.mainMoves (h : Ordered lossy s) {j : ℕ} {pc : MainPc} {m : Option (ℕ × MainPc)}
    (hm : s.main = some (j, pc)) (hm' : ∀ i ≠ j, mainAt i m = none)
    (hj : Situation lossy j { s.view j with main := mainAt j m }) : Ordered lossy { s with main := m } :=
  h.of_slot { SameElsewhere.refl s j with
    main := main_elsewhere (by rw [hm]; exact some_elsewhere j pc) hm' } hj

/-! ### The main loop -/

theorem Ordered.poll (h : Ordered lossy s) {evs : List Ready} (hm : s.main = none)
    (hevs : s.evs = []) (hnodup : (evs.filterMap Ready.fd).Nodup)
    (harmed : ∀ fd branch, .conn fd branch ∈ evs →
      ∃ k, s.epoll fd = some (some k) ∧ k.Allows branch) :
    Ordered lossy { s with
      evs := evs
      epoll := fun fd => if fd ∈ evs.filterMap Ready.fd then some none else s.epoll fd } := by
  intro i
  show Situation lossy i { s.view i with
    ready := (evs.filterMap Ready.fd).count i
    epoll := if i ∈ evs.filterMap Ready.fd then some none else s.epoll i }
  by_cases hi : i ∈ evs.filterMap Ready.fd
  · obtain ⟨e, he, hfd⟩ := List.mem_filterMap.1 hi
    cases e with
    | listen => cases hfd
    | conn fd branch =>
      cases hfd
      obtain ⟨k, hk, -⟩ := harmed i branch he
      have hcount : (evs.filterMap Ready.fd).count i = 1 := List.count_eq_one_of_mem hnodup hi
      rw [if_pos hi, hcount, (h i).of_armed hk (view_main_none hm i)]
      exact .ready
  · have hready : (s.view i).ready = 0 := by
      show (s.evs.filterMap Ready.fd).count i = 0
      rw [hevs]
      rfl
    rw [if_neg hi, List.count_eq_zero.2 hi, ← hready]
    exact h i

theorem Ordered.accept (h : Ordered lossy s) {evs : List Ready} {fd : ℕ} (hm : s.main = none)
    (hevs : s.evs = .listen :: evs) (hfd : fd ∉ s.opened) :
    Ordered lossy { s with
      evs := evs
      opened := insert fd s.opened
      gen := Function.update s.gen fd (s.gen fd + 1)
      main := some (fd, .accepted) } := by
  refine h.of_slot
    { SameElsewhere.refl s fd with
      opened := fun i hi => by rw [Finset.mem_insert]; exact or_iff_right hi
      gen := fun i hi => Function.update_of_ne hi _ _
      ready := fun i hi => by rw [hevs]; rfl
      main := main_elsewhere (by rw [hm]; exact none_elsewhere fd) (some_elsewhere fd _) } ?_
  obtain ⟨hstale, heq⟩ := (h fd).of_closed (decide_eq_false hfd) (view_main_none hm fd)
  have hready : (evs.filterMap Ready.fd).count fd = (s.view fd).ready := by
    show _ = (s.evs.filterMap Ready.fd).count fd
    rw [hevs]
    rfl
  have hopen : decide (fd ∈ insert fd s.opened) = true := decide_eq_true (Finset.mem_insert_self _ _)
  show Situation lossy fd { s.view fd with
    opened := decide (fd ∈ insert fd s.opened)
    gen := Function.update s.gen fd (s.gen fd + 1) fd
    ready := (evs.filterMap Ready.fd).count fd
    main := mainAt fd (some (fd, .accepted)) }
  rw [hready, hopen, mainAt_self, heq]
  exact .accepting hstale (.inl rfl)

theorem Ordered.acceptFails (h : Ordered lossy s) {evs : List Ready} (hevs : s.evs = .listen :: evs) :
    Ordered lossy { s with evs := evs } := by
  intro i
  have hready : (evs.filterMap Ready.fd).count i = (s.view i).ready := by
    show _ = (s.evs.filterMap Ready.fd).count i
    rw [hevs]
    rfl
  show Situation lossy i { s.view i with ready := (evs.filterMap Ready.fd).count i }
  rw [hready]
  exact h i

theorem Ordered.checkCount (h : Ordered lossy s) {fd : ℕ} (hm : s.main = some (fd, .accepted))
    {pc : MainPc} (hpc : pc = .refusing ∨ pc = .assigning) :
    Ordered lossy { s with main := some (fd, pc) } := by
  obtain ⟨heq, hstale⟩ := (h fd).of_accepting (view_main hm) (.inl rfl)
  apply h.mainMoves hm (some_elsewhere fd _)
  rw [mainAt_self, heq]
  exact .accepting hstale (.inr hpc)

theorem Ordered.refuse (h : Ordered lossy s) {fd : ℕ} (hm : s.main = some (fd, .refusing)) :
    Ordered lossy { s.close fd with main := none } := by
  refine h.of_slot
    { SameElsewhere.refl s fd with
      opened := fun i hi => Finset.mem_erase.trans (and_iff_right hi)
      epoll := fun i hi => Function.update_of_ne hi _ _
      main := main_elsewhere (by rw [hm]; exact some_elsewhere fd _) (none_elsewhere fd) } ?_
  obtain ⟨heq, hstale⟩ := (h fd).of_accepting (view_main hm) (.inr (.inl rfl))
  show Situation lossy fd { (s.close fd).view fd with main := none }
  rw [close_view, heq]
  exact .free hstale (.inl rfl)

/-- `init` assigns `m_sockfd`: no worker may be in the slot any more. -/
theorem Ordered.assign (h : Ordered lossy s) {fd : ℕ} (hm : s.main = some (fd, .assigning))
    (hnone : ∀ w g pc, s.worker w ≠ .busy fd g pc) :
    Ordered lossy { s with
      sockfd := Function.update s.sockfd fd (some fd)
      main := some (fd, .adding) } := by
  refine h.of_slot
    { SameElsewhere.refl s fd with
      sockfd := fun i hi => Function.update_of_ne hi _ _
      main := main_elsewhere (by rw [hm]; exact some_elsewhere fd _) (some_elsewhere fd _) } ?_
  obtain ⟨heq, -⟩ := (h fd).of_accepting (view_main hm) (.inr (.inr rfl))
  have hworker : (s.view fd).worker = fun _ => none := by
    funext w
    refine Option.eq_none_iff_forall_ne_some.2 fun x hx => ?_
    exact hnone w x.1 x.2 (at_some hx)
  show Situation lossy fd { s.view fd with
    sockfd := Function.update s.sockfd fd (some fd) fd
    main := mainAt fd (some (fd, .adding)) }
  rw [Function.update_self, mainAt_self, heq]
  dsimp only
  rw [hworker]
  exact .adding

theorem Ordered.add (h : Ordered lossy s) {fd : ℕ} (hm : s.main = some (fd, .adding)) :
    Ordered lossy { s.addfd fd with main := some (fd, .counting) } := by
  have heq := (h fd).of_adding (view_main hm)
  rw [addfd_eq (congrArg View.epoll heq)]
  refine h.of_slot
    { SameElsewhere.refl s fd with
      epoll := fun i hi => Function.update_of_ne hi _ _
      main := main_elsewhere (by rw [hm]; exact some_elsewhere fd _) (some_elsewhere fd _) } ?_
  show Situation lossy fd { s.view fd with
    epoll := Function.update s.epoll fd (some (some .input)) fd
    main := mainAt fd (some (fd, .counting)) }
  rw [Function.update_self, mainAt_self, heq]
  exact .armed (.inr (.inl rfl))

theorem Ordered.count (h : Ordered lossy s) {fd : ℕ} (hm : s.main = some (fd, .counting)) :
    Ordered lossy { s with userCount := s.userCount + 1, main := some (fd, .resetting) } := by
  obtain ⟨k, heq⟩ := (h fd).of_waiting (view_main hm) (.inl rfl)
  refine h.of_slot
    { SameElsewhere.refl s fd with
      main := main_elsewhere (by rw [hm]; exact some_elsewhere fd _) (some_elsewhere fd _) } ?_
  show Situation lossy fd { s.view fd with main := mainAt fd (some (fd, .resetting)) }
  rw [mainAt_self, heq]
  exact .armed (.inr (.inr rfl))

theorem Ordered.reset (h : Ordered lossy s) {i : ℕ} (hm : s.main = some (i, .resetting)) :
    Ordered lossy { s with main := none } := by
  obtain ⟨k, heq⟩ := (h i).of_waiting (view_main hm) (.inr rfl)
  apply h.mainMoves hm (none_elsewhere i)
  rw [heq]
  exact .armed (.inl rfl)

/-- The main thread comes to an event. -/
theorem Ordered.event (h : Ordered lossy s) {evs : List Ready} {fd : ℕ} {branch : Branch}
    (hm : s.main = none) (hevs : s.evs = .conn fd branch :: evs) {pc : MainPc}
    (hpc : pc.Works ∨ pc = .closing (.del fd)) :
    Ordered lossy { s with evs := evs, main := some (fd, pc) } := by
  refine h.of_slot
    { SameElsewhere.refl s fd with
      ready := fun i hi => by
        rw [hevs]
        exact (List.count_cons_of_ne (Ne.symm hi)).symm
      main := main_elsewhere (by rw [hm]; exact none_elsewhere fd) (some_elsewhere fd _) } ?_
  have hready : (s.view fd).ready = (evs.filterMap Ready.fd).count fd + 1 := by
    show (s.evs.filterMap Ready.fd).count fd = _
    rw [hevs]
    exact List.count_cons_self
  have heq := (h fd).of_ready (by rw [hready]; exact Nat.succ_ne_zero _)
  have hcount : (evs.filterMap Ready.fd).count fd = 0 :=
    Nat.succ_injective (hready.symm.trans (congrArg View.ready heq))
  show Situation lossy fd { s.view fd with
    ready := (evs.filterMap Ready.fd).count fd
    main := mainAt fd (some (fd, pc)) }
  rw [hcount, mainAt_self, heq]
  rcases hpc with hworks | rfl
  · exact .working hworks
  · exact .closing rfl

/-- The slot of an event has its own number in `m_sockfd`. -/
theorem Ordered.sockfd_of_event (h : Ordered lossy s) {evs : List Ready} {fd : ℕ} {branch : Branch}
    (hevs : s.evs = .conn fd branch :: evs) : s.sockfd fd = some fd := by
  have hready : (s.view fd).ready ≠ 0 := by
    show (s.evs.filterMap Ready.fd).count fd ≠ 0
    rw [hevs]
    exact ne_of_gt (List.count_pos_iff.2 List.mem_cons_self)
  exact congrArg View.sockfd ((h fd).of_ready hready)

theorem Ordered.sockfd_of_working (h : Ordered lossy s) {i : ℕ} {pc : MainPc}
    (hm : s.main = some (i, pc)) (hpc : pc.Works) : s.sockfd i = some i :=
  congrArg View.sockfd ((h i).of_working (view_main hm) hpc)

/-- The main thread enters `close_conn` of a slot it works on. -/
theorem Ordered.mainCloses (h : Ordered lossy s) {i : ℕ} {pc : MainPc} (hm : s.main = some (i, pc))
    (hpc : pc.Works) : Ordered lossy (s.mainCloses i) := by
  have heq := (h i).of_working (view_main hm) hpc
  rw [mainCloses_eq (h.sockfd_of_working hm hpc)]
  apply h.mainMoves hm (some_elsewhere i _)
  rw [mainAt_self, heq]
  exact .closing rfl

theorem Ordered.works (h : Ordered lossy s) {i : ℕ} {pc pc' : MainPc} (hm : s.main = some (i, pc))
    (hpc : pc.Works) (hpc' : pc'.Works) : Ordered lossy { s with main := some (i, pc') } := by
  apply h.mainMoves hm (some_elsewhere i _)
  rw [mainAt_self, (h i).of_working (view_main hm) hpc]
  exact .working hpc'

theorem Ordered.append (h : Ordered lossy s) {i : ℕ} {maxRequests : ℕ} {q : List (Option ℕ)}
    (hm : s.main = some (i, .appending)) (hq : lockedPush maxRequests s.workqueue (some i) = some q) :
    Ordered lossy { s with workqueue := q, main := none } := by
  rw [lockedPush_some hq]
  have heq := (h i).of_working (view_main hm) trivial
  refine h.of_slot
    { SameElsewhere.refl s i with
      queued := fun j hj => by
        rw [List.count_append, List.count_singleton, if_neg (by simpa using hj.symm), Nat.add_zero]
      main := main_elsewhere (by rw [hm]; exact some_elsewhere i _) (none_elsewhere i) } ?_
  have hcount : (s.workqueue ++ [some i]).count (some i) = (s.view i).queued + 1 := by
    rw [List.count_append, List.count_singleton_self]
    rfl
  show Situation lossy i { s.view i with
    queued := (s.workqueue ++ [some i]).count (some i)
    main := none }
  rw [hcount, heq]
  exact .queued

/-- `append` drops the connection when the queue is full. -/
theorem Ordered.appendFails (h : Ordered lossy s) {i : ℕ} (hm : s.main = some (i, .appending))
    (hlossy : lossy) : Ordered lossy { s with main := none } := by
  apply h.mainMoves hm (none_elsewhere i)
  rw [(h i).of_working (view_main hm) trivial]
  exact .lost hlossy

omit [DecidableEq W] in
/-- `modfd` of a slot that is registered. -/
theorem modfd_eq {i : ℕ} {ev : Interest} (hsockfd : s.sockfd i = some i) (hepoll : s.epoll i ≠ none) :
    s.modfd (s.sockfd i) ev = { s with epoll := Function.update s.epoll i (some (some ev)) } := by
  rw [hsockfd, modfd]
  exact if_neg hepoll

/-- `write` arms the descriptor; what it does behind that, no event can interrupt. -/
theorem Ordered.mainRearms (h : Ordered lossy s) {i : ℕ} {ev : Interest} {next : AfterWrite}
    {m : Option (ℕ × MainPc)} (hm : s.main = some (i, .rearming ev next))
    (hm' : m = none ∨ m = some (i, .resetting) ∨ m = some (i, .closing (.del i))) :
    Ordered lossy { s.modfd (s.sockfd i) ev with main := m } := by
  have heq := (h i).of_working (view_main hm) trivial
  have hepoll : s.epoll i ≠ none := fun he => by
    have := he.symm.trans (congrArg View.epoll heq)
    cases this
  rw [modfd_eq (congrArg View.sockfd heq) hepoll]
  refine h.of_slot
    { SameElsewhere.refl s i with
      epoll := fun j hj => Function.update_of_ne hj _ _
      main := main_elsewhere (by rw [hm]; exact some_elsewhere i _) (by
        rcases hm' with rfl | rfl | rfl
        · exact none_elsewhere i
        · exact some_elsewhere i _
        · exact some_elsewhere i _) } ?_
  show Situation lossy i { s.view i with
    epoll := Function.update s.epoll i (some (some ev)) i
    main := mainAt i m }
  rw [Function.update_self, heq]
  rcases hm' with rfl | rfl | rfl
  · exact .armed (.inl rfl)
  · rw [mainAt_self]
    exact .armed (.inr (.inr rfl))
  · rw [mainAt_self]
    exact .closing rfl

/-- A call or an assignment of `close_conn` in the main thread. -/
theorem Ordered.mainClosing (h : Ordered lossy s) {i : ℕ} {p : Closing}
    (hm : s.main = some (i, .closing p)) :
    Ordered lossy { s.closeStep i p with main := p.next.map fun p => (i, .closing p) } := by
  have hmain : ∀ j ≠ i, mainAt j s.main = none := by
    rw [hm]
    exact some_elsewhere i _
  have hclosing := (h i).of_closing (view_main hm)
  cases p with
  | del fd =>
    obtain ⟨rfl, heq⟩ := hclosing.resolve_right fun hr => by rcases hr.1 with h | h <;> cases h
    refine h.of_slot
      { SameElsewhere.refl s fd with
        epoll := fun j hj => Function.update_of_ne hj _ _
        main := main_elsewhere hmain (some_elsewhere fd _) } ?_
    show Situation lossy fd { s.view fd with
      epoll := Function.update s.epoll fd none fd
      main := mainAt fd (some (fd, .closing (.close fd))) }
    rw [Function.update_self, mainAt_self, heq]
    exact .closing rfl
  | close fd =>
    obtain ⟨rfl, heq⟩ := hclosing.resolve_right fun hr => by rcases hr.1 with h | h <;> cases h
    refine h.of_slot
      { SameElsewhere.refl s fd with
        opened := fun j hj => Finset.mem_erase.trans (and_iff_right hj)
        epoll := fun j hj => Function.update_of_ne hj _ _
        main := main_elsewhere hmain (some_elsewhere fd _) } ?_
    show Situation lossy fd { (s.close fd).view fd with main := mainAt fd (some (fd, .closing .clear)) }
    rw [close_view, mainAt_self, heq]
    exact .free (fun _ _ _ hw => by cases hw) (.inr (.inl rfl))
  | clear =>
    obtain ⟨-, hstale, heq⟩ := hclosing.resolve_left fun hl => hl.1
    refine h.of_slot
      { SameElsewhere.refl s i with
        sockfd := fun j hj => Function.update_of_ne hj _ _
        main := main_elsewhere hmain (some_elsewhere i _) } ?_
    show Situation lossy i { s.view i with
      sockfd := Function.update s.sockfd i none i
      main := mainAt i (some (i, .closing .count)) }
    rw [Function.update_self, mainAt_self, heq]
    exact .free hstale.cleared (.inr (.inr rfl))
  | count =>
    obtain ⟨-, hstale, heq⟩ := hclosing.resolve_left fun hl => hl.1
    refine h.of_slot { SameElsewhere.refl s i with main := main_elsewhere hmain (none_elsewhere i) } ?_
    show Situation lossy i { s.view i with main := none }
    rw [heq]
    exact .free hstale (.inl rfl)

/-! ### The workers -/

theorem idle_elsewhere (i : ℕ) : ∀ j ≠ i, Worker.idle.at_ j = none := fun _ _ => rfl

theorem busy_elsewhere (i g : ℕ) (pc : ProcessPc) : ∀ j ≠ i, (Worker.busy i g pc).at_ j = none :=
  fun _ hj => at_of_ne hj g pc

/-- A worker moves, and leaves the other slots alone. -/
theorem worker_elsewhere {w : W} {i : ℕ} {x x' : Worker} (hw : s.worker w = x)
    (hx : ∀ j ≠ i, x.at_ j = none) (hx' : ∀ j ≠ i, x'.at_ j = none) :
    ∀ j ≠ i, ∀ w', (Function.update s.worker w x' w').at_ j = (s.worker w').at_ j := by
  intro j hj w'
  by_cases hw' : w' = w
  · rw [hw', Function.update_self, hw, hx j hj, hx' j hj]
  · rw [Function.update_of_ne hw']

theorem Ordered.pop (h : Ordered lossy s) {w : W} {i : ℕ} {q : List (Option ℕ)}
    (hw : s.worker w = .idle) (hq : lockedPop s.workqueue = some (some i, q)) :
    Ordered lossy { s with
      workqueue := q
      worker := Function.update s.worker w (.busy i (s.gen i) .reading) } := by
  have hqueue : s.workqueue = some i :: q := lockedPop_some hq
  refine h.of_slot
    { SameElsewhere.refl s i with
      queued := fun j hj => by
        rw [hqueue, List.count_cons_of_ne (by simpa using hj.symm)]
      worker := worker_elsewhere hw (idle_elsewhere i) (busy_elsewhere i _ _) } ?_
  have hqueued : (s.view i).queued = q.count (some i) + 1 := by
    show s.workqueue.count (some i) = _
    rw [hqueue, List.count_cons_self]
  have heq := (h i).of_queued (by rw [hqueued]; exact Nat.succ_ne_zero _)
  have hcount : q.count (some i) = 0 :=
    Nat.succ_injective (hqueued.symm.trans (congrArg View.queued heq))
  show Situation lossy i { s.view i with
    queued := q.count (some i)
    worker := fun w' => (Function.update s.worker w (.busy i (s.gen i) .reading) w').at_ i }
  rw [hcount, at_update, at_self, heq]
  exact .processed trivial (.inl rfl)

/-- A worker that has the connection. -/
theorem Ordered.of_serving (h : Ordered lossy s) {w : W} {i g : ℕ} {pc : ProcessPc}
    (hw : s.worker w = .busy i g pc) (hpc : ¬ pc.Stale (s.sockfd i)) :
    pc.Serves i ∧ (s.epoll i = some none ∨ s.epoll i = none ∧ pc = .closing (.close i)) ∧
      s.view i = ⟨some i, true, s.epoll i, g, 0, 0, none, only w g pc⟩ :=
  ((h i).of_worker (view_worker hw)).resolve_right fun hr => hpc (hr.1 w g pc (view_worker hw))

/-- A worker goes on in `process` with the connection. -/
theorem Ordered.processes (h : Ordered lossy s) {w : W} {i g : ℕ} {pc pc' : ProcessPc}
    (hw : s.worker w = .busy i g pc) (hpc : pc = .reading ∨ pc = .responding)
    (hpc' : pc'.Serves i) :
    Ordered lossy { s with worker := Function.update s.worker w (.busy i g pc') } := by
  obtain ⟨-, hepoll, heq⟩ := h.of_serving hw (by rcases hpc with rfl | rfl <;> exact id)
  have hepoll' : s.epoll i = some none := hepoll.resolve_right fun hr => by
    rcases hpc with rfl | rfl <;> cases hr.2
  refine h.of_slot
    { SameElsewhere.refl s i with
      worker := worker_elsewhere hw (busy_elsewhere i g pc) (busy_elsewhere i g pc') } ?_
  show Situation lossy i { s.view i with
    worker := fun w' => (Function.update s.worker w (.busy i g pc') w').at_ i }
  rw [at_update, at_self, heq]
  dsimp only
  rw [update_only]
  exact .processed hpc' (.inl hepoll')

/-- A call or an assignment of `close_conn` in a worker. -/
theorem Ordered.workerClosing (h : Ordered lossy s) {w : W} {i g : ℕ} {p : Closing}
    (hw : s.worker w = .busy i g (.closing p)) {pc' : ProcessPc}
    (hpc' : pc' = match p.next with
      | some p => .closing p
      | none => .rearming .output) :
    Ordered lossy { s.closeStep i p with worker := Function.update s.worker w (.busy i g pc') } := by
  have hworker := worker_elsewhere hw (busy_elsewhere i g _) (busy_elsewhere i g pc')
  cases p with
  | del fd =>
    obtain ⟨rfl, -, heq⟩ := h.of_serving hw id
    obtain rfl : pc' = .closing (.close fd) := hpc'
    refine h.of_slot
      { SameElsewhere.refl s fd with
        epoll := fun j hj => Function.update_of_ne hj _ _
        worker := hworker } ?_
    show Situation lossy fd { s.view fd with
      epoll := Function.update s.epoll fd none fd
      worker := fun w' => (Function.update s.worker w (.busy fd g (.closing (.close fd))) w').at_ fd }
    rw [Function.update_self, at_update, at_self, heq]
    dsimp only
    rw [update_only]
    exact .processed rfl (.inr ⟨rfl, rfl⟩)
  | close fd =>
    obtain ⟨rfl, -, heq⟩ := h.of_serving hw id
    obtain rfl : pc' = .closing .clear := hpc'
    refine h.of_slot
      { SameElsewhere.refl s fd with
        opened := fun j hj => Finset.mem_erase.trans (and_iff_right hj)
        epoll := fun j hj => Function.update_of_ne hj _ _
        worker := hworker } ?_
    show Situation lossy fd { (s.close fd).view fd with
      worker := fun w' => (Function.update s.worker w (.busy fd g (.closing .clear)) w').at_ fd }
    rw [close_view, at_update, at_self, heq]
    dsimp only
    rw [update_only]
    exact .free stale_only (.inl rfl)
  | clear =>
    obtain rfl : pc' = .closing .count := hpc'
    obtain ⟨hstale, -, hrest⟩ := ((h i).of_worker (view_worker hw)).resolve_left fun hl => hl.1
    refine h.of_slot
      { SameElsewhere.refl s i with
        sockfd := fun j hj => Function.update_of_ne hj _ _
        worker := hworker } ?_
    show Situation lossy i { s.view i with
      sockfd := Function.update s.sockfd i none i
      worker := fun w' => (Function.update s.worker w (.busy i g (.closing .count)) w').at_ i }
    rw [Function.update_self, at_update, at_self]
    apply hrest
    apply hstale.cleared.update
    rintro g' pc ⟨⟩
    rfl
  | count =>
    obtain rfl : pc' = .rearming .output := hpc'
    obtain ⟨hstale, -, hrest⟩ := ((h i).of_worker (view_worker hw)).resolve_left fun hl => hl.1
    have hsockfd : s.sockfd i = none := hstale w g _ (view_worker hw)
    refine h.of_slot { SameElsewhere.refl s i with worker := hworker } ?_
    show Situation lossy i { s.view i with
      worker := fun w' => (Function.update s.worker w (.busy i g (.rearming .output)) w').at_ i }
    rw [at_update, at_self]
    apply hrest
    apply hstale.update
    rintro g' pc ⟨⟩
    exact hsockfd

/-- `process` ends with `modfd`. -/
theorem Ordered.workerRearms (h : Ordered lossy s) {w : W} {i g : ℕ} {ev : Interest}
    (hw : s.worker w = .busy i g (.rearming ev)) :
    Ordered lossy { s.modfd (s.sockfd i) ev with worker := Function.update s.worker w .idle } := by
  have hworker := worker_elsewhere hw (busy_elsewhere i g _) (idle_elsewhere i)
  rcases (h i).of_worker (view_worker hw) with ⟨-, hepoll, heq⟩ | ⟨hstale, hepoll, hrest⟩
  · have hepoll' : s.epoll i = some none := hepoll.resolve_right fun hr => by cases hr.2
    rw [modfd_eq (congrArg View.sockfd heq) (by rw [hepoll']; nofun)]
    refine h.of_slot
      { SameElsewhere.refl s i with
        epoll := fun j hj => Function.update_of_ne hj _ _
        worker := hworker } ?_
    show Situation lossy i { s.view i with
      epoll := Function.update s.epoll i (some (some ev)) i
      worker := fun w' => (Function.update s.worker w .idle w').at_ i }
    rw [Function.update_self, at_update, heq]
    show Situation lossy i ⟨some i, true, some (some ev), g, 0, 0, none,
      Function.update (only w g (.rearming ev)) w none⟩
    rw [update_only_none]
    exact .armed (.inl rfl)
  · -- the worker has closed the connection: its `modfd` is of -1
    have hpc : (ProcessPc.rearming ev).Stale (s.sockfd i) := hstale w g _ (view_worker hw)
    have hsockfd : s.sockfd i = none := by
      cases ev with
      | input => cases hpc
      | output => exact hpc
    have hmodfd : s.modfd (s.sockfd i) ev = s := by rw [hsockfd]; rfl
    rw [hmodfd]
    refine h.of_slot { SameElsewhere.refl s i with worker := hworker } ?_
    show Situation lossy i { s.view i with
      worker := fun w' => (Function.update s.worker w .idle w').at_ i }
    rw [at_update]
    apply hrest
    exact hstale.update w nofun

end Server

end SocketTest.ThreadPool
