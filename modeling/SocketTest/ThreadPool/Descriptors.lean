import SocketTest.Lib.LowestFree
import SocketTest.Lib.Memory
import SocketTest.Lib.Run
import SocketTest.ThreadPool.Serving

/-!
# The descriptors of the HTTP server

The main loop as a sequence of accepts and closes, a round of the loop or a `close_conn` of a worker
being one step. `accept` returns the lowest descriptor that is not in use, and no worker is between
`open` and `close` in `do_request` then. `m_user_count` counts connections, and `users` is indexed by
descriptors, which are also the standard ones, `listenfd` and `epollfd`: beside these, only `MAX_FD - 5`
connections have a place in `users`, and the guard lets more in (`indices_iff`). An access outside
`users` is recorded as a fault.

`Matches.run` takes such a sequence to a run of `Server`, whose steps are the single calls.
-/

namespace SocketTest.ThreadPool

open SocketTest.Lib

/-- What accepts and closes change; `epoll` has the connections that are registered. -/
structure Loop where
  opened : Finset ℕ
  epoll : Finset ℕ
  /-- `users[i].m_sockfd` -/
  sockfd : ℕ → Option ℕ
  userCount : ℤ
  faults : List Fault

namespace Loop

/-- The standard descriptors. -/
def standard : Finset ℕ := Finset.range 3

def listenfd : ℕ := lowestFree standard

def epollfd : ℕ := lowestFree (insert listenfd standard)

/-- `main` before its loop. -/
def start : Loop := ⟨insert epollfd (insert listenfd standard), ∅, fun _ => none, 0, []⟩

/-- An access to `users[i]`. -/
def use (l : Loop) (i : ℕ) : Loop :=
  { l with faults := if i < MAX_FD then l.faults else l.faults ++ [.outOfBounds i] }

/-- `users[connfd].init(connfd, client_address)` -/
def init (l : Loop) (connfd : ℕ) : Loop :=
  { l.use connfd with
    sockfd := Function.update l.sockfd connfd (some connfd)
    epoll := insert connfd l.epoll
    userCount := l.userCount + 1 }

/-- The branch of `listenfd`; `show_error` closes the descriptor. -/
def accept (l : Loop) : Loop :=
  let connfd := lowestFree l.opened
  let l := { l with opened := insert connfd l.opened }
  if (MAX_FD : ℤ) < l.userCount then { l with opened := l.opened.erase connfd } else l.init connfd

/-- `users[i].close_conn()` -/
def closeConn (l : Loop) (i : ℕ) : Loop :=
  match l.sockfd i with
  | none => l.use i
  | some fd =>
    { l.use i with
      opened := l.opened.erase fd
      epoll := l.epoll.erase fd
      sockfd := Function.update l.sockfd i none
      userCount := l.userCount - 1 }

/-- `serve` is an event that leaves the connection open. -/
inductive Act
  | accept
  | acceptFails
  | serve (i : ℕ)
  | close (i : ℕ)
  deriving DecidableEq

inductive Step : Loop → Act → Loop → Prop
  | accept {l : Loop} : Step l .accept l.accept
  | acceptFails {l : Loop} : Step l .acceptFails l
  | serve {l : Loop} {i : ℕ} (hi : i ∈ l.epoll) : Step l (.serve i) (l.use i)
  | close {l : Loop} {i : ℕ} (hi : i ∈ l.epoll) : Step l (.close i) (l.closeConn i)

/-- An accept comes when fewer than `MAX_FD - 5` connections are open. -/
def Roomy (l : Loop) (a : Act) : Prop := a = .accept → l.epoll.card < MAX_FD - 5

variable {l l' : Loop} {a : Act} {as : List Act} {i fd : ℕ}

/-! ## The descriptor set -/

/-- The descriptors in use are the five of `main` and the connections, which have their own slots. -/
structure Tracked (l : Loop) : Prop where
  opened : l.opened = Finset.range 5 ∪ l.epoll
  apart : ∀ i ∈ l.epoll, 5 ≤ i
  sockfd : ∀ i ∈ l.epoll, l.sockfd i = some i
  userCount : l.userCount = l.epoll.card
  below : l.faults = [] → ∀ i ∈ l.epoll, i < MAX_FD

theorem start_opened : start.opened = Finset.range 5 := by
  have hlisten : listenfd = 3 := lowestFree_range 3
  have hinsert : insert listenfd standard = Finset.range 4 := by
    rw [hlisten]
    exact Finset.range_add_one.symm
  have hepoll : epollfd = 4 := by
    rw [epollfd, hinsert]
    exact lowestFree_range 4
  show insert epollfd (insert listenfd standard) = _
  rw [hepoll, hinsert]
  exact Finset.range_add_one.symm

theorem tracked_start : Tracked start := by
  refine ⟨?_, nofun, nofun, rfl, fun _ => nofun⟩
  rw [start_opened]
  exact (Finset.union_empty _).symm

theorem use_clean : (l.use i).faults = [] ↔ l.faults = [] ∧ i < MAX_FD := by
  unfold use
  dsimp only
  split_ifs with h
  · exact (and_iff_left h).symm
  · simp [h]

theorem Tracked.use (h : Tracked l) (i : ℕ) : Tracked (l.use i) :=
  ⟨h.opened, h.apart, h.sockfd, h.userCount, fun hclean => h.below (use_clean.1 hclean).1⟩

theorem Tracked.card (h : Tracked l) : l.opened.card = 5 + l.epoll.card := by
  have hdisjoint : Disjoint (Finset.range 5) l.epoll := by
    rw [Finset.disjoint_left]
    intro i hi hmem
    exact absurd (h.apart i hmem) (not_le.2 (Finset.mem_range.1 hi))
  rw [h.opened, Finset.card_union_of_disjoint hdisjoint, Finset.card_range]

/-- A descriptor that is free is no connection, and none of the five. -/
theorem Tracked.free (h : Tracked l) (hfd : fd ∉ l.opened) : fd ∉ l.epoll ∧ 5 ≤ fd := by
  rw [h.opened, Finset.mem_union, not_or, Finset.mem_range, not_lt] at hfd
  exact ⟨hfd.2, hfd.1⟩

theorem accept_refused (hfull : (MAX_FD : ℤ) < l.userCount) : l.accept = l := by
  have herase : (insert (lowestFree l.opened) l.opened).erase (lowestFree l.opened) = l.opened :=
    Finset.erase_insert (lowestFree_notMem _)
  unfold accept
  dsimp only
  rw [if_pos hfull, herase]

theorem accept_init (hroom : l.userCount ≤ MAX_FD) : l.accept =
    init { l with opened := insert (lowestFree l.opened) l.opened } (lowestFree l.opened) :=
  if_neg (not_lt.2 hroom)

theorem Tracked.accept (h : Tracked l) : Tracked l.accept := by
  by_cases hroom : (MAX_FD : ℤ) < l.userCount
  · rwa [accept_refused hroom]
  rw [accept_init (not_lt.1 hroom)]
  obtain ⟨hnew, hfive⟩ := h.free (lowestFree_notMem l.opened)
  constructor
  · show insert _ l.opened = Finset.range 5 ∪ insert _ l.epoll
    rw [Finset.union_insert, h.opened]
  · exact Finset.forall_mem_insert _ _ _ |>.2 ⟨hfive, h.apart⟩
  · refine Finset.forall_mem_insert _ _ _ |>.2 ⟨Function.update_self .., fun i hi => ?_⟩
    exact (Function.update_of_ne (ne_of_mem_of_not_mem hi hnew) _ _).trans (h.sockfd i hi)
  · show l.userCount + 1 = (insert _ l.epoll).card
    rw [Finset.card_insert_of_notMem hnew, h.userCount]
    rfl
  · intro hclean
    obtain ⟨hold, hlt⟩ := use_clean.1 hclean
    exact Finset.forall_mem_insert _ _ _ |>.2 ⟨hlt, h.below hold⟩

theorem closeConn_eq (hfd : l.sockfd i = some fd) : l.closeConn i =
    { l.use i with
      opened := l.opened.erase fd
      epoll := l.epoll.erase fd
      sockfd := Function.update l.sockfd i none
      userCount := l.userCount - 1 } := by
  rw [closeConn, hfd]

theorem Tracked.closeConn (h : Tracked l) (hi : i ∈ l.epoll) : Tracked (l.closeConn i) := by
  rw [closeConn_eq (h.sockfd i hi)]
  have hfive : i ∉ Finset.range 5 := by
    rw [Finset.mem_range]
    exact not_lt.2 (h.apart i hi)
  constructor
  · show l.opened.erase i = Finset.range 5 ∪ l.epoll.erase i
    rw [h.opened, Finset.erase_union_distrib, Finset.erase_eq_of_notMem hfive]
  · exact fun j hj => h.apart j (Finset.mem_of_mem_erase hj)
  · intro j hj
    exact (Function.update_of_ne (Finset.ne_of_mem_erase hj) _ _).trans
      (h.sockfd j (Finset.mem_of_mem_erase hj))
  · show l.userCount - 1 = (l.epoll.erase i).card
    have hcard := Finset.card_erase_add_one hi
    rw [h.userCount]
    omega
  · intro hclean j hj
    exact h.below (use_clean.1 hclean).1 j (Finset.mem_of_mem_erase hj)

theorem Tracked.step (h : Tracked l) (hs : Step l a l') : Tracked l' := by
  cases hs with
  | accept => exact h.accept
  | acceptFails => exact h
  | serve hi => exact h.use _
  | close hi => exact h.closeConn hi

theorem step_det {l₁ l₂ : Loop} (h₁ : Step l a l₁) (h₂ : Step l a l₂) : l₁ = l₂ := by
  cases h₁ <;> cases h₂ <;> rfl

/-! ## The bounds -/

theorem Tracked.room (h : Tracked l) (hclean : l.faults = []) :
    lowestFree l.opened < MAX_FD ↔ l.epoll.card < MAX_FD - 5 := by
  have hsub : l.opened ⊆ Finset.range MAX_FD := by
    rw [h.opened, Finset.union_subset_iff]
    exact ⟨Finset.range_mono (by decide), fun i hi => Finset.mem_range.2 (h.below hclean i hi)⟩
  rw [lowestFree_lt_iff hsub, h.card]
  omega

/-- The guard is only reached when `users` is too small already. -/
theorem Tracked.guard (h : Tracked l) (hclean : l.faults = []) : l.userCount ≤ MAX_FD := by
  have hsub : l.epoll ⊆ Finset.range MAX_FD := fun i hi => Finset.mem_range.2 (h.below hclean i hi)
  have hcard := Finset.card_le_card hsub
  rw [Finset.card_range] at hcard
  rw [h.userCount]
  exact Int.ofNat_le.2 hcard

theorem Tracked.clean_step (h : Tracked l) (hs : Step l a l') :
    l'.faults = [] ↔ l.faults = [] ∧ Roomy l a := by
  cases hs with
  | accept =>
    rcases lt_or_ge (MAX_FD : ℤ) l.userCount with hfull | hroom
    · have hnot : l.faults ≠ [] := fun hclean => not_lt.2 (h.guard hclean) hfull
      rw [accept_refused hfull]
      exact iff_of_false hnot fun hclean => hnot hclean.1
    · rw [accept_init hroom]
      refine use_clean.trans (and_congr_right fun hclean => ?_)
      exact (h.room hclean).trans ⟨fun hlt _ => hlt, fun hroomy => hroomy rfl⟩
  | acceptFails => exact (and_iff_left nofun).symm
  | serve hi =>
    rw [use_clean]
    exact and_congr_right fun hclean => iff_of_true (h.below hclean _ hi) nofun
  | close hi =>
    rw [closeConn_eq (h.sockfd _ hi)]
    refine use_clean.trans (and_congr_right fun hclean => iff_of_true (h.below hclean _ hi) nofun)

/-- **The table is as long as the guard is not needed.** Every index of `users` is below `MAX_FD`
exactly when each accept comes with room for one more connection beside the five other descriptors; no
worker has a file open in `do_request` at an accept. -/
theorem indices_iff (hr : Run Step start as l) :
    l.faults = [] ↔ Run (fun l a l' => Step l a l' ∧ Roomy l a) start as l := by
  have hclean := hr.clean_iff Tracked (fun l => l.faults = []) Roomy ?_ ?_ ?_ tracked_start
  · exact hclean.trans (and_iff_right rfl)
  · intro l a l₁ l₂ h₁ h₂
    exact step_det h₁ h₂
  · intro l a l' h hs
    exact h.step hs
  · intro l a l' h hs
    exact h.clean_step hs

theorem indices_accept : start.accept.faults = [] :=
  (indices_iff (.single .accept)).2 (.single ⟨.accept, fun _ => by decide⟩)

theorem accepts_run {n : ℕ} (hn : n ≤ MAX_FD - 5) :
    ∃ l, Run Step start (List.replicate n .accept) l ∧ Tracked l ∧ l.faults = [] ∧ l.epoll.card = n := by
  induction n with
  | zero => exact ⟨start, .nil _, tracked_start, rfl, rfl⟩
  | succ n ih =>
    obtain ⟨l, hr, h, hclean, hcard⟩ := ih (Nat.le_of_succ_le hn)
    have hroomy : Roomy l .accept := fun _ => by omega
    refine ⟨l.accept, ?_, h.accept, (h.clean_step .accept).2 ⟨hclean, hroomy⟩, ?_⟩
    · rw [List.replicate_succ']
      exact hr.append (.single .accept)
    · rw [accept_init (h.guard hclean), ← hcard]
      exact Finset.card_insert_of_notMem (h.free (lowestFree_notMem _)).1

/-- One accept more than `users` has places beside the five descriptors. -/
theorem accept_outside : ∃ l, Run Step start (List.replicate (MAX_FD - 5) .accept ++ [.accept]) l ∧
    l.faults ≠ [] := by
  obtain ⟨l, hr, h, -, hcard⟩ := accepts_run le_rfl
  refine ⟨l.accept, hr.append (.single .accept), fun hclean => ?_⟩
  have hlt := ((h.clean_step .accept).1 hclean).2 rfl
  exact absurd hlt (not_lt.2 hcard.ge)

end Loop

/-! ## The steps of the server -/

namespace Server

variable {W : Type*} [DecidableEq W] {maxRequests : ℕ} {s : Server W} {i fd : ℕ}

theorem step_listen (hm : s.main = none) (hevs : s.evs = []) :
    Step maxRequests s .poll { s with evs := [.listen] } :=
  @Step.poll _ _ maxRequests s [.listen] hm hevs List.nodup_nil listen_ready

theorem step_admits (hm : s.main = some (fd, .accepted)) (hroom : s.userCount ≤ MAX_FD) :
    Step maxRequests s .checkCount { s with main := some (fd, .assigning) } := by
  have h : Step maxRequests s .checkCount _ := .checkCount hm
  rwa [if_neg (not_lt.2 hroom)] at h

theorem step_rejects (hm : s.main = some (fd, .accepted)) (hfull : MAX_FD < s.userCount) :
    Step maxRequests s .checkCount { s with main := some (fd, .refusing) } := by
  have h : Step maxRequests s .checkCount _ := .checkCount hm
  rwa [if_pos hfull] at h

theorem step_adds (hm : s.main = some (fd, .adding)) (hepoll : s.epoll fd = none) :
    Step maxRequests s .add { s with
      epoll := Function.update s.epoll fd (some (some .input))
      main := some (fd, .counting) } := by
  have h : Step maxRequests s .add _ := .add hm
  rwa [addfd_eq hepoll] at h

theorem step_hangsUp (hm : s.main = none) (hevs : s.evs = [.conn i .hangUp])
    (hsockfd : s.sockfd i = some i) :
    Step maxRequests s .event { s with evs := [], main := some (i, .closing (.del i)) } := by
  have h : Step maxRequests s .event _ := .hangUp hm hevs
  rwa [mainCloses_eq (s := { s with evs := [] }) hsockfd] at h

/-- With room in the eyes of the guard, the connection is put into its slot. -/
theorem takes_run (hm : s.main = none) (hevs : s.evs = []) (hfd : fd ∉ s.opened)
    (hepoll : s.epoll fd = none) (hroom : s.userCount ≤ MAX_FD) :
    Run (Step maxRequests) s (takes fd) { s with
      sockfd := Function.update s.sockfd fd (some fd)
      userCount := s.userCount + 1
      opened := insert fd s.opened
      epoll := Function.update s.epoll fd (some (some .input))
      evs := []
      gen := Function.update s.gen fd (s.gen fd + 1)
      main := none } :=
  .cons (step_listen hm hevs) (.cons (.accept hm rfl hfd) (.cons (step_admits rfl hroom)
    (.cons (.assign rfl) (.cons (step_adds rfl hepoll) (.cons (.count rfl) (.single (.reset rfl)))))))

theorem refuses_run {fd : ℕ} (hm : s.main = none) (hevs : s.evs = []) (hfd : fd ∉ s.opened)
    (hfull : MAX_FD < s.userCount) :
    Run (Step maxRequests) s [.poll, .accept fd, .checkCount, .refuse] { s with
      opened := (insert fd s.opened).erase fd
      epoll := Function.update s.epoll fd none
      evs := []
      gen := Function.update s.gen fd (s.gen fd + 1)
      main := none } :=
  .cons (step_listen hm hevs) (.cons (.accept hm rfl hfd) (.cons (step_rejects rfl hfull)
    (.single (.refuse rfl))))

variable (maxRequests) in
/-- A hang-up takes a connection out of its slot. -/
theorem closes_run {k : Interest} (hm : s.main = none) (hevs : s.evs = [])
    (hepoll : s.epoll i = some (some k)) (hsockfd : s.sockfd i = some i) :
    ∃ t, Run (Step maxRequests) s
        [.poll, .event, .mainCloses, .mainCloses, .mainCloses, .mainCloses] t ∧
      t.main = none ∧ t.evs = [] ∧ t.opened = s.opened.erase i ∧ t.userCount = s.userCount - 1 ∧
      t.sockfd = Function.update s.sockfd i none ∧
      ∀ j, t.epoll j = if j = i then none else s.epoll j := by
  have hready : ∀ fd branch, Ready.conn fd branch ∈ [Ready.conn i .hangUp] →
      ∃ k, s.epoll fd = some (some k) ∧ k.Allows branch := by
    intro fd branch h
    cases List.mem_singleton.1 h
    exact ⟨k, hepoll, trivial⟩
  refine ⟨_, .cons (@Step.poll _ _ maxRequests s [.conn i .hangUp] hm hevs
    (List.nodup_singleton i) hready) (.cons (step_hangsUp hm rfl hsockfd) (.cons (.mainCloses rfl)
    (.cons (.mainCloses rfl) (.cons (.mainCloses rfl) (.cons (.mainCloses rfl) (.nil _)))))),
    rfl, rfl, rfl, rfl, rfl, fun j => ?_⟩
  show Function.update (Function.update (fun fd => if fd ∈ [i] then _ else s.epoll fd) i none) i none j = _
  rw [Function.update_idem, Function.update_apply]
  by_cases hj : j = i
  · rw [if_pos hj, if_pos hj]
  · rw [if_neg hj, if_neg hj, if_neg (mt List.mem_singleton.1 hj)]

end Server

namespace Loop

variable {W : Type*} [DecidableEq W] (maxRequests : ℕ) {l l' : Loop} {a : Act} {as : List Act}
  {s : Server W}

/-- The server between two calls of `epoll_wait`, with the same connections. -/
structure Matches (l : Loop) (s : Server W) : Prop where
  main : s.main = none
  evs : s.evs = []
  opened : s.opened = l.epoll
  sockfd : ∀ i ∈ l.epoll, s.sockfd i = some i
  userCount : s.userCount = l.userCount
  armed : ∀ i ∈ l.epoll, ∃ k, s.epoll i = some (some k)
  unarmed : ∀ i ∉ l.epoll, s.epoll i = none

theorem Matches.accept (h : Matches l s) (ht : Tracked l) :
    ∃ acts t, Run (Server.Step maxRequests) s acts t ∧ Matches l.accept t := by
  obtain ⟨hnew, -⟩ := ht.free (lowestFree_notMem l.opened)
  have hfd : lowestFree l.opened ∉ s.opened := h.opened ▸ hnew
  rcases lt_or_ge (MAX_FD : ℤ) l.userCount with hfull | hroom
  · rw [accept_refused hfull]
    refine ⟨_, _, Server.refuses_run h.main h.evs hfd (h.userCount ▸ hfull), rfl, rfl, ?_, h.sockfd,
      h.userCount, fun i hi => ?_, fun i hi => ?_⟩
    · exact (Finset.erase_insert hfd).trans h.opened
    · dsimp only
      rw [Function.update_of_ne (ne_of_mem_of_not_mem hi hnew)]
      exact h.armed i hi
    · dsimp only
      rw [Function.update_apply]
      split_ifs
      · rfl
      · exact h.unarmed i hi
  · rw [accept_init hroom]
    refine ⟨_, _, Server.takes_run h.main h.evs hfd (h.unarmed _ hnew) (h.userCount ▸ hroom), rfl, rfl,
      congrArg (insert _) h.opened, ?_, congrArg (· + 1) h.userCount, ?_, fun i hi => ?_⟩
    · refine Finset.forall_mem_insert _ _ _ |>.2 ⟨Function.update_self .., fun i hi => ?_⟩
      exact (Function.update_of_ne (ne_of_mem_of_not_mem hi hnew) _ _).trans (h.sockfd i hi)
    · refine Finset.forall_mem_insert _ _ _ |>.2 ⟨⟨.input, Function.update_self ..⟩, fun i hi => ?_⟩
      obtain ⟨k, hk⟩ := h.armed i hi
      exact ⟨k, (Function.update_of_ne (ne_of_mem_of_not_mem hi hnew) _ _).trans hk⟩
    · obtain ⟨hne, hi⟩ := not_or.1 (mt Finset.mem_insert.2 hi)
      exact (Function.update_of_ne hne _ _).trans (h.unarmed i hi)

theorem Matches.closeConn {i : ℕ} (h : Matches l s) (ht : Tracked l) (hi : i ∈ l.epoll) :
    ∃ acts t, Run (Server.Step maxRequests) s acts t ∧ Matches (l.closeConn i) t := by
  obtain ⟨k, hk⟩ := h.armed i hi
  obtain ⟨t, hr, hm, hevs, hopened, huser, hsockfd, hepoll⟩ :=
    Server.closes_run maxRequests h.main h.evs hk (h.sockfd i hi)
  rw [closeConn_eq (ht.sockfd i hi)]
  refine ⟨_, t, hr, hm, hevs, ?_, fun j hj => ?_, ?_, fun j hj => ?_, fun j hj => ?_⟩
  · rw [hopened, h.opened]
  · rw [hsockfd, Function.update_of_ne (Finset.ne_of_mem_erase hj)]
    exact h.sockfd j (Finset.mem_of_mem_erase hj)
  · rw [huser, h.userCount]
  · rw [hepoll, if_neg (Finset.ne_of_mem_erase hj)]
    exact h.armed j (Finset.mem_of_mem_erase hj)
  · rw [hepoll]
    split_ifs with hji
    · rfl
    · exact h.unarmed j fun hmem => hj (Finset.mem_erase.2 ⟨hji, hmem⟩)

theorem Matches.step (h : Matches l s) (ht : Tracked l) (hs : Step l a l') :
    ∃ acts t, Run (Server.Step maxRequests) s acts t ∧ Matches l' t := by
  cases hs with
  | accept => exact h.accept maxRequests ht
  | acceptFails => exact ⟨[], s, .nil s, h⟩
  | serve hi =>
    exact ⟨[], s, .nil s, h.main, h.evs, h.opened, h.sockfd, h.userCount, h.armed, h.unarmed⟩
  | close hi => exact h.closeConn maxRequests ht hi

/-- Every sequence of accepts and closes is one of the server, with its other steps between. -/
theorem Matches.run (h : Matches l s) (ht : Tracked l) (hr : Run Step l as l') :
    ∃ acts t, Run (Server.Step maxRequests) s acts t ∧ Matches l' t := by
  induction hr generalizing s with
  | nil l => exact ⟨[], s, .nil s, h⟩
  | cons hs _ ih =>
    obtain ⟨acts, t, hrun, hmatch⟩ := h.step maxRequests ht hs
    obtain ⟨acts', u, hrun', hmatch'⟩ := ih hmatch (ht.step hs)
    exact ⟨acts ++ acts', u, hrun.append hrun', hmatch'⟩

omit [DecidableEq W] in
theorem matches_start (h : s.Started) : Matches start s := by
  refine ⟨h.main, h.evs, h.opened, nofun, h.userCount, nofun, fun i _ => h.epoll i⟩

/-- From its start the server comes to a slot behind the table. -/
theorem server_outside (h : s.Started) : ∃ acts t, Run (Server.Step maxRequests) s acts t ∧
    t.sockfd MAX_FD = some MAX_FD := by
  obtain ⟨l, hr, ht, hclean, hcard⟩ := accepts_run le_rfl
  obtain ⟨acts, t, hrun, hmatch⟩ := (matches_start h).run maxRequests tracked_start
    (hr.append (.single .accept))
  have hnext : lowestFree l.opened = MAX_FD := by
    refine le_antisymm ((lowestFree_le_card _).trans ?_) (not_lt.1 (mt (ht.room hclean).1 ?_))
    · rw [ht.card, hcard]
      decide
    · exact not_lt.2 hcard.ge
  refine ⟨acts, t, hrun, hmatch.sockfd MAX_FD ?_⟩
  rw [accept_init (ht.guard hclean), hnext]
  exact Finset.mem_insert_self _ _

end Loop

end SocketTest.ThreadPool
