import SocketTest.ShmTest.Children

/-!
# The bounds of the shared memory

The parent with its children at work: they clear, fill and send parts of `share_mem`, and the numbers
that say which part go from a child to the parent and from there to the other children. `touched` has
every part that was accessed. A child's part is given by its `idx`, the number of children forked before
it, and `USER_LIMIT` parts are mapped while `USER_LIMIT + 1` children are accepted: `region_bounds` says
in which runs all of them stay inside.
-/

namespace SocketTest.ShmTest

open SocketTest.Lib

/-- A child in `run_child`; `pipefd` is the parent's end of its pipe. -/
structure Process where
  pid : ℤ
  idx : ℤ
  pipefd : ℤ
  deriving DecidableEq, Repr

/-- The parent, the children, the numbers in the pipes (by the parent's end, to it and from it) and the
parts of the shared memory accessed so far, each with its start and its length. -/
structure Service where
  parent : Parent
  children : List Process
  exited : List ℤ
  up : ℤ → List ℤ
  down : ℤ → List ℤ
  touched : List (ℤ × ℕ)

/-- A change of the parent's family, or one event of `run_child` or of the parent's branch for the
pipes. `ret` is what `recv` returns. -/
inductive Move
  | family (e : Change)
  | recv (c : Process) (ret : ℤ)
  | relay (sockfd : ℤ)
  | send (c : Process)
  deriving DecidableEq, Repr

/-- A client for whom `accept` succeeds, and `fork` if it is called. -/
def Move.Forks : Move → Prop
  | .family (.arrive a) => 0 ≤ a.connfd ∧ 0 ≤ a.pid
  | _ => False

instance Move.decidableForks : DecidablePred Move.Forks
  | .family (.arrive a) => inferInstanceAs (Decidable (0 ≤ a.connfd ∧ 0 ≤ a.pid))
  | .family (.exit _) | .family .sigchld | .recv _ _ | .relay _ | .send _ => .isFalse id

namespace Service

def start (users : ℤ → ClientData) (raw : ℤ → ℤ) : Service where
  parent := .start users raw
  children := []
  exited := []
  up := fun _ => []
  down := fun _ => []
  touched := []

def family (s : Service) : Family := ⟨s.parent, s.children.map Process.pid, s.exited⟩

/-- The branch of `listenfd`: a child is forked with `user_count` and a new pipe. -/
def arrive (s : Service) (a : Arrival) : Service :=
  match s.parent.accept a with
  | (p, none) => { s with parent := p }
  | (p, some idx) =>
    { s with
      parent := p
      children := s.children ++ [⟨a.pid, idx, a.pipefd.1⟩]
      up := Function.update s.up a.pipefd.1 []
      down := Function.update s.down a.pipefd.1 [] }

/-- `run_child` ends, for whatever reason. -/
def exit (s : Service) (pid : ℤ) : Service :=
  { s with
    children := s.children.eraseP fun c => c.pid = pid
    exited := s.exited ++ [pid] }

/-- `EPOLLIN` on the client's socket in `run_child`: `bzero` and `recv` at `idx*BUFFER_SIZE`. -/
def recv (s : Service) (c : Process) (ret : ℤ) : Service :=
  let cleared := s.touched ++ [(c.idx * BUFFER_SIZE, BUFFER_SIZE)]
  if 0 < ret then
    { s with
      touched := cleared ++ [(c.idx * BUFFER_SIZE, ret.toNat)]
      up := Function.update s.up c.pipefd (s.up c.pipefd ++ [c.idx]) }
  else { s with touched := cleared }

/-- `for(int j=0;j<user_count;++j)`: the number goes to every pipe of the table but the one it came
from. -/
def broadcast (p : Parent) (sockfd child : ℤ) (down : ℤ → List ℤ) : ℤ → List ℤ :=
  (List.range p.userCount.toNat).foldl (fun down (j : ℕ) =>
    if (p.users j).pipefd.1 ≠ sockfd then
      Function.update down (p.users j).pipefd.1 (down (p.users j).pipefd.1 ++ [child])
    else down) down

/-- `EPOLLIN` on a pipe in the parent. -/
def relay (s : Service) (sockfd : ℤ) : Service :=
  match s.up sockfd with
  | [] => s
  | child :: rest =>
    { s with
      up := Function.update s.up sockfd rest
      down := broadcast s.parent sockfd child s.down }

/-- `EPOLLIN` on the pipe in `run_child`: the part with the number read goes to the client. -/
def send (s : Service) (c : Process) : Service :=
  match s.down c.pipefd with
  | [] => s
  | client :: rest =>
    { s with
      down := Function.update s.down c.pipefd rest
      touched := s.touched ++ [(client * BUFFER_SIZE, BUFFER_SIZE)] }

/-- `recv` is given one byte less than a part. -/
inductive Step : Service → Move → Service → Prop
  | arrive {s : Service} {a : Arrival} : s.family.Unused a → Step s (.family (.arrive a)) (s.arrive a)
  | exit {s : Service} {pid : ℤ} : pid ∈ s.family.running → Step s (.family (.exit pid)) (s.exit pid)
  | sigchld {s : Service} {f : Family} : s.family.Handles f →
      Step s (.family .sigchld) { s with parent := f.parent, exited := f.exited }
  | recv {s : Service} {c : Process} {ret : ℤ} : c ∈ s.children → ret ≤ BUFFER_SIZE - 1 →
      Step s (.recv c ret) (s.recv c ret)
  | relay {s : Service} {sockfd : ℤ} : Step s (.relay sockfd) (s.relay sockfd)
  | send {s : Service} {c : Process} : c ∈ s.children → Step s (.send c) (s.send c)

/-- A part of the shared memory lies in the bytes that are mapped. -/
def Mapped (part : ℤ × ℕ) : Prop := 0 ≤ part.1 ∧ part.1 + part.2 ≤ USER_LIMIT * BUFFER_SIZE

/-- The part of every child, and every part accessed so far, is mapped. -/
structure Inside (s : Service) : Prop where
  idx : ∀ c ∈ s.children, (c.idx + 1) * BUFFER_SIZE ≤ USER_LIMIT * BUFFER_SIZE
  touched : ∀ part ∈ s.touched, Mapped part

/-- A number that some child was forked with: less than `user_count`. -/
def Given (s : Service) (k : ℤ) : Prop := 0 ≤ k ∧ k < s.parent.userCount

/-- The changes of the family among the moves. -/
def changes (moves : List Move) : List Change :=
  moves.filterMap fun
    | .family e => some e
    | _ => none

/-- What a run keeps: the numbers in the pipes and in the memory accesses are those of children, and
`user_count` is the number of children forked. -/
structure Kept (raw : ℤ → ℤ) (moves : List Move) (s : Service) : Prop where
  grown : Family.Grown raw (changes moves) s.family
  count : s.parent.userCount = min (moves.countP Move.Forks : ℤ) (USER_LIMIT + 1)
  idx : ∀ c ∈ s.children, s.Given c.idx
  up : ∀ fd, ∀ k ∈ s.up fd, s.Given k
  down : ∀ fd, ∀ k ∈ s.down fd, s.Given k
  touched : ∀ part ∈ s.touched, ∃ k, s.Given k ∧ part.1 = k * BUFFER_SIZE ∧ part.2 ≤ BUFFER_SIZE

variable {s t : Service} {m : Move} {moves : List Move} {raw : ℤ → ℤ} {c : Process}

/-! ## The numbers -/

/-- A number written to one of the pipes. -/
theorem given_update {pipes : ℤ → List ℤ} (h : ∀ fd, ∀ k ∈ pipes fd, s.Given k) {fd : ℤ} {ks : List ℤ}
    (hks : ∀ k ∈ ks, s.Given k) : ∀ fd', ∀ k ∈ Function.update pipes fd ks fd', s.Given k :=
  (Function.forall_update_iff pipes fun _ ks => ∀ k ∈ ks, s.Given k).2 ⟨hks, fun fd' _ => h fd'⟩

theorem given_broadcast {pipes : ℤ → List ℤ} (h : ∀ fd, ∀ k ∈ pipes fd, s.Given k) {child : ℤ}
    (hchild : s.Given child) (p : Parent) (sockfd : ℤ) :
    ∀ fd, ∀ k ∈ broadcast p sockfd child pipes fd, s.Given k := by
  unfold broadcast
  generalize List.range p.userCount.toNat = js
  induction js generalizing pipes with
  | nil => exact h
  | cons j js ih =>
    rw [List.foldl_cons]
    apply ih
    split_ifs
    · refine given_update h fun k hk => ?_
      rcases List.mem_append.1 hk with hk | hk
      · exact h _ k hk
      · rwa [List.mem_singleton.1 hk]
    · exact h

/-! ## One move -/

theorem Given.mono {k : ℤ} (h : s.Given k) (hle : s.parent.userCount ≤ t.parent.userCount) :
    t.Given k := ⟨h.1, h.2.trans_le hle⟩

/-- What `accept` gives: a child with the next number, or none. -/
theorem accept_cases (p : Parent) (a : Arrival) :
    ((0 ≤ a.connfd ∧ 0 ≤ a.pid) ∧ p.userCount ≤ USER_LIMIT ∧ (p.accept a).2 = some p.userCount ∧
      (p.accept a).1.userCount = p.userCount + 1) ∨
    (¬ ((0 ≤ a.connfd ∧ 0 ≤ a.pid) ∧ p.userCount ≤ USER_LIMIT) ∧ (p.accept a).2 = none ∧
      (p.accept a).1.userCount = p.userCount) := by
  unfold Parent.accept
  split_ifs with hfd hfull hpid
  · exact .inr ⟨by omega, rfl, rfl⟩
  · exact .inr ⟨by omega, rfl, rfl⟩
  · exact .inr ⟨by omega, rfl, by simp⟩
  · exact .inl ⟨by omega, by omega, rfl, rfl⟩

theorem arrive_none {a : Arrival} (h : (s.parent.accept a).2 = none) :
    s.arrive a = { s with parent := (s.parent.accept a).1 } := by
  unfold arrive
  generalize s.parent.accept a = r at h ⊢
  obtain ⟨p, idx⟩ := r
  obtain rfl : idx = none := h
  rfl

theorem arrive_some {a : Arrival} {idx : ℤ} (h : (s.parent.accept a).2 = some idx) :
    s.arrive a = { s with
      parent := (s.parent.accept a).1
      children := s.children ++ [⟨a.pid, idx, a.pipefd.1⟩]
      up := Function.update s.up a.pipefd.1 []
      down := Function.update s.down a.pipefd.1 [] } := by
  unfold arrive
  generalize s.parent.accept a = r at h ⊢
  obtain ⟨p, idx'⟩ := r
  obtain rfl : idx' = some idx := h
  rfl

/-! ### The family -/

theorem arrive_family (s : Service) (a : Arrival) : (s.arrive a).family = s.family.arrive a := by
  unfold Family.arrive
  show _ = { s.family with
    parent := (s.parent.accept a).1
    running := s.children.map Process.pid ++ (s.parent.accept a).2.toList.map fun _ => a.pid }
  cases h : (s.parent.accept a).2 with
  | none =>
    rw [arrive_none h]
    simp [family]
  | some idx =>
    rw [arrive_some h]
    simp [family]

theorem exit_family (s : Service) (pid : ℤ) : (s.exit pid).family = s.family.exit pid := by
  unfold exit family Family.exit
  congr 1
  dsimp only
  rw [List.erase_eq_eraseP, List.eraseP_map]
  congr 2
  funext c
  simp [beq_eq_decide, eq_comm]

/-! ### What is kept -/

theorem kept_start (users : ℤ → ClientData) (raw : ℤ → ℤ) : Kept raw [] (start users raw) where
  grown := Family.grown_start users raw
  count := rfl
  idx := by simp [start]
  up := by simp [start]
  down := by simp [start]
  touched := by simp [start]

theorem changes_concat (moves : List Move) (m : Move) :
    changes (moves ++ [m]) = changes moves ++ changes [m] := List.filterMap_append

theorem count_concat (moves : List Move) (m : Move) : (moves ++ [m]).countP Move.Forks =
    moves.countP Move.Forks + if m.Forks then 1 else 0 := by
  rw [List.countP_append, List.countP_singleton]
  simp

/-- A move of the children or of the pipes. -/
theorem Kept.works (h : Kept raw moves s) (hm : changes [m] = []) (hforks : ¬ m.Forks)
    (hfamily : t.family = s.family) (hchildren : t.children = s.children)
    (hup : ∀ fd, ∀ k ∈ t.up fd, s.Given k) (hdown : ∀ fd, ∀ k ∈ t.down fd, s.Given k)
    (htouched : ∀ part ∈ t.touched, part ∈ s.touched ∨
      ∃ k, s.Given k ∧ part.1 = k * BUFFER_SIZE ∧ part.2 ≤ BUFFER_SIZE) :
    Kept raw (moves ++ [m]) t := by
  have hparent : t.parent = s.parent := congrArg Family.parent hfamily
  have hgiven : ∀ k, t.Given k ↔ s.Given k := fun k => by rw [Given, Given, hparent]
  constructor
  · rw [changes_concat, hm, List.append_nil, hfamily]
    exact h.grown
  · rw [count_concat, if_neg hforks, hparent]
    exact h.count
  · rw [hchildren]
    exact fun c hc => (hgiven _).2 (h.idx c hc)
  · exact fun fd k hk => (hgiven k).2 (hup fd k hk)
  · exact fun fd k hk => (hgiven k).2 (hdown fd k hk)
  · intro part hpart
    obtain hold | ⟨k, hk, hrest⟩ := htouched part hpart
    · obtain ⟨k, hk, hrest⟩ := h.touched part hold
      exact ⟨k, (hgiven k).2 hk, hrest⟩
    · exact ⟨k, (hgiven k).2 hk, hrest⟩

theorem Kept.recv (h : Kept raw moves s) (hc : c ∈ s.children) {ret : ℤ} (hret : ret ≤ BUFFER_SIZE - 1) :
    Kept raw (moves ++ [.recv c ret]) (s.recv c ret) := by
  have hidx := h.idx c hc
  have hlen : ret.toNat ≤ BUFFER_SIZE := by
    unfold BUFFER_SIZE at hret ⊢
    omega
  have hcleared : ∀ part ∈ s.touched ++ [(c.idx * (BUFFER_SIZE : ℤ), BUFFER_SIZE)],
      part ∈ s.touched ∨ ∃ k, s.Given k ∧ part.1 = k * BUFFER_SIZE ∧ part.2 ≤ BUFFER_SIZE := by
    intro part hpart
    rcases List.mem_append.1 hpart with hpart | hpart
    · exact .inl hpart
    · rw [List.mem_singleton.1 hpart]
      exact .inr ⟨c.idx, hidx, rfl, le_rfl⟩
  unfold Service.recv
  dsimp only
  split_ifs with hpos
  · refine h.works rfl id rfl rfl (given_update h.up fun k hk => ?_) h.down fun part hpart => ?_
    · rcases List.mem_append.1 hk with hk | hk
      · exact h.up _ k hk
      · rwa [List.mem_singleton.1 hk]
    · rcases List.mem_append.1 hpart with hpart | hpart
      · exact hcleared part hpart
      · rw [List.mem_singleton.1 hpart]
        exact .inr ⟨c.idx, hidx, rfl, hlen⟩
  · exact h.works rfl id rfl rfl h.up h.down hcleared

theorem Kept.relay (h : Kept raw moves s) (sockfd : ℤ) :
    Kept raw (moves ++ [.relay sockfd]) (s.relay sockfd) := by
  unfold Service.relay
  cases hup : s.up sockfd with
  | nil => exact h.works rfl id rfl rfl h.up h.down fun _ => .inl
  | cons child rest =>
    have hread : ∀ k ∈ child :: rest, s.Given k := hup ▸ h.up sockfd
    obtain ⟨hchild, hrest⟩ := List.forall_mem_cons.1 hread
    exact h.works rfl id rfl rfl (given_update h.up hrest) (given_broadcast h.down hchild _ _)
      fun _ => .inl

theorem Kept.send (h : Kept raw moves s) (c : Process) :
    Kept raw (moves ++ [.send c]) (s.send c) := by
  unfold Service.send
  cases hdown : s.down c.pipefd with
  | nil => exact h.works rfl id rfl rfl h.up h.down fun _ => .inl
  | cons client rest =>
    have hread : ∀ k ∈ client :: rest, s.Given k := hdown ▸ h.down c.pipefd
    obtain ⟨hclient, hrest⟩ := List.forall_mem_cons.1 hread
    refine h.works rfl id rfl rfl h.up (given_update h.down hrest) fun part hpart => ?_
    rcases List.mem_append.1 hpart with hpart | hpart
    · exact .inl hpart
    · rw [List.mem_singleton.1 hpart]
      exact .inr ⟨client, hclient, rfl, le_rfl⟩

/-- A change of the family that takes nobody's number back. -/
theorem Kept.changes (h : Kept raw moves s) {e : Change} (hs : Family.Step s.family e t.family)
    (hcount : t.parent.userCount =
      min ((moves ++ [Move.family e]).countP Move.Forks : ℤ) (USER_LIMIT + 1))
    (hle : s.parent.userCount ≤ t.parent.userCount) (hidx : ∀ c ∈ t.children, t.Given c.idx)
    (hup : ∀ fd, ∀ k ∈ t.up fd, s.Given k) (hdown : ∀ fd, ∀ k ∈ t.down fd, s.Given k)
    (htouched : t.touched = s.touched) : Kept raw (moves ++ [.family e]) t := by
  constructor
  · rw [changes_concat]
    exact Family.step_grown h.grown hs
  · exact hcount
  · exact hidx
  · exact fun fd k hk => (hup fd k hk).mono hle
  · exact fun fd k hk => (hdown fd k hk).mono hle
  · rw [htouched]
    intro part hpart
    obtain ⟨k, hk, hrest⟩ := h.touched part hpart
    exact ⟨k, hk.mono hle, hrest⟩

theorem Kept.arrive (h : Kept raw moves s) {a : Arrival} (hnew : s.family.Unused a) :
    Kept raw (moves ++ [.family (.arrive a)]) (s.arrive a) := by
  have hs : Family.Step s.family (.arrive a) (s.arrive a).family := by
    rw [arrive_family]
    exact .arrive hnew
  have hcount := count_concat moves (.family (.arrive a))
  have huser := h.count
  rcases accept_cases s.parent a with ⟨hforks, hroom, hsome, hnext⟩ | ⟨hno, hnone, hsame⟩
  · have hroom' : (moves.countP Move.Forks : ℤ) ≤ USER_LIMIT := by omega
    rw [if_pos (show Move.Forks (.family (.arrive a)) from hforks)] at hcount
    rw [arrive_some hsome] at hs ⊢
    refine h.changes hs ?_ ?_ ?_ (given_update h.up nofun) (given_update h.down nofun) rfl
    · dsimp only
      rw [hnext, hcount]
      push_cast
      omega
    · dsimp only
      omega
    · intro c hc
      rcases List.mem_append.1 hc with hc | hc
      · exact (h.idx c hc).mono (by dsimp only; omega)
      · rw [List.mem_singleton.1 hc]
        exact ⟨by dsimp only; omega, by dsimp only; omega⟩
  · rw [arrive_none hnone] at hs ⊢
    refine h.changes hs ?_ hsame.ge ?_ h.up h.down rfl
    · dsimp only
      rw [hsame, hcount]
      split_ifs with hforks
      · have hforks' : 0 ≤ a.connfd ∧ 0 ≤ a.pid := hforks
        push_cast
        omega
      · exact huser
    · exact fun c hc => (h.idx c hc).mono hsame.ge

theorem Kept.exit (h : Kept raw moves s) {pid : ℤ} (hm : pid ∈ s.family.running) :
    Kept raw (moves ++ [.family (.exit pid)]) (s.exit pid) := by
  have hs : Family.Step s.family (.exit pid) (s.exit pid).family := by
    rw [exit_family]
    exact .exit hm
  refine h.changes hs ?_ le_rfl ?_ h.up h.down rfl
  · rw [count_concat, if_neg (show ¬ Move.Forks (.family (.exit pid)) from id)]
    exact h.count
  · exact fun c hc => h.idx c (List.mem_of_mem_eraseP hc)

/-- The handling of a `SIGCHLD` leaves `user_count` as it is. -/
theorem Kept.sigchld (h : Kept raw moves s) {f : Family} (hh : s.family.Handles f) :
    Kept raw (moves ++ [.family .sigchld]) { s with parent := f.parent, exited := f.exited } := by
  obtain ⟨-, rfl⟩ := (Family.handles_iff h.grown.exited_pos).1 hh
  obtain ⟨-, hsame, -, -⟩ := Family.removeUser_zero h.grown.zero
  refine h.changes (.sigchld hh) ?_ hsame.ge ?_ h.up h.down rfl
  · rw [count_concat, if_neg (show ¬ Move.Forks (.family .sigchld) from id)]
    exact hsame.trans h.count
  · exact fun c hc => (h.idx c hc).mono hsame.ge

theorem step_kept (h : Kept raw moves s) (hs : Step s m t) : Kept raw (moves ++ [m]) t := by
  cases hs with
  | arrive hnew => exact h.arrive hnew
  | exit hm => exact h.exit hm
  | sigchld hh => exact h.sigchld hh
  | recv hc hret => exact h.recv hc hret
  | relay => exact h.relay _
  | send hc => exact h.send _

/-! ## The bounds -/

theorem Kept.inside (h : Kept raw moves s) (hle : moves.countP Move.Forks ≤ USER_LIMIT) : s.Inside := by
  have hcount : s.parent.userCount ≤ USER_LIMIT := by
    have := h.count
    omega
  have hgiven : ∀ k, s.Given k → (k + 1) * BUFFER_SIZE ≤ USER_LIMIT * BUFFER_SIZE := by
    intro k hk
    exact mul_le_mul_of_nonneg_right (hk.2.trans_le hcount) (Int.natCast_nonneg _)
  refine ⟨fun c hc => hgiven _ (h.idx c hc), fun part hpart => ?_⟩
  obtain ⟨k, hk, hstart, hlen⟩ := h.touched part hpart
  have hend := hgiven k hk
  rw [add_mul, one_mul] at hend
  refine ⟨?_, ?_⟩
  · rw [hstart]
    exact mul_nonneg hk.1 (Int.natCast_nonneg _)
  · rw [hstart]
    omega

/-- A child that is forked when `USER_LIMIT` children have been has a part outside. -/
theorem Kept.next_le (h : Kept raw moves s) (hs : Step s m t) (hin : t.Inside)
    (hle : moves.countP Move.Forks ≤ USER_LIMIT) : (moves ++ [m]).countP Move.Forks ≤ USER_LIMIT := by
  rw [count_concat]
  split_ifs with hm
  · cases hs with
    | @arrive a hnew =>
      have huser := h.count
      obtain ⟨-, -, hsome, -⟩ := (accept_cases s.parent a).resolve_right fun hno => hno.1 ⟨hm, by omega⟩
      rw [arrive_some hsome] at hin
      have hidx := hin.idx _ (List.mem_append_right _ (List.mem_singleton_self _))
      unfold BUFFER_SIZE at hidx
      push_cast at hidx ⊢
      omega
    | _ => exact absurd hm id
  · exact hle

end Service

/-- **The bounds of the shared memory.** Through a run the part of every child, and every part of the
shared memory that a child clears, receives into or sends, lie in the bytes that are mapped exactly when
no more than `USER_LIMIT` of its clients get as far as a child; children that exit do not count back. -/
theorem region_bounds {users : ℤ → ClientData} {raw : ℤ → ℤ} {moves : List Move} {s : Service}
    (hr : Run Service.Step (Service.start users raw) moves s) :
    Run.Always Service.Step Service.Inside (Service.start users raw) moves ↔
      moves.countP Move.Forks ≤ USER_LIMIT := by
  constructor
  · intro hall
    refine ((hall.run hr).history (fun moves s => Service.Kept raw moves s ∧
      moves.countP Move.Forks ≤ USER_LIMIT) ⟨Service.kept_start users raw, by decide⟩ ?_).2
    rintro moves s m t ⟨h, hle⟩ ⟨hs, hin⟩
    exact ⟨Service.step_kept h hs, h.next_le hs hin hle⟩
  · intro hle pre t hpre hrun
    have h := hrun.history (Service.Kept raw) (Service.kept_start users raw)
      fun _ _ _ _ h hs => Service.step_kept h hs
    have hcount := hpre.sublist.countP_le (p := fun m => decide (Move.Forks m))
    exact h.inside (by omega)

def Service.blank : Service := .start (fun _ => ⟨0, 0, (0, 0)⟩) fun _ => -1

/-- The next client of the blank service, the `i`-th. -/
def nth (i : ℕ) : Arrival := ⟨7, (8 + i, 9 + i), 100 + i⟩

/-- The first `n` clients arrive. -/
def arrivals (n : ℕ) : List Move := (List.range n).map fun i => .family (.arrive (nth i))

def Service.after (n : ℕ) : Service := (List.range n).foldl (fun s i => s.arrive (nth i)) .blank

theorem after_succ (n : ℕ) : Service.after (n + 1) = (Service.after n).arrive (nth n) := by
  unfold Service.after
  rw [List.range_succ, List.foldl_append]
  rfl

theorem arrivals_run (n : ℕ) : Run Service.Step .blank (arrivals n) (.after n) ∧
    (∀ pid ∈ (Service.after n).family.running, pid < 100 + n) ∧ (Service.after n).exited = [] := by
  induction n with
  | zero => exact ⟨.nil _, nofun, rfl⟩
  | succ n ih =>
    obtain ⟨hr, hpids, hexited⟩ := ih
    have hunused : (Service.after n).family.Unused (nth n) := by
      refine fun _ => ⟨?_, fun hm => ?_, ?_⟩
      · show (0 : ℤ) < 100 + n
        omega
      · exact absurd (hpids _ hm) (lt_irrefl _)
      · show _ ∉ (Service.after n).exited
        rw [hexited]
        exact List.not_mem_nil
    have hfamily := Service.arrive_family (Service.after n) (nth n)
    rw [after_succ]
    refine ⟨?_, ?_, ?_⟩
    · rw [arrivals, List.range_succ, List.map_append]
      exact hr.append (.single (.arrive hunused))
    · rw [hfamily]
      intro pid hm
      have hold : ∀ pid ∈ (Service.after n).family.running, pid < 100 + ((n + 1 : ℕ) : ℤ) := by
        intro pid hm
        have := hpids pid hm
        omega
      rcases List.mem_append.1 hm with hm | hm
      · exact hold pid hm
      · obtain ⟨-, -, rfl⟩ := List.mem_map.1 hm
        show (100 + n : ℤ) < _
        omega
    · exact (congrArg Family.exited hfamily).trans hexited

/-- Five clients; the last one's message goes to the first. -/
theorem region_bounds_five : Run.Always Service.Step Service.Inside .blank
    (arrivals 5 ++ [.recv ⟨104, 4, 12⟩ 2, .relay 12, .send ⟨100, 0, 8⟩]) := by
  have hr : Run Service.Step (Service.after 5) [.recv ⟨104, 4, 12⟩ 2, .relay 12, .send ⟨100, 0, 8⟩]
      ((((Service.after 5).recv ⟨104, 4, 12⟩ 2).relay 12).send ⟨100, 0, 8⟩) :=
    .cons (.recv (by decide) (by decide)) (.cons .relay (.single (.send (by decide))))
  exact (region_bounds ((arrivals_run 5).1.append hr)).2 (by decide)

/-- The sixth client is accepted, and what it says is received behind the mapped bytes. -/
theorem sixth_outside : ¬ ∀ (users : ℤ → ClientData) (raw : ℤ → ℤ) (moves : List Move) (s : Service),
    Run Service.Step (Service.start users raw) moves s →
      Run.Always Service.Step Service.Inside (Service.start users raw) moves := by
  intro hall
  have hr : Run Service.Step .blank (arrivals 6 ++ [.recv ⟨105, 5, 13⟩ 2])
      ((Service.after 6).recv ⟨105, 5, 13⟩ 2) :=
    (arrivals_run 6).1.append (.single (.recv (by decide) (by decide)))
  have hin := hall _ _ _ _ hr _ _ List.prefix_rfl hr
  have hpart : ((5120 : ℤ), 1024) ∈ ((Service.after 6).recv ⟨105, 5, 13⟩ 2).touched := by decide
  exact absurd (hin.touched _ hpart) (by unfold Service.Mapped; decide)

end SocketTest.ShmTest
