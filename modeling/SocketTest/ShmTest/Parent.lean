import SocketTest.Lib.Memory
import SocketTest.Lib.SwapRemove

/-!
# The tables of `shm_test`

The parent of the chat over shared memory keeps a table of its clients, `users`, and the place of each
child in it, `sub_process`, by pid (`multi process/shm_test.cc`). Both are arrays; an access outside one
is recorded in `faults`, and what stands there is read and written like the rest.
-/

namespace SocketTest.ShmTest

open SocketTest.Lib

def USER_LIMIT : ℤ := 5
def BUFFER_SIZE : ℕ := 1024
def PROCESS_LIMIT : ℤ := 65535

/-- `client_data`. -/
structure ClientData where
  connfd : ℤ
  pid : ℤ
  pipefd : ℤ × ℤ
  deriving DecidableEq, Repr

structure Parent where
  users : ℤ → ClientData
  subProcess : ℤ → ℤ
  userCount : ℤ
  terminate : Bool
  stopServer : Bool
  faults : List Fault

/-- What `accept`, `socketpair` and `fork` give the parent for a connection. -/
structure Arrival where
  connfd : ℤ
  pipefd : ℤ × ℤ
  pid : ℤ
  deriving DecidableEq, Repr

namespace Arrival

/-- A child is forked for the connection while `live` children are running. -/
def Forks (a : Arrival) (live : ℕ) : Prop := 0 ≤ a.connfd ∧ live ≤ USER_LIMIT ∧ 0 ≤ a.pid

instance decidableForks (a : Arrival) (live : ℕ) : Decidable (a.Forks live) :=
  inferInstanceAs (Decidable (_ ∧ _))

end Arrival

namespace Parent

/-- An access to entry `i` of an array with `n` entries. -/
def access (p : Parent) (n i : ℤ) : Parent :=
  if 0 ≤ i ∧ i < n then p else { p with faults := p.faults ++ [.outOfBounds i] }

/-- `users[i] = data`. -/
def setUser (p : Parent) (i : ℤ) (data : ClientData) : Parent :=
  { p.access (USER_LIMIT + 1) i with users := Function.update p.users i data }

/-- `sub_process[pid] = i`. -/
def setProcess (p : Parent) (pid i : ℤ) : Parent :=
  { p.access (PROCESS_LIMIT + 1) pid with subProcess := Function.update p.subProcess pid i }

/-- Before the first client. The loop that fills `sub_process` leaves the last entry out; `raw` and
`users` are what the arrays hold. -/
def start (users : ℤ → ClientData) (raw : ℤ → ℤ) : Parent where
  users := users
  subProcess := fun pid => if 0 ≤ pid ∧ pid < PROCESS_LIMIT then -1 else raw pid
  userCount := 0
  terminate := false
  stopServer := false
  faults := []

/-- The branch of `listenfd`, with the `idx` that a new child is forked with. -/
def accept (p : Parent) (a : Arrival) : Parent × Option ℤ :=
  if a.connfd < 0 then (p, none)
  else if USER_LIMIT < p.userCount then (p, none)
  else
    let i := p.userCount
    let p₁ := p.setUser i { p.users i with connfd := a.connfd, pipefd := a.pipefd }
    if a.pid < 0 then (p₁, none)
    else
      let p₂ := p₁.setUser i { p₁.users i with pid := a.pid }
      ({ p₂.setProcess a.pid i with userCount := i + 1 }, some i)

/-- The block behind the `waitpid` loop, for the pid that the loop leaves. `continue` goes on with the
next signal. -/
def removeUser (p : Parent) (pid : ℤ) : Parent :=
  let delUser := p.subProcess pid
  let p₁ := p.setProcess pid (-1)
  if delUser < 0 ∨ USER_LIMIT < delUser then p₁
  else
    let last := p.userCount - 1
    let p₂ : Parent := { (p₁.access (USER_LIMIT + 1) last).setUser delUser (p.users last) with
      userCount := last }
    let p₃ := p₂.setProcess (p₂.users delUser).pid delUser
    if p₃.terminate ∧ p₃.userCount = 0 then { p₃ with stopServer := true } else p₃

variable {p : Parent} {a : Arrival} {pid : ℤ}

@[simp] theorem access_users (p : Parent) (n i : ℤ) : (p.access n i).users = p.users := by
  unfold access; split_ifs <;> rfl

@[simp] theorem access_subProcess (p : Parent) (n i : ℤ) :
    (p.access n i).subProcess = p.subProcess := by
  unfold access; split_ifs <;> rfl

@[simp] theorem access_userCount (p : Parent) (n i : ℤ) :
    (p.access n i).userCount = p.userCount := by
  unfold access; split_ifs <;> rfl

@[simp] theorem setUser_users (p : Parent) (i : ℤ) (data : ClientData) :
    (p.setUser i data).users = Function.update p.users i data := rfl

@[simp] theorem setUser_subProcess (p : Parent) (i : ℤ) (data : ClientData) :
    (p.setUser i data).subProcess = p.subProcess := by simp [setUser]

@[simp] theorem setUser_userCount (p : Parent) (i : ℤ) (data : ClientData) :
    (p.setUser i data).userCount = p.userCount := by simp [setUser]

@[simp] theorem setProcess_users (p : Parent) (pid i : ℤ) : (p.setProcess pid i).users = p.users := by
  simp [setProcess]

@[simp] theorem setProcess_subProcess (p : Parent) (pid i : ℤ) :
    (p.setProcess pid i).subProcess = Function.update p.subProcess pid i := rfl

@[simp] theorem setProcess_userCount (p : Parent) (pid i : ℤ) :
    (p.setProcess pid i).userCount = p.userCount := by simp [setProcess]

theorem access_faults {n i : ℤ} :
    (p.access n i).faults = [] ↔ p.faults = [] ∧ 0 ≤ i ∧ i < n := by
  unfold access
  split_ifs with hin
  · exact (and_iff_left hin).symm
  · simp [hin]

theorem setUser_faults {i : ℤ} {data : ClientData} :
    (p.setUser i data).faults = [] ↔ p.faults = [] ∧ 0 ≤ i ∧ i < USER_LIMIT + 1 := access_faults

theorem setProcess_faults {i : ℤ} :
    (p.setProcess pid i).faults = [] ↔ p.faults = [] ∧ 0 ≤ pid ∧ pid < PROCESS_LIMIT + 1 :=
  access_faults

/-! ## The two tables -/

/-- The pids in the table. -/
def pidAt (p : Parent) (k : ℕ) : ℤ := (p.users k).pid

/-- The table lists the children `pids`, each once, and `sub_process` gives the place of each. -/
structure Lists (p : Parent) (pids : List ℤ) : Prop where
  userCount : p.userCount = pids.length
  perm : (SwapRemove.entries p.pidAt pids.length).Perm pids
  nodup : pids.Nodup
  position : ∀ i < pids.length, p.subProcess (p.pidAt i) = i

theorem Lists.start (users : ℤ → ClientData) (raw : ℤ → ℤ) : Lists (Parent.start users raw) [] :=
  ⟨rfl, List.Perm.refl _, List.nodup_nil, fun i hi => absurd hi (Nat.not_lt_zero i)⟩

/-- A new table with the same entries below `user_count`. -/
theorem Lists.congr {p' : Parent} {pids : List ℤ} (h : Lists p pids)
    (hcount : p'.userCount = p.userCount) (hpid : ∀ i < pids.length, p'.pidAt i = p.pidAt i)
    (hpos : p'.subProcess = p.subProcess) : Lists p' pids := by
  constructor
  · rw [hcount, h.userCount]
  · rw [SwapRemove.entries_congr hpid]
    exact h.perm
  · exact h.nodup
  · intro i hi
    rw [hpos, hpid i hi]
    exact h.position i hi

theorem accept_none {pids : List ℤ} (h : Lists p pids) (hf : ¬ a.Forks pids.length) :
    (p.accept a).2 = none ∧ Lists (p.accept a).1 pids := by
  unfold accept
  split_ifs with hfd hfull hpid
  · exact ⟨rfl, h⟩
  · exact ⟨rfl, h⟩
  · refine ⟨rfl, h.congr (by simp) (fun i hi => ?_) (by simp)⟩
    have hne : (i : ℤ) ≠ p.userCount := by
      rw [h.userCount]
      omega
    simp [pidAt, Function.update_of_ne hne]
  · have hcount := h.userCount
    refine absurd ⟨by omega, by omega, by omega⟩ hf

/-- A new child has the next place. -/
theorem accept_some {pids : List ℤ} (h : Lists p pids) (hf : a.Forks pids.length)
    (hnew : a.pid ∉ pids) :
    (p.accept a).2 = some (pids.length : ℤ) ∧ Lists (p.accept a).1 (pids ++ [a.pid]) := by
  obtain ⟨hfd, hroom, hpid⟩ := hf
  have hcount := h.userCount
  unfold accept
  rw [if_neg (by omega), if_neg (by omega)]
  dsimp only
  rw [if_neg (by omega), hcount]
  refine ⟨rfl, ?_⟩
  have hlen : (pids ++ [a.pid]).length = pids.length + 1 := by simp
  have hold : ∀ i < pids.length, p.pidAt i ≠ a.pid := by
    intro i hi he
    exact hnew (he ▸ h.perm.subset (SwapRemove.mem_entries.2 ⟨i, hi, rfl⟩))
  constructor
  · rw [hlen]
    push_cast
    rfl
  · rw [hlen, SwapRemove.entries_succ]
    apply List.Perm.append
    · rw [SwapRemove.entries_congr (g := p.pidAt)]
      · exact h.perm
      · intro i hi
        have hne : (i : ℤ) ≠ pids.length := by omega
        simp [pidAt, Function.update_of_ne hne]
    · simp [pidAt]
  · rw [List.nodup_append]
    refine ⟨h.nodup, List.nodup_singleton _, ?_⟩
    rintro pid hm pid' hm' rfl
    exact hnew (List.mem_singleton.1 hm' ▸ hm)
  · intro i hi
    rw [hlen] at hi
    by_cases hin : i = pids.length
    · subst hin
      simp [pidAt]
    · have hne : (i : ℤ) ≠ pids.length := by omega
      have hp := hold i (by omega)
      simp only [pidAt] at hp
      simp only [pidAt, setProcess_subProcess, setProcess_users, setUser_users, setUser_subProcess,
        Function.update_of_ne hne, Function.update_of_ne hp]
      exact h.position i (by omega)

/-- What the tables hold behind the block when it does not go on with the next signal. -/
theorem removeUser_tables {k last : ℤ} (hk : p.subProcess pid = k) (h0 : 0 ≤ k) (h5 : k ≤ USER_LIMIT)
    (hlast : p.userCount - 1 = last) : (p.removeUser pid).userCount = last ∧
      (p.removeUser pid).users = Function.update p.users k (p.users last) ∧
      (p.removeUser pid).subProcess =
        Function.update (Function.update p.subProcess pid (-1)) (p.users last).pid k := by
  unfold removeUser
  dsimp only
  rw [hk, if_neg (by omega)]
  simp only [hlast, setProcess_userCount, setProcess_users, setUser_users, access_users]
  split_ifs <;> simp

/-- For a child in the table: its entry goes, and the last one takes its place. -/
theorem removeUser_spec {pids : List ℤ} (h : Lists p pids) (hroom : pids.length ≤ USER_LIMIT + 1)
    (hpid : pid ∈ pids) : Lists (p.removeUser pid) (pids.erase pid) := by
  obtain ⟨k, hk, hat⟩ := SwapRemove.mem_entries.1 (h.perm.symm.subset hpid)
  obtain ⟨n, hn⟩ : ∃ n, pids.length = n + 1 := ⟨pids.length - 1, by omega⟩
  have hlen : (pids.erase pid).length = n := by rw [List.length_erase_of_mem hpid, hn]; rfl
  have hdel : p.subProcess pid = k := by rw [← hat, h.position k hk]
  have hlast : p.userCount - 1 = n := by rw [h.userCount, hn]; push_cast; omega
  obtain ⟨hcount, husers, hproc⟩ := removeUser_tables hdel (by omega) (by omega) hlast
  have hpids : (p.removeUser pid).pidAt = SwapRemove.moveLast p.pidAt n k := by
    funext i
    unfold pidAt SwapRemove.moveLast
    rw [husers]
    by_cases hik : i = k
    · rw [hik, Function.update_self, Function.update_self]
    · rw [Function.update_of_ne hik, Function.update_of_ne (by omega)]
  have hpos : (p.removeUser pid).subProcess =
      Function.update (Function.update p.subProcess (p.pidAt k) (-1)) (p.pidAt n) k := by
    rw [hproc, hat]
    rfl
  have hnd : (SwapRemove.entries p.pidAt (n + 1)).Nodup := by
    rw [← hn]
    exact h.perm.nodup_iff.2 h.nodup
  have hperm := SwapRemove.entries_moveLast (f := p.pidAt) (n := n) (k := k) (by omega)
  constructor
  · rw [hcount, hlen]
  · rw [hlen, hpids]
    rw [← hn] at hperm
    have := (hperm.trans h.perm).erase pid
    rwa [hat, List.erase_cons_head] at this
  · exact h.nodup.erase pid
  · intro i hi
    rw [hlen] at hi
    rw [hpos, hpids]
    have := SwapRemove.position_moveLast hnd (fun i hi => h.position i (by omega))
      (by omega : k ≤ n) (-1) i hi
    rwa [SwapRemove.moveLast, Function.update_self] at this

end Parent

end SocketTest.ShmTest
