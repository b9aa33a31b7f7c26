import SocketTest.ShmTest.Region

/-!
# Slots of the shared memory

A child keeps the `idx` that it was forked with, which is `user_count` at that time. No exit ever takes
a client out of the tables, so the numbers go up from one child to the next, whoever has exited in
between: `slots_exclusive`.
-/

namespace SocketTest.ShmTest

open SocketTest.Lib

namespace Service

/-- The parts that a child writes when it receives. -/
def written (s : Service) (c : Process) (ret : ℤ) : List (ℤ × ℕ) :=
  (s.recv c ret).touched.drop s.touched.length

/-- The bytes of a part. -/
def bytesOf (part : ℤ × ℕ) : Set ℤ := Set.Ico part.1 (part.1 + part.2)

/-- No two live children have one `idx`, and what one of them writes, whenever it receives, lies apart
from what the other writes. -/
structure Exclusive (s : Service) : Prop where
  idx : s.children.Pairwise fun c d => c.idx ≠ d.idx
  writes : s.children.Pairwise fun c d => ∀ (s₁ s₂ : Service) (ret ret' : ℤ),
    ret ≤ BUFFER_SIZE - 1 → ret' ≤ BUFFER_SIZE - 1 → ∀ part ∈ s₁.written c ret,
      ∀ part' ∈ s₂.written d ret', ∀ b ∈ bytesOf part, b ∉ bytesOf part'

/-- The children in the order of their numbers, all of which have been given out. -/
structure Numbered (s : Service) : Prop where
  sorted : s.children.Pairwise fun c d => c.idx < d.idx
  idx_lt : ∀ c ∈ s.children, c.idx < s.parent.userCount

variable {s t : Service} {m : Move} {moves : List Move} {raw : ℤ → ℤ} {c d : Process} {ret : ℤ}

/-! ## What a child writes -/

theorem recv_touched (s : Service) (c : Process) (ret : ℤ) : (s.recv c ret).touched = s.touched ++
    (c.idx * (BUFFER_SIZE : ℤ), BUFFER_SIZE) ::
      if 0 < ret then [(c.idx * (BUFFER_SIZE : ℤ), ret.toNat)] else [] := by
  unfold recv
  dsimp only
  split_ifs with hret
  · exact List.append_assoc _ _ _
  · rfl

/-- A child writes in its own part. -/
theorem bytes_written (hret : ret ≤ BUFFER_SIZE - 1) {part : ℤ × ℕ} (h : part ∈ s.written c ret) :
    bytesOf part ⊆ bytesOf (c.idx * BUFFER_SIZE, BUFFER_SIZE) := by
  rw [written, recv_touched, List.drop_left] at h
  rcases List.mem_cons.1 h with rfl | h
  · exact Set.Subset.rfl
  · split_ifs at h with hpos
    · obtain rfl := List.mem_singleton.1 h
      refine Set.Ico_subset_Ico_right ?_
      show _ + (ret.toNat : ℤ) ≤ _ + (BUFFER_SIZE : ℤ)
      omega
    · exact absurd h List.not_mem_nil

theorem parts_apart (h : c.idx < d.idx) {b : ℤ}
    (hb : b ∈ bytesOf (c.idx * BUFFER_SIZE, BUFFER_SIZE)) :
    b ∉ bytesOf (d.idx * BUFFER_SIZE, BUFFER_SIZE) := by
  intro hb'
  have hlt : b < c.idx * (BUFFER_SIZE : ℤ) + (BUFFER_SIZE : ℕ) := hb.2
  have hle : d.idx * (BUFFER_SIZE : ℤ) ≤ b := hb'.1
  unfold BUFFER_SIZE at hlt hle
  omega

theorem Numbered.exclusive (h : s.Numbered) : s.Exclusive := by
  refine ⟨h.sorted.imp fun hlt => hlt.ne, h.sorted.imp fun hlt s₁ s₂ ret ret' hret hret' => ?_⟩
  intro part hpart part' hpart' b hb hb'
  exact parts_apart hlt (bytes_written hret hpart hb) (bytes_written hret' hpart' hb')

/-! ## The numbers -/

theorem Numbered.of_sublist (h : s.Numbered) (hchildren : t.children.Sublist s.children)
    (hle : s.parent.userCount ≤ t.parent.userCount) : t.Numbered :=
  ⟨h.sorted.sublist hchildren, fun c hc => (h.idx_lt c (hchildren.subset hc)).trans_le hle⟩

/-- A new child gets the next number. -/
theorem Numbered.arrive (h : s.Numbered) (a : Arrival) : (s.arrive a).Numbered := by
  rcases accept_cases s.parent a with ⟨-, -, hsome, hnext⟩ | ⟨-, hnone, hsame⟩
  · rw [arrive_some hsome]
    constructor
    · refine List.pairwise_append.2 ⟨h.sorted, List.pairwise_singleton _ _, fun c hc d hd => ?_⟩
      rw [List.mem_singleton.1 hd]
      exact h.idx_lt c hc
    · intro c hc
      dsimp only
      rw [hnext]
      rcases List.mem_append.1 hc with hc | hc
      · exact (h.idx_lt c hc).trans (lt_add_one _)
      · rw [List.mem_singleton.1 hc]
        exact lt_add_one _
  · rw [arrive_none hnone]
    exact h.of_sublist (.refl _) hsame.ge

theorem Numbered.step (h : s.Numbered) (hk : Kept raw moves s) (hs : Step s m t) : t.Numbered := by
  cases hs with
  | arrive _ => exact h.arrive _
  | exit _ => exact h.of_sublist List.eraseP_sublist le_rfl
  | @sigchld f hh =>
    -- the block is run for pid 0, and leaves `user_count` as it is
    obtain ⟨-, rfl⟩ := (Family.handles_iff hk.grown.exited_pos).1 hh
    obtain ⟨-, hsame, -, -⟩ := Family.removeUser_zero hk.grown.zero
    exact h.of_sublist (.refl _) hsame.ge
  | recv _ _ =>
    unfold Service.recv
    dsimp only
    split_ifs <;> exact h.of_sublist (.refl _) le_rfl
  | @relay sockfd =>
    unfold Service.relay
    cases s.up sockfd <;> exact h.of_sublist (.refl _) le_rfl
  | @send c _ =>
    unfold Service.send
    cases s.down c.pipefd <;> exact h.of_sublist (.refl _) le_rfl

end Service

/-- **The slots of the shared memory.** In every run of the server and its children no two live children
have one `idx`, nor write to one part of the shared memory. -/
theorem slots_exclusive {users : ℤ → ClientData} {raw : ℤ → ℤ} {moves : List Move} {s : Service}
    (hr : Run Service.Step (Service.start users raw) moves s) : s.Exclusive := by
  have h : Service.Kept raw moves s ∧ s.Numbered := by
    refine hr.history (fun moves s => Service.Kept raw moves s ∧ s.Numbered)
      ⟨Service.kept_start users raw, List.Pairwise.nil, nofun⟩ ?_
    exact fun _ _ _ _ h hs => ⟨Service.step_kept h.1 hs, h.2.step h.1 hs⟩
  exact h.2.exclusive

/-- The first of two clients leaves, and the next one gets a slot of its own. -/
theorem slots_exclusive_three : ∃ s : Service, s.children = [⟨101, 1, 9⟩, ⟨102, 2, 10⟩] ∧
    s.Exclusive := by
  have hexit : Run Service.Step (Service.after 2) [.family (.exit 100)] ((Service.after 2).exit 100) :=
    .single (.exit (by decide))
  have hsigchld : Service.Step ((Service.after 2).exit 100) (.family .sigchld) _ :=
    .sigchld ((Family.handles_iff (by decide)).2 ⟨by decide, rfl⟩)
  have harrive := Service.Step.arrive
    (s := { (Service.after 2).exit 100 with
      parent := ((Service.after 2).exit 100).parent.removeUser 0
      exited := [] }) (a := nth 2) fun _ => by decide
  exact ⟨_, by decide,
    slots_exclusive ((((arrivals_run 2).1.append hexit).append (.single hsigchld)).append
      (.single harrive))⟩

end SocketTest.ShmTest
