import SocketTest.Lib.Loop
import Mathlib.Data.List.Sort

/-!
# Draining a priority queue

A queue of any representation is read through `least` and shortened by `pop` until it is `empty`.
`Pops` says what the three must do to the keys of the queue; `drain_ends` then gives the sequence of
keys read, which is the queue's keys in order. Two queues of the same keys are drained to the same
sequence, whatever their layouts (`drain_same`).
-/

namespace SocketTest.Lib.Drain

open Loop

variable {σ K : Type*}

/-- One round: the keys read so far with the queue left. -/
def round (empty : σ → Bool) (least : σ → K) (pop : σ → σ) (s : σ × List K) :
    List K ⊕ (σ × List K) :=
  if empty s.1 then .inl s.2 else .inr (pop s.1, s.2 ++ [least s.1])

section Rounds

variable {empty : σ → Bool} {least : σ → K} {pop : σ → σ} {s : σ}

theorem round_empty (he : empty s = true) (seen : List K) :
    round empty least pop (s, seen) = .inl seen := by
  unfold round
  rw [if_pos he]

theorem round_next (he : empty s = false) (seen : List K) :
    round empty least pop (s, seen) = .inr (pop s, seen ++ [least s]) := by
  unfold round
  rw [if_neg (by simp [he])]

end Rounds

/-- On the queues that satisfy `I` the key read is a least one and `pop` takes it out. -/
structure Pops [LE K] (empty : σ → Bool) (least : σ → K) (pop : σ → σ) (keys : σ → List K)
    (I : σ → Prop) : Prop where
  keys_eq_nil : ∀ s, I s → empty s = true → keys s = []
  kept : ∀ s, I s → empty s = false → I (pop s)
  perm : ∀ s, I s → empty s = false → (least s :: keys (pop s)).Perm (keys s)
  least_le : ∀ s, I s → empty s = false → ∀ k ∈ keys s, least s ≤ k

section Preorder

variable [LE K] {empty : σ → Bool} {least : σ → K} {pop : σ → σ} {keys : σ → List K} {I : σ → Prop}

/-- Draining ends, and reads every key of the queue in order. -/
theorem drain_ends (hp : Pops empty least pop keys I) {s : σ} (hI : I s) (seen : List K) :
    ∃ ks, Ends (round empty least pop) (s, seen) (seen ++ ks) ∧ ks.Pairwise (· ≤ ·) ∧
      ks.Perm (keys s) := by
  -- the number of keys left goes down in every round
  induction hn : (keys s).length generalizing s seen with
  | zero =>
    have he : empty s = true := by
      by_contra hne
      have := (hp.perm s hI (by simpa using hne)).length_eq
      rw [hn] at this
      cases this
    refine ⟨[], (ends_exit (round_empty he seen)).mpr (List.append_nil _), List.Pairwise.nil, ?_⟩
    rw [List.length_eq_zero_iff.mp hn]
  | succ n ih =>
    have he : empty s = false := by
      by_contra hne
      rw [hp.keys_eq_nil s hI (by simpa using hne)] at hn
      cases hn
    have hperm := hp.perm s hI he
    have hlen := hperm.length_eq
    rw [hn, List.length_cons] at hlen
    obtain ⟨ks, hends, hsorted, hks⟩ := ih (hp.kept s hI he) (seen ++ [least s]) (by omega)
    rw [List.append_assoc] at hends
    refine ⟨least s :: ks, (ends_round (round_next he seen)).mpr hends,
      List.pairwise_cons.mpr ⟨fun k hk => ?_, hsorted⟩, (hks.cons _).trans hperm⟩
    exact hp.least_le s hI he k (hperm.subset (List.mem_cons_of_mem _ (hks.subset hk)))

end Preorder

/-- Queues of the same keys are drained to the same sequence. -/
theorem drain_same [PartialOrder K] {empty : σ → Bool} {least : σ → K} {pop : σ → σ}
    {keys : σ → List K} {I : σ → Prop} (hp : Pops empty least pop keys I) {s t : σ} (hs : I s)
    (ht : I t) (hst : (keys s).Perm (keys t)) :
    ∃ ks, Ends (round empty least pop) (s, []) ks ∧ Ends (round empty least pop) (t, []) ks ∧
      ks.Pairwise (· ≤ ·) ∧ ks.Perm (keys s) := by
  obtain ⟨ks, hks, hsorted, hperm⟩ := drain_ends hp hs []
  obtain ⟨ls, hls, hsorted', hperm'⟩ := drain_ends hp ht []
  have heq : ls = ks :=
    ((hperm'.trans hst.symm).trans hperm.symm).eq_of_pairwise
      (fun a b _ _ hab hba => le_antisymm hab hba) hsorted' hsorted
  rw [heq] at hls
  exact ⟨ks, hks, hls, hsorted, hperm⟩

end SocketTest.Lib.Drain
