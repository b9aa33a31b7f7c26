import SocketTest.Lib.Loop
import SocketTest.Lib.Run

/-!
# Round robin

`n` parties in a circle, some of them live; a cursor says where the next turn starts looking.

1. The scan goes round the circle once (`ends_scan`) and finds the first live party from the cursor,
   or nobody.
2. Between two turns of one party every other party that stays live has exactly one turn
   (`Turn.fair`), however many drop out meanwhile.
-/

namespace SocketTest.Lib.RoundRobin

open SocketTest.Lib

variable {alive : ℕ → Prop} {n c d i : ℕ}

/-- How far `x` is ahead of `c` in a circle of `n`. -/
def ahead (n c x : ℕ) : ℕ := if c ≤ x then x - c else x + n - c

@[simp] theorem ahead_self (n c : ℕ) : ahead n c c = 0 := by simp [ahead]

/-- The next place in the circle. -/
def next (n i : ℕ) : ℕ := (i + 1) % n

theorem next_eq (h : i < n) : next n i = if i + 1 = n then 0 else i + 1 := by
  unfold next
  split_ifs with hi
  · rw [hi, Nat.mod_self]
  · exact Nat.mod_eq_of_lt (by omega)

theorem next_lt (h : i < n) : next n i < n := Nat.mod_lt _ (by omega)

/-- `i` is the first live party from `c` on. -/
structure First (alive : ℕ → Prop) (n c i : ℕ) : Prop where
  lt : i < n
  live : alive i
  le : ∀ x < n, alive x → ahead n c i ≤ ahead n c x

/-! Seen from the place behind `c`, a turn of `i` that the cursor `u` comes to before `c`. -/

theorem ahead_next (hc : c < n) (hi : i < n) (hic : i ≠ c) :
    ahead n (next n c) (next n i) = ahead n (next n c) i + 1 := by
  rw [next_eq hc, next_eq hi]
  unfold ahead
  split_ifs <;> omega

theorem not_ahead_lt {u : ℕ} (hc : c < n) (hu : u < n) (h : ahead n u i ≤ ahead n u c) :
    ¬ ahead n (next n c) i < ahead n (next n c) u := by
  rw [next_eq hc]
  unfold ahead at h ⊢
  split_ifs at h ⊢ <;> omega

/-- Between the cursor and `i` nobody is passed who is no less ahead than `i`. -/
theorem ahead_lt_iff {u : ℕ} (hc : c < n) (hu : u < n) (hi : i < n) (h : ahead n u i ≤ ahead n u c)
    (hd : d < n) (hdi : d ≠ i) (hled : ahead n u i ≤ ahead n u d) :
    ahead n (next n c) d < ahead n (next n c) u ↔
      ahead n (next n c) d < ahead n (next n c) i + 1 := by
  rw [next_eq hc]
  unfold ahead at h hled ⊢
  split_ifs at h hled ⊢ <;> omega

/-! ## The scan -/

/-- A round of `do { if alive i break; i = next i } while (i != start)`. -/
def scan (alive : ℕ → Prop) [DecidablePred alive] (n start i : ℕ) : ℕ ⊕ ℕ :=
  if alive i then .inl i else if next n i = start then .inl (next n i) else .inr (next n i)

/-- What the scan leaves with: the first live party, or the start when nobody is live. -/
def Found (alive : ℕ → Prop) (n start i : ℕ) : Prop :=
  First alive n start i ∨ i = start ∧ ∀ x < n, ¬ alive x

variable [DecidablePred alive]

/-- From where all parties before are dead, the scan ends. -/
theorem ends_scan_from (hc : c < n) :
    ∀ k i, i < n → ahead n c i + k = n → (∀ x < n, ahead n c x < ahead n c i → ¬ alive x) →
      ∃ j, Loop.Ends (scan alive n c) i j ∧ Found alive n c j := by
  intro k
  induction k with
  | zero =>
    intro i hi hk _
    unfold ahead at hk
    split_ifs at hk <;> omega
  | succ k ih =>
    intro i hi hk hdead
    by_cases hlive : alive i
    · have hexit : scan alive n c i = .inl i := if_pos hlive
      refine ⟨i, (Loop.ends_exit hexit).2 rfl, .inl ⟨hi, hlive, ?_⟩⟩
      intro x hx hxl
      exact not_lt.1 fun hlt => hdead x hx hlt hxl
    · -- the places up to the next one are dead
      have hpassed : ∀ x < n, ahead n c x < ahead n c i + 1 → ¬ alive x := by
        intro x hx hlt hxl
        have hxi : x = i := by
          by_contra hne
          apply hdead x hx _ hxl
          unfold ahead at hlt ⊢
          split_ifs at hlt ⊢ <;> omega
        exact hlive (hxi ▸ hxl)
      have hnext : next n i = if i + 1 = n then 0 else i + 1 := next_eq hi
      by_cases hback : next n i = c
      · have hexit : scan alive n c i = .inl (next n i) := by
          rw [scan, if_neg hlive, if_pos hback]
        refine ⟨next n i, (Loop.ends_exit hexit).2 rfl, .inr ⟨hback, ?_⟩⟩
        intro x hx
        apply hpassed x hx
        rw [hnext] at hback
        unfold ahead
        split_ifs at hback ⊢ <;> omega
      · have hround : scan alive n c i = .inr (next n i) := by
          rw [scan, if_neg hlive, if_neg hback]
        have hahead : ahead n c (next n i) = ahead n c i + 1 := by
          rw [hnext] at hback ⊢
          unfold ahead
          split_ifs at hback ⊢ <;> omega
        obtain ⟨j, hj, hfound⟩ := ih (next n i) (next_lt hi) (by omega) (by rwa [hahead])
        exact ⟨j, (Loop.ends_round hround).2 hj, hfound⟩

theorem ends_scan (hc : c < n) : ∃ j, Loop.Ends (scan alive n c) c j ∧ Found alive n c j := by
  apply ends_scan_from hc n c hc (by rw [ahead_self, Nat.zero_add])
  intro x _ hlt
  rw [ahead_self] at hlt
  exact absurd hlt (Nat.not_lt_zero _)

theorem found_of_ends (hc : c < n) (h : Loop.Ends (scan alive n c) c i) : Found alive n c i := by
  obtain ⟨j, hj, hfound⟩ : ∃ j, Loop.Ends (scan alive n c) c j ∧ Found alive n c j := ends_scan hc
  rwa [h.unique hj]

/-! ## Turns -/

structure Turns where
  live : ℕ → Prop
  cursor : ℕ

/-- A turn of the first live party, or some parties dropping out. -/
inductive Turn (n : ℕ) : Turns → Option ℕ → Turns → Prop
  | take {t : Turns} {i : ℕ} : First t.live n t.cursor i →
      Turn n t (some i) ⟨t.live, next n i⟩
  | drop {t t' : Turns} : (∀ x, t'.live x → t.live x) → t'.cursor = t.cursor → Turn n t none t'

variable {t t' : Turns} {a : Option ℕ} {as : List (Option ℕ)}

/-- Since a turn of `c`, with none of `c`'s after it, exactly the parties that the cursor has passed
have had a turn. -/
def Passed (n c : ℕ) (as : List (Option ℕ)) (t : Turns) : Prop :=
  t.cursor < n ∧ (t.live c → some c ∉ as → ∀ d < n, d ≠ c → t.live d →
    as.count (some d) = if ahead n (next n c) d < ahead n (next n c) t.cursor then 1 else 0)

theorem Passed.step (hc : c < n) (h : Passed n c as t) (hs : Turn n t a t') :
    Passed n c (as ++ [a]) t' := by
  obtain ⟨hcur, hcount⟩ := h
  cases hs with
  | drop hlive hcursor =>
    refine ⟨hcursor ▸ hcur, fun hcl hno d hd hdc hdl => ?_⟩
    have := hcount (hlive c hcl) (fun hm => hno (List.mem_append_left _ hm)) d hd hdc (hlive d hdl)
    rw [List.count_append, this, hcursor]
    simp
  | @take i hfirst =>
    refine ⟨next_lt hfirst.lt, fun hcl hno d hd hdc hdl => ?_⟩
    have hold := hcount hcl (fun hm => hno (List.mem_append_left _ hm)) d hd hdc hdl
    have hic : i ≠ c := by
      rintro rfl
      exact hno (List.mem_append_right _ List.mem_cons_self)
    have hlec := hfirst.le c hc hcl
    rw [List.count_append, hold, ahead_next hc hfirst.lt hic]
    by_cases hdi : d = i
    · have hnot := not_ahead_lt hc hcur hlec
      rw [hdi, List.count_singleton_self, if_neg hnot, if_pos (Nat.lt_succ_self _)]
    · have hne : List.count (some d) [some i] = 0 :=
        List.count_eq_zero.2 (by simpa using hdi)
      have hiff := ahead_lt_iff hc hcur hfirst.lt hlec hd hdi (hfirst.le d hd hdl)
      simp only [hne, hiff, Nat.add_zero]

/-- **Fairness.** -/
theorem Turn.fair (hc : c < n) {t₀ t : Turns}
    (hr : Run (Turn n) t₀ (some c :: as ++ [some c]) t) (hno : some c ∉ as) (hd : d < n)
    (hdc : d ≠ c) (hlive : t.live d) : as.count (some d) = 1 := by
  obtain ⟨t₂, hrun, hlast⟩ := hr.split
  cases hrun with
  | @cons _ t₁ _ _ _ hfirst hrun =>
  cases hfirst with
  | take h0 =>
  cases hlast with
  | cons hturn hnil =>
  cases hnil
  cases hturn with
  | take h =>
  have hpassed := hrun.history (Passed n c) ⟨next_lt hc, fun _ _ d _ _ _ => by simp⟩
    fun as t a t' h hs => h.step hc hs
  rw [hpassed.2 h.live hno d hd hdc hlive, if_pos]
  have hcur := hpassed.1
  have hled := h.le d hd hlive
  rw [next_eq hc]
  unfold ahead at hled ⊢
  split_ifs at hled ⊢ <;> omega

end SocketTest.Lib.RoundRobin
