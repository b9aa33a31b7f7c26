import Mathlib.Data.List.Perm.Subperm
import Mathlib.Data.List.Nodup
import Mathlib.Data.List.Range
import Mathlib.Logic.Equiv.Basic
import Mathlib.Tactic

/-!
# Binary heaps in an array

An array is a function `f : ℕ → α` of which the first `n` positions are in use; position `i > 0`
has the parent `(i - 1) / 2`. `Ordered key n f` is the heap order.

`siftDown` and `siftUp` move a hole through the array and write the element `e` where the hole
stops. Both rearrange the array `Function.update f hole e` (`siftDown_rearranges`,
`siftUp_rearranges`) and end in heap order when only the pairs at the hole were out of order
(`siftDown_ordered`, `siftUp_ordered`). For a sift down the order is that of the pairs with the parent in a set `S` of
positions, so that the same lemma serves a sift into a heap, the bottom-up construction of one (the
positions from `m` on) and a sift into one subtree (`siftDown_subtree`).
-/

namespace SocketTest.Lib

/-! ## Rearrangements -/

section Rearranges

variable {α : Type*}

/-- `g` is `f` with the positions in `S` permuted and every other position untouched. -/
def Rearranges (S : Set ℕ) (f g : ℕ → α) : Prop :=
  ∃ σ : Equiv.Perm ℕ, (∀ i, i ∉ S → σ i = i) ∧ g = f ∘ σ

theorem Rearranges.refl (S : Set ℕ) (f : ℕ → α) : Rearranges S f f :=
  ⟨Equiv.refl ℕ, fun _ _ => rfl, rfl⟩

theorem Rearranges.trans {S : Set ℕ} {f g h : ℕ → α} (hfg : Rearranges S f g)
    (hgh : Rearranges S g h) : Rearranges S f h := by
  obtain ⟨σ, hσ, rfl⟩ := hfg
  obtain ⟨τ, hτ, rfl⟩ := hgh
  refine ⟨τ.trans σ, fun i hi => ?_, rfl⟩
  rw [Equiv.trans_apply, hτ i hi, hσ i hi]

theorem Rearranges.mono {S T : Set ℕ} {f g : ℕ → α} (h : Rearranges S f g) (hST : S ⊆ T) :
    Rearranges T f g := by
  obtain ⟨σ, hσ, rfl⟩ := h
  exact ⟨σ, fun i hi => hσ i (fun hS => hi (hST hS)), rfl⟩

/-- Moving the element at `j` into the hole `i` swaps the two positions of the filled array. -/
theorem rearranges_move {S : Set ℕ} (f : ℕ → α) (e : α) {i j : ℕ} (hij : j ≠ i) (hi : i ∈ S)
    (hj : j ∈ S) : Rearranges S (Function.update f i e)
      (Function.update (Function.update f i (f j)) j e) := by
  refine ⟨Equiv.swap i j, fun k hk => ?_, funext fun k => ?_⟩
  · exact Equiv.swap_apply_of_ne_of_ne (fun h => hk (h ▸ hi)) (fun h => hk (h ▸ hj))
  · rw [Function.comp_apply]
    by_cases hkj : k = j
    · rw [hkj, Function.update_self, Equiv.swap_apply_right, Function.update_self]
    · rw [Function.update_of_ne hkj]
      by_cases hki : k = i
      · rw [hki, Function.update_self, Equiv.swap_apply_left, Function.update_of_ne hij]
      · rw [Function.update_of_ne hki, Equiv.swap_apply_of_ne_of_ne hki hkj,
          Function.update_of_ne hki]

section Below

variable {n : ℕ} {S : Set ℕ} {f g : ℕ → α} (h : Rearranges S f g) (hS : ∀ i ∈ S, i < n)

include h hS

theorem Rearranges.exists_perm : ∃ σ : Equiv.Perm ℕ, (∀ i < n, σ i < n) ∧ g = f ∘ σ := by
  obtain ⟨σ, hσ, rfl⟩ := h
  refine ⟨σ, fun i hi => ?_, rfl⟩
  by_contra hc
  have hfix : σ i = i := σ.injective (hσ (σ i) fun hiS => hc (hS _ hiS))
  exact hc (hfix.symm ▸ hi)

theorem Rearranges.perm_range : ((List.range n).map g).Perm ((List.range n).map f) := by
  obtain ⟨σ, hlt, rfl⟩ := h.exists_perm hS
  have hp : ((List.range n).map σ).Perm (List.range n) := by
    refine List.Subperm.perm_of_length_le ?_ (by rw [List.length_map])
    refine List.subperm_of_subset (List.nodup_range.map σ.injective) ?_
    intro i hi
    obtain ⟨j, hj, rfl⟩ := List.mem_map.mp hi
    exact List.mem_range.mpr (hlt j (List.mem_range.mp hj))
  rw [← List.map_map]
  exact hp.map f

theorem Rearranges.injOn (hf : Set.InjOn f {i | i < n}) : Set.InjOn g {i | i < n} := by
  obtain ⟨σ, hlt, rfl⟩ := h.exists_perm hS
  intro i hi j hj he
  exact σ.injective (hf (hlt i hi) (hlt j hj) he)

end Below

end Rearranges

/-! ## Order and subtrees -/

/-- The parent position. -/
abbrev parent (i : ℕ) : ℕ := (i - 1) / 2

theorem parent_lt {i : ℕ} (h : 0 < i) : parent i < i := by
  unfold parent; omega

/-- `i` is in the subtree whose root is the position `r`. -/
inductive InSubtree (r : ℕ) : ℕ → Prop
  | root : InSubtree r r
  | child {i : ℕ} (h0 : 0 < i) (h : InSubtree r (parent i)) : InSubtree r i

theorem InSubtree.le {r i : ℕ} (h : InSubtree r i) : r ≤ i := by
  induction h with
  | root => exact le_rfl
  | child h0 _ ih => exact ih.trans (parent_lt h0).le

theorem InSubtree.trans {r s i : ℕ} (hrs : InSubtree r s) (h : InSubtree s i) : InSubtree r i := by
  induction h with
  | root => exact hrs
  | child h0 _ ih => exact InSubtree.child h0 ih

section Order

variable {α K : Type*} [LinearOrder K] (key : α → K) (n : ℕ)

/-- Every pair of a parent `≥ m` and its child is in order. -/
def OrderedFrom (m : ℕ) (f : ℕ → α) : Prop :=
  ∀ i, 0 < i → i < n → m ≤ parent i → key (f (parent i)) ≤ key (f i)

/-- The heap order. -/
def Ordered (f : ℕ → α) : Prop :=
  ∀ i, 0 < i → i < n → key (f (parent i)) ≤ key (f i)

/-- Every pair of a parent in `S` and its child is in order. -/
def OrderedOn (S : Set ℕ) (f : ℕ → α) : Prop :=
  ∀ i, 0 < i → i < n → parent i ∈ S → key (f (parent i)) ≤ key (f i)

theorem orderedFrom_zero {f : ℕ → α} : OrderedFrom key n 0 f ↔ Ordered key n f :=
  ⟨fun h i h0 hi => h i h0 hi (Nat.zero_le _), fun h i h0 hi _ => h i h0 hi⟩

variable {key n}

/-- The root of an ordered array is minimal. -/
theorem Ordered.root_le {f : ℕ → α} (h : Ordered key n f) : ∀ i, i < n → key (f 0) ≤ key (f i) := by
  intro i
  induction i using Nat.strongRecOn with
  | ind i ih =>
    intro hi
    by_cases h0 : i = 0
    · rw [h0]
    · have hp := parent_lt (Nat.pos_of_ne_zero h0)
      exact (ih (parent i) hp (by omega)).trans (h i (by omega) hi)

end Order

/-! ## Sifting down -/

section SiftDown

variable {α K : Type*} [LinearOrder K] (key : α → K) (n : ℕ)

/-- The child of `hole` with the smaller key, the left one on a tie. -/
def lesserChild (f : ℕ → α) (hole : ℕ) : ℕ :=
  if hole * 2 + 2 < n ∧ key (f (hole * 2 + 2)) < key (f (hole * 2 + 1)) then hole * 2 + 2
  else hole * 2 + 1

theorem lesserChild_cases (f : ℕ → α) (hole : ℕ) :
    lesserChild key n f hole = hole * 2 + 1 ∨ lesserChild key n f hole = hole * 2 + 2 := by
  unfold lesserChild; split_ifs <;> simp

theorem lt_lesserChild (f : ℕ → α) (hole : ℕ) : hole < lesserChild key n f hole := by
  rcases lesserChild_cases key n f hole with h | h <;> omega

theorem parent_lesserChild (f : ℕ → α) (hole : ℕ) : parent (lesserChild key n f hole) = hole := by
  unfold parent
  rcases lesserChild_cases key n f hole with h | h <;> omega

theorem lesserChild_lt {f : ℕ → α} {hole : ℕ} (h : hole * 2 + 1 < n) :
    lesserChild key n f hole < n := by
  unfold lesserChild
  split_ifs with hc
  · exact hc.1
  · exact h

theorem lesserChild_le (f : ℕ → α) {hole i : ℕ} (h0 : 0 < i) (hi : i < n) (hp : parent i = hole) :
    key (f (lesserChild key n f hole)) ≤ key (f i) := by
  unfold parent at hp
  obtain hl | hr : i = hole * 2 + 1 ∨ i = hole * 2 + 2 := by omega
  · unfold lesserChild
    split_ifs with hc
    · rw [hl]; exact hc.2.le
    · rw [hl]
  · unfold lesserChild
    split_ifs with hc
    · rw [hr]
    · rw [hr]
      rw [hr] at hi
      exact not_lt.mp (fun hlt => hc ⟨hi, hlt⟩)

/-- Move the hole down past every smaller child and put `e` where it stops. -/
def siftDown (f : ℕ → α) (e : α) (hole : ℕ) : ℕ → α :=
  if hole * 2 + 1 < n then
    if key (f (lesserChild key n f hole)) < key e then
      siftDown (Function.update f hole (f (lesserChild key n f hole))) e (lesserChild key n f hole)
    else Function.update f hole e
  else Function.update f hole e
termination_by n - hole
decreasing_by
  have := lt_lesserChild key n f hole
  omega

/-- Only positions in use and below the hole move. -/
theorem siftDown_rearranges (f : ℕ → α) (e : α) {hole : ℕ} (hh : hole < n) :
    Rearranges {i | i < n ∧ InSubtree hole i} (Function.update f hole e)
      (siftDown key n f e hole) := by
  induction f, hole using siftDown.induct key n e with
  | case1 f hole hlt hkey ih =>
    rw [siftDown, if_pos hlt, if_pos hkey]
    have hc := lesserChild_lt key n (f := f) hlt
    have hgt := lt_lesserChild key n f hole
    have hsub : InSubtree hole (lesserChild key n f hole) :=
      .child (by omega) ((parent_lesserChild key n f hole).symm ▸ .root)
    refine Rearranges.trans (rearranges_move f e hgt.ne' ?_ ?_) ((ih hc).mono ?_)
    · exact ⟨hh, .root⟩
    · exact ⟨hc, hsub⟩
    · exact fun i hi => ⟨hi.1, hsub.trans hi.2⟩
  | case2 f hole hlt hkey =>
    rw [siftDown, if_pos hlt, if_neg hkey]
    exact Rearranges.refl _ _
  | case3 f hole hlt =>
    rw [siftDown, if_neg hlt]
    exact Rearranges.refl _ _

/-- What a sift down needs: from `m` on, the pairs off the hole are in order, and the children of
the hole and the element to place are not below the hole's parent. -/
structure DownOrder (m : ℕ) (f : ℕ → α) (e : α) (hole : ℕ) : Prop where
  from_le : m ≤ hole
  off : ∀ i, 0 < i → i < n → m ≤ parent i → i ≠ hole → parent i ≠ hole →
    key (f (parent i)) ≤ key (f i)
  above : 0 < hole → m ≤ parent hole → key (f (parent hole)) ≤ key e
  grand : 0 < hole → m ≤ parent hole → ∀ i, 0 < i → i < n → parent i = hole →
    key (f (parent hole)) ≤ key (f i)

/-- The same for the pairs with the parent in `S`, a set that has the children of its positions. -/
structure DownOrderOn (S : Set ℕ) (f : ℕ → α) (e : α) (hole : ℕ) : Prop where
  mem : hole ∈ S
  child : ∀ i, 0 < i → parent i ∈ S → i ∈ S
  off : ∀ i, 0 < i → i < n → parent i ∈ S → i ≠ hole → parent i ≠ hole →
    key (f (parent i)) ≤ key (f i)
  above : 0 < hole → parent hole ∈ S → key (f (parent hole)) ≤ key e
  grand : 0 < hole → parent hole ∈ S → ∀ i, 0 < i → i < n → parent i = hole →
    key (f (parent hole)) ≤ key (f i)

variable {key n}

theorem DownOrder.on {m : ℕ} {f : ℕ → α} {e : α} {hole : ℕ} (o : DownOrder key n m f e hole) :
    DownOrderOn key n (Set.Ici m) f e hole where
  mem := o.from_le
  child _ h0 hp := le_trans hp (parent_lt h0).le
  off := o.off
  above := o.above
  grand := o.grand

/-- Below the root of a subtree its order is all that a sift into it needs. -/
theorem DownOrderOn.subtree {f : ℕ → α} {hole : ℕ} (h : ∀ i, 0 < i → i < n →
    InSubtree hole (parent i) → parent i ≠ hole → key (f (parent i)) ≤ key (f i)) (e : α) :
    DownOrderOn key n {i | InSubtree hole i} f e hole where
  mem := .root
  child _ h0 hp := .child h0 hp
  off i h0 hi hp _ hne := h i h0 hi hp hne
  above h0 hp := absurd hp.le (not_le.mpr (parent_lt h0))
  grand h0 hp := absurd hp.le (not_le.mpr (parent_lt h0))

/-- Another element at the root of a heap that does not grow. -/
theorem Ordered.newRoot {f g : ℕ → α} (o : Ordered key n f) (hg : ∀ i, 0 < i → g i = f i) {m : ℕ}
    (hm : m ≤ n) (e : α) : DownOrder key m 0 g e 0 := by
  constructor
  · exact le_refl 0
  · intro i hi0 hi _ _ hp0
    rw [hg i hi0, hg _ (Nat.pos_of_ne_zero hp0)]
    exact o i hi0 (hi.trans_le hm)
  · intro h; omega
  · intro h; omega

/-- The key of one element grows. -/
theorem Ordered.raise [DecidableEq α] {f : ℕ → α} (o : Ordered key n f) {hole : ℕ} (hh : hole < n)
    (hne : ∀ i < n, i ≠ hole → f i ≠ f hole) {k : K} (hk : key (f hole) ≤ k) :
    DownOrder (Function.update key (f hole) k) n 0 f (f hole) hole := by
  have hsame : ∀ i < n, i ≠ hole → Function.update key (f hole) k (f i) = key (f i) :=
    fun i hi hih => Function.update_of_ne (hne i hi hih) _ _
  constructor
  · exact Nat.zero_le _
  · intro i h0 hi _ hih hph
    have hpi := parent_lt h0
    rw [hsame i hi hih, hsame _ (by omega) hph]
    exact o i h0 hi
  · intro h0 _
    have hp := parent_lt h0
    rw [Function.update_self, hsame _ (by omega) hp.ne]
    exact (o hole h0 hh).trans hk
  · intro h0 _ i hi0 hi hpi
    have hp := parent_lt h0
    have hpi' := parent_lt hi0
    rw [hsame _ (by omega) hp.ne, hsame i hi (by omega)]
    have := o i hi0 hi
    rw [hpi] at this
    exact (o hole h0 hh).trans this

theorem DownOrderOn.move {S : Set ℕ} {f : ℕ → α} {e : α} {hole : ℕ}
    (o : DownOrderOn key n S f e hole) (hlt : hole * 2 + 1 < n)
    (hkey : key (f (lesserChild key n f hole)) < key e) :
    DownOrderOn key n S (Function.update f hole (f (lesserChild key n f hole))) e
      (lesserChild key n f hole) := by
  have hmin : ∀ i, 0 < i → i < n → parent i = hole →
      key (f (lesserChild key n f hole)) ≤ key (f i) :=
    fun i h0 hi hp => lesserChild_le key n f h0 hi hp
  have hpar := parent_lesserChild key n f hole
  have hgt := lt_lesserChild key n f hole
  have hcn := lesserChild_lt key n (f := f) hlt
  generalize lesserChild key n f hole = c at hkey hmin hpar hgt hcn
  have hc : c ∈ S := o.child c (by omega) (hpar ▸ o.mem)
  constructor
  · exact hc
  · exact o.child
  · intro i h0 hi hm hic hpc
    have hpi := parent_lt h0
    by_cases hih : i = hole
    · subst hih
      rw [Function.update_self, Function.update_of_ne (by omega)]
      exact o.grand h0 hm c (by omega) hcn hpar
    · rw [Function.update_of_ne hih]
      by_cases hph : parent i = hole
      · rw [hph, Function.update_self]; exact hmin i h0 hi hph
      · rw [Function.update_of_ne hph]; exact o.off i h0 hi hm hih hph
  · intro _ _
    rw [hpar, Function.update_self]; exact hkey.le
  · intro h0 _ i hi0 hi hp
    have hpi := parent_lt hi0
    rw [hpar, Function.update_self, Function.update_of_ne (by omega)]
    have := o.off i hi0 hi (hp ▸ hc) (by omega) (by omega)
    rwa [hp] at this

theorem DownOrderOn.finish {S : Set ℕ} {f : ℕ → α} {e : α} {hole : ℕ}
    (o : DownOrderOn key n S f e hole)
    (hstop : ∀ i, 0 < i → i < n → parent i = hole → key e ≤ key (f i)) :
    OrderedOn key n S (Function.update f hole e) := by
  intro i h0 hi hm
  have hpi := parent_lt h0
  by_cases hih : i = hole
  · subst hih
    rw [Function.update_self, Function.update_of_ne (by omega)]
    exact o.above h0 hm
  · rw [Function.update_of_ne hih]
    by_cases hph : parent i = hole
    · rw [hph, Function.update_self]; exact hstop i h0 hi hph
    · rw [Function.update_of_ne hph]; exact o.off i h0 hi hm hih hph

theorem siftDown_orderedOn {S : Set ℕ} {f : ℕ → α} {e : α} {hole : ℕ}
    (o : DownOrderOn key n S f e hole) : OrderedOn key n S (siftDown key n f e hole) := by
  induction f, hole using siftDown.induct key n e with
  | case1 f hole hlt hkey ih =>
    rw [siftDown, if_pos hlt, if_pos hkey]
    exact ih (o.move hlt hkey)
  | case2 f hole hlt hkey =>
    rw [siftDown, if_pos hlt, if_neg hkey]
    exact o.finish fun i h0 hi hp => (not_lt.mp hkey).trans (lesserChild_le key n f h0 hi hp)
  | case3 f hole hlt =>
    rw [siftDown, if_neg hlt]
    refine o.finish fun i h0 hi hp => ?_
    unfold parent at hp
    omega

theorem siftDown_ordered {m : ℕ} {f : ℕ → α} {e : α} {hole : ℕ}
    (o : DownOrder key n m f e hole) : OrderedFrom key n m (siftDown key n f e hole) :=
  siftDown_orderedOn o.on

/-- Sifting into a subtree in order below its root puts the whole subtree in order. -/
theorem siftDown_subtree {f : ℕ → α} {hole : ℕ} (h : ∀ i, 0 < i → i < n →
    InSubtree hole (parent i) → parent i ≠ hole → key (f (parent i)) ≤ key (f i)) (e : α) :
    OrderedOn key n {i | InSubtree hole i} (siftDown key n f e hole) :=
  siftDown_orderedOn (.subtree h e)

end SiftDown

/-! ## Sifting up -/

section SiftUp

variable {α K : Type*} [LinearOrder K] (key : α → K)

/-- Move the hole up past every greater parent and put `e` where it stops. -/
def siftUp (f : ℕ → α) (e : α) (hole : ℕ) : ℕ → α :=
  if 0 < hole then
    if key (f (parent hole)) ≤ key e then Function.update f hole e
    else siftUp (Function.update f hole (f (parent hole))) e (parent hole)
  else Function.update f hole e
termination_by hole
decreasing_by exact parent_lt ‹_›

theorem siftUp_rearranges (f : ℕ → α) (e : α) (hole : ℕ) :
    Rearranges {i | i ≤ hole} (Function.update f hole e) (siftUp key f e hole) := by
  induction f, hole using siftUp.induct key e with
  | case1 f hole h0 hkey =>
    rw [siftUp, if_pos h0, if_pos hkey]
    exact Rearranges.refl _ _
  | case2 f hole h0 hkey ih =>
    rw [siftUp, if_pos h0, if_neg hkey]
    have hp := parent_lt h0
    refine Rearranges.trans (rearranges_move f e hp.ne ?_ ?_) (ih.mono ?_)
    · exact le_refl hole
    · exact hp.le
    · exact fun i hi => le_trans hi hp.le
  | case3 f hole h0 =>
    rw [siftUp, if_neg h0]
    exact Rearranges.refl _ _

/-- What a sift up needs: the pairs off the hole are in order, and the children of the hole are
neither below the element to place nor below the hole's parent. -/
structure UpOrder (n : ℕ) (f : ℕ → α) (e : α) (hole : ℕ) : Prop where
  off : ∀ i, 0 < i → i < n → i ≠ hole → parent i ≠ hole → key (f (parent i)) ≤ key (f i)
  below : ∀ i, 0 < i → i < n → parent i = hole → key e ≤ key (f i)
  grand : 0 < hole → ∀ i, 0 < i → i < n → parent i = hole → key (f (parent hole)) ≤ key (f i)

variable {key} {n : ℕ}

theorem UpOrder.move {f : ℕ → α} {e : α} {hole : ℕ} (o : UpOrder key n f e hole) (h0 : 0 < hole)
    (hn : hole < n) (hkey : key e < key (f (parent hole))) :
    UpOrder key n (Function.update f hole (f (parent hole))) e (parent hole) := by
  have hp := parent_lt h0
  constructor
  · intro i hi0 hi hip hpp
    have hpi := parent_lt hi0
    have hih : i ≠ hole := fun h => hpp (congrArg parent h)
    rw [Function.update_of_ne hih]
    by_cases hph : parent i = hole
    · rw [hph, Function.update_self]; exact o.grand h0 i hi0 hi hph
    · rw [Function.update_of_ne hph]; exact o.off i hi0 hi hih hph
  · intro i hi0 hi hpi
    by_cases hih : i = hole
    · rw [hih, Function.update_self]; exact hkey.le
    · rw [Function.update_of_ne hih]
      have := o.off i hi0 hi hih (by omega)
      rw [hpi] at this
      exact hkey.le.trans this
  · intro hp0 i hi0 hi hpi
    have hpp := parent_lt hp0
    have hup : key (f (parent (parent hole))) ≤ key (f (parent hole)) :=
      o.off (parent hole) hp0 (by omega) (by omega) (by omega)
    rw [Function.update_of_ne (by omega)]
    by_cases hih : i = hole
    · rw [hih, Function.update_self]; exact hup
    · rw [Function.update_of_ne hih]
      have := o.off i hi0 hi hih (by omega)
      rw [hpi] at this
      exact hup.trans this

theorem UpOrder.finish {f : ℕ → α} {e : α} {hole : ℕ} (o : UpOrder key n f e hole)
    (hstop : 0 < hole → key (f (parent hole)) ≤ key e) :
    Ordered key n (Function.update f hole e) := by
  intro i h0 hi
  have hpi := parent_lt h0
  by_cases hih : i = hole
  · subst hih
    rw [Function.update_self, Function.update_of_ne (by omega)]
    exact hstop h0
  · rw [Function.update_of_ne hih]
    by_cases hph : parent i = hole
    · rw [hph, Function.update_self]; exact o.below i h0 hi hph
    · rw [Function.update_of_ne hph]; exact o.off i h0 hi hih hph

theorem siftUp_ordered {f : ℕ → α} {e : α} {hole : ℕ} (hn : hole < n)
    (o : UpOrder key n f e hole) : Ordered key n (siftUp key f e hole) := by
  induction f, hole using siftUp.induct key e with
  | case1 f hole h0 hkey =>
    rw [siftUp, if_pos h0, if_pos hkey]
    exact o.finish fun _ => hkey
  | case2 f hole h0 hkey ih =>
    rw [siftUp, if_pos h0, if_neg hkey]
    have hp := parent_lt h0
    exact ih (by omega) (o.move h0 hn (not_le.mp hkey))
  | case3 f hole h0 =>
    rw [siftUp, if_neg h0]
    exact o.finish fun h => absurd h h0

end SiftUp

end SocketTest.Lib
