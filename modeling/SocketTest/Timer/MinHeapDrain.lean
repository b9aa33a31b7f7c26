import SocketTest.Lib.Drain
import SocketTest.Timer.MinHeapRuns

/-!
# Draining a `time_heap`

A heap is drained by reading `top()` and calling `pop_timer()` until it is empty. Whatever its
layout, the `expire` values come out in order (`heap_pops`), so the array constructor and repeated
`add_timer` give heaps that drain alike (`heaps_drain_alike`).
-/

namespace SocketTest.Timer

open SocketTest.Lib SocketTest.Lib.Loop

namespace TimeHeap

/-- One round of `while(!empty()) { seen = top()->expire; pop_timer(); }`. -/
def drainRound (s : TimeHeap × List ℤ) : List ℤ ⊕ (TimeHeap × List ℤ) :=
  if s.1.empty then .inl s.2
  else .inr ((s.1.deref s.1.top).popTimer, s.2 ++ [s.1.expire s.1.top])

/-- The `expire` values of the heap, by position. -/
def expires (h : TimeHeap) : List ℤ := h.slots.map h.expire

theorem drainRound_eq : drainRound =
    Drain.round empty (fun h => h.expire h.top) fun h => (h.deref h.top).popTimer := rfl

theorem top_eq {h : TimeHeap} (he : h.empty = false) : h.top = h.array 0 := by
  unfold top
  rw [he]
  rfl

/-- The root is a least timer, and `pop_timer` takes it out. -/
theorem heap_pops : Drain.Pops empty (fun h => h.expire h.top)
    (fun h => (h.deref h.top).popTimer) expires Rep := by
  have hpop : ∀ h, Rep h → h.empty = false → (h.deref h.top).popTimer = h.popTimer := by
    intro h r he
    rw [top_eq he, deref_of_valid (r.indexed.valid 0 (Rep.curSize_pos he))]
  constructor
  · intro h _ he
    have h0 : h.curSize = 0 := by simpa [empty] using he
    unfold expires
    rw [(slots_eq_nil h).mpr h0, List.map_nil]
  · intro h r he
    rw [hpop h r he]
    exact (popTimer_spec r (Rep.curSize_pos he)).1
  · intro h r he
    obtain ⟨-, hperm, -, -, -, hdata⟩ := popTimer_spec r (Rep.curSize_pos he)
    have hexp : h.popTimer.expire = h.expire := funext fun p => congrArg Prod.fst (hdata p)
    unfold expires
    rw [hpop h r he, hexp, top_eq he]
    exact hperm.map h.expire
  · intro h r he k hk
    obtain ⟨t, ht, rfl⟩ := List.mem_map.mp hk
    rw [top_eq he]
    exact r.root_le ht

/-! ## Insertion -/

/-- Timers added one after another. -/
theorem addTimers_spec {h : TimeHeap} (r : Rep h) {l : List Ptr} (hl : l.Nodup)
    (hv : ∀ t ∈ l, h.mem.Valid t) (hn : ∀ t ∈ l, t ∉ h.slots) :
    Rep (l.foldl addTimer h) ∧ (l.foldl addTimer h).slots.Perm (l ++ h.slots) ∧
      (l.foldl addTimer h).expire = h.expire := by
  induction l generalizing h with
  | nil => exact ⟨r, .refl _, rfl⟩
  | cons t l ih =>
    obtain ⟨ra, hperm, hlive, -, -, hdata⟩ :=
      addTimer_spec r (hv t List.mem_cons_self) (hn t List.mem_cons_self)
    have hexp : (h.addTimer t).expire = h.expire := funext fun p => congrArg Prod.fst (hdata p)
    obtain ⟨htl, hl'⟩ := List.nodup_cons.mp hl
    have hv' : ∀ s ∈ l, (h.addTimer t).mem.Valid s := by
      intro s hs
      unfold Mem.Valid
      rw [hlive]
      exact hv s (List.mem_cons_of_mem t hs)
    have hn' : ∀ s ∈ l, s ∉ (h.addTimer t).slots := by
      intro s hs hmem
      rcases List.mem_cons.mp (hperm.subset hmem) with rfl | hmem
      · exact htl hs
      · exact hn s (List.mem_cons_of_mem t hs) hmem
    obtain ⟨ra', hperm', hexp'⟩ := ih ra hl' hv' hn'
    refine ⟨ra', hperm'.trans ?_, hexp'.trans hexp⟩
    exact (hperm.append_left l).trans List.perm_middle

end TimeHeap

/-- **Heapify agrees with insertion, and both sort.** The same timers, given to the array
constructor and added in any order to a heap of any positive capacity, make heaps of the same timers
that drain to the same sequence of `expire` values: those of the timers, in order. -/
theorem heaps_drain_alike {mem : Mem HeapTimer} {raw init : ℕ → Ptr} {ts order : List Ptr}
    {capacity cap : ℕ} (hne : ts ≠ []) (hts : ts.Nodup) (hv : ∀ t ∈ ts, mem.Valid t)
    (hinit : (List.range ts.length).map init = ts) (hcap : ts.length ≤ capacity) (hc : 1 ≤ cap)
    (ho : order.Perm ts) :
    ∃ h₁ es, TimeHeap.ofArray mem raw init ts.length capacity = some h₁ ∧
      h₁.slots.Perm ts ∧ (order.foldl TimeHeap.addTimer (.ofCapacity mem cap)).slots.Perm ts ∧
      Ends TimeHeap.drainRound (h₁, []) es ∧
      Ends TimeHeap.drainRound (order.foldl TimeHeap.addTimer (.ofCapacity mem cap), []) es ∧
      es.Pairwise (· ≤ ·) ∧ es.Perm (ts.map fun t => (mem.cell t).expire) := by
  have hpos := List.length_pos_iff.mpr hne
  obtain ⟨h₁, hh⟩ : ∃ h₁, TimeHeap.ofArray mem raw init ts.length capacity = some h₁ := by
    unfold TimeHeap.ofArray
    rw [if_neg (by omega)]
    dsimp only
    rw [if_neg (by omega)]
    exact ⟨_, rfl⟩
  have hget : ∀ i (hi : i < ts.length), init i = ts[i] := by
    intro i hi
    have : ((List.range ts.length).map init)[i]? = ts[i]? := by rw [hinit]
    simpa [hi] using this
  obtain ⟨r₁, hp₁, -, -, -, hdata₁⟩ := TimeHeap.ofArray_spec (by omega)
    (fun i hi => by rw [hget i hi]; exact hv _ (List.getElem_mem hi))
    (fun i hi j hj he => by
      rw [hget i hi, hget j hj] at he
      exact (List.Nodup.getElem_inj_iff hts).mp he) hh
  rw [hinit] at hp₁
  obtain ⟨r₂, hp₂, hexp₂⟩ := TimeHeap.addTimers_spec (TimeHeap.ofCapacity_rep mem hc)
    (ho.nodup_iff.mpr hts) (fun t ht => hv t (ho.subset ht)) (fun t _ hmem => by cases hmem)
  have hp₂' := (hp₂.trans (List.Perm.of_eq (List.append_nil order))).trans ho
  have hexp₁ : h₁.expire = fun t => (mem.cell t).expire :=
    funext fun p => congrArg Prod.fst (hdata₁ p)
  have hk₁ : h₁.expires.Perm (ts.map fun t => (mem.cell t).expire) := by
    unfold TimeHeap.expires
    rw [hexp₁]
    exact hp₁.map _
  have hk₂ : (order.foldl TimeHeap.addTimer (.ofCapacity mem cap)).expires.Perm
      (ts.map fun t => (mem.cell t).expire) := by
    unfold TimeHeap.expires
    rw [hexp₂]
    exact hp₂'.map _
  obtain ⟨es, he₁, he₂, hsorted, hes⟩ := Drain.drain_same TimeHeap.heap_pops r₁ r₂
    (hk₁.trans hk₂.symm)
  rw [TimeHeap.drainRound_eq]
  exact ⟨h₁, es, hh, hp₁, hp₂', he₁, he₂, hsorted, hes.trans hk₁⟩

/-- Two of three timers expire together, and the array of one slot doubles twice. -/
theorem heaps_drain_alike_tie :
    let mem := (((Mem.blank ⟨0, 0, 0, 0⟩).create 8 ⟨5, 1, 0, 0⟩).create 16 ⟨3, 1, 1, 0⟩).create 24
      ⟨5, 1, 2, 0⟩
    let h₂ := [24, 8, 16].foldl TimeHeap.addTimer (.ofCapacity mem 1)
    ∃ h₁ es, TimeHeap.ofArray mem (fun _ => 0) (fun i => 8 * (i + 1)) 3 3 = some h₁ ∧
      h₁.slots.Perm [8, 16, 24] ∧ h₂.slots.Perm [8, 16, 24] ∧
      Ends TimeHeap.drainRound (h₁, []) es ∧ Ends TimeHeap.drainRound (h₂, []) es ∧
      es.Pairwise (· ≤ ·) ∧ es.Perm [5, 3, 5] := by
  intro mem h₂
  exact @heaps_drain_alike mem (fun _ => 0) (fun i => 8 * (i + 1)) [8, 16, 24] [24, 8, 16] 3 1
    (by decide) (by decide) (by decide) (by decide) (by decide) (by decide) (by decide)

end SocketTest.Timer
