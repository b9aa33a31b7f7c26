import Mathlib.Tactic

/-!
# The self-pipe

A handler writes its signal to a pipe of the process, whose other end is one of the descriptors that
the process waits on. Signals of one kind that arrive before the handler has run are one. A pipe
that is full does not take the byte, and what a read leaves in the pipe is reported only with the
next write: `lost` says that one of the two has happened. Until then a signal is `Held`, or has been
read.
-/

namespace SocketTest.Lib

variable {S : Type*}

structure SelfPipe (S : Type*) where
  /-- the signals whose handler has not run -/
  pending : Finset S
  /-- what is in the pipe -/
  bytes : List S
  /-- the pipe has an event that has not been returned -/
  queued : Bool
  /-- the event has been returned, and the process has not come to it -/
  reported : Bool
  lost : Bool

namespace SelfPipe

def empty : SelfPipe S := ⟨∅, [], false, false, false⟩

def raise [DecidableEq S] (p : SelfPipe S) (x : S) : SelfPipe S :=
  { p with pending := insert x p.pending }

/-- A signal that the process ignores. -/
def discard [DecidableEq S] (p : SelfPipe S) (x : S) : SelfPipe S :=
  { p with pending := p.pending.erase x }

/-- The handler of `x`, with room for `cap` bytes in the pipe. -/
def handle [DecidableEq S] (cap : ℕ) (p : SelfPipe S) (x : S) : SelfPipe S :=
  if p.bytes.length < cap then
    { p with pending := p.pending.erase x, bytes := p.bytes ++ [x], queued := true }
  else { p with pending := p.pending.erase x, lost := true }

def report (p : SelfPipe S) : SelfPipe S := { p with queued := false, reported := true }

/-- What a `recv` with room for `room` bytes returns. -/
def taken (room : ℕ) (p : SelfPipe S) : List S := p.bytes.take room

def read (room : ℕ) (p : SelfPipe S) : SelfPipe S :=
  { p with
    bytes := p.bytes.drop room
    reported := false
    lost := p.lost || room < p.bytes.length }

/-- The signal will be read, or its handler will run. -/
def Held (p : SelfPipe S) (x : S) : Prop := x ∈ p.pending ∨ x ∈ p.bytes

/-- What is in the pipe will be read. -/
def Awake (p : SelfPipe S) : Prop :=
  p.bytes ≠ [] → p.queued = true ∨ p.reported = true ∨ p.lost = true

variable {p : SelfPipe S} {x y : S} {cap room : ℕ}

/-! ## No signal disappears -/

theorem held_raise_self [DecidableEq S] (p : SelfPipe S) (x : S) : (p.raise x).Held x :=
  .inl (Finset.mem_insert_self _ _)

theorem Held.raise [DecidableEq S] (h : p.Held x) (y : S) : (p.raise y).Held x :=
  h.imp_left (Finset.mem_insert_of_mem ·)

theorem Held.discard [DecidableEq S] (h : p.Held x) (hne : x ≠ y) : (p.discard y).Held x :=
  h.imp_left (Finset.mem_erase_of_ne_of_mem hne)

theorem Held.handle [DecidableEq S] (h : p.Held x) (cap : ℕ) (y : S) :
    (p.handle cap y).Held x ∨ (p.handle cap y).lost = true := by
  unfold SelfPipe.handle
  by_cases hlen : p.bytes.length < cap
  · rw [if_pos hlen]
    left
    by_cases hxy : x = y
    · exact .inr (List.mem_append_right _ (List.mem_singleton.2 hxy))
    · exact h.imp (Finset.mem_erase_of_ne_of_mem hxy) (List.mem_append_left _)
  · rw [if_neg hlen]
    exact .inr rfl

theorem Held.read (h : p.Held x) (room : ℕ) : (p.read room).Held x ∨ x ∈ p.taken room := by
  rcases h with hp | hb
  · exact .inl (.inl hp)
  · rw [← List.take_append_drop room p.bytes] at hb
    exact (List.mem_append.1 hb).symm.imp .inr id

theorem lost_of_handle [DecidableEq S] (h : (p.handle cap x).lost = false) : p.lost = false := by
  unfold handle at h
  by_cases hlen : p.bytes.length < cap
  · rwa [if_pos hlen] at h
  · rw [if_neg hlen] at h
    exact Bool.noConfusion h

theorem lost_of_read (h : (p.read room).lost = false) : p.lost = false :=
  (Bool.or_eq_false_iff.1 h).1

theorem handle_reported [DecidableEq S] (p : SelfPipe S) (cap : ℕ) (x : S) :
    (p.handle cap x).reported = p.reported := by
  unfold handle
  split_ifs <;> rfl

/-! ## The pipe is read -/

theorem awake_empty : (empty : SelfPipe S).Awake := fun h => absurd rfl h

theorem Awake.raise [DecidableEq S] (h : p.Awake) (x : S) : (p.raise x).Awake := h

theorem Awake.discard [DecidableEq S] (h : p.Awake) (x : S) : (p.discard x).Awake := h

theorem awake_handle [DecidableEq S] (p : SelfPipe S) (cap : ℕ) (x : S) :
    (p.handle cap x).Awake := by
  intro _
  unfold handle
  by_cases hlen : p.bytes.length < cap
  · rw [if_pos hlen]
    exact .inl rfl
  · rw [if_neg hlen]
    exact .inr (.inr rfl)

theorem awake_report (p : SelfPipe S) : p.report.Awake := fun _ => .inr (.inl rfl)

theorem awake_read (p : SelfPipe S) (room : ℕ) : (p.read room).Awake := by
  intro hne
  have hlen : room < p.bytes.length := by
    by_contra hle
    exact hne (List.drop_eq_nil_of_le (not_lt.1 hle))
  exact .inr (.inr (Bool.or_eq_true_iff.2 (.inr (decide_eq_true hlen))))

def weight (p : SelfPipe S) : ℕ :=
  6 * p.pending.card + 2 * p.bytes.length + 3 * p.queued.toNat + p.reported.toNat

theorem read_weight (h : p.reported = true) (room : ℕ) :
    (p.read room).weight + 2 * (p.taken room).length + 1 = p.weight := by
  have hlen : (p.taken room).length + (p.bytes.drop room).length = p.bytes.length := by
    rw [← List.length_append, taken, List.take_append_drop]
  have heq : (p.read room).weight =
      6 * p.pending.card + 2 * (p.bytes.drop room).length + 3 * p.queued.toNat + 0 := rfl
  rw [heq, weight, h, Bool.toNat_true]
  omega

/-- How often the process may still read `x`. -/
def owing [DecidableEq S] (p : SelfPipe S) (x : S) : ℕ :=
  (if x ∈ p.pending then 1 else 0) + p.bytes.count x

end SelfPipe

end SocketTest.Lib
