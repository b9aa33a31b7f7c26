import SocketTest.Lib.LowestFree
import SocketTest.Lib.Memory
import SocketTest.Lib.Run

/-!
# The descriptors of `unblock_connect`

`client/nonblock.cc` connects with a time limit: a socket that does not block, `connect`, and a
`select` that waits until it can be written to. `writefds` is not cleared, so that `select` looks at
what happens to stand in it, too. A socket is handed out, closed, or forgotten: the last when
`connect` fails at once. `Kept` is what holds of the descriptors after any number of attempts.
-/

namespace SocketTest.Nonblock

open SocketTest.Lib

/-! ## An attempt -/

/-- The descriptors in use, and those with `O_NONBLOCK`. -/
structure Descriptors where
  opened : Finset ℕ
  nonblocking : Finset ℕ
  faults : List Fault

def FD_SETSIZE : ℕ := 1024

/-- What `connect` does: it is done at once, fails with `EINPROGRESS`, or fails otherwise. -/
inductive Connect
  | done
  | inProgress
  | failed
  deriving DecidableEq

/-- The answers to the system calls of an attempt. -/
structure Answers where
  connect : Connect
  /-- what stands in `writefds` before `FD_SET` -/
  writefds : Finset ℕ
  /-- `select`: nothing, for an error or the time limit, or what it leaves in `writefds` -/
  ready : Option (Finset ℕ)
  /-- `SO_ERROR`, where `getsockopt` does not fail -/
  error : Option ℤ

namespace Descriptors

variable (d : Descriptors)

def setnonblocking (fd : ℕ) : Descriptors := { d with nonblocking := insert fd d.nonblocking }

/-- `fcntl(fd, F_SETFL, fdopt)` -/
def restore (fd : ℕ) : Descriptors := { d with nonblocking := d.nonblocking.erase fd }

def close (fd : ℕ) : Descriptors :=
  { d with opened := d.opened.erase fd, nonblocking := d.nonblocking.erase fd }

/-- `FD_SET(fd, &writefds)` -/
def fdSet (fd : ℕ) : Descriptors :=
  { d with faults := if fd < FD_SETSIZE then d.faults else d.faults ++ [.outOfBounds fd] }

/-- Behind `select`. -/
def selected (sockfd : ℕ) (a : Answers) : Descriptors × Option ℕ :=
  match a.ready with
  | none => (d.close sockfd, none)
  | some writefds =>
    if sockfd ∉ writefds then (d.close sockfd, none)
    else
      match a.error with
      | none => (d.close sockfd, none)
      | some error =>
        if error ≠ 0 then (d.close sockfd, none) else (d.restore sockfd, some sockfd)

/-- The socket that is returned. `limit` is the number of descriptors there can be: without a socket
`connect` fails, and there is nothing to close. -/
def unblockConnect (limit : ℕ) (a : Answers) : Descriptors × Option ℕ :=
  let sockfd := lowestFree d.opened
  if limit ≤ sockfd then (d, none)
  else
    let d := setnonblocking { d with opened := insert sockfd d.opened } sockfd
    match a.connect with
    | .done => (d.restore sockfd, some sockfd)
    | .failed => (d, none)
    | .inProgress => (d.fdSet sockfd).selected sockfd a

end Descriptors

/-! ## Any number of attempts -/

/-- A process, with the sockets it has been given and not closed. -/
structure Process where
  descriptors : Descriptors
  held : Finset ℕ
  /-- the attempts in which `connect` has failed at once -/
  refused : ℕ

/-- `select` leaves in `writefds` some of what it was given, and fails when one of these is not
open. -/
structure Plausible (d : Descriptors) (a : Answers) : Prop where
  sub : ∀ r, a.ready = some r → r ⊆ insert (lowestFree d.opened) a.writefds
  valid : ∀ r, a.ready = some r → ∀ fd ∈ a.writefds, fd < lowestFree d.opened → fd ∈ d.opened

inductive Act
  | attempt (a : Answers)
  | close (fd : ℕ)

/-- The attempt comes to `connect`, which fails at once. -/
def Refused (limit : ℕ) (d : Descriptors) (a : Answers) : Prop :=
  lowestFree d.opened < limit ∧ a.connect = .failed

instance (limit : ℕ) (d : Descriptors) (a : Answers) : Decidable (Refused limit d a) :=
  inferInstanceAs (Decidable (_ ∧ _))

def Process.attempt (limit : ℕ) (p : Process) (a : Answers) : Process where
  descriptors := (p.descriptors.unblockConnect limit a).1
  held := p.held ∪ (p.descriptors.unblockConnect limit a).2.toFinset
  refused := if Refused limit p.descriptors a then p.refused + 1 else p.refused

inductive Step (limit : ℕ) (p : Process) : Act → Process → Prop
  | attempt {a : Answers} (ha : Plausible p.descriptors a) :
      Step limit p (.attempt a) (p.attempt limit a)
  | close {fd : ℕ} (hfd : fd ∈ p.held) :
      Step limit p (.close fd)
        { p with descriptors := p.descriptors.close fd, held := p.held.erase fd }

/-- With the descriptors `base` open, and blocking. -/
def Process.start (base : Finset ℕ) : Process := ⟨⟨base, ∅, []⟩, ∅, 0⟩

variable {limit sockfd : ℕ} {d d' : Descriptors} {a : Answers} {p p' : Process} {act : Act}
  {acts : List Act} {base : Finset ℕ}

/-! ## What becomes of a socket -/

namespace Descriptors

/-- The same descriptors are open, and the same of them do not block. -/
structure Same (d d' : Descriptors) : Prop where
  opened : d'.opened = d.opened
  nonblocking : d'.nonblocking = d.nonblocking

/-- A new socket that does not block. -/
structure Made (d : Descriptors) (sockfd : ℕ) (d' : Descriptors) : Prop where
  opened : d'.opened = insert sockfd d.opened
  nonblocking : d'.nonblocking = insert sockfd d.nonblocking

theorem Made.close (h : d.Made sockfd d') (hopen : sockfd ∉ d.opened)
    (hblock : sockfd ∉ d.nonblocking) : d.Same (d'.close sockfd) where
  opened := (congrArg (·.erase sockfd) h.opened).trans (Finset.erase_insert hopen)
  nonblocking := (congrArg (·.erase sockfd) h.nonblocking).trans (Finset.erase_insert hblock)

/-- What can become of the socket of an attempt. -/
inductive Ends (limit : ℕ) (d : Descriptors) (a : Answers) (d' : Descriptors) : Option ℕ → Prop
  | gone (h : d.Same d') (hr : ¬ Refused limit d a) : Ends limit d a d' none
  | given (hlt : lowestFree d.opened < limit)
      (ho : d'.opened = insert (lowestFree d.opened) d.opened)
      (hn : d'.nonblocking = d.nonblocking) (hr : ¬ Refused limit d a) :
      Ends limit d a d' (some (lowestFree d.opened))
  | lost (h : d.Made (lowestFree d.opened) d') (hr : Refused limit d a) : Ends limit d a d' none

theorem Made.given (h : d.Made (lowestFree d.opened) d') (hlt : lowestFree d.opened < limit)
    (hblock : lowestFree d.opened ∉ d.nonblocking) (hr : ¬ Refused limit d a) :
    Ends limit d a (d'.restore (lowestFree d.opened)) (some (lowestFree d.opened)) := by
  refine .given hlt h.opened ?_ hr
  show d'.nonblocking.erase _ = _
  rw [h.nonblocking, Finset.erase_insert hblock]

theorem selected_ends (h : d.Made (lowestFree d.opened) d') (hlt : lowestFree d.opened < limit)
    (hblock : lowestFree d.opened ∉ d.nonblocking) (hr : ¬ Refused limit d a) :
    Ends limit d a (d'.selected (lowestFree d.opened) a).1
      (d'.selected (lowestFree d.opened) a).2 := by
  have hclose : Ends limit d a (d'.close (lowestFree d.opened)) none :=
    .gone (h.close (lowestFree_notMem _) hblock) hr
  unfold selected
  cases a.ready with
  | none => exact hclose
  | some writefds =>
    by_cases hin : lowestFree d.opened ∉ writefds
    · simpa only [if_pos hin] using hclose
    · simp only [if_neg hin]
      cases a.error with
      | none => exact hclose
      | some error =>
        by_cases herror : error ≠ 0
        · simpa only [if_pos herror] using hclose
        · simpa only [if_neg herror] using h.given hlt hblock hr

/-- The socket is closed, handed out or forgotten. -/
theorem unblockConnect_ends (hn : d.nonblocking ⊆ d.opened) (limit : ℕ) (a : Answers) :
    Ends limit d a (d.unblockConnect limit a).1 (d.unblockConnect limit a).2 := by
  have hblock : lowestFree d.opened ∉ d.nonblocking := fun h => lowestFree_notMem _ (hn h)
  unfold unblockConnect
  by_cases hfull : limit ≤ lowestFree d.opened
  · simp only [if_pos hfull]
    exact .gone ⟨rfl, rfl⟩ (fun hr => absurd hr.1 (not_lt.2 hfull))
  · simp only [if_neg hfull]
    have hlt := not_le.1 hfull
    cases hc : a.connect with
    | done =>
      have hr : ¬ Refused limit d a := fun hr => Connect.noConfusion (hc.symm.trans hr.2)
      exact Made.given ⟨rfl, rfl⟩ hlt hblock hr
    | failed => exact .lost ⟨rfl, rfl⟩ ⟨hlt, hc⟩
    | inProgress =>
      have hr : ¬ Refused limit d a := fun hr => Connect.noConfusion (hc.symm.trans hr.2)
      exact selected_ends ⟨rfl, rfl⟩ hlt hblock hr

/-- `FD_SET` stays in `writefds` when no descriptor is above it. -/
theorem unblockConnect_faults (hlimit : limit ≤ FD_SETSIZE) (d : Descriptors) (a : Answers) :
    (d.unblockConnect limit a).1.faults = d.faults := by
  unfold unblockConnect
  by_cases hfull : limit ≤ lowestFree d.opened
  · simp only [if_pos hfull]
  · simp only [if_neg hfull]
    cases a.connect with
    | done | failed => rfl
    | inProgress =>
      have hset : ∀ d' : Descriptors, (d'.fdSet (lowestFree d.opened)).faults = d'.faults :=
        fun d' => if_pos ((not_le.1 hfull).trans_le hlimit)
      have hselected : ∀ d' : Descriptors,
          (d'.selected (lowestFree d.opened) a).1.faults = d'.faults := by
        intro d'
        unfold selected
        cases a.ready with
        | none => rfl
        | some writefds =>
          dsimp only
          split_ifs
          · cases a.error with
            | none => rfl
            | some error =>
              dsimp only
              split_ifs <;> rfl
          · rfl
      exact (hselected _).trans (hset _)

end Descriptors

/-! ## The descriptors of a process -/

/-- The sockets `lost` are open, though nobody has them, and do not block. -/
structure Kept (limit : ℕ) (base lost : Finset ℕ) (p : Process) : Prop where
  opened : p.descriptors.opened = base ∪ p.held ∪ lost
  apart : Disjoint base p.held
  nobody : Disjoint (base ∪ p.held) lost
  card : lost.card = p.refused
  nonblocking : p.descriptors.nonblocking = lost
  below : p.descriptors.opened ⊆ Finset.range limit

theorem kept_start (hbase : base ⊆ Finset.range limit) : Kept limit base ∅ (.start base) where
  opened := by
    show base = base ∪ ∅ ∪ ∅
    rw [Finset.union_empty, Finset.union_empty]
  apart := Finset.disjoint_empty_right _
  nobody := Finset.disjoint_empty_right _
  card := rfl
  nonblocking := rfl
  below := hbase

variable {lost : Finset ℕ}

theorem Kept.fresh (h : Kept limit base lost p) :
    lowestFree p.descriptors.opened ∉ base ∧ lowestFree p.descriptors.opened ∉ p.held ∧
      lowestFree p.descriptors.opened ∉ lost := by
  have hnot := lowestFree_notMem p.descriptors.opened
  rw [h.opened, Finset.mem_union, Finset.mem_union, not_or, not_or] at hnot
  exact ⟨h.opened ▸ hnot.1.1, h.opened ▸ hnot.1.2, h.opened ▸ hnot.2⟩

theorem Kept.attempt (h : Kept limit base lost p) (a : Answers) :
    ∃ lost', Kept limit base lost' (p.attempt limit a) := by
  have hn : p.descriptors.nonblocking ⊆ p.descriptors.opened := by
    rw [h.nonblocking, h.opened]
    exact Finset.subset_union_right
  obtain ⟨hbase, hheld, hlost⟩ := h.fresh
  have hends := Descriptors.unblockConnect_ends hn limit a
  unfold Process.attempt
  generalize p.descriptors.unblockConnect limit a = result at hends ⊢
  obtain ⟨d', fd⟩ := result
  dsimp only at hends ⊢
  cases hends with
  | gone hsame hr =>
    refine ⟨lost, ?_⟩
    rw [if_neg hr, Option.toFinset_none, Finset.union_empty]
    exact ⟨hsame.opened.trans h.opened, h.apart, h.nobody, h.card,
      hsame.nonblocking.trans h.nonblocking, hsame.opened ▸ h.below⟩
  | given hlt ho hnb hr =>
    refine ⟨lost, ?_⟩
    rw [if_neg hr, Option.toFinset_some]
    refine ⟨?_, ?_, ?_, h.card, hnb.trans h.nonblocking, ?_⟩
    · rw [ho, h.opened]
      ext fd
      simp only [Finset.mem_insert, Finset.mem_union, Finset.mem_singleton]
      tauto
    · exact Finset.disjoint_union_right.2 ⟨h.apart, Finset.disjoint_singleton_right.2 hbase⟩
    · rw [← Finset.union_assoc]
      exact Finset.disjoint_union_left.2 ⟨h.nobody, Finset.disjoint_singleton_left.2 hlost⟩
    · rw [ho]
      exact Finset.insert_subset (Finset.mem_range.2 hlt) h.below
  | lost hmade hr =>
    refine ⟨insert (lowestFree p.descriptors.opened) lost, ?_⟩
    rw [if_pos hr, Option.toFinset_none, Finset.union_empty]
    refine ⟨?_, h.apart, ?_, ?_, hmade.nonblocking.trans (congrArg _ h.nonblocking), ?_⟩
    · rw [hmade.opened, Finset.union_insert]
      exact congrArg _ h.opened
    · refine Finset.disjoint_insert_right.2 ⟨fun hin => ?_, h.nobody⟩
      exact (Finset.mem_union.1 hin).elim hbase hheld
    · rw [Finset.card_insert_of_notMem hlost, h.card]
    · rw [hmade.opened]
      exact Finset.insert_subset (Finset.mem_range.2 hr.1) h.below

theorem Kept.close (h : Kept limit base lost p) {fd : ℕ} (hfd : fd ∈ p.held) :
    Kept limit base lost
      { p with descriptors := p.descriptors.close fd, held := p.held.erase fd } := by
  have hbase : fd ∉ base := Finset.disjoint_right.1 h.apart hfd
  have hlost : fd ∉ lost := Finset.disjoint_left.1 h.nobody (Finset.mem_union_right _ hfd)
  have hsub : p.held.erase fd ⊆ p.held := Finset.erase_subset _ _
  refine ⟨?_, h.apart.mono_right hsub, h.nobody.mono_left (Finset.union_subset_union_right hsub),
    h.card, ?_, (Finset.erase_subset _ _).trans h.below⟩
  · show p.descriptors.opened.erase fd = _
    rw [h.opened, Finset.erase_union_distrib, Finset.erase_union_distrib,
      Finset.erase_eq_of_notMem hbase, Finset.erase_eq_of_notMem hlost]
  · show p.descriptors.nonblocking.erase fd = _
    rw [h.nonblocking, Finset.erase_eq_of_notMem hlost]

theorem Kept.step (h : Kept limit base lost p) (hs : Step limit p act p') :
    ∃ lost', Kept limit base lost' p' := by
  cases hs with
  | attempt => exact h.attempt _
  | close hfd => exact ⟨lost, h.close hfd⟩

theorem kept_run (hbase : base ⊆ Finset.range limit)
    (hr : Run (Step limit) (.start base) acts p) : ∃ lost, Kept limit base lost p :=
  hr.invariant (I := fun p => ∃ lost, Kept limit base lost p)
    (fun _ _ _ ⟨_, h⟩ hs => h.step hs) ⟨∅, kept_start hbase⟩

theorem faults_run (hlimit : limit ≤ FD_SETSIZE) (hr : Run (Step limit) (.start base) acts p) :
    p.descriptors.faults = [] := by
  refine hr.invariant (I := fun p => p.descriptors.faults = []) (fun p _ _ h hs => ?_) rfl
  cases hs with
  | attempt => exact (Descriptors.unblockConnect_faults hlimit _ _).trans h
  | close => exact h

/-- After any number of attempts, one descriptor has been lost for each `connect` that failed at
once, and no other: the sockets that were handed out block, those that are lost do not. There can be
only so many such attempts before there are no descriptors left. -/
theorem forgets (hbase : base ⊆ Finset.range limit)
    (hr : Run (Step limit) (.start base) acts p) :
    base.card + p.held.card + p.refused ≤ limit ∧
      (limit ≤ FD_SETSIZE → p.descriptors.faults = []) ∧
      ∃ lost, lost.card = p.refused ∧ p.descriptors.opened = base ∪ p.held ∪ lost ∧
        Disjoint (base ∪ p.held) lost ∧ p.descriptors.nonblocking = lost := by
  obtain ⟨lost, h⟩ := kept_run hbase hr
  refine ⟨?_, fun hlimit => faults_run hlimit hr, lost, h.card, h.opened, h.nobody, h.nonblocking⟩
  have hcard := Finset.card_le_card h.below
  rwa [Finset.card_range, h.opened, Finset.card_union_of_disjoint h.nobody,
    Finset.card_union_of_disjoint h.apart, h.card] at hcard

/-- A connection that is refused at once, and one that is not. -/
theorem forgets_two :
    let p := ((Process.start (Finset.range 3)).attempt 5 ⟨.failed, ∅, none, none⟩).attempt 5
      ⟨.done, ∅, none, none⟩
    (Finset.range 3).card + p.held.card + p.refused ≤ 5 ∧
      (5 ≤ FD_SETSIZE → p.descriptors.faults = []) ∧
      ∃ lost, lost.card = p.refused ∧ p.descriptors.opened = Finset.range 3 ∪ p.held ∪ lost ∧
        Disjoint (Finset.range 3 ∪ p.held) lost ∧ p.descriptors.nonblocking = lost := by
  have hanswers (d : Descriptors) (c : Connect) : Plausible d ⟨c, ∅, none, none⟩ :=
    ⟨fun _ h => (by cases h), fun _ h => (by cases h)⟩
  exact forgets (Finset.range_subset_range.2 (by decide))
    (.cons (.attempt (hanswers _ _)) (.single (.attempt (hanswers _ _))))

end SocketTest.Nonblock
