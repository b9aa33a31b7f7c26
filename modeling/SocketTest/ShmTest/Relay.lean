import SocketTest.Lib.CString
import SocketTest.Lib.Run
import SocketTest.ShmTest.Parent

/-!
# Messages through the shared memory

A child puts what its client sends into its slot of the shared memory and writes the number of the slot
to the parent, which passes it on to the other children; each of them sends the slot to its client
when it comes to read the number. `chat_delivers`: when no child receives while the number of its last
message is still to be read, every message goes to every other client once.
-/

namespace SocketTest.ShmTest

open SocketTest.Lib

/-- The children of the clients `0, 1, ...` of the table, their pipes and the shared memory. `received`
and `sent` are what a child has got from its client and given to it, the latter with the slot. -/
structure Chat where
  shareMem : Buf
  /-- from a child to the parent -/
  up : ℕ → List ℕ
  /-- from the parent to a child -/
  down : ℕ → List ℕ
  received : ℕ → List (List UInt8)
  sent : ℕ → List (ℕ × List UInt8)

/-- A child receives from its client, with `none` for `EAGAIN`; the parent relays one number from a
child; a child reads one number and sends. -/
inductive Act
  | recv (j : ℕ) (data : Option (List UInt8))
  | relay (j : ℕ)
  | send (j : ℕ)
  deriving DecidableEq, Repr

def bzero (m : Buf) (p n : ℕ) : Buf := fun i => if p ≤ i ∧ i < p + n then NUL else m i

/-- The bytes that `recv` stores at `p`. -/
def store (m : Buf) (p : ℕ) (data : List UInt8) : Buf := fun i =>
  if p ≤ i ∧ i < p + data.length then data.getD (i - p) NUL else m i

/-- A slot with this message in it. -/
def padded (message : List UInt8) : List UInt8 :=
  message ++ List.replicate (BUFFER_SIZE - message.length) NUL

namespace Chat

def start (mem : Buf) : Chat := ⟨mem, fun _ => [], fun _ => [], fun _ => [], fun _ => []⟩

/-- The bytes of a slot. -/
def slot (s : Chat) (i : ℕ) : List UInt8 := contents s.shareMem (i * BUFFER_SIZE) BUFFER_SIZE

/-- `EPOLLIN` on the client's socket in `run_child`: the slot is cleared before `recv`. -/
def recv (s : Chat) (idx : ℕ → ℕ) (j : ℕ) (data : Option (List UInt8)) : Chat :=
  let cleared := bzero s.shareMem (idx j * BUFFER_SIZE) BUFFER_SIZE
  match data with
  | none => { s with shareMem := cleared }
  | some m =>
    { s with
      shareMem := store cleared (idx j * BUFFER_SIZE) m
      up := Function.update s.up j (s.up j ++ [idx j])
      received := Function.update s.received j (s.received j ++ [m]) }

/-- `EPOLLIN` on the pipe of child `j` in the parent of `n` clients. -/
def relay (s : Chat) (n j : ℕ) : Chat :=
  match s.up j with
  | [] => s
  | child :: rest =>
    { s with
      up := Function.update s.up j rest
      down := fun k => if k < n ∧ k ≠ j then s.down k ++ [child] else s.down k }

/-- `EPOLLIN` on the pipe in `run_child`. -/
def send (s : Chat) (j : ℕ) : Chat :=
  match s.down j with
  | [] => s
  | client :: rest =>
    { s with
      down := Function.update s.down j rest
      sent := Function.update s.sent j (s.sent j ++ [(client, s.slot client)]) }

def exec (n : ℕ) (idx : ℕ → ℕ) (s : Chat) : Act → Chat
  | .recv j data => s.recv idx j data
  | .relay j => s.relay n j
  | .send j => s.send j

/-- `recv` has room for one byte less than a slot, and what it returns is not empty. -/
def Allowed (n : ℕ) : Act → Prop
  | .recv j data => j < n ∧ ∀ m ∈ data, m ≠ [] ∧ m.length ≤ BUFFER_SIZE - 1
  | .relay j | .send j => j < n

def Step (n : ℕ) (idx : ℕ → ℕ) (s : Chat) (a : Act) (t : Chat) : Prop :=
  Allowed n a ∧ t = s.exec n idx a

/-- A child has still to read the number of the slot of child `j`. -/
def Unread (n : ℕ) (idx : ℕ → ℕ) (s : Chat) (j : ℕ) : Prop :=
  ∃ k < n, k ≠ j ∧ (idx j ∈ s.up j ∨ idx j ∈ s.down k)

/-- A child receives when the number of its slot is not about to be read, or its slot stays the
same. -/
def Calm (n : ℕ) (idx : ℕ → ℕ) (s : Chat) : Act → Prop
  | .recv j data => ¬ s.Unread n idx j ∨ (s.recv idx j data).slot (idx j) = s.slot (idx j)
  | _ => True

/-- What child `j` has sent to its client from a slot. -/
def sentFrom (s : Chat) (i j : ℕ) : List (List UInt8) :=
  ((s.sent j).filter fun x => x.1 = i).map Prod.snd

/-- No pipe holds a number. -/
def Drained (n : ℕ) (s : Chat) : Prop := ∀ j < n, s.up j = [] ∧ s.down j = []

/-- Every message of a child has been sent by every other child as often as it was received, in the
form `form`, and a child has sent from slots of others only. -/
structure Delivered (form : List UInt8 → List UInt8) (n : ℕ) (idx : ℕ → ℕ) (s : Chat) : Prop where
  each : ∀ i < n, ∀ j < n, i ≠ j → (s.sentFrom (idx i) j).Perm ((s.received i).map form)
  others : ∀ j < n, ∀ x ∈ s.sent j, ∃ i < n, i ≠ j ∧ x.1 = idx i

variable {n i j : ℕ} {idx : ℕ → ℕ} {s t : Chat} {a : Act}

/-! ## Slots -/

theorem store_bzero {m : Buf} {p n : ℕ} {data : List UInt8} (h : data.length ≤ n) :
    store (bzero m p n) p data = strncpy m p n data := by
  funext i
  unfold store bzero strncpy
  by_cases hin : p ≤ i ∧ i < p + data.length
  · rw [if_pos hin, if_pos (by omega)]
  · rw [if_neg hin]
    by_cases hn : p ≤ i ∧ i < p + n
    · rw [if_pos hn, if_pos hn, List.getD_eq_default _ _ (by omega)]
    · rw [if_neg hn, if_neg hn]

/-- The memory behind a receive. -/
theorem recv_shareMem {data : Option (List UInt8)} (h : ∀ m ∈ data, m.length ≤ BUFFER_SIZE) :
    (s.recv idx j data).shareMem =
      strncpy s.shareMem (idx j * BUFFER_SIZE) BUFFER_SIZE (data.getD []) := by
  cases data with
  | none =>
    have hempty : store (bzero s.shareMem (idx j * BUFFER_SIZE) BUFFER_SIZE) (idx j * BUFFER_SIZE) []
        = bzero s.shareMem (idx j * BUFFER_SIZE) BUFFER_SIZE := by
      funext i
      exact if_neg (by simp only [List.length_nil]; omega)
    exact hempty.symm.trans (store_bzero (Nat.zero_le _))
  | some m => exact store_bzero (h m rfl)

theorem recv_slot_self {data : Option (List UInt8)} (h : ∀ m ∈ data, m.length ≤ BUFFER_SIZE) :
    (s.recv idx j data).slot (idx j) = padded (data.getD []) := by
  have hlen : (data.getD []).length ≤ BUFFER_SIZE := by
    cases data with
    | none => exact Nat.zero_le _
    | some m => exact h m rfl
  rw [slot, recv_shareMem h, contents_strncpy, List.take_of_length_le hlen]
  rfl

theorem recv_slot_other {data : Option (List UInt8)} (h : ∀ m ∈ data, m.length ≤ BUFFER_SIZE)
    (hi : i ≠ idx j) : (s.recv idx j data).slot i = s.slot i := by
  rw [slot, recv_shareMem h]
  apply contents_congr
  intro k hk1 hk2
  rw [strncpy, if_neg]
  unfold BUFFER_SIZE at hk1 hk2 ⊢
  omega

theorem padded_length {m : List UInt8} (h : m.length ≤ BUFFER_SIZE) :
    (padded m).length = BUFFER_SIZE := by
  rw [padded, List.length_append, List.length_replicate]
  omega

/-! ## What is on its way -/

/-- The numbers of the slot of child `i` that child `j` will read. -/
def due (s : Chat) (idx : ℕ → ℕ) (i j : ℕ) : ℕ := (s.up i).length + (s.down j).count (idx i)

/-- The messages sent and those to be sent from the slot as it is are the messages received. -/
structure Flows (n : ℕ) (idx : ℕ → ℕ) (s : Chat) : Prop where
  up : ∀ i < n, ∀ c ∈ s.up i, c = idx i
  down : ∀ j < n, ∀ c ∈ s.down j, ∃ i < n, i ≠ j ∧ c = idx i
  others : ∀ j < n, ∀ x ∈ s.sent j, ∃ i < n, i ≠ j ∧ x.1 = idx i
  short : ∀ i < n, ∀ m ∈ s.received i, m.length < BUFFER_SIZE
  flow : ∀ i < n, ∀ j < n, i ≠ j →
    s.sentFrom (idx i) j ++ List.replicate (s.due idx i j) (s.slot (idx i)) =
      (s.received i).map padded

theorem flows_start (n : ℕ) (idx : ℕ → ℕ) (mem : Buf) : Flows n idx (start mem) := by
  constructor
  · simp [start]
  · simp [start]
  · simp [start]
  · simp [start]
  · simp [start, sentFrom, due]

theorem due_eq_zero (h : Flows n idx s) (hi : i < n) (hu : ¬ s.Unread n idx i) {k : ℕ} (hk : k < n)
    (hne : k ≠ i) : s.due idx i k = 0 := by
  have hno : ∀ k < n, k ≠ i → idx i ∉ s.up i ∧ idx i ∉ s.down k := by
    intro k hk hne
    constructor
    · exact fun hm => hu ⟨k, hk, hne, .inl hm⟩
    · exact fun hm => hu ⟨k, hk, hne, .inr hm⟩
  obtain ⟨hup, hdown⟩ := hno k hk hne
  have hnil : s.up i = [] := by
    rw [List.eq_nil_iff_forall_not_mem]
    intro c hc
    exact hup (h.up i hi c hc ▸ hc)
  rw [due, hnil, List.count_eq_zero_of_not_mem hdown]
  rfl

theorem flows_recv (hidx : ∀ i < n, ∀ j < n, idx i = idx j → i = j) (h : Flows n idx s)
    {data : Option (List UInt8)} (hj : j < n) (hdata : ∀ m ∈ data, m ≠ [] ∧ m.length ≤ BUFFER_SIZE - 1)
    (hcalm : s.Calm n idx (.recv j data)) : Flows n idx (s.recv idx j data) := by
  have hlen : ∀ m ∈ data, m.length < BUFFER_SIZE := by
    intro m hm
    have := (hdata m hm).2
    unfold BUFFER_SIZE at this ⊢
    omega
  have hle : ∀ m ∈ data, m.length ≤ BUFFER_SIZE := fun m hm => (hlen m hm).le
  have hself : (s.recv idx j data).slot (idx j) = padded (data.getD []) := recv_slot_self hle
  have hother : ∀ i < n, i ≠ j → (s.recv idx j data).slot (idx i) = s.slot (idx i) :=
    fun i hi hne => recv_slot_other hle fun he => hne (hidx i hi j hj he)
  -- the messages on their way are not disturbed
  have hkept : ∀ k < n, j ≠ k →
      s.sentFrom (idx j) k ++ List.replicate (s.due idx j k) ((s.recv idx j data).slot (idx j)) =
        (s.received j).map padded := by
    intro k hk hne
    rw [← h.flow j hj k hk hne]
    rcases hcalm with hu | hsame
    · rw [due_eq_zero h hj hu hk hne.symm, List.replicate_zero, List.replicate_zero]
    · rw [hsame]
  cases data with
  | none =>
    refine ⟨h.up, h.down, h.others, h.short, fun i hi k hk hne => ?_⟩
    by_cases hij : i = j
    · subst hij
      exact hkept k hk hne
    · rw [hother i hi hij]
      exact h.flow i hi k hk hne
  | some m =>
    have hup : (s.recv idx j (some m)).up j = s.up j ++ [idx j] := Function.update_self _ _ _
    have hrec : (s.recv idx j (some m)).received j = s.received j ++ [m] := Function.update_self _ _ _
    have hup' : ∀ i, i ≠ j → (s.recv idx j (some m)).up i = s.up i :=
      fun i hi => Function.update_of_ne hi _ _
    have hrec' : ∀ i, i ≠ j → (s.recv idx j (some m)).received i = s.received i :=
      fun i hi => Function.update_of_ne hi _ _
    constructor
    · refine (Function.forall_update_iff s.up fun i cs => i < n → ∀ c ∈ cs, c = idx i).2
        ⟨fun hj c hc => ?_, fun i _ => h.up i⟩
      rcases List.mem_append.1 hc with hc | hc
      · exact h.up j hj c hc
      · exact List.mem_singleton.1 hc
    · exact h.down
    · exact h.others
    · refine (Function.forall_update_iff s.received fun i ms => i < n → ∀ m ∈ ms, m.length < _).2
        ⟨fun hj m' hm => ?_, fun i _ => h.short i⟩
      rcases List.mem_append.1 hm with hm | hm
      · exact h.short j hj m' hm
      · rw [List.mem_singleton.1 hm]
        exact hlen m rfl
    · intro i hi k hk hne
      by_cases hij : i = j
      · subst hij
        have hdue : (s.recv idx i (some m)).due idx i k = s.due idx i k + 1 := by
          unfold due
          rw [hup, List.length_append, List.length_singleton]
          show (s.up i).length + 1 + (s.down k).count (idx i) = _
          omega
        rw [hdue, hrec, List.replicate_succ', ← List.append_assoc, List.map_append]
        exact congrArg₂ _ (hkept k hk hne) (congrArg (fun x => [x]) hself)
      · rw [hother i hi hij, hrec' i hij, due, hup' i hij]
        exact h.flow i hi k hk hne

theorem flows_relay (hidx : ∀ i < n, ∀ j < n, idx i = idx j → i = j) (h : Flows n idx s) (hj : j < n) :
    Flows n idx (s.relay n j) := by
  unfold relay
  cases hup : s.up j with
  | nil => exact h
  | cons c rest =>
    dsimp only
    obtain rfl : c = idx j := h.up j hj c (by rw [hup]; exact List.mem_cons_self)
    constructor
    · exact (Function.forall_update_iff s.up fun i cs => i < n → ∀ c ∈ cs, c = idx i).2
        ⟨fun hj c hc => h.up j hj c (by rw [hup]; exact List.mem_cons_of_mem _ hc), fun i _ => h.up i⟩
    · intro k hk c hc
      dsimp only at hc
      split_ifs at hc with hne
      · rcases List.mem_append.1 hc with hc | hc
        · exact h.down k hk c hc
        · exact ⟨j, hj, hne.2.symm, List.mem_singleton.1 hc⟩
      · exact h.down k hk c hc
    · exact h.others
    · exact h.short
    · intro i hi k hk hne
      have hflow := h.flow i hi k hk hne
      -- one number less in the child's pipe, one more in each of the others
      have hdue : (Function.update s.up j rest i).length +
          (if k < n ∧ k ≠ j then s.down k ++ [idx j] else s.down k).count (idx i) =
            s.due idx i k := by
        unfold due
        by_cases hij : i = j
        · subst hij
          rw [Function.update_self, if_pos ⟨hk, hne.symm⟩, hup, List.count_append,
            List.count_singleton_self, List.length_cons]
          omega
        · have hidx' : idx j ≠ idx i := fun he => hij (hidx j hj i hi he).symm
          rw [Function.update_of_ne hij]
          split_ifs
          · rw [List.count_append, List.count_singleton, if_neg (by simpa using hidx')]
            rfl
          · rfl
      rw [← hdue] at hflow
      exact hflow

theorem flows_send (hidx : ∀ i < n, ∀ j < n, idx i = idx j → i = j) (h : Flows n idx s) (hj : j < n) :
    Flows n idx (s.send j) := by
  unfold send
  cases hdown : s.down j with
  | nil => exact h
  | cons c rest =>
    dsimp only
    obtain ⟨i₀, hi₀, hne₀, rfl⟩ := h.down j hj c (by rw [hdown]; exact List.mem_cons_self)
    constructor
    · exact h.up
    · exact (Function.forall_update_iff s.down fun k cs =>
        k < n → ∀ c ∈ cs, ∃ i < n, i ≠ k ∧ c = idx i).2
        ⟨fun hj c hc => h.down j hj c (by rw [hdown]; exact List.mem_cons_of_mem _ hc),
          fun k _ => h.down k⟩
    · refine (Function.forall_update_iff s.sent fun k xs =>
        k < n → ∀ x ∈ xs, ∃ i < n, i ≠ k ∧ x.1 = idx i).2 ⟨fun hj x hx => ?_, fun k _ => h.others k⟩
      rcases List.mem_append.1 hx with hx | hx
      · exact h.others j hj x hx
      · rw [List.mem_singleton.1 hx]
        exact ⟨i₀, hi₀, hne₀, rfl⟩
    · exact h.short
    · intro i hi k hk hne
      have hflow := h.flow i hi k hk hne
      unfold sentFrom due slot at hflow ⊢
      dsimp only
      by_cases hkj : k = j
      · subst hkj
        rw [hdown] at hflow
        rw [Function.update_self, Function.update_self, List.filter_append, List.map_append]
        by_cases hii : i = i₀
        · subst hii
          rw [List.count_cons_self, ← Nat.add_assoc, List.replicate_succ] at hflow
          simpa [slot] using hflow
        · have hidx' : idx i₀ ≠ idx i := fun he => hii (hidx i₀ hi₀ i hi he).symm
          rw [List.count_cons_of_ne hidx'] at hflow
          simpa [slot, hidx'] using hflow
      · rw [Function.update_of_ne hkj, Function.update_of_ne hkj]
        exact hflow

theorem step_flows (hidx : ∀ i < n, ∀ j < n, idx i = idx j → i = j) (h : Flows n idx s)
    (hs : Step n idx s a t) (hcalm : s.Calm n idx a) : Flows n idx t := by
  obtain ⟨hal, rfl⟩ := hs
  cases a with
  | recv j data => exact flows_recv hidx h hal.1 hal.2 hcalm
  | relay j => exact flows_relay hidx h hal
  | send j => exact flows_send hidx h hal

/-- With nothing on its way, what was sent is what was received. -/
theorem Flows.sentFrom_eq (h : Flows n idx s) (hd : s.Drained n) {i j : ℕ} (hi : i < n) (hj : j < n)
    (hne : i ≠ j) : s.sentFrom (idx i) j = (s.received i).map padded := by
  have hflow := h.flow i hi j hj hne
  have hdue : s.due idx i j = 0 := by
    rw [due, (hd i hi).1, (hd j hj).2]
    rfl
  rwa [hdue, List.replicate_zero, List.append_nil] at hflow

theorem Flows.delivered (h : Flows n idx s) (hd : s.Drained n) : Delivered padded n idx s :=
  ⟨fun _ hi _ hj hne => .of_eq (h.sentFrom_eq hd hi hj hne), h.others⟩

/-- What is sent is as long as a slot, and no message is. -/
theorem Flows.delivered_id (h : Flows n idx s) (hd : s.Drained n) :
    Delivered id n idx s ↔ n ≤ 1 ∨ ∀ i < n, s.received i = [] := by
  constructor
  · intro hdel
    rcases Nat.lt_or_ge 1 n with hn | hn
    · right
      intro i hi
      obtain ⟨j, hj, hne⟩ : ∃ j < n, i ≠ j := by
        rcases Nat.eq_zero_or_pos i with rfl | hpos
        · exact ⟨1, hn, by omega⟩
        · exact ⟨0, by omega, by omega⟩
      rw [List.eq_nil_iff_forall_not_mem]
      intro m hm
      have hperm := hdel.each i hi j hj hne
      rw [List.map_id, h.sentFrom_eq hd hi hj hne] at hperm
      obtain ⟨m', hm', he⟩ := List.mem_map.1 (hperm.symm.subset hm)
      have hlong := padded_length (h.short i hi m' hm').le
      have hshort := h.short i hi m hm
      rw [← he] at hshort
      omega
    · exact .inl hn
  · intro hcase
    refine ⟨fun i hi j hj hne => ?_, h.others⟩
    rw [h.sentFrom_eq hd hi hj hne]
    rcases hcase with hn | hnil
    · omega
    · rw [hnil i hi]
      exact .refl _

end Chat

/-- **Messages through the shared memory.** In a run in which no child receives while the number of its
slot is about to be read, unless its slot stays the same, every other child sends each message once,
in a slot filled up with zeros, and nobody sends a message back. As a slot is longer than any message,
the bytes sent are never those received. -/
theorem chat_delivers {n : ℕ} {idx : ℕ → ℕ} {mem : Buf} {acts : List Act} {s : Chat}
    (hidx : ∀ i < n, ∀ j < n, idx i = idx j → i = j)
    (hr : Run (fun s a t => Chat.Step n idx s a t ∧ s.Calm n idx a) (Chat.start mem) acts s)
    (hd : s.Drained n) : s.Delivered padded n idx ∧
      (s.Delivered id n idx ↔ n ≤ 1 ∨ ∀ i < n, s.received i = []) := by
  have h : s.Flows n idx := by
    refine hr.invariant ?_ (Chat.flows_start n idx mem)
    intro s a t h hs
    exact Chat.step_flows hidx h hs.1 hs.2
  exact ⟨h.delivered hd, h.delivered_id hd⟩

/-- One message, read before the next. -/
theorem chat_delivers_one :
    let s := [.recv 0 (some [104, 105]), .relay 0, .send 1].foldl (Chat.exec 2 id)
      (Chat.start fun _ => NUL)
    s.sentFrom 0 1 = [padded [104, 105]] := by
  intro s
  have hr : Run (fun s a t => Chat.Step 2 id s a t ∧ s.Calm 2 id a) (Chat.start fun _ => NUL)
      [.recv 0 (some [104, 105]), .relay 0, .send 1] s := by
    refine .cons ⟨⟨⟨by decide, ?_⟩, rfl⟩, .inl ?_⟩ (.cons ⟨⟨(by decide : 0 < 2), rfl⟩, trivial⟩
      (.cons ⟨⟨(by decide : 1 < 2), rfl⟩, trivial⟩ (.nil _)))
    · intro m hm
      obtain rfl := Option.some.inj hm
      decide
    · rintro ⟨k, -, -, h | h⟩ <;> exact absurd h List.not_mem_nil
  have hd : s.Drained 2 := by
    intro j hj
    interval_cases j <;> exact ⟨rfl, rfl⟩
  have hdel := (chat_delivers (fun i _ j _ he => he) hr hd).1
  exact List.perm_singleton.1 (hdel.each 0 (by decide) 1 (by decide) (by decide))

/-- The second message of a client is received before the number of the first has been read: the other
child sends the second one twice. -/
theorem message_lost : ¬ ∀ (n : ℕ) (idx : ℕ → ℕ) (mem : Buf) (acts : List Act) (s : Chat),
    (∀ i < n, ∀ j < n, idx i = idx j → i = j) → Run (Chat.Step n idx) (Chat.start mem) acts s →
      s.Drained n → s.Delivered padded n idx := by
  intro hall
  let s₂ := ((Chat.start fun _ => NUL).recv id 0 (some [97])).recv id 0 (some [98])
  let acts : List Act := [.recv 0 (some [97]), .recv 0 (some [98]), .relay 0, .relay 0, .send 1, .send 1]
  let s := acts.foldl (Chat.exec 2 id) (Chat.start fun _ => NUL)
  have hdata : ∀ b : UInt8, Chat.Allowed 2 (.recv 0 (some [b])) := by
    refine fun b => ⟨by decide, fun m hm => ?_⟩
    obtain rfl := Option.some.inj hm
    exact ⟨List.cons_ne_nil _ _, (by decide : 1 ≤ BUFFER_SIZE - 1)⟩
  have hr : Run (Chat.Step 2 id) (Chat.start fun _ => NUL) acts s :=
    .cons ⟨hdata 97, rfl⟩ (.cons ⟨hdata 98, rfl⟩ (.cons ⟨(by decide : 0 < 2), rfl⟩
      (.cons ⟨(by decide : 0 < 2), rfl⟩ (.cons ⟨(by decide : 1 < 2), rfl⟩
        (.cons ⟨(by decide : 1 < 2), rfl⟩ (.nil _))))))
  have hd : s.Drained 2 := by
    intro j hj
    interval_cases j <;> exact ⟨rfl, rfl⟩
  have hperm := (hall 2 id _ acts s (fun i _ j _ he => he) hr hd).each 0 (by decide) 1 (by decide)
    (by decide)
  have hslot : s₂.slot 0 = padded [98] :=
    @Chat.recv_slot_self 0 id _ _ fun m hm => by
      obtain rfl := Option.some.inj hm
      decide
  have hsent : s.sentFrom (id 0) 1 = [s₂.slot 0, s₂.slot 0] := by
    simp [s, acts, s₂, Chat.sentFrom, Chat.exec, Chat.relay, Chat.send, Chat.recv, Chat.start, Chat.slot]
  have hmem : padded [97] ∈ [s₂.slot 0, s₂.slot 0] := by
    rw [← hsent]
    exact hperm.symm.subset List.mem_cons_self
  rw [hslot] at hmem
  have he : padded [97] = padded [98] := by simpa using hmem
  exact absurd (List.head_eq_of_cons_eq he) (by decide)

end SocketTest.ShmTest
