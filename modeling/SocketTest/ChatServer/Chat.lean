import SocketTest.ChatServer.Broadcast
import SocketTest.ChatServer.Client

/-!
# The server with its clients

The chat server and, behind each descriptor, the client it is connected to. What the server sends
comes to the client's socket, and what it receives is the next that the client has written. The
server and the clients take their steps in any order.

1. `Chat`, and its steps.
2. `Inv`: each client against what the log of the server says of its descriptor.
3. Steps of the server that are carried out, with what they do to the clients.
4. `transported`: what holds in every run.
5. `conversation`: what is shown in a run that is orderly on the server's side.
-/

namespace SocketTest.ChatServer

open SocketTest.Lib

/-! ## 1. The system -/

/-- The messages received from a client since it came. -/
def said (log : List Happening) (fd : ℤ) : List (List UInt8) :=
  log.foldl (fun ms h =>
    match h with
    | .accepted x => if x = fd then [] else ms
    | .received x m => if x = fd then ms ++ [m] else ms
    | _ => ms) []

/-- A client that the server has not sent anything yet. It may have written to its socket. -/
structure Newcomer (c : Client) : Prop where
  run : ∃ b cs, Run Client.Step (.start b) cs c
  link : c.link = .up
  received : c.received = []

/-- What the clients get to know of a step of the server that makes one log out of the other. -/
inductive Carries (log : List Happening) (client : ℤ → Client) :
    List Happening → (ℤ → Client) → Prop
  | quiet : Carries log client log client
  | accepted {fd : ℤ} {c : Client} (hc : Newcomer c) :
      Carries log client (log ++ [.accepted fd]) (Function.update client fd c)
  | refused (fd : ℤ) : Carries log client (log ++ [.refused fd]) client
  | closed (fd : ℤ) {l : Link} (hl : l ≠ .up) (h : (client fd).link = .reset → l = .reset) :
      Carries log client (log ++ [.closed fd])
        (Function.update client fd { client fd with link := l })
  | received {fd : ℤ} {m : List UInt8} (h : (said log fd).flatten ++ m <+: (client fd).out) :
      Carries log client (log ++ [.received fd m]) client
  | sent (fd : ℤ) (m : List UInt8) : Carries log client (log ++ [.sent fd m])
      (Function.update client fd ((client fd).arrive m))

structure Chat where
  server : Server
  client : ℤ → Client

inductive Chat.Event
  | server (a : Act)
  | client (fd : ℤ)

inductive Chat.Step (y : Chat) : Chat.Event → Chat → Prop
  | server {a : Act} {t : Server} {client : ℤ → Client} (hs : ChatServer.Step y.server a t)
      (hc : Carries y.server.log y.client t.log client) : Step y (.server a) ⟨t, client⟩
  | client {fd : ℤ} {a : Client.Cause} {c : Client} (ha : a ≠ .network)
      (hs : Client.Step (y.client fd) a c) :
      Step y (.client fd) { y with client := Function.update y.client fd c }

/-- The server makes no round but an orderly one. -/
def Chat.Event.Orderly (y : Chat) : Chat.Event → Prop
  | .server a => a.Orderly y.server
  | .client _ => True

/-! ## 2. The clients against the log -/

/-- The descriptor that it has happened to. -/
def Happening.fd : Happening → ℤ
  | .accepted fd | .refused fd | .closed fd | .received fd _ | .sent fd _ => fd

variable {log log' : List Happening} {client client' : ℤ → Client} {c c' : Client} {fd x z : ℤ}
  {s t : Server} {r : Replies} {h : Happening}

/-- What the log says of the server's side. -/
def Happening.Sound (log : List Happening) : Happening → Prop
  | .accepted fd => fd ∉ connected log
  | .sent _ m => NUL ∉ m
  | _ => True

/-- The server accepts a client that it does not have, and sends C strings. -/
theorem dispatch_sound (ha : s.Answers r) :
    (s.dispatch r).log = s.log ∨ ∃ h, (s.dispatch r).log = s.log ++ [h] ∧ h.Sound s.log := by
  unfold Server.dispatch
  dsimp only
  split_ifs with hacc herr hup hin hout
  · by_cases hcase : 0 ≤ r.connfd ∧ s.userCounter < USER_LIMIT
    · exact .inr ⟨_, (Server.acceptClient_accepted hcase.1 hcase.2).1.log, (ha.1 hcase.1).2⟩
    · rcases Server.acceptClient_other hcase with heq | heq
      · exact .inl (congrArg Server.log heq)
      · exact .inr ⟨.refused r.connfd, congrArg Server.log heq, trivial⟩
  · exact .inl rfl
  · exact .inr ⟨_, (Server.remove_removed s).log, trivial⟩
  · unfold Server.receive
    dsimp only
    cases r.received with
    | data m =>
      refine .inr ⟨.received (s.fds s.i).fd m, ?_, trivial⟩
      exact (Server.broadcast_same _ _).2
    | eof => exact .inl rfl
    | error again => cases again with
      | true => exact .inl rfl
      | false => exact .inr ⟨_, (Server.remove_removed _).log, trivial⟩
  · unfold Server.sendTo
    dsimp only
    cases (s.users (s.fds s.i).fd).writeBuf with
    | none => exact .inl rfl
    | some owner =>
      refine .inr ⟨.sent (s.fds s.i).fd
        ((cstring BUFFER_SIZE (s.users owner).buf 0).take r.taken), ?_, fun hnul => ?_⟩
      · rw [Server.setFd_log]
        rfl
      · exact cstring_ne_nul (List.mem_of_mem_take hnul) rfl
  · exact .inl rfl

theorem step_sound {a : Act} (hs : ChatServer.Step s a t) :
    t.log = s.log ∨ ∃ h, t.log = s.log ++ [h] ∧ h.Sound s.log := by
  cases hs with
  | poll => exact .inl (Server.polled_log s _)
  | @scan r hi ha =>
    have hanswers : (s.access s.i).Answers r := by
      unfold Server.Answers at ha ⊢
      rwa [Server.access_listenfd, Server.access_log]
    have hsound := dispatch_sound hanswers
    rwa [Server.access_log] at hsound

theorem said_concat (log : List Happening) (h : Happening) (fd : ℤ) :
    said (log ++ [h]) fd =
      match h with
      | .accepted x => if x = fd then [] else said log fd
      | .received x m => if x = fd then said log fd ++ [m] else said log fd
      | _ => said log fd := by
  rw [said, List.foldl_append, List.foldl_cons, List.foldl_nil]
  rfl

theorem said_other (hfd : h.fd ≠ fd) : said (log ++ [h]) fd = said log fd := by
  rw [said_concat]
  cases h with
  | accepted | received => exact if_neg hfd
  | refused | closed | sent => rfl

/-- What happens to another descriptor can make a message owed. -/
theorem account_other (log : List Happening) (hfd : h.fd ≠ fd) :
    (account (log ++ [h]) fd).joined = (account log fd).joined ∧
      (account (log ++ [h]) fd).got = (account log fd).got := by
  rw [account_concat]
  cases h with
  | accepted x | closed x | sent x m =>
    have hx : ¬ x = fd := hfd
    exact ⟨congrArg Account.joined (if_neg hx), congrArg Account.got (if_neg hx)⟩
  | refused x => exact ⟨rfl, rfl⟩
  | received x m =>
    exact ⟨(apply_ite Account.joined _ _ _).trans (ite_self _),
      (apply_ite Account.got _ _ _).trans (ite_self _)⟩

theorem mem_connected_other (hmem : fd ∈ connected (log ++ [h])) (hfd : h.fd ≠ fd) :
    fd ∈ connected log := by
  cases h with
  | accepted x =>
    rw [connected_accepted] at hmem
    exact (List.mem_append.1 hmem).resolve_right (fun hin => hfd (List.mem_singleton.1 hin).symm)
  | closed x =>
    rw [connected_closed] at hmem
    exact List.mem_of_mem_erase hmem
  | refused | received | sent => simpa using hmem

theorem nodup_concat (hnodup : (connected log).Nodup) (hsound : h.Sound log) :
    (connected (log ++ [h])).Nodup := by
  cases h with
  | accepted x =>
    rw [connected_accepted, ← List.concat_eq_append]
    exact hnodup.concat hsound
  | closed x =>
    rw [connected_closed]
    exact hnodup.erase x
  | refused | received | sent => simpa using hnodup

/-- A client against what the log says of its descriptor. -/
structure Linked (log : List Happening) (fd : ℤ) (c : Client) : Prop where
  inv : c.Inv
  joined : (account log fd).joined = true
  got : (account log fd).got.flatten = c.received
  clean : ∀ m ∈ (account log fd).got, NUL ∉ m
  heard : (said log fd).flatten <+: c.out

theorem Linked.other (hl : Linked log fd c) (hfd : h.fd ≠ fd) : Linked (log ++ [h]) fd c := by
  obtain ⟨hjoined, hgot⟩ := account_other log hfd
  refine ⟨hl.inv, hjoined.trans hl.joined, hgot ▸ hl.got, hgot ▸ hl.clean, ?_⟩
  rw [said_other hfd]
  exact hl.heard

theorem Newcomer.linked (hc : Newcomer c) (log : List Happening) (fd : ℤ) :
    Linked (log ++ [.accepted fd]) fd c := by
  have haccount : account (log ++ [.accepted fd]) fd = ⟨true, [], []⟩ := by
    rw [account_concat]
    exact if_pos rfl
  have hsaid : said (log ++ [.accepted fd]) fd = [] := by
    rw [said_concat]
    exact if_pos rfl
  obtain ⟨b, cs, hr⟩ := hc.run
  refine ⟨Client.inv_run hr, ?_, ?_, ?_, ?_⟩
  · rw [haccount]
  · rw [haccount, hc.received]
    rfl
  · rw [haccount]
    exact fun m hm => absurd hm List.not_mem_nil
  · rw [hsaid]
    exact List.nil_prefix

theorem Linked.received (hl : Linked log fd c) {m : List UInt8}
    (hnext : (said log fd).flatten ++ m <+: c.out) : Linked (log ++ [.received fd m]) fd c := by
  have haccount : account (log ++ [.received fd m]) fd = account log fd := by
    rw [account_concat]
    exact if_neg (fun h => h.2 rfl)
  have hsaid : said (log ++ [.received fd m]) fd = said log fd ++ [m] := by
    rw [said_concat]
    exact if_pos rfl
  refine ⟨hl.inv, haccount ▸ hl.joined, haccount ▸ hl.got, haccount ▸ hl.clean, ?_⟩
  rw [hsaid, List.flatten_append, List.flatten_singleton]
  exact hnext

theorem Linked.sent (hl : Linked log fd c) {m : List UInt8} (hm : NUL ∉ m) :
    Linked (log ++ [.sent fd m]) fd (c.arrive m) := by
  have haccount : account (log ++ [.sent fd m]) fd =
      { account log fd with got := (account log fd).got ++ [m] } := by
    rw [account_concat]
    exact if_pos rfl
  have hsaid : said (log ++ [.sent fd m]) fd = said log fd := said_concat _ _ _
  refine ⟨hl.inv.arrive m, ?_, ?_, ?_, ?_⟩
  · rw [haccount]
    exact hl.joined
  · rw [haccount]
    show ((account log fd).got ++ [m]).flatten = c.received ++ m
    rw [List.flatten_append, List.flatten_singleton, hl.got]
  · rw [haccount]
    intro m' hm'
    rcases List.mem_append.1 hm' with hm' | hm'
    · exact hl.clean m' hm'
    · exact List.mem_singleton.1 hm' ▸ hm
  · rw [hsaid]
    exact hl.heard

theorem Carries.linked (hc : Carries log client log' client') (hnodup : (connected log).Nodup)
    (hsound : ∀ h, log' = log ++ [h] → h.Sound log)
    (hlinked : ∀ fd ∈ connected log, Linked log fd (client fd)) :
    ∀ fd ∈ connected log', Linked log' fd (client' fd) := by
  intro fd hfd
  cases hc with
  | quiet => exact hlinked fd hfd
  | @accepted x c hc =>
    by_cases hx : fd = x
    · rw [hx, Function.update_self]
      exact hc.linked log x
    · rw [Function.update_of_ne hx]
      exact (hlinked fd (mem_connected_other hfd (Ne.symm hx))).other (Ne.symm hx)
  | refused x =>
    rw [connected_refused] at hfd
    obtain ⟨hinv, hjoined, hgot, hclean, hheard⟩ := hlinked fd hfd
    have haccount : account (log ++ [.refused x]) fd = account log fd := account_concat _ _ _
    have hsaid : said (log ++ [.refused x]) fd = said log fd := said_concat _ _ _
    exact ⟨hinv, haccount ▸ hjoined, haccount ▸ hgot, haccount ▸ hclean, hsaid ▸ hheard⟩
  | closed x hl hreset =>
    have hx : fd ≠ x := by
      rintro rfl
      rw [connected_closed] at hfd
      exact hnodup.not_mem_erase hfd
    rw [Function.update_of_ne hx]
    exact (hlinked fd (mem_connected_other hfd (Ne.symm hx))).other (Ne.symm hx)
  | @received x m hnext =>
    rw [connected_received] at hfd
    by_cases hx : fd = x
    · subst hx
      exact (hlinked fd hfd).received hnext
    · exact (hlinked fd hfd).other (Ne.symm hx)
  | sent x m =>
    rw [connected_sent] at hfd
    by_cases hx : fd = x
    · subst hx
      rw [Function.update_self]
      exact (hlinked fd hfd).sent (hsound _ rfl)
    · rw [Function.update_of_ne hx]
      exact (hlinked fd hfd).other (Ne.symm hx)

/-- A client goes on. -/
theorem Linked.step {a : Client.Cause} (hl : Linked log fd c) (ha : a ≠ .network)
    (hs : Client.Step c a c') : Linked log fd c' := by
  have hout : c'.received = c.received ∧ c.out <+: c'.out := by
    cases a with
    | program => cases hs with
      | leave | recv | input | splice | sigpipe => exact ⟨rfl, List.prefix_rfl⟩
      | flush => exact ⟨rfl, List.prefix_append _ _⟩
    | idle => cases hs with
      | idle => exact ⟨rfl, List.prefix_rfl⟩
    | user => cases hs with
      | type | finish => exact ⟨rfl, List.prefix_rfl⟩
    | network => exact absurd rfl ha
  exact ⟨hl.inv.step hs, hl.joined, hl.got.trans hout.1.symm, hl.clean, hl.heard.trans hout.2⟩

/-- Without a NUL a message is shown whole. -/
theorem Linked.screen (hl : Linked log fd c) :
    c.lines.flatten ++ c.inbox = (account log fd).got.flatten := by
  obtain ⟨ms, hwhole, -, hlines⟩ := hl.inv.printed
  have hclean : ∀ m ∈ ms, NUL ∉ m := by
    intro m hm hnul
    have hin : NUL ∈ (account log fd).got.flatten := by
      rw [hl.got, ← hwhole]
      exact List.mem_append_left _ (List.mem_flatten_of_mem hm hnul)
    obtain ⟨m', hm', hnul'⟩ := List.mem_flatten.1 hin
    exact hl.clean m' hm' hnul'
  have hshown : ms.map Client.shown = ms :=
    (List.map_congr_left fun m hm => Client.shown_of_no_nul (hclean m hm)).trans (List.map_id ms)
  rw [hlines, hshown, hwhole, hl.got]

/-- What was received from the clients that came later is owed to a client. -/
def Passed (log : List Happening) : Prop :=
  ∀ x z, [x, z].Sublist (connected log) → (said log z).Sublist (account log x).owed

theorem pair_sublist_concat {l : List ℤ} (hpair : [x, z].Sublist (l ++ [fd])) :
    [x, z].Sublist l ∨ z = fd := by
  obtain ⟨l₁, l₂, heq, hl₁, hl₂⟩ := List.sublist_append_iff.1 hpair
  rcases List.sublist_singleton.1 hl₂ with rfl | rfl
  · rw [List.append_nil] at heq
    exact .inl (heq ▸ hl₁)
  · have hlast : some z = some fd := by
      simpa using congrArg List.getLast? heq
    exact .inr (Option.some.inj hlast)

theorem Passed.concat (hp : Passed log) (hnodup : (connected log).Nodup) (hsound : h.Sound log)
    (hjoined : ∀ fd ∈ connected log, (account log fd).joined = true) : Passed (log ++ [h]) := by
  intro x z hpair
  cases h with
  | accepted fd =>
    rw [connected_accepted] at hpair
    rcases pair_sublist_concat hpair with hold | rfl
    · have hx : fd ≠ x := by
        rintro rfl
        exact hsound (hold.subset (List.mem_cons_self ..))
      have hz : fd ≠ z := by
        rintro rfl
        exact hsound (hold.subset (List.mem_cons_of_mem _ (List.mem_cons_self ..)))
      have haccount : account (log ++ [.accepted fd]) x = account log x := by
        rw [account_concat]
        exact if_neg hx
      rw [haccount, said_other (h := .accepted fd) hz]
      exact hp x z hold
    · have hsaid : said (log ++ [.accepted z]) z = [] := by
        rw [said_concat]
        exact if_pos rfl
      rw [hsaid]
      exact List.nil_sublist _
  | refused fd =>
    rw [connected_refused] at hpair
    rw [said_concat, account_concat]
    exact hp x z hpair
  | closed fd =>
    rw [connected_closed] at hpair
    have howed : (account (log ++ [.closed fd]) x).owed = (account log x).owed := by
      rw [account_concat]
      exact (apply_ite Account.owed _ _ _).trans (ite_self _)
    rw [howed, said_concat]
    exact hp x z (hpair.trans List.erase_sublist)
  | received fd m =>
    rw [connected_received] at hpair
    have hx := hjoined x (hpair.subset (List.mem_cons_self ..))
    have hne : x ≠ z := List.pairwise_pair.1 (hnodup.sublist hpair)
    have howed : (account (log ++ [.received fd m]) x).owed =
        if fd = x then (account log x).owed else (account log x).owed ++ [m] := by
      rw [account_concat]
      show Account.owed (if (account log x).joined = true ∧ fd ≠ x then _ else _) = _
      by_cases hfd : fd = x
      · rw [if_neg (fun h => h.2 hfd), if_pos hfd]
      · rw [if_pos ⟨hx, hfd⟩, if_neg hfd]
    rw [howed, said_concat]
    show (if fd = z then said log z ++ [m] else said log z).Sublist _
    by_cases hz : fd = z
    · rw [if_pos hz, if_neg (fun h => hne (h.symm.trans hz))]
      exact (hp x z hpair).append_right [m]
    · rw [if_neg hz]
      split_ifs
      · exact hp x z hpair
      · exact (hp x z hpair).trans (List.sublist_append_left _ _)
  | sent fd m =>
    rw [connected_sent] at hpair
    have howed : (account (log ++ [.sent fd m]) x).owed = (account log x).owed := by
      rw [account_concat]
      exact (apply_ite Account.owed _ _ _).trans (ite_self _)
    rw [howed, said_concat]
    exact hp x z hpair

namespace Chat

variable {y y' : Chat} {e : Event} {es : List Event}

structure Inv (y : Chat) : Prop where
  nodup : (connected y.server.log).Nodup
  linked : ∀ fd ∈ connected y.server.log, Linked y.server.log fd (y.client fd)
  passed : Passed y.server.log

theorem inv_start (users : ℤ → ClientData) (raw : ℤ → PollFd) (listenfd : ℤ)
    (client : ℤ → Client) : Inv ⟨.start users raw listenfd, client⟩ where
  nodup := List.nodup_nil
  linked _ hfd := absurd hfd List.not_mem_nil
  passed _ _ hpair := absurd (List.sublist_nil.1 hpair) (List.cons_ne_nil _ _)

theorem Inv.step (hy : Inv y) (hs : Step y e y') : Inv y' := by
  obtain ⟨hnodup, hlinked, hpassed⟩ := hy
  cases hs with
  | @server a t client hstep hc =>
    have hsound : ∀ h, t.log = y.server.log ++ [h] → h.Sound y.server.log := by
      intro h heq
      rcases step_sound hstep with hsame | ⟨h', hlog, hh⟩
      · exact absurd (heq.symm.trans hsame) (by simp)
      · have : h' = h := by simpa using hlog.symm.trans heq
        exact this ▸ hh
    refine ⟨?_, hc.linked hnodup hsound hlinked, ?_⟩
    · rcases step_sound hstep with hsame | ⟨h, hlog, hh⟩
      · exact hsame ▸ hnodup
      · exact hlog ▸ nodup_concat hnodup hh
    · rcases step_sound hstep with hsame | ⟨h, hlog, hh⟩
      · exact hsame ▸ hpassed
      · exact hlog ▸ hpassed.concat hnodup hh (fun fd hfd => (hlinked fd hfd).joined)
  | @client fd a c ha hstep =>
    refine ⟨hnodup, fun x hx => ?_, hpassed⟩
    show Linked _ x (Function.update y.client fd c x)
    by_cases hfd : x = fd
    · subst hfd
      rw [Function.update_self]
      exact (hlinked x hx).step ha hstep
    · rw [Function.update_of_ne hfd]
      exact hlinked x hx

theorem inv_run {users : ℤ → ClientData} {raw : ℤ → PollFd} {listenfd : ℤ}
    (hr : Run Step ⟨.start users raw listenfd, client⟩ es y) : Inv y :=
  hr.invariant (fun _ _ _ => Inv.step) (inv_start users raw listenfd client)

/-! ## 3. Carrying out the steps of the server -/

/-- The clients behind a happening; `c` is the one that is accepted. -/
def carry (c : Client) (client : ℤ → Client) : Happening → ℤ → Client
  | .accepted fd => Function.update client fd c
  | .closed fd => Function.update client fd { client fd with link := .reset }
  | .sent fd m => Function.update client fd ((client fd).arrive m)
  | .refused _ | .received _ _ => client

/-- What a step of the server adds to its log. -/
def news (s : Server) (a : Act) : List Happening := (s.exec a).log.drop s.log.length

/-- A step of the server, with what becomes of the clients. -/
def exec (c : Client) (y : Chat) (a : Act) : Chat :=
  ⟨y.server.exec a, (news y.server a).foldl (carry c) y.client⟩

/-- What is received is the next that the client has written. -/
def allows (y : Chat) (a : Act) : Bool :=
  y.server.allows a && (news y.server a).all fun h =>
    match h with
    | .received fd m => ((said y.server.log fd).flatten ++ m).isPrefixOf (y.client fd).out
    | _ => true

/-- A test for `Act.Orderly`. -/
def tidy (s : Server) : Act → Bool
  | .poll _ => true
  | .scan r => s.isOrderly r

theorem orderly_of_tidy {a : Act} (h : tidy s a = true) : a.Orderly s := by
  cases a with
  | poll => trivial
  | scan r => exact Server.orderly_of_isOrderly h

theorem step_exec {a : Act} (hc : Newcomer c) (h : y.allows a = true) :
    Step y (.server a) (y.exec c a) := by
  obtain ⟨hallows, hnext⟩ := Bool.and_eq_true_iff.1 h
  have hstep := y.server.step_exec a hallows
  refine .server hstep ?_
  rcases step_sound hstep with hlog | ⟨h, hlog, -⟩
  · have hnews : news y.server a = [] := by
      rw [news, hlog, List.drop_length]
    rw [hlog, hnews]
    exact .quiet
  · have hnews : news y.server a = [h] := by
      rw [news, hlog, List.drop_left]
    rw [hnews, List.all_cons, List.all_nil, Bool.and_true] at hnext
    rw [hlog, hnews]
    cases h with
    | accepted => exact .accepted hc
    | refused => exact .refused _
    | closed => exact .closed _ Link.noConfusion (fun _ => rfl)
    | received => exact .received (List.isPrefixOf_iff_prefix.1 hnext)
    | sent => exact .sent _ _

/-- A client that has written a line before the server accepts it. -/
def greeter : Client :=
  (({ (Client.start false).type [104, 105] with phase := .splicing } : Client).splice 2).flush

theorem greeter_newcomer : Newcomer greeter where
  run := by
    let typed := (Client.start false).type [104, 105]
    have htype : Client.Step (.start false) .user typed := Client.User.type _ rfl
    have hinput : Client.Step typed .program { typed with phase := .splicing } :=
      Client.Proceed.input rfl rfl rfl (.inl (List.cons_ne_nil _ _))
    have hsplice : Client.Step { typed with phase := .splicing } .program
        (({ typed with phase := .splicing } : Client).splice 2) :=
      Client.Proceed.splice rfl (by decide) (by decide) (fun h => absurd h (by decide))
    have hflush : Client.Step (({ typed with phase := .splicing } : Client).splice 2) .program
        greeter := Client.Proceed.flush rfl (by decide) (List.cons_ne_nil _ _)
    exact ⟨_, _, .cons htype (.cons hinput (.cons hsplice (.single hflush)))⟩
  link := rfl
  received := rfl

/-- Two clients come, the second one is heard and the first is served. -/
def greetings : List Act :=
  pass [POLLIN] 4 .eof 5 ++ pass [POLLIN] 5 .eof 5 ++
    pass [0, 0, POLLIN] (-1) (.data [104, 105]) 5 ++ pass [0, POLLOUT] (-1) .eof 5

def empty : Chat := ⟨Server.blank, fun _ => .start false⟩

def greeted : Chat := greetings.foldl (exec greeter) empty

theorem greeted_run : ∃ es, Run (fun y e z => Step y e z ∧ e.Orderly y) empty es greeted := by
  have hr : Run (fun y a z => Step y (.server a) z ∧ a.Orderly y.server) empty greetings
      greeted := by
    refine Run.of_permits (fun y a h => ?_) (by decide +kernel : Run.permits (fun y a =>
      y.allows a && tidy y.server a) (exec greeter) empty greetings = true)
    obtain ⟨ha, ho⟩ := Bool.and_eq_true_iff.1 h
    exact ⟨step_exec greeter_newcomer ha, orderly_of_tidy ho⟩
  exact ⟨_, hr.simulates (f := id) (g := .server) (I := fun _ => True) (fun _ _ _ _ _ => trivial)
    (fun _ _ _ _ hs => hs) trivial⟩

/-! ## 4. Any run -/

/-- In any run, a client shows, or is about to show, what the server has sent it since it came, and
nothing is cut from it; and what was typed there is what the server has heard of it, what is on its way,
and what the client still has. -/
theorem transported {users : ℤ → ClientData} {raw : ℤ → PollFd} {listenfd : ℤ}
    (hr : Run Step ⟨.start users raw listenfd, client⟩ es y) (hfd : fd ∈ connected y.server.log) :
    let log := y.server.log
    let c := y.client fd
    c.lines.flatten ++ c.inbox = (account log fd).got.flatten ∧
      ∃ way, (said log fd).flatten ++ way ++ c.pipe ++ c.stdin = c.typed := by
  have hl := (inv_run hr).linked fd hfd
  obtain ⟨way, hway⟩ := hl.heard
  exact ⟨hl.screen, way, by rw [hway, hl.inv.sent]⟩

theorem transported_greeted :
    let log := greeted.server.log
    let c := greeted.client 5
    c.lines.flatten ++ c.inbox = (account log 5).got.flatten ∧
      ∃ way, (said log 5).flatten ++ way ++ c.pipe ++ c.stdin = c.typed := by
  obtain ⟨es, hr⟩ := greeted_run
  exact transported (hr.mono fun _ _ _ hs => hs.1) (by decide +kernel)

/-! ## 5. Orderly runs -/

structure Steady (y : Chat) : Prop where
  inv : Inv y
  good : y.server.Good
  delivers : y.server.Delivers

theorem Steady.step (hy : Steady y) (hs : Step y e y') (ho : e.Orderly y) : Steady y' := by
  have hinv := hy.inv.step hs
  cases hs with
  | client => exact ⟨hinv, hy.good, hy.delivers⟩
  | server hstep => cases hstep with
    | poll _ hp =>
      exact ⟨hinv, Server.good_poll hy.good hp, Server.delivers_poll hy.delivers hp⟩
    | scan hi ha =>
      exact ⟨hinv, Server.good_scan hy.good hi ha ho.stays,
        Server.delivers_scan hy.delivers hy.good hi ha ho⟩

/-- When the rounds of the server are orderly, a client shows nothing but what it is owed, in order;
and of a client that came after it and that the server has heard in full, it shows, or is about to show,
everything that was typed there, once it is not waiting to be served. -/
theorem conversation {users : ℤ → ClientData} {raw : ℤ → PollFd} {listenfd : ℤ} (hl : 0 ≤ listenfd)
    (hraw : (raw USER_LIMIT).fd < 0)
    (hr : Run (fun y e z => Step y e z ∧ e.Orderly y) ⟨.start users raw listenfd, client⟩ es y)
    (hfd : fd ∈ connected y.server.log) :
    let log := y.server.log
    let c := y.client fd
    c.lines.flatten <+: (account log fd).owed.flatten ∧
      (¬ y.server.Waits fd → ∀ z, [fd, z].Sublist (connected log) →
        (said log z).flatten = (y.client z).typed →
          (y.client z).typed.Sublist (c.lines.flatten ++ c.inbox)) := by
  intro log c
  have hsteady : Steady y :=
    hr.invariant (I := Steady) (fun _ _ _ hy hs => hy.step hs.1 hs.2)
      ⟨inv_start users raw listenfd client, Server.good_start hl hraw,
        Server.delivers_start users raw listenfd⟩
  obtain ⟨hinv, -, hdelivers⟩ := hsteady
  have hscreen : c.lines.flatten ++ c.inbox = (account log fd).got.flatten :=
    (hinv.linked fd hfd).screen
  constructor
  · have hgot : c.lines.flatten <+: (account log fd).got.flatten :=
      hscreen ▸ List.prefix_append _ _
    by_cases hw : y.server.Waits fd
    · obtain ⟨owner, -, howed⟩ := hdelivers.waiting fd hfd hw
      rw [howed, List.flatten_append]
      exact hgot.trans (List.prefix_append _ _)
    · rwa [hdelivers.settled fd hfd hw]
  · intro hw z hpair hheard
    have hsaid : (said log z).Sublist (account log fd).got :=
      hdelivers.settled fd hfd hw ▸ hinv.passed fd z hpair
    rw [← hheard, hscreen]
    exact hsaid.flatten

/-- What was typed at the second client has come to the first. -/
theorem conversation_greeted :
    (greeted.client 5).typed = [104, 105] ∧
      (greeted.client 5).typed.Sublist
        ((greeted.client 4).lines.flatten ++ (greeted.client 4).inbox) := by
  obtain ⟨es, hr⟩ := greeted_run
  have hfd : (4 : ℤ) ∈ connected greeted.server.log := by decide +kernel
  refine ⟨by decide +kernel, ?_⟩
  exact (conversation (by decide) (by decide) hr hfd).2
    (by decide +kernel) 5 (by decide +kernel) (by decide +kernel)

end Chat

end SocketTest.ChatServer
