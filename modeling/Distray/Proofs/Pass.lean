/-
The proxy's pairing is right.

During a pass the poll list is out of date.  `Pass` says how far: an entry's descriptor
either has been closed since, and is then among the deleted ones, or still belongs to
the connection it was filled from.  With the table in order as well, whatever is looked
up for an entry is found, and is the entry's own connection.

What is kept in every run is less than what is kept in those where `accept` does no harm.
In the former a connection without any side may come in, and nothing is lost by that but
the pairing; in the latter the pairing is right at every point.
-/
import Distray.Proofs.ProxyMoves

namespace Distray

open Octets

namespace Proxy

/-! ### The poll list during a pass

When a connection is closed on account of one side, the entry of the other side may still
be to come.  The deleted descriptors are there against that: an entry is only looked at when
its descriptor is not among them, and then its connection is there.
-/

/-- The connection an entry was filled from still has the entry's descriptor. -/
def Owned (s : Proxy) (entry : Pollfd) : Prop :=
  ∃ c ∈ s.connections, entry.owner = some c.addr ∧ entry.fd ∈ c.place.tokens

/-- Which entry the proxy is busy with, once it has looked at the deleted descriptors. -/
def busyWith : Pc → Option Nat
  | .sending i | .checking i => some i
  | _ => none

structure Pass (s : Proxy) : Prop where
  polled : s.result ≠ -1
  /-- An entry has lost its descriptor, or it is still in place. -/
  entries : ∀ i entry, 2 ≤ i → s.pollfds[i]? = some entry →
    entry.fd ∈ s.deletedFds ∨ s.Owned entry
  live : ∀ i entry, busyWith s.pc = some i → s.pollfds[i]? = some entry →
    entry.fd ∉ s.deletedFds
  noExit : ∀ why, s.pc ≠ .exited why

/-- Changes of the connections that leave the entries their owners. -/
theorem Pass.of_owned {s t : Proxy} (h : Pass s) (hresult : t.result = s.result)
    (hpollfds : t.pollfds = s.pollfds) (hdeleted : ∀ fd ∈ s.deletedFds, fd ∈ t.deletedFds)
    (howned : ∀ entry, s.Owned entry → entry.fd ∈ t.deletedFds ∨ t.Owned entry)
    (hlive : ∀ i entry, busyWith t.pc = some i → s.pollfds[i]? = some entry →
      entry.fd ∉ t.deletedFds)
    (hexit : ∀ why, t.pc ≠ .exited why) : Pass t := by
  refine ⟨by rw [hresult]; exact h.polled, ?_, ?_, hexit⟩
  · intro i entry hi hentry
    rw [hpollfds] at hentry
    rcases h.entries i entry hi hentry with hdel | hown
    · exact Or.inl (hdeleted _ hdel)
    · exact howned entry hown
  · rw [hpollfds]
    exact hlive

/-- Only the program counter moves on. -/
theorem Pass.pc {s : Proxy} (h : Pass s) {pc : Pc}
    (hlive : ∀ i entry, busyWith pc = some i → s.pollfds[i]? = some entry →
      entry.fd ∉ s.deletedFds)
    (hexit : ∀ why, pc ≠ .exited why) : Pass { s with pc := pc } :=
  h.of_owned rfl rfl (fun _ hfd => hfd) (fun _ hown => Or.inr hown) hlive hexit

theorem Pass.start (workerServerFd controllerServerFd : Int) :
    Pass (start workerServerFd controllerServerFd) := by
  refine ⟨?_, ?_, ?_, ?_⟩ <;> simp [Proxy.start]

/-- A new poll list names every descriptor's own connection. -/
theorem Pass.fresh (s : Proxy) {result : Int} (hresult : result ≠ -1)
    (revents : List PollFlags) :
    Pass { s with
      result := result
      pollfds := setRevents (Pollfd.listening s.workerServerFd ::
        .listening s.controllerServerFd :: s.connections.flatMap Connection.addPollfds) revents
      deletedFds := []
      pc := .receiving 0 } := by
  refine ⟨hresult, fun i entry hi hentry => Or.inr ?_, by simp [busyWith], by simp⟩
  obtain ⟨old, hold, hfd, howner⟩ := setRevents_getElem? hentry
  obtain ⟨j, rfl⟩ : ∃ j, i = j + 2 := ⟨i - 2, by omega⟩
  rw [List.getElem?_cons_succ, List.getElem?_cons_succ] at hold
  obtain ⟨c, hc, hmem⟩ := List.mem_flatMap.mp (List.mem_of_getElem? hold)
  obtain ⟨haddr, htokens⟩ := Connection.of_mem_addPollfds hmem
  exact ⟨c, hc, howner.trans haddr, hfd ▸ htokens⟩

theorem Owned.accepted {s t : Proxy} {i : Nat} {fd : Int} {entry : Pollfd}
    (hacc : Accepted i fd s t) (h : s.Owned entry) : t.Owned entry := by
  obtain ⟨c, hc, howner, hmem⟩ := h
  cases hacc with
  | @joined k x hk hx hlacks =>
      obtain ⟨j, hj⟩ := List.mem_iff_getElem?.mp hc
      by_cases hkj : k = j
      · rw [hkj, hj, Option.some.injEq] at hx
        rw [← hx] at hlacks
        refine ⟨c.setFd fd (side i), ?_, by rw [Connection.addr_setFd]; exact howner, ?_⟩
        · refine List.mem_iff_getElem?.mpr ⟨j, ?_⟩
          simp [hkj, hj]
        · by_cases hfd : fd = -1
          · rw [hfd, Connection.setFd_self hlacks]
            exact hmem
          · have hvacant : c.place.get (side i) = none := by
              rw [c.get_place, Connection.present_eq_none]
              exact hlacks
            rw [c.place_setFd hfd, (Place.tokens_put fd hvacant).mem_iff]
            exact List.mem_cons_of_mem _ hmem
      · refine ⟨c, List.mem_iff_getElem?.mpr ⟨j, ?_⟩, howner, hmem⟩
        simp [hkj, hj]
  | waits => exact ⟨c, List.mem_append_left _ hc, howner, hmem⟩

theorem Owned.set {s : Proxy} {entry : Pollfd} (h : s.Owned entry) {k : Nat}
    {c c' : Connection} (hc : s.connections[k]? = some c) (hsame : SameEnds c c') (tmp : Bytes)
    (sockets : Int → Option Socket) (next : Pc) :
    Owned { s with
      connections := s.connections.set k c', tmpBuffer := tmp
      sockets := sockets, pc := next } entry := by
  obtain ⟨x, hx, howner, hmem⟩ := h
  obtain ⟨j, hj⟩ := List.mem_iff_getElem?.mp hx
  by_cases hkj : k = j
  · subst hkj
    rw [hc, Option.some.injEq] at hj
    subst hj
    refine ⟨c', ?_, by rw [hsame.addr]; exact howner, by rw [hsame.place]; exact hmem⟩
    exact List.mem_iff_getElem?.mpr ⟨k, by
      simp [(List.getElem?_eq_some_iff.mp hc).1]⟩
  · refine ⟨x, List.mem_iff_getElem?.mpr ⟨j, ?_⟩, howner, hmem⟩
    simp [hkj, hj]

theorem Owned.without {s : Proxy} {entry : Pollfd} (h : s.Owned entry) {k : Nat}
    {c : Connection} (hc : s.connections[k]? = some c) (next : Pc) :
    entry.fd ∈ (s.without k c next).deletedFds ∨ (s.without k c next).Owned entry := by
  obtain ⟨x, hx, howner, hmem⟩ := h
  obtain ⟨j, hj⟩ := List.mem_iff_getElem?.mp hx
  by_cases hjk : j = k
  · subst hjk
    rw [hc, Option.some.injEq] at hj
    subst hj
    refine Or.inl ?_
    obtain ⟨hw | hw, -⟩ := Connection.mem_tokens.mp hmem
    · simp [Proxy.without, hw]
    · simp [Proxy.without, hw]
  · exact Or.inr ⟨x, List.mem_eraseIdx_iff_getElem?.mpr ⟨j, hjk, hj⟩, howner, hmem⟩

/-- **An entry that is not deleted finds its own connection.** -/
theorem Owned.find {s : Proxy} (h : Loose s) {entry : Pollfd} (hown : s.Owned entry) :
    ∃ k c, find s.connections entry.fd entry.fd = some (k, c) ∧
      s.connections[k]? = some c ∧ entry.owner = some c.addr ∧ entry.fd ∈ c.place.tokens := by
  obtain ⟨c, hc, howner, hmem⟩ := hown
  obtain ⟨k, hfind, hk⟩ := h.find_own hc hmem
  exact ⟨k, c, hfind, hk, howner, hmem⟩

/-! ### What every step keeps -/

/-- The result of `accept` is a descriptor that is not open, or -1. -/
def mayAccept (s : Proxy) : Input → Bool
  | .accept fd => fd = -1 || s.freshAccept (.accept fd)
  | _ => true

abbrev MayAccept (s : Proxy) (input : Input) : Prop := s.mayAccept input = true

theorem FreshAccept.may {s : Proxy} {input : Input} (h : s.FreshAccept input) :
    s.MayAccept input := by
  cases input with
  | accept fd =>
      simp only [FreshAccept] at h
      simp [MayAccept, mayAccept, h]
  | _ => rfl

theorem mayAccept_cases {s : Proxy} {fd : Int} (h : s.MayAccept (.accept fd)) :
    fd = -1 ∨ 0 ≤ fd ∧ s.sockets fd = none := by
  simp only [MayAccept, mayAccept, freshAccept, Bool.or_eq_true, Bool.and_eq_true,
    decide_eq_true_eq, Option.isNone_iff_eq_none] at h
  exact h.imp_right fun h => ⟨h.1.1.1, h.2⟩

/-- What holds of every run, whether or not calls of `accept` fail. -/
structure Steady (s : Proxy) : Prop where
  loose : Loose s
  pass : Pass s

/-- Moving on when the entry at hand is dealt with. -/
theorem Steady.pc {s : Proxy} (h : Steady s) {pc : Pc}
    (hlive : ∀ i entry, busyWith pc = some i → s.pollfds[i]? = some entry →
      entry.fd ∉ s.deletedFds)
    (hexit : ∀ why, pc ≠ .exited why) : Steady { s with pc := pc } :=
  ⟨⟨h.loose.nodup, h.loose.nonneg, h.loose.sockets, h.loose.addrs, h.loose.addrs_lt⟩,
    h.pass.pc hlive hexit⟩

/-- An entry that is looked at is not deleted, so its connection is there. -/
theorem Steady.find {s : Proxy} (h : Steady s) {i : Nat} {entry : Pollfd} (hi : 2 ≤ i)
    (hentry : s.pollfds[i]? = some entry) (hlive : entry.fd ∉ s.deletedFds) :
    ∃ k c, Proxy.find s.connections entry.fd entry.fd = some (k, c) ∧
      s.connections[k]? = some c ∧ entry.owner = some c.addr ∧ entry.fd ∈ c.place.tokens :=
  ((h.pass.entries i entry hi hentry).resolve_left hlive).find h.loose

/-- What is found is the connection the entry was filled from. -/
theorem Steady.found {s : Proxy} (h : Steady s) {i : Nat} {entry : Pollfd} (hi : 2 ≤ i)
    (hentry : s.pollfds[i]? = some entry) (hlive : entry.fd ∉ s.deletedFds) {k : Nat}
    {c : Connection} (hfind : Proxy.find s.connections entry.fd entry.fd = some (k, c)) :
    s.connections[k]? = some c ∧ entry.fd ∈ c.place.tokens := by
  obtain ⟨k', c', hfound, hc, -, hmem⟩ := h.find hi hentry hlive
  rw [hfind, Option.some.injEq, Prod.mk.injEq] at hfound
  obtain ⟨rfl, rfl⟩ := hfound
  exact ⟨hc, hmem⟩

theorem Steady.accepted {s : Proxy} (h : Steady s) {i : Nat} {entry : Pollfd} {fd : Int}
    (hentry : s.pollfds[i]? = some entry) (hlive : entry.fd ∉ s.deletedFds)
    (hmay : s.MayAccept (.accept fd)) : Steady (s.acceptOn i fd) := by
  have hacc := h.loose.acceptOn h.pass.polled i fd
  have hloose : Loose (s.acceptOn i fd) := by
    rcases mayAccept_cases hmay with rfl | ⟨hnonneg, hnone⟩
    · exact h.loose.failed hacc
    · exact h.loose.accepted hacc hnonneg hnone
  refine ⟨hloose, ?_⟩
  obtain ⟨hpc, hpollfds, hresult, hdeleted⟩ := hacc.same
  refine h.pass.of_owned hresult hpollfds (fun x hx => by rwa [hdeleted])
    (fun e hown => Or.inr (hown.accepted hacc)) ?_ ?_
  · intro j e hbusy he
    rw [hpc, busyWith, Option.some.injEq] at hbusy
    rw [← hbusy, hentry, Option.some.injEq] at he
    rw [hdeleted, ← he]
    exact hlive
  · rw [hpc]
    simp

theorem Steady.without {s : Proxy} (h : Steady s) {k : Nat} {c : Connection}
    (hc : s.connections[k]? = some c) (i : Nat) : Steady (s.without k c (.receiving i)) := by
  refine ⟨h.loose.without hc _, h.pass.of_owned rfl rfl ?_
    (fun entry hown => hown.without hc _) (by simp [Proxy.without, busyWith])
    (by simp [Proxy.without])⟩
  intro fd hfd
  exact List.mem_cons_of_mem _ (List.mem_cons_of_mem _ hfd)

theorem Steady.passed {s : Proxy} (h : Steady s) {k : Nat} {c c' : Connection}
    (hc : s.connections[k]? = some c) (hsame : SameEnds c c') {i : Nat} {entry : Pollfd}
    (hentry : s.pollfds[i]? = some entry) (hlive : entry.fd ∉ s.deletedFds)
    (rx tx tmp : Bytes) {pc : Pc} (hpc : busyWith pc = some i) (hexit : ∀ why, pc ≠ .exited why) :
    Steady { s with
      connections := s.connections.set k c', tmpBuffer := tmp
      sockets := Proxy.passed s.sockets entry.fd rx tx, pc := pc } := by
  refine ⟨h.loose.passed hc hsame _ _ _ _ _, h.pass.of_owned rfl rfl (fun _ hfd => hfd)
    (fun e hown => Or.inr (hown.set hc hsame _ _ _)) ?_ hexit⟩
  intro j e hbusy he
  rw [hpc, Option.some.injEq] at hbusy
  rw [← hbusy, hentry, Option.some.injEq] at he
  exact he ▸ hlive

/--
What a step does to the connections: nothing, or it accepts, closes one, or passes bytes
into or out of one.
-/
inductive Effect (s : Proxy) : Input → Proxy → Prop
  | nothing {input : Input} {t : Proxy} (hconnections : t.connections = s.connections)
      (hsockets : t.sockets = s.sockets) (hnext : t.nextAddr = s.nextAddr) : Effect s input t
  | accepted {i : Nat} {fd : Int} {t : Proxy} (hpc : s.pc = .receiving i)
      (hacc : Accepted i fd s t) : Effect s (.accept fd) t
  | closed {input : Input} {k i : Nat} {c : Connection} (hc : s.connections[k]? = some c) :
      Effect s input (s.without k c (.receiving i))
  | received {r : Except Errno Bytes} {fd : Int} {k : Nat} {c c' : Connection} {tmp : Bytes}
      {pc : Pc} (hc : s.connections[k]? = some c) (hmem : fd ∈ c.place.tokens)
      (hok : c.receive s.tmpBuffer fd r = .ok (.ok (c', tmp))) :
      Effect s (.recv r) { s with
        connections := s.connections.set k c', tmpBuffer := tmp
        sockets := Proxy.passed s.sockets fd (r.toOption.getD []) [], pc := pc }
  | sent {r : Except Errno Nat} {fd : Int} {k : Nat} {c c' : Connection} {out : Bytes}
      {pc : Pc} (hc : s.connections[k]? = some c) (hmem : fd ∈ c.place.tokens)
      (hok : c.send fd r = .ok (.ok (c', out))) :
      Effect s (.send r) { s with
        connections := s.connections.set k c'
        sockets := Proxy.passed s.sockets fd [] out, pc := pc }

/-- **Each step has one of these effects, and keeps the table and the pass in order.** -/
theorem Steady.move {s t : Proxy} {input : Input} (h : Steady s) (hmay : s.MayAccept input)
    (hmove : Move s input t) : Effect s input t ∧ Steady t := by
  cases hmove with
  | polled hpc hresult =>
      exact ⟨.nothing rfl rfl rfl, ⟨h.loose.nodup, h.loose.nonneg, h.loose.sockets, h.loose.addrs,
        h.loose.addrs_lt⟩, Pass.fresh s hresult _⟩
  | skipReceive hpc hentry hlive =>
      refine ⟨.nothing rfl rfl rfl, h.pc ?_ (by simp)⟩
      intro j e hbusy he
      rw [busyWith, Option.some.injEq] at hbusy
      rw [← hbusy, hentry, Option.some.injEq] at he
      exact he ▸ hlive
  | @accept i entry fd hpc hentry hlive =>
      exact ⟨.accepted hpc (h.loose.acceptOn h.pass.polled i fd), h.accepted hentry hlive hmay⟩
  | lostIncoming hpc hentry hlive hi hfind =>
      obtain ⟨k, c, hfound, -⟩ := h.find hi hentry hlive
      exact absurd (hfind.symm.trans hfound) (by simp)
  | @receive i entry k c r hpc hentry hlive hi hfind hfit =>
      obtain ⟨hc, hmem⟩ := h.found hi hentry hlive hfind
      unfold receiveFrom
      split
      · rename_i why hunknown
        exact absurd hunknown (Connection.receive_known hmem why)
      · rw [h.loose.closeConnection hc]
        exact ⟨.closed hc, h.without hc _⟩
      · exact ⟨.nothing rfl rfl rfl, h.pc (by simp [busyWith]) (by simp)⟩
      · rename_i c' tmp hok
        exact ⟨.received hc hmem hok,
          h.passed hc (Connection.receive_spec hok).1 hentry hlive _ _ _ rfl (by simp)⟩
  | lostOutgoing hpc hentry hi hfind =>
      obtain ⟨k, c, hfound, -⟩ :=
        h.find hi hentry (h.pass.live _ _ (by rw [hpc]; rfl) hentry)
      exact absurd (hfind.symm.trans hfound) (by simp)
  | @send i entry k c r hpc hentry hi hfind hfit =>
      have hlive := h.pass.live i entry (by rw [hpc]; rfl) hentry
      obtain ⟨hc, hmem⟩ := h.found hi hentry hlive hfind
      unfold sendTo
      split
      · rename_i why hunknown
        exact absurd hunknown (Connection.send_known hmem why)
      · exact ⟨.nothing rfl rfl rfl, h.pc (by simp [busyWith]) (by simp)⟩
      · rename_i c' out hok
        exact ⟨.sent hc hmem hok,
          h.passed hc (Connection.send_spec hok).1 hentry hlive _ _ _ rfl (by simp)⟩
  | @skipSend i hpc =>
      refine ⟨.nothing rfl rfl rfl, h.pc ?_ (by simp)⟩
      intro j e hbusy he
      rw [busyWith, Option.some.injEq] at hbusy
      exact h.pass.live j e (by rw [hpc, busyWith, hbusy]) he
  | lostDead hpc hentry hi hfind =>
      obtain ⟨k, c, hfound, -⟩ :=
        h.find hi hentry (h.pass.live _ _ (by rw [hpc]; rfl) hentry)
      exact absurd (hfind.symm.trans hfound) (by simp)
  | kill hpc hentry hi hfind =>
      obtain ⟨-, hc, -⟩ := find_eq_some hfind
      rw [h.loose.closeConnection hc]
      exact ⟨.closed hc, h.without hc _⟩
  | _ => exact ⟨.nothing rfl rfl rfl, h.pc (by simp [busyWith]) (by simp)⟩

theorem Steady.start (workerServerFd controllerServerFd : Int) :
    Steady (start workerServerFd controllerServerFd) :=
  ⟨(Table.start _ _).loose, Pass.start _ _⟩

/-- **The table and the pass are in order whatever `accept` returns.** -/
theorem reach_steady {workerServerFd controllerServerFd : Int} {s : Proxy}
    (h : (machine workerServerFd controllerServerFd).Reach MayAccept s) : Steady s :=
  Machine.Reach.invariant (P := Steady) (Steady.start _ _)
    (fun _ _ _ hs hmay hstep => (hs.move hmay (move_of_step hstep)).2) h

/-! ### What every step keeps while `accept` does no harm

Where `accept` succeeds, its descriptor is not open and so belongs to no connection.  Where
it fails, the -1 is written to a connection that has -1 there already, if there is one; it
is only when there is none that a connection without any side comes into the table.
-/

/-- `accept` succeeds, or a connection that lacks the side it was for is found again. -/
def harmless (s : Proxy) (input : Input) : Bool :=
  match s.pc, input with
  | .receiving i, .accept fd =>
      s.freshAccept (.accept fd) ||
        (fd = -1 && s.connections.any fun c => c.fd (side i) = -1)
  | _, input => s.freshAccept input

abbrev Harmless (s : Proxy) (input : Input) : Prop := s.harmless input = true

theorem FreshAccept.harmless {s : Proxy} {input : Input} (h : s.FreshAccept input) :
    s.Harmless input := by
  simp only [FreshAccept] at h
  unfold Harmless Proxy.harmless
  split
  · simp [h]
  · exact h

theorem Harmless.may {s : Proxy} {input : Input} (h : s.Harmless input) : s.MayAccept input := by
  unfold Harmless Proxy.harmless at h
  split at h
  · rw [Bool.or_eq_true, Bool.and_eq_true] at h
    rcases h with h | h
    · exact FreshAccept.may h
    · simp [MayAccept, mayAccept, h.1]
  · exact FreshAccept.may h

theorem harmless_cases {s : Proxy} {i : Nat} {fd : Int} (hpc : s.pc = .receiving i)
    (h : s.Harmless (.accept fd)) :
    (0 ≤ fd ∧ s.sockets fd = none) ∨ fd = -1 ∧ ∃ c ∈ s.connections, c.fd (side i) = -1 := by
  simp only [Harmless, Proxy.harmless, hpc, freshAccept, Bool.or_eq_true, Bool.and_eq_true,
    decide_eq_true_eq, Option.isNone_iff_eq_none, List.any_eq_true] at h
  exact h.imp_left fun h => ⟨h.1.1.1, h.2⟩

structure Inv (s : Proxy) : Prop where
  table : Table s
  pass : Pass s

theorem Inv.steady {s : Proxy} (h : Inv s) : Steady s := ⟨h.table.loose, h.pass⟩

/-- **Every step keeps the table and the pass in order.** -/
theorem Inv.move {s t : Proxy} {input : Input} (h : Inv s) (hharmless : s.Harmless input)
    (hmove : Move s input t) : Inv t := by
  obtain ⟨heffect, hsteady⟩ := h.steady.move hharmless.may hmove
  refine ⟨.of_loose hsteady.loose ?_, hsteady.pass⟩
  cases heffect with
  | nothing hconnections =>
      rw [places, hconnections]
      exact h.table.valid
  | @accepted i fd _ hpc hacc =>
      rcases harmless_cases hpc hharmless with ⟨hnonneg, hnone⟩ | ⟨rfl, c, hc, hlacks⟩
      · exact (h.table.accepted hacc hnonneg hnone).valid
      · rcases hacc.failed.2 with ⟨-, hsame, -⟩ | ⟨hall, -⟩
        · rw [places, hsame]
          exact h.table.valid
        · exact absurd hlacks (hall c hc)
  | closed hc =>
      rw [places_without]
      exact h.table.valid.eraseIdx _
  | received hc hmem hok =>
      simp only [places, Parts.map_set_of_eq hc (Connection.receive_spec hok).1.place]
      exact h.table.valid
  | sent hc hmem hok =>
      simp only [places, Parts.map_set_of_eq hc (Connection.send_spec hok).1.place]
      exact h.table.valid

/-- **The table and the pass are in order in every reachable state.** -/
theorem reach_inv {workerServerFd controllerServerFd : Int} {s : Proxy}
    (h : (machine workerServerFd controllerServerFd).Reach FreshAccept s) : Inv s :=
  Machine.Reach.invariant (P := Inv) ⟨Table.start _ _, Pass.start _ _⟩
    (fun _ _ _ hs hfresh hstep => hs.move hfresh.harmless (move_of_step hstep)) h

/-! ### Pairing

With the table in order, what was shown about places can be read off the connections: none
has two workers, nobody waits while somebody of the other kind does, and whoever joins is
put together with the one who has waited longest.
-/

/-- No connection lacks a worker while another, or the same, lacks a controller. -/
theorem Inv.sides {s : Proxy} (h : Inv s) {c x : Connection} (hc : c ∈ s.connections)
    (hx : x ∈ s.connections) (hw : c.workerFd = -1) : x.controllerFd ≠ -1 := by
  intro hm
  refine h.table.valid.oneSided c.place (List.mem_map_of_mem hc) x.place
    (List.mem_map_of_mem hx) .left (Connection.present_eq_none.mpr hw) ?_
  exact Connection.present_eq_none.mpr hm

theorem Inv.some_side {s : Proxy} (h : Inv s) :
    ∀ c ∈ s.connections, c.workerFd ≠ -1 ∨ c.controllerFd ≠ -1 := by
  intro c hc
  by_cases hw : c.workerFd = -1
  · exact Or.inr (h.sides hc hc hw)
  · exact Or.inl hw

theorem Inv.not_both_wait {s : Proxy} (h : Inv s) :
    ¬ ((∃ c ∈ s.connections, c.controllerFd = -1) ∧ ∃ c ∈ s.connections, c.workerFd = -1) := by
  rintro ⟨⟨x, hx, hm⟩, c, hc, hw⟩
  exact h.sides hc hx hw hm

/-- The descriptors in the list. -/
def descriptors (s : Proxy) : List Int :=
  s.connections.flatMap fun c => [c.workerFd, c.controllerFd].filter (· ≠ -1)

theorem descriptors_eq (s : Proxy) : s.descriptors = Pairing.tokens s.places := by
  unfold descriptors Pairing.tokens places
  rw [List.flatMap_map]
  congr 1
  funext c
  simp only [Connection.place, Connection.present, Place.tokens]
  by_cases hw : c.workerFd = -1
  · by_cases hm : c.controllerFd = -1
    · simp [hw, hm]
    · simp [hw, hm]
  · by_cases hm : c.controllerFd = -1
    · simp [hw, hm]
    · simp [hw, hm]

/--
A newcomer on the side that entry `i` listens for has joined the connection that has
waited longest for it, or, if none waits, has begun to wait in a new one.
-/
def JoinedLongest (i : Nat) (fd : Int) (s t : Proxy) : Prop :=
  (∃ k c, s.connections[k]? = some c ∧ c.fd (side i) = -1 ∧
    (∀ x ∈ s.connections, x.fd (side i) = -1 → c.addr ≤ x.addr) ∧
    t.connections = s.connections.set k (c.setFd fd (side i))) ∨
  (∀ x ∈ s.connections, x.fd (side i) ≠ -1) ∧
    t.connections = s.connections ++ [(Connection.make s.nextAddr).setFd fd (side i)]

theorem Accepted.joinedLongest {s t : Proxy} (h : Table s) {i : Nat} {fd : Int}
    (hacc : Accepted i fd s t) : JoinedLongest i fd s t := by
  cases hacc with
  | @joined k c hk hc hlacks =>
      refine Or.inl ⟨k, c, hc, hlacks, ?_, Parts.modify_eq_set hc _⟩
      intro x hx hxlacks
      obtain ⟨-, -, -, hfirst⟩ := Pairing.vacancy_eq_some hk
      obtain ⟨j, hj⟩ := List.mem_iff_getElem?.mp hx
      -- whoever waits as well is further on, and was made later
      have hle : k ≤ j := by
        by_contra hlt
        refine hfirst j x.place (by omega) (by simp [Proxy.places, hj]) ?_
        rw [x.get_place, hxlacks]
        rfl
      rcases Nat.lt_or_eq_of_le hle with hlt | rfl
      · obtain ⟨hklt, rfl⟩ := List.getElem?_eq_some_iff.mp hc
        obtain ⟨hjlt, rfl⟩ := List.getElem?_eq_some_iff.mp hj
        have hsorted := List.pairwise_iff_getElem.mp h.addrs k j (by simpa using hklt)
          (by simpa using hjlt) hlt
        simp only [List.getElem_map] at hsorted
        omega
      · rw [hc, Option.some.injEq] at hj
        rw [hj]
  | waits hnone =>
      refine Or.inr ⟨?_, rfl⟩
      intro x hx hlacks
      refine Pairing.vacancy_eq_none hnone x.place (List.mem_map_of_mem hx) ?_
      rw [x.get_place, hlacks]
      rfl

/--
**The pairing is right in every reachable state.**  Every connection has a descriptor;
the descriptors are all different, and they are exactly those that are open; workers
and controllers never wait at the same time; whoever is accepted joins the connection
that has waited longest; an event on a descriptor that has not been deleted finds the
connection its entry was filled from; and the proxy never exits for want of one.
-/
theorem pairing_is_right (workerServerFd controllerServerFd : Int) (s : Proxy)
    (h : (machine workerServerFd controllerServerFd).Reach FreshAccept s) :
    (∀ c ∈ s.connections, c.workerFd ≠ -1 ∨ c.controllerFd ≠ -1) ∧
      s.descriptors.Nodup ∧
      (∀ fd, fd ∈ s.descriptors ↔ (s.sockets fd).isSome = true) ∧
      ¬ ((∃ c ∈ s.connections, c.controllerFd = -1) ∧ ∃ c ∈ s.connections, c.workerFd = -1) ∧
      (∀ i fd t, s.pc = .receiving i → step s (.accept fd) = some t →
        JoinedLongest i fd s t) ∧
      (∀ i entry, s.pc = .receiving i ∨ s.pc = .sending i ∨ s.pc = .checking i → 2 ≤ i →
        s.pollfds[i]? = some entry → entry.fd ∉ s.deletedFds →
        ∃ k c, find s.connections entry.fd entry.fd = some (k, c) ∧
          s.connections[k]? = some c ∧ entry.owner = some c.addr) ∧
      ∀ why, s.pc ≠ .exited why := by
  have hinv := reach_inv h
  refine ⟨?_, ?_, ?_, ?_, ?_, ?_, hinv.pass.noExit⟩
  · exact hinv.some_side
  · rw [descriptors_eq]
    exact hinv.table.valid.nodup
  · intro fd
    rw [descriptors_eq]
    exact (hinv.table.sockets fd).symm
  · exact hinv.not_both_wait
  · intro i fd t hpc hstep
    cases move_of_step hstep with
    | @accept j entry _ hpc' =>
        rw [hpc, Pc.receiving.injEq] at hpc'
        rw [← hpc']
        exact (hinv.table.loose.acceptOn hinv.pass.polled i fd).joinedLongest hinv.table
  · intro i entry _ hi hentry hlive
    obtain ⟨k, c, hfind, hk, howner, -⟩ := hinv.steady.find hi hentry hlive
    exact ⟨k, c, hfind, hk, howner⟩

/-! ### A worker and a controller meet -/

/-- The state some inputs lead to, the proxy listening on 3 and 4. -/
def after (s : Proxy) (inputs : List Input) : Proxy :=
  ((machine 3 4).exec FreshAccept s inputs).getD s

theorem run_after {s : Proxy} {inputs : List Input}
    (h : ((machine 3 4).exec FreshAccept s inputs).isSome = true) :
    (machine 3 4).Run FreshAccept s (after s inputs) := Machine.Run.of_replay h

/-- Steps in which nothing is asked. -/
def taus (n : Nat) : List Input := List.replicate n .tau

/-- A worker gets descriptor 5 and a controller 6, in one pass. -/
def meeting : List Input :=
  .poll 2 [{ pollin := true }, { pollin := true }] :: .accept 5 :: taus 2 ++ .accept 6 :: taus 3

theorem pairing_is_right_met :
    (after (start 3 4) meeting).descriptors = [5, 6] ∧
      (after (start 3 4) meeting).descriptors.Nodup ∧
      (∀ fd, fd ∈ (after (start 3 4) meeting).descriptors ↔
        ((after (start 3 4) meeting).sockets fd).isSome = true) ∧
      ∀ why, (after (start 3 4) meeting).pc ≠ .exited why := by
  have hrun : (machine 3 4).Run FreshAccept (start 3 4) (after (start 3 4) meeting) :=
    run_after (by decide +kernel)
  obtain ⟨-, hnodup, hopen, -, -, -, hexit⟩ := pairing_is_right 3 4 _ hrun
  exact ⟨by decide +kernel, hnodup, hopen, hexit⟩

end Proxy

end Distray
