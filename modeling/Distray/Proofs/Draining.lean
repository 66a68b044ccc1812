/-
The proxy starves nobody.

Whoever is at one end of a connection gets what was buffered for it, whatever the other
connections do: each time `poll` reports that its descriptor can be written to, the pass
comes to the entry, finds the connection that the entry was filled from, and sends.  The
only thing that can come in between is that the connection is closed.

How many bytes are sent is up to the operating system, but it is at least one each time.  So
what is promised is one byte of what was waiting for each pass in which the descriptor was
reported, which is enough to have all of it sent in the end.
-/
import Distray.Proofs.Relay
import Distray.Proofs.Turns

namespace Distray

open Octets

namespace Proxy

/-! ### What is asked, and what is reported -/

/-- What the program asks `poll` about. -/
def asked (s : Proxy) : List Pollfd :=
  Pollfd.listening s.workerServerFd :: .listening s.controllerServerFd ::
    s.connections.flatMap Connection.addPollfds

/-- `poll` returns, and reports that `fd` can be written to if it was asked about that. -/
def Reports (fd : Int) (s : Proxy) (input : Input) : Prop :=
  s.pc = .polling ∧ ∃ result revents, input = .poll result revents ∧
    ∀ x ∈ s.asked.zip revents, x.1.fd = fd → x.1.events.pollout = true → x.2.pollout = true

/-- The connection that the program is about to send to, and its descriptor. -/
def receiver (s : Proxy) : Option (Connection × Int) :=
  match s.pc with
  | .sending i => do
      let entry ← s.pollfds[i]?
      let (_, c) ← find s.connections entry.fd entry.fd
      some (c, entry.fd)
  | _ => none

/-- `::send` takes something, if there is something to send. -/
def takes (s : Proxy) : Input → Bool
  | .send (.ok 0) => s.receiver.all fun (c, fd) => !(c.outgoing fd).canSend
  | _ => true

/-- The steps of a proxy whose calls of `accept` and `send` do what they are for. -/
abbrev Willing (s : Proxy) (input : Input) : Prop :=
  s.FreshAccept input ∧ s.takes input = true

/-- A run with so many passes, each begun with the report that `fd` can be written to. -/
inductive Passes (workerServerFd controllerServerFd fd : Int) : Nat → Proxy → Proxy → Prop
  | none (s : Proxy) : Passes workerServerFd controllerServerFd fd 0 s s
  | other {k : Nat} {s u t : Proxy}
      (hrun : (machine workerServerFd controllerServerFd).Run Willing s u)
      (hrest : Passes workerServerFd controllerServerFd fd k u t) :
      Passes workerServerFd controllerServerFd fd k s t
  | reported {k : Nat} {s v u t : Proxy} {input : Input} (hreports : Reports fd s input)
      (hwilling : s.Willing input) (hstep : step s input = some v)
      (hrun : (machine workerServerFd controllerServerFd).Run Willing v u)
      (hpc : u.pc = .polling)
      (hrest : Passes workerServerFd controllerServerFd fd k u t) :
      Passes workerServerFd controllerServerFd fd (k + 1) s t

/-! ### On the way to an entry

Between the report of `poll` and the entry it was about there is the rest of the pass, in
which connections are accepted, served and closed.  Until the entry is reached, whoever is
at its connection's address has the same descriptors, or is gone; and then a byte goes out.
-/

/-- The program has not got past the `POLLOUT` branch of entry `j`. -/
def Before (j : Nat) : Pc → Prop
  | .receiving i | .sending i => i ≤ j
  | .checking i => i < j
  | _ => False

/-- The program is on its way to write to `fd`, for entry `j`. -/
structure Heading (fd : Int) (j : Nat) (s : Proxy) : Prop where
  connection : 2 ≤ j
  entry : ∃ entry, s.pollfds[j]? = some entry ∧ entry.fd = fd ∧ entry.revents.pollout = true
  live : fd ∉ s.deletedFds
  before : Before j s.pc

/-- Whoever is at that address has been sent more than `n` bytes on that side. -/
def Past (addr : Nat) (side : Side) (n : Nat) (s : Proxy) : Prop :=
  ∀ c ∈ s.connections, c.addr = addr → n < (sent s.sockets (c.fd side)).length

/-- A connection asks to be told when it can send what it has. -/
theorem Connection.asks {c : Connection} {side : Side} (hfd : c.fd side.other ≠ -1)
    (hbuffer : c.buffer side ≠ []) :
    ∃ entry ∈ c.addPollfds, entry.fd = c.fd side.other ∧ entry.events.pollout = true := by
  have hone : ∀ {fd : Int} {b : Buffer}, fd ≠ -1 → b.buffer ≠ [] →
      ∃ entry ∈ c.addPollfd fd b, entry.fd = fd ∧ entry.events.pollout = true := by
    intro fd b hfd hb
    rw [addPollfd, if_pos hfd]
    exact ⟨_, List.mem_singleton_self _, rfl, by simpa [Buffer.canSend] using hb⟩
  cases side with
  | left =>
      obtain ⟨entry, hmem, hentry⟩ := hone hfd hbuffer
      exact ⟨entry, List.mem_append_right _ hmem, hentry⟩
  | right =>
      obtain ⟨entry, hmem, hentry⟩ := hone hfd hbuffer
      exact ⟨entry, List.mem_append_left _ hmem, hentry⟩

/-- **With a report the pass sets out for the entry.** -/
theorem heading_of_poll {s t : Proxy} {input : Input} {c : Connection} {side : Side}
    (hc : c ∈ s.connections) (hfd : c.fd side.other ≠ -1) (hbuffer : c.buffer side ≠ [])
    (hreports : Reports (c.fd side.other) s input) (hstep : step s input = some t) :
    t.connections = s.connections ∧ t.sockets = s.sockets ∧
      ∃ j, t.pc.over = true ∨ Heading (c.fd side.other) j t := by
  obtain ⟨hpc, result, revents, rfl, hall⟩ := hreports
  obtain ⟨entry, hmem, hentry, hout⟩ := Connection.asks hfd hbuffer
  have hin : entry ∈ s.connections.flatMap Connection.addPollfds :=
    List.mem_flatMap.mpr ⟨c, hc, hmem⟩
  obtain ⟨i, hi⟩ := List.mem_iff_getElem?.mp hin
  have hasked : s.asked[i + 2]? = some entry := hi
  unfold step at hstep
  simp only [hpc] at hstep
  split at hstep
  · rw [Option.some.injEq] at hstep
    rw [← hstep]
    exact ⟨rfl, rfl, 0, Or.inl rfl⟩
  · split at hstep
    · rename_i hlength
      rw [Option.some.injEq] at hstep
      subst hstep
      have hlt : i + 2 < revents.length := by
        rw [hlength]
        exact (List.getElem?_eq_some_iff.mp hasked).1
      refine ⟨rfl, rfl, i + 2, Or.inr ⟨Nat.le_add_left 2 i, ?_, List.not_mem_nil, Nat.zero_le _⟩⟩
      have hflags := List.getElem?_eq_getElem hlt
      have hpair : (entry, revents[i + 2]) ∈ s.asked.zip revents :=
        List.mem_of_getElem? (List.getElem?_zip_eq_some.mpr ⟨hasked, hflags⟩)
      refine ⟨{ entry with revents := revents[i + 2] }, ?_, hentry, hall _ hpair hentry hout⟩
      show (setRevents s.asked revents)[i + 2]? = _
      rw [setRevents, List.getElem?_zipWith, hasked, hflags]
    · exact absurd hstep (by simp)

/-! ### Steps on the way -/

/-- Something goes out if there is something to send and `::send` takes something. -/
theorem Connection.send_takes {c c' : Connection} {fd : Int} {r : Except Errno Nat} {out : Bytes}
    (h : c.send fd r = .ok (.ok (c', out))) (hcan : (c.outgoing fd).canSend = true)
    (hsome : r ≠ .ok 0) : out ≠ [] := by
  have hone : ∀ {b : Buffer} {x : Buffer × Bytes}, b.send r = .ok x → b.canSend = true →
      x.2 ≠ [] := by
    intro b x hsend hb
    unfold Buffer.send at hsend
    rw [if_pos hb] at hsend
    cases r with
    | error e => simp at hsend
    | ok n =>
        simp only [Except.ok.injEq] at hsend
        rw [← hsend]
        intro hnil
        rcases List.take_eq_nil_iff.mp hnil with rfl | hempty
        · exact hsome rfl
        · simp [Buffer.canSend, hempty] at hb
  unfold Connection.send at h
  split at h
  · rename_i hfd
    rw [Connection.outgoing, if_pos hfd] at hcan
    rw [Except.ok.injEq] at h
    cases hr : c.c2w.send r with
    | error e => simp [hr, Except.map] at h
    | ok x =>
        simp only [hr, Except.map, Except.ok.injEq, Prod.mk.injEq] at h
        rw [← h.2]
        exact hone hr hcan
  · rename_i hfd
    rw [Connection.outgoing, if_neg hfd] at hcan
    split at h
    · rw [Except.ok.injEq] at h
      cases hr : c.w2c.send r with
      | error e => simp [hr, Except.map] at h
      | ok x =>
          simp only [hr, Except.map, Except.ok.injEq, Prod.mk.injEq] at h
          rw [← h.2]
          exact hone hr hcan
    · exact absurd h (by simp)

theorem Connection.outgoing_other {c : Connection} {side : Side}
    (hne : c.fd side ≠ c.fd side.other) :
    (c.outgoing (c.fd side.other)).buffer = c.buffer side := by
  cases side with
  | left =>
      have hother : c.controllerFd ≠ c.workerFd := Ne.symm hne
      show (if c.controllerFd = c.workerFd then c.c2w else c.w2c).buffer = c.w2c.buffer
      rw [if_neg hother]
  | right =>
      show (if c.workerFd = c.workerFd then c.c2w else c.w2c).buffer = c.c2w.buffer
      rw [if_pos rfl]

/-- An entry whose descriptor is not deleted is not passed over. -/
theorem looked_at {s t : Proxy} {input : Input} {i k : Nat} {entry : Pollfd} {c : Connection}
    (hpc : s.pc = .receiving i) (hentry : s.pollfds[i]? = some entry)
    (hlive : entry.fd ∉ s.deletedFds) (hi : 2 ≤ i)
    (hfind : find s.connections entry.fd entry.fd = some (k, c)) (hstep : step s input = some t) :
    t = { s with pc := .sending i } ∨ ∃ r, t = s.receiveFrom r i entry.fd k c := by
  unfold step at hstep
  simp only [hpc, hentry, if_neg hlive] at hstep
  split at hstep
  · rw [if_neg (show ¬ i ≤ 1 by omega)] at hstep
    simp only [hfind] at hstep
    cases input with
    | recv r =>
        simp only at hstep
        split at hstep
        · exact Or.inr ⟨r, (Option.some.inj hstep).symm⟩
        · exact absurd hstep (by simp)
    | _ => exact absurd hstep (by simp)
  · cases input with
    | tau => exact Or.inl (Option.some.inj hstep).symm
    | _ => exact absurd hstep (by simp)

/-- The `POLLOUT` branch is taken when it is reported. -/
theorem written_to {s t : Proxy} {input : Input} {i k : Nat} {entry : Pollfd} {c : Connection}
    (hpc : s.pc = .sending i) (hentry : s.pollfds[i]? = some entry) (hi : 2 ≤ i)
    (hout : entry.revents.pollout = true)
    (hfind : find s.connections entry.fd entry.fd = some (k, c)) (hstep : step s input = some t) :
    ∃ r, input = .send r ∧ t = s.sendTo r i entry.fd k c := by
  unfold step at hstep
  simp only [hpc, hentry, hout, hi, decide_true, Bool.and_self, if_true, hfind] at hstep
  cases input with
  | send r =>
      simp only at hstep
      split at hstep
      · exact ⟨r, rfl, (Option.some.inj hstep).symm⟩
      · exact absurd hstep (by simp)
  | _ => exact absurd hstep (by simp)

/-- The descriptors of another connection are not this one's. -/
theorem Heading.without {s : Proxy} {fd : Int} {j : Nat} (h : Inv s) (hheading : Heading fd j s)
    {c x : Connection} (hc : c ∈ s.connections) (hfd : fd ∈ c.place.tokens) {k i : Nat}
    (hx : s.connections[k]? = some x) (hne : x ≠ c) (hi : i ≤ j) :
    Heading fd j (s.without k x (.receiving i)) := by
  refine ⟨hheading.connection, hheading.entry, ?_, hi⟩
  have hother : fd ∉ x.place.tokens := by
    intro hmem
    obtain ⟨l, hl⟩ := List.mem_iff_getElem?.mp hc
    have hsame : l = k := Pairing.unique h.table.valid.nodup (by simp [places, hl])
      (by simp [places, hx]) hfd hmem
    rw [hsame, hx, Option.some.injEq] at hl
    exact hne hl
  rw [Connection.mem_tokens] at hother
  have hne := (Connection.mem_tokens.mp hfd).2
  intro hmem
  rcases List.mem_cons.mp hmem with heq | hmem
  · exact hother ⟨Or.inr heq, hne⟩
  · rcases List.mem_cons.mp hmem with heq | hmem
    · exact hother ⟨Or.inl heq, hne⟩
    · exact hheading.live hmem

theorem Past.without {s : Proxy} (h : Inv s) {c : Connection} {k : Nat}
    (hc : s.connections[k]? = some c) (next : Pc) (side : Side) (n : Nat) :
    Past c.addr side n (s.without k c next) := by
  intro x hx haddr
  obtain ⟨i, hik, hi⟩ := List.mem_eraseIdx_iff_getElem?.mp hx
  obtain rfl := h.table.eq_of_addr (List.mem_of_getElem? hi) (List.mem_of_getElem? hc) haddr
  have hfirst := h.table.loose.findIdx?_addr hi
  rw [h.table.loose.findIdx?_addr hc, Option.some.injEq] at hfirst
  exact absurd hfirst.symm hik

/-- Closing a connection, at an entry before `j`. -/
theorem Heading.closeConnection {s : Proxy} {j : Nat} {c x : Connection} {side : Side}
    (h : Inv s) (hheading : Heading (c.fd side) j s) (hc : c ∈ s.connections)
    (hfd : c.fd side ≠ -1) {k i : Nat} (hx : s.connections[k]? = some x) (hi : i ≤ j) (n : Nat) :
    Past c.addr side n (s.closeConnection x (.receiving i)) ∨
      Heading (c.fd side) j (s.closeConnection x (.receiving i)) := by
  rw [h.table.loose.closeConnection hx]
  by_cases hxc : x = c
  · rw [← hxc]
    exact Or.inl (Past.without h hx _ side n)
  · exact Or.inr (hheading.without h hc (Connection.fd_mem hfd) hx hxc hi)

/-- The entry at hand is another one. -/
theorem Heading.later {s : Proxy} {fd : Int} {i j : Nat} (hheading : Heading fd j s)
    (hreceiving : s.pc ≠ .receiving j) (hsending : s.pc ≠ .sending j)
    (hpc : s.pc = .receiving i ∨ s.pc = .sending i ∨ s.pc = .checking i) : i + 1 ≤ j := by
  have hbefore := hheading.before
  rcases hpc with hpc | hpc | hpc
  · have hne : i ≠ j := fun heq => hreceiving (heq ▸ hpc)
    rw [hpc] at hbefore
    exact Nat.lt_of_le_of_ne hbefore hne
  · have hne : i ≠ j := fun heq => hsending (heq ▸ hpc)
    rw [hpc] at hbefore
    exact Nat.lt_of_le_of_ne hbefore hne
  · rw [hpc] at hbefore
    exact hbefore

theorem Heading.of_same {s u : Proxy} {fd : Int} {j : Nat} (hheading : Heading fd j s)
    (hpollfds : u.pollfds = s.pollfds) (hdeleted : u.deletedFds = s.deletedFds)
    (hbefore : Before j u.pc) : Heading fd j u := by
  refine ⟨hheading.connection, ?_, ?_, hbefore⟩
  · rw [hpollfds]
    exact hheading.entry
  · rw [hdeleted]
    exact hheading.live

/-- **A step at another entry does not hold the program up.** -/
theorem Heading.onward {s t : Proxy} {input : Input} {j : Nat} {c : Connection} {side : Side}
    (h : Inv s) (hheading : Heading (c.fd side) j s) (hc : c ∈ s.connections)
    (hfd : c.fd side ≠ -1) (hreceiving : s.pc ≠ .receiving j) (hsending : s.pc ≠ .sending j)
    (hmove : Move s input t) (n : Nat) :
    t.pc.over = true ∨ Past c.addr side n t ∨ Heading (c.fd side) j t := by
  have hon : ∀ {u : Proxy}, u.pollfds = s.pollfds → u.deletedFds = s.deletedFds →
      Before j u.pc → u.pc.over = true ∨ Past c.addr side n u ∨ Heading (c.fd side) j u :=
    fun hpollfds hdeleted hbefore =>
      Or.inr (Or.inr (hheading.of_same hpollfds hdeleted hbefore))
  have hbefore := hheading.before
  have hlater : ∀ {i : Nat}, s.pc = .receiving i ∨ s.pc = .sending i ∨ s.pc = .checking i →
      i + 1 ≤ j := hheading.later hreceiving hsending
  cases hmove with
  | pollFailed hpc =>
      rw [hpc] at hbefore
      exact absurd hbefore id
  | polled hpc =>
      rw [hpc] at hbefore
      exact absurd hbefore id
  | @passEnd i hpc hnone =>
      obtain ⟨entry, hentry, -⟩ := hheading.entry
      have hlt := lt_of_entry hentry
      have hle := List.getElem?_eq_none_iff.mp hnone
      have hij := hlater (Or.inl hpc)
      omega
  | skipDeleted hpc => exact hon rfl rfl (hlater (Or.inl hpc))
  | skipReceive hpc => exact hon rfl rfl (Nat.le_of_succ_le (hlater (Or.inl hpc)))
  | @accept i entry fd hpc =>
      obtain ⟨hnext, hpollfds, -, hdeleted⟩ :=
        (h.table.loose.acceptOn h.pass.polled i fd).same
      refine hon hpollfds hdeleted ?_
      rw [hnext]
      exact Nat.le_of_succ_le (hlater (Or.inl hpc))
  | lostIncoming => exact Or.inl rfl
  | @receive i entry k x r hpc hentry hlive hi hfind =>
      obtain ⟨-, hx, -⟩ := find_eq_some hfind
      unfold receiveFrom
      split
      · exact Or.inl rfl
      · exact Or.inr (hheading.closeConnection h hc hfd hx (hlater (Or.inl hpc)) n)
      · exact Or.inl rfl
      · exact hon rfl rfl (Nat.le_of_succ_le (hlater (Or.inl hpc)))
  | lostOutgoing => exact Or.inl rfl
  | send hpc =>
      unfold sendTo
      split
      · exact Or.inl rfl
      · exact Or.inl rfl
      · exact hon rfl rfl (hlater (Or.inr (Or.inl hpc)))
  | skipSend hpc => exact hon rfl rfl (hlater (Or.inr (Or.inl hpc)))
  | lostDead => exact Or.inl rfl
  | kill hpc hentry hi hfind =>
      obtain ⟨-, hx, -⟩ := find_eq_some hfind
      exact Or.inr (hheading.closeConnection h hc hfd hx (hlater (Or.inr (Or.inr hpc))) n)
  | skipCheck hpc => exact hon rfl rfl (hlater (Or.inr (Or.inr hpc)))

/-- **At the entry the bytes go out, unless the connection is closed.** -/
theorem Heading.step {s t : Proxy} {input : Input} {j : Nat} {c : Connection} {side : Side}
    (h : Inv s) (hheading : Heading (c.fd side.other) j s) (hc : c ∈ s.connections)
    (hfd : c.fd side.other ≠ -1) (hbuffer : c.buffer side ≠ []) (htakes : s.takes input = true)
    (hstep : Proxy.step s input = some t) :
    t.pc.over = true ∨
      Past c.addr side.other (sent s.sockets (c.fd side.other)).length t ∨
      Heading (c.fd side.other) j t := by
  obtain ⟨entry, hentry, hown, hout⟩ := hheading.entry
  obtain ⟨k, hfind, hk⟩ := h.table.loose.find_own hc (Connection.fd_mem hfd)
  rw [← hown] at hfind
  by_cases hreceiving : s.pc = .receiving j
  · have hlive : entry.fd ∉ s.deletedFds := by
      rw [hown]
      exact hheading.live
    rcases looked_at hreceiving hentry hlive hheading.connection hfind hstep with rfl | ⟨r, rfl⟩
    · exact Or.inr (Or.inr ⟨hheading.connection, hheading.entry, hheading.live, Nat.le_refl j⟩)
    · unfold receiveFrom
      split
      · exact Or.inl rfl
      · rw [h.table.loose.closeConnection hk]
        exact Or.inr (Or.inl (Past.without h hk _ _ _))
      · exact Or.inl rfl
      · exact Or.inr (Or.inr ⟨hheading.connection, hheading.entry, hheading.live, Nat.le_refl j⟩)
  · by_cases hsending : s.pc = .sending j
    · obtain ⟨r, rfl, rfl⟩ :=
        written_to hsending hentry hheading.connection hout hfind hstep
      unfold sendTo
      split
      · exact Or.inl rfl
      · exact Or.inl rfl
      · rename_i c' out hok
        refine Or.inr (Or.inl ?_)
        have hopen : (s.sockets entry.fd).isSome = true := by
          rw [hown]
          exact (h.table.sockets _).mpr (mem_tokens_places hc (Connection.fd_mem hfd))
        have hne : c.fd side ≠ c.fd side.other := by
          have hother := h.table.fd_other hc (Connection.fd_mem hfd) side.other rfl
          rwa [Side.other_other] at hother
        have hcan : (c.outgoing entry.fd).canSend = true := by
          rw [hown, Buffer.canSend, Connection.outgoing_other hne]
          simpa using hbuffer
        have hsome : out ≠ [] := by
          refine Connection.send_takes hok hcan ?_
          rintro rfl
          simp [takes, receiver, hsending, hentry, hfind, hcan] at htakes
        intro x hx haddr
        have hside : x.fd side.other = entry.fd := by
          rcases List.mem_or_eq_of_mem_set hx with hx | rfl
          · rw [h.table.eq_of_addr hx hc haddr, hown]
          · rw [(Connection.send_spec hok).1.fd, hown]
        show _ < (sent (passed s.sockets entry.fd [] out) (x.fd side.other)).length
        rw [hside, sent_passed hopen, if_pos rfl, List.length_append, hown]
        exact Nat.lt_add_of_pos_right (List.length_pos_iff.mpr hsome)
    · exact hheading.onward h hc hfd hreceiving hsending (move_of_step hstep) _

/-! ### Passes

A run is cut at the passes in which the descriptor was reported, and each of these sends at
least one byte of what was there.  What is received in between goes to the end of the
buffer, so that the bytes that were there at first are the first to go.
-/

variable {workerServerFd controllerServerFd : Int}

/-- Whoever is in the table later at the address of a connection is that connection. -/
theorem Later.continues {s t : Proxy} (hinv : Inv s) (h : Later s t) {c c' : Connection}
    (hc : c ∈ s.connections) (hc' : c' ∈ t.connections) (haddr : c'.addr = c.addr) :
    Continues s.sockets t.sockets c c' := by
  rcases h.connections c' hc' with ⟨x, hx, hcont⟩ | ⟨hnew, -⟩
  · rwa [← hinv.table.eq_of_addr hx hc (hcont.addr.symm.trans haddr)]
  · have hlt := hinv.table.addrs_lt c hc
    omega

/-- Whoever is in the table at an address that was taken before was there before. -/
theorem Later.exists_before {s t : Proxy} (h : Later s t) {c' : Connection}
    (hc' : c' ∈ t.connections) (hlt : c'.addr < s.nextAddr) :
    ∃ c ∈ s.connections, c.addr = c'.addr := by
  rcases h.connections c' hc' with ⟨c, hc, hcont⟩ | ⟨hnew, -⟩
  · exact ⟨c, hc, hcont.addr.symm⟩
  · omega

theorem Past.later {s t : Proxy} (hinv : Inv s) (h : Later s t) {addr n : Nat} {side : Side}
    (hlt : addr < s.nextAddr) (hpast : Past addr side n s) : Past addr side n t := by
  intro c' hc' haddr
  obtain ⟨c, hc, hsame⟩ := h.exists_before hc' (haddr ▸ hlt)
  have hsent := (h.continues hinv hc hc' hsame.symm).sent side
  exact (hpast c hc (hsame.trans haddr)).trans_le hsent.length_le

/-- What a connection has for a side: the bytes that were received and not sent on. -/
theorem Connection.Faithful.length {sockets : Int → Option Socket} {c : Connection}
    (h : c.Faithful sockets) (side : Side) :
    (received sockets (c.fd side)).length
      = (sent sockets (c.fd side.other)).length + (c.buffer side).length := by
  rw [h side, List.length_append]

/-- As long as no more has been sent, what was there is still there. -/
theorem Continues.waits {sockets sockets' : Int → Option Socket} {c c' : Connection}
    (h : Continues sockets sockets' c c') (hfaithful : c.Faithful sockets) {side : Side}
    (hbuffer : c.buffer side ≠ []) :
    (Proxy.sent sockets (c.fd side.other)).length
        < (Proxy.sent sockets' (c'.fd side.other)).length ∨
      (Proxy.sent sockets' (c'.fd side.other)).length
        = (Proxy.sent sockets (c.fd side.other)).length ∧ c'.buffer side ≠ [] := by
  have hsent := (h.sent side.other).length_le
  have hreceived := (h.received side).length_le
  have hbefore := hfaithful.length side
  have hafter := (h.faithful hfaithful).length side
  have hsome := List.length_pos_iff.mpr hbuffer
  rcases Nat.lt_or_eq_of_le hsent with hlt | heq
  · exact Or.inl hlt
  · exact Or.inr ⟨heq.symm, List.length_pos_iff.mp (by omega)⟩

/--
A pass that has set out for an entry either has sent something, or lost the connection, by
the time the program polls again.
-/
theorem Heading.run {s t : Proxy} {j : Nat} {c : Connection} {side : Side}
    (hreach : (machine workerServerFd controllerServerFd).Reach FreshAccept s)
    (hheading : s.pc.over = true ∨ Heading (c.fd side.other) j s) (hc : c ∈ s.connections)
    (hfd : c.fd side.other ≠ -1) (hbuffer : c.buffer side ≠ [])
    (hrun : (machine workerServerFd controllerServerFd).Run Willing s t)
    (hpc : t.pc = .polling) :
    Past c.addr side.other (sent s.sockets (c.fd side.other)).length t := by
  have hinv := reach_inv hreach
  have hfresh : (machine workerServerFd controllerServerFd).Run FreshAccept s t :=
    hrun.mono fun _ _ hok => hok.1
  suffices hon : t.pc.over = true ∨
      Past c.addr side.other (sent s.sockets (c.fd side.other)).length t ∨
      Heading (c.fd side.other) j t by
    rcases hon with hover | hpast | hheading
    · rw [hpc] at hover
      exact absurd hover (by simp [Pc.over])
    · exact hpast
    · have hbefore := hheading.before
      rw [hpc] at hbefore
      exact absurd hbefore id
  clear hpc
  induction hrun with
  | refl => exact hheading.imp_right Or.inr
  | @step u t input hrun hok hstep ih =>
      have hrunu : (machine workerServerFd controllerServerFd).Run FreshAccept s u :=
        hrun.mono fun _ _ hok => hok.1
      obtain ⟨hinvu, hlateru⟩ := Later.of_run hinv hrunu
      have hlater : Later u t := .of_move hinvu hok.1 (move_of_step hstep)
      have hlt : c.addr < u.nextAddr := (hinv.table.addrs_lt c hc).trans_le hlateru.nextAddr
      rcases ih hrunu with hover | hpast | hon
      · exact absurd ((not_over_of_step hstep).symm.trans hover) (by simp)
      · exact Or.inr (Or.inl (hpast.later hinvu hlater hlt))
      · -- the connection as it is now
        by_cases hthere : ∃ x ∈ u.connections, x.addr = c.addr
        · obtain ⟨x, hx, haddr⟩ := hthere
          have hcont := hlateru.continues hinv hc hx haddr
          rcases hcont.waits (reach_faithful hreach c hc) hbuffer with hmore | ⟨hequal, hleft⟩
          · refine Or.inr (Or.inl (Past.later hinvu hlater hlt ?_))
            intro y hy hyaddr
            rwa [hinvu.table.eq_of_addr hy hx (hyaddr.trans haddr.symm)]
          · have hsame := hcont.fds side.other hfd
            rw [← hsame] at hon
            have hsteps := hon.step hinvu hx (hsame.symm ▸ hfd) hleft hok.2 hstep
            rw [haddr, hequal, hsame] at hsteps
            exact hsteps
        · refine Or.inr (Or.inl ?_)
          intro y hy hyaddr
          obtain ⟨x, hx, hxaddr⟩ := hlater.exists_before hy (hyaddr ▸ hlt)
          exact absurd ⟨x, hx, hxaddr.trans hyaddr⟩ hthere

/-- So many of the bytes that were there for a side have been sent, or the connection is gone. -/
def Served (k : Nat) (s t : Proxy) (c : Connection) (side : Side) : Prop :=
  ∀ c' ∈ t.connections, c'.addr = c.addr →
    (sent s.sockets (c.fd side.other)).length + min k (c.buffer side).length
      ≤ (sent t.sockets (c'.fd side.other)).length

theorem Served.zero {s t : Proxy} (hinv : Inv s) (h : Later s t) {c : Connection}
    (hc : c ∈ s.connections) (side : Side) : Served 0 s t c side := by
  intro c' hc' haddr
  rw [Nat.zero_min, Nat.add_zero]
  exact ((h.continues hinv hc hc' haddr).sent side.other).length_le

/-- What comes in is sent after what is there. -/
theorem Served.trans {s u t : Proxy} {c : Connection} {side : Side} {k l : Nat}
    (hreach : (machine workerServerFd controllerServerFd).Reach FreshAccept s)
    (hrun : (machine workerServerFd controllerServerFd).Run FreshAccept s u)
    (hrunt : (machine workerServerFd controllerServerFd).Run FreshAccept u t)
    (hc : c ∈ s.connections) (hfd : c.fd side.other ≠ -1) (h : Served k s u c side)
    (h' : ∀ x ∈ u.connections, x.fd side.other = c.fd side.other → Served l u t x side) :
    Served (k + l) s t c side := by
  obtain ⟨hinvu, hlateru⟩ := Later.of_run (reach_inv hreach) hrun
  have hlatert := (Later.of_run hinvu hrunt).2
  intro c' hc' haddr
  have hlt : c.addr < u.nextAddr :=
    ((reach_inv hreach).table.addrs_lt c hc).trans_le hlateru.nextAddr
  obtain ⟨x, hx, hxaddr⟩ := hlatert.exists_before hc' (haddr ▸ hlt)
  have hcont := hlateru.continues (reach_inv hreach) hc hx (hxaddr.trans haddr)
  have hreceived := (hcont.received side).length_le
  have hbefore := (reach_faithful hreach c hc).length side
  have hnow := (reach_faithful (hreach.trans hrun) x hx).length side
  have hfirst := h x hx (hxaddr.trans haddr)
  have hsecond := h' x hx (hcont.fds side.other hfd) c' hc' hxaddr.symm
  omega

/-- **A pass with a report sends at least one byte.** -/
theorem served_of_reported {s v u : Proxy} {input : Input} {c : Connection} {side : Side}
    (hreach : (machine workerServerFd controllerServerFd).Reach FreshAccept s)
    (hc : c ∈ s.connections) (hfd : c.fd side.other ≠ -1)
    (hreports : Reports (c.fd side.other) s input) (hwilling : s.Willing input)
    (hstep : step s input = some v)
    (hrun : (machine workerServerFd controllerServerFd).Run Willing v u)
    (hpc : u.pc = .polling) : Served 1 s u c side := by
  have hinv := reach_inv hreach
  have hfresh : (machine workerServerFd controllerServerFd).Run FreshAccept v u :=
    hrun.mono fun _ _ hok => hok.1
  have hreachv : (machine workerServerFd controllerServerFd).Reach FreshAccept v :=
    .step hreach hwilling.1 hstep
  by_cases hbuffer : c.buffer side = []
  · have hlater : Later s u := (Later.of_move hinv hwilling.1 (move_of_step hstep)).trans
      (Later.of_run (reach_inv hreachv) hfresh).2
    have hzero := Served.zero hinv hlater hc side
    rw [Served, hbuffer, List.length_nil, Nat.min_zero] at hzero ⊢
    exact hzero
  · obtain ⟨hconnections, hsockets, j, hheading⟩ :=
      heading_of_poll hc hfd hbuffer hreports hstep
    have hpast := Heading.run hreachv hheading (hconnections ▸ hc) hfd hbuffer hrun hpc
    intro x hx haddr
    have hmore := hpast x hx haddr
    rw [hsockets] at hmore
    omega

/-- So many passes, so many bytes. -/
theorem Passes.served {fd : Int} {k : Nat} {s t : Proxy}
    (hpasses : Passes workerServerFd controllerServerFd fd k s t)
    (hreach : (machine workerServerFd controllerServerFd).Reach FreshAccept s) :
    (machine workerServerFd controllerServerFd).Run FreshAccept s t ∧
      ∀ c ∈ s.connections, ∀ side, c.fd side.other = fd → fd ≠ -1 → Served k s t c side := by
  induction hpasses with
  | none s =>
      exact ⟨.refl s, fun c hc side _ _ => Served.zero (reach_inv hreach) (.refl s) hc side⟩
  | @other k s u t hrun hrest ih =>
      have hfresh : (machine workerServerFd controllerServerFd).Run FreshAccept s u :=
        hrun.mono fun _ _ hok => hok.1
      obtain ⟨hrunt, hserved⟩ := ih (hreach.trans hfresh)
      refine ⟨hfresh.trans hrunt, ?_⟩
      intro c hc side hfd hne
      have hlater := (Later.of_run (reach_inv hreach) hfresh).2
      have hzero := Served.zero (reach_inv hreach) hlater hc side
      rw [← Nat.zero_add k]
      refine hzero.trans hreach hfresh hrunt hc (hfd.symm ▸ hne) ?_
      exact fun x hx hsame => hserved x hx side (hsame.trans hfd) hne
  | @reported k s v u t input hreports hwilling hstep hrun hpc hrest ih =>
      have hfresh : (machine workerServerFd controllerServerFd).Run FreshAccept s u :=
        (Machine.Run.step (.refl s) hwilling.1 hstep).trans (hrun.mono fun _ _ hok => hok.1)
      obtain ⟨hrunt, hserved⟩ := ih (hreach.trans hfresh)
      refine ⟨hfresh.trans hrunt, ?_⟩
      rintro c hc side rfl hne
      have hone : Served 1 s u c side :=
        served_of_reported hreach hc hne hreports hwilling hstep hrun hpc
      rw [Nat.add_comm k 1]
      refine hone.trans hreach hfresh hrunt hc hne ?_
      exact fun x hx hsame => hserved x hx side hsame hne

/--
**The proxy starves nobody.**  From every reachable state, for every connection in the
table and each of its sides: after a run in which `poll` reported `k` times that the other
side can be written to, and each of those passes came to its end, whatever the rest of the
connections did and whoever came and went, the connection has been closed, or the first `k`
of the bytes that were buffered have been sent there, in order, after those sent before.
-/
theorem nobody_starves (workerServerFd controllerServerFd : Int) (s t : Proxy)
    (hs : (machine workerServerFd controllerServerFd).Reach FreshAccept s) (c : Connection)
    (hc : c ∈ s.connections) (side : Side) (hfd : c.fd side.other ≠ -1) (k : Nat)
    (hpasses : Passes workerServerFd controllerServerFd (c.fd side.other) k s t) :
    ∀ c' ∈ t.connections, c'.addr = c.addr →
      sent s.sockets (c.fd side.other) ++ (c.buffer side).take k
        <+: sent t.sockets (c'.fd side.other) := by
  obtain ⟨hrun, hserved⟩ := hpasses.served hs
  intro c' hc' haddr
  have hcont := (Later.of_run (reach_inv hs) hrun).2.continues (reach_inv hs) hc hc' haddr
  -- both are the beginning of what was received
  have hbefore := reach_faithful hs c hc side
  have hafter := reach_faithful (hs.trans hrun) c' hc' side
  have hshort : sent s.sockets (c.fd side.other) ++ (c.buffer side).take k
      <+: received t.sockets (c'.fd side) := by
    refine List.IsPrefix.trans ?_ (hcont.received side)
    rw [hbefore]
    exact (List.prefix_append_right_inj _).mpr (List.take_prefix _ _)
  have hlong : sent t.sockets (c'.fd side.other) <+: received t.sockets (c'.fd side) := by
    rw [hafter]
    exact List.prefix_append _ _
  refine List.prefix_of_prefix_length_le hshort hlong ?_
  rw [List.length_append, List.length_take]
  exact hserved c hc side rfl hfd c' hc' haddr

/-! ### One byte is left, and one pass is enough -/

/-- The connection that it is left in. -/
def speakers : Connection := halfway.connections.headD (.make 0)

/-- The byte has gone out, and the program polls again. -/
def heard : Proxy :=
  ((machine 3 4).exec Willing (after halfway ((hearing 1).take 1)) ((hearing 1).drop 1)).getD
    halfway

theorem passes_heard : Passes 3 4 (speakers.fd .left) 1 halfway heard := by
  have hpoll : halfway.step (.poll 1 [{}, {}, { pollout := true }, {}])
      = some (after halfway ((hearing 1).take 1)) := rfl
  exact .reported ⟨by decide +kernel, 1, _, rfl, by decide +kernel⟩ (by decide +kernel) hpoll
    (Machine.Run.of_replay (by decide +kernel)) (by decide +kernel) (.none heard)

theorem nobody_starves_halfway :
    speakers.buffer .right = [9] ∧ ∀ c ∈ heard.connections, c.addr = speakers.addr →
      sent halfway.sockets 5 ++ [9] <+: sent heard.sockets (c.fd .left) := by
  have hreach : (machine 3 4).Reach FreshAccept halfway := run_after (by decide +kernel)
  exact ⟨by decide +kernel, nobody_starves 3 4 halfway heard hreach speakers (by decide +kernel)
    .right (by decide +kernel) 1 passes_heard⟩

end Proxy

end Distray
