/-
What a failure on one connection does to the others.

There are three places where the proxy learns that a connection is gone: `recv`, `send`
and the error flags of its entry.  The first and the last end in `close_connection`,
which takes out one connection and touches nothing else.  But when `send` fails, or
`recv` fails with another error than `ECONNRESET`, the program returns, and every other
pair is cut off with it.

A pass goes on after a connection has been closed, and there may be entries of its other side
still to come.  These are skipped, so closing it has no effect on anybody else, whether in
this pass or later.
-/
import Distray.Proofs.Relay

namespace Distray

open Octets

namespace Proxy

/-! ### Failures

A failure is an answer of the operating system at an entry: an error of `recv`, an end of
the stream, an error of `send`, or a flag that says that the connection is broken.  What has
to be said of each is whether the program goes on, and who is still there then.
-/

/-- The program has not ended. -/
def Pc.running : Pc → Bool
  | .returned _ | .exited _ => false
  | _ => true

/-- What `errno` is when `recv` has failed, or has found the end of the stream. -/
def errnoOf : Except Errno Bytes → Errno
  | .error e => e
  | .ok _ => .ECONNRESET

/-- Whether the call or the test at the program counter fails for the entry. -/
def fails (pc : Pc) (entry : Pollfd) (c : Connection) (input : Input) : Bool :=
  match pc, input with
  | .receiving _, .recv r => (r.toOption.getD []).isEmpty
  | .sending _, .send (.error _) => (c.outgoing entry.fd).canSend
  | .checking _, .tau => entry.revents.failed
  | _, _ => false

/-- The entry the proxy is at, if it is that of a connection. -/
def Pc.entry? : Pc → Option Nat
  | .receiving i | .sending i | .checking i => if 2 ≤ i then some i else none
  | _ => none

theorem Pc.entry?_eq_some {pc : Pc} {i : Nat} (h : pc.entry? = some i) :
    2 ≤ i ∧ (pc = .receiving i ∨ pc = .sending i ∨ pc = .checking i) := by
  unfold entry? at h
  split at h
  case h_4 => exact absurd h (by simp)
  all_goals
    split at h
    · rw [Option.some.injEq] at h
      subst h
      rename_i hle
      exact ⟨hle, by simp⟩
    · exact absurd h (by simp)

/-- The connection on which something fails in this step, if anything does. -/
def failure (s : Proxy) (input : Input) : Option Connection := do
  let i ← s.pc.entry?
  let entry ← s.pollfds[i]?
  let (_, c) ← find s.connections entry.fd entry.fd
  if fails s.pc entry c input then some c else none

/-- What ends the program if it is a failure. -/
def Input.fatal : Input → Bool
  | .recv r => errnoOf r ≠ .ECONNRESET
  | .send _ => true
  | _ => false

/-- `send` fails, or `recv` fails with another error than `ECONNRESET`. -/
def givesUp (s : Proxy) (input : Input) : Bool := (s.failure input).isSome && input.fatal

/-- The proxy goes on without the connection, and with all others as they were. -/
structure Contained (s : Proxy) (c : Connection) (t : Proxy) : Prop where
  running : t.pc.running = true
  member : c ∈ s.connections
  others : t.connections = s.connections.filter fun x => x.addr ≠ c.addr
  closed : ∀ side, c.fd side ≠ -1 → t.sockets (c.fd side) = none
  kept : ∀ x ∈ t.connections, ∀ side, t.sockets (x.fd side) = s.sockets (x.fd side)

/-! ### Closing a connection -/

theorem eraseIdx_eq_filter {cs : List Connection} {k : Nat} {c : Connection}
    (hsorted : (cs.map Connection.addr).Pairwise (· < ·)) (hc : cs[k]? = some c) :
    cs.eraseIdx k = cs.filter fun x => x.addr ≠ c.addr := by
  obtain ⟨before, after, rfl, rfl⟩ := Parts.exists_parts hc
  rw [Parts.eraseIdx_parts, List.filter_append, List.filter_cons_of_neg (by simp)]
  simp only [List.map_append, List.map_cons] at hsorted
  obtain ⟨-, hrest, hbefore⟩ := List.pairwise_append.mp hsorted
  obtain ⟨hafter, -⟩ := List.pairwise_cons.mp hrest
  rw [List.filter_eq_self.mpr, List.filter_eq_self.mpr]
  · intro x hx
    have hlt := hafter x.addr (List.mem_map_of_mem hx)
    simp only [ne_eq, decide_eq_true_eq]
    omega
  · intro x hx
    have hlt := hbefore x.addr (List.mem_map_of_mem hx) c.addr (by simp)
    simp only [ne_eq, decide_eq_true_eq]
    omega

theorem closed_self {sockets : Int → Option Socket} {fd : Int} (h : fd ≠ -1) :
    closed sockets fd fd = none := by
  rw [Proxy.closed, if_neg h, Function.update_self]

theorem closed_none {sockets : Int → Option Socket} {fd x : Int} (h : sockets x = none) :
    closed sockets fd x = none := by
  unfold Proxy.closed
  split
  · exact h
  · by_cases hx : x = fd
    · rw [hx, Function.update_self]
    · rw [Function.update_of_ne hx]
      exact h

/-- **`close_connection` takes out one connection and nothing else.** -/
theorem contained_without {s : Proxy} (h : Loose s) {k : Nat} {c : Connection}
    (hc : s.connections[k]? = some c) (i : Nat) :
    Contained s c (s.without k c (.receiving i)) := by
  have herase := eraseIdx_eq_filter h.addrs hc
  refine ⟨rfl, List.mem_of_getElem? hc, herase, ?_, ?_⟩
  · intro side hne
    show closed (closed s.sockets c.workerFd) c.controllerFd (c.fd side) = none
    cases side with
    | left => exact closed_none (closed_self hne)
    | right => exact closed_self hne
  · intro x hx side
    show closed (closed s.sockets c.workerFd) c.controllerFd (x.fd side) = s.sockets (x.fd side)
    rw [show (s.without k c (.receiving i)).connections = _ from herase, List.mem_filter] at hx
    obtain ⟨hmem, haddr⟩ := hx
    have hne : x.addr ≠ c.addr := by simpa using haddr
    obtain ⟨j, hj⟩ := List.mem_iff_getElem?.mp hmem
    have hkj : k ≠ j := by
      rintro rfl
      rw [hc, Option.some.injEq] at hj
      exact hne (by rw [hj])
    -- the two connections share no descriptor
    have helse : ∀ {fd : Int}, fd = c.workerFd ∨ fd = c.controllerFd → x.fd side = fd →
        x.fd side = -1 := by
      intro fd hfd heq
      by_contra hneg
      have hown : x.fd side ∈ c.place.tokens :=
        Connection.mem_tokens.mpr ⟨by rw [heq]; exact hfd, hneg⟩
      exact hkj (Pairing.unique h.nodup (by simp [places, hc]) (by simp [places, hj]) hown
        (Connection.fd_mem hneg))
    rw [closed_of_ne (helse (Or.inr rfl)), closed_of_ne (helse (Or.inl rfl))]

/-! ### The calls fail -/

theorem Connection.receive_failed {c : Connection} {tmp : Bytes} {fd : Int}
    {r : Except Errno Bytes} (hfd : fd ∈ c.place.tokens)
    (h : (r.toOption.getD []).isEmpty = true) :
    c.receive tmp fd r = .ok (.error (errnoOf r)) := by
  have hbuffer : ∀ b : Buffer, b.receive tmp r = .error (errnoOf r) := by
    intro b
    cases r with
    | error e => rfl
    | ok data =>
        have hnil : data = [] := by simpa [Except.toOption] using h
        simp [Buffer.receive, hnil, errnoOf]
  unfold receive
  split
  · rw [hbuffer]
    rfl
  · split
    · rw [hbuffer]
      rfl
    · rename_i hw hm
      obtain ⟨hown | hown, -⟩ := Connection.mem_tokens.mp hfd
      · exact absurd hown hw
      · exact absurd hown hm

theorem Connection.send_failed {c : Connection} {fd : Int} {e : Errno}
    (hfd : fd ∈ c.place.tokens) (h : (c.outgoing fd).canSend = true) :
    c.send fd (.error e) = .ok (.error e) := by
  unfold outgoing at h
  unfold send
  split
  · rename_i hw
    rw [if_pos hw] at h
    simp [Buffer.send, h, Except.map]
  · rename_i hw
    rw [if_neg hw] at h
    split
    · simp [Buffer.send, h, Except.map]
    · rename_i hm
      obtain ⟨hown | hown, -⟩ := Connection.mem_tokens.mp hfd
      · exact absurd hown hw
      · exact absurd hown hm

/-- What fails, and where. -/
theorem failure_eq_some {s : Proxy} {input : Input} {c : Connection}
    (h : s.failure input = some c) :
    ∃ i entry k, 2 ≤ i ∧ (s.pc = .receiving i ∨ s.pc = .sending i ∨ s.pc = .checking i) ∧
      s.pollfds[i]? = some entry ∧ find s.connections entry.fd entry.fd = some (k, c) ∧
      fails s.pc entry c input = true := by
  simp only [failure, Option.bind_eq_bind, Option.bind_eq_some_iff] at h
  obtain ⟨i, hi, entry, hentry, ⟨k, c'⟩, hfind, hfails⟩ := h
  obtain ⟨hle, hpc⟩ := Pc.entry?_eq_some hi
  split at hfails
  · rename_i hcond
    rw [Option.some.injEq] at hfails
    subst hfails
    exact ⟨i, entry, k, hle, hpc, hentry, hfind, hcond⟩
  · exact absurd hfails (by simp)

theorem not_contained_of_returned {s t : Proxy} {c : Connection} {code : Int}
    (h : t.pc = .returned code) : ¬ Contained s c t := by
  intro hcontained
  have hrunning := hcontained.running
  rw [h] at hrunning
  exact absurd hrunning (by simp [Pc.running])

/-- `recv` fails: the errno decides. -/
theorem contained_receive_iff {s : Proxy} (h : Steady s) {i k : Nat} {entry : Pollfd}
    {c : Connection} {r : Except Errno Bytes} (hc : s.connections[k]? = some c)
    (hmem : entry.fd ∈ c.place.tokens) (hfails : (r.toOption.getD []).isEmpty = true) :
    Contained s c (s.receiveFrom r i entry.fd k c) ↔ errnoOf r = .ECONNRESET := by
  unfold receiveFrom
  rw [Connection.receive_failed hmem hfails]
  cases herrno : errnoOf r with
  | ECONNRESET =>
      simp only [iff_true]
      rw [h.loose.closeConnection hc]
      exact contained_without h.loose hc (i + 1)
  | other code =>
      simp only [reduceCtorEq, iff_false]
      exact not_contained_of_returned rfl

/-- The step that calls `recv` for an entry. -/
theorem step_receive {s t : Proxy} {i k : Nat} {entry : Pollfd} {c : Connection}
    {r : Except Errno Bytes} (hpc : s.pc = .receiving i) (hi : 2 ≤ i)
    (hentry : s.pollfds[i]? = some entry)
    (hfind : find s.connections entry.fd entry.fd = some (k, c))
    (hstep : step s (.recv r) = some t) :
    entry.fd ∉ s.deletedFds ∧ s.receiveFrom r i entry.fd k c = t := by
  have hle : ¬ i ≤ 1 := by omega
  by_cases hdeleted : entry.fd ∈ s.deletedFds
  · simp [step, hpc, hentry, hdeleted] at hstep
  · cases hin : entry.revents.pollin with
    | false => simp [step, hpc, hentry, hdeleted, hin] at hstep
    | true =>
        simp only [step, hpc, hentry, hdeleted, if_false, hin, if_true, hle, hfind,
          Option.ite_none_right_eq_some, Option.some.injEq] at hstep
        exact ⟨hdeleted, hstep.2⟩

/-- The step that calls `send` for an entry. -/
theorem step_send {s t : Proxy} {i k : Nat} {entry : Pollfd} {c : Connection}
    {r : Except Errno Nat} (hpc : s.pc = .sending i) (hentry : s.pollfds[i]? = some entry)
    (hfind : find s.connections entry.fd entry.fd = some (k, c))
    (hstep : step s (.send r) = some t) : s.sendTo r i entry.fd k c = t := by
  cases hcond : entry.revents.pollout && decide (2 ≤ i) with
  | false => simp [step, hpc, hentry, hcond] at hstep
  | true =>
      simp only [step, hpc, hentry, hcond, if_true, hfind, Option.ite_none_right_eq_some,
        Option.some.injEq] at hstep
      exact hstep.2

/-- **Each failure is contained, unless the program gives up.** -/
theorem contained_iff_of_step {s t : Proxy} {input : Input} {c : Connection} (h : Steady s)
    (hstep : step s input = some t) (hfail : s.failure input = some c) :
    Contained s c t ↔ s.givesUp input = false := by
  have hgives : s.givesUp input = input.fatal := by rw [givesUp, hfail]; rfl
  obtain ⟨i, entry, k, hi, hpc | hpc | hpc, hentry, hfind, hfails⟩ := failure_eq_some hfail
  · -- `recv` has failed, or found the end of the stream
    cases hinput : input with
    | recv r =>
        subst hinput
        simp only [fails, hpc] at hfails
        obtain ⟨hlive, rfl⟩ := step_receive hpc hi hentry hfind hstep
        obtain ⟨hc, hmem⟩ := h.found hi hentry hlive hfind
        rw [contained_receive_iff h hc hmem hfails, hgives]
        simp [Input.fatal]
    | _ => simp [fails, hpc, hinput] at hfails
  · -- `send` has failed, and the program returns
    have hlive := h.pass.live i entry (by rw [hpc]; rfl) hentry
    obtain ⟨hc, hmem⟩ := h.found hi hentry hlive hfind
    cases hinput : input with
    | send r =>
        subst hinput
        cases r with
        | ok n => simp [fails, hpc] at hfails
        | error e =>
            simp only [fails, hpc] at hfails
            rw [← step_send hpc hentry hfind hstep, hgives]
            refine iff_of_false (not_contained_of_returned (?_ : _ = Pc.returned (-1)))
              (by simp [Input.fatal])
            simp [sendTo, Connection.send_failed hmem hfails]
    | _ => simp [fails, hpc, hinput] at hfails
  · -- the error flags
    have hlive := h.pass.live i entry (by rw [hpc]; rfl) hentry
    obtain ⟨hc, -⟩ := h.found hi hentry hlive hfind
    cases input with
    | tau =>
        simp only [fails, hpc] at hfails
        simp only [step, hpc, hentry, hfails, hi, decide_true, Bool.and_self, if_true, hfind,
          Option.some.injEq] at hstep
        rw [← hstep, hgives, h.loose.closeConnection hc]
        exact iff_of_true (contained_without h.loose hc (i + 1)) rfl
    | _ => simp [fails, hpc] at hfails

/-! ### Runs

Over a run the condition is on every step, and the invariant is that the program has not
stopped.  It needs the table to be in order wherever a failure is met, for otherwise the
connection might not be found that is to be closed.
-/

/-- No failure makes the program give up, and `poll` does not fail. -/
def bears (s : Proxy) (input : Input) : Bool :=
  s.mayAccept input && !s.givesUp input && match input with
    | .poll result _ => result ≠ -1
    | _ => true

abbrev Bears (s : Proxy) (input : Input) : Prop := s.bears input = true

theorem Bears.may {s : Proxy} {input : Input} (h : s.Bears input) : s.MayAccept input := by
  simp only [Bears, bears, Bool.and_eq_true] at h
  exact h.1.1

theorem Buffer.receive_error {b : Buffer} {tmp : Bytes} {r : Except Errno Bytes} {e : Errno}
    (h : b.receive tmp r = .error e) : (r.toOption.getD []).isEmpty = true := by
  cases r with
  | error e' => rfl
  | ok data =>
      simp only [receive] at h
      split at h
      · rename_i hlen
        simp [Except.toOption, List.eq_nil_of_length_eq_zero hlen]
      · exact absurd h (by simp)

theorem Connection.receive_error {c : Connection} {tmp : Bytes} {fd : Int}
    {r : Except Errno Bytes} {e : Errno} (h : c.receive tmp fd r = .ok (.error e)) :
    (r.toOption.getD []).isEmpty = true := by
  have hbuffer : ∀ {b : Buffer} {f : Buffer × Bytes → Connection × Bytes},
      (b.receive tmp r).map f = .error e → (r.toOption.getD []).isEmpty = true := by
    intro b f hmap
    cases hr : b.receive tmp r with
    | error e' => exact Buffer.receive_error hr
    | ok x => simp [hr, Except.map] at hmap
  unfold receive at h
  split at h
  · rw [Except.ok.injEq] at h
    exact hbuffer h
  · split at h
    · rw [Except.ok.injEq] at h
      exact hbuffer h
    · exact absurd h (by simp)

theorem Connection.send_error {c : Connection} {fd : Int} {r : Except Errno Nat} {e : Errno}
    (h : c.send fd r = .ok (.error e)) : r = .error e ∧ (c.outgoing fd).canSend = true := by
  have hbuffer : ∀ {b : Buffer} {f : Buffer × Bytes → Connection × Bytes},
      (b.send r).map f = .error e → r = .error e ∧ b.canSend = true := by
    intro b f hmap
    cases hcan : b.canSend with
    | false => simp [Buffer.send, hcan, Except.map] at hmap
    | true =>
        cases r with
        | ok n => simp [Buffer.send, hcan, Except.map] at hmap
        | error e' =>
            simp only [Buffer.send, hcan, if_true, Except.map, Except.error.injEq] at hmap
            exact ⟨by rw [hmap], rfl⟩
  unfold send at h
  unfold outgoing
  split at h
  · rename_i hw
    rw [Except.ok.injEq] at h
    rw [if_pos hw]
    exact hbuffer h
  · rename_i hw
    rw [if_neg hw]
    split at h
    · rw [Except.ok.injEq] at h
      exact hbuffer h
    · exact absurd h (by simp)

theorem running_of_step {s t : Proxy} {input : Input} (h : Steady s) (hbears : s.Bears input)
    (hstep : step s input = some t) : t.pc.running = true := by
  have hmove := move_of_step hstep
  have hexit := ((h.move hbears.may hmove).2).pass.noExit
  simp only [Bears, bears, Bool.and_eq_true, Bool.not_eq_true'] at hbears
  obtain ⟨⟨-, hgives⟩, hpoll⟩ := hbears
  cases hfail : s.failure input with
  | some c => exact ((contained_iff_of_step h hstep hfail).mpr hgives).running
  | none =>
      cases hmove with
      | pollFailed => simp at hpoll
      | accept =>
          rw [(h.loose.acceptOn h.pass.polled _ _).same.1]
          rfl
      | @receive i entry k c r hpc hentry hlive hi hfind =>
          obtain ⟨hc, -⟩ := h.found hi hentry hlive hfind
          unfold receiveFrom at hexit ⊢
          split
          · rename_i why hreceive
            simp only [hreceive] at hexit
            exact absurd rfl (hexit why)
          · rw [h.loose.closeConnection hc]
            rfl
          · rename_i hreceive
            simp [failure, Pc.entry?, hpc, hi, hentry, hfind, fails,
              Connection.receive_error hreceive] at hfail
          · rfl
      | @send i entry k c r hpc hentry hi hfind =>
          unfold sendTo at hexit ⊢
          split
          · rename_i why hsend
            simp only [hsend] at hexit
            exact absurd rfl (hexit why)
          · rename_i hsend
            obtain ⟨rfl, hcan⟩ := Connection.send_error hsend
            simp [failure, Pc.entry?, hpc, hi, hentry, hfind, fails, hcan] at hfail
          · rfl
      | kill hpc hentry hi hfind =>
          obtain ⟨-, hc, -⟩ := find_eq_some hfind
          rw [h.loose.closeConnection hc]
          rfl
      | lostIncoming => exact absurd rfl (hexit _)
      | lostOutgoing => exact absurd rfl (hexit _)
      | lostDead => exact absurd rfl (hexit _)
      | _ => rfl

theorem reach_running {workerServerFd controllerServerFd : Int} {s : Proxy}
    (h : (machine workerServerFd controllerServerFd).Reach Bears s) : s.pc.running = true := by
  suffices hboth : Steady s ∧ s.pc.running = true from hboth.2
  refine Machine.Reach.invariant (P := fun s => Steady s ∧ s.pc.running = true)
    ⟨Steady.start _ _, rfl⟩ ?_ h
  rintro s input t ⟨hs, -⟩ hbears hstep
  exact ⟨(hs.move hbears.may (move_of_step hstep)).2, running_of_step hs hbears hstep⟩

/--
**When a failure on one connection stays there.**  Whatever fails, if it is not `send`,
and not `recv` with another error than `ECONNRESET`, the proxy goes on: that connection
is closed on both sides and removed, and all others are as they were.  Otherwise the
program is over.  So a proxy that meets no such failure never stops.
-/
theorem failures_contained (workerServerFd controllerServerFd : Int) :
    (∀ s, (machine workerServerFd controllerServerFd).Reach MayAccept s → ∀ input t c,
      step s input = some t → s.failure input = some c →
      (Contained s c t ↔ s.givesUp input = false)) ∧
    ∀ s, (machine workerServerFd controllerServerFd).Reach Bears s → s.pc.running = true :=
  ⟨fun _ h _ _ _ hstep hfail => contained_iff_of_step (reach_steady h) hstep hfail,
    fun _ h => reach_running h⟩

/-! A worker that has been sent two of three bytes, and no more. -/

/-- What the proxy has of it and its controller. -/
def halfSent : Connection := ⟨0, 5, 6, ⟨[]⟩, ⟨[9]⟩⟩

/-- It hangs up. -/
def hangingUp : Proxy := after halfway (.poll 1 [{}, {}, { pollhup := true }, {}] :: taus 8)

/-- The last byte is to be sent to it. -/
def sending : Proxy := after halfway (.poll 1 [{}, {}, { pollout := true }, {}] :: taus 7)

theorem reach_halfway {inputs : List Input}
    (h : ((machine 3 4).exec FreshAccept halfway inputs).isSome = true) :
    (machine 3 4).Reach MayAccept (after halfway inputs) := by
  have hstart : (machine 3 4).Run FreshAccept (start 3 4) halfway := run_after (by decide +kernel)
  exact Machine.Run.mono (fun _ _ => FreshAccept.may) (hstart.trans (run_after h))

theorem failures_contained_hangingUp :
    ∃ t, step hangingUp .tau = some t ∧ Contained hangingUp halfSent t ∧
      (start 3 4).pc.running = true := by
  obtain ⟨hcontained, hrunning⟩ := failures_contained 3 4
  obtain ⟨t, hstep⟩ := Option.isSome_iff_exists.mp
    (show (step hangingUp .tau).isSome = true by decide +kernel)
  refine ⟨t, hstep, ?_, hrunning _ Machine.Reach.init⟩
  exact (hcontained hangingUp (reach_halfway (by decide +kernel)) .tau t halfSent hstep
    (by decide +kernel)).mpr (by decide +kernel)

/-- `send` fails with `EPIPE`, and the proxy is over. -/
theorem not_contained_sending :
    ¬ ∀ (workerServerFd controllerServerFd : Int) (s t : Proxy) (input : Input) (c : Connection),
      (machine workerServerFd controllerServerFd).Reach MayAccept s →
      step s input = some t → s.failure input = some c → Contained s c t := by
  intro h
  obtain ⟨t, hstep⟩ := Option.isSome_iff_exists.mp
    (show (step sending (.send (.error (.other 32)))).isSome = true by decide +kernel)
  have hpc : (step sending (.send (.error (.other 32)))).map Proxy.pc = some (.returned (-1)) := by
    decide +kernel
  rw [hstep, Option.map_some, Option.some.injEq] at hpc
  exact not_contained_of_returned hpc (h 3 4 sending t _ halfSent
    (reach_halfway (by decide +kernel)) hstep (by decide +kernel))

end Proxy

end Distray
