/-
The steps of the proxy, one by one.

`Move` lists them, one constructor for each way through `step`, with the guard under
which it is taken.  What the calls for one connection have done when they succeed is
said beside it: they leave its ends alone, and move bytes into or out of one buffer.

As for the controller, the proofs about runs are case analyses on `Move`; the program
counter and the poll list are only looked at where a proof is about the pass.
-/
import Distray.Proofs.Table

namespace Distray

open Octets

namespace Proxy

/-! ### The steps

The cases of `step` are many because each call of the operating system can fail in several
ways.  As relations between two states they are few, and each has what the later proofs ask
for: the connection that was found, what was done to it, and where the pass goes on.
-/

/-- The steps of the proxy. -/
inductive Move (s : Proxy) : Input → Proxy → Prop
  | pollFailed {revents : List PollFlags} (hpc : s.pc = .polling) :
      Move s (.poll (-1) revents) { s with pc := .returned (-1) }
  | polled {result : Int} {revents : List PollFlags} (hpc : s.pc = .polling)
      (hresult : result ≠ -1) :
      Move s (.poll result revents) { s with
        result := result
        pollfds := setRevents (Pollfd.listening s.workerServerFd ::
          .listening s.controllerServerFd :: s.connections.flatMap Connection.addPollfds) revents
        deletedFds := []
        pc := .receiving 0 }
  | passEnd {i : Nat} (hpc : s.pc = .receiving i) (hnone : s.pollfds[i]? = none) :
      Move s .tau { s with pc := .polling }
  | skipDeleted {i : Nat} (hpc : s.pc = .receiving i) :
      Move s .tau { s with pc := .receiving (i + 1) }
  | skipReceive {i : Nat} {entry : Pollfd} (hpc : s.pc = .receiving i)
      (hentry : s.pollfds[i]? = some entry) (hlive : entry.fd ∉ s.deletedFds) :
      Move s .tau { s with pc := .sending i }
  | accept {i : Nat} {entry : Pollfd} {fd : Int} (hpc : s.pc = .receiving i)
      (hentry : s.pollfds[i]? = some entry) (hlive : entry.fd ∉ s.deletedFds) (hi : i ≤ 1) :
      Move s (.accept fd) (s.acceptOn i fd)
  | lostIncoming {i : Nat} {entry : Pollfd} (hpc : s.pc = .receiving i)
      (hentry : s.pollfds[i]? = some entry) (hlive : entry.fd ∉ s.deletedFds) (hi : 2 ≤ i)
      (hfind : find s.connections entry.fd entry.fd = none) :
      Move s .tau { s with pc := .exited (.didNotFindIncoming entry.fd) }
  | receive {i : Nat} {entry : Pollfd} {k : Nat} {c : Connection} {r : Except Errno Bytes}
      (hpc : s.pc = .receiving i) (hentry : s.pollfds[i]? = some entry)
      (hlive : entry.fd ∉ s.deletedFds) (hi : 2 ≤ i)
      (hfind : find s.connections entry.fd entry.fd = some (k, c)) (hfit : admits r = true) :
      Move s (.recv r) (s.receiveFrom r i entry.fd k c)
  | lostOutgoing {i : Nat} {entry : Pollfd} (hpc : s.pc = .sending i)
      (hentry : s.pollfds[i]? = some entry) (hi : 2 ≤ i)
      (hfind : find s.connections entry.fd entry.fd = none) :
      Move s .tau { s with pc := .exited (.didNotFindOutgoing entry.fd) }
  | send {i : Nat} {entry : Pollfd} {k : Nat} {c : Connection} {r : Except Errno Nat}
      (hpc : s.pc = .sending i) (hentry : s.pollfds[i]? = some entry) (hi : 2 ≤ i)
      (hfind : find s.connections entry.fd entry.fd = some (k, c))
      (hfit : (c.outgoing entry.fd).admits r = true) :
      Move s (.send r) (s.sendTo r i entry.fd k c)
  | skipSend {i : Nat} (hpc : s.pc = .sending i) : Move s .tau { s with pc := .checking i }
  | lostDead {i : Nat} {entry : Pollfd} (hpc : s.pc = .checking i)
      (hentry : s.pollfds[i]? = some entry) (hi : 2 ≤ i)
      (hfind : find s.connections entry.fd entry.fd = none) :
      Move s .tau { s with pc := .exited (.didNotFindDead entry.fd) }
  | kill {i : Nat} {entry : Pollfd} {k : Nat} {c : Connection} (hpc : s.pc = .checking i)
      (hentry : s.pollfds[i]? = some entry) (hi : 2 ≤ i)
      (hfind : find s.connections entry.fd entry.fd = some (k, c)) :
      Move s .tau (s.closeConnection c (.receiving (i + 1)))
  | skipCheck {i : Nat} (hpc : s.pc = .checking i) :
      Move s .tau { s with pc := .receiving (i + 1) }

private theorem move_polling {s t : Proxy} {input : Input} (hpc : s.pc = .polling)
    (h : step s input = some t) : Move s input t := by
  unfold step at h
  simp only [hpc] at h
  cases input with
  | poll result revents =>
      simp only at h
      split at h
      · rename_i hresult
        rw [Option.some.injEq] at h
        subst hresult
        exact h ▸ .pollFailed hpc
      · rename_i hresult
        split at h
        · rw [Option.some.injEq] at h
          exact h ▸ .polled hpc hresult
        · exact absurd h (by simp)
  | _ => simp at h

/-- The `POLLIN` branch: of a listening socket in the first two entries, of a connection in
the others. -/
private theorem move_receiving {s t : Proxy} {input : Input} {i : Nat}
    (hpc : s.pc = .receiving i) (h : step s input = some t) : Move s input t := by
  unfold step at h
  simp only [hpc] at h
  split at h
  · rename_i hnone
    cases input with
    | tau =>
        rw [Option.some.injEq] at h
        exact h ▸ .passEnd hpc hnone
    | _ => simp at h
  · rename_i entry hentry
    split at h
    · cases input with
      | tau =>
          rw [Option.some.injEq] at h
          exact h ▸ .skipDeleted hpc
      | _ => simp at h
    · rename_i hlive
      split at h
      · split at h
        · rename_i hi
          cases input with
          | accept fd =>
              rw [Option.some.injEq] at h
              exact h ▸ .accept hpc hentry hlive hi
          | _ => simp at h
        · rename_i hi
          split at h
          · rename_i hfind
            rw [Option.some.injEq] at h
            exact h ▸ .lostIncoming hpc hentry hlive (by omega) hfind
          · rename_i k c r hfind
            split at h
            · rename_i hfit
              rw [Option.some.injEq] at h
              exact h ▸ .receive hpc hentry hlive (by omega) hfind hfit
            · exact absurd h (by simp)
          · exact absurd h (by simp)
      · cases input with
        | tau =>
            rw [Option.some.injEq] at h
            exact h ▸ .skipReceive hpc hentry hlive
        | _ => simp at h

private theorem move_sending {s t : Proxy} {input : Input} {i : Nat}
    (hpc : s.pc = .sending i) (h : step s input = some t) : Move s input t := by
  unfold step at h
  simp only [hpc] at h
  split at h
  · exact absurd h (by simp)
  · rename_i entry hentry
    split at h
    · rename_i hcond
      simp only [Bool.and_eq_true, decide_eq_true_eq] at hcond
      split at h
      · rename_i hfind
        rw [Option.some.injEq] at h
        exact h ▸ .lostOutgoing hpc hentry hcond.2 hfind
      · rename_i k c r hfind
        split at h
        · rename_i hfit
          rw [Option.some.injEq] at h
          exact h ▸ .send hpc hentry hcond.2 hfind hfit
        · exact absurd h (by simp)
      · exact absurd h (by simp)
    · cases input with
      | tau =>
          rw [Option.some.injEq] at h
          exact h ▸ .skipSend hpc
      | _ => simp at h

private theorem move_checking {s t : Proxy} {input : Input} {i : Nat}
    (hpc : s.pc = .checking i) (h : step s input = some t) : Move s input t := by
  unfold step at h
  simp only [hpc] at h
  split at h
  · rename_i entry hentry
    split at h
    · rename_i hcond
      simp only [Bool.and_eq_true, decide_eq_true_eq] at hcond
      split at h
      · rename_i hfind
        rw [Option.some.injEq] at h
        exact h ▸ .lostDead hpc hentry hcond.2 hfind
      · rename_i k c hfind
        rw [Option.some.injEq] at h
        exact h ▸ .kill hpc hentry hcond.2 hfind
    · rw [Option.some.injEq] at h
      exact h ▸ .skipCheck hpc
  · exact absurd h (by simp)

/-- **A step is one of those listed.** -/
theorem move_of_step {s t : Proxy} {input : Input} (h : step s input = some t) :
    Move s input t := by
  match hpc : s.pc with
  | .polling => exact move_polling hpc h
  | .receiving i => exact move_receiving hpc h
  | .sending i => exact move_sending hpc h
  | .checking i => exact move_checking hpc h
  | .returned _ | .exited _ => simp [step, hpc] at h

/-! ### What the calls have done -/

theorem Buffer.receive_buffer {b : Buffer} {tmp : Bytes} {r : Except Errno Bytes}
    {x : Buffer × Bytes} (h : b.receive tmp r = .ok x) :
    x.1.buffer = b.buffer ++ r.toOption.getD [] := by
  cases r with
  | error e => simp [Buffer.receive] at h
  | ok data =>
      simp only [Buffer.receive] at h
      split at h
      · exact absurd h (by simp)
      · rw [Except.ok.injEq] at h
        subst h
        simp [overwrite, Except.toOption]

theorem Buffer.send_buffer {b : Buffer} {r : Except Errno Nat} {x : Buffer × Bytes}
    (h : b.send r = .ok x) : b.buffer = x.2 ++ x.1.buffer := by
  unfold Buffer.send at h
  split at h
  · split at h
    · exact absurd h (by simp)
    · rw [Except.ok.injEq] at h
      subst h
      exact (List.take_append_drop _ _).symm
  · rw [Except.ok.injEq] at h
    subst h
    rfl

namespace Connection

/-- What was received on a side and has not been passed on. -/
def buffer (c : Connection) : Side → Bytes
  | .left => c.w2c.buffer
  | .right => c.c2w.buffer

@[simp] theorem buffer_setFd (c : Connection) (fd : Int) (side σ : Side) :
    (c.setFd fd side).buffer σ = c.buffer σ := by
  cases side <;> rfl

/-- A call of `receive` that succeeds appends to the buffer of its side. -/
theorem receive_spec {c c' : Connection} {tmp tmp' : Bytes} {fd : Int} {r : Except Errno Bytes}
    (h : c.receive tmp fd r = .ok (.ok (c', tmp'))) :
    SameEnds c c' ∧ ∃ side, c.fd side = fd ∧
      c'.buffer side = c.buffer side ++ r.toOption.getD [] ∧
      c'.buffer side.other = c.buffer side.other := by
  unfold receive at h
  split at h
  · rename_i hfd
    cases hr : c.w2c.receive tmp r with
    | error e => simp [hr, Except.map] at h
    | ok x =>
        simp only [hr, Except.map, Except.ok.injEq, Prod.mk.injEq] at h
        obtain ⟨rfl, -⟩ := h
        exact ⟨⟨rfl, rfl, rfl⟩, .left, hfd.symm, Buffer.receive_buffer hr, rfl⟩
  · split at h
    · rename_i hfd
      cases hr : c.c2w.receive tmp r with
      | error e => simp [hr, Except.map] at h
      | ok x =>
          simp only [hr, Except.map, Except.ok.injEq, Prod.mk.injEq] at h
          obtain ⟨rfl, -⟩ := h
          exact ⟨⟨rfl, rfl, rfl⟩, .right, hfd.symm, Buffer.receive_buffer hr, rfl⟩
    · exact absurd h (by simp)

/-- A call of `send` that succeeds takes what goes out from the buffer of the other side. -/
theorem send_spec {c c' : Connection} {fd : Int} {r : Except Errno Nat} {out : Bytes}
    (h : c.send fd r = .ok (.ok (c', out))) :
    SameEnds c c' ∧ ∃ side, c.fd side = fd ∧
      c.buffer side.other = out ++ c'.buffer side.other ∧ c'.buffer side = c.buffer side := by
  unfold send at h
  split at h
  · rename_i hfd
    cases hr : c.c2w.send r with
    | error e => simp [hr, Except.map] at h
    | ok x =>
        simp only [hr, Except.map, Except.ok.injEq, Prod.mk.injEq] at h
        obtain ⟨rfl, rfl⟩ := h
        exact ⟨⟨rfl, rfl, rfl⟩, .left, hfd.symm, Buffer.send_buffer hr, rfl⟩
  · split at h
    · rename_i hfd
      cases hr : c.w2c.send r with
      | error e => simp [hr, Except.map] at h
      | ok x =>
          simp only [hr, Except.map, Except.ok.injEq, Prod.mk.injEq] at h
          obtain ⟨rfl, rfl⟩ := h
          exact ⟨⟨rfl, rfl, rfl⟩, .right, hfd.symm, Buffer.send_buffer hr, rfl⟩
    · exact absurd h (by simp)

end Connection

theorem Connection.receive_known {c : Connection} {tmp : Bytes} {fd : Int}
    {r : Except Errno Bytes} (hfd : fd ∈ c.place.tokens) (why : Exit) :
    c.receive tmp fd r ≠ .error why := by
  obtain ⟨hw | hw, -⟩ := Connection.mem_tokens.mp hfd
  · simp [Connection.receive, hw]
  · unfold Connection.receive
    split
    · simp
    · simp

theorem Connection.send_known {c : Connection} {fd : Int} {r : Except Errno Nat}
    (hfd : fd ∈ c.place.tokens) (why : Exit) : c.send fd r ≠ .error why := by
  obtain ⟨hw | hw, -⟩ := Connection.mem_tokens.mp hfd
  · simp [Connection.send, hw]
  · unfold Connection.send
    split
    · simp
    · simp

end Proxy

end Distray
