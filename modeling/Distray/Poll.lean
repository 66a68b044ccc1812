/-
Poll entries.

Of the bits of `events` and `revents` the program sets or looks at five.  An entry
also carries `owner`, the address of the object whose descriptor it was filled from:
the program has no such field and does not need one as long as its positions and its
objects stay in step, which is what there is to prove.

What `poll` answers is an argument wherever it is called: the result, and the flags of each
entry.  Nothing is assumed of the flags there.  Where a result needs them to be true, it
says so.
-/
import Distray.RemoteWorker

namespace Distray

structure PollFlags where
  pollin : Bool := false
  pollout : Bool := false
  pollerr : Bool := false
  pollhup : Bool := false
  pollnval : Bool := false
deriving DecidableEq, Repr

/-- `(revents & (POLLERR | POLLHUP | POLLNVAL)) != 0`. -/
def PollFlags.failed (f : PollFlags) : Bool := f.pollerr || f.pollhup || f.pollnval

structure Pollfd where
  fd : Int
  events : PollFlags
  revents : PollFlags
  owner : Option Nat
deriving DecidableEq, Repr

/-- The entry of a listening socket. -/
def Pollfd.listening (fd : Int) : Pollfd :=
  { fd := fd, events := { pollin := true }, revents := {}, owner := none }

/-- `fill_pollfd`. -/
def RemoteWorker.fillPollfd (w : RemoteWorker) : Pollfd where
  fd := w.fd
  events := { pollout := w.outgoingBuffer.needSend, pollin := w.incomingBuffer.needReceive }
  revents := {}
  owner := some w.addr

/-- What `poll` writes into the entries. -/
def setRevents (pollfds : List Pollfd) (revents : List PollFlags) : List Pollfd :=
  pollfds.zipWith (fun entry flags => { entry with revents := flags }) revents

theorem length_setRevents {pollfds : List Pollfd} {revents : List PollFlags}
    (h : revents.length = pollfds.length) :
    (setRevents pollfds revents).length = pollfds.length := by
  simp [setRevents, h]

theorem setRevents_getElem? {pollfds : List Pollfd} {revents : List PollFlags} {i : Nat}
    {entry : Pollfd} (h : (setRevents pollfds revents)[i]? = some entry) :
    ∃ old, pollfds[i]? = some old ∧ entry.fd = old.fd ∧ entry.owner = old.owner := by
  simp only [setRevents, List.getElem?_zipWith] at h
  split at h
  · rename_i old flags hold hflags
    rw [Option.some.injEq] at h
    exact ⟨old, hold, by rw [← h], by rw [← h]⟩
  · exact absurd h (by simp)

end Distray
