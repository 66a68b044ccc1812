/-
The controller's descriptors.

A descriptor is opened by `accept` and by `create_client_socket`, and it should be
open for as long as there is a worker that was made from it.  But removing a worker
frees the object and nothing else: the class has no destructor, and the controller
never calls `close`.  So what is open is what the workers have together with what
removed workers had, and the two agree only while no worker with a descriptor has been
removed.

The account is kept by three steps only: `accept`, the connections to proxies, and the
removal of a worker.  A worker that was made when `accept` failed has no descriptor, and
there is no account of it to be settled.
-/
import Distray.Proofs.Conservation

namespace Distray

namespace Controller

open RemoteWorker

/-- The controller, and what became of the descriptors it was given. -/
structure Accounts where
  controller : Controller
  /-- The open descriptors that came from `accept` or `create_client_socket`. -/
  opened : List Int
  /-- The descriptors of the workers that have been removed. -/
  removed : List Int

namespace Accounts

variable (codec : Codec) (p : Parameters)

/-- What the workers that a step makes are given as their descriptors. -/
def given (s : Controller) (input : Input) : List Int :=
  match s.pc, input with
  | .loopHead, .connect fd _ => ((missingProxies p s.remoteWorkers).map fd).takeWhile (· ≠ -1)
  | .receiving 0, .accept fd _ => [fd]
  | _, _ => []

/-- The descriptors that are opened in a step. -/
def obtained (s : Controller) (input : Input) : List Int := (given p s input).filter (· ≠ -1)

/-- The step of the controller.  Nothing is closed in it. -/
def step (a : Accounts) (input : Input) : Option Accounts :=
  (Controller.step codec p a.controller input).map fun t =>
    { controller := t
      opened := obtained p a.controller input ++ a.opened
      removed := ((a.controller.victim input).map RemoteWorker.fd).toList ++ a.removed }

def machine (sockFd : Int) (fuel : Nat) : Machine Accounts Input where
  init := ⟨start p sockFd fuel, [], []⟩
  step := step codec p

/-- The descriptors that are opened were not open before. -/
def fresh (a : Accounts) (input : Input) : Bool :=
  (obtained p a.controller input).all (fun fd => 0 ≤ fd && fd ≠ a.controller.sockFd) &&
    decide (obtained p a.controller input ++ a.opened).Nodup

abbrev Fresh (a : Accounts) (input : Input) : Prop := a.fresh p input = true

/-- The descriptors of the workers. -/
def descriptors (a : Accounts) : List Int := a.controller.remoteWorkers.map RemoteWorker.fd

/--
The open descriptors are those of the workers, each of them once, and those of removed
workers have been closed.
-/
structure Exact (a : Accounts) : Prop where
  same : a.opened.Perm a.descriptors
  once : a.descriptors.Nodup
  closed : ∀ fd ∈ a.removed, fd = -1 ∨ fd ∉ a.opened

/-- What is open is what the workers have and had. -/
structure Balanced (a : Accounts) : Prop where
  perm : a.opened.Perm ((a.removed ++ a.descriptors).filter (· ≠ -1))
  nodup : a.opened.Nodup

variable {codec p}

/-! ### A step opens what its workers get -/

theorem connectProxies_fds (fd : Nat → Int) (files : Files) :
    ∀ (ks : List Nat) (s : Controller),
      (connectProxies codec p fd files ks s).remoteWorkers.map RemoteWorker.fd
        = s.remoteWorkers.map RemoteWorker.fd ++ (ks.map fd).takeWhile (· ≠ -1) := by
  intro ks
  induction ks with
  | nil => intro s; simp [connectProxies]
  | cons k rest ih =>
      intro s
      rw [connectProxies_cons]
      by_cases hfd : fd k = -1
      · simp [hfd]
      · rw [if_neg hfd, ih]
        simp [join, hfd]

theorem descriptors_killWorker (s : Controller) (i index : Nat) (next : Pc) :
    (((s.remoteWorkers[index]?).map RemoteWorker.fd).toList ++
      (s.killWorker i index next).remoteWorkers.map RemoteWorker.fd).Perm
        (s.remoteWorkers.map RemoteWorker.fd) := by
  unfold killWorker
  split
  · rename_i hnone
    simp [hnone]
  · rename_i w hw
    obtain ⟨before, after, hws, rfl⟩ := Parts.exists_parts hw
    simp only [hws, Parts.eraseIdx_parts]
    simpa using List.perm_middle.symm

/-- Most steps neither make a worker nor remove one. -/
theorem descriptors_of_same {s t : Controller} {input : Input} (hvictim : s.victim input = none)
    (hgiven : given p s input = [])
    (hfds : t.remoteWorkers.map RemoteWorker.fd = s.remoteWorkers.map RemoteWorker.fd) :
    (((s.victim input).map RemoteWorker.fd).toList ++ t.remoteWorkers.map RemoteWorker.fd).Perm
      (given p s input ++ s.remoteWorkers.map RemoteWorker.fd) := by
  rw [hvictim, hgiven, hfds]
  exact List.Perm.refl _

/-- A worker that receives keeps its descriptor, or is found gone and removed. -/
theorem descriptors_receiveFrom {s : Controller} {r : Except Errno Bytes} {files : Files} {i : Nat}
    {w : RemoteWorker} (hpc : s.pc = .receiving (i + 1)) (hin : (s.revents (i + 1)).pollin = true)
    (hw : s.remoteWorkers[i]? = some w) :
    (((s.victim (.recv r files)).map RemoteWorker.fd).toList ++
      (s.receiveFrom codec p r files i w).remoteWorkers.map RemoteWorker.fd).Perm
        (given p s (.recv r files) ++ s.remoteWorkers.map RemoteWorker.fd) := by
  have hgiven : given p s (.recv r files) = [] := by simp [given, hpc]
  by_cases hreset : w.incomingBuffer.disconnects r = true
  · have hvictim : s.victim (.recv r files) = s.remoteWorkers[i]? := by
      simp [victim, hpc, hin, hw, hreset]
    rw [receiveFrom_reset hreset, hvictim, hgiven]
    exact descriptors_killWorker _ _ _ _
  · have hvictim : s.victim (.recv r files) = none := by
      simp [victim, hpc, hin, hw, hreset]
    refine receiveFrom_of (R := fun t => (((s.victim (.recv r files)).map
      RemoteWorker.fd).toList ++ t.remoteWorkers.map RemoteWorker.fd).Perm _)
      (fun _ _ => descriptors_of_same hvictim hgiven rfl) ?_ fun h => absurd h hreset
    intro w' hok
    exact descriptors_of_same hvictim hgiven (Parts.map_set_of_eq hw (receive_same hok).2.1)

/-- A step gives workers descriptors, and takes away the one of the worker it removes. -/
theorem descriptors_of_move {s t : Controller} {input : Input} (hresult : s.result ≠ -1)
    (hmove : Move codec p s input t) :
    (((s.victim input).map RemoteWorker.fd).toList ++ t.remoteWorkers.map RemoteWorker.fd).Perm
      (given p s input ++ s.remoteWorkers.map RemoteWorker.fd) := by
  cases hmove with
  | @connect fd files hpc =>
      rw [connectProxies_fds]
      simp [victim, given, hpc, List.perm_append_comm]
  | @accept fd files hpc =>
      rw [acceptWorker_eq, if_neg hresult]
      simp [victim, given, hpc, join, List.perm_append_singleton]
  | receive hpc hin hw => exact descriptors_receiveFrom hpc hin hw
  | @send r i w hpc hout hw =>
      have hvictim : s.victim (.send r) = none := by simp [victim, hpc]
      have hgiven : given p s (.send r) = [] := by simp [given, hpc]
      refine sendTo_of (R := fun t => (((s.victim (.send r)).map RemoteWorker.fd).toList ++
        t.remoteWorkers.map RemoteWorker.fd).Perm _)
        (fun _ _ => descriptors_of_same hvictim hgiven rfl) ?_
      intro w' out hok
      obtain ⟨b, -, rfl⟩ := send_eq_ok hok
      exact descriptors_of_same hvictim hgiven (Parts.map_set_of_eq hw rfl)
  | @kill i hpc hfailed =>
      have hvictim : s.victim .tau = s.remoteWorkers[i]? := by simp [victim, hpc, hfailed]
      have hgiven : given p s .tau = [] := by simp [given, hpc]
      rw [hvictim, hgiven]
      exact descriptors_killWorker _ _ _ _
  | @assign files frame rest index w hpc hframes hidle hw =>
      have hvictim : s.victim (.assign files) = none := by simp [victim, hpc]
      have hgiven : given p s (.assign files) = [] := by simp [given, hpc]
      refine after_of (R := fun t => (((s.victim (.assign files)).map RemoteWorker.fd).toList ++
        t.remoteWorkers.map RemoteWorker.fd).Perm _)
        (fun _ _ => descriptors_of_same hvictim hgiven rfl) ?_
      intro w' hok
      exact descriptors_of_same hvictim hgiven (Parts.map_set_of_eq hw (runFrame_same hok).2.1)
  | skipCheck hpc hok =>
      refine descriptors_of_same ?_ (by simp [given, hpc]) rfl
      rcases hok with rfl | hok
      · simp [victim, hpc]
      · unfold victim
        split <;> simp_all
  | quit hpc | pollFailed hpc | polled hpc | skipReceive hpc | receiveOutside hpc | skipSend hpc
  | sendOutside hpc | nextTurn hpc =>
      exact descriptors_of_same (by simp [victim, hpc]) (by simp [given, hpc]) rfl

/-! ### The balance over a run -/

theorem Balanced.step {a b : Accounts} {input : Input} (h : a.Balanced)
    (hresult : a.controller.result ≠ -1) (hfresh : a.Fresh p input)
    (hstep : a.step codec p input = some b) : b.Balanced := by
  obtain ⟨t, ht, rfl⟩ := Option.map_eq_some_iff.mp hstep
  simp only [Fresh, fresh, Bool.and_eq_true, decide_eq_true_eq] at hfresh
  have hmove := descriptors_of_move hresult (move_of_step ht)
  refine ⟨?_, hfresh.2⟩
  show (obtained p a.controller input ++ a.opened).Perm
    ((((a.controller.victim input).map RemoteWorker.fd).toList ++ a.removed ++
      t.remoteWorkers.map RemoteWorker.fd).filter (· ≠ -1))
  refine (h.perm.append_left _).trans ?_
  rw [obtained, ← List.filter_append]
  refine List.Perm.filter _ ?_
  rw [List.append_assoc]
  calc
    List.Perm (given p a.controller input ++ (a.removed ++ a.descriptors))
        (a.removed ++ (given p a.controller input ++ a.descriptors)) :=
      List.perm_append_comm_assoc _ _ _
    List.Perm _ (a.removed ++ (((a.controller.victim input).map RemoteWorker.fd).toList ++
        t.remoteWorkers.map RemoteWorker.fd)) := hmove.symm.append_left _
    List.Perm _ _ := List.perm_append_comm_assoc _ _ _

theorem controller_of_step {a b : Accounts} {input : Input} (h : a.step codec p input = some b) :
    Controller.step codec p a.controller input = some b.controller := by
  obtain ⟨t, ht, rfl⟩ := Option.map_eq_some_iff.mp h
  exact ht

theorem reach_balanced {sockFd : Int} {fuel : Nat} {a : Accounts}
    (h : (machine codec p sockFd fuel).Reach (Fresh p) a) : a.Balanced := by
  have hboth : a.controller.result ≠ -1 ∧ a.Balanced := by
    refine Machine.Reach.invariant (P := fun a => a.controller.result ≠ -1 ∧ a.Balanced) ?_ ?_ h
    · have hinit : (start p sockFd fuel).remoteWorkers = [] :=
        start_of (fun s => s.remoteWorkers = []) fun s hworkers _ _ _ _ => hworkers
      refine ⟨result_start, ?_, ?_⟩
      · simp [machine, descriptors, hinit]
      · simp [machine]
    · intro a input b ha hfresh hstep
      exact ⟨result_of_move ha.1 (move_of_step (controller_of_step hstep)),
        ha.2.step ha.1 hfresh hstep⟩
  exact hboth.2

/--
**When the controller's descriptors are those of its workers.**  As long as no worker
with a descriptor has been removed, and no connection that `accept` failed to make is
among the workers, every open descriptor belongs to one worker; otherwise one is open
that no worker has, or a worker has one that is not open.
-/
theorem exact_iff (codec : Codec) (p : Parameters) (sockFd : Int) (fuel : Nat) (a : Accounts)
    (h : (machine codec p sockFd fuel).Reach (Fresh p) a) :
    a.Exact ↔ (∀ fd ∈ a.removed, fd = -1) ∧ ∀ fd ∈ a.descriptors, fd ≠ -1 := by
  have hbalance := reach_balanced h
  have hopen : ∀ fd ∈ a.opened, fd ≠ -1 := by
    intro fd hfd
    simpa using (List.mem_filter.mp (hbalance.perm.mem_iff.mp hfd)).2
  have hperm := hbalance.perm
  rw [List.filter_append] at hperm
  constructor
  · intro hexact
    have hfds : ∀ fd ∈ a.descriptors, fd ≠ -1 :=
      fun fd hfd => hopen fd (hexact.same.mem_iff.mpr hfd)
    refine ⟨?_, hfds⟩
    have hself : a.descriptors.filter (· ≠ -1) = a.descriptors :=
      List.filter_eq_self.mpr fun fd hfd => by simpa using hfds fd hfd
    -- both lists have as many entries as there are open descriptors
    have hlen := (hexact.same.symm.trans hperm).length_eq
    rw [List.length_append, hself] at hlen
    have hnil : a.removed.filter (· ≠ -1) = [] := List.eq_nil_of_length_eq_zero (by omega)
    intro fd hfd
    simpa using List.filter_eq_nil_iff.mp hnil fd hfd
  · rintro ⟨hremoved, hfds⟩
    have hnil : a.removed.filter (· ≠ -1) = [] :=
      List.filter_eq_nil_iff.mpr fun fd hfd => by simpa using hremoved fd hfd
    have hself : a.descriptors.filter (· ≠ -1) = a.descriptors :=
      List.filter_eq_self.mpr fun fd hfd => by simpa using hfds fd hfd
    rw [hnil, hself, List.nil_append] at hperm
    exact ⟨hperm, hperm.nodup_iff.mp hbalance.nodup, fun fd hfd => Or.inl (hremoved fd hfd)⟩

/-- What a list of inputs leads to, one frame being all there is to do. -/
def replay (inputs : List Input) : Accounts :=
  ((machine drpCodec oneFrame 3 5).exec (Fresh oneFrame) (machine drpCodec oneFrame 3 5).init
    inputs).getD (machine drpCodec oneFrame 3 5).init

theorem reach_replay {inputs : List Input}
    (h : ((machine drpCodec oneFrame 3 5).exec (Fresh oneFrame)
      (machine drpCodec oneFrame 3 5).init inputs).isSome = true) :
    (machine drpCodec oneFrame 3 5).Reach (Fresh oneFrame) (replay inputs) :=
  Machine.Run.of_replay h

/-- A worker has connected. -/
def connected : Accounts := replay arrival

theorem exact_connected : connected.Exact :=
  (exact_iff drpCodec oneFrame 3 5 connected (reach_replay (by decide +kernel))).mpr
    (by decide +kernel)

/-- The worker's end of the connection is gone, and the error branch removes the worker. -/
def hungUp : Accounts := replay (arrival ++ reported { pollhup := true } ++ [.tau, .tau, .tau] ++
  rest [])

/-- The worker is gone, and its descriptor is still open. -/
theorem not_exact_hungUp :
    ¬ ∀ (codec : Codec) (p : Parameters) (sockFd : Int) (fuel : Nat) (a : Accounts),
      (machine codec p sockFd fuel).Reach (Fresh p) a → a.controller.pc = .loopHead → a.Exact := by
  intro h
  have hexact := h drpCodec oneFrame 3 5 hungUp (reach_replay (by decide +kernel))
    (by decide +kernel)
  have hlen := hexact.same.length_eq
  exact absurd hlen (by decide +kernel)

end Accounts

end Controller

end Distray
