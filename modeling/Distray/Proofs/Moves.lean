/-
What one step of the controller can do, and what every step keeps.

`Move` lists the steps, one constructor for each way through `step`, with the guard
under which it is taken; the functions that do the work stay folded, and what each of
them does to the lists is said beside it.  `Objects` holds of every run: no two workers
are the same object, and their buffers are in order.

Steps with the same effect are one constructor, with a guard for each of the ways into it.
An invariant of the controller is a case analysis on these and does not see the program
counter unless it is about it.
-/
import Distray.Lib.Parts
import Distray.Proofs.Phases

namespace Distray

/-- The program is over, and not because it was done. -/
def Pc.stopped : Pc → Bool
  | .exited _ | .hung | .undefined => true
  | .returned code => code ≠ 0
  | _ => false

theorem Pc.ne_of_stopped {pc pc' : Pc} (hgoing : pc'.stopped = false) (h : pc.stopped = true) :
    pc ≠ pc' := by
  rintro rfl
  rw [h] at hgoing
  exact absurd hgoing (by simp)

namespace Controller

open RemoteWorker

variable (codec : Codec) (p : Parameters)

/-- The steps of the controller. -/
inductive Move (s : Controller) : Input → Controller → Prop
  | quit (hpc : s.pc = .loopHead) (hframes : s.frames = [])
      (hidle : anyWorkerWorking s.remoteWorkers = false) :
      Move s .tau { s with pc := .returned 0 }
  | connect {fd : Nat → Int} {files : Files} (hpc : s.pc = .loopHead) :
      Move s (.connect fd files)
        (connectProxies codec p fd files (missingProxies p s.remoteWorkers) s)
  | pollFailed {revents : List PollFlags} (hpc : s.pc = .polling) :
      Move s (.poll (-1) revents) { s with pc := .returned (-1) }
  | polled {result : Int} {revents : List PollFlags} (hpc : s.pc = .polling)
      (hresult : result ≠ -1)
      (hlen : revents.length = s.remoteWorkers.length + 1) :
      Move s (.poll result revents) { s with
        result := result
        pollfds := setRevents
          (Pollfd.listening s.sockFd :: s.remoteWorkers.map RemoteWorker.fillPollfd) revents
        pc := .receiving s.remoteWorkers.length }
  | skipReceive {i : Nat} (hpc : s.pc = .receiving i) (hin : (s.revents i).pollin = false) :
      Move s .tau { s with pc := .sending i }
  | accept {fd : Int} {files : Files} (hpc : s.pc = .receiving 0)
      (hin : (s.revents 0).pollin = true) :
      Move s (.accept fd files) (s.acceptWorker codec p fd files)
  | receiveOutside {i : Nat} (hpc : s.pc = .receiving (i + 1))
      (hin : (s.revents (i + 1)).pollin = true) (hnone : s.remoteWorkers[i]? = none) :
      Move s .tau { s with pc := .undefined }
  | receive {r : Except Errno Bytes} {files : Files} {i : Nat} {w : RemoteWorker}
      (hpc : s.pc = .receiving (i + 1)) (hin : (s.revents (i + 1)).pollin = true)
      (hw : s.remoteWorkers[i]? = some w) (hfit : w.incomingBuffer.admits r = true) :
      Move s (.recv r files) (s.receiveFrom codec p r files i w)
  | skipSend {i : Nat} (hpc : s.pc = .sending i)
      (hout : i = 0 ∨ (s.revents i).pollout = false) :
      Move s .tau { s with pc := .checking i }
  | sendOutside {i : Nat} (hpc : s.pc = .sending (i + 1))
      (hout : (s.revents (i + 1)).pollout = true) (hnone : s.remoteWorkers[i]? = none) :
      Move s .tau { s with pc := .undefined }
  | send {r : Except Errno Nat} {i : Nat} {w : RemoteWorker} (hpc : s.pc = .sending (i + 1))
      (hout : (s.revents (i + 1)).pollout = true) (hw : s.remoteWorkers[i]? = some w)
      (hfit : w.outgoingBuffer.admits r = true) :
      Move s (.send r) (s.sendTo r i w)
  | skipCheck {i : Nat} (hpc : s.pc = .checking i)
      (hok : i = 0 ∨ (s.revents i).failed = false) :
      Move s .tau { s with pc := nextEntry i }
  | kill {i : Nat} (hpc : s.pc = .checking (i + 1)) (hfailed : (s.revents (i + 1)).failed = true) :
      Move s .tau (s.killWorker (i + 1) i (nextEntry (i + 1)))
  | assign {files : Files} {frame : Int} {rest : List Int} {index : Nat} {w : RemoteWorker}
      (hpc : s.pc = .handingOut) (hframes : s.frames = frame :: rest)
      (hidle : getIdleWorker s.remoteWorkers = some index)
      (hw : s.remoteWorkers[index]? = some w) :
      Move s (.assign files) (s.handOut codec p files frame rest index w)
  | nextTurn (hpc : s.pc = .handingOut) : Move s .tau { s with pc := .loopHead }

variable {codec p}

private theorem move_loopHead {s t : Controller} {input : Input} (hpc : s.pc = .loopHead)
    (h : step codec p s input = some t) : Move codec p s input t := by
  unfold step at h
  simp only [hpc] at h
  split at h
  · cases input with
    | connect fd files =>
        rw [Option.some.injEq] at h
        exact h ▸ .connect hpc
    | _ => simp at h
  · rename_i hcond
    simp only [Bool.or_eq_true, not_or, Bool.not_eq_true, Bool.not_eq_false',
      List.isEmpty_iff] at hcond
    cases input with
    | tau =>
        rw [Option.some.injEq] at h
        exact h ▸ .quit hpc hcond.1 hcond.2
    | _ => simp at h

private theorem move_polling {s t : Controller} {input : Input} (hpc : s.pc = .polling)
    (h : step codec p s input = some t) : Move codec p s input t := by
  unfold step at h
  simp only [hpc] at h
  cases input with
  | poll result revents =>
      simp only at h
      split at h
      · rename_i hresult
        rw [Option.some.injEq] at h
        subst hresult
        exact h ▸ .pollFailed hpc
      · rename_i hresult
        split at h
        · rename_i hlen
          rw [Option.some.injEq] at h
          exact h ▸ .polled hpc hresult (by simpa using hlen)
        · exact absurd h (by simp)
  | _ => simp at h

/-- The `POLLIN` branch, taken or not. -/
private theorem move_receiving {s t : Controller} {input : Input} {i : Nat}
    (hpc : s.pc = .receiving i) (h : step codec p s input = some t) :
    Move codec p s input t := by
  unfold step at h
  simp only [hpc] at h
  split at h
  · rename_i hin
    cases i with
    | zero =>
        cases input with
        | accept fd files =>
            rw [Option.some.injEq] at h
            exact h ▸ .accept hpc hin
        | _ => simp at h
    | succ i =>
        simp only at h
        split at h
        · rename_i hnone
          rw [Option.some.injEq] at h
          exact h ▸ .receiveOutside hpc hin hnone
        · rename_i w r files hw
          split at h
          · rename_i hfit
            rw [Option.some.injEq] at h
            exact h ▸ .receive hpc hin hw hfit
          · exact absurd h (by simp)
        · exact absurd h (by simp)
  · rename_i hin
    cases input with
    | tau =>
        rw [Option.some.injEq] at h
        exact h ▸ .skipReceive hpc (by simpa using hin)
    | _ => simp at h

/-- The `POLLOUT` branch, which the listening socket does not have. -/
private theorem move_sending {s t : Controller} {input : Input} {i : Nat}
    (hpc : s.pc = .sending i) (h : step codec p s input = some t) :
    Move codec p s input t := by
  unfold step at h
  simp only [hpc] at h
  cases i with
  | zero =>
      cases input with
      | tau =>
          rw [Option.some.injEq] at h
          exact h ▸ .skipSend hpc (Or.inl rfl)
      | _ => simp at h
  | succ i =>
      simp only at h
      split at h
      · rename_i hout
        split at h
        · rename_i hnone
          rw [Option.some.injEq] at h
          exact h ▸ .sendOutside hpc hout hnone
        · rename_i w r hw
          split at h
          · rename_i hfit
            rw [Option.some.injEq] at h
            exact h ▸ .send hpc hout hw hfit
          · exact absurd h (by simp)
        · exact absurd h (by simp)
      · rename_i hout
        cases input with
        | tau =>
            rw [Option.some.injEq] at h
            exact h ▸ .skipSend hpc (Or.inr (by simpa using hout))
        | _ => simp at h

/-- The branch that removes a worker, which the listening socket does not have either. -/
private theorem move_checking {s t : Controller} {input : Input} {i : Nat}
    (hpc : s.pc = .checking i) (h : step codec p s input = some t) :
    Move codec p s input t := by
  unfold step at h
  simp only [hpc] at h
  cases input with
  | tau =>
      cases i with
      | zero =>
          rw [Option.some.injEq] at h
          exact h ▸ .skipCheck hpc (Or.inl rfl)
      | succ i =>
          simp only at h
          split at h
          · rename_i hfailed
            rw [Option.some.injEq] at h
            exact h ▸ .kill hpc hfailed
          · rename_i hfailed
            rw [Option.some.injEq] at h
            exact h ▸ .skipCheck hpc (Or.inr (by simpa using hfailed))
  | _ => simp at h

private theorem move_handingOut {s t : Controller} {input : Input} (hpc : s.pc = .handingOut)
    (h : step codec p s input = some t) : Move codec p s input t := by
  unfold step at h
  simp only [hpc] at h
  split at h
  · rename_i frame rest index hframes hidle
    split at h
    · rename_i w files hw
      rw [Option.some.injEq] at h
      exact h ▸ .assign hpc hframes hidle hw
    · exact absurd h (by simp)
  · cases input with
    | tau =>
        rw [Option.some.injEq] at h
        exact h ▸ .nextTurn hpc
    | _ => simp at h

/-- **A step is one of those listed.** -/
theorem move_of_step {s t : Controller} {input : Input}
    (h : step codec p s input = some t) : Move codec p s input t := by
  match hpc : s.pc with
  | .loopHead => exact move_loopHead hpc h
  | .polling => exact move_polling hpc h
  | .receiving i => exact move_receiving hpc h
  | .sending i => exact move_sending hpc h
  | .checking i => exact move_checking hpc h
  | .handingOut => exact move_handingOut hpc h
  | .returned _ | .exited _ | .hung | .undefined => simp [step, hpc] at h

/-! ### What the functions do

A property of what a function leaves behind is shown by going through the ways it can end,
and for the functions of the controller these are always the same.  So each of them has a
rule, with a premise for each way, and no proof further on unfolds the function.
-/

/-- What holds whichever way a call stops, and when it returns, holds after it. -/
theorem after_of {α : Type} {R : Controller → Prop} {s : Controller} {x : Outcome α}
    {f : α → Controller} (hpc : ∀ pc, pc.stopped = true → R { s with pc := pc })
    (hok : ∀ a, x = .ok a → R (f a)) :
    R (s.after x f) := by
  cases x with
  | ok a => exact hok a rfl
  | exit why => exact hpc _ rfl
  | hang => exact hpc _ rfl
  | undefined => exact hpc _ rfl

/-- A worker that has just been started. -/
def Newcomer (codec : Codec) (addr : Nat) (w : RemoteWorker) : Prop :=
  ∃ (fd : Int) (proxyIndex : Int),
    w = { make addr fd with proxyIndex := proxyIndex }.sendRequest codec welcomeRequest none
      .receiveWelcomeResponse

theorem Newcomer.spec {addr : Nat} {w : RemoteWorker} (h : Newcomer codec addr w) :
    w.Tidy ∧ w.addr = addr ∧ w.frame = -1 := by
  obtain ⟨fd, proxyIndex, rfl⟩ := h
  exact ⟨⟨(IncomingBuffer.wf_make fd).reset, OutgoingBuffer.wf_setMessage _ _⟩, rfl, rfl⟩

theorem Newcomer.phased {addr : Nat} {w : RemoteWorker} (h : Newcomer codec addr w) :
    w.Phased p := by
  obtain ⟨fd, proxyIndex, rfl⟩ := h
  exact ⟨rfl, started_sendRequest _ _ _ _⟩

/-- `s` with a new worker at the end. -/
def join (s : Controller) (w : RemoteWorker) : Controller :=
  { s with remoteWorkers := s.remoteWorkers ++ [w], nextAddr := s.nextAddr + 1 }

/-- The worker that a descriptor is wrapped in, with its welcome request under way. -/
def newcomer (codec : Codec) (addr : Nat) (fd proxyIndex : Int) : RemoteWorker :=
  { make addr fd with proxyIndex := proxyIndex }.sendRequest codec welcomeRequest none
    .receiveWelcomeResponse

@[simp] theorem newcomer_fd (addr : Nat) (fd proxyIndex : Int) :
    (newcomer codec addr fd proxyIndex).fd = fd := rfl

@[simp] theorem newcomer_proxyIndex (addr : Nat) (fd proxyIndex : Int) :
    (newcomer codec addr fd proxyIndex).proxyIndex = proxyIndex := rfl

theorem connectProxies_cons (fd : Nat → Int) (files : Files) (k : Nat) (rest : List Nat)
    (s : Controller) :
    connectProxies codec p fd files (k :: rest) s
      = if fd k = -1 then { s with pc := .returned (-1) }
        else connectProxies codec p fd files rest
          (s.join (newcomer codec s.nextAddr (fd k) k)) := by
  rw [connectProxies]
  simp only [start_make]
  rfl

theorem acceptWorker_eq (fd : Int) (files : Files) (s : Controller) :
    s.acceptWorker codec p fd files
      = if s.result = -1 then { s with pc := .returned (-1) }
        else { s.join (newcomer codec s.nextAddr fd (-1)) with pc := .sending 0 } := by
  have hstart : (make s.nextAddr fd).start codec p files
      = .ok (newcomer codec s.nextAddr fd (-1)) := start_make s.nextAddr fd (-1)
  unfold acceptWorker
  rw [hstart]
  rfl

/-- What newcomers and the ends of the loop keep, `connectProxies` keeps. -/
theorem connectProxies_of {R : Controller → Prop}
    (hpc : ∀ s pc, pc.stopped = true ∨ pc = .polling → R s → R { s with pc := pc })
    (hjoin : ∀ s w, R s → Newcomer codec s.nextAddr w → R (s.join w)) (fd : Nat → Int)
    (files : Files) :
    ∀ (ks : List Nat) (s : Controller), R s → R (connectProxies codec p fd files ks s) := by
  intro ks
  induction ks with
  | nil => intro s hs; exact hpc s _ (Or.inr rfl) hs
  | cons k rest ih =>
      intro s hs
      rw [connectProxies]
      split
      · exact hpc s _ (Or.inl rfl) hs
      · simp only [start_make]
        exact ih _ (hjoin s _ hs ⟨fd k, k, rfl⟩)

theorem acceptWorker_of {R : Controller → Prop}
    (hpc : ∀ s pc, pc.stopped = true ∨ pc = .sending 0 → R s → R { s with pc := pc })
    (hjoin : ∀ s w, R s → Newcomer codec s.nextAddr w → R (s.join w)) (fd : Int)
    (files : Files) {s : Controller} (hs : R s) : R (s.acceptWorker codec p fd files) := by
  unfold acceptWorker
  split
  · exact hpc s _ (Or.inl rfl) hs
  · have hstart : (make s.nextAddr fd).start codec p files
        = .ok ({ make s.nextAddr fd with proxyIndex := -1 }.sendRequest codec welcomeRequest none
            .receiveWelcomeResponse) := start_make s.nextAddr fd (-1)
    rw [hstart]
    exact hpc _ _ (Or.inr rfl) (hjoin s _ hs ⟨fd, -1, rfl⟩)

theorem killWorker_eq {s : Controller} {i index : Nat} {next : Pc} {w : RemoteWorker}
    (hw : s.remoteWorkers[index]? = some w) :
    s.killWorker i index next = { s with
      frames := if w.frame = -1 then s.frames else w.frame :: s.frames
      remoteWorkers := s.remoteWorkers.eraseIdx index
      killed := (w.addr, i) :: s.killed
      pc := next } := by
  simp [killWorker, hw]

theorem pc_killWorker {s : Controller} {i index : Nat} {next pc : Pc} (hgoing : pc.stopped = false)
    (hnext : next ≠ pc) : (s.killWorker i index next).pc ≠ pc := by
  unfold killWorker
  split
  · rintro rfl
    exact absurd hgoing (by simp [Pc.stopped])
  · exact hnext

/-- `receiveFrom` updates the worker, removes it, or ends the program. -/
theorem receiveFrom_of {R : Controller → Prop} {s : Controller} {r : Except Errno Bytes}
    {files : Files} {i : Nat} {w : RemoteWorker}
    (hpc : ∀ pc, pc.stopped = true → R { s with pc := pc })
    (hok : ∀ w', w.receive codec p files r = .ok (.ok w') → R { s with
      remoteWorkers := s.remoteWorkers.set i w'
      finished := if !w.isIdle && w'.hasFinished p then w'.frame :: s.finished else s.finished
      pc := .sending (i + 1) })
    (hreset : w.incomingBuffer.disconnects r = true →
      R (s.killWorker (i + 1) i (.sending (i + 1)))) :
    R (s.receiveFrom codec p r files i w) := by
  refine after_of hpc ?_
  intro res hres
  cases res with
  | ok w' => exact hok w' hres
  | error e =>
      cases e with
      | ECONNRESET =>
          exact hreset ((IncomingBuffer.receive_eq_reset _ _).mp (receive_eq_error.mp hres))
      | other code => exact hpc _ rfl

/-- The call that finds the connection closed removes the worker. -/
theorem receiveFrom_reset {s : Controller} {r : Except Errno Bytes} {files : Files} {i : Nat}
    {w : RemoteWorker} (h : w.incomingBuffer.disconnects r = true) :
    s.receiveFrom codec p r files i w = s.killWorker (i + 1) i (.sending (i + 1)) := by
  have hreset : w.receive codec p files r = .ok (.error .ECONNRESET) :=
    receive_eq_error.mpr ((IncomingBuffer.receive_eq_reset _ _).mpr h)
  simp [receiveFrom, hreset, after]

theorem sendTo_of {R : Controller → Prop} {s : Controller} {r : Except Errno Nat} {i : Nat}
    {w : RemoteWorker} (hpc : ∀ pc, pc.stopped = true → R { s with pc := pc })
    (hok : ∀ w' out, w.send r = .ok (w', out) →
      R { s with remoteWorkers := s.remoteWorkers.set i w', pc := .checking (i + 1) }) :
    R (s.sendTo r i w) := by
  unfold sendTo
  split
  · exact hpc _ rfl
  · rename_i w' out hsend
    exact hok w' out hsend

/-- The worker a step removes, if it removes one. -/
def victim (s : Controller) (input : Input) : Option RemoteWorker :=
  match s.pc, input with
  | .receiving (i + 1), .recv r _ =>
      if (s.revents (i + 1)).pollin then
        (s.remoteWorkers[i]?).filter fun w => w.incomingBuffer.disconnects r
      else none
  | .checking (i + 1), .tau =>
      if (s.revents (i + 1)).failed then s.remoteWorkers[i]? else none
  | _, _ => none

theorem killed_of_victim {s t : Controller} {input : Input} {w : RemoteWorker}
    (hvictim : s.victim input = some w) (h : Move codec p s input t) :
    ∃ i next, s.remoteWorkers[i]? = some w ∧ t = s.killWorker (i + 1) i next := by
  cases h with
  | @receive r files i w' hpc hin hw hfit =>
      simp only [victim, hpc, hin, if_true, hw] at hvictim
      obtain ⟨hw', hreset⟩ := Option.filter_eq_some_iff.mp hvictim
      rw [Option.some.injEq] at hw'
      subst hw'
      exact ⟨i, _, hw, receiveFrom_reset hreset⟩
  | @kill i hpc hfailed =>
      simp only [victim, hpc, hfailed, if_true] at hvictim
      exact ⟨i, _, hvictim, rfl⟩
  | @skipCheck i hpc hok =>
      cases i with
      | zero => simp [victim, hpc] at hvictim
      | succ i =>
          have hnot := hok.resolve_left (Nat.succ_ne_zero i)
          simp [victim, hpc, hnot] at hvictim
  | quit hpc | connect hpc | pollFailed hpc | polled hpc | skipReceive hpc | accept hpc
  | receiveOutside hpc | skipSend hpc | sendOutside hpc | send hpc | assign hpc
  | nextTurn hpc => simp [victim, hpc] at hvictim

/-! ### What every step keeps

That no two workers are the same object is what makes an address a name.  New ones are
numbered upwards, so all that has to be kept is that the ones there are have lower numbers.
-/

/-- Every worker is an object of its own, with its buffers in order. -/
structure Objects (s : Controller) : Prop where
  tidy : ∀ w ∈ s.remoteWorkers, w.Tidy
  addrs : (s.remoteWorkers.map RemoteWorker.addr).Nodup
  addrs_lt : ∀ w ∈ s.remoteWorkers, w.addr < s.nextAddr

theorem Objects.unique {s : Controller} (h : Objects s) {i j : Nat} {w w' : RemoteWorker}
    (hw : s.remoteWorkers[i]? = some w) (hw' : s.remoteWorkers[j]? = some w')
    (haddr : w.addr = w'.addr) : i = j := by
  have hlt : i < (s.remoteWorkers.map RemoteWorker.addr).length := by
    rw [List.length_map]
    exact (List.getElem?_eq_some_iff.mp hw).1
  refine (List.getElem?_inj hlt h.addrs).mp ?_
  rw [List.getElem?_map, List.getElem?_map, hw, hw', Option.map_some, Option.map_some, haddr]

theorem Objects.pc {s : Controller} (h : Objects s) (pc : Pc) : Objects { s with pc := pc } :=
  ⟨h.tidy, h.addrs, h.addrs_lt⟩

theorem Objects.join {s : Controller} (h : Objects s) {w : RemoteWorker}
    (hnew : Newcomer codec s.nextAddr w) : Objects (s.join w) := by
  obtain ⟨htidy, haddr, -⟩ := hnew.spec
  refine ⟨?_, ?_, ?_⟩
  · intro w' hw'
    rcases List.mem_append.mp hw' with hw' | hw'
    · exact h.tidy w' hw'
    · rw [List.mem_singleton] at hw'
      exact hw' ▸ htidy
  · simp only [Controller.join, List.map_append, List.map_cons, List.map_nil]
    refine List.nodup_append.mpr ⟨h.addrs, by simp, ?_⟩
    intro a ha b hb hab
    obtain ⟨w', hw', rfl⟩ := List.mem_map.mp ha
    have hlt := h.addrs_lt w' hw'
    rw [List.mem_singleton] at hb
    omega
  · intro w' hw'
    simp only [Controller.join] at hw' ⊢
    rcases List.mem_append.mp hw' with hw' | hw'
    · have := h.addrs_lt w' hw'
      omega
    · rw [List.mem_singleton] at hw'
      rw [hw', haddr]
      omega

theorem Objects.set {s : Controller} (h : Objects s) {i : Nat} {w w' : RemoteWorker}
    (hw : s.remoteWorkers[i]? = some w) (htidy : w'.Tidy) (haddr : w'.addr = w.addr)
    (frames finished handed : List Int) (pc : Pc) :
    Objects { s with
      frames := frames, remoteWorkers := s.remoteWorkers.set i w', finished := finished
      handed := handed, pc := pc } := by
  refine ⟨?_, ?_, ?_⟩
  · intro w₁ hw₁
    rcases List.mem_or_eq_of_mem_set hw₁ with hw₁ | rfl
    · exact h.tidy w₁ hw₁
    · exact htidy
  · simp only [Parts.map_set_of_eq hw haddr]
    exact h.addrs
  · intro w₁ hw₁
    rcases List.mem_or_eq_of_mem_set hw₁ with hw₁ | rfl
    · exact h.addrs_lt w₁ hw₁
    · rw [haddr]
      exact h.addrs_lt w (List.mem_of_getElem? hw)

theorem Objects.kill {s : Controller} (h : Objects s) (i index : Nat) (next : Pc) :
    Objects (s.killWorker i index next) := by
  unfold killWorker
  split
  · exact h.pc _
  · exact ⟨fun w' hw' => h.tidy w' ((List.eraseIdx_sublist _ _).subset hw'),
      h.addrs.sublist ((List.eraseIdx_sublist _ _).map _),
      fun w' hw' => h.addrs_lt w' ((List.eraseIdx_sublist _ _).subset hw')⟩

theorem Objects.move {s t : Controller} {input : Input} (h : Objects s)
    (hmove : Move codec p s input t) : Objects t := by
  cases hmove with
  | connect =>
      exact connectProxies_of (fun s pc _ hs => hs.pc pc) (fun s w hs => hs.join) _ _ _ s h
  | polled => exact ⟨h.tidy, h.addrs, h.addrs_lt⟩
  | accept =>
      exact acceptWorker_of (fun s pc _ hs => hs.pc pc) (fun s w hs => hs.join) _ _ h
  | @receive r files i w hpc hin hw hfit =>
      refine receiveFrom_of (fun pc _ => h.pc pc) ?_ fun _ => h.kill _ _ _
      intro w' hok
      exact h.set hw (receive_tidy (h.tidy w (List.mem_of_getElem? hw)) hfit hok)
        (receive_same hok).1 _ _ _ _
  | @send r i w hpc hout hw hfit =>
      refine sendTo_of (fun pc _ => h.pc pc) ?_
      intro w' out hok
      have haddr : w'.addr = w.addr := by
        obtain ⟨b, -, rfl⟩ := send_eq_ok hok
        rfl
      exact h.set hw (send_tidy (h.tidy w (List.mem_of_getElem? hw)) hfit hok) haddr _ _ _ _
  | kill => exact h.kill _ _ _
  | @assign files frame rest index w hpc hframes hidle hw =>
      refine after_of (fun pc _ => h.pc pc) ?_
      intro w' hok
      exact h.set hw (runFrame_tidy (h.tidy w (List.mem_of_getElem? hw)) hok)
        (runFrame_same hok).1 _ _ _ _
  | _ => exact h.pc _

theorem start_of (R : Controller → Prop) {sockFd : Int} {fuel : Nat}
    (h : ∀ s : Controller, s.remoteWorkers = [] → s.finished = [] → s.handed = [] →
      s.killed = [] → (p.frames.getAll fuel = .ok s.frames ∧ s.pc = .loopHead ∨
        s.frames = [] ∧ s.pc.stopped = true) → R s) :
    R (start p sockFd fuel) := by
  refine after_of ?_ ?_
  · intro pc hpc
    exact h _ rfl rfl rfl rfl (Or.inr ⟨rfl, hpc⟩)
  · intro frames hframes
    exact h _ rfl rfl rfl rfl (Or.inl ⟨hframes, rfl⟩)

/-- **The workers are objects of their own in every reachable state.** -/
theorem reach_objects {ok : Controller → Input → Prop} {sockFd : Int} {fuel : Nat}
    {s : Controller} (h : (machine codec p sockFd fuel).Reach ok s) : Objects s := by
  refine Machine.Reach.invariant ?_ (fun s input t hs _ hstep => hs.move (move_of_step hstep)) h
  refine start_of Objects fun s hworkers _ _ _ _ => ⟨?_, ?_, ?_⟩ <;> simp [hworkers]

end Controller

end Distray
