/-
Positions and disconnections.

The pass over the poll entries goes backward so that removing a worker does not move
the workers of the entries still to come: `Aligned` says that the positions before
the current one are still those of the workers they were filled from.  That is not
enough for the entry at hand.  Once its worker has been removed, its other branches
look up the same position again and find the next worker, or none.

The second half is about noticing that a worker is gone at all, which `receive` only
does once it knows how long the message is.
-/
import Distray.Proofs.Conservation

namespace Distray

namespace Controller

open RemoteWorker

variable {codec : Codec} {p : Parameters}

/-! ### Positions

An entry is filled from a worker, and looked up by its position later.  `Aligned` is kept by
everything that happens to entries further back, whether workers are replaced there, removed
or appended, because all of that is done behind the positions in question.
-/

/-- The worker at position `i` is the one entry `i + 1` was filled from. -/
def Denotes (s : Controller) (i : Nat) : Prop :=
  ∃ (w : RemoteWorker) (entry : Pollfd), s.remoteWorkers[i]? = some w ∧
    s.pollfds[i + 1]? = some entry ∧ entry.owner = some w.addr ∧ entry.fd = w.fd

/-- The positions before `k` are in step with the entries. -/
def Aligned (s : Controller) (k : Nat) : Prop := ∀ i, i < k → s.Denotes i

/-- The position a step looks a worker up at, if it looks one up. -/
def access (s : Controller) : Option Nat :=
  match s.pc with
  | .receiving (i + 1) => if (s.revents (i + 1)).pollin then some i else none
  | .sending (i + 1) => if (s.revents (i + 1)).pollout then some i else none
  | .checking (i + 1) => if (s.revents (i + 1)).failed then some i else none
  | _ => none

/-- The step does not find a worker gone whose entry reports more than `POLLIN`. -/
def undisturbed (s : Controller) (input : Input) : Bool :=
  match s.pc, input with
  | .receiving (i + 1), .recv r _ =>
      match s.remoteWorkers[i]? with
      | some w =>
          !w.incomingBuffer.disconnects r ||
            (!(s.revents (i + 1)).pollout && !(s.revents (i + 1)).failed)
      | none => true
  | _, _ => true

abbrev Undisturbed (s : Controller) (input : Input) : Prop := s.undisturbed input = true

theorem Aligned.mono {s : Controller} {k k' : Nat} (h : s.Aligned k) (hle : k' ≤ k) :
    s.Aligned k' := fun i hi => h i (by omega)

/-- A later state of the same object stands at the same position. -/
theorem Aligned.set {s : Controller} {k i : Nat} (h : s.Aligned k) {w w' : RemoteWorker}
    (hw : s.remoteWorkers[i]? = some w) (haddr : w'.addr = w.addr) (hfd : w'.fd = w.fd)
    (frames finished handed : List Int) (pc : Pc) :
    { s with
      frames := frames, remoteWorkers := s.remoteWorkers.set i w', finished := finished
      handed := handed, pc := pc }.Aligned k := by
  intro j hj
  obtain ⟨w₁, entry, hw₁, hentry, howner, hfd₁⟩ := h j hj
  by_cases hij : i = j
  · subst hij
    rw [hw, Option.some.injEq] at hw₁
    subst hw₁
    refine ⟨w', entry, ?_, hentry, by rw [howner, haddr], by rw [hfd₁, hfd]⟩
    exact List.getElem?_set_self (List.getElem?_eq_some_iff.mp hw).1
  · refine ⟨w₁, entry, ?_, hentry, howner, hfd₁⟩
    simp only
    rw [List.getElem?_set_ne hij]
    exact hw₁

theorem Aligned.kill {s : Controller} {k index : Nat} (h : s.Aligned k) (i : Nat) (next : Pc)
    (hle : k ≤ index) : (s.killWorker i index next).Aligned k := by
  unfold killWorker
  split
  · exact h
  · intro j hj
    obtain ⟨w₁, entry, hw₁, hentry⟩ := h j hj
    refine ⟨w₁, entry, ?_, hentry⟩
    simp only
    rw [List.getElem?_eraseIdx_of_lt (by omega)]
    exact hw₁

/-- What the program counter promises about the positions. -/
def Positioned (s : Controller) : Prop :=
  match s.pc with
  | .receiving i => s.Aligned i
  | .sending i => s.Aligned i ∨
      (s.Aligned (i - 1) ∧ (s.revents i).pollout = false ∧ (s.revents i).failed = false)
  | .checking i => s.Aligned i ∨ (s.Aligned (i - 1) ∧ (s.revents i).failed = false)
  | _ => True

theorem positioned_of_stopped {s : Controller} {pc : Pc} (h : pc.stopped = true) :
    { s with pc := pc }.Positioned := by
  cases pc <;> simp [Pc.stopped] at h <;> exact trivial

theorem positioned_of_outside {s : Controller}
    (h : s.pc.stopped = true ∨ s.pc = .polling ∨ s.pc = .loopHead) : s.Positioned := by
  rcases h with h | h | h
  · exact positioned_of_stopped h
  · simp only [Positioned, h]
  · simp only [Positioned, h]

theorem positioned_of_first {s : Controller}
    (h : s.pc.stopped = true ∨ s.pc = .sending 0 ∨ s.pc = .receiving 0) : s.Positioned := by
  have hnil : s.Aligned 0 := fun i hi => absurd hi (by omega)
  rcases h with h | h | h
  · exact positioned_of_stopped h
  · simp only [Positioned, h]
    exact Or.inl hnil
  · simp only [Positioned, h]
    exact hnil

theorem aligned_polled {s : Controller} {revents : List PollFlags}
    (hlen : revents.length = s.remoteWorkers.length + 1) (result : Int) (pc : Pc) :
    { s with
      result := result
      pollfds := setRevents
        (Pollfd.listening s.sockFd :: s.remoteWorkers.map RemoteWorker.fillPollfd) revents
      pc := pc }.Aligned s.remoteWorkers.length := by
  intro i hi
  have hbound : i + 1 < (setRevents (Pollfd.listening s.sockFd ::
      s.remoteWorkers.map RemoteWorker.fillPollfd) revents).length := by
    rw [length_setRevents (by simpa using hlen)]
    simpa using hi
  obtain ⟨old, hold, hfd, howner⟩ := setRevents_getElem? (List.getElem?_eq_getElem hbound)
  rw [List.getElem?_cons_succ, List.getElem?_map, List.getElem?_eq_getElem hi, Option.map_some,
    Option.some.injEq] at hold
  subst hold
  exact ⟨_, _, List.getElem?_eq_getElem hi, List.getElem?_eq_getElem hbound, howner, hfd⟩

/-- **The positions stay in step through an undisturbed pass.** -/
theorem positioned_of_move {s t : Controller} {input : Input} (hs : s.Positioned)
    (hok : s.Undisturbed input) (hmove : Move codec p s input t) : t.Positioned := by
  cases hmove with
  | connect hpc =>
      exact positioned_of_outside (connectProxies_of
        (R := fun t => t.pc.stopped = true ∨ t.pc = .polling ∨ t.pc = .loopHead)
        (fun s pc hpc _ => hpc.imp_right Or.inl) (fun _ _ h _ => h) _ _ _ s
        (Or.inr (Or.inr hpc)))
  | polled _ _ hlen => exact aligned_polled hlen _ _
  | skipReceive hpc =>
      simp only [Positioned, hpc] at hs
      exact Or.inl hs
  | accept hpc =>
      exact positioned_of_first (acceptWorker_of
        (R := fun t => t.pc.stopped = true ∨ t.pc = .sending 0 ∨ t.pc = .receiving 0)
        (fun s pc hpc _ => hpc.imp_right Or.inl) (fun _ _ h _ => h) _ _
        (Or.inr (Or.inr hpc)))
  | @receive r files i w hpc hin hw hfit =>
      simp only [Positioned, hpc] at hs
      refine receiveFrom_of (fun pc hpc => positioned_of_stopped hpc) ?_ ?_
      · intro w' hw'
        exact Or.inl (hs.set hw (receive_same hw').1 (receive_same hw').2.1 _ _ _ _)
      · intro hreset
        have hquiet : (s.revents (i + 1)).pollout = false ∧ (s.revents (i + 1)).failed = false := by
          simpa [Undisturbed, undisturbed, hpc, hw, hreset] using hok
        have hbefore := (hs.mono (Nat.le_succ i)).kill (i + 1) (.sending (i + 1)) (Nat.le_refl i)
        rw [killWorker_eq hw] at hbefore ⊢
        exact Or.inr ⟨hbefore, hquiet⟩
  | skipSend hpc =>
      simp only [Positioned, hpc] at hs
      exact hs.imp_right fun h => ⟨h.1, h.2.2⟩
  | @send r i w hpc hout hw hfit =>
      simp only [Positioned, hpc, hout, Bool.true_eq_false, false_and, and_false, or_false] at hs
      refine sendTo_of (fun pc hpc => positioned_of_stopped hpc) ?_
      intro w' out hw'
      have hsame : w'.addr = w.addr ∧ w'.fd = w.fd := by
        obtain ⟨b, -, rfl⟩ := send_eq_ok hw'
        exact ⟨rfl, rfl⟩
      exact Or.inl (hs.set hw hsame.1 hsame.2 _ _ _ _)
  | @skipCheck i hpc =>
      simp only [Positioned, hpc] at hs
      cases i with
      | zero => exact trivial
      | succ i =>
          rcases hs with hs | hs
          · exact hs.mono (Nat.le_succ i)
          · exact hs.1
  | @kill i hpc hfailed =>
      simp only [Positioned, hpc, hfailed, Bool.true_eq_false, and_false, or_false] at hs
      have hbefore := (hs.mono (Nat.le_succ i)).kill (i + 1) (nextEntry (i + 1)) (Nat.le_refl i)
      cases hw : s.remoteWorkers[i]? with
      | none => simp [killWorker, hw, Positioned]
      | some w =>
          rw [killWorker_eq hw] at hbefore ⊢
          exact hbefore
  | assign hpc =>
      refine after_of (fun pc hpc => positioned_of_stopped hpc) ?_
      intro w' _
      simp [Positioned, hpc]
  | quit => exact trivial
  | pollFailed => exact trivial
  | receiveOutside => exact trivial
  | sendOutside => exact trivial
  | nextTurn => exact trivial

/-! ### Removals

Every removal is on record with the position of the entry whose branch it was made from,
and nobody is on record twice, so it can be asked afterwards whether an entry has removed
its own worker.  An entry that reports no more than `POLLIN` looks nobody up again.
-/

/-- Whoever was removed is gone for good, and was not removed before. -/
structure Removed (s : Controller) : Prop where
  nodup : (s.killed.map Prod.fst).Nodup
  gone : ∀ w ∈ s.remoteWorkers, w.addr ∉ s.killed.map Prod.fst
  lt : ∀ a ∈ s.killed.map Prod.fst, a < s.nextAddr

theorem Removed.join {s : Controller} (h : Removed s) {w : RemoteWorker}
    (hnew : Newcomer codec s.nextAddr w) : Removed (s.join w) := by
  refine ⟨h.nodup, ?_, fun a ha => Nat.lt_succ_of_lt (h.lt a ha)⟩
  intro w' hw' hmem
  rcases List.mem_append.mp hw' with hw' | hw'
  · exact h.gone w' hw' hmem
  · rw [List.mem_singleton] at hw'
    have hlt := h.lt _ hmem
    rw [hw', hnew.spec.2.1] at hlt
    omega

theorem Removed.set {s : Controller} (h : Removed s) {i : Nat} {w w' : RemoteWorker}
    (hw : s.remoteWorkers[i]? = some w) (haddr : w'.addr = w.addr)
    (frames finished handed : List Int) (pc : Pc) :
    Removed { s with
      frames := frames, remoteWorkers := s.remoteWorkers.set i w', finished := finished
      handed := handed, pc := pc } := by
  refine ⟨h.nodup, ?_, h.lt⟩
  intro w₁ hw₁
  rcases List.mem_or_eq_of_mem_set hw₁ with hw₁ | rfl
  · exact h.gone w₁ hw₁
  · rw [haddr]
    exact h.gone w (List.mem_of_getElem? hw)

theorem Removed.kill {s : Controller} (h : Removed s) (hobj : Objects s) (i index : Nat)
    (next : Pc) : Removed (s.killWorker i index next) := by
  cases hw : s.remoteWorkers[index]? with
  | none =>
      rw [killWorker, hw]
      exact ⟨h.nodup, h.gone, h.lt⟩
  | some w =>
      rw [killWorker_eq hw]
      refine ⟨?_, ?_, ?_⟩
      · exact List.nodup_cons.mpr ⟨h.gone w (List.mem_of_getElem? hw), h.nodup⟩
      · intro w' hw' hmem
        have hsub := List.eraseIdx_sublist s.remoteWorkers index
        rcases List.mem_cons.mp hmem with heq | hmem
        · -- the addresses were all different, so the one that went away is not left
          obtain ⟨k, hne, hk⟩ := List.mem_eraseIdx_iff_getElem?.mp hw'
          exact hne (hobj.unique hk hw heq)
        · exact h.gone w' (hsub.subset hw') hmem
      · intro a ha
        rcases List.mem_cons.mp ha with rfl | ha
        · exact hobj.addrs_lt w (List.mem_of_getElem? hw)
        · exact h.lt a ha

theorem Removed.move {s t : Controller} {input : Input} (h : Removed s) (hobj : Objects s)
    (hmove : Move codec p s input t) : Removed t := by
  have hpc : ∀ s : Controller, Removed s → ∀ pc, Removed { s with pc := pc } :=
    fun s hs pc => ⟨hs.nodup, hs.gone, hs.lt⟩
  cases hmove with
  | connect =>
      exact connectProxies_of (R := Removed) (fun s pc _ hs => hpc s hs pc)
        (fun s w hs hnew => hs.join hnew) _ _ _ s h
  | polled => exact ⟨h.nodup, h.gone, h.lt⟩
  | accept =>
      exact acceptWorker_of (R := Removed) (fun s pc _ hs => hpc s hs pc)
        (fun s w hs hnew => hs.join hnew) _ _ h
  | receive _ _ hw =>
      exact receiveFrom_of (fun pc _ => hpc s h pc)
        (fun w' hok => h.set hw (receive_same hok).1 _ _ _ _) fun _ => h.kill hobj _ _ _
  | @send r i w _ _ hw =>
      refine sendTo_of (fun pc _ => hpc s h pc) ?_
      intro w' out hok
      have haddr : w'.addr = w.addr := by
        obtain ⟨b, -, rfl⟩ := send_eq_ok hok
        rfl
      exact h.set hw haddr _ _ _ _
  | kill => exact h.kill hobj _ _ _
  | assign _ _ _ hw =>
      exact after_of (fun pc _ => hpc s h pc) fun w' hok => h.set hw (runFrame_same hok).1 _ _ _ _
  | _ => exact hpc s h _

/-- The worker a step removes is the one it looks up, and something was wrong with it. -/
theorem access_of_victim {s : Controller} {input : Input} {w : RemoteWorker}
    (h : s.victim input = some w) :
    ∃ i, s.access = some i ∧ s.remoteWorkers[i]? = some w ∧
      ((s.revents (i + 1)).failed = true ∨
        ∃ r files, input = .recv r files ∧ w.incomingBuffer.disconnects r = true) := by
  unfold victim at h
  split at h
  · rename_i i r files hpc
    split at h
    · rename_i hin
      obtain ⟨hw, hreset⟩ := Option.filter_eq_some_iff.mp h
      exact ⟨i, by simp [access, hpc, hin], hw, Or.inr ⟨r, files, rfl, hreset⟩⟩
    · exact absurd h (by simp)
  · rename_i i hpc
    split at h
    · rename_i hfailed
      exact ⟨i, by simp [access, hpc, hfailed], h, Or.inl hfailed⟩
    · exact absurd h (by simp)
  · exact absurd h (by simp)

/-- In a state whose positions are in step, whoever is looked up is the entry's worker. -/
theorem Positioned.denotes {s : Controller} (h : s.Positioned) {i : Nat}
    (hi : s.access = some i) : s.Denotes i := by
  unfold access at hi
  split at hi
  · rename_i k hpc
    split at hi
    · rw [Option.some.injEq] at hi
      subst hi
      simp only [Positioned, hpc] at h
      exact h k (Nat.lt_succ_self k)
    · exact absurd hi (by simp)
  · rename_i k hpc
    split at hi
    · rename_i hout
      rw [Option.some.injEq] at hi
      subst hi
      simp only [Positioned, hpc, hout, Bool.true_eq_false, false_and, and_false, or_false] at h
      exact h k (Nat.lt_succ_self k)
    · exact absurd hi (by simp)
  · rename_i k hpc
    split at hi
    · rename_i hfailed
      rw [Option.some.injEq] at hi
      subst hi
      simp only [Positioned, hpc, hfailed, Bool.true_eq_false, and_false, or_false] at h
      exact h k (Nat.lt_succ_self k)
    · exact absurd hi (by simp)
  · exact absurd hi (by simp)

/-- Each entry only touches its own worker, and each worker is removed at most once. -/
structure OwnWorkersOnly (s : Controller) : Prop where
  access : ∀ i, s.access = some i → s.Denotes i
  once : (s.killed.map Prod.fst).Nodup ∧ ∀ w ∈ s.remoteWorkers, w.addr ∉ s.killed.map Prod.fst
  /-- Who is removed has an entry of its own, and that entry reports an error or its
  `receive` fails. -/
  own_error : ∀ input w, s.victim input = some w →
    ∃ (i : Nat) (entry : Pollfd), s.pollfds[i + 1]? = some entry ∧ entry.owner = some w.addr ∧
      entry.fd = w.fd ∧ (entry.revents.failed = true ∨
        ∃ r files, input = .recv r files ∧ w.incomingBuffer.disconnects r = true)

/--
**When every entry touches its own worker only.**  As long as no worker is found gone
by a `receive` whose entry also reports `POLLOUT` or an error, every position that is
looked up is within the vector and holds the worker the entry was filled from.
-/
theorem entries_touch_own_workers (codec : Codec) (p : Parameters) (sockFd : Int) (fuel : Nat)
    (s : Controller) (h : (machine codec p sockFd fuel).Reach Undisturbed s) :
    s.OwnWorkersOnly := by
  have hpos : s.Positioned := by
    refine Machine.Reach.invariant (P := Positioned) ?_
      (fun s input t hs hok hstep => positioned_of_move hs hok (move_of_step hstep)) h
    refine start_of Positioned fun s _ _ _ _ hpc => positioned_of_outside ?_
    rcases hpc with ⟨-, hpc⟩ | ⟨-, hpc⟩
    · exact Or.inr (Or.inr hpc)
    · exact Or.inl hpc
  have hremoved : Objects s ∧ Removed s := by
    refine Machine.Reach.invariant (P := fun s => Objects s ∧ Removed s) ⟨?_, ?_⟩
      (fun s input t hs _ hstep =>
        ⟨hs.1.move (move_of_step hstep), hs.2.move hs.1 (move_of_step hstep)⟩) h
    · have hinit : (machine codec p sockFd fuel).Reach Undisturbed
          (machine codec p sockFd fuel).init := Machine.Reach.init
      exact reach_objects hinit
    · refine start_of Removed fun s _ _ _ hkilled _ => ⟨?_, ?_, ?_⟩ <;> simp [hkilled]
  refine ⟨fun i => hpos.denotes, ⟨hremoved.2.nodup, hremoved.2.gone⟩, ?_⟩
  intro input w hw
  obtain ⟨i, haccess, hw', herror⟩ := access_of_victim hw
  obtain ⟨w₁, entry, hw₁, hentry, howner, hfd⟩ := hpos.denotes haccess
  rw [hw', Option.some.injEq] at hw₁
  subst hw₁
  refine ⟨i, entry, hentry, howner, hfd, herror.imp_left ?_⟩
  intro hfailed
  simpa [revents, hentry] using hfailed

/-- The worker has been sent its first request, and its entry reports something. -/
def reporting (flags : PollFlags) : List Input := arrival ++ requested 6 ++ reported flags

def reportingIn : Controller :=
  replay Undisturbed (reporting { pollin := true }) (start oneFrame 3 5)

theorem entries_touch_own_workers_reporting : reportingIn.OwnWorkersOnly :=
  entries_touch_own_workers drpCodec oneFrame 3 5 reportingIn (run_replay _ (by decide +kernel))

/-- A connection that was reset: the branch for `POLLIN` has removed the worker. -/
def resetAndGone : Controller :=
  replay Machine.Any
    (reporting { pollin := true, pollerr := true, pollhup := true } ++
      [.recv (.error .ECONNRESET) noFiles, .tau])
    (start oneFrame 3 5)

/-- The branch for errors then looks up a position that is no longer there. -/
theorem entry_touches_nothing :
    ¬ ∀ (codec : Codec) (p : Parameters) (sockFd : Int) (fuel : Nat) (s : Controller),
      (machine codec p sockFd fuel).Reach Machine.Any s → s.OwnWorkersOnly := by
  intro h
  have hown := h drpCodec oneFrame 3 5 resetAndGone (run_replay _ (by decide +kernel))
  obtain ⟨w, -, hw, -⟩ := hown.access 0 (by decide +kernel)
  have hnone : resetAndGone.remoteWorkers[0]? = none := by decide +kernel
  exact absurd (hnone.symm.trans hw) (by simp)

/-! ### Disconnections

There are two places where `receive` could learn that the other side is gone, one for each
of its calls of `recv`, and only the second looks at a result of 0.  So it depends on what
the buffer has when the connection is closed, and on nothing else.
-/

/--
The end of worker `i`'s stream is noticed: `receive` fails with `ECONNRESET`, the
controller removes the worker, and the frame it was working on is the next to go out.
-/
structure NoticesClose (codec : Codec) (p : Parameters) (files : Files) (s : Controller) (i : Nat)
    (w : RemoteWorker) : Prop where
  fails : w.receive codec p files (.ok []) = .ok (.error .ECONNRESET)
  removed : ∀ t, s.pc = .receiving (i + 1) → step codec p s (.recv (.ok []) files) = some t →
    t.remoteWorkers = s.remoteWorkers.eraseIdx i ∧
      (∀ w' ∈ t.remoteWorkers, w'.addr ≠ w.addr) ∧
      (w.isIdle = false → 0 ≤ w.frame → t.frames.head? = some w.frame)

/-- A close is not reported while the length of the message is still awaited. -/
theorem receive_closed_of_header (codec : Codec) (p : Parameters) (files : Files)
    {w : RemoteWorker} (htidy : w.Tidy)
    (hs : w.incomingBuffer.haveSize = false) :
    w.receive codec p files (.ok []) = .ok (.ok w) := by
  have hneed : w.incomingBuffer.needReceive = true := by simp [IncomingBuffer.needReceive, hs]
  unfold RemoteWorker.receive
  rw [IncomingBuffer.receive_closed_header htidy.incoming hs, Outcome.ok_bind]
  simp only [hneed, if_true]

/--
**When a disconnection is noticed.**  The end of a worker's stream is noticed exactly
when it comes after the four bytes of a message's length: between two messages, or
inside those four bytes, `receive` reports success and the worker stays.
-/
theorem close_noticed_iff (codec : Codec) (p : Parameters) (sockFd : Int) (fuel : Nat)
    (files : Files) (s : Controller) (h : (machine codec p sockFd fuel).Reach Machine.Any s)
    (i : Nat) (w : RemoteWorker) (hw : s.remoteWorkers[i]? = some w) :
    NoticesClose codec p files s i w ↔ w.incomingBuffer.haveSize = true := by
  have hobj := reach_objects h
  have htidy := hobj.tidy w (List.mem_of_getElem? hw)
  constructor
  · intro hnotices
    cases hs : w.incomingBuffer.haveSize with
    | true => rfl
    | false =>
        have hok := receive_closed_of_header codec p files htidy hs
        exact absurd (hok.symm.trans hnotices.fails) (by simp)
  · intro hs
    have hfails : w.receive codec p files (.ok []) = .ok (.error .ECONNRESET) :=
      receive_eq_error.mpr (IncomingBuffer.receive_closed_payload hs)
    refine ⟨hfails, ?_⟩
    intro t hpc hstep
    cases move_of_step hstep with
    | @receive r files i' w' hpc' hin hw' hfit =>
        have hi : i' = i := by
          rw [hpc] at hpc'
          simpa using hpc'.symm
        subst hi
        rw [hw, Option.some.injEq] at hw'
        subst hw'
        simp only [receiveFrom, hfails, after]
        rw [killWorker_eq hw]
        refine ⟨rfl, ?_, ?_⟩
        · intro w' hw' heq
          obtain ⟨k, hne, hk⟩ := List.mem_eraseIdx_iff_getElem?.mp hw'
          exact hne (hobj.unique hk hw heq)
        · intro _ hframe
          rw [if_neg (by omega)]
          rfl

/-- Four bytes of the worker's first response have arrived, and it closes. -/
def lengthIn : Controller :=
  replay Machine.Any (arrival ++ requested 6 ++ answering welcomed ++ reported { pollin := true })
    (start oneFrame 3 5)

theorem close_noticed_iff_length : ∃ w, lengthIn.remoteWorkers[0]? = some w ∧
    (NoticesClose drpCodec oneFrame noFiles lengthIn 0 w ↔ w.incomingBuffer.haveSize = true) := by
  obtain ⟨w, hw⟩ : ∃ w, lengthIn.remoteWorkers[0]? = some w :=
    Option.isSome_iff_exists.mp (by decide +kernel)
  exact ⟨w, hw, close_noticed_iff drpCodec oneFrame 3 5 noFiles lengthIn
    (run_replay _ (by decide +kernel)) 0 w hw⟩

/-- The worker closes before the first byte of its response: the controller waits on. -/
theorem close_unnoticed :
    ¬ ∀ (codec : Codec) (p : Parameters) (sockFd : Int) (fuel : Nat) (files : Files)
      (s : Controller), (machine codec p sockFd fuel).Reach Machine.Any s →
      ∀ i w, s.remoteWorkers[i]? = some w → NoticesClose codec p files s i w := by
  intro h
  have hreach : (machine drpCodec oneFrame 3 5).Reach Undisturbed reportingIn :=
    run_replay _ (by decide +kernel)
  obtain ⟨w, hw⟩ : ∃ w, reportingIn.remoteWorkers[0]? = some w :=
    Option.isSome_iff_exists.mp (by decide +kernel)
  have hsize : reportingIn.remoteWorkers[0]?.map (fun w => w.incomingBuffer.haveSize)
      = some false := by decide +kernel
  rw [hw, Option.map_some, Option.some.injEq] at hsize
  have hok := receive_closed_of_header drpCodec oneFrame noFiles
    ((reach_objects hreach).tidy w (List.mem_of_getElem? hw)) hsize
  have hnotices := h drpCodec oneFrame 3 5 noFiles reportingIn hreach.any 0 w hw
  exact absurd (hok.symm.trans hnotices.fails) (by simp)

end Controller

end Distray
