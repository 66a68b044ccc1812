/-
One connection waits at each proxy.

A connection to a proxy is made blocking, waits there for a worker, and becomes a
worker like any other with its welcome response.  The head of the loop makes the ones
that are missing, which it finds from the indices its workers have; every other step
can only take an index away.  So when `poll` is called each index is there once.

A worker loses its index when it is welcomed, and when it is removed it takes its index with
it.  Either way the next turn of the loop finds that the proxy has nobody who waits, and
connects to it again.
-/
import Distray.Proofs.Conservation
import Mathlib.Data.List.Nodup

namespace Distray

namespace RemoteWorker

variable {codec : Codec} {p : Parameters} {files : Files}

/-- A worker that has an index is still waiting for its welcome response. -/
def Parked (w : RemoteWorker) : Prop :=
  w.proxyIndex ≠ -1 → w.state = .receiveWelcomeResponse ∧ w.frame = -1

/-- A turn leaves the index alone, unless it is the welcome. -/
theorem Turn.proxyIndex {w w' : RemoteWorker} (h : Turn codec p files w w') :
    w'.proxyIndex = -1 ∨
      w'.proxyIndex = w.proxyIndex ∧ w.state ≠ .receiveWelcomeResponse := by
  cases h with
  | welcomed => exact Or.inl rfl
  | inSent hpass hs => exact Or.inr ⟨rfl, by cases hpass <;> simp [hs]⟩
  | inSkipped hpass hs => exact Or.inr ⟨rfl, by cases hpass <;> simp [hs]⟩
  | inFinished hpass hs => exact Or.inr ⟨rfl, by cases hpass <;> simp [hs]⟩
  | inReceived hpass hs => exact Or.inr ⟨rfl, by cases hpass <;> simp [hs]⟩
  | unimplemented hs =>
      refine Or.inr ⟨rfl, ?_⟩
      rcases hs with hs | hs | hs <;> simp [hs]
  | sendWelcome hs => exact Or.inr ⟨rfl, by simp [hs]⟩
  | sendExecute hs => exact Or.inr ⟨rfl, by simp [hs]⟩
  | executed hs => exact Or.inr ⟨rfl, by simp [hs]⟩
  | outSent hs => exact Or.inr ⟨rfl, by simp [hs]⟩
  | outSkipped hs => exact Or.inr ⟨rfl, by simp [hs]⟩
  | outFinished hs => exact Or.inr ⟨rfl, by simp [hs]⟩
  | outReceived hs => exact Or.inr ⟨rfl, by simp [hs]⟩

/-- After `dispatch` a worker is not blocked for a proxy any more. -/
theorem dispatch_unparked {w w' : RemoteWorker} (h : w.dispatch codec p files = .ok w')
    (hw : w.Parked) : w'.proxyIndex = -1 := by
  refine dispatch_induct (P := fun w => w.proxyIndex = -1) h ?_ ?_
  · intro w₁ hturn
    rcases hturn.proxyIndex with hnone | ⟨hsame, hstate⟩
    · exact hnone
    · rw [hsame]
      by_contra hne
      exact hstate (hw hne).1
  · intro w₁ w₂ hw₁ _ hturn
    rcases hturn.proxyIndex with hnone | ⟨hsame, -⟩
    · exact hnone
    · exact hsame.trans hw₁

theorem parked_of_neg {w : RemoteWorker} (h : w.proxyIndex = -1) : w.Parked :=
  fun hne => absurd h hne

theorem runFrame_unparked {w w' : RemoteWorker} {frame : Int} (hw : w.Parked)
    (h : w.runFrame codec p files frame = .ok w') : w'.proxyIndex = -1 := by
  obtain ⟨hidle, hdispatch⟩ := runFrame_eq_ok h
  refine dispatch_unparked hdispatch ?_
  -- an idle worker has been welcomed
  intro hne
  have hstate := (hw hne).1
  simp [isIdle, hstate] at hidle

theorem receive_unparked {w w' : RemoteWorker} {r : Except Errno Bytes} (hw : w.Parked)
    (h : w.receive codec p files r = .ok (.ok w')) :
    w'.proxyIndex = w.proxyIndex ∨ w'.proxyIndex = -1 := by
  obtain ⟨b, -, ⟨-, rfl⟩ | ⟨-, hdispatch⟩⟩ := receive_eq_ok h
  · exact Or.inl rfl
  · exact Or.inr (dispatch_unparked hdispatch hw)

end RemoteWorker

namespace Controller

open RemoteWorker

variable {codec : Codec} {p : Parameters}

theorem upheld_parked : Upheld codec p (fun _ => True) Parked where
  newcomer := by
    rintro addr w ⟨fd, proxyIndex, rfl⟩ -
    exact ⟨rfl, rfl⟩
  incoming _ hw := hw
  outgoing _ hw := hw
  dispatch hw h := parked_of_neg (dispatch_unparked h hw)
  runFrame hw _ h := parked_of_neg (runFrame_unparked hw h)
  frame _ _ := trivial

/-! ### The indices that are there -/

/-- The indices of the proxies that workers are blocked for. -/
def indices (s : Controller) : List Int :=
  (s.remoteWorkers.map RemoteWorker.proxyIndex).filter (· ≠ -1)

@[simp] theorem indices_pc (s : Controller) (pc : Pc) :
    ({ s with pc := pc } : Controller).indices = s.indices := rfl

theorem mem_indices {s : Controller} {i : Int} :
    i ∈ s.indices ↔ (∃ w ∈ s.remoteWorkers, w.proxyIndex = i) ∧ i ≠ -1 := by
  simp [indices]

theorem indices_join (s : Controller) (fd k : Int) (hk : k ≠ -1) :
    (s.join (newcomer codec s.nextAddr fd k)).indices = s.indices ++ [k] := by
  simp [indices, join, hk]

theorem indices_accepted (s : Controller) (fd : Int) :
    (s.join (newcomer codec s.nextAddr fd (-1))).indices = s.indices := by
  simp [indices, join]

/-- A worker in another's place has its index, or none. -/
theorem indices_set {s : Controller} {i : Nat} {w w' : RemoteWorker}
    (hw : s.remoteWorkers[i]? = some w)
    (h : w'.proxyIndex = w.proxyIndex ∨ w'.proxyIndex = -1) :
    (((s.remoteWorkers.set i w').map RemoteWorker.proxyIndex).filter (· ≠ -1)).Sublist
      s.indices := by
  obtain ⟨before, after, hws, rfl⟩ := Parts.exists_parts hw
  simp only [indices, hws, Parts.set_parts, List.map_append, List.map_cons, List.filter_append]
  refine List.Sublist.append_left ?_ _
  rcases h with h | h
  · rw [h]
  · rw [h]
    simp only [List.filter_cons, ne_eq, not_true_eq_false, decide_false, Bool.false_eq_true,
      if_false]
    split
    · exact List.sublist_cons_self _ _
    · exact List.Sublist.refl _

theorem indices_kill (s : Controller) (i index : Nat) (next : Pc) :
    (s.killWorker i index next).indices.Sublist s.indices := by
  unfold killWorker
  split
  · exact List.Sublist.refl _
  · exact ((List.eraseIdx_sublist _ _).map _).filter _

/-- Only the head of the loop leads to `poll`, and no other step adds an index. -/
theorem fewer_of_move {s t : Controller} {input : Input} (hs : All (fun _ => True) Parked s)
    (hmove : Move codec p s input t) :
    (∃ fd files, t = connectProxies codec p fd files (missingProxies p s.remoteWorkers) s) ∨
      t.indices.Sublist s.indices ∧ t.pc ≠ .polling := by
  have hstop : ∀ pc : Pc, pc.stopped = true →
      ({ s with pc := pc } : Controller).indices.Sublist s.indices ∧ pc ≠ .polling :=
    fun pc hpc => ⟨List.Sublist.refl _, Pc.ne_of_stopped rfl hpc⟩
  have hnext : ∀ i, nextEntry i ≠ .polling := fun i => by cases i <;> simp [nextEntry]
  have hkill : ∀ {i index : Nat} {next : Pc}, next ≠ .polling →
      (s.killWorker i index next).indices.Sublist s.indices ∧
        (s.killWorker i index next).pc ≠ .polling :=
    fun hne => ⟨indices_kill s _ _ _, pc_killWorker rfl hne⟩
  cases hmove with
  | @connect fd files => exact Or.inl ⟨fd, files, rfl⟩
  | accept =>
      refine Or.inr ?_
      rw [acceptWorker_eq]
      split
      · exact hstop _ rfl
      · refine ⟨?_, by simp⟩
        rw [indices_pc, indices_accepted]
  | @receive r files i w _ _ hw =>
      refine Or.inr ?_
      refine receiveFrom_of (R := fun t => t.indices.Sublist s.indices ∧ t.pc ≠ .polling)
        hstop ?_ fun _ => hkill (by simp)
      intro w' hok
      have hparked := hs.workers w (List.mem_of_getElem? hw)
      exact ⟨indices_set hw (receive_unparked hparked hok), by simp⟩
  | @send r i w _ _ hw =>
      refine Or.inr ?_
      refine sendTo_of (R := fun t => t.indices.Sublist s.indices ∧ t.pc ≠ .polling) hstop ?_
      intro w' out hok
      obtain ⟨b, -, rfl⟩ := send_eq_ok hok
      exact ⟨indices_set hw (Or.inl rfl), by simp⟩
  | kill => exact Or.inr (hkill (hnext _))
  | @assign files frame rest index w hat _ _ hw =>
      refine Or.inr ?_
      refine after_of (R := fun t => t.indices.Sublist s.indices ∧ t.pc ≠ .polling) hstop ?_
      intro w' hok
      have hparked := hs.workers w (List.mem_of_getElem? hw)
      exact ⟨indices_set hw (Or.inr (runFrame_unparked hparked hok)), by simp [hat]⟩
  | skipCheck => exact Or.inr ⟨List.Sublist.refl _, hnext _⟩
  | _ => exact Or.inr ⟨List.Sublist.refl _, by simp⟩

/-! ### The head of the loop

All that the loop over the proxies has to go by are the indices of the workers.  It connects
to those that have none, one after another, and a worker has its index from the time it is
made until it is welcomed or removed.
-/

/-- Each index is that of a proxy, no two are equal, and before `poll` none is missing. -/
structure Covered (p : Parameters) (s : Controller) : Prop where
  inRange : ∀ i ∈ s.indices, ∃ k < p.proxyEndpoints.length, i = (k : Int)
  nodup : s.indices.Nodup
  complete : s.pc = .polling → ∀ k < p.proxyEndpoints.length, (k : Int) ∈ s.indices

theorem Covered.fewer {s t : Controller} (h : Covered p s) (hsub : t.indices.Sublist s.indices)
    (hpc : t.pc ≠ .polling) : Covered p t :=
  ⟨fun i hi => h.inRange i (hsub.subset hi), h.nodup.sublist hsub, fun heq => absurd heq hpc⟩

theorem mem_missingProxies {s : Controller} {k : Nat} :
    k ∈ missingProxies p s.remoteWorkers ↔
      k < p.proxyEndpoints.length ∧ (k : Int) ∉ s.indices := by
  have hk : (k : Int) ≠ -1 := by omega
  simp only [missingProxies, List.mem_filter, List.mem_range, List.all_eq_true, decide_eq_true_eq,
    mem_indices, not_and, not_not]
  constructor
  · rintro ⟨hlt, hall⟩
    refine ⟨hlt, ?_⟩
    rintro ⟨w, hw, heq⟩
    exact absurd heq (hall w hw)
  · rintro ⟨hlt, hnone⟩
    refine ⟨hlt, ?_⟩
    intro w hw heq
    exact hk (hnone ⟨w, hw, heq⟩)

/--
Connecting adds the indices one by one; either all of them are there at the end, or the
program is over.
-/
theorem connectProxies_covered (fd : Nat → Int) (files : Files) :
    ∀ (ks : List Nat) (s : Controller), ks.Nodup →
      (∀ k ∈ ks, k < p.proxyEndpoints.length ∧ (k : Int) ∉ s.indices) →
      (∀ i ∈ s.indices, ∃ k < p.proxyEndpoints.length, i = (k : Int)) → s.indices.Nodup →
      (∀ k < p.proxyEndpoints.length, k ∈ ks ∨ (k : Int) ∈ s.indices) →
      Covered p (connectProxies codec p fd files ks s) := by
  intro ks
  induction ks with
  | nil =>
      intro s _ _ hrange hnodup hall
      refine ⟨hrange, hnodup, ?_⟩
      intro _ k hk
      exact (hall k hk).resolve_left List.not_mem_nil
  | cons k rest ih =>
      intro s hks hmissing hrange hnodup hall
      rw [connectProxies_cons]
      split
      · exact ⟨hrange, hnodup, fun h => absurd h (by simp)⟩
      · obtain ⟨hlt, hnew⟩ := hmissing k (by simp)
        obtain ⟨hnotin, hrest⟩ := List.nodup_cons.mp hks
        have hadd : (s.join (newcomer codec s.nextAddr (fd k) k)).indices
            = s.indices ++ [(k : Int)] := indices_join s (fd k) k (by omega)
        refine ih _ hrest ?_ ?_ ?_ ?_
        · intro j hj
          obtain ⟨hjlt, hjnew⟩ := hmissing j (List.mem_cons_of_mem _ hj)
          refine ⟨hjlt, ?_⟩
          rw [hadd, List.mem_append, List.mem_singleton]
          rintro (hmem | heq)
          · exact hjnew hmem
          · have hjk : j = k := by omega
            exact hnotin (hjk ▸ hj)
        · intro i hi
          rw [hadd, List.mem_append, List.mem_singleton] at hi
          rcases hi with hi | rfl
          · exact hrange i hi
          · exact ⟨k, hlt, rfl⟩
        · rw [hadd]
          refine List.nodup_append.mpr ⟨hnodup, by simp, ?_⟩
          rintro i hi j hj rfl
          rw [List.mem_singleton] at hj
          exact hnew (hj ▸ hi)
        · intro j hj
          rw [hadd, List.mem_append, List.mem_singleton]
          rcases hall j hj with hmem | hmem
          · rcases List.mem_cons.mp hmem with rfl | hmem
            · exact Or.inr (Or.inr rfl)
            · exact Or.inl hmem
          · exact Or.inr (Or.inl hmem)

theorem Covered.move {s t : Controller} {input : Input} (h : Covered p s)
    (hs : All (fun _ => True) Parked s) (hmove : Move codec p s input t) : Covered p t := by
  rcases fewer_of_move hs hmove with ⟨fd, files, rfl⟩ | ⟨hsub, hpc⟩
  · refine connectProxies_covered fd files _ s (List.nodup_range.filter _)
      (fun k hk => mem_missingProxies.mp hk) h.inRange h.nodup ?_
    intro k hk
    by_cases hmem : (k : Int) ∈ s.indices
    · exact Or.inr hmem
    · exact Or.inl (mem_missingProxies.mpr ⟨hk, hmem⟩)
  · exact h.fewer hsub hpc

theorem reach_covered {ok : Controller → Input → Prop} {sockFd : Int} {fuel : Nat}
    {s : Controller} (h : (machine codec p sockFd fuel).Reach ok s) :
    All (fun _ => True) Parked s ∧ Covered p s := by
  unfold Machine.Reach at h
  induction h with
  | refl =>
      refine ⟨reach_all upheld_parked (fun _ _ _ _ => trivial)
        (Machine.Reach.init : (machine codec p sockFd fuel).Reach ok _), ?_⟩
      refine start_of (Covered p) fun s hworkers _ _ _ hpc => ⟨?_, ?_, ?_⟩
      · simp [indices, hworkers]
      · simp [indices, hworkers]
      · intro hpoll
        rcases hpc with ⟨-, hpc⟩ | ⟨-, hpc⟩
        · exact absurd (hpc.symm.trans hpoll) (by simp)
        · rw [hpoll] at hpc
          exact absurd hpc (by simp [Pc.stopped])
  | step _ _ hstep ih =>
      exact ⟨ih.1.move upheld_parked (move_of_step hstep), ih.2.move ih.1 (move_of_step hstep)⟩

theorem Covered.unique {s : Controller} (h : Covered p s) {i j : Nat} {w w' : RemoteWorker}
    (hw : s.remoteWorkers[i]? = some w) (hw' : s.remoteWorkers[j]? = some w')
    (hne : w.proxyIndex ≠ -1) (heq : w'.proxyIndex = w.proxyIndex) : i = j :=
  Parts.unique_of_nodup h.nodup hw hw' (by simpa using hne) heq

/--
Exactly one worker is blocked for proxy `k`; it waits for its welcome response and has
no frame.
-/
def OneWaiting (s : Controller) (k : Nat) : Prop :=
  ∃ (i : Nat) (w : RemoteWorker), s.remoteWorkers[i]? = some w ∧ w.proxyIndex = k ∧
    w.state = .receiveWelcomeResponse ∧ w.frame = -1 ∧
    ∀ (j : Nat) (w' : RemoteWorker), s.remoteWorkers[j]? = some w' → w'.proxyIndex = k → j = i

/--
**Exactly one connection waits at each proxy.**  Whenever the controller calls `poll`,
each proxy has one worker that is blocked for it, and every other worker's index is -1.
-/
theorem one_waiting_per_proxy (codec : Codec) (p : Parameters) (sockFd : Int) (fuel : Nat)
    (s : Controller) (h : (machine codec p sockFd fuel).Reach Machine.Any s)
    (hpc : s.pc = .polling) :
    (∀ k < p.proxyEndpoints.length, s.OneWaiting k) ∧
      ∀ w ∈ s.remoteWorkers, w.proxyIndex = -1 ∨
        ∃ k < p.proxyEndpoints.length, w.proxyIndex = k := by
  obtain ⟨hparked, hcovered⟩ := reach_covered h
  refine ⟨?_, ?_⟩
  · intro k hk
    obtain ⟨⟨w, hw, hindex⟩, hne⟩ := mem_indices.mp (hcovered.complete hpc k hk)
    obtain ⟨i, hi⟩ := List.mem_iff_getElem?.mp hw
    obtain ⟨hstate, hframe⟩ := hparked.workers w hw (hindex ▸ hne)
    refine ⟨i, w, hi, hindex, hstate, hframe, ?_⟩
    intro j w' hj hindex'
    exact (hcovered.unique hi hj (hindex ▸ hne) (hindex'.trans hindex.symm)).symm
  · intro w hw
    by_cases hindex : w.proxyIndex = -1
    · exact Or.inl hindex
    · exact Or.inr (hcovered.inRange _ (mem_indices.mpr ⟨⟨w, hw, rfl⟩, hindex⟩))

/-! One frame, one proxy, and one worker that comes through it. -/

def throughProxy : Parameters := { oneFrame with proxyEndpoints := [⟨bytes "proxy"⟩] }

/-- The worker is welcomed and given the frame while it is the only connection. -/
def firstThrough : List Input :=
  [.connect (fun _ => 4) noFiles, .poll 1 [{}, { pollout := true }], .tau, .send (.ok 6), .tau] ++
    rest [] ++ answering welcomed ++ answered { pollin := true } welcomed ++ [.tau, .tau] ++
    rest [.assign noFiles]

/-- Then the next connection to the proxy is made. -/
def polledThrough : Controller :=
  ((machine drpCodec throughProxy 3 5).exec Machine.Any (start throughProxy 3 5)
    (firstThrough ++ [.connect (fun _ => 5) noFiles])).getD (start throughProxy 3 5)

theorem one_waiting_polledThrough :
    (∀ k < 1, polledThrough.OneWaiting k) ∧
      ∀ w ∈ polledThrough.remoteWorkers, w.proxyIndex = -1 ∨ ∃ k < 1, w.proxyIndex = (k : Nat) :=
  one_waiting_per_proxy drpCodec throughProxy 3 5 polledThrough
    (Machine.Run.of_replay (by decide +kernel)) (by decide +kernel)

end Controller

end Distray
