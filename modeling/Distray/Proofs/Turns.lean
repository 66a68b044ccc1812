/-
The two loops always come back to `poll`.

Neither the controller nor the proxy can get stuck, or go round without asking the
operating system what has happened.  Within a pass the program counter only moves one
way, down the poll list or up; where it does not move, while frames are handed out, there
is a frame less each time.

Of the four ways in which the controller can stop, two are not ends of a program: a call
that never returns, and an access outside a vector.  The first is none that it can come
to, since every call of `dispatch` comes to rest wherever a worker can be.  The second
it can come to, but only by looking up a worker at a position that is no longer there,
which takes an entry whose worker was found gone and that reports something else besides.
-/
import Distray.Proofs.Access
import Distray.Proofs.Pass
import Distray.Proofs.Waits
import Distray.Lib.Inevitable
import Mathlib.Data.Prod.Lex

namespace Distray

/-! ### The controller -/

/-- The program has ended. -/
def Pc.over : Pc → Bool
  | .returned _ | .exited _ => true
  | _ => false

/-- The program has not ended, and takes no more steps. -/
def Pc.astray : Pc → Bool
  | .hung | .undefined => true
  | _ => false

theorem Pc.over_or_astray_of_stopped {pc : Pc} (h : pc.stopped = true) :
    pc.over = true ∨ pc.astray = true := by
  cases pc with
  | returned code => exact Or.inl rfl
  | exited why => exact Or.inl rfl
  | hung => exact Or.inr rfl
  | undefined => exact Or.inr rfl
  | _ => exact absurd h (by simp [Pc.stopped])

namespace Controller

open RemoteWorker

variable {codec : Codec} {p : Parameters}

/-- How far it is to `poll`. -/
def turn : Pc → Nat
  | .loopHead => 1
  | .handingOut => 2
  | .checking i => 3 * i + 3
  | .sending i => 3 * i + 4
  | .receiving i => 3 * i + 5
  | _ => 0

/-- That, and how many frames there are to hand out. -/
def rank (s : Controller) : Nat ×ₗ Nat := toLex (turn s.pc, s.frames.length)

/-- The program polls, or takes no more steps. -/
def Pausing (s : Controller) : Prop :=
  s.pc = .polling ∨ s.pc.over = true ∨ s.pc.astray = true

theorem rank_of_turn {s t : Controller} {pc : Pc} (hpc : s.pc = pc) (h : turn t.pc < turn pc) :
    t.rank < s.rank :=
  Prod.Lex.toLex_lt_toLex.mpr (Or.inl (hpc ▸ h))

theorem turn_nextEntry (i : Nat) : turn (nextEntry i) < 3 * i + 3 := by
  cases i with
  | zero => decide
  | succ i =>
      show 3 * i + 5 < 3 * (i + 1) + 3
      omega

theorem pausing_connectProxies (fd : Nat → Int) (files : Files) (ks : List Nat) (s : Controller) :
    Pausing (connectProxies codec p fd files ks s) := by
  induction ks generalizing s with
  | nil => exact Or.inl rfl
  | cons k rest ih =>
      rw [connectProxies_cons]
      by_cases hfd : fd k = -1
      · rw [if_pos hfd]
        exact Or.inr (Or.inl rfl)
      · rw [if_neg hfd]
        exact ih _

/-- The program goes on at `next`, or there was nobody to remove. -/
theorem pc_killWorker_cases (s : Controller) (i index : Nat) (next : Pc) :
    (s.killWorker i index next).pc = next ∨
      s.remoteWorkers[index]? = none ∧ (s.killWorker i index next).pc = .undefined := by
  unfold killWorker
  split
  · exact Or.inr ⟨‹_›, rfl⟩
  · exact Or.inl rfl

theorem nearer_killWorker {s : Controller} {pc next : Pc} (hpc : s.pc = pc)
    (hlt : turn next < turn pc) (i index : Nat) :
    Pausing (s.killWorker i index next) ∨ (s.killWorker i index next).rank < s.rank := by
  rcases pc_killWorker_cases s i index next with hnext | ⟨-, hundefined⟩
  · refine Or.inr (rank_of_turn hpc ?_)
    rw [hnext]
    exact hlt
  · exact Or.inl (Or.inr (Or.inr (hundefined ▸ rfl)))

/-- **Every step brings the program nearer to `poll`.** -/
theorem nearer_of_move {s t : Controller} {input : Input} (hmove : Move codec p s input t)
    (hpc : s.pc ≠ .polling) : Pausing t ∨ t.rank < s.rank := by
  have hstopped : ∀ pc : Pc, pc.stopped = true →
      Pausing { s with pc := pc } ∨ rank { s with pc := pc } < s.rank :=
    fun pc hpc => Or.inl (Or.inr (Pc.over_or_astray_of_stopped hpc))
  cases hmove with
  | quit => exact Or.inl (Or.inr (Or.inl rfl))
  | connect => exact Or.inl (pausing_connectProxies _ _ _ s)
  | pollFailed hpoll => exact absurd hpoll hpc
  | polled hpoll => exact absurd hpoll hpc
  | @skipReceive i hi => exact Or.inr (rank_of_turn hi (Nat.lt_succ_self (3 * i + 4)))
  | @accept fd files hi =>
      rw [acceptWorker_eq]
      split
      · exact Or.inl (Or.inr (Or.inl rfl))
      · exact Or.inr (rank_of_turn hi (Nat.lt_succ_self 4))
  | receiveOutside => exact Or.inl (Or.inr (Or.inr rfl))
  | @receive r files i w hi =>
      have hlt : turn (.sending (i + 1)) < turn (.receiving (i + 1)) :=
        Nat.lt_succ_self (3 * (i + 1) + 4)
      refine receiveFrom_of (R := fun t => Pausing t ∨ t.rank < s.rank) hstopped ?_ ?_
      · intro w' _
        exact Or.inr (rank_of_turn hi hlt)
      · intro _
        exact nearer_killWorker hi hlt _ _
  | @skipSend i hi => exact Or.inr (rank_of_turn hi (Nat.lt_succ_self (3 * i + 3)))
  | sendOutside => exact Or.inl (Or.inr (Or.inr rfl))
  | @send r i w hi =>
      refine sendTo_of (R := fun t => Pausing t ∨ t.rank < s.rank) hstopped ?_
      intro w' out _
      exact Or.inr (rank_of_turn hi (Nat.lt_succ_self (3 * (i + 1) + 3)))
  | @skipCheck i hi => exact Or.inr (rank_of_turn hi (turn_nextEntry i))
  | @kill i hi => exact nearer_killWorker hi (turn_nextEntry (i + 1)) _ _
  | @assign files frame rest index w hi hframes =>
      refine after_of (R := fun t => Pausing t ∨ t.rank < s.rank) hstopped ?_
      intro w' _
      -- the program counter stays, and there is a frame less
      refine Or.inr (Prod.Lex.toLex_lt_toLex.mpr (Or.inr ⟨rfl, ?_⟩))
      rw [hframes]
      exact Nat.lt_succ_self rest.length
  | nextTurn hi => exact Or.inr (rank_of_turn hi (Nat.lt_succ_self 1))

/-- **The program is never stuck**: there is an answer with which it goes on. -/
theorem exists_step {s : Controller} (h : s.pc.over = false) (hastray : s.pc.astray = false) :
    ∃ input t, step codec p s input = some t := by
  suffices hsome : ∃ input, (step codec p s input).isSome = true by
    obtain ⟨input, hinput⟩ := hsome
    obtain ⟨t, ht⟩ := Option.isSome_iff_exists.mp hinput
    exact ⟨input, t, ht⟩
  cases hpc : s.pc with
  | loopHead =>
      by_cases hmore : (!s.frames.isEmpty || anyWorkerWorking s.remoteWorkers) = true
      · exact ⟨.connect (fun _ => -1) ⟨fun _ => none, fun _ => none⟩, by
          simp only [step, hpc, if_pos hmore, Option.isSome_some]⟩
      · exact ⟨.tau, by simp only [step, hpc, if_neg hmore, Option.isSome_some]⟩
  | polling => exact ⟨.poll (-1) [], by simp [step, hpc]⟩
  | receiving i =>
      by_cases hin : (s.revents i).pollin = true
      · cases i with
        | zero =>
            exact ⟨.accept (-1) ⟨fun _ => none, fun _ => none⟩, by
              simp only [step, hpc, if_pos hin, Option.isSome_some]⟩
        | succ i =>
            cases hw : s.remoteWorkers[i]? with
            | none => exact ⟨.tau, by simp [step, hpc, hin, hw]⟩
            | some w =>
                exact ⟨.recv (.error .ECONNRESET) ⟨fun _ => none, fun _ => none⟩, by
                  simp [step, hpc, hin, hw, IncomingBuffer.admits]⟩
      · exact ⟨.tau, by simp [step, hpc, hin]⟩
  | sending i =>
      cases i with
      | zero => exact ⟨.tau, by simp [step, hpc]⟩
      | succ i =>
          by_cases hout : (s.revents (i + 1)).pollout = true
          · cases hw : s.remoteWorkers[i]? with
            | none => exact ⟨.tau, by simp [step, hpc, hout, hw]⟩
            | some w =>
                exact ⟨.send (.error .ECONNRESET), by
                  simp [step, hpc, hout, hw, OutgoingBuffer.admits]⟩
          · exact ⟨.tau, by simp [step, hpc, hout]⟩
  | checking i =>
      refine ⟨.tau, ?_⟩
      cases i with
      | zero => simp [step, hpc]
      | succ i => by_cases hfailed : (s.revents (i + 1)).failed = true <;> simp [step, hpc, hfailed]
  | handingOut =>
      cases hframes : s.frames with
      | nil => exact ⟨.tau, by simp [step, hpc, hframes]⟩
      | cons frame rest =>
          cases hidle : getIdleWorker s.remoteWorkers with
          | none => exact ⟨.tau, by simp [step, hpc, hframes, hidle]⟩
          | some index =>
              obtain ⟨hlt, -⟩ := List.findIdx?_eq_some_iff_getElem.mp hidle
              exact ⟨.assign ⟨fun _ => none, fun _ => none⟩, by
                simp [step, hpc, hframes, hidle, List.getElem?_eq_getElem hlt]⟩
  | returned code => simp [hpc, Pc.over] at h
  | exited why => simp [hpc, Pc.over] at h
  | hung => simp [hpc, Pc.astray] at hastray
  | undefined => simp [hpc, Pc.astray] at hastray

/-- From every state on, the program is bound to poll, or to take no more steps. -/
theorem inevitably_pausing {sockFd : Int} {fuel : Nat} (s : Controller) :
    (machine codec p sockFd fuel).Inevitably Machine.Any Pausing s := by
  refine Machine.Inevitably.of_rank rank (Q := fun _ => True) ?_ ?_ trivial
  · intro s _ hpause
    simp only [Pausing, not_or, Bool.not_eq_true] at hpause
    have hsome : ∃ input t, step codec p s input = some t := exists_step hpause.2.1 hpause.2.2
    obtain ⟨input, t, hstep⟩ := hsome
    exact ⟨input, t, trivial, hstep⟩
  · intro s input t _ hpause _ hstep
    have hpc : s.pc ≠ .polling := fun hpoll => hpause (Or.inl hpoll)
    exact (nearer_of_move (move_of_step hstep) hpc).imp_right fun hlt => ⟨trivial, hlt⟩

/-- Where the program takes no more steps, it takes none. -/
theorem going_of_step {s t : Controller} {input : Input} (h : step codec p s input = some t) :
    ¬ (s.pc.over = true ∨ s.pc.astray = true) := by
  intro hend
  cases hpc : s.pc with
  | returned code => simp [step, hpc] at h
  | exited why => simp [step, hpc] at h
  | hung => simp [step, hpc] at h
  | undefined => simp [step, hpc] at h
  | _ => simp [hpc, Pc.over, Pc.astray] at hend

/-! ### How the program can go astray

Every call of the loop comes to an end in a state that can be reached, so what is left is
an access outside the vector of the workers, and that is one of the loop's own: the index
into a list of copies is in range wherever a worker can be.
-/

theorem receive_ends {w : RemoteWorker} (h : w.InPlace p) (r : Except Errno Bytes)
    (files : Files) :
    w.receive codec p files r ≠ .hang ∧ w.receive codec p files r ≠ .undefined := by
  have hbuffer : w.incomingBuffer.receive r ≠ .hang ∧ w.incomingBuffer.receive r ≠ .undefined := by
    unfold IncomingBuffer.receive
    split
    · simp
    · simp only
      split_ifs <;> simp
  unfold RemoteWorker.receive
  cases hb : w.incomingBuffer.receive r with
  | hang => exact absurd hb hbuffer.1
  | undefined => exact absurd hb hbuffer.2
  | exit why => simp
  | ok x =>
      cases x with
      | error e => simp
      | ok b =>
          have hplace := h.incoming b
          simp only [Outcome.ok_bind]
          split
          · simp
          · cases hend : RemoteWorker.dispatch codec p files { w with incomingBuffer := b } with
            | ok w' => simp
            | exit why => simp
            | hang => exact absurd hend (dispatch_ne_hang hplace.ne)
            | undefined => exact absurd hend hplace.dispatch_ne_undefined

theorem after_astray {α : Type} {s : Controller} {x : Outcome α} {f : α → Controller}
    (hends : x ≠ .hang ∧ x ≠ .undefined) (hf : ∀ a, x = .ok a → (f a).pc.astray = false) :
    (s.after x f).pc.astray = false := by
  cases x with
  | ok a => exact hf a rfl
  | exit why => rfl
  | hang => exact absurd rfl hends.1
  | undefined => exact absurd rfl hends.2

theorem connectProxies_astray (fd : Nat → Int) (files : Files) (ks : List Nat) (s : Controller) :
    (connectProxies codec p fd files ks s).pc.astray = false := by
  induction ks generalizing s with
  | nil => rfl
  | cons k rest ih =>
      rw [connectProxies_cons]
      split
      · rfl
      · exact ih _

theorem nextEntry_astray (i : Nat) : (nextEntry i).astray = false := by
  cases i <;> rfl

/-- **A step leads astray only by looking a worker up where there is none.** -/
theorem astray_of_move {s t : Controller} {input : Input} (hmove : Move codec p s input t)
    (hplace : ∀ w ∈ s.remoteWorkers, w.InPlace p) (hastray : t.pc.astray = true) :
    t.pc = .undefined ∧ ∃ i, s.access = some i ∧ s.remoteWorkers[i]? = none := by
  cases hmove with
  | receiveOutside hpc hin hnone =>
      exact ⟨rfl, _, by simp only [access, hpc, hin, if_true], hnone⟩
  | sendOutside hpc hout hnone =>
      exact ⟨rfl, _, by simp only [access, hpc, hout, if_true], hnone⟩
  | @kill i hpc hfailed =>
      rcases pc_killWorker_cases s (i + 1) i (nextEntry (i + 1)) with hnext | ⟨hnone, hundefined⟩
      · rw [hnext, nextEntry_astray] at hastray
        exact absurd hastray (by simp)
      · exact ⟨hundefined, i, by simp only [access, hpc, hfailed, if_true], hnone⟩
  | connect => exact absurd hastray (by simp [connectProxies_astray])
  | accept =>
      rw [acceptWorker_eq] at hastray
      split at hastray <;> exact absurd hastray (by simp [Pc.astray])
  | @receive r files i w hpc hin hw =>
      refine absurd hastray (Bool.eq_false_iff.mp ?_)
      refine after_astray (receive_ends (hplace w (List.mem_of_getElem? hw)) r files) ?_
      intro res _
      cases res with
      | ok w' => rfl
      | error e =>
          cases e with
          | ECONNRESET => rw [killWorker_eq hw]; rfl
          | other code => rfl
  | send =>
      unfold sendTo at hastray
      split at hastray <;> exact absurd hastray (by simp [Pc.astray])
  | skipCheck => exact absurd hastray (by simp [nextEntry_astray])
  | @assign files frame rest index w hpc _ hidle hw =>
      refine absurd hastray (Bool.eq_false_iff.mp ?_)
      have hgiven : (w.given frame).InPlace p := inPlace_given w frame
      have hrun : w.runFrame codec p files frame = (w.given frame).dispatch codec p files :=
        if_pos (getIdleWorker_isIdle hidle hw)
      rw [handOut, hrun]
      refine after_astray ⟨dispatch_ne_hang hgiven.ne, hgiven.dispatch_ne_undefined⟩ ?_
      intro w' _
      show s.pc.astray = false
      rw [hpc]
      rfl
  | _ => exact absurd hastray (by simp [Pc.astray])

section Reach

variable {ok : Controller → Input → Prop} {sockFd : Int} {fuel : Nat} {jobs : List Int}
  {s : Controller}

theorem reach_inPlace (h : (machine codec p sockFd fuel).Reach ok s) :
    ∀ w ∈ s.remoteWorkers, w.InPlace p :=
  (reach_all upheld_inPlace (fun _ _ _ _ => trivial) h).workers

/-- **The program never hangs**, once the frames are there. -/
theorem reach_ne_hung (hget : p.frames.getAll fuel = .ok jobs)
    (h : (machine codec p sockFd fuel).Reach ok s) : s.pc ≠ .hung := by
  cases h with
  | refl =>
      intro hhung
      simp only [machine, start, hget, after] at hhung
      exact Pc.noConfusion hhung
  | step hreach _ hstep =>
      intro hhung
      obtain ⟨hundefined, -⟩ := astray_of_move (move_of_step hstep) (reach_inPlace hreach)
        (by rw [hhung]; rfl)
      exact Pc.noConfusion (hhung.symm.trans hundefined)

/-- And where every entry touches its own worker, it accesses nothing outside a vector. -/
theorem reach_ne_undefined (hget : p.frames.getAll fuel = .ok jobs)
    (h : (machine codec p sockFd fuel).Reach Undisturbed s) : s.pc ≠ .undefined := by
  cases h with
  | refl =>
      intro hundefined
      simp only [machine, start, hget, after] at hundefined
      exact Pc.noConfusion hundefined
  | step hreach _ hstep =>
      intro hundefined
      obtain ⟨-, i, haccess, hnone⟩ := astray_of_move (move_of_step hstep) (reach_inPlace hreach)
        (by rw [hundefined]; rfl)
      obtain ⟨w, -, hw, -⟩ :=
        (entries_touch_own_workers codec p sockFd fuel _ hreach).access i haccess
      exact absurd (hnone.symm.trans hw) (by simp)

end Reach

end Controller

/--
**The controller always comes back to `poll`.**  None of its calls hangs, in any run;
where it has neither ended nor accessed something outside a vector there is an answer of
the operating system with which it goes on; no such access is made as long as no worker
is found gone by a `receive` whose entry also reports `POLLOUT` or an error; and in
whichever way the program goes on for ever, it polls again and again, whatever happens
to its workers.
-/
theorem Controller.polls_again (codec : Codec) (p : Parameters) (sockFd : Int) (fuel : Nat)
    (jobs : List Int) (hget : p.frames.getAll fuel = .ok jobs) :
    (∀ s : Controller, (machine codec p sockFd fuel).Reach Machine.Any s → s.pc ≠ .hung) ∧
    (∀ s : Controller, (machine codec p sockFd fuel).Reach Machine.Any s →
      s.pc.over = true ∨ s.pc = .undefined ∨ ∃ input t, step codec p s input = some t) ∧
    (∀ s : Controller, (machine codec p sockFd fuel).Reach Undisturbed s → s.pc ≠ .undefined) ∧
    ∀ run : Nat → Controller,
      (∀ n, ∃ input, step codec p (run n) input = some (run (n + 1))) →
      ∀ n, ∃ k, n ≤ k ∧ (run k).pc = .polling := by
  refine ⟨fun s h => reach_ne_hung hget h, ?_, fun s h => reach_ne_undefined hget h, ?_⟩
  · intro s h
    have hhung := reach_ne_hung hget h
    cases hover : s.pc.over with
    | true => exact Or.inl rfl
    | false =>
        by_cases hundefined : s.pc = .undefined
        · exact Or.inr (Or.inl hundefined)
        · refine Or.inr (Or.inr (exists_step hover ?_))
          cases hpc : s.pc <;> first | rfl | exact absurd hpc ‹_›
  · intro run hrun n
    have hany : ∀ n, ∃ input, Machine.Any (run n) input ∧
        (machine codec p 0 0).step (run n) input = some (run (n + 1)) := by
      intro n
      obtain ⟨input, hstep⟩ := hrun n
      exact ⟨input, trivial, hstep⟩
    obtain ⟨k, hle, hpause⟩ := Machine.Inevitably.again (Q := fun _ => True)
      (fun _ _ _ _ _ _ => trivial) (fun s _ => inevitably_pausing s) run trivial hany n
    obtain ⟨input, hstep⟩ := hrun k
    exact ⟨k, hle, hpause.resolve_right (going_of_step hstep)⟩

theorem Controller.polls_again_oneFrame :
    (∀ s : Controller, (machine drpCodec oneFrame 3 5).Reach Machine.Any s → s.pc ≠ .hung) ∧
    (∀ s : Controller, (machine drpCodec oneFrame 3 5).Reach Machine.Any s →
      s.pc.over = true ∨ s.pc = .undefined ∨ ∃ input t, step drpCodec oneFrame s input = some t) ∧
    (∀ s : Controller, (machine drpCodec oneFrame 3 5).Reach Undisturbed s → s.pc ≠ .undefined) ∧
    ∀ run : Nat → Controller,
      (∀ n, ∃ input, step drpCodec oneFrame (run n) input = some (run (n + 1))) →
      ∀ n, ∃ k, n ≤ k ∧ (run k).pc = .polling :=
  polls_again drpCodec oneFrame 3 5 [1] (by decide +kernel)

/-! ### The proxy

The proxy goes through its entries upwards, and an entry whose connection is closed is left
at once, so each entry takes three turns at most.  New connections are made before the first
of them, and never during the pass.
-/

namespace Proxy

/-- The program is over. -/
def Pc.over : Pc → Bool
  | .returned _ | .exited _ => true
  | _ => false

/-- How far it is to `poll`, with so many entries. -/
def turn (entries : Nat) : Pc → Nat
  | .receiving i => 3 * (entries - i) + 3
  | .sending i => 3 * (entries - i) + 2
  | .checking i => 3 * (entries - i) + 1
  | _ => 0

def rank (s : Proxy) : Nat := turn s.pollfds.length s.pc

/-- The program polls, or it is over. -/
def Pausing (s : Proxy) : Prop := s.pc = .polling ∨ s.pc.over = true

/-- An entry that the program is busy with is there. -/
def Entered (s : Proxy) : Prop := ∀ i, busyWith s.pc = some i → i < s.pollfds.length

theorem lt_of_entry {s : Proxy} {i : Nat} {entry : Pollfd} (h : s.pollfds[i]? = some entry) :
    i < s.pollfds.length := (List.getElem?_eq_some_iff.mp h).1

theorem polling_of_end {s t : Proxy} {input : Input} {i : Nat} (hpc : s.pc = .receiving i)
    (hend : s.pollfds.length ≤ i) (h : step s input = some t) : t.pc = .polling := by
  unfold step at h
  simp only [hpc, List.getElem?_eq_none hend] at h
  split at h
  · rw [Option.some.injEq] at h
    rw [← h]
  · exact absurd h (by simp)

theorem closeConnection_cases (s : Proxy) (c : Connection) (next : Pc) :
    (s.closeConnection c next).pollfds = s.pollfds ∧
      ((s.closeConnection c next).pc = next ∨ (s.closeConnection c next).pc.over = true) := by
  unfold closeConnection
  simp only
  split
  · exact ⟨rfl, Or.inl rfl⟩
  · exact ⟨rfl, Or.inr rfl⟩

theorem acceptOn_cases (s : Proxy) (i : Nat) (fd : Int) :
    (s.acceptOn i fd).pollfds = s.pollfds ∧
      ((s.acceptOn i fd).pc = .sending i ∨ (s.acceptOn i fd).pc.over = true) := by
  unfold acceptOn
  simp only
  split
  · exact ⟨rfl, Or.inr rfl⟩
  · split
    · split <;> exact ⟨rfl, Or.inl rfl⟩
    · split <;> exact ⟨rfl, Or.inl rfl⟩

/-- The program goes on with the same poll list, at this point or a later one. -/
theorem receiveFrom_cases (s : Proxy) (r : Except Errno Bytes) (i : Nat) (fd : Int) (k : Nat)
    (c : Connection) :
    (s.receiveFrom r i fd k c).pollfds = s.pollfds ∧
      ((s.receiveFrom r i fd k c).pc = .sending i ∨
        (s.receiveFrom r i fd k c).pc = .receiving (i + 1) ∨
        (s.receiveFrom r i fd k c).pc.over = true) := by
  unfold receiveFrom
  split
  · exact ⟨rfl, Or.inr (Or.inr rfl)⟩
  · obtain ⟨hpollfds, hpc⟩ := s.closeConnection_cases c (.receiving (i + 1))
    exact ⟨hpollfds, Or.inr hpc⟩
  · exact ⟨rfl, Or.inr (Or.inr rfl)⟩
  · exact ⟨rfl, Or.inl rfl⟩

theorem sendTo_cases (s : Proxy) (r : Except Errno Nat) (i : Nat) (fd : Int) (k : Nat)
    (c : Connection) :
    (s.sendTo r i fd k c).pollfds = s.pollfds ∧
      ((s.sendTo r i fd k c).pc = .checking i ∨ (s.sendTo r i fd k c).pc.over = true) := by
  unfold sendTo
  split
  · exact ⟨rfl, Or.inr rfl⟩
  · exact ⟨rfl, Or.inr rfl⟩
  · exact ⟨rfl, Or.inl rfl⟩

/-- The program goes on at a later point of the same pass. -/
theorem onward {s t : Proxy} (hpollfds : t.pollfds = s.pollfds) {pc : Pc} (hpc : t.pc = pc)
    (hbusy : ∀ i, busyWith pc = some i → i < s.pollfds.length)
    (hlt : turn s.pollfds.length pc < turn s.pollfds.length s.pc) :
    Pausing t ∨ (Entered t ∧ t.rank < s.rank) := by
  refine Or.inr ⟨?_, ?_⟩
  · rw [Entered, hpc, hpollfds]
    exact hbusy
  · rw [rank, hpollfds, hpc]
    exact hlt

/-- It goes on with the same entry. -/
theorem onward_here {s t : Proxy} {i : Nat} {pc pc' : Pc} (hpollfds : t.pollfds = s.pollfds)
    (hpc : s.pc = pc) (hpc' : t.pc = pc') (hi : i < s.pollfds.length)
    (hbusy : busyWith pc' = some i) (hlt : turn s.pollfds.length pc' < turn s.pollfds.length pc) :
    Pausing t ∨ (Entered t ∧ t.rank < s.rank) := by
  refine onward hpollfds hpc' ?_ (hpc ▸ hlt)
  intro j hj
  obtain rfl : i = j := Option.some.inj (hbusy.symm.trans hj)
  exact hi

/-- It goes on with the next entry. -/
theorem onward_next {s t : Proxy} {i : Nat} {pc : Pc} (hpollfds : t.pollfds = s.pollfds)
    (hpc : s.pc = pc) (hpc' : t.pc = .receiving (i + 1)) (hi : i < s.pollfds.length)
    (hleft : pc = .receiving i ∨ pc = .checking i) :
    Pausing t ∨ (Entered t ∧ t.rank < s.rank) := by
  refine onward hpollfds hpc' (fun j hj => absurd hj (by simp [busyWith])) ?_
  rw [hpc]
  rcases hleft with rfl | rfl
  · show 3 * (s.pollfds.length - (i + 1)) + 3 < 3 * (s.pollfds.length - i) + 3
    omega
  · show 3 * (s.pollfds.length - (i + 1)) + 3 < 3 * (s.pollfds.length - i) + 1
    omega

/-- **Every step brings the program nearer to `poll`.** -/
theorem nearer_of_step {s t : Proxy} {input : Input} (h : Entered s) (hstep : step s input = some t)
    (hpoll : s.pc ≠ .polling) : Pausing t ∨ (Entered t ∧ t.rank < s.rank) := by
  have hmove := move_of_step hstep
  cases hmove with
  | pollFailed hpc => exact absurd hpc hpoll
  | polled hpc => exact absurd hpc hpoll
  | passEnd => exact Or.inl (Or.inl rfl)
  | @skipDeleted i hpc =>
      by_cases hi : i < s.pollfds.length
      · exact onward_next rfl hpc rfl hi (Or.inl rfl)
      · exact Or.inl (Or.inl (polling_of_end hpc (Nat.le_of_not_lt hi) hstep))
  | @skipReceive i entry hpc hentry =>
      exact onward_here rfl hpc rfl (lt_of_entry hentry) rfl (Nat.lt_succ_self _)
  | @accept i entry fd hpc hentry =>
      obtain ⟨hpollfds, hnext | hover⟩ := s.acceptOn_cases i fd
      · exact onward_here hpollfds hpc hnext (lt_of_entry hentry) rfl (Nat.lt_succ_self _)
      · exact Or.inl (Or.inr hover)
  | lostIncoming => exact Or.inl (Or.inr rfl)
  | @receive i entry k c r hpc hentry =>
      obtain ⟨hpollfds, hnext | hnext | hover⟩ := s.receiveFrom_cases r i entry.fd k c
      · exact onward_here hpollfds hpc hnext (lt_of_entry hentry) rfl (Nat.lt_succ_self _)
      · exact onward_next hpollfds hpc hnext (lt_of_entry hentry) (Or.inl rfl)
      · exact Or.inl (Or.inr hover)
  | lostOutgoing => exact Or.inl (Or.inr rfl)
  | @send i entry k c r hpc hentry =>
      obtain ⟨hpollfds, hnext | hover⟩ := s.sendTo_cases r i entry.fd k c
      · exact onward_here hpollfds hpc hnext (lt_of_entry hentry) rfl (Nat.lt_succ_self _)
      · exact Or.inl (Or.inr hover)
  | @skipSend i hpc =>
      exact onward_here rfl hpc rfl (h i (by rw [hpc]; rfl)) rfl (Nat.lt_succ_self _)
  | lostDead => exact Or.inl (Or.inr rfl)
  | @kill i entry k c hpc hentry =>
      obtain ⟨hpollfds, hnext | hover⟩ := s.closeConnection_cases c (.receiving (i + 1))
      · exact onward_next hpollfds hpc hnext (lt_of_entry hentry) (Or.inr rfl)
      · exact Or.inl (Or.inr hover)
  | @skipCheck i hpc =>
      exact onward_next rfl hpc rfl (h i (by rw [hpc]; rfl)) (Or.inr rfl)

theorem entered_of_poll {s t : Proxy} {input : Input} (hpc : s.pc = .polling)
    (hstep : step s input = some t) : Entered t := by
  intro i hbusy
  have hnot : busyWith t.pc = none := by
    cases move_of_step hstep <;> first | rfl | simp_all
  rw [hnot] at hbusy
  exact absurd hbusy (by simp)

/-- **The program is never stuck**: there is an answer with which it goes on. -/
theorem exists_step {s : Proxy} (h : Entered s) (hover : s.pc.over = false) :
    ∃ input t, step s input = some t := by
  suffices hsome : ∃ input, (step s input).isSome = true by
    obtain ⟨input, hinput⟩ := hsome
    obtain ⟨t, ht⟩ := Option.isSome_iff_exists.mp hinput
    exact ⟨input, t, ht⟩
  cases hpc : s.pc with
  | polling => exact ⟨.poll (-1) [], by simp [step, hpc]⟩
  | receiving i =>
      cases hentry : s.pollfds[i]? with
      | none => exact ⟨.tau, by simp [step, hpc, hentry]⟩
      | some entry =>
          by_cases hdeleted : entry.fd ∈ s.deletedFds
          · exact ⟨.tau, by simp [step, hpc, hentry, hdeleted]⟩
          · by_cases hin : entry.revents.pollin = true
            · by_cases hi : i ≤ 1
              · exact ⟨.accept (-1), by simp [step, hpc, hentry, hdeleted, hin, hi]⟩
              · cases hfind : find s.connections entry.fd entry.fd with
                | none => exact ⟨.tau, by simp [step, hpc, hentry, hdeleted, hin, hi, hfind]⟩
                | some found =>
                    exact ⟨.recv (.error .ECONNRESET), by
                      simp [step, hpc, hentry, hdeleted, hin, hi, hfind, admits]⟩
            · exact ⟨.tau, by simp [step, hpc, hentry, hdeleted, hin]⟩
  | sending i =>
      have hi := h i (by rw [hpc]; rfl)
      have hentry := List.getElem?_eq_getElem hi
      by_cases hout : ((s.pollfds[i]).revents.pollout && decide (2 ≤ i)) = true
      · cases hfind : find s.connections (s.pollfds[i]).fd (s.pollfds[i]).fd with
        | none =>
            refine ⟨.tau, ?_⟩
            simp only [step, hpc, hentry, if_pos hout, hfind, Option.isSome_some]
        | some found =>
            refine ⟨.send (.error .ECONNRESET), ?_⟩
            simp only [step, hpc, hentry, if_pos hout, hfind, Buffer.admits, if_true,
              Option.isSome_some]
      · refine ⟨.tau, ?_⟩
        simp only [step, hpc, hentry, if_neg hout, Option.isSome_some]
  | checking i =>
      have hi := h i (by rw [hpc]; rfl)
      have hentry := List.getElem?_eq_getElem hi
      refine ⟨.tau, ?_⟩
      by_cases hfailed : ((s.pollfds[i]).revents.failed && decide (2 ≤ i)) = true
      · cases hfind : find s.connections (s.pollfds[i]).fd (s.pollfds[i]).fd with
        | none => simp only [step, hpc, hentry, if_pos hfailed, hfind, Option.isSome_some]
        | some found => simp only [step, hpc, hentry, if_pos hfailed, hfind, Option.isSome_some]
      · simp only [step, hpc, hentry, if_neg hfailed, Option.isSome_some]
  | returned code => simp [hpc, Pc.over] at hover
  | exited why => simp [hpc, Pc.over] at hover

theorem entered_of_step {s t : Proxy} {input : Input} (h : Entered s)
    (hstep : step s input = some t) : Entered t := by
  by_cases hpc : s.pc = .polling
  · exact entered_of_poll hpc hstep
  · rcases nearer_of_step h hstep hpc with hpoll | ⟨ht, -⟩
    · intro i hbusy
      rcases hpoll with hpoll | hover
      · rw [hpoll] at hbusy
        exact absurd hbusy (by simp [busyWith])
      · cases hpc : t.pc <;> simp [hpc, busyWith, Pc.over] at hbusy hover
    · exact ht

/-- From every state on, the program is bound to poll, or to be over. -/
theorem inevitably_pausing {workerServerFd controllerServerFd : Int} {s : Proxy}
    (h : Entered s) :
    (machine workerServerFd controllerServerFd).Inevitably Machine.Any Pausing s := by
  refine Machine.Inevitably.of_rank rank (Q := Entered) ?_ ?_ h
  · intro s hs hpause
    have hover : s.pc.over = false := by
      cases hover : s.pc.over with
      | false => rfl
      | true => exact absurd (Or.inr hover) hpause
    obtain ⟨input, t, hstep⟩ := exists_step hs hover
    exact ⟨input, t, trivial, hstep⟩
  · intro s input t hs hpause _ hstep
    exact nearer_of_step hs hstep fun hpoll => hpause (Or.inl hpoll)

theorem not_over_of_step {s t : Proxy} {input : Input} (h : step s input = some t) :
    s.pc.over = false := by
  cases hpc : s.pc with
  | returned code => simp [step, hpc] at h
  | exited why => simp [step, hpc] at h
  | _ => rfl

/--
**The proxy always comes back to `poll`.**  In every reachable state in which it is not
over there is an answer of the operating system with which it goes on; and in whichever
way it goes on for ever, it polls again and again, whatever happens to its connections.
-/
theorem always_polls_again (workerServerFd controllerServerFd : Int) (s : Proxy)
    (h : (machine workerServerFd controllerServerFd).Reach Machine.Any s) :
    (s.pc.over = false → ∃ input t, step s input = some t) ∧
    ∀ run : Nat → Proxy, run 0 = s →
      (∀ n, ∃ input, step (run n) input = some (run (n + 1))) →
      ∀ n, ∃ k, n ≤ k ∧ (run k).pc = .polling := by
  have hentered : Entered s := by
    refine Machine.Reach.invariant (P := Entered) ?_ (fun _ _ _ hs _ => entered_of_step hs) h
    exact fun i hbusy => absurd hbusy (by simp [machine, start, busyWith])
  refine ⟨exists_step hentered, ?_⟩
  intro run hstart hrun n
  have hany : ∀ n, ∃ input, Machine.Any (run n) input ∧
      (machine workerServerFd controllerServerFd).step (run n) input = some (run (n + 1)) := by
    intro n
    obtain ⟨input, hstep⟩ := hrun n
    exact ⟨input, trivial, hstep⟩
  obtain ⟨k, hle, hpause⟩ := Machine.Inevitably.again (Q := Entered)
    (fun _ _ _ hs _ hstep => entered_of_step hs hstep) (fun s hs => inevitably_pausing hs) run
    (hstart ▸ hentered) hany n
  obtain ⟨input, hstep⟩ := hrun k
  refine ⟨k, hle, hpause.resolve_right ?_⟩
  rw [not_over_of_step hstep]
  exact Bool.false_ne_true

/-- A worker and a controller have met. -/
theorem always_polls_again_met :
    ((after (start 3 4) meeting).pc.over = false →
      ∃ input t, step (after (start 3 4) meeting) input = some t) ∧
    ∀ run : Nat → Proxy, run 0 = after (start 3 4) meeting →
      (∀ n, ∃ input, step (run n) input = some (run (n + 1))) →
      ∀ n, ∃ k, n ≤ k ∧ (run k).pc = .polling := by
  have hrun : (machine 3 4).Run FreshAccept (start 3 4) (after (start 3 4) meeting) :=
    run_after (by decide +kernel)
  have hreach : (machine 3 4).Reach Machine.Any (after (start 3 4) meeting) :=
    Machine.Reach.any hrun
  exact always_polls_again 3 4 _ hreach

end Proxy

end Distray
