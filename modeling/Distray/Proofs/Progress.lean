/-
A request that was made is answered.

In every phase of an exchange it is somebody's turn: bytes that are not where they are
wanted can be moved, a message that is all there can be received, a handler can return.
And every such step brings the exchange nearer to its end, whoever takes it: first by
the phase it is in, and within a phase by how far the bytes under way have to go.

The exchange may go through a proxy or not.  The queues are a chain of any length, and the
only thing that is asked of them is that what one of them has can be handed on.
-/
import Distray.Proofs.Composition
import Distray.Lib.Inevitable
import Mathlib.Data.Prod.Lex

namespace Distray

/-! ### The receiving end wants more -/

namespace RemoteWorker

variable {codec : Codec} {p : Parameters} {files : Files}

/-- A message that is complete does not stay in the buffer. -/
def Hungry (w : RemoteWorker) : Prop := w.incomingBuffer.needReceive = true

/-- A turn that takes a response empties the buffer, and no other fills it. -/
theorem Turn.hungry {w w' : RemoteWorker} (hturn : Turn codec p files w w')
    (hw : w.Hungry ∨ w.state.expects ≠ none) : w'.Hungry := by
  have hsame : w.state.expects = none → w.Hungry := fun hnone => hw.resolve_right (· hnone)
  cases hturn with
  | inSkipped hpass hs => exact hsame (by cases hpass <;> rw [hs] <;> rfl)
  | inFinished hpass hs => exact hsame (by cases hpass <;> rw [hs] <;> rfl)
  | outSkipped hs => exact hsame (by rw [hs]; rfl)
  | outFinished hs => exact hsame (by rw [hs]; rfl)
  | unimplemented hs => exact hsame (by rcases hs with hs | hs | hs <;> rw [hs] <;> rfl)
  | _ => rfl

theorem dispatch_hungry {w w' : RemoteWorker} (hok : w.dispatch codec p files = .ok w')
    (hw : w.Hungry ∨ w.state.expects ≠ none) : w'.Hungry :=
  dispatch_induct hok (fun _ hturn => hturn.hungry hw) fun _ _ hw₁ _ hturn =>
    hturn.hungry (Or.inl hw₁)

end RemoteWorker

namespace Pair

variable {codec : Codec} {p : Parameters}

/-- What is received is what was asked for, and is taken when it is complete. -/
theorem receive_hungry {w w' : RemoteWorker} {l l' : Link} {data : Bytes} {files : Files}
    (hin : InStep codec w l) (h : w.incomingBuffer.admits (.ok data) = true)
    (hdeliver : l.deliver data = some l')
    (hok : w.receive codec p files (.ok data) = .ok (.ok w')) : w'.Hungry := by
  obtain ⟨b, hb, ⟨hneed, rfl⟩ | ⟨hdone, hdispatch⟩⟩ := RemoteWorker.receive_eq_ok hok
  · exact hneed
  · obtain ⟨harrived, -⟩ := hin.complete h hdeliver hb hdone
    exact RemoteWorker.dispatch_hungry hdispatch (Or.inr harrived.expects)

theorem hungry_of_move {s t : Pair} {input : Input} (hin : InStep codec s.worker s.link)
    (h : s.worker.Hungry) (hmove : Move codec p s input t) : t.worker.Hungry := by
  cases hmove with
  | started hs hok => exact RemoteWorker.dispatch_hungry hok (Or.inl h)
  | received hfit hdeliver hok => exact receive_hungry hin hfit hdeliver hok
  | sent hfit hok =>
      obtain ⟨b, -, rfl⟩ := RemoteWorker.send_eq_ok hok
      exact h
  | given hok => exact RemoteWorker.dispatch_hungry (RemoteWorker.runFrame_eq_ok hok).2 (Or.inl h)
  | link => exact h
  | stopped => exact h

theorem reach_hungry (hsound : codec.Sound) {addr : Nat} {fd : Int} {hops : Nat} {s : Pair}
    (h : (machine codec p addr fd hops).Reach (Fits codec p) s) :
    Inv codec s ∧ s.worker.Hungry := by
  refine Machine.Reach.invariant (P := fun s => Inv codec s ∧ s.worker.Hungry) ?_ ?_ h
  · exact ⟨Inv.of_inStep rfl (InStep.make addr fd hops), rfl⟩
  · rintro s input t ⟨hinv, hhungry⟩ hfits hstep
    exact ⟨hinv.step hsound hfits hstep,
      hungry_of_move hinv.inStep hhungry (move_of_step hstep).2⟩

/-! ### Somebody's turn

Whether the exchange can go on must not depend on luck: in each of its phases there is one
particular step that can be taken, by the side that has something to do or by a queue that
has something to hand on.
-/

/-- The steps that get an exchange on: bytes move, or a call at the worker's end returns. -/
def Productive (s : Pair) : Input → Prop
  | .recv (.ok data) _ => data ≠ []
  | .send (.ok n) => 0 < n
  | .link (.forwardRequest k n) => s.link.toWorker.forward k n ≠ s.link.toWorker
  | .link (.forwardResponse k n) => s.link.toController.forward k n ≠ s.link.toController
  | .link .receive | .link (.handle _) | .link .send => True
  | _ => False

/--
How an exchange can end: the response has been decoded, one of the two ends has
stopped, or a message is too large.
-/
def Over (codec : Codec) (responses : Nat) (s : Pair) : Prop :=
  responses < s.worker.responses.length ∨ s.status ≠ .running ∨
    (∃ code, s.link.process = .returned code) ∨ messagesFit codec s.worker s.link = false

/-- Where there are bytes, some can be handed on, or the first queue has them all. -/
theorem exists_forward_or_first {c : Chain UInt8} (h : c.stream ≠ []) :
    (∃ k, c.forward k 1 ≠ c) ∨ ∃ rest, c = c.stream :: rest := by
  rcases c.exists_forward with hforward | ⟨rest, hfirst | hnil⟩
  · exact Or.inl hforward
  · exact Or.inr ⟨rest, hfirst⟩
  · exact absurd (by rw [hnil]; rfl) h

/-- A worker with a whole message in its first queue receives it. -/
theorem received_frame (codec : Codec) {data : Bytes} (hfit : data.length + 4 < 2 ^ 32) :
    ∃ x, Process.received codec (frame data) = some x := by
  have htake : lengthHeader.takeFrame (frame data) = some (data, []) := by
    have h : lengthHeader.takeFrame (frame data ++ []) = some (data, []) :=
      Header.takeFrame_frame (by simp only [lengthHeader_bound]; omega)
    rwa [List.append_nil] at h
  unfold Process.received receiveMessage
  rw [htake]
  by_cases hlen : data.length = 0
  · simp [hlen]
  · cases hparse : codec.parseRequest data with
    | none => simp [hlen, hparse]
    | some request => simp [hlen, hparse]

/-- While bytes of a response are missing, they are in the queues. -/
theorem stream_of_hungry {w : RemoteWorker} {l : Link} {data : Bytes} (htidy : w.Tidy)
    (hhungry : w.Hungry) (hin : inbound w l = frame data) (hfit : data.length + 4 < 2 ^ 32) :
    l.toController.stream ≠ [] := by
  intro hnil
  rw [inbound, hnil, List.append_nil] at hin
  refine (IncomingBuffer.needReceive_iff htidy.incoming).mp hhungry ?_
  have hwhole : w.incomingBuffer.taken ++ [] = frame data ++ [] := by rw [hin]
  refine (Header.missing_eq_zero_iff (by simp only [lengthHeader_bound]; omega) hwhole ?_).mpr hin
  rw [hin]

/-- A request that has not been handed over can be sent, handed on or received. -/
private theorem productive_requesting {s : Pair} (htidy : s.worker.Tidy)
    (hrunning : s.status = .running) (hprocess : s.link.process = .receiving) {request : Request}
    (hout : outbound s.worker s.link = frame (codec.serializeRequest request))
    (hfit : (codec.serializeRequest request).length + 4 < 2 ^ 32) :
    ∃ input t, s.Productive input ∧ step codec p s input = some t := by
  by_cases hunsent : s.worker.outgoingBuffer.unsent = []
  · have hstream : s.link.toWorker.stream = frame (codec.serializeRequest request) := by
      rw [← hout, outbound, hunsent, List.append_nil]
    have hsome : s.link.toWorker.stream ≠ [] := by
      rw [hstream]
      exact lengthHeader.frame_ne_nil _
    rcases exists_forward_or_first hsome with ⟨k, hk⟩ | ⟨rest, hrest⟩
    · exact ⟨.link (.forwardRequest k 1), _, hk, step_link hrunning rfl⟩
    · obtain ⟨⟨process, left⟩, hreceived⟩ := received_frame codec hfit
      refine ⟨.link .receive, _, trivial, step_link (l := { s.link with
        process := process, toWorker := left :: rest }) hrunning ?_⟩
      rw [hstream] at hrest
      rw [Link.step, hprocess, hrest]
      simp only [hreceived]
  · have hpos := List.length_pos_iff.mpr hunsent
    have hfit : s.worker.outgoingBuffer.admits (.ok 1) = true := by
      rw [OutgoingBuffer.length_unsent htidy.outgoing] at hpos
      simp only [OutgoingBuffer.admits, decide_eq_true_eq]
      omega
    obtain ⟨b, out, hb, -⟩ := OutgoingBuffer.send_spec htidy.outgoing hfit
    have hok : s.worker.send (.ok 1) = .ok ({ s.worker with outgoingBuffer := b }, out) := by
      rw [RemoteWorker.send, hb]
    exact ⟨.send (.ok 1), _, Nat.one_pos, step_send hrunning hfit hok⟩

/-- A response that is on its way can be handed on, or a byte of it received. -/
private theorem productive_answering {s : Pair} (htidy : s.worker.Tidy)
    (hhungry : s.worker.Hungry) (hrunning : s.status = .running) {data : Bytes}
    (hin : inbound s.worker s.link = frame data) (hfit : data.length + 4 < 2 ^ 32) :
    ∃ input t, s.Productive input ∧ step codec p s input = some t := by
  have hsome := stream_of_hungry htidy hhungry hin hfit
  rcases exists_forward_or_first hsome with ⟨k, hk⟩ | ⟨rest, hrest⟩
  · exact ⟨.link (.forwardResponse k 1), _, hk, step_link hrunning rfl⟩
  · obtain ⟨b, more, hstream⟩ := List.exists_cons_of_ne_nil hsome
    rw [hstream] at hrest
    have hadmits : s.worker.incomingBuffer.admits (.ok [b]) = true := by
      have hmissing := (IncomingBuffer.needReceive_iff htidy.incoming).mp hhungry
      simp only [IncomingBuffer.admits, IncomingBuffer.bytesLeft_eq htidy.incoming,
        List.length_singleton, decide_eq_true_eq]
      omega
    have hdeliver : s.link.deliver [b] = some { s.link with toController := more :: rest } := by
      rw [Link.deliver, if_neg (by simp), hrest]
      simp [Chain.take]
    refine ⟨.recv (.ok [b]) bareEnv.files, ?_⟩
    rw [step, if_pos hrunning]
    show ∃ t, [b] ≠ [] ∧ (if s.worker.incomingBuffer.admits (.ok [b]) = true then
      (s.link.deliver [b]).map _ else none) = some t
    rw [if_pos hadmits, hdeliver]
    exact ⟨_, by simp, rfl⟩

/-- **No deadlock.**  While a response is expected, there is a step that gets it on. -/
theorem exists_productive {s : Pair} (h : InStep codec s.worker s.link) (hhungry : s.worker.Hungry)
    (hexpects : s.worker.state.expects ≠ none) {responses : Nat}
    (hgoing : ¬ Over codec responses s) :
    ∃ input t, s.Productive input ∧ step codec p s input = some t := by
  simp only [Over, not_or, not_exists, not_not] at hgoing
  obtain ⟨-, hrunning, halive, -⟩ := hgoing
  cases h.phase with
  | quiet hnone => exact absurd hnone hexpects
  | lost _ _ hreturned =>
      obtain ⟨code, hcode⟩ := hreturned
      exact absurd hcode (halive code)
  | requesting request _ hout _ hwaiting hfit =>
      have hreceiving : s.link.process = .receiving := by
        cases hprocess : s.link.process with
        | receiving => rfl
        | returned code => exact absurd hprocess (halive code)
        | handling request => simp [hprocess, Process.waiting] at hwaiting
        | sending response => simp [hprocess, Process.waiting] at hwaiting
      exact productive_requesting h.tidy hrunning hreceiving hout hfit
  | handling request _ _ _ hprocess =>
      refine ⟨.link (.handle bareEnv), _, trivial, step_link (l := { s.link with
        process := .sending (Worker.handle bareEnv request)
        execution := (execution? bareEnv request).or s.link.execution }) hrunning ?_⟩
      rw [Link.step, hprocess]
  | responding response _ _ _ hprocess =>
      refine ⟨.link .send, _, trivial, step_link (l := { s.link with
        process := .receiving
        toController := s.link.toController.put (sendMessage (codec.serializeResponse response)) })
        hrunning ?_⟩
      rw [Link.step, hprocess]
  | answering response _ _ hin _ hfit =>
      exact productive_answering h.tidy hhungry hrunning hin hfit

/-! ### Nearer to the end

The stages of an exchange come in an order and none comes back.  Within a stage the bytes of
one message are under way, and each of them has a number of queues to go through that every
productive step makes smaller.
-/

/-- How many parts of an exchange are still to come. -/
def stage (w : RemoteWorker) (l : Link) : Nat :=
  match l.process with
  | .handling _ => 2
  | .sending _ => 1
  | _ => if outbound w l = [] then 0 else 3

/-- How far the bytes under way have to go, all in all. -/
def distance (w : RemoteWorker) (l : Link) : Nat :=
  w.outgoingBuffer.unsent.length * (l.toWorker.queues + 1) + l.toWorker.distance +
    l.toController.distance

/-- The one, and then the other. -/
def rank (s : Pair) : Nat ×ₗ Nat :=
  toLex (stage s.worker s.link, distance s.worker s.link)

theorem rank_of_stage {s t : Pair} (h : stage t.worker t.link < stage s.worker s.link) :
    t.rank < s.rank :=
  Prod.Lex.toLex_lt_toLex.mpr (Or.inl h)

theorem rank_of_distance {s t : Pair} (hstage : stage t.worker t.link = stage s.worker s.link)
    (h : distance t.worker t.link < distance s.worker s.link) : t.rank < s.rank :=
  Prod.Lex.toLex_lt_toLex.mpr (Or.inr ⟨hstage, h⟩)

theorem stage_eq {w w' : RemoteWorker} {l l' : Link} (hprocess : l'.process = l.process)
    (hout : outbound w' l' = outbound w l) : stage w' l' = stage w l := by
  rw [stage, stage, hprocess, hout]

/-- Bytes that are sent are nearer in the last queue than in the buffer. -/
theorem distance_send {w w' : RemoteWorker} {l : Link} {n : Nat} {out : Bytes} (htidy : w.Tidy)
    (hfit : w.outgoingBuffer.admits (.ok n) = true) (hpos : 0 < n)
    (hok : w.send (.ok n) = .ok (w', out)) : distance w' (l.post out) < distance w l := by
  obtain ⟨b, hb, rfl⟩ := RemoteWorker.send_eq_ok hok
  obtain ⟨b', out', hb', -, hunsent, -, hlen⟩ := OutgoingBuffer.send_spec htidy.outgoing hfit
  rw [hb, Except.ok.injEq, Prod.mk.injEq] at hb'
  obtain ⟨rfl, rfl⟩ := hb'
  have hneed : w.outgoingBuffer.needSend = true := by
    have hle : n ≤ w.outgoingBuffer.size - w.outgoingBuffer.sent := by
      simpa [OutgoingBuffer.admits] using hfit
    simp only [OutgoingBuffer.needSend, decide_eq_true_eq]
    omega
  have hout := hlen hneed
  simp only [distance, Link.post, Chain.distance_put, Chain.queues_put, hunsent,
    List.length_append, Nat.add_mul, Nat.mul_add, Nat.mul_one]
  rw [Nat.mul_comm l.toWorker.queues out.length]
  omega

theorem distance_deliver {l l' : Link} {data : Bytes} (hne : data ≠ [])
    (h : l.deliver data = some l') :
    l'.toController.distance < l.toController.distance := by
  rw [Link.deliver, if_neg hne] at h
  obtain ⟨c, hc, rfl⟩ := Option.map_eq_some_iff.mp h
  exact Chain.distance_take hc hne

/-- The worker takes the request out of its first queue, or it is the end of the worker. -/
private theorem receive_nearer {s : Pair} {l : Link}
    (hl : s.link.step codec .receive = some l) :
    (∃ code, l.process = .returned code) ∨ ({ s with link := l } : Pair).rank < s.rank := by
  rw [Link.step] at hl
  split at hl
  · rename_i q rest hprocess hqueue
    split at hl
    · rename_i process left hreceived
      rw [Option.some.injEq] at hl
      subst hl
      obtain ⟨data, htake, hreturned | ⟨-, hreturned⟩ | ⟨request, -, hhandling⟩⟩ :=
        Process.received_cases hreceived
      · exact Or.inl ⟨_, hreturned⟩
      · exact Or.inl ⟨_, hreturned⟩
      · refine Or.inr (rank_of_stage ?_)
        have hsome : outbound s.worker s.link ≠ [] := by
          intro hnil
          obtain ⟨hstream, -⟩ := List.append_eq_nil_iff.mp hnil
          rw [hqueue, Chain.stream, List.flatten_cons, List.append_eq_nil_iff] at hstream
          rw [hstream.1, Header.takeFrame_nil] at htake
          exact absurd htake (by simp)
        have hbefore : stage s.worker s.link = 3 := by
          simp only [stage, hprocess, if_neg hsome]
        rw [hbefore]
        simp [stage, hhandling]
    · exact absurd hl (by simp)
  · exact absurd hl (by simp)

/-- When a response is put into a queue, the request has been taken out of its own. -/
private theorem send_nearer {s : Pair} {l : Link} (h : InStep codec s.worker s.link)
    (hl : s.link.step codec .send = some l) : ({ s with link := l } : Pair).rank < s.rank := by
  rw [Link.step] at hl
  split at hl
  · rename_i response hprocess
    rw [Option.some.injEq] at hl
    subst hl
    refine rank_of_stage ?_
    have hbefore : stage s.worker s.link = 1 := by simp only [stage, hprocess]
    have hout : outbound s.worker s.link = [] := by
      cases h.phase with
      | quiet _ hout => exact hout
      | requesting _ _ _ _ hwaiting => simp [hprocess, Process.waiting] at hwaiting
      | handling _ _ hout => exact hout
      | responding _ _ hout => exact hout
      | answering _ _ hout => exact hout
      | lost _ _ hreturned =>
          obtain ⟨code, hcode⟩ := hreturned
          exact absurd (hprocess.symm.trans hcode) (by simp)
    rw [hbefore]
    show (if outbound s.worker s.link = [] then 0 else 3) < 1
    rw [if_pos hout]
    exact Nat.one_pos
  · exact absurd hl (by simp)

/-- **A step of the other end that gets an exchange on brings it nearer to its end.** -/
theorem link_nearer {s : Pair} {input : Link.Input} {l : Link} (h : InStep codec s.worker s.link)
    (hproductive : s.Productive (.link input)) (hl : s.link.step codec input = some l) :
    (∃ code, l.process = .returned code) ∨ ({ s with link := l } : Pair).rank < s.rank := by
  cases input with
  | forwardRequest k n =>
      rw [Link.step, Option.some.injEq] at hl
      subst hl
      refine Or.inr (rank_of_distance (stage_eq rfl (by simp [outbound])) ?_)
      have hlower := Chain.distance_forward hproductive
      simp only [distance, Chain.queues_forward]
      omega
  | forwardResponse k n =>
      rw [Link.step, Option.some.injEq] at hl
      subst hl
      refine Or.inr (rank_of_distance (stage_eq rfl rfl) ?_)
      have hlower := Chain.distance_forward hproductive
      simp only [distance]
      omega
  | receive => exact receive_nearer hl
  | handle env =>
      rw [Link.step] at hl
      split at hl
      · rename_i request hprocess
        rw [Option.some.injEq] at hl
        subst hl
        refine Or.inr (rank_of_stage ?_)
        simp [stage, hprocess]
      · exact absurd hl (by simp)
  | send => exact Or.inr (send_nearer h hl)
  | fail code => exact absurd hproductive id

/-- What is true of a pair while a response is awaited. -/
structure Awaiting (codec : Codec) (responses : Nat) (s : Pair) : Prop where
  inStep : InStep codec s.worker s.link
  hungry : s.worker.Hungry
  expects : s.worker.state.expects ≠ none
  heard : s.worker.responses.length = responses

/-- **No livelock.**  A step that gets an exchange on ends it or brings it nearer to its end. -/
theorem Awaiting.step {s t : Pair} {input : Input} {responses : Nat} (hsound : codec.Sound)
    (h : Awaiting codec responses s) (hproductive : s.Productive input)
    (hstep : Pair.step codec p s input = some t) :
    Over codec responses t ∨ (Awaiting codec responses t ∧ t.rank < s.rank) := by
  by_cases hfits : messagesFit codec t.worker t.link = true
  case neg => exact Or.inl (Or.inr (Or.inr (Or.inr (by simpa using hfits))))
  have hmove := (move_of_step hstep).2
  have hhungry := hungry_of_move h.inStep h.hungry hmove
  cases hmove with
  | started => exact absurd hproductive id
  | given => exact absurd hproductive id
  | stopped hstatus => exact Or.inl (Or.inr (Or.inl hstatus))
  | @received data files l w hfit hdeliver hok =>
      have hin := h.inStep.receive hfit hdeliver hok hfits
      obtain ⟨-, hto, hprocess, -⟩ := InStep.deliver_spec hdeliver
      obtain ⟨b, hb, ⟨-, rfl⟩ | ⟨hdone, hdispatch⟩⟩ := RemoteWorker.receive_eq_ok hok
      · refine Or.inr ⟨⟨hin, hhungry, h.expects, h.heard⟩, rank_of_distance ?_ ?_⟩
        · exact stage_eq hprocess (by rw [outbound, outbound, hto])
        · have hlower := distance_deliver hproductive hdeliver
          simp only [distance, hto]
          omega
      · obtain ⟨r, -, hspoken⟩ := RemoteWorker.dispatch_heard hdispatch h.expects
        refine Or.inl (Or.inl ?_)
        have hheard : w.responses = s.worker.responses ++ [r] := by
          cases hspoken with
          | silent _ _ hheard => exact hheard
          | asking _ _ _ hheard => exact hheard
        rw [hheard, List.length_append, h.heard]
        exact Nat.lt_succ_self _
  | @sent r w out hfit hok =>
      have hin := h.inStep.send hfit hok
      cases r with
      | error e => exact absurd hproductive id
      | ok n =>
          have hlower := distance_send (l := s.link) h.inStep.tidy hfit hproductive hok
          obtain ⟨b, hb, rfl⟩ := RemoteWorker.send_eq_ok hok
          refine Or.inr ⟨⟨hin, hhungry, h.expects, h.heard⟩, rank_of_distance ?_ hlower⟩
          refine stage_eq rfl ?_
          rw [outbound, outbound, (OutgoingBuffer.send_eq_ok h.inStep.tidy.outgoing hfit hb).2]
          simp [Link.post]
  | link hl =>
      have hin := h.inStep.link hsound hl hfits
      rcases link_nearer h.inStep hproductive hl with hreturned | hlower
      · exact Or.inl (Or.inr (Or.inr (Or.inl hreturned)))
      · exact Or.inr ⟨⟨hin, hhungry, h.expects, h.heard⟩, hlower⟩

/-- While a response is expected, the end of the exchange is bound to come. -/
theorem inevitably_over (hsound : codec.Sound) {addr : Nat} {fd : Int} {hops : Nat} {s : Pair}
    (h : (machine codec p addr fd hops).Reach (Fits codec p) s)
    (hexpects : s.worker.state.expects ≠ none) :
    (machine codec p addr fd hops).Inevitably Productive (Over codec s.worker.responses.length)
      s := by
  obtain ⟨hinv, hhungry⟩ := reach_hungry hsound h
  refine Machine.Inevitably.of_rank rank (Q := Awaiting codec s.worker.responses.length) ?_ ?_
    ⟨hinv.inStep, hhungry, hexpects, rfl⟩
  · intro t ht hgoing
    exact exists_productive ht.inStep ht.hungry ht.expects hgoing
  · intro t input u ht _ hproductive hstep
    exact ht.step hsound hproductive hstep

end Pair

/--
**A request that was made is answered.**  From every state in which a response is
expected, whichever of the steps that get the exchange on are taken, in whichever order
and however the bytes are cut up: they do not come to an end, and do not go on for ever,
without having passed a state in which the response has been decoded, one of the two ends
has stopped or a message is too large.
-/
theorem every_request_is_answered (codec : Codec) (hsound : codec.Sound) (p : Parameters)
    (addr : Nat) (fd : Int) (hops : Nat) (s : Pair)
    (h : (Pair.machine codec p addr fd hops).Reach (Pair.Fits codec p) s)
    (hexpects : s.worker.state.expects ≠ none) :
    (∀ t, (Pair.machine codec p addr fd hops).Run Pair.Productive s t →
      (∀ input u, t.Productive input → Pair.step codec p t input ≠ some u) →
      ∃ u, (Pair.machine codec p addr fd hops).Run Pair.Productive s u ∧
        (Pair.machine codec p addr fd hops).Run Pair.Productive u t ∧
        u.Over codec s.worker.responses.length) ∧
    ∀ run : Nat → Pair, run 0 = s →
      (∀ n, ∃ input, (run n).Productive input ∧
        Pair.step codec p (run n) input = some (run (n + 1))) →
      ∃ n, (run n).Over codec s.worker.responses.length := by
  have hinevitable := Pair.inevitably_over hsound h hexpects
  exact ⟨fun t hrun hstuck => hinevitable.of_stuck hrun hstuck,
    fun run hstart hrun => hinevitable.of_forever run hstart hrun⟩

/-! A request in the buffer, on its way through a proxy. -/

namespace Pair

/-- A worker that has been started, and nothing has been sent. -/
def justStarted : Pair :=
  ((machine drpCodec oneProgram 0 4 1).exec (Fits drpCodec oneProgram)
    ⟨RemoteWorker.make 0 4, Link.make 1, .running⟩ [.start bareEnv.files]).getD
    ⟨RemoteWorker.make 0 4, Link.make 1, .running⟩

end Pair

theorem every_request_is_answered_justStarted :
    (∀ t, (Pair.machine drpCodec Pair.oneProgram 0 4 1).Run Pair.Productive Pair.justStarted t →
      (∀ input u, t.Productive input → Pair.step drpCodec Pair.oneProgram t input ≠ some u) →
      ∃ u, (Pair.machine drpCodec Pair.oneProgram 0 4 1).Run Pair.Productive Pair.justStarted u ∧
        (Pair.machine drpCodec Pair.oneProgram 0 4 1).Run Pair.Productive u t ∧
        u.Over drpCodec Pair.justStarted.worker.responses.length) ∧
    ∀ run : Nat → Pair, run 0 = Pair.justStarted →
      (∀ n, ∃ input, (run n).Productive input ∧
        Pair.step drpCodec Pair.oneProgram (run n) input = some (run (n + 1))) →
      ∃ n, (run n).Over drpCodec Pair.justStarted.worker.responses.length :=
  every_request_is_answered drpCodec drpCodec_sound Pair.oneProgram 0 4 1 Pair.justStarted
    (Machine.Run.of_replay (m := Pair.machine drpCodec Pair.oneProgram 0 4 1) (by decide +kernel))
    (by decide +kernel)

end Distray
