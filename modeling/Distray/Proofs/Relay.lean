/-
The proxy passes on what it receives.

For each direction of a connection, what was received on one side is what was sent on
the other followed by what is in the buffer: receiving appends to the left and to the
buffer, sending moves bytes from the buffer to the other side, and a side that is not
there has received and sent nothing.  Nothing that happens elsewhere in the table has
any part in it, because no descriptor is in two connections.

A connection that survives keeps its descriptors, so whom it passes bytes on to never
changes.
-/
import Distray.Proofs.Pass

namespace Distray

open Octets

namespace Proxy

/-! ### What has passed through a descriptor -/

/-- Every byte received from a descriptor since it was opened. -/
def received (sockets : Int → Option Socket) (fd : Int) : Bytes :=
  match sockets fd with
  | some x => x.rx
  | none => []

/-- Every byte sent to it. -/
def sent (sockets : Int → Option Socket) (fd : Int) : Bytes :=
  match sockets fd with
  | some x => x.tx
  | none => []

variable {sockets : Int → Option Socket}

theorem received_none {fd : Int} (h : sockets fd = none) : received sockets fd = [] := by
  simp [received, h]

theorem sent_none {fd : Int} (h : sockets fd = none) : sent sockets fd = [] := by
  simp [sent, h]

/-- Nothing has passed through a descriptor that was just opened. -/
theorem received_opened {fd : Int} (h : sockets fd = none) (x : Int) :
    received (opened sockets fd) x = received sockets x := by
  unfold opened
  split
  · rfl
  · by_cases hx : x = fd
    · subst hx
      simp [received, h]
    · simp [received, Function.update_of_ne hx]

theorem sent_opened {fd : Int} (h : sockets fd = none) (x : Int) :
    sent (opened sockets fd) x = sent sockets x := by
  unfold opened
  split
  · rfl
  · by_cases hx : x = fd
    · subst hx
      simp [sent, h]
    · simp [sent, Function.update_of_ne hx]

theorem received_passed {fd : Int} (h : (sockets fd).isSome = true) (rx tx : Bytes) (x : Int) :
    received (passed sockets fd rx tx) x
      = received sockets x ++ if x = fd then rx else [] := by
  obtain ⟨y, hy⟩ := Option.isSome_iff_exists.mp h
  by_cases hx : x = fd
  · subst hx
    simp [received, passed, hy]
  · simp [received, passed, hx]

theorem sent_passed {fd : Int} (h : (sockets fd).isSome = true) (rx tx : Bytes) (x : Int) :
    sent (passed sockets fd rx tx) x = sent sockets x ++ if x = fd then tx else [] := by
  obtain ⟨y, hy⟩ := Option.isSome_iff_exists.mp h
  by_cases hx : x = fd
  · subst hx
    simp [sent, passed, hy]
  · simp [sent, passed, hx]

theorem closed_of_ne {fd x : Int} (h : x = fd → x = -1) : closed sockets fd x = sockets x := by
  unfold closed
  split
  · rfl
  · rename_i hfd
    exact Function.update_of_ne (fun heq => hfd (heq.symm.trans (h heq))) _ _

/-! ### One connection -/

namespace Connection

/-- In each direction, what came in has gone out or is in the buffer. -/
def Faithful (sockets : Int → Option Socket) (c : Connection) : Prop :=
  ∀ side, received sockets (c.fd side) = sent sockets (c.fd side.other) ++ c.buffer side

/-- **Receiving keeps both directions.** -/
theorem Faithful.receive {c c' : Connection} {tmp tmp' : Bytes} {fd : Int}
    {r : Except Errno Bytes} (h : c.Faithful sockets) (hsome : (sockets fd).isSome = true)
    (hother : ∀ side, c.fd side = fd → c.fd side.other ≠ fd)
    (hok : c.receive tmp fd r = .ok (.ok (c', tmp'))) :
    c'.Faithful (passed sockets fd (r.toOption.getD []) []) := by
  obtain ⟨hsame, σ, hσ, hbuffer, hrest⟩ := receive_spec hok
  intro side
  rw [hsame.fd, hsame.fd, received_passed hsome, sent_passed hsome]
  by_cases hside : side = σ
  · rw [hside, if_pos hσ, hbuffer, h σ]
    simp
  · rw [Side.eq_other_of_ne hside, if_neg (hother σ hσ), hrest, h σ.other]
    simp

/-- **So does sending.** -/
theorem Faithful.send {c c' : Connection} {fd : Int} {r : Except Errno Nat} {out : Bytes}
    (h : c.Faithful sockets) (hsome : (sockets fd).isSome = true)
    (hother : ∀ side, c.fd side = fd → c.fd side.other ≠ fd)
    (hok : c.send fd r = .ok (.ok (c', out))) : c'.Faithful (passed sockets fd [] out) := by
  obtain ⟨hsame, σ, hσ, hbuffer, hrest⟩ := send_spec hok
  have hback : σ.other.other = σ := by cases σ <;> rfl
  intro side
  rw [hsame.fd, hsame.fd, received_passed hsome, sent_passed hsome]
  by_cases hside : side = σ
  · rw [hside, if_neg (hother σ hσ), hrest, h σ]
    simp
  · rw [Side.eq_other_of_ne hside, hback, if_pos hσ, h σ.other, hback, hbuffer]
    simp

end Connection

/-! ### Descriptors are never mixed up

That a descriptor has its bytes from one connection alone is a matter of the table: the
descriptors in it are all different, and one that is opened is none of them.
-/

theorem Connection.fd_mem {c : Connection} {side : Side} (h : c.fd side ≠ -1) :
    c.fd side ∈ c.place.tokens := by
  refine Connection.mem_tokens.mpr ⟨?_, h⟩
  cases side with
  | left => exact Or.inl rfl
  | right => exact Or.inr rfl

/-- The two sides of a connection have different descriptors. -/
theorem Table.fd_other {s : Proxy} (h : Table s) {c : Connection} (hc : c ∈ s.connections)
    {fd : Int} (hfd : fd ∈ c.place.tokens) (side : Side) (hside : c.fd side = fd) :
    c.fd side.other ≠ fd := by
  intro hother
  obtain ⟨k, hk⟩ := List.mem_iff_getElem?.mp hc
  have hplace : s.places[k]? = some c.place := by simp [places, hk]
  have hnodup := (Pairing.tokens_eraseIdx hplace).nodup_iff.mp h.valid.nodup
  have hne := (Connection.mem_tokens.mp hfd).2
  -- it would be twice in its place
  have hsame : c.workerFd = fd ∧ c.controllerFd = fd := by
    cases side with
    | left => exact ⟨hside, hother⟩
    | right => exact ⟨hother, hside⟩
  have htwice : c.place.tokens = [fd, fd] := by
    simp [Connection.place, Place.tokens, Connection.present, hsame, hne]
  have hown := (List.nodup_append.mp hnodup).1
  rw [htwice] at hown
  simp at hown

/-- A descriptor of one connection is not one of another. -/
theorem Table.fd_elsewhere {s : Proxy} (h : Table s) {i j : Nat} {c x : Connection}
    (hc : s.connections[i]? = some c) (hx : s.connections[j]? = some x) (hij : i ≠ j) {fd : Int}
    (hfd : fd ∈ c.place.tokens) (side : Side) : x.fd side ≠ fd := by
  intro heq
  have hne : x.fd side ≠ -1 := heq ▸ (Connection.mem_tokens.mp hfd).2
  exact hij (Pairing.unique h.valid.nodup (by simp [places, hc]) (by simp [places, hx]) hfd
    (heq ▸ Connection.fd_mem hne))

theorem Table.seen_nothing {s : Proxy} (h : Table s) {fd : Int}
    (hfd : fd = -1 ∨ s.sockets fd = none) :
    received s.sockets fd = [] ∧ sent s.sockets fd = [] := by
  have hnone : s.sockets fd = none := by
    rcases hfd with rfl | hfd
    · exact h.loose.sockets_neg
    · exact hfd
  exact ⟨received_none hnone, sent_none hnone⟩

/-! ### What becomes of a connection

A connection that is still there later is at the same address and has the descriptors it
had, perhaps one more.  The relation goes on from step to step, and says of a connection that
passed on faithfully that it still does.
-/

/--
A connection later on.  It is at the same address and has the descriptors it had; what
has passed through them was continued, and passed on faithfully if it was before.
-/
structure Continues (sockets sockets' : Int → Option Socket) (c c' : Connection) : Prop where
  addr : c'.addr = c.addr
  fds : ∀ side, c.fd side ≠ -1 → c'.fd side = c.fd side
  received : ∀ side, received sockets (c.fd side) <+: received sockets' (c'.fd side)
  sent : ∀ side, sent sockets (c.fd side) <+: sent sockets' (c'.fd side)
  faithful : c.Faithful sockets → c'.Faithful sockets'

theorem Continues.refl (sockets : Int → Option Socket) (c : Connection) :
    Continues sockets sockets c c :=
  ⟨rfl, fun _ _ => rfl, fun _ => List.prefix_rfl, fun _ => List.prefix_rfl, id⟩

theorem Continues.trans {sockets sockets' sockets'' : Int → Option Socket}
    {c c' c'' : Connection} (h : Continues sockets sockets' c c')
    (h' : Continues sockets' sockets'' c' c'') : Continues sockets sockets'' c c'' where
  addr := h'.addr.trans h.addr
  fds side hne := by
    have hfd := h.fds side hne
    rw [h'.fds side (hfd.symm ▸ hne), hfd]
  received side := (h.received side).trans (h'.received side)
  sent side := (h.sent side).trans (h'.sent side)
  faithful := h'.faithful ∘ h.faithful

/-- Nothing has passed through its descriptors, and its buffers are as they were. -/
theorem Continues.of_eq {sockets sockets' : Int → Option Socket} {c c' : Connection}
    (haddr : c'.addr = c.addr) (hfds : ∀ side, c.fd side ≠ -1 → c'.fd side = c.fd side)
    (hrx : ∀ side, Proxy.received sockets' (c'.fd side) = Proxy.received sockets (c.fd side))
    (htx : ∀ side, Proxy.sent sockets' (c'.fd side) = Proxy.sent sockets (c.fd side))
    (hbuffer : ∀ side, c'.buffer side = c.buffer side) : Continues sockets sockets' c c' := by
  refine ⟨haddr, hfds, ?_, ?_, ?_⟩
  · intro side
    exact (hrx side).symm ▸ List.prefix_rfl
  · intro side
    exact (htx side).symm ▸ List.prefix_rfl
  · intro h side
    rw [hrx, htx, hbuffer]
    exact h side

/-- Bytes have passed through one of its descriptors. -/
theorem Continues.passed {sockets : Int → Option Socket} {fd : Int}
    (hsome : (sockets fd).isSome = true) {c c' : Connection} (hsame : SameEnds c c')
    (rx tx : Bytes)
    (hfaithful : c.Faithful sockets → c'.Faithful (Proxy.passed sockets fd rx tx)) :
    Continues sockets (Proxy.passed sockets fd rx tx) c c' := by
  refine ⟨hsame.addr, fun side _ => hsame.fd side, ?_, ?_, hfaithful⟩
  · intro side
    rw [hsame.fd, received_passed hsome]
    exact List.prefix_append _ _
  · intro side
    rw [hsame.fd, sent_passed hsome]
    exact List.prefix_append _ _

/--
How the table goes on.  Whatever is in it later was in it before, or was made in the
meantime and has been faithful since.
-/
structure Later (s t : Proxy) : Prop where
  nextAddr : s.nextAddr ≤ t.nextAddr
  connections : ∀ c' ∈ t.connections,
    (∃ c ∈ s.connections, Continues s.sockets t.sockets c c') ∨
      s.nextAddr ≤ c'.addr ∧ c'.Faithful t.sockets

theorem Later.refl (s : Proxy) : Later s s :=
  ⟨Nat.le_refl _, fun c hc => Or.inl ⟨c, hc, Continues.refl _ _⟩⟩

theorem Later.trans {s t u : Proxy} (h : Later s t) (h' : Later t u) : Later s u := by
  refine ⟨h.nextAddr.trans h'.nextAddr, ?_⟩
  intro c'' hc''
  rcases h'.connections c'' hc'' with ⟨c', hc', hcont'⟩ | ⟨haddr, hfaithful⟩
  · rcases h.connections c' hc' with ⟨c, hc, hcont⟩ | ⟨haddr, hfaithful⟩
    · exact Or.inl ⟨c, hc, hcont.trans hcont'⟩
    · exact Or.inr ⟨hcont'.addr ▸ haddr, hcont'.faithful hfaithful⟩
  · exact Or.inr ⟨h.nextAddr.trans haddr, hfaithful⟩

theorem Later.of_same {s t : Proxy} (hnext : t.nextAddr = s.nextAddr)
    (hsockets : t.sockets = s.sockets) (hconnections : t.connections = s.connections) :
    Later s t := by
  refine ⟨hnext.ge, fun c hc => Or.inl ⟨c, hconnections ▸ hc, ?_⟩⟩
  rw [hsockets]
  exact Continues.refl _ _

/-! ### What a step does -/

/-- Opening a descriptor that was not open is not seen by anyone. -/
theorem Continues.opened {sockets : Int → Option Socket} {fd : Int} (hnone : sockets fd = none)
    (c : Connection) : Continues sockets (Proxy.opened sockets fd) c c := by
  refine .of_eq rfl (fun _ _ => rfl) ?_ ?_ (fun _ => rfl)
  · intro σ
    exact received_opened hnone _
  · intro σ
    exact sent_opened hnone _

/-- Neither what a connection lacked nor what it has now has seen anything. -/
theorem Continues.joined {s : Proxy} (h : Table s) {fd : Int} (hnone : s.sockets fd = none)
    {c : Connection} {side : Side} (hlacks : c.fd side = -1) :
    Continues s.sockets (Proxy.opened s.sockets fd) c (c.setFd fd side) := by
  obtain ⟨hrx, htx⟩ := h.seen_nothing (Or.inr hnone)
  obtain ⟨hrx', htx'⟩ :
      Proxy.received s.sockets (-1) = [] ∧ Proxy.sent s.sockets (-1) = [] :=
    h.seen_nothing (Or.inl rfl)
  refine .of_eq (c.addr_setFd fd side) ?_ ?_ ?_ (c.buffer_setFd fd side)
  · intro σ hne
    exact c.fd_setFd_ne fd fun hσ => hne (hσ ▸ hlacks)
  · intro σ
    rw [received_opened hnone]
    by_cases hσ : σ = side
    · rw [hσ, c.fd_setFd, hlacks, hrx, hrx']
    · rw [c.fd_setFd_ne fd hσ]
  · intro σ
    rw [sent_opened hnone]
    by_cases hσ : σ = side
    · rw [hσ, c.fd_setFd, hlacks, htx, htx']
    · rw [c.fd_setFd_ne fd hσ]

theorem Table.faithful_make {s : Proxy} (h : Table s) {fd : Int} (hnone : s.sockets fd = none)
    (addr : Nat) (side : Side) :
    ((Connection.make addr).setFd fd side).Faithful (Proxy.opened s.sockets fd) := by
  have hnothing : ∀ σ, ((Connection.make addr).setFd fd side).fd σ = -1 ∨
      s.sockets (((Connection.make addr).setFd fd side).fd σ) = none := by
    intro σ
    by_cases hσ : σ = side
    · rw [hσ, Connection.fd_setFd]
      exact Or.inr hnone
    · rw [Connection.fd_setFd_ne _ _ hσ]
      cases σ <;> exact Or.inl rfl
  intro σ
  rw [received_opened hnone, sent_opened hnone, (h.seen_nothing (hnothing σ)).1,
    (h.seen_nothing (hnothing σ.other)).2, Connection.buffer_setFd]
  cases σ <;> rfl

theorem Later.accepted {s t : Proxy} (h : Table s) {i : Nat} {fd : Int}
    (hnone : s.sockets fd = none) (hacc : Accepted i fd s t) : Later s t := by
  cases hacc with
  | @joined k c hk hc hlacks =>
      refine ⟨Nat.le_refl _, ?_⟩
      intro c' hc'
      refine Or.inl ?_
      simp only [Parts.modify_eq_set hc] at hc'
      rcases List.mem_or_eq_of_mem_set hc' with hc' | rfl
      · exact ⟨c', hc', .opened hnone c'⟩
      · exact ⟨c, List.mem_of_getElem? hc, .joined h hnone hlacks⟩
  | waits hvacancy =>
      refine ⟨Nat.le_succ _, ?_⟩
      intro c' hc'
      rcases List.mem_append.mp hc' with hc' | hc'
      · exact Or.inl ⟨c', hc', .opened hnone c'⟩
      · rw [List.mem_singleton] at hc'
        rw [hc']
        refine Or.inr ⟨?_, h.faithful_make hnone s.nextAddr (side i)⟩
        rw [Connection.addr_setFd]
        exact Nat.le_refl _

theorem Later.without {s : Proxy} (h : Table s) {k : Nat} {c : Connection}
    (hc : s.connections[k]? = some c) (next : Pc) : Later s (s.without k c next) := by
  refine ⟨Nat.le_refl _, fun x hx => Or.inl ?_⟩
  obtain ⟨j, hjk, hj⟩ := List.mem_eraseIdx_iff_getElem?.mp hx
  have hends : ∀ {fd : Int} {σ : Side}, fd = c.workerFd ∨ fd = c.controllerFd →
      x.fd σ = fd → x.fd σ = -1 := by
    intro fd σ hown heq
    by_contra hne
    exact h.fd_elsewhere hc hj (Ne.symm hjk)
      (Connection.mem_tokens.mpr ⟨hown, heq ▸ hne⟩) σ heq
  have hsame : ∀ σ, closed (closed s.sockets c.workerFd) c.controllerFd (x.fd σ)
      = s.sockets (x.fd σ) := by
    intro σ
    rw [closed_of_ne (hends (Or.inr rfl)), closed_of_ne (hends (Or.inl rfl))]
  refine ⟨x, List.mem_of_getElem? hj, .of_eq rfl (fun _ _ => rfl) ?_ ?_
    (fun _ => rfl)⟩
  · intro σ
    simp only [received, Proxy.without, hsame]
  · intro σ
    simp only [sent, Proxy.without, hsame]

/-- Bytes that pass through one connection do not touch the others. -/
theorem Later.passed {s : Proxy} (h : Table s) {k : Nat} {c c' : Connection}
    (hc : s.connections[k]? = some c) (hsame : SameEnds c c') {fd : Int}
    (hfd : fd ∈ c.place.tokens) (rx tx tmp : Bytes) (next : Pc)
    (hfaithful : c.Faithful s.sockets → c'.Faithful (Proxy.passed s.sockets fd rx tx)) :
    Later s { s with
      connections := s.connections.set k c', tmpBuffer := tmp
      sockets := Proxy.passed s.sockets fd rx tx, pc := next } := by
  have hsome := (h.sockets fd).mpr (mem_tokens_places (List.mem_of_getElem? hc) hfd)
  refine ⟨Nat.le_refl _, fun x hx => Or.inl ?_⟩
  obtain ⟨j, hj⟩ := List.mem_iff_getElem?.mp hx
  by_cases hkj : k = j
  · subst hkj
    obtain rfl : c' = x := by
      simpa [(List.getElem?_eq_some_iff.mp hc).1] using hj
    exact ⟨c, List.mem_of_getElem? hc, .passed hsome hsame rx tx hfaithful⟩
  · obtain hx' : s.connections[j]? = some x := by simpa [hkj] using hj
    have helse := h.fd_elsewhere hc hx' hkj hfd
    refine ⟨x, List.mem_of_getElem? hx', .of_eq rfl (fun _ _ => rfl) ?_ ?_ (fun _ => rfl)⟩
    · intro σ
      rw [received_passed hsome, if_neg (helse σ), List.append_nil]
    · intro σ
      rw [sent_passed hsome, if_neg (helse σ), List.append_nil]

/-- **Every step carries every connection on.** -/
theorem Later.of_move {s t : Proxy} {input : Input} (h : Inv s) (hfresh : s.FreshAccept input)
    (hmove : Move s input t) : Later s t := by
  cases (h.steady.move hfresh.may hmove).1 with
  | nothing hconnections hsockets hnext => exact .of_same hnext hsockets hconnections
  | accepted _ hacc =>
      simp only [FreshAccept, freshAccept, Bool.and_eq_true, Option.isNone_iff_eq_none] at hfresh
      exact .accepted h.table hfresh.2 hacc
  | closed hc => exact .without h.table hc _
  | received hc hmem hok =>
      have hmemc := List.mem_of_getElem? hc
      have hsome := (h.table.sockets _).mpr (mem_tokens_places hmemc hmem)
      refine .passed h.table hc (Connection.receive_spec hok).1 hmem _ _ _ _ ?_
      intro hf
      exact hf.receive hsome (h.table.fd_other hmemc hmem) hok
  | sent hc hmem hok =>
      have hmemc := List.mem_of_getElem? hc
      have hsome := (h.table.sockets _).mpr (mem_tokens_places hmemc hmem)
      refine .passed h.table hc (Connection.send_spec hok).1 hmem _ _ _ _ ?_
      intro hf
      exact hf.send hsome (h.table.fd_other hmemc hmem) hok

/-! ### Runs -/

/-- **So does every run.** -/
theorem Later.of_run {workerServerFd controllerServerFd : Int} {s t : Proxy} (h : Inv s)
    (hrun : (machine workerServerFd controllerServerFd).Run FreshAccept s t) :
    Inv t ∧ Later s t := by
  induction hrun with
  | refl => exact ⟨h, .refl _⟩
  | step _ hfresh hstep ih =>
      obtain ⟨hinv, hlater⟩ := ih
      have hmove := move_of_step hstep
      exact ⟨hinv.move hfresh.harmless hmove, hlater.trans (.of_move hinv hfresh hmove)⟩

theorem reach_faithful {workerServerFd controllerServerFd : Int} {s : Proxy}
    (h : (machine workerServerFd controllerServerFd).Reach FreshAccept s) :
    ∀ c ∈ s.connections, c.Faithful s.sockets := by
  intro c hc
  obtain ⟨-, hlater⟩ := Later.of_run ⟨Table.start _ _, Pass.start _ _⟩ h
  rcases hlater.connections c hc with ⟨x, hx, -⟩ | ⟨-, hfaithful⟩
  · exact absurd hx List.not_mem_nil
  · exact hfaithful

theorem Table.eq_of_addr {s : Proxy} (h : Table s) {c x : Connection} (hc : c ∈ s.connections)
    (hx : x ∈ s.connections) (haddr : c.addr = x.addr) : c = x := by
  obtain ⟨i, hi⟩ := List.mem_iff_getElem?.mp hc
  obtain ⟨j, hj⟩ := List.mem_iff_getElem?.mp hx
  have hfirst := h.loose.findIdx?_addr hi
  rw [haddr, h.loose.findIdx?_addr hj, Option.some.injEq] at hfirst
  rw [← hfirst, hj, Option.some.injEq] at hi
  exact hi.symm

/--
**The proxy is faithful to each pair of streams.**  In every reachable state and for
every connection in the table, what was received from one side is what was sent to the
other followed by the buffer of that direction.  And while the connection is in the
table it keeps whom it has: its descriptors do not change once they are there, and what
has been received and sent on them is only ever continued.
-/
theorem streams_are_faithful (workerServerFd controllerServerFd : Int) (s t : Proxy)
    (hs : (machine workerServerFd controllerServerFd).Reach FreshAccept s)
    (ht : (machine workerServerFd controllerServerFd).Run FreshAccept s t) :
    (∀ c ∈ s.connections,
      received s.sockets c.workerFd = sent s.sockets c.controllerFd ++ c.w2c.buffer ∧
      received s.sockets c.controllerFd = sent s.sockets c.workerFd ++ c.c2w.buffer) ∧
    ∀ c ∈ s.connections, ∀ c' ∈ t.connections, c'.addr = c.addr →
      (c.workerFd ≠ -1 → c'.workerFd = c.workerFd) ∧
      (c.controllerFd ≠ -1 → c'.controllerFd = c.controllerFd) ∧
      received s.sockets c.workerFd <+: received t.sockets c'.workerFd ∧
      received s.sockets c.controllerFd <+: received t.sockets c'.controllerFd ∧
      sent s.sockets c.workerFd <+: sent t.sockets c'.workerFd ∧
      sent s.sockets c.controllerFd <+: sent t.sockets c'.controllerFd := by
  have hinv := reach_inv hs
  refine ⟨?_, ?_⟩
  · intro c hc
    have hfaithful := reach_faithful hs c hc
    exact ⟨hfaithful .left, hfaithful .right⟩
  · intro c hc c' hc' haddr
    rcases (Later.of_run hinv ht).2.connections c' hc' with ⟨x, hx, hcont⟩ | ⟨hnew, -⟩
    · obtain rfl := hinv.table.eq_of_addr hx hc (hcont.addr.symm.trans haddr)
      exact ⟨hcont.fds .left, hcont.fds .right, hcont.received .left, hcont.received .right,
        hcont.sent .left, hcont.sent .right⟩
    · have hlt := hinv.table.addrs_lt c hc
      omega

/-! ### Three bytes, sent on in two parts -/

/-- The controller's first bytes arrive. -/
def speaking : List Input :=
  .poll 1 [{}, {}, {}, { pollin := true }] :: taus 9 ++ .recv (.ok [7, 8, 9]) :: taus 3

/-- The worker is sent some of what is there for it. -/
def hearing (n : Nat) : List Input :=
  .poll 1 [{}, {}, { pollout := true }, {}] :: taus 7 ++ .send (.ok n) :: taus 5

/-- Two bytes have gone out, and one is in the buffer. -/
def halfway : Proxy := after (start 3 4) (meeting ++ speaking ++ hearing 2)

theorem streams_are_faithful_halfway :
    sent (after halfway (hearing 1)).sockets 5 = [7, 8, 9] ∧
      (∀ c ∈ halfway.connections,
        received halfway.sockets c.controllerFd
          = sent halfway.sockets c.workerFd ++ c.c2w.buffer) ∧
      ∀ c ∈ halfway.connections, ∀ c' ∈ (after halfway (hearing 1)).connections,
        c'.addr = c.addr →
        sent halfway.sockets c.workerFd
          <+: sent (after halfway (hearing 1)).sockets c'.workerFd := by
  have hrun : (machine 3 4).Run FreshAccept (start 3 4) halfway := run_after (by decide +kernel)
  have hon : (machine 3 4).Run FreshAccept halfway (after halfway (hearing 1)) :=
    run_after (by decide +kernel)
  obtain ⟨hfaithful, hkept⟩ := streams_are_faithful 3 4 _ _ hrun hon
  refine ⟨by decide +kernel, fun c hc => (hfaithful c hc).2, ?_⟩
  intro c hc c' hc' haddr
  obtain ⟨-, -, -, -, hsent, -⟩ := hkept c hc c' hc' haddr
  exact hsent

end Proxy

end Distray
