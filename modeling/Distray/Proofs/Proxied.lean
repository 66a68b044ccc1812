/-
A proxy is a chain of queues.

Between the two programs on the sides of a connection there are, in each direction,
three queues: what has been put in and not been received, the buffer, and what has been
sent and not been taken.  A step of the proxy hands bytes from one of them to the next,
in one connection and one direction, and nothing else it does is seen there.  So a
remote worker that reaches its worker through the proxy, among any number of others,
behaves like one that has two more queues on the way and no proxy.
-/
import Distray.Network
import Distray.Lib.Simulation
import Distray.Proofs.Composition

namespace Distray

open Octets

namespace Proxy

/-! ### What a step does for the connection at an address -/

/--
What lies in the buffers of the connection at an address: nothing before there is such
a connection, and once it has been closed, what was in them then.
-/
structure Between (s : Proxy) (addr : Nat) (mid : Side → Bytes) : Prop where
  buffers : ∀ c ∈ s.connections, c.addr = addr → ∀ side, c.buffer side = mid side
  new : s.nextAddr ≤ addr → ∀ side, mid side = []

theorem Table.connectionAt {s : Proxy} (h : Table s) {c : Connection} (hc : c ∈ s.connections) :
    s.connectionAt c.addr = some c := by
  obtain ⟨x, hx⟩ : ∃ x, s.connectionAt c.addr = some x := by
    refine Option.isSome_iff_exists.mp (List.find?_isSome.mpr ⟨c, hc, ?_⟩)
    exact decide_eq_true rfl
  have haddr : x.addr = c.addr := by simpa using List.find?_some hx
  rw [hx, h.eq_of_addr (List.mem_of_find?_eq_some hx) hc haddr]

theorem closed_cases (sockets : Int → Option Socket) (fd x : Int) :
    closed sockets fd x = sockets x ∨ closed sockets fd x = none := by
  unfold closed
  by_cases hneg : fd = -1
  · rw [if_pos hneg]
    exact Or.inl rfl
  · rw [if_neg hneg]
    by_cases hx : x = fd
    · rw [hx, Function.update_self]
      exact Or.inr rfl
    · rw [Function.update_of_ne hx]
      exact Or.inl rfl

theorem connectionAt_mem {s : Proxy} {addr : Nat} {c : Connection}
    (h : s.connectionAt addr = some c) : c ∈ s.connections ∧ c.addr = addr :=
  ⟨List.mem_of_find?_eq_some h, by simpa using List.find?_some h⟩

/-- Nothing was received or sent at an address. -/
theorem got_nothing {s t : Proxy} {addr : Nat}
    (h : ∀ c ∈ s.connections, c.addr = addr → ∀ side,
      t.sockets (c.fd side) = s.sockets (c.fd side) ∨ t.sockets (c.fd side) = none ∨
        (s.sockets (c.fd side) = none ∧ t.sockets (c.fd side) = some ⟨[], []⟩)) (side : Side) :
    s.got t addr side = [] ∧ s.gave t addr side = [] := by
  unfold got gave
  split
  · rename_i c hc
    obtain ⟨hmem, haddr⟩ := connectionAt_mem hc
    rcases h c hmem haddr side with hsame | hnone | ⟨hold, hnew⟩
    · simp [received, sent, hsame]
    · simp [received, sent, hnone]
    · simp [received, sent, hold, hnew]
  · exact ⟨rfl, rfl⟩

/-- Bytes have passed through a descriptor of a connection, and not at other addresses. -/
theorem Table.got_passed {s t : Proxy} (h : Table s) {k : Nat} {c : Connection}
    (hc : s.connections[k]? = some c) {fd : Int} (hfd : fd ∈ c.place.tokens) {rx tx : Bytes}
    (ht : t.sockets = passed s.sockets fd rx tx) (addr : Nat) (side : Side) :
    s.got t addr side = (if addr = c.addr ∧ c.fd side = fd then rx else []) ∧
      s.gave t addr side = (if addr = c.addr ∧ c.fd side = fd then tx else []) := by
  have hmemc := List.mem_of_getElem? hc
  have hsome := (h.sockets fd).mpr (mem_tokens_places hmemc hfd)
  unfold got gave
  cases hat : s.connectionAt addr with
  | none =>
      have hne : addr ≠ c.addr := by
        intro heq
        rw [heq, h.connectionAt hmemc] at hat
        exact absurd hat (by simp)
      simp [hne]
  | some x =>
      obtain ⟨hx, haddr⟩ := connectionAt_mem hat
      show (received t.sockets (x.fd side)).drop _ = _ ∧ (sent t.sockets (x.fd side)).drop _ = _
      rw [ht, received_passed hsome, sent_passed hsome, List.drop_left, List.drop_left]
      by_cases hxc : addr = c.addr
      · obtain rfl : x = c := h.eq_of_addr hx hmemc (haddr.trans hxc)
        simp [hxc]
      · -- a descriptor of one connection is not one of another
        have helse : x.fd side ≠ fd := by
          obtain ⟨j, hj⟩ := List.mem_iff_getElem?.mp hx
          refine h.fd_elsewhere hc hj ?_ hfd side
          intro hkj
          rw [← hkj, hc, Option.some.injEq] at hj
          exact hxc (hj ▸ haddr.symm)
        simp [helse, hxc]

/--
What a step does at an address: some bytes that were received from a side, or some that
were sent on to the other, have gone into or out of the buffer between the two.
-/
structure Carries (s t : Proxy) (addr : Nat) (mid mid' : Side → Bytes) (side : Side)
    (rx tx : Bytes) : Prop where
  got : ∀ σ, s.got t addr σ = if σ = side then rx else []
  gave : ∀ σ, s.gave t addr σ = if σ = side.other then tx else []
  buffer : mid side ++ rx = tx ++ mid' side
  rest : mid' side.other = mid side.other
  one : rx = [] ∨ tx = []

theorem Carries.nothing {s t : Proxy} {addr : Nat} (mid : Side → Bytes)
    (h : ∀ side, s.got t addr side = [] ∧ s.gave t addr side = []) :
    Carries s t addr mid mid .left [] [] :=
  ⟨fun σ => by rw [(h σ).1, ite_self], fun σ => by rw [(h σ).2, ite_self],
    by simp, rfl, Or.inl rfl⟩

theorem Table.mem_set {s : Proxy} (h : Table s) {k : Nat} {c c' x : Connection}
    (hc : s.connections[k]? = some c) (hx : x ∈ s.connections.set k c') :
    x = c' ∨ (x ∈ s.connections ∧ x.addr ≠ c.addr) := by
  obtain ⟨j, hj⟩ := List.mem_iff_getElem?.mp hx
  by_cases hkj : k = j
  · subst hkj
    have hlt := (List.getElem?_eq_some_iff.mp hc).1
    rw [List.getElem?_set_self hlt, Option.some.injEq] at hj
    exact Or.inl hj.symm
  · rw [List.getElem?_set_ne hkj] at hj
    have hmem := List.mem_of_getElem? hj
    refine Or.inr ⟨hmem, ?_⟩
    intro haddr
    have heq := h.eq_of_addr hmem (List.mem_of_getElem? hc) haddr
    have hfirst := h.loose.findIdx?_addr hj
    rw [heq, h.loose.findIdx?_addr hc, Option.some.injEq] at hfirst
    exact hkj hfirst

/-- Bytes go into the buffer of one direction of a connection, or out of it. -/
theorem Table.carries {s t : Proxy} (h : Table s) {addr : Nat} {mid : Side → Bytes}
    (hmid : Between s addr mid) {k : Nat} {c c' : Connection} (hc : s.connections[k]? = some c)
    (hsame : SameEnds c c') (hconnections : t.connections = s.connections.set k c')
    (hnext : t.nextAddr = s.nextAddr) {fd : Int} (hfd : fd ∈ c.place.tokens) {rx tx : Bytes}
    (hsockets : t.sockets = passed s.sockets fd rx tx) {side : Side}
    (hside : c.fd side = fd ∧ tx = [] ∨ c.fd side.other = fd ∧ rx = [])
    (hbuffer : c.buffer side ++ rx = tx ++ c'.buffer side)
    (hrest : c'.buffer side.other = c.buffer side.other) :
    ∃ mid' side rx tx, Between t addr mid' ∧ Carries s t addr mid mid' side rx tx := by
  have hmemc := List.mem_of_getElem? hc
  have hmoved := h.got_passed hc hfd hsockets addr
  by_cases haddr : addr = c.addr
  · have hmine := hmid.buffers c hmemc haddr.symm
    refine ⟨c'.buffer, side, rx, tx, ⟨?_, ?_⟩, ⟨?_, ?_, ?_, ?_, ?_⟩⟩
    · intro x hx hxaddr σ
      rw [hconnections] at hx
      rcases h.mem_set hc hx with rfl | ⟨-, hne⟩
      · rfl
      · exact absurd (hxaddr.trans haddr) hne
    · intro hle
      have hlt := h.addrs_lt c hmemc
      omega
    · intro σ
      rw [(hmoved σ).1]
      rcases hside with ⟨hown, -⟩ | ⟨-, rfl⟩
      · by_cases hσ : σ = side
        · rw [if_pos ⟨haddr, hσ ▸ hown⟩, if_pos hσ]
        · rw [if_neg hσ, if_neg]
          rw [Side.eq_other_of_ne hσ]
          exact fun hboth => h.fd_other hmemc hfd side hown hboth.2
      · rw [ite_self, ite_self]
    · intro σ
      rw [(hmoved σ).2]
      rcases hside with ⟨-, rfl⟩ | ⟨hown, -⟩
      · rw [ite_self, ite_self]
      · by_cases hσ : σ = side.other
        · rw [if_pos ⟨haddr, hσ ▸ hown⟩, if_pos hσ]
        · rw [if_neg hσ, if_neg]
          rw [Side.eq_other_of_ne hσ]
          exact fun hboth => h.fd_other hmemc hfd side.other hown hboth.2
    · rw [← hmine]
      exact hbuffer
    · rw [← hmine]
      exact hrest
    · exact hside.elim (fun hs => Or.inr hs.2) (fun hs => Or.inl hs.2)
  · refine ⟨mid, .left, [], [], ⟨?_, ?_⟩, .nothing mid ?_⟩
    · intro x hx hxaddr
      rw [hconnections] at hx
      rcases h.mem_set hc hx with rfl | ⟨hx, -⟩
      · exact absurd (hxaddr.symm.trans hsame.addr) haddr
      · exact hmid.buffers x hx hxaddr
    · rw [hnext]
      exact hmid.new
    · intro σ
      rw [(hmoved σ).1, (hmoved σ).2, if_neg (fun hboth => haddr hboth.1),
        if_neg (fun hboth => haddr hboth.1)]
      exact ⟨rfl, rfl⟩

/-- **A step hands bytes on at one address and in one direction.** -/
theorem Between.step {s t : Proxy} {input : Input} (h : Inv s) (hfresh : s.FreshAccept input)
    (hmove : Move s input t) {addr : Nat} {mid : Side → Bytes} (hmid : Between s addr mid) :
    ∃ mid' side rx tx, Between t addr mid' ∧ Carries s t addr mid mid' side rx tx := by
  cases (h.steady.move hfresh.may hmove).1 with
  | nothing hconnections hsockets hnext =>
      refine ⟨mid, .left, [], [], ⟨?_, ?_⟩, .nothing mid (got_nothing ?_)⟩
      · rw [hconnections]
        exact hmid.buffers
      · rw [hnext]
        exact hmid.new
      · intro c _ _ side
        exact Or.inl (by rw [hsockets])
  | @accepted i fd _ hpc hacc =>
      simp only [FreshAccept, freshAccept, Bool.and_eq_true, Option.isNone_iff_eq_none,
        decide_eq_true_eq] at hfresh
      have hsockets : t.sockets = opened s.sockets fd := by cases hacc <;> rfl
      refine ⟨mid, .left, [], [], ?_, .nothing mid (got_nothing ?_)⟩
      · cases hacc with
        | @joined k c hk hc hlacks =>
            refine ⟨?_, hmid.new⟩
            intro x hx haddr side
            simp only [Parts.modify_eq_set hc] at hx
            rcases h.table.mem_set hc hx with rfl | ⟨hx, -⟩
            · rw [Connection.addr_setFd] at haddr
              rw [Connection.buffer_setFd]
              exact hmid.buffers c (List.mem_of_getElem? hc) haddr side
            · exact hmid.buffers x hx haddr side
        | waits hvacancy =>
            refine ⟨?_, fun hle => hmid.new (Nat.le_of_succ_le hle)⟩
            intro x hx haddr side
            rcases List.mem_append.mp hx with hx | hx
            · exact hmid.buffers x hx haddr side
            · -- the connection that is made now has nothing in its buffers
              rw [List.mem_singleton] at hx
              rw [hx, Connection.addr_setFd] at haddr
              have haddr' : s.nextAddr = addr := haddr
              rw [hx, Connection.buffer_setFd, hmid.new haddr'.le]
              cases side <;> rfl
      · intro c _ _ side
        rw [hsockets, opened, if_neg (by omega)]
        by_cases hfd : c.fd side = fd
        · rw [hfd, Function.update_self]
          exact Or.inr (Or.inr ⟨hfresh.2, rfl⟩)
        · rw [Function.update_of_ne hfd]
          exact Or.inl rfl
  | @closed _ k i c hc =>
      refine ⟨mid, .left, [], [], ⟨?_, hmid.new⟩, .nothing mid (got_nothing ?_)⟩
      · intro x hx
        exact hmid.buffers x (List.mem_of_mem_eraseIdx hx)
      · intro x _ _ side
        rcases closed_cases (closed s.sockets c.workerFd) c.controllerFd (x.fd side) with h | h
        · exact (closed_cases s.sockets c.workerFd (x.fd side)).elim
            (fun h' => Or.inl (h.trans h')) (fun h' => Or.inr (Or.inl (h.trans h')))
        · exact Or.inr (Or.inl h)
  | @received r fd k c c' tmp pc hc hmem hok =>
      obtain ⟨hsame, σ, hσ, hbuffer, hrest⟩ := Connection.receive_spec hok
      refine h.table.carries hmid hc hsame rfl rfl hmem rfl (Or.inl ⟨hσ, rfl⟩) ?_ hrest
      rw [hbuffer, List.nil_append]
  | @sent r fd k c c' out pc hc hmem hok =>
      obtain ⟨hsame, σ, hσ, hbuffer, hrest⟩ := Connection.send_spec hok
      have hback := σ.other_other
      have hside : c.fd σ.other = fd ∧ out = [] ∨ c.fd σ.other.other = fd ∧ ([] : Bytes) = [] :=
        Or.inr ⟨hback.symm ▸ hσ, rfl⟩
      refine h.table.carries hmid hc hsame rfl rfl hmem rfl hside ?_ (hback.symm ▸ hrest)
      rw [hbuffer, List.append_nil]

end Proxy

namespace Network

open Proxy

/-! ### The queues between the two sides

The middle queue is the buffer of the connection.  It is only there while the connection is,
but what has come out of it before the connection is closed can still be taken, so the two
queues beside it are kept by the address and outlive it.
-/

/-- The queues from a side to the other one. -/
def chain (n : Network) (addr : Nat) (mid : Side → Bytes) (side : Side) : Chain UInt8 :=
  [n.outgoing addr side.other, mid side, n.incoming addr side]

/-- What was received at an address had been put in there. -/
theorem got_isPrefix {n : Network} {t : Proxy} (h : n.hadBeenPut t = true) (addr : Nat)
    (side : Side) : n.proxy.got t addr side <+: n.incoming addr side := by
  cases hat : n.proxy.connectionAt addr with
  | none =>
      rw [got, hat]
      exact List.nil_prefix
  | some c =>
      obtain ⟨hc, rfl⟩ := connectionAt_mem hat
      have hboth := List.all_eq_true.mp h c hc
      simp only [Bool.and_eq_true, decide_eq_true_eq] at hboth
      cases side with
      | left => exact hboth.1
      | right => exact hboth.2

/-- **A step of the proxy hands something on, and nothing else.** -/
theorem chain_relay {n n' : Network} {input : Proxy.Input} (h : Inv n.proxy)
    (hfresh : n.proxy.FreshAccept input) (hstep : n.relay input = some n') {addr : Nat}
    {mid : Side → Bytes} (hmid : Between n.proxy addr mid) :
    Inv n'.proxy ∧ ∃ mid', Between n'.proxy addr mid' ∧ ∃ side k m,
      n'.chain addr mid' side = (n.chain addr mid side).forward k m ∧
        n'.chain addr mid' side.other = n.chain addr mid side.other := by
  unfold relay at hstep
  split at hstep
  · rename_i t ht
    split at hstep
    · rename_i hput
      rw [Option.some.injEq] at hstep
      subst hstep
      have hmove := move_of_step ht
      refine ⟨h.move hfresh.harmless hmove, ?_⟩
      obtain ⟨mid', side, rx, tx, hmid', hcarries⟩ := hmid.step h hfresh hmove
      refine ⟨mid', hmid', side, if rx = [] then 0 else 1, rx.length + tx.length, ?_, ?_⟩
      · have hpre : rx <+: n.incoming addr side := by
          have hpre := got_isPrefix hput addr side
          rwa [hcarries.got, if_pos rfl] at hpre
        obtain ⟨rest, hrest⟩ := hpre
        have hbuffer := hcarries.buffer
        simp only [chain, hcarries.got, hcarries.gave, if_true]
        rcases hcarries.one with rfl | rfl
        · rw [List.append_nil] at hbuffer
          simp [hbuffer, Chain.forward]
        · rw [List.nil_append] at hbuffer
          by_cases hrx : rx = []
          · simp [hrx, ← hbuffer, Chain.forward]
          · simp [hrx, ← hbuffer, ← hrest, Chain.forward]
      · have hback := side.other_other
        have hne : side ≠ side.other := side.other_ne.symm
        simp [chain, hcarries.got, hcarries.gave, hcarries.rest, hback, side.other_ne, hne]
    · exact absurd hstep (by simp)
  · exact absurd hstep (by simp)

theorem chain_put (n : Network) (addr : Nat) (mid : Side → Bytes) (side : Side) (data : Bytes) :
    (n.put addr side data).chain addr mid side = (n.chain addr mid side).put data ∧
      (n.put addr side data).chain addr mid side.other = n.chain addr mid side.other := by
  simp [chain, put, Chain.put, side.other_ne]

/-- What is left for a side is left at the front of those from the other one. -/
theorem chain_leave (n : Network) (addr : Nat) (mid : Side → Bytes) (side : Side)
    (rest : Bytes) :
    (n.leave addr side.other rest).chain addr mid side
        = rest :: (n.chain addr mid side).tail ∧
      (n.leave addr side.other rest).chain addr mid side.other = n.chain addr mid side.other := by
  simp [chain, leave, side.other_other, side.other_ne.symm]

end Network

namespace Relayed

open Proxy

variable {codec : Codec} {p : Parameters}

/-! ### The pair that is seen -/

/-- What is seen of the proxy are the queues. -/
def pair (s : Relayed) (addr : Nat) (mid : Side → Bytes) : Pair where
  worker := s.worker
  link := ⟨s.network.chain addr mid .right, s.network.chain addr mid .left, s.process, s.execution⟩
  status := s.status

theorem pair_status (s : Relayed) (addr : Nat) (mid : Side → Bytes) :
    (s.pair addr mid).status = s.status :=
  rfl

theorem pair_after {α : Type} (s : Relayed) (addr : Nat) (mid : Side → Bytes) (x : Outcome α)
    {f : α → Relayed} {g : α → Pair} (h : ∀ a, (f a).pair addr mid = g a) :
    (s.after x f).pair addr mid = (s.pair addr mid).after x g := by
  cases x with
  | ok a => exact h a
  | exit => rfl
  | hang => rfl
  | undefined => rfl

theorem proxy_after {α : Type} (s : Relayed) (x : Outcome α) {f : α → Relayed}
    (h : ∀ a, (f a).network.proxy = s.network.proxy) :
    (s.after x f).network.proxy = s.network.proxy := by
  cases x with
  | ok a => exact h a
  | exit => rfl
  | hang => rfl
  | undefined => rfl

/-- The table is in order, and the pair is the one that is seen. -/
def Related (addr : Nat) (s : Relayed) (q : Pair) : Prop :=
  Inv s.network.proxy ∧ ∃ mid, Between s.network.proxy addr mid ∧ q = s.pair addr mid

/-- The bytes of a `recv` are taken from the queues. -/
theorem delivered_of_taken {n n' : Network} {addr : Nat} {r : Except Errno Bytes}
    (h : taken n addr r = some n') (mid : Side → Bytes) (process : Process)
    (execution : Option Execution) :
    n'.proxy = n.proxy ∧
      Pair.delivered ⟨n.chain addr mid .right, n.chain addr mid .left, process, execution⟩ r
        = some ⟨n'.chain addr mid .right, n'.chain addr mid .left, process, execution⟩ := by
  cases r with
  | error e =>
      rw [taken, Option.some.injEq] at h
      subst h
      exact ⟨rfl, rfl⟩
  | ok data =>
      rw [taken] at h
      by_cases hdata : data = []
      · rw [if_pos hdata, Option.some.injEq] at h
        subst h
        exact ⟨rfl, by rw [Pair.delivered, Link.deliver, if_pos hdata]⟩
      · rw [if_neg hdata, Network.take] at h
        split at h
        · rename_i hpre
          rw [Option.some.injEq] at h
          subst h
          refine ⟨rfl, ?_⟩
          obtain ⟨hfirst, hother⟩ := n.chain_leave addr mid .left
            ((n.outgoing addr .right).drop data.length)
          have hfirst' : (n.leave addr .right _).chain addr mid .left = _ := hfirst
          have hother' : (n.leave addr .right _).chain addr mid .right = _ := hother
          rw [Pair.delivered, Link.deliver, if_neg hdata, hfirst', hother']
          simp [Network.chain, Chain.take, Side.other, hpre]
        · exact absurd h (by simp)

/-- What is done elsewhere is not seen here. -/
theorem chain_foreign {n n' : Network} {addr addr' : Nat} (hne : addr' ≠ addr) {side : Side}
    {data : Bytes} {input : Network.Input}
    (hinput : input = .put addr' side data ∨ input = .take addr' side data)
    (h : n.step input = some n') (mid : Side → Bytes) (σ : Side) :
    n'.proxy = n.proxy ∧ n'.chain addr mid σ = n.chain addr mid σ := by
  rcases hinput with rfl | rfl
  · rw [Network.step, Option.some.injEq] at h
    subst h
    exact ⟨rfl, by simp [Network.chain, Network.put, Function.update_of_ne hne.symm]⟩
  · rw [Network.step, Network.take] at h
    split at h
    · rw [Option.some.injEq] at h
      subst h
      exact ⟨rfl, by simp [Network.chain, Network.leave, Function.update_of_ne hne.symm]⟩
    · exact absurd h (by simp)

/-- A step is one of the pair that is seen, or is not seen. -/
def Seen (codec : Codec) (p : Parameters) (addr : Nat) (mid : Side → Bytes) (s t : Relayed) :
    Prop :=
  Inv t.network.proxy ∧ ∃ mid', Between t.network.proxy addr mid' ∧
    (t.pair addr mid' = s.pair addr mid ∨
      ∃ input, (s.pair addr mid).step codec p input = some (t.pair addr mid'))

/-- What happens between the two programs moves bytes along one of the queues, or none. -/
theorem seen_of_network {addr : Nat} {s : Relayed} {n : Network} {input : Network.Input}
    (hinv : Inv s.network.proxy) {mid : Side → Bytes} (hmid : Between s.network.proxy addr mid)
    (hrunning : (s.pair addr mid).status = .running)
    (hforeign : s.network.foreign addr input = true)
    (hn : s.network.step input = some n) : Seen codec p addr mid s { s with network := n } := by
  have helsewhere : ∀ addr' side data, addr' ≠ addr →
      input = .put addr' side data ∨ input = .take addr' side data →
      Seen codec p addr mid s { s with network := n } := by
    intro addr' side data hne hinput
    have hproxy := fun σ => chain_foreign hne hinput hn mid σ
    refine ⟨(hproxy .left).1 ▸ hinv, mid, (hproxy .left).1 ▸ hmid, Or.inl ?_⟩
    rw [pair, pair, (hproxy .left).2, (hproxy .right).2]
  cases input with
  | proxy input =>
      obtain ⟨hinv', mid', hmid', side, k, m, hmoved, hrest⟩ :=
        Network.chain_relay hinv hforeign hn hmid
      refine ⟨hinv', mid', hmid', Or.inr ?_⟩
      cases side with
      | left =>
          have hrest' : n.chain addr mid' .right = s.network.chain addr mid .right := hrest
          refine ⟨.link (.forwardResponse k m), Pair.step_link hrunning ?_⟩
          show some _ = some _
          rw [hmoved, hrest']
          rfl
      | right =>
          have hrest' : n.chain addr mid' .left = s.network.chain addr mid .left := hrest
          refine ⟨.link (.forwardRequest k m), Pair.step_link hrunning ?_⟩
          show some _ = some _
          rw [hmoved, hrest']
          rfl
  | put addr' side data =>
      exact helsewhere addr' side data (of_decide_eq_true hforeign) (Or.inl rfl)
  | take addr' side data =>
      exact helsewhere addr' side data (of_decide_eq_true hforeign) (Or.inr rfl)

/-! ### Either of the two programs takes a step

The controller's end and the worker process do what they would do without the proxy; a
step of theirs at most puts bytes into a queue or takes some out of one.  So there is one
lemma for each of their calls, and what is left is what others do.
-/

/-- A step of the pair, in which the proxy is left alone. -/
structure Paired (codec : Codec) (p : Parameters) (addr : Nat) (mid : Side → Bytes)
    (s t : Relayed) : Prop where
  proxy : t.network.proxy = s.network.proxy
  step : ∃ input, (s.pair addr mid).step codec p input = some (t.pair addr mid)

theorem Paired.seen {addr : Nat} {mid : Side → Bytes} {s t : Relayed}
    (h : Paired codec p addr mid s t) (hinv : Inv s.network.proxy)
    (hmid : Between s.network.proxy addr mid) : Seen codec p addr mid s t := by
  rw [Seen, h.proxy]
  exact ⟨hinv, mid, hmid, Or.inr h.step⟩

section

variable {addr : Nat} {s t : Relayed} (mid : Side → Bytes) (hrunning : s.status = .running)

include hrunning

theorem paired_start {files : Files} (h : s.step codec p addr (.start files) = some t) :
    Paired codec p addr mid s t := by
  simp only [Relayed.step, if_pos hrunning] at h
  split at h
  · rename_i hs
    rw [Option.some.injEq] at h
    subst h
    refine ⟨proxy_after s _ fun _ => rfl, .start files, ?_⟩
    rw [Pair.step, pair_status, if_pos hrunning, pair_after s addr mid _ fun _ => rfl]
    exact if_pos hs
  · exact absurd h (by simp)

theorem paired_runFrame {frame : Int} {files : Files}
    (h : s.step codec p addr (.runFrame frame files) = some t) : Paired codec p addr mid s t := by
  simp only [Relayed.step, if_pos hrunning] at h
  split at h
  · rename_i hs
    rw [Option.some.injEq] at h
    subst h
    refine ⟨proxy_after s _ fun _ => rfl, .runFrame frame files, ?_⟩
    rw [Pair.step, pair_status, if_pos hrunning, pair_after s addr mid _ fun _ => rfl]
    exact if_pos hs
  · exact absurd h (by simp)

/-- What is received comes out of the queues from the worker. -/
theorem paired_recv {r : Except Errno Bytes} {files : Files}
    (h : s.step codec p addr (.recv r files) = some t) : Paired codec p addr mid s t := by
  simp only [Relayed.step, if_pos hrunning] at h
  split at h
  · rename_i hfit
    obtain ⟨n, hn, rfl⟩ := Option.map_eq_some_iff.mp h
    obtain ⟨hproxy, hdelivered⟩ := delivered_of_taken hn mid s.process s.execution
    refine ⟨proxy_after s _ fun a => ?_, .recv r files, ?_⟩
    · cases a with
      | ok w => exact hproxy
      | error e => rfl
    · rw [Pair.step, pair_status, if_pos hrunning]
      show (if s.worker.incomingBuffer.admits r = true then
        (Pair.delivered (s.pair addr mid).link r).map _ else none) = _
      rw [if_pos hfit, pair, hdelivered]
      refine congrArg some (pair_after s addr mid _ fun a => ?_).symm
      cases a with
      | ok w => rfl
      | error e => rfl
  · exact absurd h (by simp)

theorem paired_send {r : Except Errno Nat} (h : s.step codec p addr (.send r) = some t) :
    Paired codec p addr mid s t := by
  simp only [Relayed.step, if_pos hrunning] at h
  split at h
  · rename_i hfit
    cases hsend : s.worker.send r with
    | ok x =>
        obtain ⟨w, out⟩ := x
        simp only [hsend, Option.some.injEq] at h
        subst h
        obtain ⟨hfirst, hother⟩ := s.network.chain_put addr mid .right out
        refine ⟨rfl, .send r, Pair.step_send hrunning hfit hsend |>.trans ?_⟩
        have hother' : (s.network.put addr .right out).chain addr mid .left = _ := hother
        rw [pair, pair, Link.post, hfirst, hother']
        rfl
    | error e =>
        simp only [hsend, Option.some.injEq] at h
        subst h
        refine ⟨rfl, .send r, ?_⟩
        rw [Pair.step, pair_status, if_pos hrunning]
        show (if s.worker.outgoingBuffer.admits r = true then _ else none) = _
        rw [if_pos hfit]
        simp only [pair, hsend]
  · exact absurd h (by simp)

theorem paired_receive (h : s.step codec p addr .receive = some t) :
    Paired codec p addr mid s t := by
  simp only [Relayed.step, if_pos hrunning] at h
  split at h
  · rename_i hprocess
    split at h
    · rename_i process left hreceived
      rw [Option.some.injEq] at h
      subst h
      obtain ⟨hfirst, hother⟩ := s.network.chain_leave addr mid .right left
      have hfirst' : (s.network.leave addr .left left).chain addr mid .right = _ := hfirst
      have hother' : (s.network.leave addr .left left).chain addr mid .left = _ := hother
      refine ⟨rfl, .link .receive, Pair.step_link hrunning ?_⟩
      rw [hfirst', hother']
      simp only [pair, Network.chain, Link.step, hprocess, Side.other, hreceived, List.tail_cons]
    · exact absurd h (by simp)
  · exact absurd h (by simp)

theorem paired_handle {env : WorkerEnv} (h : s.step codec p addr (.handle env) = some t) :
    Paired codec p addr mid s t := by
  simp only [Relayed.step, if_pos hrunning] at h
  split at h
  · rename_i request hprocess
    rw [Option.some.injEq] at h
    subst h
    refine ⟨rfl, .link (.handle env), Pair.step_link hrunning ?_⟩
    simp only [pair, Link.step, hprocess]
  · exact absurd h (by simp)

/-- The worker puts a response into the queues to the controller. -/
theorem paired_respond (h : s.step codec p addr .respond = some t) :
    Paired codec p addr mid s t := by
  simp only [Relayed.step, if_pos hrunning] at h
  split at h
  · rename_i response hprocess
    rw [Option.some.injEq] at h
    subst h
    obtain ⟨hfirst, hother⟩ := s.network.chain_put addr mid .left
      (sendMessage (codec.serializeResponse response))
    have hother' : Network.chain _ addr mid .right = _ := hother
    refine ⟨rfl, .link .send, Pair.step_link hrunning ?_⟩
    rw [hother']
    simp only [pair, Link.step, hprocess, hfirst]
    rfl
  · exact absurd h (by simp)

/-- A call can only fail while the worker receives or sends. -/
theorem paired_fail {code : Int} (h : s.step codec p addr (.fail code) = some t) :
    Paired codec p addr mid s t := by
  simp only [Relayed.step, if_pos hrunning] at h
  split at h
  · rename_i hprocess
    rw [Option.some.injEq] at h
    subst h
    refine ⟨rfl, .link (.fail code), Pair.step_link hrunning ?_⟩
    simp only [pair, Link.step, hprocess]
  · rename_i response hprocess
    rw [Option.some.injEq] at h
    subst h
    refine ⟨rfl, .link (.fail code), Pair.step_link hrunning ?_⟩
    simp only [pair, Link.step, hprocess]
  · exact absurd h (by simp)

end

/-- **Every step is a step of the pair that is seen, or is not seen.** -/
theorem seen_of_step {addr : Nat} {s t : Relayed} {input : Input} (hinv : Inv s.network.proxy)
    {mid : Side → Bytes} (hmid : Between s.network.proxy addr mid)
    (hstep : s.step codec p addr input = some t) : Seen codec p addr mid s t := by
  have hrunning : s.status = .running := by
    by_contra hstopped
    unfold Relayed.step at hstep
    rw [if_neg hstopped] at hstep
    exact absurd hstep (by simp)
  cases input with
  | start files => exact (paired_start mid hrunning hstep).seen hinv hmid
  | recv r files => exact (paired_recv mid hrunning hstep).seen hinv hmid
  | send r => exact (paired_send mid hrunning hstep).seen hinv hmid
  | runFrame frame files => exact (paired_runFrame mid hrunning hstep).seen hinv hmid
  | receive => exact (paired_receive mid hrunning hstep).seen hinv hmid
  | handle env => exact (paired_handle mid hrunning hstep).seen hinv hmid
  | respond => exact (paired_respond mid hrunning hstep).seen hinv hmid
  | fail code => exact (paired_fail mid hrunning hstep).seen hinv hmid
  | network input =>
      simp only [Relayed.step, if_pos hrunning] at hstep
      split at hstep
      · rename_i hforeign
        obtain ⟨n, hn, rfl⟩ := Option.map_eq_some_iff.mp hstep
        exact seen_of_network hinv hmid hrunning hforeign hn
      · exact absurd hstep (by simp)

theorem matches_pair (codec : Codec) (p : Parameters) (workerAddr : Nat)
    (fd workerServerFd controllerServerFd : Int) (addr : Nat) :
    (machine codec p workerAddr fd workerServerFd controllerServerFd addr).Matches
      (Pair.machine codec p workerAddr fd 2) (Fits codec p addr) (Pair.Fits codec p)
      (Related addr) := by
  rintro s input t q ⟨hinv, mid, hmid, rfl⟩ hfits hstep
  obtain ⟨hinv', mid', hmid', hseen⟩ := seen_of_step hinv hmid hstep
  refine ⟨t.pair addr mid', ?_, hinv', mid', hmid', rfl⟩
  rcases hseen with hsame | ⟨input', hinput⟩
  · rw [hsame]
    exact .refl _
  · refine .one ?_ hinput
    intro u hu
    rw [hinput, Option.mem_some_iff] at hu
    have hfit := hfits t hstep
    exact hu ▸ hfit

end Relayed

/--
**A proxy is two more queues.**  In every state that a remote worker and its worker can
reach on the two sides of one of the proxy's connections, whatever else the proxy does
and whoever else is connected to it, the two of them are in a state that they could have
reached with two more queues in each direction and no proxy: what is under way is what
has been put in and not been received, the connection's buffer, and what has been sent
and not been taken.
-/
theorem proxy_is_two_queues (codec : Codec) (p : Parameters) (workerAddr : Nat)
    (fd workerServerFd controllerServerFd : Int) (addr : Nat) (s : Relayed)
    (h : (Relayed.machine codec p workerAddr fd workerServerFd controllerServerFd addr).Reach
      (Relayed.Fits codec p addr) s) :
    ∃ mid : Side → Bytes,
      (∀ c ∈ s.network.proxy.connections, c.addr = addr →
        c.w2c.buffer = mid .left ∧ c.c2w.buffer = mid .right) ∧
      (Pair.machine codec p workerAddr fd 2).Reach (Pair.Fits codec p) (s.pair addr mid) := by
  have hinit : Relayed.Related addr
      (Relayed.machine codec p workerAddr fd workerServerFd controllerServerFd addr).init
      (Pair.machine codec p workerAddr fd 2).init := by
    refine ⟨⟨Proxy.Table.start _ _, Proxy.Pass.start _ _⟩, fun _ => [], ⟨?_, ?_⟩, rfl⟩
    · intro c hc
      exact absurd hc List.not_mem_nil
    · exact fun _ _ => rfl
  obtain ⟨q, hq, -, mid, hmid, rfl⟩ := (Relayed.matches_pair codec p workerAddr fd workerServerFd
    controllerServerFd addr).reach hinit h
  refine ⟨mid, ?_, hq⟩
  intro c hc haddr
  exact ⟨hmid.buffers c hc haddr .left, hmid.buffers c hc haddr .right⟩

/-! The worker is welcomed through the proxy, its response being sent on in two parts. -/

namespace Relayed

/-- The steps of the proxy among those of the others. -/
def proxied (inputs : List Proxy.Input) : List Input := inputs.map fun input =>
  .network (.proxy input)

/-- A poll after which one entry, the worker's or the controller's, is dealt with. -/
def pass (entries : List PollFlags) (before : Nat) (input : Proxy.Input) (rest : Nat) :
    List Input :=
  proxied (.poll 1 ({} :: {} :: entries) :: Proxy.taus before ++ input :: Proxy.taus rest)

def welcoming : List Input :=
  let out := frame (drpCodec.serializeRequest RemoteWorker.welcomeRequest)
  let back := frame (drpCodec.serializeResponse
    (Worker.handle Pair.bareEnv RemoteWorker.welcomeRequest))
  proxied Proxy.meeting ++ [.start Pair.bareEnv.files, .send (.ok out.length)] ++
    pass [{}, { pollin := true }] 9 (.recv (.ok out)) 3 ++
    pass [{ pollout := true }, {}] 7 (.send (.ok out.length)) 5 ++
    [.receive, .handle Pair.bareEnv, .respond] ++
    pass [{ pollin := true }, {}] 6 (.recv (.ok back)) 6 ++
    pass [{}, { pollout := true }] 10 (.send (.ok 4)) 2 ++
    [.recv (.ok (back.take 4)) Pair.bareEnv.files] ++
    pass [{}, { pollout := true }] 10 (.send (.ok (back.length - 4))) 2 ++
    [.recv (.ok (back.drop 4)) Pair.bareEnv.files]

def welcomed : Relayed :=
  ((machine drpCodec Pair.oneProgram 0 4 3 4 0).exec (Fits drpCodec Pair.oneProgram 0)
    (machine drpCodec Pair.oneProgram 0 4 3 4 0).init welcoming).getD
    (machine drpCodec Pair.oneProgram 0 4 3 4 0).init

theorem reach_welcomed :
    (machine drpCodec Pair.oneProgram 0 4 3 4 0).Reach (Fits drpCodec Pair.oneProgram 0)
      welcomed :=
  Machine.Run.of_replay (by decide +kernel)

end Relayed

theorem proxy_is_two_queues_welcomed :
    Relayed.welcomed.worker.state = .idle ∧ ∃ mid : Side → Bytes,
      (∀ c ∈ Relayed.welcomed.network.proxy.connections, c.addr = 0 →
        c.w2c.buffer = mid .left ∧ c.c2w.buffer = mid .right) ∧
      (Pair.machine drpCodec Pair.oneProgram 0 4 2).Reach (Pair.Fits drpCodec Pair.oneProgram)
        (Relayed.welcomed.pair 0 mid) :=
  ⟨by decide +kernel, proxy_is_two_queues drpCodec Pair.oneProgram 0 4 3 4 0 Relayed.welcomed
    Relayed.reach_welcomed⟩

end Distray
