/-
The proxy's table of connections.

Seen from far enough away, the connections are places for one worker and one
controller each, and what `accept` and `close_connection` do to them is what arriving
and giving up a place do in `Pairing`.  `Table` is that view together with what the
operating system knows: the descriptors in the places are exactly the open ones.

The source keeps neither view.  It finds a connection by a descriptor, or by -1 for the side
that is to be lacking and -2 for the other one; that each search finds what it is meant to
find is what the invariant is for.
-/
import Distray.Proxy
import Distray.Lib.Pairing

namespace Distray

open Octets

namespace Proxy

/-! ### Connections as places -/

namespace Connection

/-- A descriptor, unless it is -1. -/
def present (fd : Int) : Option Int := if fd = -1 then none else some fd

theorem present_eq_none {fd : Int} : present fd = none ↔ fd = -1 := by
  unfold present
  split <;> simp_all

theorem present_eq_some {fd x : Int} : present fd = some x ↔ fd = x ∧ x ≠ -1 := by
  unfold present
  split
  · simp only [reduceCtorEq, false_iff, not_and, not_not]
    omega
  · simp only [Option.some.injEq]
    omega

/-- The worker is on the left. -/
def place (c : Connection) : Place Int := ⟨present c.workerFd, present c.controllerFd⟩

def fd (c : Connection) : Side → Int
  | .left => c.workerFd
  | .right => c.controllerFd

/-- `set_worker_fd` or `set_controller_fd`. -/
def setFd (c : Connection) (fd : Int) : Side → Connection
  | .left => { c with workerFd := fd }
  | .right => { c with controllerFd := fd }

theorem get_place (c : Connection) (side : Side) : c.place.get side = present (c.fd side) := by
  cases side <;> rfl

theorem place_setFd (c : Connection) {fd : Int} (h : fd ≠ -1) (side : Side) :
    (c.setFd fd side).place = c.place.put fd side := by
  have hpresent : present fd = some fd := present_eq_some.mpr ⟨rfl, h⟩
  cases side with
  | left => simp only [place, setFd, Place.put, hpresent]
  | right => simp only [place, setFd, Place.put, hpresent]

@[simp] theorem fd_setFd (c : Connection) (fd : Int) (side : Side) :
    (c.setFd fd side).fd side = fd := by
  cases side <;> rfl

theorem fd_setFd_ne (c : Connection) (fd : Int) {side σ : Side} (h : σ ≠ side) :
    (c.setFd fd side).fd σ = c.fd σ := by
  cases side <;> cases σ <;> first | rfl | exact absurd rfl h

@[simp] theorem addr_setFd (c : Connection) (fd : Int) (side : Side) :
    (c.setFd fd side).addr = c.addr := by
  cases side <;> rfl

theorem mem_tokens {c : Connection} {fd : Int} :
    fd ∈ c.place.tokens ↔ (fd = c.workerFd ∨ fd = c.controllerFd) ∧ fd ≠ -1 := by
  simp only [place, Place.tokens, List.mem_append, Option.mem_toList,
    present_eq_some]
  omega

/-- An entry that was filled from a connection has one of its descriptors. -/
theorem of_mem_addPollfds {c : Connection} {entry : Pollfd} (h : entry ∈ c.addPollfds) :
    entry.owner = some c.addr ∧ entry.fd ∈ c.place.tokens := by
  have hone : ∀ {fd : Int} {b : Buffer}, entry ∈ c.addPollfd fd b →
      entry.owner = some c.addr ∧ entry.fd = fd ∧ fd ≠ -1 := by
    intro fd b hmem
    unfold addPollfd at hmem
    split at hmem
    · rename_i hfd
      rw [List.mem_singleton] at hmem
      subst hmem
      exact ⟨rfl, rfl, hfd⟩
    · exact absurd hmem List.not_mem_nil
  rcases List.mem_append.mp h with h | h
  · obtain ⟨howner, hfd, hne⟩ := hone h
    exact ⟨howner, mem_tokens.mpr ⟨Or.inl hfd, hfd ▸ hne⟩⟩
  · obtain ⟨howner, hfd, hne⟩ := hone h
    exact ⟨howner, mem_tokens.mpr ⟨Or.inr hfd, hfd ▸ hne⟩⟩

end Connection

theorem find_eq_some {cs : List Connection} {w m : Int} {k : Nat} {c : Connection}
    (h : find cs w m = some (k, c)) :
    (cs.findIdx? fun c => c.workerFd = w || c.controllerFd = m) = some k ∧ cs[k]? = some c ∧
      (c.workerFd = w ∨ c.controllerFd = m) := by
  simp only [find, Option.bind_eq_bind, Option.bind_eq_some_iff, Option.some.injEq,
    Prod.mk.injEq] at h
  obtain ⟨k', hk, c', hc, rfl, rfl⟩ := h
  refine ⟨hk, hc, ?_⟩
  obtain ⟨hlt, hp, -⟩ := List.findIdx?_eq_some_iff_getElem.mp hk
  obtain ⟨-, rfl⟩ := List.getElem?_eq_some_iff.mp hc
  simpa using hp

theorem find_eq_none {cs : List Connection} {w m : Int} (h : find cs w m = none) :
    (cs.findIdx? fun c => c.workerFd = w || c.controllerFd = m) = none := by
  cases hk : cs.findIdx? fun c => c.workerFd = w || c.controllerFd = m with
  | none => rfl
  | some k =>
      obtain ⟨hlt, -⟩ := List.findIdx?_eq_some_iff_getElem.mp hk
      simp [find, hk, List.getElem?_eq_getElem hlt] at h

/-- The places of the connections. -/
def places (s : Proxy) : List (Place Int) := s.connections.map Connection.place

/-- The side entry `i` listens for. -/
def side (i : Nat) : Side := if i = 0 then .left else .right

/-! ### The table

`Loose` is what holds even where `accept` fails: the descriptors are those that are open, and
no two places have the same.  `Table` adds that the places that wait are all of one kind, in
the order in which they began to wait.
-/

/-- What is true of the table even when `accept` fails. -/
structure Loose (s : Proxy) : Prop where
  nodup : (Pairing.tokens s.places).Nodup
  nonneg : ∀ fd ∈ Pairing.tokens s.places, 0 ≤ fd
  sockets : ∀ fd, (s.sockets fd).isSome = true ↔ fd ∈ Pairing.tokens s.places
  addrs : (s.connections.map Connection.addr).Pairwise (· < ·)
  addrs_lt : ∀ c ∈ s.connections, c.addr < s.nextAddr

structure Table (s : Proxy) : Prop where
  valid : Pairing.Valid s.places
  nonneg : ∀ fd ∈ Pairing.tokens s.places, 0 ≤ fd
  sockets : ∀ fd, (s.sockets fd).isSome = true ↔ fd ∈ Pairing.tokens s.places
  addrs : (s.connections.map Connection.addr).Pairwise (· < ·)
  addrs_lt : ∀ c ∈ s.connections, c.addr < s.nextAddr

theorem Table.loose {s : Proxy} (h : Table s) : Loose s :=
  ⟨h.valid.nodup, h.nonneg, h.sockets, h.addrs, h.addrs_lt⟩

theorem Table.of_loose {s : Proxy} (h : Loose s) (hvalid : Pairing.Valid s.places) : Table s :=
  ⟨hvalid, h.nonneg, h.sockets, h.addrs, h.addrs_lt⟩

theorem mem_tokens_places {s : Proxy} {c : Connection} (hc : c ∈ s.connections) {fd : Int}
    (hfd : fd ∈ c.place.tokens) : fd ∈ Pairing.tokens s.places :=
  List.mem_flatMap.mpr ⟨c.place, List.mem_map_of_mem hc, hfd⟩

theorem Table.start (workerServerFd controllerServerFd : Int) :
    Table (start workerServerFd controllerServerFd) := by
  refine ⟨Pairing.valid_nil, ?_, ?_, ?_, ?_⟩ <;> simp [places, Pairing.tokens, Proxy.start]

theorem Loose.sockets_neg {s : Proxy} (h : Loose s) : s.sockets (-1) = none := by
  cases hs : s.sockets (-1) with
  | none => rfl
  | some x =>
      have hmem := (h.sockets (-1)).mp (by rw [hs]; rfl)
      exact absurd (h.nonneg _ hmem) (by omega)

/-- An open descriptor is found, and with it the connection it belongs to. -/
theorem Loose.find_own {s : Proxy} (h : Loose s) {c : Connection} (hc : c ∈ s.connections)
    {fd : Int} (hfd : fd ∈ c.place.tokens) :
    ∃ k, find s.connections fd fd = some (k, c) ∧ s.connections[k]? = some c := by
  obtain ⟨j, hj⟩ := List.mem_iff_getElem?.mp hc
  obtain ⟨hown, hne⟩ := Connection.mem_tokens.mp hfd
  cases hf : find s.connections fd fd with
  | none =>
      have hnone := List.findIdx?_eq_none_iff.mp (find_eq_none hf) c hc
      simp only [Bool.or_eq_false_iff, decide_eq_false_iff_not] at hnone
      rcases hown with hw | hw
      · exact absurd hw.symm hnone.1
      · exact absurd hw.symm hnone.2
  | some found =>
      obtain ⟨k, c'⟩ := found
      obtain ⟨-, hk, hmatch⟩ := find_eq_some hf
      have hfd' : fd ∈ c'.place.tokens :=
        Connection.mem_tokens.mpr ⟨hmatch.imp Eq.symm Eq.symm, hne⟩
      have hjk : j = k :=
        Pairing.unique h.nodup (by simp [places, hj]) (by simp [places, hk]) hfd hfd'
      rw [hjk, hk, Option.some.injEq] at hj
      exact ⟨k, by rw [hj], by rw [hk, hj]⟩

theorem Loose.findIdx?_addr {s : Proxy} (h : Loose s) {k : Nat} {c : Connection}
    (hc : s.connections[k]? = some c) :
    (s.connections.findIdx? fun x => x.addr = c.addr) = some k := by
  obtain ⟨hlt, rfl⟩ := List.getElem?_eq_some_iff.mp hc
  refine List.findIdx?_eq_some_iff_getElem.mpr ⟨hlt, by simp, fun j hj => ?_⟩
  have hsorted := List.pairwise_iff_getElem.mp h.addrs j k (by simp; omega) (by simpa using hlt) hj
  simp only [List.getElem_map] at hsorted
  simp only [decide_eq_true_eq]
  omega

/-! ### A connection joins

The search in the source is for the first connection that lacks the side, which is the first
place with a vacancy.  So accepting is arriving, and what is kept by arriving is kept.
-/

theorem lacks_iff (c : Connection) (side : Side) :
    (c.place.get side).isNone = true ↔ c.fd side = -1 := by
  rw [c.get_place, Option.isNone_iff_eq_none, Connection.present_eq_none]

theorem Loose.fd_ne {s : Proxy} (h : Loose s) {c : Connection} (hc : c ∈ s.connections)
    (side : Side) : c.fd side ≠ -2 := by
  intro heq
  have hmem : (-2 : Int) ∈ c.place.tokens := by
    refine Connection.mem_tokens.mpr ⟨?_, by omega⟩
    cases side with
    | left => exact Or.inl heq.symm
    | right => exact Or.inr heq.symm
  exact absurd (h.nonneg _ (mem_tokens_places hc hmem)) (by omega)

/-- The search for a connection that lacks a side is the search for a vacancy. -/
theorem Loose.find_vacancy {s : Proxy} (h : Loose s) (side : Side) (w m : Int)
    (hside : side = .left ∧ w = -1 ∧ m = -2 ∨ side = .right ∧ w = -2 ∧ m = -1) :
    (s.connections.findIdx? fun c => c.workerFd = w || c.controllerFd = m)
      = Pairing.vacancy side s.places := by
  rw [Pairing.vacancy, places, List.findIdx?_map]
  have hsame : ∀ c ∈ s.connections, (decide (c.workerFd = w) || decide (c.controllerFd = m))
      = (c.place.get side).isNone := by
    intro c hc
    rw [Bool.eq_iff_iff, lacks_iff]
    rcases hside with ⟨rfl, rfl, rfl⟩ | ⟨rfl, rfl, rfl⟩
    · have hne := h.fd_ne hc .right
      simp only [Connection.fd] at hne
      simp [Connection.fd, hne]
    · have hne := h.fd_ne hc .left
      simp only [Connection.fd] at hne
      simp [Connection.fd, hne]
  generalize s.connections = cs at hsame
  induction cs with
  | nil => rfl
  | cons c rest ih =>
      rw [List.findIdx?_cons, List.findIdx?_cons, Function.comp_apply, ← hsame c (by simp),
        ih fun x hx => hsame x (by simp [hx])]

/-- What `accept` leads to. -/
inductive Accepted (i : Nat) (fd : Int) (s : Proxy) : Proxy → Prop
  /-- The connection that has waited longest for this side is complete. -/
  | joined {k : Nat} {c : Connection} (hk : Pairing.vacancy (side i) s.places = some k)
      (hc : s.connections[k]? = some c) (hlacks : c.fd (side i) = -1) :
      Accepted i fd s { s with
        sockets := opened s.sockets fd
        connections := s.connections.modify k fun c => c.setFd fd (side i)
        pc := .sending i }
  /-- There is none, and a new one begins to wait. -/
  | waits (hnone : Pairing.vacancy (side i) s.places = none) :
      Accepted i fd s { s with
        sockets := opened s.sockets fd
        connections := s.connections ++ [(Connection.make s.nextAddr).setFd fd (side i)]
        nextAddr := s.nextAddr + 1
        pc := .sending i }

theorem Loose.acceptOn {s : Proxy} (h : Loose s) (hresult : s.result ≠ -1) (i : Nat) (fd : Int) :
    Accepted i fd s (s.acceptOn i fd) := by
  unfold Proxy.acceptOn
  simp only [if_neg hresult]
  by_cases hi : i = 0
  · have hside : side i = .left := by simp [side, hi]
    have hvacancy := h.find_vacancy .left (-1) (-2) (Or.inl ⟨rfl, rfl, rfl⟩)
    rw [if_pos hi]
    cases hf : find s.connections (-1) (-2) with
    | none =>
        have hw : Accepted i fd s _ :=
          .waits (by rw [hside, ← hvacancy]; exact find_eq_none hf)
        rwa [hside] at hw
    | some found =>
        obtain ⟨k, c⟩ := found
        obtain ⟨hk, hc, hmatch⟩ := find_eq_some hf
        have hne := h.fd_ne (List.mem_of_getElem? hc) .right
        have hj : Accepted i fd s _ := .joined (by rw [hside, ← hvacancy]; exact hk) hc
          (by rw [hside]; exact hmatch.resolve_right hne)
        rwa [hside] at hj
  · have hside : side i = .right := by simp [side, hi]
    have hvacancy := h.find_vacancy .right (-2) (-1) (Or.inr ⟨rfl, rfl, rfl⟩)
    rw [if_neg hi]
    cases hf : find s.connections (-2) (-1) with
    | none =>
        have hw : Accepted i fd s _ :=
          .waits (by rw [hside, ← hvacancy]; exact find_eq_none hf)
        rwa [hside] at hw
    | some found =>
        obtain ⟨k, c⟩ := found
        obtain ⟨hk, hc, hmatch⟩ := find_eq_some hf
        have hne := h.fd_ne (List.mem_of_getElem? hc) .left
        have hj : Accepted i fd s _ := .joined (by rw [hside, ← hvacancy]; exact hk) hc
          (by rw [hside]; exact hmatch.resolve_left hne)
        rwa [hside] at hj

theorem Accepted.places {s t : Proxy} {i : Nat} {fd : Int} (h : Accepted i fd s t)
    (hfd : fd ≠ -1) : t.places = Pairing.arrive (side i) fd s.places := by
  cases h with
  | @joined k c hk hc hlacks =>
      rw [Pairing.arrive, hk]
      refine List.ext_getElem? ?_
      intro j
      simp only [Proxy.places, List.getElem?_map, List.getElem?_modify]
      cases s.connections[j]? with
      | none => rfl
      | some x =>
          by_cases hkj : k = j
          · simp [hkj, x.place_setFd hfd]
          · simp [hkj]
  | waits hnone =>
      rw [Pairing.arrive, hnone]
      simp only [Proxy.places, List.map_append, List.map_cons, List.map_nil]
      rw [Connection.place_setFd _ hfd]
      rfl

/-- The connections stay in the order in which they were made. -/
theorem Accepted.addrs {s t : Proxy} {i : Nat} {fd : Int} (h : Accepted i fd s t)
    (haddrs : (s.connections.map Connection.addr).Pairwise (· < ·))
    (hlt : ∀ c ∈ s.connections, c.addr < s.nextAddr) :
    (t.connections.map Connection.addr).Pairwise (· < ·) := by
  cases h with
  | joined _ hc =>
      simp only
      rw [Parts.modify_eq_set hc, Parts.map_set_of_eq hc (Connection.addr_setFd _ _ _)]
      exact haddrs
  | waits =>
      simp only [List.map_append, List.map_cons, List.map_nil, Connection.addr_setFd]
      refine List.pairwise_append.mpr ⟨haddrs, List.pairwise_singleton _ _, ?_⟩
      intro a ha b hb
      obtain ⟨c, hc, rfl⟩ := List.mem_map.mp ha
      rw [List.mem_singleton] at hb
      rw [hb]
      exact hlt c hc

theorem Accepted.addrs_lt {s t : Proxy} {i : Nat} {fd : Int} (h : Accepted i fd s t)
    (hlt : ∀ c ∈ s.connections, c.addr < s.nextAddr) :
    ∀ c ∈ t.connections, c.addr < t.nextAddr := by
  intro c hc
  cases h with
  | joined _ hx =>
      simp only at hc ⊢
      rw [Parts.modify_eq_set hx] at hc
      rcases List.mem_or_eq_of_mem_set hc with hc | rfl
      · exact hlt c hc
      · rw [Connection.addr_setFd]
        exact hlt _ (List.mem_of_getElem? hx)
  | waits =>
      simp only at hc ⊢
      rcases List.mem_append.mp hc with hc | hc
      · exact Nat.lt_succ_of_lt (hlt c hc)
      · rw [List.mem_singleton] at hc
        rw [hc, Connection.addr_setFd]
        exact Nat.lt_succ_self _

theorem Loose.new {s : Proxy} (h : Loose s) {fd : Int} (hfresh : s.sockets fd = none) :
    fd ∉ Pairing.tokens s.places := by
  intro hmem
  have hsome := (h.sockets fd).mpr hmem
  simp [hfresh] at hsome

theorem Accepted.same {s t : Proxy} {i : Nat} {fd : Int} (h : Accepted i fd s t) :
    t.pc = .sending i ∧ t.pollfds = s.pollfds ∧ t.result = s.result ∧
      t.deletedFds = s.deletedFds := by
  cases h <;> exact ⟨rfl, rfl, rfl, rfl⟩

theorem opened_isSome {sockets : Int → Option Socket} {fd : Int} (hfd : fd ≠ -1) (x : Int) :
    (opened sockets fd x).isSome = true ↔ x = fd ∨ (sockets x).isSome = true := by
  rw [opened, if_neg hfd]
  by_cases hx : x = fd
  · simp [hx]
  · rw [Function.update_of_ne hx]
    simp [hx]

theorem Loose.accepted {s t : Proxy} (h : Loose s) {i : Nat} {fd : Int}
    (hacc : Accepted i fd s t) (hnonneg : 0 ≤ fd) (hfresh : s.sockets fd = none) : Loose t := by
  have hne : fd ≠ -1 := by omega
  have hplaces := hacc.places hne
  have hperm := Pairing.tokens_arrive (side i) fd s.places
  have hsockets : t.sockets = opened s.sockets fd := by cases hacc <;> rfl
  refine ⟨?_, ?_, ?_, hacc.addrs h.addrs h.addrs_lt, hacc.addrs_lt h.addrs_lt⟩
  · rw [hplaces]
    exact hperm.nodup_iff.mpr (List.nodup_cons.mpr ⟨h.new hfresh, h.nodup⟩)
  · intro x hx
    rw [hplaces, hperm.mem_iff] at hx
    rcases List.mem_cons.mp hx with rfl | hx
    · exact hnonneg
    · exact h.nonneg x hx
  · intro x
    rw [hsockets, opened_isSome hne, hplaces, hperm.mem_iff, List.mem_cons, h.sockets]

theorem Table.accepted {s t : Proxy} (h : Table s) {i : Nat} {fd : Int}
    (hacc : Accepted i fd s t) (hnonneg : 0 ≤ fd) (hfresh : s.sockets fd = none) : Table t := by
  refine .of_loose (h.loose.accepted hacc hnonneg hfresh) ?_
  rw [hacc.places (by omega)]
  exact h.valid.arrive (side i) (h.loose.new hfresh)

/-! ### `accept` fails -/

/-- The connection that is found already has no descriptor on that side. -/
theorem Connection.setFd_self {c : Connection} {side : Side} (h : c.fd side = -1) :
    c.setFd (-1) side = c := by
  cases side with
  | left =>
      have hfd : c.workerFd = -1 := h
      simp [Connection.setFd, ← hfd]
  | right =>
      have hfd : c.controllerFd = -1 := h
      simp [Connection.setFd, ← hfd]

/-- If one is found nothing changes; if not, a connection without descriptors is added. -/
theorem Accepted.failed {s t : Proxy} {i : Nat} (h : Accepted i (-1) s t) :
    t.sockets = s.sockets ∧
      ((∃ c ∈ s.connections, c.fd (side i) = -1) ∧ t.connections = s.connections ∧
          t.nextAddr = s.nextAddr ∨
        (∀ c ∈ s.connections, c.fd (side i) ≠ -1) ∧
          t.connections = s.connections ++ [Connection.make s.nextAddr]) := by
  cases h with
  | @joined k c hk hc hlacks =>
      refine ⟨rfl, Or.inl ⟨⟨c, List.mem_of_getElem? hc, hlacks⟩, ?_, rfl⟩⟩
      simp only
      rw [Parts.modify_eq_set hc, Connection.setFd_self hlacks]
      obtain ⟨hlt, rfl⟩ := List.getElem?_eq_some_iff.mp hc
      exact List.set_getElem_self hlt
  | waits hnone =>
      refine ⟨rfl, Or.inr ⟨?_, ?_⟩⟩
      · intro c hc hlacks
        refine Pairing.vacancy_eq_none hnone c.place (List.mem_map_of_mem hc) ?_
        rw [c.get_place, hlacks]
        rfl
      · simp only
        rw [Connection.setFd_self (by cases side i <;> rfl)]

theorem Loose.failed {s t : Proxy} (h : Loose s) {i : Nat} (hacc : Accepted i (-1) s t) :
    Loose t := by
  have htokens : Pairing.tokens t.places = Pairing.tokens s.places := by
    rcases hacc.failed.2 with ⟨-, hsame, -⟩ | ⟨-, hadd⟩
    · rw [places, hsame, places]
    · rw [places, hadd, places, List.map_append, Pairing.tokens, List.flatMap_append]
      simp [Connection.place, Connection.make, Connection.present, Place.tokens, Pairing.tokens]
  refine ⟨?_, ?_, ?_, hacc.addrs h.addrs h.addrs_lt, hacc.addrs_lt h.addrs_lt⟩
  · rw [htokens]
    exact h.nodup
  · rw [htokens]
    exact h.nonneg
  · rw [htokens, hacc.failed.1]
    exact h.sockets

/-! ### A connection is closed -/

theorem closed_isSome {sockets : Int → Option Socket} (hneg : sockets (-1) = none) (fd x : Int) :
    (closed sockets fd x).isSome = true ↔ x ≠ fd ∧ (sockets x).isSome = true := by
  unfold closed
  split
  · rename_i hfd
    constructor
    · intro hx
      refine ⟨?_, hx⟩
      intro heq
      rw [heq, hfd, hneg] at hx
      exact absurd hx (by simp)
    · exact And.right
  · by_cases hx : x = fd
    · simp [hx]
    · rw [Function.update_of_ne hx]
      simp [hx]

theorem closed_neg {sockets : Int → Option Socket} (hneg : sockets (-1) = none) (fd : Int) :
    closed sockets fd (-1) = none := by
  unfold closed
  split
  · exact hneg
  · rename_i hfd
    rw [Function.update_of_ne (Ne.symm hfd)]
    exact hneg

/-- The state after `close_connection`. -/
def without (s : Proxy) (k : Nat) (c : Connection) (next : Pc) : Proxy :=
  { s with
    deletedFds := c.controllerFd :: c.workerFd :: s.deletedFds
    sockets := closed (closed s.sockets c.workerFd) c.controllerFd
    connections := s.connections.eraseIdx k
    pc := next }

theorem Loose.closeConnection {s : Proxy} (h : Loose s) {k : Nat} {c : Connection}
    (hc : s.connections[k]? = some c) (next : Pc) :
    s.closeConnection c next = s.without k c next := by
  have hk := h.findIdx?_addr hc
  unfold Proxy.closeConnection
  simp only [hk, without]

theorem places_without {s : Proxy} {k : Nat} {c : Connection} {next : Pc} :
    (s.without k c next).places = s.places.eraseIdx k := by
  refine List.ext_getElem? ?_
  intro j
  simp only [places, without, List.getElem?_map, List.getElem?_eraseIdx]
  split <;> rfl

theorem Loose.without {s : Proxy} (h : Loose s) {k : Nat} {c : Connection}
    (hc : s.connections[k]? = some c) (next : Pc) : Loose (s.without k c next) := by
  have hplace : s.places[k]? = some c.place := by simp [places, hc]
  have hperm := Pairing.tokens_eraseIdx hplace
  have hnodup := List.nodup_append.mp (hperm.nodup_iff.mp h.nodup)
  have hsub := List.eraseIdx_sublist s.connections k
  refine ⟨?_, ?_, ?_, h.addrs.sublist (hsub.map _), fun x hx => h.addrs_lt x (hsub.subset hx)⟩
  · rw [places_without]
    exact hnodup.2.1
  · intro fd hfd
    rw [places_without] at hfd
    exact h.nonneg fd (hperm.mem_iff.mpr (List.mem_append_right _ hfd))
  · intro fd
    have hneg := h.sockets_neg
    show (closed (closed s.sockets c.workerFd) c.controllerFd fd).isSome = true ↔ _
    rw [closed_isSome (closed_neg hneg _), closed_isSome hneg, h.sockets, hperm.mem_iff,
      List.mem_append, places_without, Connection.mem_tokens]
    constructor
    · rintro ⟨hcontroller, hworker, ⟨hown, -⟩ | hrest⟩
      · exact absurd hown (by simp [hcontroller, hworker])
      · exact hrest
    · intro hrest
      have hother : fd ∉ c.place.tokens := fun hmem => hnodup.2.2 fd hmem fd hrest rfl
      have hne : fd ≠ -1 := by
        have hle := h.nonneg fd (hperm.mem_iff.mpr (List.mem_append_right _ hrest))
        omega
      rw [Connection.mem_tokens] at hother
      refine ⟨fun heq => hother ⟨Or.inr heq, hne⟩, fun heq => hother ⟨Or.inl heq, hne⟩,
        Or.inr hrest⟩

/-! ### Bytes pass through a connection -/

/-- Neither `send` nor `receive` changes who a connection is for. -/
structure SameEnds (c c' : Connection) : Prop where
  addr : c'.addr = c.addr
  workerFd : c'.workerFd = c.workerFd
  controllerFd : c'.controllerFd = c.controllerFd

theorem SameEnds.place {c c' : Connection} (h : SameEnds c c') : c'.place = c.place := by
  rw [Connection.place, Connection.place, h.workerFd, h.controllerFd]

theorem SameEnds.fd {c c' : Connection} (h : SameEnds c c') (side : Side) :
    c'.fd side = c.fd side := by
  cases side with
  | left => exact h.workerFd
  | right => exact h.controllerFd

theorem passed_isSome {sockets : Int → Option Socket} (fd : Int) (rx tx : Bytes) (x : Int) :
    (passed sockets fd rx tx x).isSome = (sockets x).isSome := by
  unfold passed
  by_cases hx : x = fd
  · subst hx
    rw [Function.update_self, Option.isSome_map]
  · rw [Function.update_of_ne hx]

theorem Loose.passed {s : Proxy} (h : Loose s) {k : Nat} {c c' : Connection}
    (hc : s.connections[k]? = some c) (hsame : SameEnds c c') (fd : Int) (rx tx tmp : Bytes)
    (next : Pc) :
    Loose { s with
      connections := s.connections.set k c', tmpBuffer := tmp
      sockets := passed s.sockets fd rx tx, pc := next } := by
  have hplaces : (s.connections.set k c').map Connection.place = s.places :=
    Parts.map_set_of_eq hc hsame.place
  refine ⟨?_, ?_, ?_, ?_, ?_⟩
  · simp only [places, hplaces]
    exact h.nodup
  · simp only [places, hplaces]
    exact h.nonneg
  · intro x
    simp only [places, hplaces, passed_isSome]
    exact h.sockets x
  · simp only [Parts.map_set_of_eq hc hsame.addr]
    exact h.addrs
  · intro x hx
    rcases List.mem_or_eq_of_mem_set hx with hx | rfl
    · exact h.addrs_lt x hx
    · rw [hsame.addr]
      exact h.addrs_lt c (List.mem_of_getElem? hc)

end Proxy

end Distray
