/-
A chain of queues between two ends.

What the near end puts in goes to the back of the last queue, what the far end takes
comes from the front of the first, and in between each queue hands any number of its
front elements to the one before it, at any time.  Nobody at either end can tell such
a chain from a single queue: all that matters is `stream`, the concatenation, and
handing on does not change it.
-/
import Mathlib.Data.List.Basic

/-- The queues, the one next to the far end first. -/
abbrev Chain (α : Type) := List (List α)

namespace Chain

variable {α : Type}

/-- Everything under way, in the order it will come out. -/
def stream (c : Chain α) : List α := c.flatten

/-- A chain of so many queues, and one. -/
def empty (n : Nat) : Chain α := List.replicate (n + 1) []

@[simp] theorem stream_empty (n : Nat) : (empty n : Chain α).stream = [] := by
  simp [stream, empty]

/-- Put elements in. -/
def put : Chain α → List α → Chain α
  | [], l => [l]
  | [q], l => [q ++ l]
  | q :: q' :: rest, l => q :: put (q' :: rest) l

/-- Queue `k + 1` hands so many elements to queue `k`. -/
def forward : Nat → Nat → Chain α → Chain α
  | 0, n, q :: q' :: rest => (q ++ q'.take n) :: q'.drop n :: rest
  | k + 1, n, q :: rest => q :: forward k n rest
  | _, _, c => c

/-- Take elements out, if they are at the front. -/
def take [DecidableEq α] (l : List α) : Chain α → Option (Chain α)
  | [] => if l = [] then some [] else none
  | q :: rest => if l <+: q then some (q.drop l.length :: rest) else none

@[simp] theorem stream_put (c : Chain α) (l : List α) : (c.put l).stream = c.stream ++ l := by
  unfold stream
  induction c with
  | nil => simp [put]
  | cons q rest ih =>
      -- only the last queue receives anything
      cases rest with
      | nil => simp [put]
      | cons q' rest =>
          show q ++ (put (q' :: rest) l).flatten = q ++ (q' :: rest).flatten ++ l
          rw [ih, List.append_assoc]

/-- **Handing on changes nothing that can be seen.** -/
@[simp] theorem stream_forward (k n : Nat) (c : Chain α) : (c.forward k n).stream = c.stream := by
  unfold stream
  induction k, n, c using forward.induct with
  | case1 n q q' rest =>
      simp only [forward, List.flatten_cons, ← List.append_assoc]
      rw [List.append_assoc q, List.take_append_drop]
  | case2 k n q rest ih => simp only [forward, List.flatten_cons, ih]
  | case3 => simp [forward]

theorem stream_take [DecidableEq α] {l : List α} {c c' : Chain α} (h : take l c = some c') :
    c.stream = l ++ c'.stream := by
  unfold take at h
  split at h
  · split at h
    · rename_i hl
      rw [Option.some.injEq] at h
      simp [← h, hl, stream]
    · exact absurd h (by simp)
  · rename_i q rest
    split at h
    · rename_i hpre
      rw [Option.some.injEq] at h
      obtain ⟨t, rfl⟩ := hpre
      rw [← h, List.drop_left]
      simp [stream]
    · exact absurd h (by simp)

/-! ### How far there is to go

An element counts once for each queue that it has still to leave.  Handing on makes this
sum smaller whenever it changes the chain at all, and what is put in at the back has all the
queues before it.
-/

/-- How often the elements have to be handed on, or taken out, until all of them are out. -/
def distance : Chain α → Nat
  | [] => 0
  | q :: rest => (stream (q :: rest)).length + distance rest

@[simp] theorem length_forward (k n : Nat) (c : Chain α) : (c.forward k n).length = c.length := by
  induction k, n, c using forward.induct with
  | case1 n q q' rest => rfl
  | case2 k n q rest ih => rw [forward, List.length_cons, List.length_cons, ih]
  | case3 => simp [forward]

theorem distance_forward {k n : Nat} {c : Chain α} (h : c.forward k n ≠ c) :
    (c.forward k n).distance < c.distance := by
  induction k, n, c using forward.induct with
  | case1 n q q' rest =>
      have hstream : stream ((q ++ q'.take n) :: q'.drop n :: rest) = stream (q :: q' :: rest) :=
        stream_forward 0 n (q :: q' :: rest)
      have hmoved : (q'.drop n).length < q'.length := by
        rw [List.length_drop]
        rcases Nat.eq_zero_or_pos (min n q'.length) with hzero | hpos
        · refine absurd ?_ h
          rcases Nat.min_eq_zero_iff.mp hzero with rfl | hlen
          · simp [forward]
          · simp [forward, List.eq_nil_of_length_eq_zero hlen]
        · omega
      show distance ((q ++ q'.take n) :: q'.drop n :: rest) < distance (q :: q' :: rest)
      simp only [distance, hstream]
      simp only [stream, List.flatten_cons, List.length_append] at hmoved ⊢
      omega
  | case2 k n q rest ih =>
      have hrest : forward k n rest ≠ rest := by
        intro heq
        exact h (by rw [forward, heq])
      have hlower := ih hrest
      have hstream := stream_forward k n rest
      show distance (q :: forward k n rest) < distance (q :: rest)
      simp only [distance, stream, List.flatten_cons, List.length_append] at hstream ⊢
      rw [hstream]
      omega
  | case3 k n c hfirst hsecond => exact absurd (by simp [forward]) h

/-- How many queues there are for what is put in; where there are none, it makes one. -/
def queues (c : Chain α) : Nat := c.length - 1 + 1

theorem distance_put (c : Chain α) (l : List α) :
    (c.put l).distance = c.distance + c.queues * l.length := by
  induction c with
  | nil => simp [put, distance, stream, queues]
  | cons q rest ih =>
      cases rest with
      | nil => simp [put, distance, stream, queues]
      | cons q' rest =>
          have hstream := stream_put (q' :: rest) l
          show distance (q :: put (q' :: rest) l) = _
          rw [distance, distance, ih]
          simp only [stream, List.flatten_cons, List.length_append, List.length_cons, queues,
            Nat.add_sub_cancel] at hstream ⊢
          rw [hstream]
          simp only [List.length_append, Nat.add_mul]
          omega

theorem queues_put (c : Chain α) (l : List α) : (c.put l).queues = c.queues := by
  induction c with
  | nil => rfl
  | cons q rest ih =>
      cases rest with
      | nil => rfl
      | cons q' rest =>
          show (put (q' :: rest) l).length + 1 - 1 + 1 = (q :: q' :: rest).length - 1 + 1
          have hpos : 0 < (put (q' :: rest) l).length := by
            cases rest <;> simp [put]
          simp only [queues, List.length_cons] at ih ⊢
          omega

@[simp] theorem queues_forward (k n : Nat) (c : Chain α) : (c.forward k n).queues = c.queues := by
  rw [queues, length_forward, queues]

theorem distance_take [DecidableEq α] {l : List α} {c c' : Chain α} (h : take l c = some c')
    (hne : l ≠ []) : c'.distance < c.distance := by
  unfold take at h
  split at h
  · rw [if_neg hne] at h
    exact absurd h (by simp)
  · rename_i q rest
    split at h
    · rename_i hpre
      rw [Option.some.injEq] at h
      obtain ⟨t, rfl⟩ := hpre
      rw [← h, List.drop_left]
      have hpos := List.length_pos_iff.mpr hne
      simp only [distance, stream, List.flatten_cons, List.length_append]
      omega
    · exact absurd h (by simp)

/-- Something can be handed on, or everything is in the first queue. -/
theorem exists_forward (c : Chain α) :
    (∃ k, c.forward k 1 ≠ c) ∨ ∃ rest, c = c.stream :: rest ∨ c = [] := by
  induction c with
  | nil => exact Or.inr ⟨[], Or.inr rfl⟩
  | cons q rest ih =>
      cases rest with
      | nil => exact Or.inr ⟨[], Or.inl (by simp [stream])⟩
      | cons q' rest =>
          cases q' with
          | cons a q' =>
              refine Or.inl ⟨0, ?_⟩
              intro heq
              have hlen := congrArg (fun c => (c.headD []).length) heq
              simp [forward] at hlen
          | nil =>
              rcases ih with ⟨k, hk⟩ | ⟨rest', hall | hnil⟩
              · refine Or.inl ⟨k + 1, ?_⟩
                intro heq
                rw [forward, List.cons.injEq] at heq
                exact hk heq.2
              · -- the second queue is empty and holds all of the rest
                rw [List.cons.injEq] at hall
                refine Or.inr ⟨[] :: rest, Or.inl ?_⟩
                have hrest : stream ([] :: rest) = [] := hall.1.symm
                simp only [stream, List.flatten_cons, List.nil_append] at hrest ⊢
                rw [hrest, List.append_nil]
              · exact absurd hnil (by simp)

end Chain
