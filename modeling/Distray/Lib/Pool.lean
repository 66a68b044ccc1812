/-
A pool of jobs.

Jobs wait in a queue.  Workers come and go; each has at most one job in its hands and
is either busy with it or not.  When a worker is lost, the job in its hands goes back
to the front of the queue — and a worker that is done with its job keeps it in its
hands until it is given the next one, because nothing takes it away.

`Safe` is what survives that: no job is in two places, and none is forgotten.  What
does not survive it is the promise that a job which is done stays done.  It holds for
those runs in which no worker is lost with a done job in its hands, and that is
`Fresh`.

The relation `Step` takes the guard on losing a worker as a parameter, so that both
invariants are about the same pool.
-/
import Mathlib.Data.List.Nodup
import Mathlib.Data.List.Perm.Basic
import Mathlib.Logic.Relation

open scoped List

/-- A worker: the job in its hands, and whether it is busy. -/
structure Slot (α : Type) where
  held : Option α
  busy : Bool

structure Pool (α : Type) where
  queue : List α
  slots : List (Slot α)
  done : List α

namespace Pool

variable {α : Type}

/-- The jobs in the workers' hands. -/
def held (slots : List (Slot α)) : List α := slots.filterMap Slot.held

@[simp] theorem held_nil : held ([] : List (Slot α)) = [] := rfl

@[simp] theorem held_append (l l' : List (Slot α)) : held (l ++ l') = held l ++ held l' :=
  List.filterMap_append

@[simp] theorem held_cons (slot : Slot α) (l : List (Slot α)) :
    held (slot :: l) = slot.held.toList ++ held l := by
  unfold held
  cases h : slot.held with
  | none => simp [h]
  | some f => simp [h]

/-- What can happen to a pool; a worker can be lost where `may` allows it. -/
inductive Step (may : Slot α → Prop) : Pool α → Pool α → Prop
  /-- A worker arrives. -/
  | join (queue : List α) (slots : List (Slot α)) (done : List α) (busy : Bool) :
      Step may ⟨queue, slots, done⟩ ⟨queue, slots ++ [⟨none, busy⟩], done⟩
  /-- A busy worker becomes available without having had a job. -/
  | settle (queue : List α) (before after : List (Slot α)) (done : List α) :
      Step may ⟨queue, before ++ ⟨none, true⟩ :: after, done⟩
        ⟨queue, before ++ ⟨none, false⟩ :: after, done⟩
  /-- A worker is done with its job, which stays in its hands. -/
  | finish (queue : List α) (before after : List (Slot α)) (done : List α) (job : α) :
      Step may ⟨queue, before ++ ⟨some job, true⟩ :: after, done⟩
        ⟨queue, before ++ ⟨some job, false⟩ :: after, job :: done⟩
  /-- A worker is lost. -/
  | drop (queue : List α) (before after : List (Slot α)) (done : List α) (slot : Slot α)
      (h : may slot) :
      Step may ⟨queue, before ++ slot :: after, done⟩
        ⟨slot.held.toList ++ queue, before ++ after, done⟩
  /-- A worker that is not busy is given the job at the front. -/
  | assign (job : α) (queue : List α) (before after : List (Slot α)) (done : List α)
      (held : Option α) :
      Step may ⟨job :: queue, before ++ ⟨held, false⟩ :: after, done⟩
        ⟨queue, before ++ ⟨some job, true⟩ :: after, done⟩

/-! ### No job is in two places, and none is forgotten

A job is in the queue, in the hands of a worker that is busy with it, or done; and what a
worker that is not busy has in its hands is something that is done.  Each step moves one job
between the queue and the hands of one worker, which only permutes the two lists together.
-/

/-- A busy worker has the job in its hands. -/
def Working (slots : List (Slot α)) (job : α) : Prop := ⟨some job, true⟩ ∈ slots

structure Safe (jobs : List α) (s : Pool α) : Prop where
  nodup : (s.queue ++ held s.slots).Nodup
  /-- What a worker that is not busy has in its hands is done. -/
  stale : ∀ job, ⟨some job, false⟩ ∈ s.slots → job ∈ s.done
  cover : ∀ job ∈ jobs, job ∈ s.done ∨ job ∈ s.queue ∨ Working s.slots job

theorem Safe.start {jobs : List α} (h : jobs.Nodup) : Safe jobs ⟨jobs, [], []⟩ where
  nodup := by simpa using h
  stale := by simp
  cover job hjob := Or.inr (Or.inl hjob)

/-- A worker that is not the one that changed is still there. -/
private theorem mem_swap {a x y : Slot α} {before after : List (Slot α)}
    (h : a ∈ before ++ x :: after) (hne : a ≠ x) : a ∈ before ++ y :: after := by
  rcases List.mem_append.mp h with h | h
  · exact List.mem_append_left _ h
  · rcases List.mem_cons.mp h with h | h
    · exact absurd h hne
    · exact List.mem_append_right _ (List.mem_cons_of_mem _ h)

private theorem mem_insert {a x : Slot α} {before after : List (Slot α)}
    (h : a ∈ before ++ after) : a ∈ before ++ x :: after := by
  rcases List.mem_append.mp h with h | h
  · exact List.mem_append_left _ h
  · exact List.mem_append_right _ (List.mem_cons_of_mem _ h)

private theorem mem_remove {a x : Slot α} {before after : List (Slot α)}
    (h : a ∈ before ++ x :: after) : a = x ∨ a ∈ before ++ after := by
  rcases List.mem_append.mp h with h | h
  · exact Or.inr (List.mem_append_left _ h)
  · rcases List.mem_cons.mp h with h | h
    · exact Or.inl h
    · exact Or.inr (List.mem_append_right _ h)

/-- The job in a lost worker's hands moves over the queue and the hands before it. -/
private theorem perm_drop (queue : List α) (before after : List (Slot α)) (slot : Slot α) :
    slot.held.toList ++ queue ++ held (before ++ after)
      ~ queue ++ held (before ++ slot :: after) := by
  simp only [held_append, held_cons]
  calc slot.held.toList ++ queue ++ (held before ++ held after)
      = slot.held.toList ++ (queue ++ held before) ++ held after := by
        simp only [List.append_assoc]
    _ ~ queue ++ held before ++ slot.held.toList ++ held after :=
        List.perm_append_comm.append_right _
    _ = queue ++ (held before ++ (slot.held.toList ++ held after)) := by
        simp only [List.append_assoc]

/-- A job that is handed out moves from the front of the queue into a worker's hands. -/
private theorem perm_assign (job : α) (queue : List α) (before after : List (Slot α)) :
    queue ++ held (before ++ ⟨some job, true⟩ :: after)
      ~ job :: queue ++ held (before ++ after) := by
  simp only [held_append, held_cons, Option.toList_some]
  calc queue ++ (held before ++ ([job] ++ held after))
      = (queue ++ held before) ++ job :: held after := by
        simp only [List.append_assoc, List.singleton_append]
    _ ~ job :: ((queue ++ held before) ++ held after) := List.perm_middle
    _ = job :: queue ++ (held before ++ held after) := by
        simp only [List.cons_append, List.append_assoc]

/-- **Whatever happens, the pool stays safe.** -/
theorem Safe.step {jobs : List α} {may : Slot α → Prop} {s t : Pool α} (hs : Safe jobs s)
    (h : Step may s t) : Safe jobs t := by
  obtain ⟨hnodup, hstale, hcover⟩ := hs
  cases h with
  | join queue slots done busy =>
      refine ⟨by simpa using hnodup, fun job h => hstale job (by simpa using h), ?_⟩
      intro job hjob
      rcases hcover job hjob with h | h | h
      · exact Or.inl h
      · exact Or.inr (Or.inl h)
      · exact Or.inr (Or.inr (List.mem_append_left _ h))
  | settle queue before after done =>
      refine ⟨by simpa using hnodup, fun job h => hstale job (mem_swap h (by simp)), ?_⟩
      intro job hjob
      rcases hcover job hjob with h | h | h
      · exact Or.inl h
      · exact Or.inr (Or.inl h)
      · exact Or.inr (Or.inr (mem_swap h (by simp)))
  | finish queue before after done job =>
      refine ⟨by simpa using hnodup, ?_, ?_⟩
      · intro job' h
        by_cases heq : job' = job
        · exact heq ▸ List.mem_cons_self
        · exact List.mem_cons_of_mem _ (hstale job' (mem_swap h (by simp [heq])))
      · intro job' hjob
        rcases hcover job' hjob with h | h | h
        · exact Or.inl (List.mem_cons_of_mem _ h)
        · exact Or.inr (Or.inl h)
        · by_cases heq : job' = job
          · exact Or.inl (heq ▸ List.mem_cons_self)
          · exact Or.inr (Or.inr (mem_swap h (by simp [heq])))
  | drop queue before after done slot =>
      refine ⟨(perm_drop queue before after slot).nodup_iff.mpr hnodup,
        fun job h => hstale job (mem_insert h), ?_⟩
      intro job hjob
      rcases hcover job hjob with h | h | h
      · exact Or.inl h
      · exact Or.inr (Or.inl (List.mem_append_right _ h))
      · rcases mem_remove h with rfl | h
        · exact Or.inr (Or.inl (by simp))
        · exact Or.inr (Or.inr h)
  | assign job queue before after done hand =>
      have hsub : (job :: queue ++ held (before ++ after)).Nodup := by
        refine hnodup.sublist ((List.Sublist.refl _).append ?_)
        exact ((List.Sublist.refl _).append (List.sublist_cons_self _ _)).filterMap _
      refine ⟨(perm_assign job queue before after).nodup_iff.mpr hsub,
        fun job' h => hstale job' (mem_swap h (by simp)), ?_⟩
      intro job' hjob
      rcases hcover job' hjob with h | h | h
      · exact Or.inl h
      · rcases List.mem_cons.mp h with rfl | h
        · exact Or.inr (Or.inr (by simp [Working]))
        · exact Or.inr (Or.inl h)
      · exact Or.inr (Or.inr (mem_swap h (by simp)))

theorem Safe.run {jobs : List α} {may : Slot α → Prop} {s t : Pool α} (hs : Safe jobs s)
    (h : Relation.ReflTransGen (Step may) s t) : Safe jobs t := by
  induction h with
  | refl => exact hs
  | tail _ hstep ih => exact ih.step hstep

/-- Two different workers never have the same job in their hands. -/
theorem Safe.unique {jobs : List α} {s : Pool α} (hs : Safe jobs s) {i j : Nat}
    {a b : Slot α} {c : α} (hi : s.slots[i]? = some a) (hj : s.slots[j]? = some b)
    (ha : a.held = some c) (hb : b.held = some c) : i = j := by
  have hnodup : (held s.slots).Nodup := (List.nodup_append.mp hs.nodup).2.1
  clear hs
  generalize s.slots = slots at hi hj hnodup
  induction slots generalizing i j with
  | nil => simp at hi
  | cons head rest ih =>
      rw [held_cons] at hnodup
      obtain ⟨-, hrest, hdisjoint⟩ := List.nodup_append.mp hnodup
      -- a job in the first worker's hands is in no other's
      have hfirst : ∀ {k : Nat} {a : Slot α}, rest[k]? = some a → a.held = some c →
          head.held = some c → False := by
        intro k a hk ha hhead
        have hmem : c ∈ held rest := List.mem_filterMap.mpr ⟨a, List.mem_of_getElem? hk, ha⟩
        exact hdisjoint c (by simp [hhead]) c hmem rfl
      cases i with
      | zero =>
          rw [List.getElem?_cons_zero, Option.some.injEq] at hi
          cases j with
          | zero => rfl
          | succ j =>
              rw [List.getElem?_cons_succ] at hj
              exact (hfirst hj hb (hi ▸ ha)).elim
      | succ i =>
          rw [List.getElem?_cons_succ] at hi
          cases j with
          | zero =>
              rw [List.getElem?_cons_zero, Option.some.injEq] at hj
              exact (hfirst hi ha (hj ▸ hb)).elim
          | succ j =>
              rw [List.getElem?_cons_succ] at hj
              exact congrArg Nat.succ (ih hi hj hrest)

/-- **When nothing waits and nobody is busy, everything is done.** -/
theorem Safe.all_done {jobs : List α} {s : Pool α} (hs : Safe jobs s) (hqueue : s.queue = [])
    (hbusy : ∀ slot ∈ s.slots, slot.busy = false) : ∀ job ∈ jobs, job ∈ s.done := by
  intro job hjob
  rcases hs.cover job hjob with h | h | h
  · exact h
  · rw [hqueue] at h
    exact absurd h (by simp)
  · exact absurd (hbusy _ h) (by simp)

/-! ### What is done stays done

A job that is done can only come back with a worker that has it in its hands and is not busy
with it.  If no such worker is lost, what is done is never in the queue again, and nobody is
busy with it again.
-/

/-- A worker that is not busy and has a job in its hands must not be lost. -/
def Careful (slot : Slot α) : Prop := slot.busy = true ∨ slot.held = none

structure Fresh (jobs : List α) (s : Pool α) : Prop extends Safe jobs s where
  queue_fresh : ∀ job ∈ s.done, job ∉ s.queue
  hands_fresh : ∀ job ∈ s.done, ¬ Working s.slots job

theorem Fresh.start {jobs : List α} (h : jobs.Nodup) : Fresh jobs ⟨jobs, [], []⟩ :=
  ⟨Safe.start h, by simp, by simp⟩

/-- A worker with the job in its hands, and the job in the queue as well: impossible. -/
private theorem not_queued_of_working {jobs : List α} {s : Pool α} (hs : Safe jobs s) {job : α}
    (h : Working s.slots job) : job ∉ s.queue := by
  intro hqueue
  have hheld : job ∈ held s.slots := List.mem_filterMap.mpr ⟨_, h, rfl⟩
  exact (List.nodup_append.mp hs.nodup).2.2 job hqueue job hheld rfl

/-- **A careful pool never has a done job to do again.** -/
theorem Fresh.step {jobs : List α} {s t : Pool α} (hs : Fresh jobs s)
    (h : Step Careful s t) : Fresh jobs t := by
  have hsafe := hs.toSafe.step h
  refine ⟨hsafe, ?_, ?_⟩
  · cases h with
    | join | settle => exact hs.queue_fresh
    | finish queue before after done job =>
        intro job' hjob
        rcases List.mem_cons.mp hjob with rfl | hjob
        · exact not_queued_of_working hs.toSafe (by simp [Working])
        · exact hs.queue_fresh job' hjob
    | drop queue before after done slot hmay =>
        intro job hjob hmem
        rcases List.mem_append.mp hmem with hmem | hmem
        · obtain ⟨held, busy⟩ := slot
          simp only [Option.mem_toList] at hmem
          subst hmem
          rcases hmay with rfl | h
          · exact hs.hands_fresh job hjob (by simp [Working])
          · exact absurd h (by simp)
        · exact hs.queue_fresh job hjob hmem
    | assign job queue before after done hand =>
        intro job' hjob hmem
        exact hs.queue_fresh job' hjob (List.mem_cons_of_mem _ hmem)
  · cases h with
    | join queue slots done busy =>
        intro job hjob hmem
        exact hs.hands_fresh job hjob (by simpa [Working] using hmem)
    | settle queue before after done =>
        intro job hjob hmem
        exact hs.hands_fresh job hjob (mem_swap hmem (by simp))
    | finish queue before after done job =>
        intro job' hjob hmem
        rcases List.mem_cons.mp hjob with rfl | hjob
        · -- no second worker had it in its hands
          have hnodup := (List.nodup_append.mp hs.nodup).2.1
          simp only [held_append, held_cons, Option.toList_some, List.singleton_append] at hnodup
          rcases mem_remove hmem with h | h
          · exact absurd h (by simp)
          · have hheld : job' ∈ held (before ++ after) := List.mem_filterMap.mpr ⟨_, h, rfl⟩
            rw [held_append] at hheld
            exact (List.nodup_cons.mp (List.nodup_middle.mp hnodup)).1 hheld
        · exact hs.hands_fresh job' hjob (mem_swap hmem (by simp))
    | drop queue before after done slot =>
        intro job hjob hmem
        exact hs.hands_fresh job hjob (mem_insert hmem)
    | assign job queue before after done hand =>
        intro job' hjob hmem
        by_cases heq : job' = job
        · exact hs.queue_fresh job' hjob (heq ▸ List.mem_cons_self)
        · exact hs.hands_fresh job' hjob (mem_swap hmem (by simp [heq]))

theorem Fresh.run {jobs : List α} {s t : Pool α} (hs : Fresh jobs s)
    (h : Relation.ReflTransGen (Step Careful) s t) : Fresh jobs t := by
  induction h with
  | refl => exact hs
  | tail _ hstep ih => exact ih.step hstep

end Pool
