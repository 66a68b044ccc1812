/-
A queue of jobs that may come back.

Jobs are taken from the front, and one that was taken can be put back there, any number
of times.  However that goes, the queue is what has come back followed by the rest of
the original list, so the jobs are first taken in the order of that list, and those that
were ever taken are its beginning.  Nothing is taken more often than the number of
returns accounts for.

That is as much as can be said without knowing who takes jobs and why one comes back.  In
particular a job may come back any number of times, and one that has come back is taken
before those that have not been taken yet.
-/
import Mathlib.Data.List.Basic
import Mathlib.Logic.Relation

structure Returns (α : Type) where
  queue : List α
  /-- What was taken, newest first. -/
  taken : List α
  /-- How often something was lost, and came back if it had to. -/
  lost : Nat

namespace Returns

variable {α : Type}

inductive Step : Returns α → Returns α → Prop
  | take (job : α) (queue taken : List α) (lost : Nat) :
      Step ⟨job :: queue, taken, lost⟩ ⟨queue, job :: taken, lost⟩
  | giveBack (job : α) (queue taken : List α) (lost : Nat) (h : job ∈ taken) :
      Step ⟨queue, taken, lost⟩ ⟨job :: queue, taken, lost + 1⟩
  | lose (queue taken : List α) (lost : Nat) :
      Step ⟨queue, taken, lost⟩ ⟨queue, taken, lost + 1⟩

/-- The first `n` jobs have been taken, and those in `back` have come back. -/
structure Split (jobs : List α) (s : Returns α) (n : Nat) (back : List α) : Prop where
  le : n ≤ jobs.length
  queue : s.queue = back ++ jobs.drop n
  back_mem : ∀ job ∈ back, job ∈ jobs.take n
  taken_iff : ∀ job, job ∈ s.taken ↔ job ∈ jobs.take n
  count : s.taken.length + back.length ≤ n + s.lost

/-- **The order is kept.** -/
def InOrder (jobs : List α) (s : Returns α) : Prop := ∃ n back, Split jobs s n back

theorem InOrder.start (jobs : List α) : InOrder jobs ⟨jobs, [], 0⟩ :=
  ⟨0, [], Nat.zero_le _, rfl, by simp, by simp, by simp⟩

theorem InOrder.step {jobs : List α} {s t : Returns α} (h : InOrder jobs s) (hstep : Step s t) :
    InOrder jobs t := by
  obtain ⟨n, back, hsplit⟩ := h
  have hcount := hsplit.count
  cases hstep with
  | take job queue taken lost =>
      have hqueue := hsplit.queue
      simp only at hqueue hcount
      cases back with
      | cons job' back =>
          -- one that has come back
          rw [List.cons_append, List.cons.injEq] at hqueue
          obtain ⟨rfl, hqueue⟩ := hqueue
          have hjob := hsplit.back_mem job (by simp)
          refine ⟨n, back, hsplit.le, hqueue, fun x hx => hsplit.back_mem x (by simp [hx]), ?_, ?_⟩
          · intro x
            rw [List.mem_cons, hsplit.taken_iff x, or_iff_right_iff_imp]
            rintro rfl
            exact hjob
          · simp only [List.length_cons] at hcount ⊢
            omega
      | nil =>
          -- the next one of the list
          rw [List.nil_append] at hqueue
          have hlt : n < jobs.length := by
            by_contra hle
            rw [List.drop_eq_nil_of_le (Nat.le_of_not_lt hle)] at hqueue
            exact absurd hqueue (by simp)
          rw [List.drop_eq_getElem_cons hlt, List.cons.injEq] at hqueue
          refine ⟨n + 1, [], hlt, hqueue.2, by simp, ?_, ?_⟩
          · intro x
            rw [List.mem_cons, hsplit.taken_iff x, List.take_succ_eq_append_getElem hlt,
              List.mem_append, List.mem_singleton, hqueue.1, or_comm]
          · simp only [List.length_cons, List.length_nil] at hcount ⊢
            omega
  | giveBack job queue taken lost hjob =>
      refine ⟨n, job :: back, hsplit.le, congrArg _ hsplit.queue, ?_, hsplit.taken_iff, ?_⟩
      · intro x hx
        rcases List.mem_cons.mp hx with rfl | hx
        · exact (hsplit.taken_iff x).mp hjob
        · exact hsplit.back_mem x hx
      · simp only [List.length_cons] at hcount ⊢
        omega
  | lose queue taken lost =>
      exact ⟨n, back, hsplit.le, hsplit.queue, hsplit.back_mem, hsplit.taken_iff, by
        simp only at hcount ⊢
        omega⟩

theorem InOrder.run {jobs : List α} {s t : Returns α} (h : InOrder jobs s)
    (hrun : Relation.ReflTransGen Step s t) : InOrder jobs t := by
  induction hrun with
  | refl => exact h
  | tail _ hstep ih => exact ih.step hstep

end Returns
