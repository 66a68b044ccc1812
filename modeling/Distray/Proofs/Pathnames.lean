/-
The check of a pathname commutes with the substitution of parameters.

A parameter is a `%`, digits and a `d`, and what replaces it is digits, so neither has a
dot or a slash in it and neither is empty: two dots that are next to each other in the
expanded name were so in the pattern, and the other way round.  The controller checks the
patterns, once, when it reads its command line; every name that it sends to a worker then
passes the worker's own check.

For a negative number nothing is substituted and the pattern itself is sent, which has passed
the check as it is.  So no number has to be excluded.
-/
import Distray.Proofs.CommandLine
import Distray.Proofs.Scanning
import Distray.Proofs.Script

namespace Distray

/-! ### What stands between two dots -/

/-- Neither a dot nor a slash. -/
def plain (c : UInt8) : Bool := c ≠ '.'.toUInt8 && c ≠ '/'.toUInt8

theorem plain_of_isDigit {c : UInt8} (h : isDigit c = true) : plain c = true := by
  simp only [isDigit, Bool.and_eq_true, decide_eq_true_eq] at h
  simp only [plain, Bool.and_eq_true, decide_eq_true_eq]
  constructor
  · rintro rfl
    exact absurd h (by decide)
  · rintro rfl
    exact absurd h (by decide)

theorem hasDotDot_cons {c : UInt8} (hc : plain c = true) (s : Bytes) :
    hasDotDot (c :: s) = hasDotDot s := by
  have hdot : (c == '.'.toUInt8) = false := by
    simp only [plain, Bool.and_eq_true, decide_eq_true_eq] at hc
    exact beq_eq_false_iff_ne.mpr hc.1
  cases s with
  | nil => rfl
  | cons d s => rw [hasDotDot, hdot, Bool.false_and, Bool.false_or]

/-- Two dots are on one side or the other of a byte that is not a dot. -/
theorem hasDotDot_append {c : UInt8} (hc : plain c = true) (t : Bytes) :
    ∀ s : Bytes, hasDotDot (s ++ c :: t) = (hasDotDot s || hasDotDot t) := by
  have hdot : (c == '.'.toUInt8) = false := by
    simp only [plain, Bool.and_eq_true, decide_eq_true_eq] at hc
    exact beq_eq_false_iff_ne.mpr hc.1
  intro s
  induction s with
  | nil => exact hasDotDot_cons hc t
  | cons a s ih =>
      cases s with
      | nil =>
          show ((a == '.'.toUInt8 && c == '.'.toUInt8) || hasDotDot (c :: t)) = _
          rw [hdot, Bool.and_false, Bool.false_or, hasDotDot_cons hc]
          rfl
      | cons b s =>
          show ((a == '.'.toUInt8 && b == '.'.toUInt8) || hasDotDot (b :: s ++ c :: t)) = _
          rw [ih, ← Bool.or_assoc]
          rfl

theorem hasDotDot_between {m : Bytes} (hne : m ≠ []) (hm : ∀ c ∈ m, plain c = true)
    (s t : Bytes) : hasDotDot (s ++ (m ++ t)) = (hasDotDot s || hasDotDot t) := by
  obtain ⟨c, m, rfl⟩ := List.exists_cons_of_ne_nil hne
  rw [List.cons_append, hasDotDot_append (hm c (by simp))]
  congr 1
  have hrest : ∀ c ∈ m, plain c = true := fun c hc => hm c (List.mem_cons_of_mem _ hc)
  clear hm hne
  induction m with
  | nil => rfl
  | cons c m ih =>
      rw [List.cons_append, hasDotDot_cons (hrest c (by simp))]
      exact ih fun c hc => hrest c (List.mem_cons_of_mem _ hc)

theorem absolute_between {m : Bytes} (hne : m ≠ []) (hm : ∀ c ∈ m, plain c = true) (s t : Bytes) :
    (s ++ (m ++ t))[0]? = some '/'.toUInt8 ↔ s[0]? = some '/'.toUInt8 := by
  cases s with
  | cons c s => rfl
  | nil =>
      obtain ⟨c, m, rfl⟩ := List.exists_cons_of_ne_nil hne
      have hc := hm c (by simp)
      simp only [plain, Bool.and_eq_true, decide_eq_true_eq] at hc
      exact iff_of_false (by simpa using hc.2) (by simp)

theorem isPathnameLocal_between {m : Bytes} (hne : m ≠ []) (hm : ∀ c ∈ m, plain c = true)
    (s t : Bytes) : isPathnameLocal (s ++ (m ++ t)) = (isPathnameLocal s && !hasDotDot t) := by
  unfold isPathnameLocal
  simp only [absolute_between hne hm, hasDotDot_between hne hm]
  by_cases habsolute : s[0]? = some '/'.toUInt8
  · simp [habsolute]
  · cases hasDotDot s <;> simp [habsolute]

/-! ### The check and the substitution

The string is cut at its parameters.  A piece between two of them is the same before and
after, and what stands for a parameter has neither a dot nor a slash at its ends, whether it
is the pattern or the number; so the check finds the same in both.
-/

theorem plain_parameter {m : Bytes} {n : Nat} (h : IsParameter m n) :
    ∀ c ∈ m, plain c = true := by
  obtain ⟨digits, rfl, hdigits, -, -⟩ := isParameter_iff.mp h
  intro c hc
  rcases List.mem_cons.mp hc with rfl | hc
  · decide
  · rcases List.mem_append.mp hc with hc | hc
    · exact plain_of_isDigit (hdigits c hc)
    · rw [List.mem_singleton.mp hc]
      decide

/-- A string with a parameter, cut at both ends of it; and the string that is returned. -/
theorem substitute_cut {s : Bytes} {value : Int} {q : Parameter} (hs : 0 ∉ s)
    (hvalue : 0 ≤ value) (hq : findParameter s = some q) :
    ∃ m : Bytes, m ≠ [] ∧ (∀ c ∈ m, plain c = true) ∧
      s = s.take q.first ++ (m ++ s.drop q.last) ∧
      substituteParameter s value = s.take q.first ++
        (padded value.toNat q.width ++ substituteParameter (s.drop q.last) value) := by
  have hfirst := first_findParameter hs
  rw [hq] at hfirst
  cases hfirst with
  | some _ _ hhere hlast _ =>
      refine ⟨_, by simp, plain_parameter hhere.word, ?_, ?_⟩
      · have hsplit := hhere.split
        rwa [hlast] at hsplit
      · rw [substituteParameter_eq, if_pos hvalue, hq]
        exact List.append_assoc _ _ _

theorem plain_padded (value : Nat) (width : Int) : ∀ c ∈ padded value width, plain c = true :=
  fun c hc => plain_of_isDigit (isDigit_padded value width c hc)

theorem hasDotDot_substituteParameter (value : Int) :
    ∀ (n : Nat) (s : Bytes), s.length ≤ n → 0 ∉ s →
      hasDotDot (substituteParameter s value) = hasDotDot s := by
  intro n
  induction n with
  | zero =>
      intro s hlen _
      rw [List.eq_nil_of_length_eq_zero (Nat.le_zero.mp hlen), substituteParameter_eq]
      split <;> rfl
  | succ n ih =>
      intro s hlen hs
      by_cases hvalue : 0 ≤ value
      · cases hq : findParameter s with
        | none => rw [substituteParameter_eq, if_pos hvalue, hq]
        | some q =>
            obtain ⟨m, hne, hm, htext, hsub⟩ := substitute_cut hs hvalue hq
            have hbounds := findParameter_bounds hq
            have hshort : (s.drop q.last).length ≤ n := by
              rw [List.length_drop]
              omega
            rw [hsub, hasDotDot_between (padded_ne_nil _ _) (plain_padded _ _),
              ih _ hshort (noNul_drop hs _)]
            conv_rhs => rw [htext]
            rw [hasDotDot_between hne hm]
      · rw [substituteParameter_eq, if_neg hvalue]

/-- Substituting neither makes a pathname leave the directory nor keeps it in. -/
theorem isPathnameLocal_substituteParameter {s : Bytes} (hs : 0 ∉ s) (value : Int) :
    isPathnameLocal (substituteParameter s value) = isPathnameLocal s := by
  by_cases hvalue : 0 ≤ value
  · cases hq : findParameter s with
    | none => rw [substituteParameter_eq, if_pos hvalue, hq]
    | some q =>
        obtain ⟨m, hne, hm, htext, hsub⟩ := substitute_cut hs hvalue hq
        rw [hsub, isPathnameLocal_between (padded_ne_nil _ _) (plain_padded _ _),
          hasDotDot_substituteParameter value _ _ (Nat.le_refl _) (noNul_drop hs _)]
        conv_rhs => rw [htext]
        rw [isPathnameLocal_between hne hm]
  · rw [substituteParameter_eq, if_neg hvalue]

/-! ### What is asked of a worker -/

/-- Every handler that looks at a pathname finds it local. -/
def Request.Local (request : Request) : Prop :=
  match request.requestType with
  | .welcome => True
  | .copyIn => isPathnameLocal request.copyInRequest.pathname = true
  | .execute => isPathnameLocal request.executeRequest.executable = true
  | .copyOut => isPathnameLocal request.copyOutRequest.pathname = true

namespace RemoteWorker

variable {codec : Codec} {p : Parameters} {files : Files}

/-- All that has been asked of the worker so far. -/
def AsksLocally (w : RemoteWorker) : Prop := ∀ sent ∈ w.requests, sent.1.Local

theorem AsksLocally.sendRequest {w : RemoteWorker} (h : w.AsksLocally) {request : Request}
    (hrequest : request.Local) (source : Option (Bytes × Bytes)) (next : State) :
    (w.sendRequest codec request source next).AsksLocally := by
  intro sent hsent
  simp only [requests, RemoteWorker.sendRequest, Event.history_cons, Event.request?,
    Option.toList_none, Option.toList_some, List.append_nil, List.mem_append,
    List.mem_singleton] at hsent
  rcases hsent with hsent | rfl
  · exact h sent hsent
  · exact hrequest

theorem isPathnameLocal_of_checked {s : Bytes} (h : CheckedPathname s) (frame : Int) :
    isPathnameLocal (substituteParameter s frame) = true := by
  rw [isPathnameLocal_substituteParameter h.2]
  exact h.1

/-- With parameters that have been checked, a turn asks for nothing else. -/
theorem Turn.asksLocally {w w' : RemoteWorker} (hp : p.Checked) (h : Turn codec p files w w')
    (hw : w.AsksLocally) : w'.AsksLocally := by
  cases h with
  | sendWelcome =>
      refine hw.sendRequest ?_ _ _
      exact trivial
  | inSent hpass hs hcopy =>
      refine hw.sendRequest ?_ _ _
      exact isPathnameLocal_of_checked (hp.ins _ (List.mem_of_getElem? hcopy)) _
  | sendExecute =>
      refine hw.sendRequest ?_ _ _
      exact hp.executable
  | outSent hs hcopy =>
      refine hw.sendRequest ?_ _ _
      exact isPathnameLocal_of_checked (hp.outs _ (List.mem_of_getElem? hcopy)) _
  | welcomed => simpa [AsksLocally, requests, decoded] using hw
  | inSkipped => exact hw
  | inFinished => exact hw
  | inReceived => simpa [AsksLocally, requests, decoded] using hw
  | executed => simpa [AsksLocally, requests, decoded] using hw
  | outSkipped => exact hw
  | outFinished => exact hw
  | outReceived => simpa [AsksLocally, requests, decoded] using hw
  | unimplemented => exact hw

theorem dispatch_asksLocally {w w' : RemoteWorker} (hp : p.Checked)
    (h : w.dispatch codec p files = .ok w') (hw : w.AsksLocally) : w'.AsksLocally :=
  dispatch_invariant (fun _ _ hw hturn => hturn.asksLocally hp hw) h hw

theorem asksLocally_given {w : RemoteWorker} (h : w.AsksLocally) (frame : Int) :
    (w.given frame).AsksLocally := by
  simpa [AsksLocally, requests, given] using h

end RemoteWorker

namespace Session

open RemoteWorker

variable {codec : Codec} {p : Parameters}

theorem asksLocally_of_step {w w' : RemoteWorker} {input : Input} (hp : p.Checked)
    (hw : w.AsksLocally) (h : step codec p w input = some w') : w'.AsksLocally := by
  rcases step_cases h with ⟨b, b', rfl⟩ | ⟨b, files, hdispatch⟩ | ⟨frame, files, -, hdispatch⟩
  · exact hw
  · exact dispatch_asksLocally hp hdispatch hw
  · exact dispatch_asksLocally hp hdispatch (asksLocally_given hw frame)

/-- However a session goes, the worker is only asked for local files and programs. -/
theorem reach_asksLocally {ok : RemoteWorker → Input → Prop} {addr : Nat} {fd : Int}
    {w : RemoteWorker} (hp : p.Checked) (h : (machine codec p addr fd).Reach ok w) :
    w.AsksLocally :=
  Machine.Reach.invariant (P := AsksLocally) (fun _ hsent => absurd hsent List.not_mem_nil)
    (fun _ _ _ hw _ hstep => asksLocally_of_step hp hw hstep) h

end Session

end Distray
