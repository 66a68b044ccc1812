/-
Where the words of a pattern occur in a list, and putting something else in their place.

A pattern is a set of words with what each of them stands for.  Where every word begins
with a mark that it has nowhere else, and at most one word begins any list, the words that
occur in a list stand apart: the list is cut at them into pieces, and putting something in
the place of every word leaves the rest as it was.  What is put there has no mark in it if
the result is to have no more occurrences; and if it is never longer for one choice than
for another, and never the same, then the two results differ however often a word occurs.
-/
import Mathlib.Data.List.Basic
import Mathlib.Data.List.Flatten

namespace Occurrences

variable {α β : Type}

/-- The word `w` stands at position `i`, for `b`. -/
structure Occurs (P : List α → β → Prop) (s : List α) (i : Nat) (w : List α) (b : β) : Prop where
  word : P w b
  here : w <+: s.drop i

/-- Words begin with the mark and go on without it, and none begins another. -/
structure Marked (P : List α → β → Prop) (mark : α) : Prop where
  head : ∀ {w b}, P w b → ∃ tail, w = mark :: tail ∧ mark ∉ tail
  unique : ∀ {w w' b b' s}, P w b → P w' b' → w <+: s → w' <+: s → w = w' ∧ b = b'

section

variable {P : List α → β → Prop} {mark : α} {s w w' : List α} {i j : Nat} {b b' : β}

/-- An occurrence in the rest of a list is one in the list. -/
theorem occurs_drop (n : Nat) : Occurs P (s.drop n) i w b ↔ Occurs P s (n + i) w b := by
  constructor
  · rintro ⟨hword, hhere⟩
    rw [List.drop_drop] at hhere
    exact ⟨hword, hhere⟩
  · rintro ⟨hword, hhere⟩
    rw [← List.drop_drop] at hhere
    exact ⟨hword, hhere⟩

theorem Occurs.split (h : Occurs P s i w b) : s = s.take i ++ (w ++ s.drop (i + w.length)) := by
  obtain ⟨rest, hrest⟩ := h.here
  have hdrop : s.drop (i + w.length) = rest := by
    rw [← List.drop_drop, ← hrest, List.drop_left]
  rw [hdrop, hrest, List.take_append_drop]

theorem Occurs.getElem? (hP : Marked P mark) (h : Occurs P s i w b) : s[i]? = some mark := by
  obtain ⟨tail, rfl, -⟩ := hP.head h.word
  obtain ⟨rest, hrest⟩ := h.here
  have hget : (s.drop i)[0]? = some mark := by
    rw [← hrest]
    rfl
  rwa [List.getElem?_drop] at hget

theorem Occurs.lt_length (hP : Marked P mark) (h : Occurs P s i w b) : i < s.length :=
  (List.getElem?_eq_some_iff.mp (h.getElem? hP)).1

theorem Occurs.unique (hP : Marked P mark) (h : Occurs P s i w b) (h' : Occurs P s i w' b') :
    w = w' ∧ b = b' :=
  hP.unique h.word h'.word h.here h'.here

/-- **Occurrences do not overlap.** -/
theorem Occurs.disjoint (hP : Marked P mark) (h : Occurs P s i w b) (h' : Occurs P s j w' b')
    (hlt : i < j) : i + w.length ≤ j := by
  by_contra hover
  -- the second mark would be inside the first word
  have hmark := h'.getElem? hP
  obtain ⟨tail, rfl, hnot⟩ := hP.head h.word
  obtain ⟨rest, hrest⟩ := h.here
  obtain ⟨k, rfl⟩ : ∃ k, j = i + (k + 1) := ⟨j - i - 1, by omega⟩
  rw [List.length_cons] at hover
  rw [← List.getElem?_drop, ← hrest, List.cons_append, List.getElem?_cons_succ,
    List.getElem?_append_left (by omega)] at hmark
  exact hnot (List.mem_of_getElem? hmark)

end

/-! ### The pieces

A piece is what is kept, and the word that comes after it.  A list is cut rightly if the
words of its pieces are all the occurrences there are: none is missed, and none is found
inside another or across the end of a piece.
-/

/-- A stretch that is kept, and the word after it. -/
structure Piece (α β : Type) where
  kept : List α
  word : List α
  label : β

/-- The pieces put together, with `f` in the place of the words. -/
def joined (f : List α → β → List α) (pieces : List (Piece α β)) (rest : List α) : List α :=
  (pieces.flatMap fun p => p.kept ++ f p.word p.label) ++ rest

/-- Where the words of the pieces come to stand, and what they stand for. -/
def starts : Nat → List (Piece α β) → List (Nat × List α × β)
  | _, [] => []
  | n, p :: pieces =>
      (n + p.kept.length, p.word, p.label) ::
        starts (n + p.kept.length + p.word.length) pieces

/-- The list is cut at every occurrence, and nowhere else. -/
structure Cut (P : List α → β → Prop) (s : List α) (pieces : List (Piece α β))
    (rest : List α) : Prop where
  text : s = joined (fun w _ => w) pieces rest
  occurs : ∀ i w b, Occurs P s i w b ↔ (i, w, b) ∈ starts 0 pieces

@[simp] theorem joined_nil (f : List α → β → List α) (rest : List α) :
    joined f [] rest = rest := rfl

theorem joined_cons (f : List α → β → List α) (p : Piece α β) (pieces : List (Piece α β))
    (rest : List α) :
    joined f (p :: pieces) rest = p.kept ++ (f p.word p.label ++ joined f pieces rest) := by
  simp [joined]

theorem starts_add (m : Nat) (w : List α) (b : β) : ∀ (pieces : List (Piece α β)) (n i : Nat),
    (m + i, w, b) ∈ starts (m + n) pieces ↔ (i, w, b) ∈ starts n pieces := by
  intro pieces
  induction pieces with
  | nil => intro n i; exact iff_of_false List.not_mem_nil List.not_mem_nil
  | cons p pieces ih =>
      intro n i
      have hsum : m + n + p.kept.length = m + (n + p.kept.length) := by omega
      have hnext : m + (n + p.kept.length) + p.word.length
          = m + (n + p.kept.length + p.word.length) := by omega
      unfold starts
      rw [List.mem_cons, List.mem_cons, hsum, hnext, ih]
      simp only [Prod.mk.injEq, Nat.add_left_cancel_iff]

theorem le_of_mem_starts {w : List α} {b : β} : ∀ (pieces : List (Piece α β)) (n i : Nat),
    (i, w, b) ∈ starts n pieces → n ≤ i := by
  intro pieces
  induction pieces with
  | nil => intro n i h; exact absurd h List.not_mem_nil
  | cons p pieces ih =>
      intro n i h
      rcases List.mem_cons.mp h with heq | htail
      · simp only [Prod.mk.injEq] at heq
        omega
      · have hle := ih _ i htail
        omega

section

variable {P : List α → β → Prop} {mark : α} {s w rest : List α} {i : Nat} {b : β}
  {pieces : List (Piece α β)}

theorem cut_nil (h : ∀ i w b, ¬ Occurs P s i w b) : Cut P s [] s where
  text := rfl
  occurs i w b := iff_of_false (h i w b) List.not_mem_nil

/-- After the first occurrence the rest of the list is cut as it is by itself. -/
theorem cut_cons (hP : Marked P mark) (h : Occurs P s i w b)
    (hfirst : ∀ j w' b', j < i → ¬ Occurs P s j w' b')
    (hrest : Cut P (s.drop (i + w.length)) pieces rest) :
    Cut P s (⟨s.take i, w, b⟩ :: pieces) rest where
  text := by
    rw [joined_cons]
    show s = s.take i ++ (w ++ joined (fun w _ => w) pieces rest)
    rw [← hrest.text]
    exact h.split
  occurs j w' b' := by
    have hlen : (s.take i).length = i := by
      rw [List.length_take]
      have hlt := h.lt_length hP
      omega
    unfold starts
    rw [List.mem_cons, hlen, Nat.zero_add]
    constructor
    · intro h'
      rcases Nat.lt_trichotomy j i with hlt | rfl | hgt
      · exact absurd h' (hfirst j w' b' hlt)
      · obtain ⟨rfl, rfl⟩ := h.unique hP h'
        exact Or.inl rfl
      · have hle := h.disjoint hP h' hgt
        obtain ⟨k, rfl⟩ := Nat.exists_eq_add_of_le hle
        have hshift := starts_add (i + w.length) w' b' pieces 0 k
        rw [Nat.add_zero] at hshift
        exact Or.inr (hshift.mpr ((hrest.occurs k w' b').mp ((occurs_drop _).mpr h')))
    · rintro (heq | htail)
      · simp only [Prod.mk.injEq] at heq
        obtain ⟨rfl, rfl, rfl⟩ := heq
        exact h
      · obtain ⟨k, rfl⟩ := Nat.exists_eq_add_of_le (le_of_mem_starts pieces _ _ htail)
        have hshift := starts_add (i + w.length) w' b' pieces 0 k
        rw [Nat.add_zero] at hshift
        exact (occurs_drop _).mp ((hrest.occurs k w' b').mpr (hshift.mp htail))

theorem Cut.ne_nil_iff (h : Cut P s pieces rest) :
    pieces ≠ [] ↔ ∃ i w b, Occurs P s i w b := by
  constructor
  · intro hne
    obtain ⟨p, tail, rfl⟩ := List.exists_cons_of_ne_nil hne
    exact ⟨_, _, _, (h.occurs _ _ _).mpr (List.mem_cons_self)⟩
  · rintro ⟨i, w, b, hoccurs⟩ rfl
    exact absurd ((h.occurs i w b).mp hoccurs) List.not_mem_nil

end

/-! ### Something else in the place of the words -/

section

variable {f g : List α → β → List α} {pieces : List (Piece α β)}

theorem length_joined_le (h : ∀ w b, (f w b).length ≤ (g w b).length) (rest : List α) :
    (joined f pieces rest).length ≤ (joined g pieces rest).length := by
  induction pieces with
  | nil => exact Nat.le_refl _
  | cons p pieces ih =>
      have hhead := h p.word p.label
      rw [joined_cons, joined_cons]
      simp only [List.length_append]
      omega

/--
**Replacements that always differ give results that differ**, where those of one choice
are never longer than those of the other: then nothing can make up for a difference.
-/
theorem joined_ne (hle : ∀ w b, (f w b).length ≤ (g w b).length) (hne : ∀ w b, f w b ≠ g w b)
    (hpieces : pieces ≠ []) (rest : List α) : joined f pieces rest ≠ joined g pieces rest := by
  obtain ⟨p, pieces, rfl⟩ := List.exists_cons_of_ne_nil hpieces
  intro heq
  rw [joined_cons, joined_cons, List.append_cancel_left_eq] at heq
  have hhead := hle p.word p.label
  have htail : (joined f pieces rest).length ≤ (joined g pieces rest).length :=
    length_joined_le hle rest
  have hsum := congrArg List.length heq
  rw [List.length_append, List.length_append] at hsum
  exact hne p.word p.label (List.append_inj_left heq (by omega))

theorem not_mem_joined {a : α} {rest : List α} (hg : a ∉ joined g pieces rest)
    (hf : ∀ w b, a ∉ f w b) : a ∉ joined f pieces rest := by
  induction pieces with
  | nil => exact hg
  | cons p pieces ih =>
      rw [joined_cons, List.mem_append, List.mem_append, not_or, not_or] at hg ⊢
      exact ⟨hg.1, hf p.word p.label, ih hg.2.2⟩

end

/-- **Putting in something else changes the list**, if it does not begin with the mark. -/
theorem Cut.joined_ne {P : List α → β → Prop} {mark : α} {s rest : List α}
    {pieces : List (Piece α β)} (hP : Marked P mark) (h : Cut P s pieces rest)
    (hpieces : pieces ≠ []) {f : List α → β → List α}
    (hf : ∀ w b, ∃ c tail, f w b = c :: tail ∧ c ≠ mark) : joined f pieces rest ≠ s := by
  obtain ⟨p, pieces, rfl⟩ := List.exists_cons_of_ne_nil hpieces
  intro heq
  have hword := ((h.occurs _ _ _).mpr List.mem_cons_self).word
  obtain ⟨tail, htail, -⟩ := hP.head hword
  obtain ⟨c, tail', hc, hne⟩ := hf p.word p.label
  rw [h.text, joined_cons, joined_cons, List.append_cancel_left_eq, hc, htail] at heq
  exact hne (List.cons.inj heq).1

end Occurrences
