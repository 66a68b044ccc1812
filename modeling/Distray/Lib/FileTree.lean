/-
Trees of files, and the names in them.

A file is not its name.  The tree is a list of nodes that only grows, and a directory
says which of them its entries are, so a file that is renamed, removed or reached by two
names is still the same file; there are no symbolic links, and the entries are all there
is to follow.

A path is walked component by component, `..` going back to where the walk came from.
A walk that goes back from where it began has left the tree, and whether it does can be
seen from the path alone, by counting.
-/
import Mathlib.Data.List.Basic

/-! ### Paths

Whether a path leads out of the tree does not depend on the tree.  A walk goes down one
level for each name and up one for each `..`, so it is inside as long as it has gone up no
more often than down; and a path that has no two dots next to each other never goes up.
-/

/-- What one component of a path does to a walk. -/
inductive PathStep (α : Type)
  /-- Nothing: the component is empty, or a single dot. -/
  | stay
  /-- Back to the directory above: two dots. -/
  | up
  | down (name : List α)
deriving DecidableEq, Repr

namespace PathStep

variable {α : Type}

def ups (steps : List (PathStep α)) : Nat := steps.countP fun step => step matches .up

def downs (steps : List (PathStep α)) : Nat := steps.countP fun step => step matches .down _

/-- At no point of the path have there been more steps up than steps down. -/
def Inside (steps : List (PathStep α)) : Prop :=
  ∀ before, before <+: steps → ups before ≤ downs before

theorem inside_of_ups {steps : List (PathStep α)} (h : ∀ step ∈ steps, step ≠ .up) :
    Inside steps := by
  intro before hbefore
  have hnone : ups before = 0 := by
    refine List.countP_eq_zero.mpr ?_
    intro step hstep hup
    have hne := h step (hbefore.subset hstep)
    cases step with
    | up => exact hne rfl
    | _ => exact absurd hup (by simp)
  rw [hnone]
  exact Nat.zero_le _

theorem infix_intercalate (separator : α) {component : List α} :
    ∀ {components : List (List α)}, component ∈ components →
      component <:+: [separator].intercalate components := by
  intro components
  induction components with
  | nil => intro h; exact absurd h (by simp)
  | cons first rest ih =>
      intro h
      cases rest with
      | nil =>
          obtain rfl := List.mem_singleton.mp h
          simp
      | cons second rest =>
          rw [List.intercalate_cons_cons]
          rcases List.mem_cons.mp h with rfl | h
          · rw [List.append_assoc]
            exact (List.prefix_append _ _).isInfix
          · exact (ih h).trans (List.suffix_append _ _).isInfix

variable [DecidableEq α]

def ofComponent (dot : α) (component : List α) : PathStep α :=
  if component = [] ∨ component = [dot] then .stay
  else if component = [dot, dot] then .up
  else .down component

/-- The steps of a path. -/
def ofPath (separator dot : α) (path : List α) : List (PathStep α) :=
  (path.splitOn separator).map (ofComponent dot)

theorem infix_of_mem_splitOn {separator : α} {path component : List α}
    (h : component ∈ path.splitOn separator) : component <:+: path := by
  have hpart := infix_intercalate separator h
  rwa [List.intercalate_splitOn] at hpart

/-- A path without two dots one after the other stays inside. -/
theorem inside_ofPath {separator dot : α} {path : List α} (h : ¬ [dot, dot] <:+: path) :
    Inside (ofPath separator dot path) := by
  refine inside_of_ups ?_
  intro step hstep hup
  obtain ⟨component, hcomponent, rfl⟩ := List.mem_map.mp hstep
  unfold ofComponent at hup
  split at hup
  · exact absurd hup (by simp)
  · split at hup
    · rename_i hdots
      exact h (hdots ▸ infix_of_mem_splitOn hcomponent)
    · exact absurd hup (by simp)

end PathStep

/-! ### The tree -/

/-- A file or a directory, with its mode. -/
inductive FileTree.Node (α β μ : Type)
  | file (content : β) (mode : μ)
  | directory (entries : List (List α × Nat)) (mode : μ)
deriving DecidableEq, Repr

namespace FileTree.Node

variable {α β μ : Type}

/-- A file with other content; its mode stays. -/
def withContent (content : β) : Node α β μ → Node α β μ
  | .file _ mode => .file content mode
  | .directory entries mode => .directory entries mode

/-- A directory with one more entry. -/
def withEntry (name : List α) (id : Nat) : Node α β μ → Node α β μ
  | .file content mode => .file content mode
  | .directory entries mode => .directory ((name, id) :: entries) mode

end FileTree.Node

structure FileTree (α β μ : Type) where
  nodes : List (FileTree.Node α β μ)
  /-- The directory that walks begin in. -/
  root : Nat
deriving DecidableEq, Repr

namespace FileTree

variable {α β μ : Type}

/-! ### What is in the files

A file is the number of its node.  Writing to it changes the content of that node and
leaves every other as it was, and a file that is created gets a number that none had before.
-/

/-- The file with this number has this content and this mode. -/
def Holds (t : FileTree α β μ) (id : Nat) (content : β) (mode : μ) : Prop :=
  t.nodes[id]? = some (.file content mode)

theorem Holds.unique {t : FileTree α β μ} {id : Nat} {content content' : β} {mode mode' : μ}
    (h : t.Holds id content mode) (h' : t.Holds id content' mode') :
    content = content' ∧ mode = mode' := by
  have hnode := h.symm.trans h'
  rw [Option.some.injEq] at hnode
  exact Node.file.inj hnode

/-- Give a file other content; its mode stays. -/
def overwrite (t : FileTree α β μ) (id : Nat) (content : β) : FileTree α β μ :=
  { t with nodes := t.nodes.modify id (Node.withContent content) }

/-- A new file in a directory. -/
def create (t : FileTree α β μ) (directory : Nat) (name : List α) (content : β) (mode : μ) :
    FileTree α β μ :=
  { t with
    nodes := t.nodes.modify directory (Node.withEntry name t.nodes.length)
      ++ [.file content mode] }

theorem overwrite_same {t : FileTree α β μ} {id : Nat} {old content : β} {mode : μ}
    (h : t.Holds id old mode) : (t.overwrite id content).Holds id content mode := by
  unfold Holds at h ⊢
  simp [overwrite, Node.withContent, h]

theorem overwrite_other {t : FileTree α β μ} {id other : Nat} {content content' : β} {mode : μ}
    (h : t.Holds other content' mode) (hne : other ≠ id) :
    (t.overwrite id content).Holds other content' mode := by
  unfold Holds at h ⊢
  simp [overwrite, h, Ne.symm hne]

theorem create_old {t : FileTree α β μ} {directory id : Nat} {name : List α}
    {content content' : β} {mode mode' : μ} (h : t.Holds id content' mode') :
    (t.create directory name content mode).Holds id content' mode' := by
  unfold Holds at h ⊢
  have hlt : id < t.nodes.length := (List.getElem?_eq_some_iff.mp h).1
  unfold create
  rw [List.getElem?_append_left (by simpa using hlt), List.getElem?_modify, h]
  split <;> rfl

theorem create_new (t : FileTree α β μ) (directory : Nat) (name : List α) (content : β)
    (mode : μ) : (t.create directory name content mode).Holds t.nodes.length content mode := by
  unfold Holds create
  rw [List.getElem?_append_right (by simp)]
  simp

end FileTree

/-! ### Walking -/

/-- Where a path leads. -/
inductive FileTree.Lookup (α : Type)
  | found (id : Nat)
  /-- There is no such entry in the last directory. -/
  | missing (directory : Nat) (name : List α)
  /-- There is no such entry before that. -/
  | absent
  /-- Something on the way is not a directory. -/
  | notDirectory
  /-- The walk has left the tree. -/
  | outside
deriving DecidableEq, Repr

namespace FileTree

variable {α β μ : Type} [DecidableEq α]

/-- Walk from a directory, the directories above it listed from the nearest on. -/
def walk (t : FileTree α β μ) : List Nat → Nat → List (PathStep α) → Lookup α
  | _, id, [] => .found id
  | above, id, step :: rest =>
      match t.nodes[id]? with
      | some (.directory entries _) =>
          match step with
          | .stay => t.walk above id rest
          | .up =>
              match above with
              | [] => .outside
              | parent :: above => t.walk above parent rest
          | .down name =>
              match entries.lookup name with
              | some child => t.walk (id :: above) child rest
              | none => if rest = [] then .missing id name else .absent
      | _ => .notDirectory

/-- Where a path leads from the root; the empty path leads nowhere. -/
def lookup (separator dot : α) (t : FileTree α β μ) (path : List α) : Lookup α :=
  if path = [] then .absent else t.walk [] t.root (PathStep.ofPath separator dot path)

/-- **A path that stays inside does not leave the tree, whatever is in it.** -/
theorem walk_ne_outside (t : FileTree α β μ) :
    ∀ (steps : List (PathStep α)) (above : List Nat) (id : Nat),
      (∀ before, before <+: steps →
        PathStep.ups before ≤ above.length + PathStep.downs before) →
      t.walk above id steps ≠ .outside := by
  intro steps
  induction steps with
  | nil => intro above id _; simp [walk]
  | cons step rest ih =>
      intro above id h
      have hrest : ∀ before, before <+: rest →
          PathStep.ups (step :: before) ≤ above.length + PathStep.downs (step :: before) :=
        fun before hbefore => h _ (List.cons_prefix_cons.mpr ⟨rfl, hbefore⟩)
      unfold walk
      split
      · rename_i entries mode hnode
        cases step with
        | stay =>
            refine ih above id ?_
            intro before hbefore
            simpa [PathStep.ups, PathStep.downs] using hrest before hbefore
        | up =>
            cases above with
            | nil =>
                have hup := hrest [] (List.nil_prefix)
                exact absurd hup (by simp [PathStep.ups, PathStep.downs])
            | cons parent above =>
                refine ih above parent ?_
                intro before hbefore
                have hup := hrest before hbefore
                simp only [PathStep.ups, PathStep.downs, List.countP_cons, List.length_cons]
                  at hup ⊢
                simp at hup
                omega
        | down name =>
            cases hname : entries.lookup name with
            | none =>
                simp only [hname]
                split <;> simp
            | some child =>
                simp only [hname]
                refine ih (id :: above) child ?_
                intro before hbefore
                have hdown := hrest before hbefore
                simp only [PathStep.ups, PathStep.downs, List.countP_cons, List.length_cons]
                  at hdown ⊢
                simp at hdown
                omega
      · simp

theorem lookup_ne_outside {separator dot : α} {path : List α}
    (h : PathStep.Inside (PathStep.ofPath separator dot path)) (t : FileTree α β μ) :
    t.lookup separator dot path ≠ .outside := by
  unfold lookup
  split
  · simp
  · refine t.walk_ne_outside _ _ _ ?_
    intro before hbefore
    simpa using h before hbefore

/-- What a walk misses is not in the directory it names. -/
theorem walk_missing {t : FileTree α β μ} {directory : Nat} {name : List α} :
    ∀ {steps : List (PathStep α)} {above : List Nat} {id : Nat},
      t.walk above id steps = .missing directory name →
      ∃ entries mode, t.nodes[directory]? = some (.directory entries mode) ∧
        entries.lookup name = none := by
  intro steps
  induction steps with
  | nil => intro above id h; simp [walk] at h
  | cons step rest ih =>
      intro above id h
      unfold walk at h
      split at h
      · rename_i entries mode hnode
        cases step with
        | stay => exact ih h
        | up =>
            cases above with
            | nil => exact absurd h (by simp)
            | cons parent above => exact ih h
        | down name' =>
            cases hname : entries.lookup name' with
            | some child =>
                simp only [hname] at h
                exact ih h
            | none =>
                simp only [hname] at h
                split at h
                · obtain ⟨rfl, rfl⟩ := Lookup.missing.inj h
                  exact ⟨entries, mode, hnode, hname⟩
                · exact absurd h (by simp)
      · exact absurd h (by simp)

/-! ### What keeps the names

Writing to files and creating them takes no name away: a directory keeps the entries it
had and may have new ones.  Then a walk that found something still finds the same.
-/

/-- The directories are still there, with all the entries they had. -/
structure Grows (t t' : FileTree α β μ) : Prop where
  root : t'.root = t.root
  entries : ∀ {id : Nat} {entries : List (List α × Nat)} {mode : μ},
    t.nodes[id]? = some (.directory entries mode) →
    ∃ entries', t'.nodes[id]? = some (.directory entries' mode) ∧
      ∀ name child, entries.lookup name = some child → entries'.lookup name = some child

theorem overwrite_grows (t : FileTree α β μ) (id : Nat) (content : β) :
    t.Grows (t.overwrite id content) := by
  refine ⟨rfl, ?_⟩
  intro directory entries mode hnode
  refine ⟨entries, ?_, fun _ _ h => h⟩
  unfold overwrite
  rw [List.getElem?_modify, hnode]
  split <;> rfl

theorem create_grows {t : FileTree α β μ} {directory : Nat} {name : List α}
    {entries : List (List α × Nat)} {mode₀ : μ}
    (hdir : t.nodes[directory]? = some (.directory entries mode₀))
    (hnew : entries.lookup name = none) (content : β) (mode : μ) :
    t.Grows (t.create directory name content mode) := by
  refine ⟨rfl, ?_⟩
  intro id entries' mode' hnode
  have hlt : id < t.nodes.length := (List.getElem?_eq_some_iff.mp hnode).1
  have hget : (t.create directory name content mode).nodes[id]? = _ :=
    List.getElem?_append_left (by simpa using hlt)
  rw [hget, List.getElem?_modify]
  by_cases hid : directory = id
  · subst hid
    rw [hdir, Option.some.injEq] at hnode
    obtain ⟨rfl, rfl⟩ := Node.directory.inj hnode
    refine ⟨(name, t.nodes.length) :: entries, by simp [hdir, Node.withEntry], ?_⟩
    intro name' child hchild
    have hne : (name' == name) = false := by
      refine beq_eq_false_iff_ne.mpr ?_
      rintro rfl
      rw [hnew] at hchild
      exact absurd hchild (by simp)
    rw [List.lookup_cons, hne]
    exact hchild
  · exact ⟨entries', by simp [hnode, hid], fun _ _ h => h⟩

/-- **What a name has led to it leads to still.** -/
theorem walk_of_grows {t t' : FileTree α β μ} (h : t.Grows t') {file : Nat} :
    ∀ {steps : List (PathStep α)} {above : List Nat} {id : Nat},
      t.walk above id steps = .found file → t'.walk above id steps = .found file := by
  intro steps
  induction steps with
  | nil => intro above id hfound; exact hfound
  | cons step rest ih =>
      intro above id hfound
      unfold walk at hfound
      split at hfound
      · rename_i entries mode hnode
        obtain ⟨entries', hnode', hkept⟩ := h.entries hnode
        unfold walk
        rw [hnode']
        cases step with
        | stay => exact ih hfound
        | up =>
            cases above with
            | nil => exact absurd hfound (by simp)
            | cons parent above => exact ih hfound
        | down name =>
            cases hname : entries.lookup name with
            | none =>
                simp only [hname] at hfound
                split at hfound <;> exact absurd hfound (by simp)
            | some child =>
                simp only [hname] at hfound
                simp only [hkept name child hname]
                exact ih hfound
      · exact absurd hfound (by simp)

theorem lookup_of_grows {t t' : FileTree α β μ} (h : t.Grows t') {separator dot : α}
    {path : List α} {file : Nat} (hfound : t.lookup separator dot path = .found file) :
    t'.lookup separator dot path = .found file := by
  unfold lookup at hfound ⊢
  split at hfound
  · exact absurd hfound (by simp)
  · rename_i hne
    rw [if_neg hne, h.root]
    exact walk_of_grows h hfound

/-! ### What is created is found -/

/-- A walk that misses an entry finds it when it has been made. -/
theorem walk_create {t : FileTree α β μ} {directory : Nat} {name : List α} (content : β)
    (mode : μ) :
    ∀ {steps : List (PathStep α)} {above : List Nat} {id : Nat},
      t.walk above id steps = .missing directory name →
      (t.create directory name content mode).walk above id steps = .found t.nodes.length := by
  intro steps
  induction steps with
  | nil => intro above id h; simp [walk] at h
  | cons step rest ih =>
      intro above id h
      obtain ⟨entries₀, mode₀, hdirectory, hnew⟩ := walk_missing h
      have hgrows := create_grows hdirectory hnew content mode
      unfold walk at h
      split at h
      · rename_i entries mode' hnode
        obtain ⟨entries', hnode', hkept⟩ := hgrows.entries hnode
        unfold walk
        rw [hnode']
        cases step with
        | stay => exact ih h
        | up =>
            cases above with
            | nil => exact absurd h (by simp)
            | cons parent above => exact ih h
        | down name' =>
            cases hname : entries.lookup name' with
            | some child =>
                simp only [hname] at h
                simp only [hkept name' child hname]
                exact ih h
            | none =>
                simp only [hname] at h
                split at h
                · rename_i hlast
                  obtain ⟨rfl, rfl⟩ := Lookup.missing.inj h
                  -- the directory it is missing from has the new entry
                  have hentry : entries'.lookup name' = some t.nodes.length := by
                    have hlt := (List.getElem?_eq_some_iff.mp hnode).1
                    have hget : (t.create id name' content mode).nodes[id]? =
                        some (.directory ((name', t.nodes.length) :: entries) mode') := by
                      unfold create
                      rw [List.getElem?_append_left (by simpa using hlt),
                        List.getElem?_modify, hnode]
                      simp [Node.withEntry]
                    rw [hnode', Option.some.injEq] at hget
                    rw [(Node.directory.inj hget).1, List.lookup_cons, beq_self_eq_true]
                  simp only [hentry, hlast]
                  rfl
                · exact absurd h (by simp)
      · exact absurd h (by simp)

theorem lookup_create {t : FileTree α β μ} {separator dot : α} {path : List α} {directory : Nat}
    {name : List α} (h : t.lookup separator dot path = .missing directory name) (content : β)
    (mode : μ) :
    (t.create directory name content mode).lookup separator dot path = .found t.nodes.length := by
  unfold lookup at h ⊢
  split at h
  · exact absurd h (by simp)
  · rename_i hne
    rw [if_neg hne]
    exact walk_create content mode h

end FileTree
