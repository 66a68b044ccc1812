/-
What a worker can be made to do to its machine.

Whoever is at the other end of the connection can have files written and programs
executed, in any order and under any spelling of their names.  `handle_copy_in` looks at
a file before it writes to it and leaves it alone if it has an execute bit; nothing the
worker does gives a file one.  So a file is on one of two sides for good: it can be
executed, and holds what it always held, or it can be written to.

The invariant is about files and not about names, and what it needs of a step is `Keeps`,
which is also all that is assumed of the programs.
-/
import Distray.Host

namespace Distray

/-! ### Names that stay inside

The worker looks for two dots and for a slash at the beginning, before it has any idea of
what the name leads to.  That is enough: a path that has no part made of two dots never goes
up, and so it does not leave the tree, whatever the tree is.
-/

/-- Relative, and at no point outside the directory it is walked from. -/
structure Confined (name : Bytes) : Prop where
  relative : name[0]? ≠ some '/'.toUInt8
  inside : PathStep.Inside (PathStep.ofPath '/'.toUInt8 '.'.toUInt8 name)

theorem hasDotDot_of_part :
    ∀ {s : Bytes}, ['.'.toUInt8, '.'.toUInt8] <:+: s → hasDotDot s = true := by
  intro s
  induction s with
  | nil => intro h; exact absurd (List.eq_nil_of_infix_nil h) (by simp)
  | cons a s ih =>
      intro h
      rcases List.infix_cons_iff.mp h with h | h
      · obtain ⟨rest, hrest⟩ := h
        obtain ⟨rfl, rfl⟩ := List.cons.inj hrest
        rfl
      · have hs := ih h
        cases s with
        | nil => exact absurd hs (by simp [hasDotDot])
        | cons b s => rw [hasDotDot, hs, Bool.or_true]

/-- A name that passes the check is confined, also as the operating system sees it. -/
theorem confined_of_local {pathname : Bytes} (h : isPathnameLocal pathname = true) :
    Confined (cStr pathname) := by
  have hprefix : cStr pathname <+: pathname := List.takeWhile_prefix _
  unfold isPathnameLocal at h
  split at h
  · exact absurd h (by simp)
  · rename_i hrelative
    split at h
    · exact absurd h (by simp)
    · rename_i hdots
      constructor
      · intro hslash
        refine hrelative ?_
        obtain ⟨rest, hrest⟩ := hprefix
        rw [← hrest, List.getElem?_append_left]
        · exact hslash
        · exact (List.getElem?_eq_some_iff.mp hslash).1
      · refine PathStep.inside_ofPath ?_
        intro hpart
        exact hdots (hasDotDot_of_part (hpart.trans hprefix.isInfix))

theorem Confined.resolve {name : Bytes} (h : Confined name) (t : Tree) :
    t.resolve name ≠ .outside :=
  FileTree.lookup_ne_outside h.inside t

/-! ### What keeps the files

A file keeps its mode, whatever is done, and if it can be executed it keeps its content too.
That is what `Keeps` says of two trees; reading keeps the files, and so does creating one,
or writing to one that has no execute bit.
-/

namespace Tree

/-- No file loses its mode, and none with an execute bit its content. -/
structure Keeps (t t' : Tree) : Prop where
  modes : ∀ {id : Nat} {content : Bytes} {mode : Nat}, t.Holds id content mode →
    ∃ content', t'.Holds id content' mode
  executables : ∀ {id : Nat} {content : Bytes} {mode : Nat}, t.Holds id content mode →
    mode &&& Worker.executableBits ≠ 0 → t'.Holds id content mode

theorem Keeps.refl (t : Tree) : t.Keeps t := ⟨fun h => ⟨_, h⟩, fun h _ => h⟩

/-- The names of the files with an execute bit still lead to them. -/
def KeepsNames (t t' : Tree) : Prop :=
  ∀ name id, t.executable? name = some id → t'.executable? name = some id

theorem executable?_eq_some {t : Tree} {name : Bytes} {id : Nat} :
    t.executable? name = some id ↔ t.resolve name = .found id ∧
      ∃ content mode, t.Holds id content mode ∧ mode &&& Worker.executableBits ≠ 0 := by
  unfold executable?
  constructor
  · intro h
    split at h
    · rename_i id' hfound
      split at h
      · rename_i content mode hnode
        split at h
        · rename_i hmode
          rw [Option.some.injEq] at h
          subst h
          exact ⟨hfound, content, mode, hnode, hmode⟩
        · exact absurd h (by simp)
      · exact absurd h (by simp)
    · exact absurd h (by simp)
  · rintro ⟨hfound, content, mode, hnode, hmode⟩
    have hnode' : t.nodes[id]? = some (.file content mode) := hnode
    simp only [hfound, hnode', if_pos hmode]

theorem keepsNames_of_grows {t t' : Tree} (hgrows : t.Grows t') (hkeeps : t.Keeps t') :
    t.KeepsNames t' := by
  intro name id h
  obtain ⟨hfound, content, mode, hholds, hmode⟩ := executable?_eq_some.mp h
  exact executable?_eq_some.mpr ⟨FileTree.lookup_of_grows hgrows hfound, content, mode,
    hkeeps.executables hholds hmode, hmode⟩

/-- `stat` did not show an execute bit. -/
def Unexecutable (answer : Stat) : Prop :=
  answer = .ENOENT ∨ ∃ mode, answer = .found mode ∧ mode &&& Worker.executableBits = 0

variable {os : Decisions}

theorem stat_of_found {t : Tree} {name content : Bytes} {id mode : Nat}
    (hfound : t.resolve name = .found id) (hholds : t.Holds id content mode)
    (h : Unexecutable (t.stat os name)) : mode &&& Worker.executableBits = 0 := by
  have hnode : t.nodes[id]? = some (.file content mode) := hholds
  unfold stat at h
  split at h
  · rcases h with h | ⟨mode', h, -⟩ <;> exact absurd h (by simp)
  · simp only [hfound, hnode] at h
    rcases h with h | ⟨mode', h, hmode⟩
    · exact absurd h (by simp)
    · rw [Stat.found.inj h]
      exact hmode

/-- **A file that is written to after `stat` was asked has no execute bit.** -/
theorem openOut_spec {t t' : Tree} {name content : Bytes} {id : Nat}
    (hstat : Unexecutable (t.stat os name)) (h : t.openOut os name content = some (t', id)) :
    t.Keeps t' ∧ t.Grows t' ∧
      ∃ content' mode, t'.Holds id content' mode ∧ mode &&& Worker.executableBits = 0 := by
  unfold openOut at h
  split at h
  · exact absurd h (by simp)
  · split at h
    · rename_i id' hfound
      split at h
      · rename_i old mode hnode
        obtain ⟨rfl, rfl⟩ := Prod.mk.inj (Option.some.inj h)
        have hmode := stat_of_found hfound hnode hstat
        refine ⟨⟨?_, ?_⟩, FileTree.overwrite_grows _ _ _, _, mode,
          FileTree.overwrite_same hnode, hmode⟩
        · intro other content' mode' hholds
          by_cases hother : other = id'
          · subst hother
            obtain ⟨rfl, rfl⟩ := hholds.unique hnode
            exact ⟨_, FileTree.overwrite_same hnode⟩
          · exact ⟨content', FileTree.overwrite_other hholds hother⟩
        · intro other content' mode' hholds hexecutable
          refine FileTree.overwrite_other hholds ?_
          rintro rfl
          obtain ⟨-, rfl⟩ := hholds.unique hnode
          exact hexecutable hmode
      · exact absurd h (by simp)
    · rename_i directory last hmissing
      obtain ⟨rfl, rfl⟩ := Prod.mk.inj (Option.some.inj h)
      have hgrows : t.Grows (t.create directory last (content.take os.writes) os.mode) := by
        unfold resolve FileTree.lookup at hmissing
        split at hmissing
        · exact absurd hmissing (by simp)
        · obtain ⟨entries, mode, hdirectory, hnew⟩ := FileTree.walk_missing hmissing
          exact FileTree.create_grows hdirectory hnew _ _
      exact ⟨⟨fun hholds => ⟨_, FileTree.create_old hholds⟩,
          fun hholds _ => FileTree.create_old hholds⟩, hgrows,
        _, _, FileTree.create_new _ _ _ _ _, os.mode.property⟩
    · exact absurd h (by simp)

end Tree

/-! ### What a request can do -/

namespace Host

variable {os : Decisions}

/-- What becomes of the machine: the cases of a request. -/
inductive Effect (os : Decisions) (s : Host) : Host → Prop
  | none : Effect os s s
  | call {name : Bytes} (hname : Confined name) : Effect os s (s.call name)
  | write {pathname : Bytes} (content : Bytes) (hname : Confined (cStr pathname))
      (hstat : Tree.Unexecutable (s.tree.stat os (cStr pathname))) :
      Effect os s ((s.call (cStr pathname)).writeFile os pathname content).2
  | execute {name : Bytes} (hname : Confined name) : Effect os s (s.forkExecv os name).2

theorem effect_of_copyIn (s : Host) (request : CopyInRequest) :
    Effect os s (s.handleCopyIn os request).2 := by
  unfold handleCopyIn
  by_cases hlocal : isPathnameLocal request.pathname = true
  · simp only [hlocal, Bool.not_true, Bool.false_eq_true, if_false]
    split
    · exact .call (confined_of_local hlocal)
    · rename_i mode hstat
      split
      · exact .call (confined_of_local hlocal)
      · rename_i hmode
        exact .write _ (confined_of_local hlocal) (Or.inr ⟨mode, hstat, not_not.mp hmode⟩)
    · rename_i hstat
      exact .write _ (confined_of_local hlocal) (Or.inl hstat)
  · simp only [hlocal, Bool.not_false, if_true]
    exact .none

theorem effect_of_execute (s : Host) (request : ExecuteRequest) :
    Effect os s (s.handleExecute os request).2 := by
  unfold handleExecute
  by_cases hlocal : isPathnameLocal request.executable = true
  · simp only [hlocal, Bool.not_true, Bool.false_eq_true, if_false]
    exact .execute (confined_of_local hlocal)
  · simp only [hlocal, Bool.not_false, if_true]
    exact .none

theorem effect_of_copyOut (s : Host) (request : CopyOutRequest) :
    Effect os s (s.handleCopyOut os request).2 := by
  unfold handleCopyOut
  by_cases hlocal : isPathnameLocal request.pathname = true
  · simp only [hlocal, Bool.not_true, Bool.false_eq_true, if_false]
    split <;> exact .call (confined_of_local hlocal)
  · simp only [hlocal, Bool.not_false, if_true]
    exact .none

/-- **A request has one of these effects.** -/
theorem effect_of_handle (s : Host) (request : Request) :
    Effect os s (s.handle os request).2 := by
  unfold handle
  cases request.requestType with
  | welcome => exact .none
  | copyIn => exact s.effect_of_copyIn _
  | execute => exact s.effect_of_execute _
  | copyOut => exact s.effect_of_copyOut _

/-! ### What every request keeps -/

/-- The two sides: the files with an execute bit, and the files that were written to. -/
structure Guarded (initial : Tree) (s : Host) : Prop where
  calls : ∀ name ∈ s.calls, Confined name
  originals : ∀ {id : Nat} {content : Bytes} {mode : Nat}, initial.Holds id content mode →
    mode &&& Worker.executableBits ≠ 0 → s.tree.Holds id content mode
  uploaded : ∀ id ∈ s.uploaded, ∃ content mode,
    s.tree.Holds id content mode ∧ mode &&& Worker.executableBits = 0
  executed : ∀ id ∈ s.executed, ∃ content mode,
    s.tree.Holds id content mode ∧ mode &&& Worker.executableBits ≠ 0

variable {initial : Tree}

theorem Guarded.keeps {s : Host} (h : Guarded initial s) {t : Tree} (hkeeps : s.tree.Keeps t) :
    Guarded initial { s with tree := t } := by
  refine ⟨h.calls, fun hholds hmode => hkeeps.executables (h.originals hholds hmode) hmode, ?_, ?_⟩
  · intro id hid
    obtain ⟨content, mode, hholds, hmode⟩ := h.uploaded id hid
    obtain ⟨content', hholds'⟩ := hkeeps.modes hholds
    exact ⟨content', mode, hholds', hmode⟩
  · intro id hid
    obtain ⟨content, mode, hholds, hmode⟩ := h.executed id hid
    exact ⟨content, mode, hkeeps.executables hholds hmode, hmode⟩

theorem Guarded.call {s : Host} (h : Guarded initial s) {name : Bytes} (hname : Confined name) :
    Guarded initial (s.call name) := by
  refine ⟨?_, h.originals, h.uploaded, h.executed⟩
  intro name' hname'
  rcases List.mem_cons.mp hname' with rfl | hname'
  · exact hname
  · exact h.calls name' hname'

theorem Guarded.writeFile {s : Host} (h : Guarded initial s) {pathname content : Bytes}
    (hname : Confined (cStr pathname))
    (hstat : Tree.Unexecutable (s.tree.stat os (cStr pathname))) :
    Guarded initial (s.writeFile os pathname content).2 := by
  have hcall := h.call hname
  have htree : (s.call (cStr pathname)).tree = s.tree := rfl
  unfold Host.writeFile
  simp only [htree]
  split
  · rename_i tree id hopen
    obtain ⟨hkeeps, -, hnew⟩ := Tree.openOut_spec hstat hopen
    have hkept := hcall.keeps hkeeps
    refine ⟨hkept.calls, hkept.originals, ?_, hkept.executed⟩
    intro id' hid'
    rcases List.mem_cons.mp hid' with rfl | hid'
    · exact hnew
    · exact hkept.uploaded id' hid'
  · exact hcall

theorem execvIn_executable {t : Tree} {name : Bytes} {child : Child} {id : Nat}
    (h : (t.execvIn name child).2 = some id) : t.executable? name = some id := by
  unfold Tree.execvIn at h
  split at h <;> simp_all

theorem execv_executable {t : Tree} {name : Bytes} {id : Nat}
    (h : (t.execv os name).2 = some id) : t.executable? name = some id := by
  unfold Tree.execv at h
  split at h
  · exact absurd h (by simp)
  · exact execvIn_executable h
  · exact execvIn_executable h

theorem Guarded.forkExecv {s : Host} (h : Guarded initial s) {name : Bytes}
    (hname : Confined name) (hkeeps : s.tree.Keeps (os.program s.tree)) :
    Guarded initial (s.forkExecv os name).2 := by
  have hcall : Guarded initial (if os.fork.forked then s.call name else s) := by
    split
    · exact h.call hname
    · exact h
  have htree : (if os.fork.forked then s.call name else s).tree = s.tree := by split <;> rfl
  unfold Host.forkExecv
  simp only
  split
  · rename_i id hexecv
    obtain ⟨-, content, mode, hholds, hmode⟩ :=
      Tree.executable?_eq_some.mp (execv_executable hexecv)
    rw [htree]
    have hkept := hcall.keeps (t := os.program s.tree) (by rw [htree]; exact hkeeps)
    refine ⟨hkept.calls, hkept.originals, hkept.uploaded, ?_⟩
    intro id' hid'
    rcases List.mem_cons.mp hid' with rfl | hid'
    · exact ⟨content, mode, hkeeps.executables hholds hmode, hmode⟩
    · exact hkept.executed id' hid'
  · exact hcall

/-- **A request keeps the two sides, if the program it executes does.** -/
theorem Guarded.effect {s t : Host} (h : Guarded initial s)
    (hkeeps : s.tree.Keeps (os.program s.tree)) (heffect : Effect os s t) : Guarded initial t := by
  cases heffect with
  | none => exact h
  | call hname => exact h.call hname
  | write content hname hstat => exact (h.call hname).writeFile hname hstat
  | execute hname => exact h.forkExecv hname hkeeps

/-! ### The names of the executables

A file keeps its number, so what is left to say is that a name that led to it still does.
The worker never takes an entry away; the programs it runs may, and then they are asked not
to.
-/

theorem writeFile_keepsNames {s : Host} {pathname content : Bytes}
    (hstat : Tree.Unexecutable (s.tree.stat os (cStr pathname))) :
    s.tree.KeepsNames (s.writeFile os pathname content).2.tree := by
  have htree : (s.call (cStr pathname)).tree = s.tree := rfl
  unfold Host.writeFile
  simp only [htree]
  split
  · rename_i tree id hopen
    obtain ⟨hkeeps, hgrows, -⟩ := Tree.openOut_spec hstat hopen
    exact Tree.keepsNames_of_grows hgrows hkeeps
  · exact fun _ _ h => h

theorem forkExecv_keepsNames {s : Host} {name : Bytes}
    (hprogram : s.tree.KeepsNames (os.program s.tree)) :
    s.tree.KeepsNames (s.forkExecv os name).2.tree := by
  have htree : (if os.fork.forked then s.call name else s).tree = s.tree := by split <;> rfl
  unfold Host.forkExecv
  simp only
  split
  · rw [htree]
    exact hprogram
  · rw [htree]
    exact fun _ _ h => h

theorem keepsNames_of_effect {s t : Host} (hprogram : s.tree.KeepsNames (os.program s.tree))
    (heffect : Effect os s t) : s.tree.KeepsNames t.tree := by
  cases heffect with
  | none => exact fun _ _ h => h
  | call => exact fun _ _ h => h
  | write content hname hstat => exact writeFile_keepsNames (s := s.call _) hstat
  | execute => exact forkExecv_keepsNames hprogram

/-! ### Any number of requests -/

/-- The program changes no modes and no executables. -/
def Behaves (s : Host) (input : Request × Decisions) : Prop :=
  s.tree.Keeps (input.2.program s.tree)

/-- Nor does it take from an executable its name. -/
def LeavesNames (s : Host) (input : Request × Decisions) : Prop :=
  s.tree.KeepsNames (input.2.program s.tree)

theorem reach_guarded {s : Host} (h : (machine initial).Reach Behaves s) :
    Guarded initial s := by
  refine Machine.Reach.invariant ?_ ?_ h
  · exact ⟨by simp [machine], fun hholds _ => hholds, by simp [machine], by simp [machine]⟩
  · intro s input t hs hbehaves hstep
    rw [← Option.some.inj hstep]
    exact hs.effect hbehaves (s.effect_of_handle input.1)

theorem reach_keepsNames {s : Host} (h : (machine initial).Reach LeavesNames s) :
    initial.KeepsNames s.tree := by
  refine Machine.Reach.invariant (P := fun s => initial.KeepsNames s.tree) (fun _ _ h => h) ?_ h
  intro s input t hs hleaves hstep name id hname
  rw [← Option.some.inj hstep]
  exact keepsNames_of_effect hleaves (s.effect_of_handle input.1) name id (hs name id hname)

/--
**A worker cannot be made to run what was uploaded to it, nor to leave its directory.**
Whatever it was asked to do: no name that was given to the operating system leads out of
the directory, in any tree.  Every file that had an execute bit holds what it held, and
no file that was written to has ever been executed.  Where the programs leave the names of
the executables alone, so has the worker.
-/
theorem worker_confined (initial : Tree) (s : Host) (h : (machine initial).Reach Behaves s) :
    (∀ name ∈ s.calls, Confined name ∧ ∀ t : Tree, t.resolve name ≠ .outside) ∧
    (∀ (id : Nat) (content : Bytes) (mode : Nat), initial.Holds id content mode →
      mode &&& Worker.executableBits ≠ 0 → s.tree.Holds id content mode) ∧
    (∀ id ∈ s.executed, id ∉ s.uploaded) ∧
    ((machine initial).Reach LeavesNames s →
      ∀ (name : Bytes) (id : Nat), initial.executable? name = some id →
        s.tree.executable? name = some id) := by
  have hs := reach_guarded h
  refine ⟨?_, fun id content mode hholds hmode => hs.originals hholds hmode, ?_, reach_keepsNames⟩
  · intro name hname
    exact ⟨hs.calls name hname, (hs.calls name hname).resolve⟩
  · intro id hexecuted huploaded
    obtain ⟨content, mode, hholds, hmode⟩ := hs.executed id hexecuted
    obtain ⟨content', mode', hholds', hmode'⟩ := hs.uploaded id huploaded
    obtain ⟨-, rfl⟩ := hholds.unique hholds'
    exact hmode hmode'

/-! A machine with a renderer and a scene, and someone who would like to replace it. -/

def workshop : Tree where
  nodes :=
    [.directory [(bytes "render", 1), (bytes "scene", 2)] 0o755,
      .file (bytes "renderer") 0o755, .file (bytes "old") 0o644]
  root := 0

/-- Nothing fails, and the programs change nothing. -/
def calm : Decisions where
  hostname := none
  hardwareConcurrency := 1
  statFails := false
  openFails := false
  reads := 100
  writes := 100
  mode := ⟨0o644, by decide⟩
  fork := .waited (.exited 0)
  program := id

def uploads (pathname content : Bytes) : Request :=
  { requestType? := some .copyIn
    copyInRequest? := some { pathname? := some pathname, content? := some content } }

def executes (executable : Bytes) : Request :=
  { requestType? := some .execute
    executeRequest? := some { executable? := some executable, argument := [] } }

/-- The renderer by another name, a file that is there, a new one, and what was uploaded. -/
def attempts : List Request :=
  [uploads (bytes ".//render") (bytes "evil"), uploads (bytes "./scene") (bytes "evil"),
    uploads (bytes "tool") (bytes "evil"), executes (bytes "tool"), executes (bytes "scene/."),
    uploads (bytes "../render") (bytes "evil"), executes (bytes "render")]

/-- The machine after some requests. -/
def afterwards (requests : List Request) : Host :=
  requests.foldl (fun s request => (s.handle calm request).2) (machine workshop).init

theorem reach_afterwards (requests : List Request) :
    (machine workshop).Reach Behaves (afterwards requests) := by
  have hrun : ∀ (requests : List Request) (s : Host), (machine workshop).Run Behaves s
      (requests.foldl (fun s request => (s.handle calm request).2) s) := by
    intro requests
    induction requests with
    | nil => exact fun s => .refl s
    | cons request rest ih =>
        intro s
        have hfirst : (machine workshop).Run Behaves s (s.handle calm request).2 :=
          .step (i := (request, calm)) (.refl s) (Tree.Keeps.refl _) rfl
        exact hfirst.trans (ih _)
  exact hrun requests _

theorem worker_confined_workshop :
    (∀ name ∈ (afterwards attempts).calls, Confined name ∧ ∀ t : Tree, t.resolve name ≠ .outside) ∧
    (∀ (id : Nat) (content : Bytes) (mode : Nat), workshop.Holds id content mode →
      mode &&& Worker.executableBits ≠ 0 → (afterwards attempts).tree.Holds id content mode) ∧
    (∀ id ∈ (afterwards attempts).executed, id ∉ (afterwards attempts).uploaded) ∧
    ((machine workshop).Reach LeavesNames (afterwards attempts) →
      ∀ (name : Bytes) (id : Nat), workshop.executable? name = some id →
        (afterwards attempts).tree.executable? name = some id) :=
  worker_confined workshop (afterwards attempts) (reach_afterwards attempts)

example : (afterwards attempts).executed = [1] ∧ (afterwards attempts).uploaded = [3, 2] := by
  decide

end Host

end Distray
