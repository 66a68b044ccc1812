/-
What is copied in is copied out.

The worker keeps no table of the files it was sent; they are in the tree of its machine,
and a name may lead to a file another name leads to.  So what there is to say is about
files: after a copy-in that reported success there is a file the name leads to, and it
holds what was sent, as far as that was written.  Neither another copy-in that leads
elsewhere nor a copy-out nor a new file changes that, and a copy-out that leads to the
file returns it.

What the file holds after the write is not always all that was sent.  `write_file` reports
success for less, so the result says as much as arrived, and the same of what is read.
-/
import Distray.Proofs.Confined

namespace Distray

namespace Tree

/-- The name leads to the file, and the file holds this. -/
structure Shows (t : Tree) (name : Bytes) (id : Nat) (content : Bytes) : Prop where
  found : t.resolve name = .found id
  holds : ∃ mode, t.Holds id content mode

/-- What the names have and the file holds, they have and it holds afterwards. -/
theorem Shows.grows {t t' : Tree} {name content : Bytes} {id : Nat}
    (h : t.Shows name id content) (hgrows : t.Grows t')
    (hholds : ∀ mode, t.Holds id content mode → t'.Holds id content mode) :
    t'.Shows name id content := by
  obtain ⟨mode, hmode⟩ := h.holds
  exact ⟨FileTree.lookup_of_grows hgrows h.found, mode, hholds mode hmode⟩

variable {os : Decisions}

/-- **A file that was opened for writing is what its name shows.** -/
theorem openOut_shows {t t' : Tree} {name content : Bytes} {id : Nat}
    (h : t.openOut os name content = some (t', id)) :
    t'.Shows name id (content.take os.writes) := by
  unfold openOut at h
  split at h
  · exact absurd h (by simp)
  · split at h
    · rename_i id' hfound
      split at h
      · rename_i old mode hnode
        obtain ⟨rfl, rfl⟩ := Prod.mk.inj (Option.some.inj h)
        exact ⟨FileTree.lookup_of_grows (FileTree.overwrite_grows _ _ _) hfound, mode,
          FileTree.overwrite_same hnode⟩
      · exact absurd h (by simp)
    · rename_i directory last hmissing
      obtain ⟨rfl, rfl⟩ := Prod.mk.inj (Option.some.inj h)
      exact ⟨FileTree.lookup_create hmissing _ _, os.mode, FileTree.create_new _ _ _ _ _⟩
    · exact absurd h (by simp)

/-- What another name shows stays, if the two do not lead to one file. -/
theorem openOut_spares {t t' : Tree} {name content : Bytes} {id : Nat}
    (h : t.openOut os name content = some (t', id)) {name' content' : Bytes} {id' : Nat}
    (hne : t.resolve name ≠ .found id') (hshows : t.Shows name' id' content') :
    t'.Shows name' id' content' := by
  unfold openOut at h
  split at h
  · exact absurd h (by simp)
  · split at h
    · rename_i written hfound
      split at h
      · obtain ⟨rfl, rfl⟩ := Prod.mk.inj (Option.some.inj h)
        refine hshows.grows (FileTree.overwrite_grows _ _ _) ?_
        intro mode hholds
        refine FileTree.overwrite_other hholds ?_
        rintro rfl
        exact hne hfound
      · exact absurd h (by simp)
    · rename_i directory last hmissing
      obtain ⟨rfl, rfl⟩ := Prod.mk.inj (Option.some.inj h)
      refine hshows.grows ?_ (fun mode hholds => FileTree.create_old hholds)
      unfold resolve FileTree.lookup at hmissing
      split at hmissing
      · exact absurd hmissing (by simp)
      · obtain ⟨entries, mode, hdirectory, hnew⟩ := FileTree.walk_missing hmissing
        exact FileTree.create_grows hdirectory hnew _ _
    · exact absurd h (by simp)

theorem Shows.openIn {t : Tree} {name content : Bytes} {id : Nat} (h : t.Shows name id content)
    (hopens : os.openFails = false) : t.openIn os name = some (content.take os.reads) := by
  obtain ⟨mode, hnode⟩ := h.holds
  have hnode' : t.nodes[id]? = some (.file content mode) := hnode
  simp [Tree.openIn, hopens, h.found, hnode']

end Tree

namespace Host

variable {os : Decisions}

/-- A copy-in that reports success has written the file. -/
theorem copyIn_shows {s : Host} {request : CopyInRequest}
    (h : (s.handleCopyIn os request).1.success? = some true) :
    ∃ id, (s.handleCopyIn os request).2.tree.Shows (cStr request.pathname) id
      (request.content.take os.writes) := by
  have hwrite : ((s.call (cStr request.pathname)).writeFile os request.pathname
      request.content).1 = true →
      ∃ id, ((s.call (cStr request.pathname)).writeFile os request.pathname
        request.content).2.tree.Shows (cStr request.pathname) id
          (request.content.take os.writes) := by
    intro hsuccess
    unfold Host.writeFile at hsuccess ⊢
    simp only at hsuccess ⊢
    split at hsuccess
    · rename_i tree id hopen
      exact ⟨id, Tree.openOut_shows hopen⟩
    · exact absurd hsuccess (by simp)
  unfold handleCopyIn at h ⊢
  by_cases hlocal : isPathnameLocal request.pathname = true
  · simp only [hlocal, Bool.not_true, Bool.false_eq_true, if_false] at h ⊢
    split at h
    · exact absurd h (by simp)
    · split at h
      · exact absurd h (by simp)
      · rename_i hmode
        rw [if_neg hmode]
        exact hwrite (by simpa using h)
    · exact hwrite (by simpa using h)
  · simp [hlocal] at h

/-! ### What leaves a file alone

A request is harmless to a file for one of three reasons: it writes nothing, it writes to
another file, or the program it runs leaves the file alone.  A name is no reason, since two
of them can lead to one file.
-/

/--
A request that does not copy in to this file, under whatever name, and does not run a
program that takes the file's name from it or changes what it holds.
-/
structure Spares (name : Bytes) (id : Nat) (content : Bytes) (s : Host)
    (input : Request × Decisions) : Prop where
  copyIn : input.1.requestType = .copyIn →
    s.tree.resolve (cStr input.1.copyInRequest.pathname) ≠ .found id
  execute : input.1.requestType = .execute → s.tree.Shows name id content →
    (input.2.program s.tree).Shows name id content

variable {name content : Bytes} {id : Nat}

theorem writeFile_spares {s : Host} {pathname written : Bytes}
    (hne : s.tree.resolve (cStr pathname) ≠ .found id) (h : s.tree.Shows name id content) :
    (s.writeFile os pathname written).2.tree.Shows name id content := by
  unfold Host.writeFile
  simp only
  split
  · rename_i tree written' hopen
    exact Tree.openOut_spares hopen hne h
  · exact h

theorem copyIn_spares {s : Host} {request : CopyInRequest}
    (hne : s.tree.resolve (cStr request.pathname) ≠ .found id)
    (h : s.tree.Shows name id content) :
    (s.handleCopyIn os request).2.tree.Shows name id content := by
  have hcall : (s.call (cStr request.pathname)).tree = s.tree := rfl
  unfold handleCopyIn
  by_cases hlocal : isPathnameLocal request.pathname = true
  · simp only [hlocal, Bool.not_true, Bool.false_eq_true, if_false]
    split
    · exact h
    · split
      · exact h
      · exact writeFile_spares (s := s.call _) hne h
    · exact writeFile_spares (s := s.call _) hne h
  · simp only [hlocal, Bool.not_false, if_true]
    exact h

theorem forkExecv_spares {s : Host} {called : Bytes}
    (hprogram : (os.program s.tree).Shows name id content) (h : s.tree.Shows name id content) :
    (s.forkExecv os called).2.tree.Shows name id content := by
  have htree : (if os.fork.forked then s.call called else s).tree = s.tree := by split <;> rfl
  unfold Host.forkExecv
  simp only
  split
  · rw [htree]
    exact hprogram
  · rw [htree]
    exact h

theorem execute_spares {s : Host} {request : ExecuteRequest}
    (hprogram : (os.program s.tree).Shows name id content) (h : s.tree.Shows name id content) :
    (s.handleExecute os request).2.tree.Shows name id content := by
  unfold handleExecute
  by_cases hlocal : isPathnameLocal request.executable = true
  · simp only [hlocal, Bool.not_true, Bool.false_eq_true, if_false]
    exact forkExecv_spares hprogram h
  · simp only [hlocal, Bool.not_false, if_true]
    exact h

theorem copyOut_spares {s : Host} {request : CopyOutRequest} (h : s.tree.Shows name id content) :
    (s.handleCopyOut os request).2.tree.Shows name id content := by
  unfold handleCopyOut
  by_cases hlocal : isPathnameLocal request.pathname = true
  · simp only [hlocal, Bool.not_true, Bool.false_eq_true, if_false]
    split <;> exact h
  · simp only [hlocal, Bool.not_false, if_true]
    exact h

/-- **Such a request leaves it alone.** -/
theorem Spares.keeps {s : Host} {input : Request × Decisions} (h : Spares name id content s input)
    (hshows : s.tree.Shows name id content) :
    (s.handle input.2 input.1).2.tree.Shows name id content := by
  unfold handle
  cases htype : input.1.requestType with
  | welcome => exact hshows
  | copyIn => exact copyIn_spares (h.copyIn htype) hshows
  | execute => exact execute_spares (h.execute htype hshows) hshows
  | copyOut => exact copyOut_spares hshows

/-- A copy-out that leads to the file returns what it holds. -/
theorem copyOut_shows {s : Host} {request : CopyOutRequest}
    (hlocal : isPathnameLocal request.pathname = true)
    (h : s.tree.Shows (cStr request.pathname) id content) (hopens : os.openFails = false) :
    (s.handleCopyOut os request).1
      = { content? := some (content.take os.reads), success? := some true } := by
  have hopen : (s.call (cStr request.pathname)).tree.openIn os (cStr request.pathname)
      = some (content.take os.reads) := Tree.Shows.openIn (t := s.tree) h hopens
  simp only [handleCopyOut, hlocal, Bool.not_true, Bool.false_eq_true, if_false, hopen]

/--
**What is copied in is copied out.**  After a copy-in that reported success there is a
file its name leads to, and whatever requests come next, as long as they leave this file
alone: the name still leads to it, and a copy-out under any name that does returns what was
sent, as far as it was written then and is read now.
-/
theorem copied_in_is_copied_out (initial : Tree) (os : Decisions) (s : Host)
    (request : CopyInRequest) (h : (s.handleCopyIn os request).1.success? = some true) :
    ∃ id, ∀ t, (machine initial).Run
        (Spares (cStr request.pathname) id (request.content.take os.writes))
        (s.handleCopyIn os request).2 t →
      t.tree.resolve (cStr request.pathname) = .found id ∧
      ∀ (os' : Decisions) (out : CopyOutRequest), isPathnameLocal out.pathname = true →
        t.tree.resolve (cStr out.pathname) = .found id → os'.openFails = false →
        (t.handleCopyOut os' out).1 =
          { content? := some ((request.content.take os.writes).take os'.reads)
            success? := some true } := by
  obtain ⟨id, hshows⟩ := copyIn_shows h
  refine ⟨id, ?_⟩
  intro t hrun
  have hkept : t.tree.Shows (cStr request.pathname) id (request.content.take os.writes) := by
    refine Machine.Run.invariant (P := fun t => t.tree.Shows (cStr request.pathname) id
      (request.content.take os.writes)) ?_ hrun hshows
    intro u input v hu hspares hstep
    rw [← Option.some.inj hstep]
    exact hspares.keeps hu
  refine ⟨hkept.found, ?_⟩
  intro os' out hlocal hfound hopens
  exact copyOut_shows hlocal ⟨hfound, hkept.holds⟩ hopens

/-! A scene is sent, the renderer runs, another file is sent, and the scene is asked for. -/

def sendsScene : CopyInRequest :=
  { pathname? := some (bytes "scene"), content? := some (bytes "new") }

/-- What comes after the scene. -/
def sceneSent : Host := ((machine workshop).init.handleCopyIn calm sendsScene).2

def rendered : Host := (sceneSent.handle calm (executes (bytes "render"))).2

theorem copied_in_is_copied_out_workshop :
    ((rendered.handle calm (uploads (bytes "tool") (bytes "evil"))).2.handleCopyOut calm
      { pathname? := some (bytes "./scene") }).1 =
      { content? := some (bytes "new"), success? := some true } := by
  obtain ⟨id, hafter⟩ := copied_in_is_copied_out workshop calm (machine workshop).init sendsScene
    (by decide)
  obtain rfl : 2 = id := by
    obtain ⟨hfound, -⟩ := hafter sceneSent (.refl _)
    have htwo : sceneSent.tree.resolve (cStr sendsScene.pathname) = .found 2 := by decide
    exact FileTree.Lookup.found.inj (htwo.symm.trans hfound)
  have hrun : (machine workshop).Run (Spares (cStr sendsScene.pathname) 2
      (sendsScene.content.take calm.writes)) sceneSent
      (rendered.handle calm (uploads (bytes "tool") (bytes "evil"))).2 := by
    refine .step (i := (uploads (bytes "tool") (bytes "evil"), calm))
      (.step (i := (executes (bytes "render"), calm)) (.refl sceneSent) ⟨?_, ?_⟩ rfl) ⟨?_, ?_⟩ rfl
    · intro htype
      exact absurd htype (by decide)
    · exact fun _ hshows => hshows
    · intro _
      decide
    · intro htype
      exact absurd htype (by decide)
  exact (hafter _ hrun).2 calm { pathname? := some (bytes "./scene") } (by decide) (by decide) rfl

end Host

end Distray
