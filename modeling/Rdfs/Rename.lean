import Rdfs.DirMap
import Rdfs.InodeOps

/-!
# Renaming

`rdfs_rename` binds the new name before it removes the old one, and so holds pointers to records
while the directories change under it. `rdfsRename` is written with any set of primitives, and a
state gives every directory by its inode number. The link counts and the mapping counts of the same
function are those of `Names`.

If the primitives act on directories as maps, then `rdfs_rename` either does what it is for and
nothing else (`Renamed`), or fails and changes no entry (`rename_spec`). The pointers to the old
entry are looked up again after the new one has been made, and the pointer to `..` is one into the
directory that is moved, which is neither the old parent nor the new one.
-/

namespace Rdfs

open Function Option

/-- `ENOTEMPTY`. -/
def enotempty : ℤ := 39

/-- The arguments of `rdfs_rename`, with the inodes that the dentries stand for. -/
structure RenameArgs (I : Type) where
  oldDir : I
  oldName : List UInt8
  oldInode : I
  newDir : I
  newName : List UInt8
  newInode : Option I

section rename

variable {D P I : Type} (prims : DirPrims D P I) (ino : I → ℕ) (isDir : I → Bool)

/-- `dir_de` : the entry `..` of a directory that is moved. In a directory that is mapped
`rdfs_dotdot` does not return a null pointer. -/
def dirDe (a : RenameArgs I) (s : ℕ → D) : Option P :=
  if isDir a.oldInode = true then some (prims.dotdot (s (ino a.oldInode))) else none

/-- `rdfs_rename` from the second search for the old entry on. The entry is used without a test, and
what `rdfs_delete_entry` returns is not. -/
def renameFinish (a : RenameArgs I) (de : Option P) (s : ℕ → D) : Option (ℤ × (ℕ → D)) :=
  match prims.findEntry (s (ino a.oldDir)) a.oldName with
  | none => none
  | some (oldDe, oldPde) =>
    let s' := Function.update s (ino a.oldDir)
      (prims.deleteEntry oldDe oldPde (s (ino a.oldDir))).2
    match de with
    | none => some (0, s')
    | some de =>
      if ino a.oldDir ≠ ino a.newDir then
        some (0, Function.update s' (ino a.oldInode)
          (prims.setLink (s' (ino a.oldInode)) de a.newDir false))
      else some (0, s')

/-- `rdfs_rename` on directories that get mapped, `none` if it follows a null pointer. -/
def rdfsRename (a : RenameArgs I) (s : ℕ → D) : Option (ℤ × (ℕ → D)) :=
  match prims.findEntry (s (ino a.oldDir)) a.oldName with
  | none => some (-enoent, s)
  | some _ =>
    match a.newInode with
    | some newInode =>
      if (dirDe prims ino isDir a s).isSome = true ∧ prims.emptyDir (s (ino newInode)) = false then
        some (-enotempty, s)
      else
        match prims.findEntry (s (ino a.newDir)) a.newName with
        | none => some (-enoent, s)
        | some (newDe, _) =>
          renameFinish prims ino a (dirDe prims ino isDir a s) (Function.update s (ino a.newDir)
            (prims.setLink (s (ino a.newDir)) newDe a.oldInode true))
    | none =>
      let added := prims.addLink (s (ino a.newDir)) a.newName a.oldInode
      let s' := Function.update s (ino a.newDir) added.2
      if added.1 ≠ 0 then some (added.1, s')
      else renameFinish prims ino a (dirDe prims ino isDir a s) s'

end rename

/-! ## What it is for -/

section spec

variable {D P I : Type} {prims : DirPrims D P I} {ino : I → ℕ} {isDir : I → Bool}
  {lookup : D → List UInt8 → Option ℕ} {Ready Good : D → Prop} {a : RenameArgs I} {s s' : ℕ → D}

/-- The renamings that the VFS admits : the source is there, the target is there or not as its
dentry says, and is not the source; a directory is moved neither from nor to itself. -/
structure Admitted (ino : I → ℕ) (isDir : I → Bool) (lookup : D → List UInt8 → Option ℕ)
    (Ready Good : D → Prop) (a : RenameArgs I) (s : ℕ → D) : Prop where
  oldName : EntryName a.oldName
  newName : EntryName a.newName
  source : lookup (s (ino a.oldDir)) a.oldName = some (ino a.oldInode)
  target : lookup (s (ino a.newDir)) a.newName = a.newInode.map ino
  ne_source : ∀ newInode ∈ a.newInode, ino newInode ≠ ino a.oldInode
  parent : isDir a.oldInode = true →
    lookup (s (ino a.oldInode)) [46, 46] = some (ino a.oldDir)
  outside : isDir a.oldInode = true →
    ino a.oldInode ≠ ino a.oldDir ∧ ino a.oldInode ≠ ino a.newDir
  good_old : Good (s (ino a.oldDir))
  ready_new : Ready (s (ino a.newDir))
  good_moved : isDir a.oldInode = true → Good (s (ino a.oldInode))

/-- The source name is gone, the target name is bound to the source inode, a directory that was
moved has its new parent, and all other entries are as before. -/
structure Renamed (ino : I → ℕ) (isDir : I → Bool) (lookup : D → List UInt8 → Option ℕ)
    (a : RenameArgs I) (s s' : ℕ → D) : Prop where
  source : lookup (s' (ino a.oldDir)) a.oldName = none
  target : lookup (s' (ino a.newDir)) a.newName = some (ino a.oldInode)
  parent : isDir a.oldInode = true →
    lookup (s' (ino a.oldInode)) [46, 46] = some (ino a.newDir)
  others : ∀ d name, ¬(d = ino a.oldDir ∧ name = a.oldName) →
    ¬(d = ino a.newDir ∧ name = a.newName) →
    ¬(isDir a.oldInode = true ∧ d = ino a.oldInode ∧ name = [46, 46]) →
    lookup (s' d) name = lookup (s d) name

/-- The source and the target are different entries. -/
theorem Admitted.distinct (h : Admitted ino isDir lookup Ready Good a s) :
    ¬(ino a.oldDir = ino a.newDir ∧ a.oldName = a.newName) := by
  rintro ⟨hd, hn⟩
  have hsame := h.source
  rw [hd, hn, h.target] at hsame
  obtain ⟨newInode, hnew, heq⟩ := map_eq_some_iff.mp hsame
  exact h.ne_source newInode hnew heq

section finish

variable {x y : D} (hadm : Admitted ino isDir lookup Ready Good a s)
  (hx : lookup x = Function.update (lookup (s (ino a.newDir))) a.newName (some (ino a.oldInode)))

include hx

include hadm in
/-- The old entry is still there when the new one has been made. -/
theorem lookup_old_of_new : lookup (Function.update s (ino a.newDir) x (ino a.oldDir)) a.oldName =
      some (ino a.oldInode) := by
  by_cases hd : ino a.oldDir = ino a.newDir
  · have hn : a.oldName ≠ a.newName := fun hn => hadm.distinct ⟨hd, hn⟩
    rw [hd, update_self, hx, update_of_ne hn, ← hd, hadm.source]
  · rw [update_of_ne hd, hadm.source]

/-- The entries after the new one has been made and the old one removed. -/
theorem lookup_of_both (hy : lookup y = Function.update
      (lookup (Function.update s (ino a.newDir) x (ino a.oldDir))) a.oldName none)
    (d : ℕ) (name : List UInt8) :
    lookup (Function.update (Function.update s (ino a.newDir) x) (ino a.oldDir) y d) name =
      if d = ino a.oldDir ∧ name = a.oldName then none
      else if d = ino a.newDir ∧ name = a.newName then some (ino a.oldInode)
      else lookup (s d) name := by
  have hnew : lookup (Function.update s (ino a.newDir) x d) name =
      if d = ino a.newDir ∧ name = a.newName then some (ino a.oldInode)
      else lookup (s d) name := by
    by_cases hd : d = ino a.newDir
    · subst hd
      rw [update_self, hx, update_apply]
      simp
    · simp [hd]
  by_cases hd : d = ino a.oldDir
  · subst hd
    rw [update_self, hy, update_apply, hnew]
    simp
  · rw [update_of_ne hd, hnew]
    simp [hd]

include hadm in
/-- What `rdfs_rename` does once the new entry has been made. -/
theorem renameFinish_spec (hmap : ActsAsMap prims ino lookup Ready Good) (hgood : Good x) :
    ∃ s', renameFinish prims ino a (dirDe prims ino isDir a s)
        (Function.update s (ino a.newDir) x) = some (0, s') ∧
      Renamed ino isDir lookup a s s' := by
  have hold := lookup_old_of_new hadm hx
  have hgoodOld : Good (Function.update s (ino a.newDir) x (ino a.oldDir)) := by
    rw [update_apply]
    split
    · exact hgood
    · exact hadm.good_old
  obtain ⟨⟨p, q⟩, hfind⟩ : ∃ found, prims.findEntry
      (Function.update s (ino a.newDir) x (ino a.oldDir)) a.oldName = some found := by
    refine ne_none_iff_exists'.mp fun hnone => ?_
    rw [hmap.find_eq_none hgoodOld, hold] at hnone
    exact absurd hnone (by simp)
  have hboth := lookup_of_both hx (hmap.delete hgoodOld hadm.oldName hfind)
  have hmoved : isDir a.oldInode = true → Function.update (Function.update s (ino a.newDir) x)
      (ino a.oldDir) (prims.deleteEntry p q
        (Function.update s (ino a.newDir) x (ino a.oldDir))).2 (ino a.oldInode) =
      s (ino a.oldInode) := by
    intro hdir
    obtain ⟨hne1, hne2⟩ := hadm.outside hdir
    rw [update_of_ne hne1, update_of_ne hne2]
  rw [renameFinish, hfind]
  dsimp only
  generalize Function.update (Function.update s (ino a.newDir) x) (ino a.oldDir) _ = s₂
    at hboth hmoved ⊢
  have hsource : lookup (s₂ (ino a.oldDir)) a.oldName = none := by
    rw [hboth, if_pos ⟨rfl, rfl⟩]
  have htarget : lookup (s₂ (ino a.newDir)) a.newName = some (ino a.oldInode) := by
    rw [hboth, if_neg fun h => hadm.distinct ⟨h.1.symm, h.2.symm⟩, if_pos ⟨rfl, rfl⟩]
  have hothers : ∀ d name, ¬(d = ino a.oldDir ∧ name = a.oldName) →
      ¬(d = ino a.newDir ∧ name = a.newName) → lookup (s₂ d) name = lookup (s d) name := by
    intro d name h1 h2
    rw [hboth, if_neg h1, if_neg h2]
  by_cases hdir : isDir a.oldInode = true
  swap
  · -- no directory is moved
    rw [dirDe, if_neg hdir]
    exact ⟨s₂, rfl, hsource, htarget, fun h => absurd h hdir,
      fun d name h1 h2 _ => hothers d name h1 h2⟩
  rw [dirDe, if_pos hdir]
  dsimp only
  by_cases hsame : ino a.oldDir = ino a.newDir
  · -- a directory keeps its parent
    rw [if_neg (not_not_intro hsame)]
    refine ⟨s₂, rfl, hsource, htarget, fun _ => ?_, fun d name h1 h2 _ => hothers d name h1 h2⟩
    rw [hmoved hdir, hadm.parent hdir, hsame]
  · -- a directory gets another parent
    obtain ⟨hne1, hne2⟩ := hadm.outside hdir
    have hdotdot := hmap.dotdot (hadm.good_moved hdir) a.newDir false
    rw [if_pos hsame, hmoved hdir]
    refine ⟨_, rfl, ?_, ?_, fun _ => ?_, fun d name h1 h2 h3 => ?_⟩
    · rw [update_of_ne (Ne.symm hne1), hsource]
    · rw [update_of_ne (Ne.symm hne2), htarget]
    · rw [update_self, hdotdot, update_self]
    · by_cases hd : d = ino a.oldInode
      · have hname : name ≠ [46, 46] := fun hn => h3 ⟨hdir, hd, hn⟩
        rw [hd, update_self, hdotdot, update_of_ne hname]
      · rw [update_of_ne hd, hothers d name h1 h2]

end finish

/-- What `rdfs_rename` does with primitives that act as maps. -/
theorem rdfsRename_cases (hmap : ActsAsMap prims ino lookup Ready Good)
    (hadm : Admitted ino isDir lookup Ready Good a s) :
    ∃ err s', rdfsRename prims ino isDir a s = some (err, s') ∧
      (err = 0 → Renamed ino isDir lookup a s s') ∧
      (err ≠ 0 → ∀ d name, lookup (s' d) name = lookup (s d) name) := by
  have hsucceeds : ∀ {x : D}, Good x → lookup x =
      Function.update (lookup (s (ino a.newDir))) a.newName (some (ino a.oldInode)) →
      ∃ err s', renameFinish prims ino a (dirDe prims ino isDir a s)
          (Function.update s (ino a.newDir) x) = some (err, s') ∧
        (err = 0 → Renamed ino isDir lookup a s s') ∧
        (err ≠ 0 → ∀ d name, lookup (s' d) name = lookup (s d) name) := by
    intro x hgood hx
    obtain ⟨s', heq, hren⟩ := renameFinish_spec hadm hx hmap hgood
    exact ⟨0, s', heq, fun _ => hren, fun h => absurd rfl h⟩
  have hfails : ∀ err : ℤ, err ≠ 0 → ∃ err' s', some (err, s) = some (err', s') ∧
      (err' = 0 → Renamed ino isDir lookup a s s') ∧
      (err' ≠ 0 → ∀ d name, lookup (s' d) name = lookup (s d) name) :=
    fun err herr => ⟨err, s, rfl, fun h => absurd h herr, fun _ _ _ => rfl⟩
  rw [rdfsRename]
  rcases prims.findEntry (s (ino a.oldDir)) a.oldName with _ | found
  · exact hfails _ (by decide)
  rcases hnew : a.newInode with _ | newInode
  · have habsent : lookup (s (ino a.newDir)) a.newName = none := by
      rw [hadm.target, hnew]
      rfl
    rcases hadd : prims.addLink (s (ino a.newDir)) a.newName a.oldInode with ⟨err, x⟩
    by_cases herr : err = 0
    · subst herr
      obtain ⟨hgood, hx⟩ := hmap.add hadm.ready_new hadm.newName habsent hadd
      exact hsucceeds hgood hx
    · simp only [ne_eq, herr]
      refine ⟨err, _, rfl, fun h => absurd h herr, fun _ d name => ?_⟩
      by_cases hd : d = ino a.newDir
      · rw [hd, update_self, hmap.add_fail hadm.ready_new hadd herr]
      · rw [update_of_ne hd]
  · simp only
    split
    · exact hfails _ (by decide)
    rcases hfind : prims.findEntry (s (ino a.newDir)) a.newName with _ | ⟨newDe, newPde⟩
    · exact hfails _ (by decide)
    · obtain ⟨hgood, hx⟩ := hmap.setLink (hmap.good hadm.ready_new) hfind a.oldInode true
      exact hsucceeds hgood hx

/-- `rdfs_rename` with primitives that act as maps : it returns, with 0 and the entry renamed, or
with an error and no entry changed. -/
theorem rename_spec (hmap : ActsAsMap prims ino lookup Ready Good)
    (hadm : Admitted ino isDir lookup Ready Good a s) :
    ∃ err s', rdfsRename prims ino isDir a s = some (err, s') ∧
      (err = 0 → Renamed ino isDir lookup a s s') ∧
      (err ≠ 0 → ∀ d name, lookup (s' d) name = lookup (s d) name) :=
  rdfsRename_cases hmap hadm

end spec

/-! ## Moving a directory -/

/-- `S_ISDIR` of the mode of an inode. -/
def Inode.isDir (inode : Inode) : Bool := decide (SIsDir inode.iMode)

/-- The inode of a directory in another one. -/
def movedInode : NumberedInode :=
  ⟨{ (default : Inode) with iIno := 3, iMode := 0x41ed }, by decide⟩

/-- The inode of a directory next to it. -/
def besideInode : NumberedInode :=
  ⟨{ (default : Inode) with iIno := 9, iMode := 0x41ed }, by decide⟩

/-- The directory with both of them. -/
def homeInode : NumberedInode := ⟨linkDir, by decide⟩

/-- Three directories. -/
def moveState (d : ℕ) : Dir :=
  if d = 5 then dirOf linkDir slackRecs
  else if d = 3 then freshDir movedInode.1 linkDir
  else freshDir besideInode.1 linkDir

/-- A directory is moved into the one next to it. -/
def moveArgs : RenameArgs NumberedInode where
  oldDir := homeInode
  oldName := denseName 2
  oldInode := movedInode
  newDir := besideInode
  newName := denseName 2
  newInode := none

theorem admitted_move :
    Admitted (fun inode : NumberedInode => inode.1.iIno) (fun inode => inode.1.isDir) lookupEntry
      (Ordered (2 ^ 16 - 4096)) (Ordered (2 ^ 16)) moveArgs moveState where
  oldName := ⟨by decide, by decide, by decide, by decide⟩
  newName := ⟨by decide, by decide, by decide, by decide⟩
  source := by
    have hlook := rep_slackDir.lookupEntry_eq (by decide)
    exact (congrFun hlook (denseName 2)).trans (by decide)
  target := by
    have hlook := (rep_freshDir besideInode.1 linkDir).lookupEntry_eq (by decide)
    exact (congrFun hlook (denseName 2)).trans (by decide)
  ne_source := by simp [moveArgs]
  parent _ := by
    have hlook := (rep_freshDir movedInode.1 linkDir).lookupEntry_eq (by decide)
    exact (congrFun hlook [46, 46]).trans (by decide)
  outside _ := ⟨by decide, by decide⟩
  good_old := ⟨slackRecs, rep_slackDir, by decide, ⟨_, _, _, rfl, by decide, rfl, by decide⟩,
    (by decide : (dirOf linkDir slackRecs).inode.iSize < 2 ^ 16)⟩
  ready_new := ordered_freshDir (by decide) (by decide) (by decide)
  good_moved _ := ordered_freshDir (by decide) (by decide) (by decide)

/-- The directory is moved. -/
theorem rename_spec_move : ∃ s', rdfsRename (rdfsPrims .entered 0) (fun inode => inode.1.iIno)
        (fun inode => inode.1.isDir) moveArgs moveState = some (0, s') ∧
      Renamed (fun inode => inode.1.iIno) (fun inode => inode.1.isDir) lookupEntry moveArgs
        moveState s' := by
  obtain ⟨err, s', hr, hok, -⟩ := rename_spec (actsAsMap_rdfsPrims 0) admitted_move
  have herr : (rdfsRename (rdfsPrims .entered 0) (fun inode => inode.1.iIno)
      (fun inode => inode.1.isDir) moveArgs moveState).map Prod.fst = some 0 := by decide +kernel
  rw [hr, map_some, some_inj] at herr
  obtain rfl : err = 0 := herr
  exact ⟨s', hr, hok rfl⟩

end Rdfs
