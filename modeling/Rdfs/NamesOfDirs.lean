import Rdfs.Namei
import Rdfs.Rmdir

/-!
# Names and directories

The operations of `namei.c` are modelled twice : on directories in memory, where they are calls of
the functions of `dir.c` (`rdfsRename`, `rdfsUnlink`, `rdfsRmdir`), and on the entries of all
directories with their counters (`Names`). The entries describe the directories if they are what is
found there. Operations of the two models that succeed alike, or fail alike, keep it so.
-/

namespace Rdfs

open Function Multiset

/-- The entries are those that `look` finds, `.` and `..` apart. -/
def Describes (look : ℕ → List UInt8 → Option ℕ) (s : Names) : Prop :=
  ∀ d name i, EntryName name → (look d name = some i ↔ ⟨d, name, i⟩ ∈ s.entries)

variable {look look' : ℕ → List UInt8 → Option ℕ} {s s' : Names} {dir : ℕ} {name : List UInt8}

/-- One name is bound to another inode, or to none. -/
theorem Describes.bind (h : Describes look s) (v : Option ℕ)
    (hlook : ∀ d n, EntryName n → look' d n = if d = dir ∧ n = name then v else look d n)
    (hs : ∀ e : Entry, EntryName e.name → (e ∈ s'.entries ↔
      if e.dir = dir ∧ e.name = name then v = some e.ino else e ∈ s.entries)) :
    Describes look' s' := by
  intro d n i hn
  rw [hlook d n hn, hs _ hn]
  split_ifs
  · rfl
  · exact h d n i hn

theorem Describes.delete (h : Describes look s)
    (hlook : ∀ d n, EntryName n → look' d n = if d = dir ∧ n = name then none else look d n)
    (hs : s'.entries = (s.deleteEntry dir name).entries) : Describes look' s' := by
  refine h.bind none hlook fun e _ => ?_
  rw [hs, Names.deleteEntry, mem_filter]
  split_ifs with hkey
  · simp [hkey]
  · simp [hkey]

theorem Describes.congr (h : Describes look s) (hlook : look' = look)
    (hs : s'.entries = s.entries) : Describes look' s' := by
  intro d n i hn
  rw [hlook, hs]
  exact h d n i hn

theorem Names.not_has_of_deleted (hs : s'.entries = (s.deleteEntry dir name).entries) :
    ¬s'.Has dir name := by
  rintro ⟨e, he, hkey⟩
  rw [hs] at he
  exact (mem_filter.1 he).2 hkey

section rename

variable {D P I : Type} {prims : DirPrims D P I} {ino : I → ℕ} {isDir : I → Bool}
  {lookup : D → List UInt8 → Option ℕ} {Ready Good : D → Prop} {a : RenameArgs I} {t t' : ℕ → D}

/-- The new name is bound before the old one is removed. -/
theorem Describes.renamed (h : Describes (fun d => lookup (t d)) s)
    (hadm : Admitted ino isDir lookup Ready Good a t) :
    Describes (fun d n => if d = ino a.newDir ∧ n = a.newName then some (ino a.oldInode)
      else lookup (t d) n)
      (s.renamed (ino a.newDir) a.newName (ino a.oldInode) (a.newInode.map ino)) := by
  have hmem : ∀ e : Entry, EntryName e.name →
      (e ∈ (s.renamed (ino a.newDir) a.newName (ino a.oldInode) (a.newInode.map ino)).entries ↔
        e = ⟨ino a.newDir, a.newName, ino a.oldInode⟩ ∨
          e ∈ s.entries ∧ ¬(e.dir = ino a.newDir ∧ e.name = a.newName)) := by
    intro e he
    cases hnew : a.newInode with
    | none =>
      rw [Option.map_none, Names.renamed_none_entries, mem_cons]
      refine or_congr_right (iff_self_and.2 ?_)
      rintro hmem ⟨hd, hn⟩
      have hsome : lookup (t e.dir) e.name = some e.ino := (h _ _ _ he).2 hmem
      rw [hd, hn, hadm.target, hnew] at hsome
      cases hsome
    | some n =>
      rw [Option.map_some, Names.renamed_some_entries, mem_cons, Names.deleteEntry, mem_filter]
  refine h.bind (some (ino a.oldInode)) (fun _ _ _ => rfl) fun e he => (hmem e he).trans ?_
  obtain ⟨d, n, i⟩ := e
  split_ifs with hkey
  · obtain ⟨rfl, rfl⟩ : d = ino a.newDir ∧ n = a.newName := hkey
    simp [eq_comm]
  · simp only [Entry.mk.injEq, hkey, not_false_eq_true, and_true, or_iff_right_iff_imp]
    exact fun hc => absurd ⟨hc.1, hc.2.1⟩ hkey

/-- `rdfs_rename` does to the directories what it does to their entries, if the old name is still
there exactly when it fails. -/
theorem Describes.rename (h : Describes (fun d => lookup (t d)) s)
    (hmap : ActsAsMap prims ino lookup Ready Good)
    (hadm : Admitted ino isDir lookup Ready Good a t) :
    ∃ err t', rdfsRename prims ino isDir a t = some (err, t') ∧
      ∀ o s', o.delete = true → s.rename (ino a.oldDir) a.oldName (ino a.newDir) a.newName
          (ino a.oldInode) (a.newInode.map ino) o = some s' →
        (s'.Has (ino a.oldDir) a.oldName ↔ err ≠ 0) → Describes (fun d => lookup (t' d)) s' := by
  obtain ⟨err, t', hr, hok, hfail⟩ := rdfsRename_cases hmap hadm
  refine ⟨err, t', hr, fun o s' hdel hs halike => ?_⟩
  rcases Names.rename_cases hs with hsame | ⟨u, rfl, he, -⟩
  · have hold := (h _ _ _ hadm.oldName).1 hadm.source
    exact h.congr (funext₂ (hfail (halike.1 ⟨_, hsame.1 ▸ hold, rfl, rfl⟩))) hsame.1
  · rw [if_pos hdel] at he
    have hren := hok (not_not.1 (halike.not.1 (Names.not_has_of_deleted he)))
    refine (h.renamed hadm).delete (fun d n hn => ?_) he
    split_ifs with hold hnew
    · rw [hold.1, hold.2, hren.source]
    · rw [hnew.1, hnew.2, hren.target]
    · exact hren.others d n hold hnew fun hc => hn.ne_dotdot hc.2.2

end rename

section dirs

variable {t : ℕ → Dir} {inode : ℕ}

/-- `rdfs_unlink` removes the name it finds. -/
theorem Ordered.lookup_unlink {d : Dir} (h : Ordered (2 ^ 16) d) (hname : EntryName name)
    (inode : Inode) (now : ℕ) : lookupEntry (rdfsUnlink d name inode now).2.1 =
      if (rdfsUnlink d name inode now).1 = 0 then Function.update (lookupEntry d) name none
      else lookupEntry d := by
  cases hfind : rdfsFindEntry2 d name with
  | none =>
    simp only [rdfsUnlink, hfind]
    rfl
  | some found =>
    have hdel := h.delete hname hfind now
    obtain ⟨rs, hrep, -⟩ := h
    obtain ⟨pre, r, post, hf, -⟩ := hrep.exists_first hfind
    have hzero := hrep.rdfsUnlink_zero (mem_liveNames.2 ⟨r, by simp [hf.eq], hf.named⟩) inode now
    rw [if_pos hzero]
    simp only [rdfsUnlink, hfind] at hzero ⊢
    split_ifs at hzero ⊢ with hne
    · exact absurd hzero hne
    · exact hdel

theorem lookupEntry_nlink (d : Dir) (n : ℕ) :
    lookupEntry { d with inode := { d.inode with iNlink := n } } = lookupEntry d := rfl

theorem Ordered.lookup_rmdir {d : Dir} (h : Ordered (2 ^ 16) d) (hname : EntryName name)
    (target : Dir) (now : ℕ) : lookupEntry (rdfsRmdir d name target now).2.1 =
      if (rdfsRmdir d name target now).1 = 0 then Function.update (lookupEntry d) name none
      else lookupEntry d := by
  have hun := h.lookup_unlink hname target.inode now
  simp only [rdfsRmdir]
  by_cases hempty : rdfsEmptyDir target = true
  · rw [if_pos hempty]
    by_cases h0 : (rdfsUnlink d name target.inode now).1 = 0
    · rw [if_pos h0] at hun ⊢
      rw [if_pos rfl]
      exact (lookupEntry_nlink _ _).trans hun
    · rw [if_neg h0] at hun ⊢
      rw [if_neg h0]
      exact hun
  · rw [if_neg hempty]
    rfl

theorem Describes.remove (h : Describes (fun d => lookupEntry (t d)) s) {x : Dir} {p : Prop}
    [Decidable p] (hx : lookupEntry x =
      if p then Function.update (lookupEntry (t dir)) name none else lookupEntry (t dir))
    (hs : s'.entries = (if p then s.deleteEntry dir name else s).entries) :
    Describes (fun d => lookupEntry (Function.update t dir x d)) s' := by
  by_cases hp : p
  · rw [if_pos hp] at hx hs
    refine h.delete (fun d n _ => ?_) hs
    by_cases hd : d = dir
    · subst hd
      simp [hx, update_apply]
    · simp [hd]
  · rw [if_neg hp] at hx hs
    refine h.congr (funext fun d => ?_) hs
    by_cases hd : d = dir
    · subst hd
      rw [update_self, hx]
    · rw [update_of_ne hd]

section

variable (h : Describes (fun d => lookupEntry (t d)) s) (hgood : Ordered (2 ^ 16) (t dir))
  (hname : EntryName name)
include h hgood hname

/-- `rdfs_unlink` does to the directory what it does to its entries, if it succeeds alike. -/
theorem Describes.unlink {o : UnlinkOutcome} {r : Bool × Names}
    (hr : s.unlink dir name inode o = some r) (i : Inode) (now : ℕ)
    (halike : r.1 = true ↔ (rdfsUnlink (t dir) name i now).1 = 0) :
    Describes (fun d => lookupEntry (Function.update t dir (rdfsUnlink (t dir) name i now).2.1 d))
      r.2 := by
  refine h.remove (hgood.lookup_unlink hname i now) ?_
  obtain ⟨-, ⟨hok, he, -⟩ | ⟨hok, he, -⟩⟩ := Names.unlink_cases hr
  · rw [he, if_pos (halike.1 hok)]
  · rw [he, if_neg fun h0 => Bool.false_ne_true (hok.symm.trans (halike.2 h0))]

/-- `rdfs_rmdir` does to the parent what it does to its entries, if the name is still there exactly
when it fails. -/
theorem Describes.rmdir {area : ℕ} {empty : Bool} {o : UnlinkOutcome}
    (hr : s.rmdir dir name inode area empty o = some s') (hhas : s.Has dir name) (target : Dir)
    (now : ℕ) (halike : s'.Has dir name ↔ (rdfsRmdir (t dir) name target now).1 ≠ 0) :
    Describes (fun d => lookupEntry
      (Function.update t dir (rdfsRmdir (t dir) name target now).2.1 d)) s' := by
  refine h.remove (hgood.lookup_rmdir hname target now) ?_
  obtain ⟨-, ⟨he, -⟩ | ⟨he, -⟩⟩ := Names.rmdir_cases hr
  · rw [he, if_pos (not_not.1 (halike.not.1 (Names.not_has_of_deleted he)))]
  · rw [he, if_neg (halike.1 ((Names.has_congr he _ _).2 hhas))]

end

end dirs

end Rdfs
