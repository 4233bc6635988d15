import Rdfs.Namei

/-!
# Mapping counts

An operation on the namespace maps the directories it works on with `rdfs_establish_mapping` and
unmaps them with `rdfs_destroy_mapping`. The first counts a mapping before it knows that there is an
area for it, the second does nothing without an area. So the two cancel exactly when the inode gets
an area, and an operation leaves the counts as they were exactly when every inode that it maps gets
one, `rdfs_mkdir` gets an inode and its first block, `rdfs_rename` finds the old entry again, and no
directory is mapped twice at a negative count (`NsOp.mapsKept_iff`).
-/

namespace Rdfs

open List Function Option Multiset

/-! ## One inode -/

/-- The `mapping_count` and the `i_virt_addr` of an inode. -/
abbrev MapView := ℤ × ℕ

namespace MapView

/-- `rdfs_establish_mapping`, where `nvmalloc` returns `area`. -/
def est (area : ℕ) (p : MapView) : MapView := (p.1 + 1, if p.2 = 0 then area else p.2)

/-- `rdfs_destroy_mapping`. -/
def des (p : MapView) : MapView :=
  if p.2 = 0 then p else (p.1 - 1, if 0 < p.1 - 1 then p.2 else 0)

/-- The inode has an area, or gets one. -/
def Gets (p : MapView) (area : ℕ) : Prop := p.2 ≠ 0 ∨ area ≠ 0

/-- The count is the same, and no area is left at a count of 0. -/
def Kept (p q : MapView) : Prop := q.1 = p.1 ∧ (q.1 = 0 → q.2 ≠ 0 → q.2 = p.2)

variable {p : MapView} {area : ℕ}

@[simp] theorem kept_self : Kept p p := ⟨rfl, fun _ _ => rfl⟩

theorem est_snd_eq_zero : (p.est area).2 = 0 ↔ ¬p.Gets area := by
  unfold est Gets
  split_ifs with h <;> simp [h]

/-- A count that is different. -/
theorem not_kept {q : MapView} (h : q.1 ≠ p.1) : ¬Kept p q := fun hk => h hk.1

theorem kept_des : Kept p p.des ↔ p.2 = 0 := by
  by_cases h : p.2 = 0
  · simp [des, h]
  · rw [des, if_neg h]
    exact iff_of_false (not_kept (Int.ne_of_lt (Int.sub_one_lt_of_le le_rfl))) h

theorem des_est (h : p.Gets area) :
    (p.est area).des = (p.1, if 0 < p.1 then (p.est area).2 else 0) := by
  rw [des, if_neg (fun hc => est_snd_eq_zero.1 hc h)]
  simp [est]

theorem kept_des_est : Kept p (p.est area).des ↔ p.Gets area := by
  by_cases h : p.Gets area
  · rw [des_est h]
    refine iff_of_true ⟨rfl, fun hc ha => absurd ?_ ha⟩ h
    simp only at hc
    simp [hc]
  · rw [des, if_pos (est_snd_eq_zero.2 h)]
    exact iff_of_false (not_kept (Int.ne_of_gt (Int.lt_succ p.1))) h

/-- An inode that is mapped twice. -/
theorem kept_des_des_est_est (h : p.Gets area) (area' : ℕ) :
    Kept p ((p.est area).est area').des.des ↔ 0 ≤ p.1 := by
  have hne : (p.est area).2 ≠ 0 := fun hc => est_snd_eq_zero.1 hc h
  have htwice : ((p.est area).est area').des =
      (p.1 + 1, if 0 < p.1 + 1 then (p.est area).2 else 0) := by
    have hsame : ((p.est area).est area').2 = (p.est area).2 := if_neg hne
    rw [des_est (Or.inl hne), hsame]
    rfl
  rw [htwice]
  by_cases hp : 0 < p.1 + 1
  · rw [if_pos hp, des, if_neg hne]
    refine iff_of_true ⟨by simp, fun hc ha => absurd ?_ ha⟩ (by omega)
    simp only at hc
    simp [hc]
  · rw [if_neg hp, des, if_pos rfl]
    exact iff_of_false (not_kept (Int.ne_of_gt (Int.lt_succ p.1))) (by omega)

/-- The inode is mapped once for each of the results of `nvmalloc`, and then unmapped as often. -/
def KeptBy (p : MapView) (areas : List ℕ) : Prop :=
  Kept p (des^[areas.length] (areas.foldl (fun v area => v.est area) p))

@[simp] theorem keptBy_nil : p.KeptBy [] := kept_self

@[simp] theorem keptBy_singleton : p.KeptBy [area] ↔ p.Gets area := kept_des_est

theorem keptBy_pair {area' : ℕ} (h : p.Gets area) : p.KeptBy [area, area'] ↔ 0 ≤ p.1 :=
  kept_des_des_est_est h area'

theorem foldl_est_snd_eq_zero (areas : List ℕ) (p : MapView) :
    (areas.foldl (fun v area => v.est area) p).2 = 0 ↔ p.2 = 0 ∧ ∀ area ∈ areas, area = 0 := by
  induction areas generalizing p with
  | nil => simp
  | cons area areas ih =>
    rw [List.foldl_cons, ih, est_snd_eq_zero, Gets, not_or, not_not, not_not, and_assoc,
      List.forall_mem_cons]

end MapView

/-! ## All inodes -/

variable {t s' : Names} {ok : Bool} {dir : ℕ} {name : List UInt8} {I : List ℕ}

namespace Names

/-- What the operations on mappings see of an inode. -/
def view (s : Names) (i : ℕ) : MapView := (s.mappingCount i, s.virtAddr i)

/-- The inode has an area, or gets one. -/
def Gets (s : Names) (i area : ℕ) : Prop := (s.view i).Gets area

/-- The operation returns, with the mappings of the inodes as they were. -/
def Keeps (s : Names) (I : List ℕ) (r : Option Names) : Prop :=
  ∃ s', r = some s' ∧ ∀ i ∈ I, (s.view i).Kept (s'.view i)

section view

variable (s : Names) {i j : ℕ} (area : ℕ)

@[simp] theorem view_establish : (s.establish i area).view i = (s.view i).est area :=
  Prod.ext (update_self ..) (update_self ..)

theorem view_establish_of_ne (h : j ≠ i) : (s.establish i area).view j = s.view j := by
  simp [view, establish, h]

@[simp] theorem view_destroy : (s.destroy i).view i = (s.view i).des := by
  by_cases h : s.virtAddr i = 0
  · exact (congrArg (view · i) (if_pos h)).trans (if_pos h).symm
  · refine (congrArg (view · i) (if_neg h)).trans (Eq.trans ?_ (if_neg h).symm)
    exact Prod.ext (update_self ..) (update_self ..)

theorem view_destroy_of_ne (h : j ≠ i) : (s.destroy i).view j = s.view j := by
  unfold destroy
  split
  · rfl
  · simp [view, h]

@[simp] theorem view_incLink : (s.incLink i).view = s.view := rfl

@[simp] theorem view_decLink : (s.decLink i).view = s.view := rfl

@[simp] theorem view_deleteEntry (dir : ℕ) (name : List UInt8) :
    (s.deleteEntry dir name).view = s.view := rfl

@[simp] theorem view_setLink (dir : ℕ) (name : List UInt8) :
    (s.setLink dir name i).view = s.view := rfl

@[simp] theorem view_newInode (dir : Bool) : (s.newInode i dir).view i = (0, 0) := by
  simp [view, newInode]

theorem view_newInode_of_ne (dir : Bool) (h : j ≠ i) : (s.newInode i dir).view j = s.view j := by
  simp [view, newInode, h]

theorem view_destroy_congr (h : t.view = s.view) : (t.destroy i).view = (s.destroy i).view := by
  refine funext fun j => ?_
  by_cases hj : j = i
  · rw [hj, view_destroy, view_destroy, h]
  · rw [view_destroy_of_ne _ hj, view_destroy_of_ne _ hj, h]

theorem view_addLink (h : s.addLink ok dir name i = some t) : t.view = s.view := by
  unfold addLink at h
  split_ifs at h
  obtain rfl := some_inj.1 h
  rfl

@[simp] theorem view_addNondir (ok : Bool) (dir : ℕ) (name : List UInt8) :
    (s.addNondir ok dir name i).view = s.view := by
  unfold addNondir
  cases h : s.addLink ok dir name i with
  | none => rfl
  | some t => exact view_addLink s h

theorem findEntry_mapped (h : (s.view dir).2 ≠ 0) (ok : Bool) (name : List UInt8) :
    s.findEntry ok dir name = some (decide (s.Has dir name) && ok) :=
  if_neg h

theorem findEntry_unmapped (h : (s.view dir).2 = 0) (ok : Bool) (name : List UInt8) :
    s.findEntry ok dir name = none :=
  if_pos h

variable {s} {area}

theorem establish_mapped (h : s.Gets i area) : ((s.establish i area).view i).2 ≠ 0 := by
  rw [view_establish]
  exact fun hc => MapView.est_snd_eq_zero.1 hc h

theorem establish_unmapped (h : ¬s.Gets i area) : ((s.establish i area).view i).2 = 0 := by
  rw [view_establish]
  exact MapView.est_snd_eq_zero.2 h

@[simp] theorem keeps_some : s.Keeps I (some s') ↔ ∀ i ∈ I, (s.view i).Kept (s'.view i) := by
  simp [Keeps]

@[simp] theorem not_keeps_none : ¬s.Keeps I none := by
  simp [Keeps]

end view

/-- The state with the inodes of a list unmapped. -/
def destroyAll (s : Names) (L : List ℕ) : Names := L.foldl destroy s

theorem view_destroyAll (L : List ℕ) (s : Names) (j : ℕ) :
    (s.destroyAll L).view j = MapView.des^[L.count j] (s.view j) := by
  induction L generalizing s with
  | nil => rfl
  | cons i L ih =>
    have hstep : (s.destroyAll (i :: L)) = (s.destroy i).destroyAll L := rfl
    rw [hstep, ih]
    by_cases hj : j = i
    · rw [hj, List.count_cons_self, iterate_succ_apply, view_destroy]
    · rw [List.count_cons_of_ne (Ne.symm hj), view_destroy_of_ne _ hj]

/-- The state with inodes mapped, each with what `nvmalloc` returns. -/
def establishAll (s : Names) (M : List (ℕ × ℕ)) : Names :=
  M.foldl (fun s p => s.establish p.1 p.2) s

section

variable (M : List (ℕ × ℕ)) (s : Names)
include M s

theorem view_establishAll (j : ℕ) : (s.establishAll M).view j =
      (M.filter fun p => p.1 = j).foldl (fun v p => v.est p.2) (s.view j) := by
  induction M generalizing s with
  | nil => rfl
  | cons p M ih =>
    have hstep : (s.establishAll (p :: M)) = (s.establish p.1 p.2).establishAll M := rfl
    rw [hstep, ih]
    by_cases hj : p.1 = j
    · rw [List.filter_cons_of_pos (by simpa using hj), List.foldl_cons, ← hj, view_establish]
    · rw [List.filter_cons_of_neg (by simpa using hj), view_establish_of_ne _ _ (Ne.symm hj)]

@[simp] theorem establishAll_entries : (s.establishAll M).entries = s.entries := by
  induction M generalizing s with
  | nil => rfl
  | cons p M ih => exact ih (s.establish p.1 p.2)

@[simp] theorem establishAll_isDir : (s.establishAll M).isDir = s.isDir := by
  induction M generalizing s with
  | nil => rfl
  | cons p M ih => exact ih (s.establish p.1 p.2)

end

/-- What `nvmalloc` returns for the mappings of one inode. -/
def areasFor (M : List (ℕ × ℕ)) (j : ℕ) : List ℕ := (M.filter fun p => p.1 = j).map Prod.snd

@[simp] theorem areasFor_nil (j : ℕ) : areasFor [] j = [] := rfl

theorem areasFor_cons (i area : ℕ) (M : List (ℕ × ℕ)) (j : ℕ) :
    areasFor ((i, area) :: M) j = if i = j then area :: areasFor M j else areasFor M j := by
  by_cases h : i = j <;> simp [areasFor, h]

theorem areasFor_append (M M' : List (ℕ × ℕ)) (j : ℕ) :
    areasFor (M ++ M') j = areasFor M j ++ areasFor M' j := by
  simp [areasFor]

theorem establishAll_unmapped {s : Names} {M : List (ℕ × ℕ)} {j : ℕ} :
    ((s.establishAll M).view j).2 = 0 ↔ (s.view j).2 = 0 ∧ ∀ area ∈ areasFor M j, area = 0 := by
  rw [view_establishAll, ← MapView.foldl_est_snd_eq_zero, areasFor, foldl_map]

theorem view_destroyAll_congr {s : Names} (h : t.view = s.view) (L : List ℕ) :
    (t.destroyAll L).view = (s.destroyAll L).view :=
  funext fun j => by rw [view_destroyAll, view_destroyAll, h]

/-- Inodes are mapped, and then unmapped in some order. -/
theorem keeps_all {s : Names} {M : List (ℕ × ℕ)} {L : List ℕ}
    (hs' : s'.view = ((s.establishAll M).destroyAll L).view) (hL : L.Perm (M.map Prod.fst)) :
    s.Keeps I (some s') ↔ ∀ j ∈ I, (s.view j).KeptBy (areasFor M j) := by
  rw [keeps_some, hs']
  refine forall₂_congr fun j _ => ?_
  have hcount : L.count j = (areasFor M j).length := by
    rw [hL.count_eq, areasFor, length_map, List.count, List.countP_map, countP_eq_length_filter]
    rfl
  rw [view_destroyAll, view_establishAll, hcount, MapView.KeptBy, areasFor, foldl_map]

/-! ## The kernel's inodes -/

/-- The mappings are those of the inodes in core. -/
def MapsOf (n : Names) (s : Space) : Prop :=
  ∀ i, n.view i = ((s.inode i).mappingCount, (s.inode i).iVirtAddr)

/-- `rdfs_establish_mapping` on the inodes in core. -/
theorem MapsOf.establish {n : Names} {s : Space} (h : n.MapsOf s) (sb : Super) (f ptr : ℕ) :
    ∃ area, (n.establish f area).MapsOf (s.establish sb f ptr).2 := by
  obtain ⟨r, hr⟩ : ∃ r, takeArea sb s.master.nvm.mem s.areas
    { s.inode f with mappingCount := (s.inode f).mappingCount + 1 } ptr = r := ⟨_, rfl⟩
  have hcount : r.1.mappingCount = (s.inode f).mappingCount + 1 := by
    rw [← hr, takeArea]
    split_ifs <;> rfl
  have haddr : (s.inode f).iVirtAddr ≠ 0 → r.1.iVirtAddr = (s.inode f).iVirtAddr := fun hv => by
    rw [← hr, takeArea, if_pos hv]
  refine ⟨r.1.iVirtAddr, fun i => ?_⟩
  rw [Space.establish_eq hr, Space.put_inode]
  by_cases hi : i = f
  · rw [hi, update_self, view_establish, h f, MapView.est, hcount]
    refine Prod.ext rfl ?_
    simp only
    split_ifs with hv
    · rfl
    · exact (haddr hv).symm
  · rw [update_of_ne hi, view_establish_of_ne _ _ hi, h i]

/-- `rdfs_destroy_mapping` on the inodes in core. -/
theorem MapsOf.destroy {n : Names} {s : Space} (h : n.MapsOf s) {sb : Super} {f : ℕ}
    {r : ℤ × Space} (hr : s.destroy sb f = some r) : (n.destroy f).MapsOf r.2 := by
  obtain ⟨x, hx, rfl⟩ := map_eq_some_iff.1 hr
  have hview : (x.2.1.mappingCount, x.2.1.iVirtAddr) =
      MapView.des ((s.inode f).mappingCount, (s.inode f).iVirtAddr) := by
    unfold rdfsDestroyMapping at hx
    unfold MapView.des
    simp only at hx ⊢
    split_ifs at hx ⊢ with hv hc
    · obtain rfl := some_inj.1 hx
      rfl
    · obtain rfl := some_inj.1 hx
      rfl
    · obtain ⟨areas, -, rfl⟩ := map_eq_some_iff.1 hx
      rfl
  intro i
  rw [Space.put_inode]
  by_cases hi : i = f
  · rw [hi, update_self, view_destroy, h f, hview]
  · rw [update_of_ne hi, view_destroy_of_ne _ hi, h i]

/-! ## Operations -/

section keeps

variable (s : Names) (dir : ℕ) (name : List UInt8)

/-- An operation that maps one directory. -/
theorem keeps_around {i area : ℕ} (hmem : i ∈ I)
    (ht : t.view = ((s.establish i area).destroy i).view) : s.Keeps I (some t) ↔ s.Gets i area := by
  rw [keeps_some, ht]
  refine ⟨fun h => ?_, fun h j _ => ?_⟩
  · have := h i hmem
    rwa [view_destroy, view_establish, MapView.kept_des_est] at this
  · by_cases hj : j = i
    · rw [hj, view_destroy, view_establish]
      exact MapView.kept_des_est.2 h
    · rw [view_destroy_of_ne _ hj, view_establish_of_ne _ _ hj]
      exact MapView.kept_self

theorem keeps_lookup (area : ℕ) (find : Bool) :
    s.Keeps [dir] (s.lookup dir name area find) ↔ s.Gets dir area := by
  unfold lookup
  by_cases h : s.Gets dir area
  · simp only [findEntry_mapped _ (establish_mapped h)]
    exact keeps_around s (List.mem_singleton_self dir) rfl
  · simp [findEntry_unmapped _ (establish_unmapped h), h]

theorem keeps_readdir (inode area : ℕ) (atEnd : Bool) :
    s.Keeps [inode] (s.readdir inode area atEnd) ↔ s.Gets inode area := by
  simp only [readdir]
  split_ifs with h
  · exact iff_of_false not_keeps_none fun hg => establish_mapped hg h.2
  · exact keeps_around s (List.mem_singleton_self inode) rfl

theorem keeps_create (o : CreateOutcome) (hnew : ∀ i ∈ o.newInode, i ≠ dir ∧ s.view i = (0, 0)) :
    s.Keeps (dir :: o.newInode.toList) (some (s.create dir name o)) ↔
      o.newInode = none ∨ s.Gets dir o.area := by
  cases hi : o.newInode with
  | none => simp [create, hi]
  | some i =>
    obtain ⟨hne, hv⟩ := hnew i hi
    simp [create, hi, hne, hne.symm, view_destroy_of_ne, view_establish_of_ne, view_newInode_of_ne,
      MapView.kept_des_est, Gets, hv]

theorem keeps_symlink (o : SymlinkOutcome) (hnew : ∀ i ∈ o.newInode, i ≠ dir ∧ s.view i = (0, 0)) :
    s.Keeps (dir :: o.newInode.toList) (s.symlink dir name o) ↔
      o.newInode = none ∨ o.allocBlocks = false ∨ (o.inodeArea ≠ 0 ∧ s.Gets dir o.area) := by
  cases hi : o.newInode with
  | none => simp [symlink, hi]
  | some i =>
    obtain ⟨hne, hv⟩ := hnew i hi
    have hvirt : ((s.newInode i false).establish i o.inodeArea).virtAddr i = o.inodeArea := by
      simp [establish, newInode]
    simp only [symlink, hi, hvirt]
    split_ifs with h1 h2
    · simp [h1, view_newInode_of_ne, hne.symm, hv]
    · simp [h1, h2]
    · have hgets : MapView.Gets (0, 0) o.inodeArea := Or.inr h2
      simp [h1, h2, hne, hne.symm, view_destroy_of_ne, view_establish_of_ne, view_newInode_of_ne,
        MapView.kept_des_est, Gets, hv, hgets]

theorem keeps_link (inode area : ℕ) (ok : Bool) :
    s.Keeps [inode, dir] (some (s.link inode dir name area ok)) ↔ s.Gets dir area := by
  exact keeps_around s (by simp) (view_destroy_congr _ (view_addNondir _ ok dir name))

variable {s dir} in
theorem unlink_view {o : UnlinkOutcome} (h : s.Gets dir o.area) (inode : ℕ) :
    ∃ r, s.unlink dir name inode o = some r ∧
      r.2.view = ((s.establish dir o.area).destroy dir).view := by
  simp only [unlink, findEntry_mapped _ (establish_mapped h), map_some]
  refine ⟨_, rfl, ?_⟩
  split_ifs
  · exact view_destroy_congr _ rfl
  · rfl

variable {s dir} in
theorem unlink_unmapped {o : UnlinkOutcome} (h : ¬s.Gets dir o.area) (inode : ℕ) :
    s.unlink dir name inode o = none := by
  simp [unlink, findEntry_unmapped _ (establish_unmapped h)]

theorem keeps_unlink (inode : ℕ) (o : UnlinkOutcome) :
    s.Keeps [dir, inode] ((s.unlink dir name inode o).map Prod.snd) ↔ s.Gets dir o.area := by
  by_cases h : s.Gets dir o.area
  · obtain ⟨r, hr, hview⟩ := unlink_view name h inode
    rw [hr]
    exact keeps_around s (by simp) hview
  · simp [unlink_unmapped name h, h]

theorem makeEmpty_view_of_ne {i j : ℕ} (hj : j ≠ i) (o : MkdirOutcome) :
    (s.makeEmpty i o).2.view j = s.view j := by
  simp only [makeEmpty]
  split_ifs <;> simp [view_destroy_of_ne, view_establish_of_ne, hj]

/-- `rdfs_make_empty` unmaps the inode if it gets to its end. -/
theorem makeEmpty_kept {i : ℕ} (hv : s.view i = (0, 0)) (o : MkdirOutcome) :
    MapView.Kept (0, 0) ((s.makeEmpty i o).2.view i) ↔
      o.inodeArea ≠ 0 ∧ o.nvmap = true ∧ o.allocBlocks = true := by
  have hest : (s.establish i o.inodeArea).view i = (1, o.inodeArea) := by
    rw [view_establish, hv]
    rfl
  have hvirt : (s.establish i o.inodeArea).virtAddr i = o.inodeArea := congrArg Prod.snd hest
  have hleft : ¬MapView.Kept (0, 0) ((s.establish i o.inodeArea).view i) :=
    hest ▸ MapView.not_kept (by simp)
  simp only [makeEmpty, hvirt]
  split_ifs with h1 h2
  · refine iff_of_false hleft fun h => ?_
    rcases h1 with h1 | h1
    · exact h.1 h1
    · simp [h1] at h
  · exact iff_of_false hleft fun h => by simp [h2] at h
  · have hkept : MapView.Kept (0, 0) (MapView.est o.inodeArea (0, 0)).des ↔ _ :=
      MapView.kept_des_est
    rw [view_destroy, view_establish, hv, hkept]
    simp only [not_or] at h1
    exact iff_of_true (Or.inr h1.1) ⟨h1.1, by simpa using h1.2, by simpa using h2⟩

theorem keeps_mkdir (o : MkdirOutcome) (hnew : ∀ i ∈ o.newInode, i ≠ dir ∧ s.view i = (0, 0)) :
    s.Keeps (dir :: o.newInode.toList) (some (s.mkdir dir name o)) ↔
      (o.newInode = none ∧ (s.view dir).2 = 0) ∨
        (o.newInode.isSome ∧ s.Gets dir o.area ∧ o.inodeArea ≠ 0 ∧ o.nvmap = true ∧
          o.allocBlocks = true) := by
  cases hi : o.newInode with
  | none => simp [mkdir, hi, MapView.kept_des]
  | some i =>
    obtain ⟨hne, hv⟩ := hnew i hi
    obtain ⟨u, hu⟩ : ∃ u, (((s.incLink dir).newInode i true).incLink i).establish dir o.area = u :=
      ⟨_, rfl⟩
    have huDir : u.view dir = (s.view dir).est o.area := by
      rw [← hu, view_establish, view_incLink, view_newInode_of_ne _ _ hne.symm, view_incLink]
    have huNew : u.view i = (0, 0) := by
      rw [← hu, view_establish_of_ne _ _ hne, view_incLink, view_newInode]
    obtain ⟨t, hmk, ht⟩ : ∃ t : Names, s.mkdir dir name o = t.destroy dir ∧
        t.view = (u.makeEmpty i o).2.view := by
      simp only [mkdir, hi, hu]
      split_ifs
      · exact ⟨_, rfl, rfl⟩
      · cases hl : (u.makeEmpty i o).2.addLink o.addLink dir name i with
        | none => exact ⟨_, rfl, rfl⟩
        | some t => exact ⟨t, rfl, view_addLink _ hl⟩
    rw [hmk, keeps_some, view_destroy_congr _ ht]
    simp [view_destroy_of_ne, hne, makeEmpty_view_of_ne _ hne.symm, huDir, hv,
      makeEmpty_kept _ huNew, MapView.kept_des_est, Gets]

theorem keeps_rmdir (inode area : ℕ) (empty : Bool) (o : UnlinkOutcome) (hne : inode ≠ dir) :
    s.Keeps [dir, inode] (s.rmdir dir name inode area empty o) ↔ s.Gets inode area ∧
        ((∀ e ∈ s.entries, e.dir ≠ inode) ∧ empty = true → s.Gets dir o.area) := by
  simp only [rmdir]
  by_cases h : s.Gets inode area
  · have hempty : (s.establish inode area).emptyDir empty inode =
        some (decide (∀ e ∈ s.entries, e.dir ≠ inode) && empty) := if_neg (establish_mapped h)
    have hgets : (s.establish inode area).Gets dir o.area ↔ s.Gets dir o.area := by
      rw [Gets, view_establish_of_ne _ _ hne.symm, Gets]
    simp only [hempty, bind_some, Bool.and_eq_true, decide_eq_true_eq]
    split_ifs with he
    · by_cases hd : s.Gets dir o.area
      · obtain ⟨r, hr, hview⟩ := unlink_view name (hgets.2 hd) inode
        have hlinks : (if r.1 = true then (r.2.decLink inode).decLink dir else r.2).view =
            r.2.view := by
          split_ifs <;> rfl
        rw [hr, map_some, keeps_some, view_destroy_congr _ hlinks]
        have hd' : (s.view dir).Gets o.area := hd
        simp [view_destroy_of_ne, hne, hne.symm, hview, view_establish_of_ne,
          MapView.kept_des_est, Gets, hd']
      · rw [unlink_unmapped name (mt hgets.1 hd)]
        exact iff_of_false not_keeps_none fun hc => hd (hc.2 he)
    · rw [keeps_around s (by simp) rfl]
      simp [he]
  · have hempty : (s.establish inode area).emptyDir empty inode = none :=
      if_pos (establish_unmapped h)
    simp [hempty, h]

end keeps

/-! ## Renaming -/

/-- The inodes of `rdfs_rename`, of which only the two directories may be the same. -/
structure RenameDistinct (oldDir newDir oldInode : ℕ) (newInode : Option ℕ) : Prop where
  old_ne_oldDir : oldInode ≠ oldDir
  old_ne_newDir : oldInode ≠ newDir
  new_ne : ∀ n ∈ newInode, n ≠ oldDir ∧ n ≠ newDir ∧ n ≠ oldInode

/-- The condition on the areas of `rdfs_rename` beside that of the old directory. -/
def RenameGets (s : Names) (oldDir newDir oldInode : ℕ) (newInode : Option ℕ) (o : RenameOutcome)
    (reached : Prop) : Prop :=
  (s.isDir oldInode = true → s.Gets oldInode o.oldInodeArea) ∧
    (∀ n ∈ newInode, s.Gets n o.newInodeArea) ∧
      (reached → (oldDir ≠ newDir → s.Gets newDir o.newDirArea) ∧
        (oldDir = newDir → 0 ≤ s.mappingCount oldDir))

section rename

variable {s : Names} {oldDir newDir oldInode : ℕ} {oldName newName : List UInt8}
  {newInode : Option ℕ} {o : RenameOutcome}

/-- The inodes that `rdfs_rename` has mapped when it tests `new_inode`. -/
def renameOld (s : Names) (oldDir oldInode : ℕ) (o : RenameOutcome) : List (ℕ × ℕ) :=
  (oldDir, o.oldDirArea) :: if s.isDir oldInode = true then [(oldInode, o.oldInodeArea)] else []

/-- All inodes that `rdfs_rename` maps; `reached` if it gets to the new directory. -/
def renameMaps (s : Names) (oldDir newDir oldInode : ℕ) (newInode : Option ℕ) (o : RenameOutcome)
    (reached : Prop) [Decidable reached] : List (ℕ × ℕ) :=
  s.renameOld oldDir oldInode o ++ newInode.toList.map (fun n => (n, o.newInodeArea)) ++
    if reached then [(newDir, o.newDirArea)] else []

/-- The inodes that `rdfs_rename` unmaps before the directories. -/
def renameInodes (s : Names) (oldInode : ℕ) (newInode : Option ℕ) : List ℕ :=
  newInode.toList ++ if s.isDir oldInode = true then [oldInode] else []

theorem areasFor_newInode {j : ℕ} (h : ∀ n ∈ newInode, n ≠ j) (area : ℕ) :
    areasFor (newInode.toList.map fun n => (n, area)) j = [] := by
  cases newInode with
  | none => rfl
  | some n => simp [areasFor_cons, h n rfl]

section areas

variable (hne : RenameDistinct oldDir newDir oldInode newInode) (reached : Prop)
  [Decidable reached]
include hne

theorem areasFor_oldDir : areasFor (s.renameMaps oldDir newDir oldInode newInode o reached) oldDir =
    o.oldDirArea :: if reached ∧ newDir = oldDir then [o.newDirArea] else [] := by
  rw [renameMaps, renameOld, areasFor_append, areasFor_append, areasFor_cons, if_pos rfl,
    areasFor_newInode fun n hn => (hne.new_ne n hn).1]
  split_ifs <;> simp_all [areasFor_cons, hne.old_ne_oldDir]

theorem areasFor_newDir (hd : oldDir ≠ newDir) :
    areasFor (s.renameMaps oldDir newDir oldInode newInode o reached) newDir =
      if reached then [o.newDirArea] else [] := by
  rw [renameMaps, renameOld, areasFor_append, areasFor_append, areasFor_cons, if_neg hd,
    areasFor_newInode fun n hn => (hne.new_ne n hn).2.1]
  split_ifs <;> simp [areasFor_cons, hne.old_ne_newDir]

theorem areasFor_oldInode :
    areasFor (s.renameMaps oldDir newDir oldInode newInode o reached) oldInode =
      if s.isDir oldInode = true then [o.oldInodeArea] else [] := by
  rw [renameMaps, renameOld, areasFor_append, areasFor_append, areasFor_cons,
    if_neg hne.old_ne_oldDir.symm, areasFor_newInode fun n hn => (hne.new_ne n hn).2.2]
  split_ifs <;> simp [areasFor_cons, hne.old_ne_newDir.symm]

theorem areasFor_new {n : ℕ} (hn : n ∈ newInode) :
    areasFor (s.renameMaps oldDir newDir oldInode newInode o reached) n = [o.newInodeArea] := by
  obtain ⟨h1, h2, h3⟩ := hne.new_ne n hn
  obtain rfl : newInode = some n := hn
  rw [renameMaps, renameOld, areasFor_append, areasFor_append, areasFor_cons, if_neg h1.symm]
  split_ifs <;> simp [areasFor_cons, h2.symm, h3.symm]

theorem keptBy_renameMaps (hold : s.Gets oldDir o.oldDirArea) :
    (∀ j ∈ oldDir :: newDir :: oldInode :: newInode.toList,
      (s.view j).KeptBy (areasFor (s.renameMaps oldDir newDir oldInode newInode o reached) j)) ↔
      RenameGets s oldDir newDir oldInode newInode o reached := by
  have hdirs : (s.view oldDir).KeptBy
        (areasFor (s.renameMaps oldDir newDir oldInode newInode o reached) oldDir) ∧
      (s.view newDir).KeptBy
        (areasFor (s.renameMaps oldDir newDir oldInode newInode o reached) newDir) ↔
      (reached → (oldDir ≠ newDir → s.Gets newDir o.newDirArea) ∧
        (oldDir = newDir → 0 ≤ s.mappingCount oldDir)) := by
    have hone : (s.view oldDir).KeptBy [o.oldDirArea] := MapView.keptBy_singleton.2 hold
    rcases eq_or_ne oldDir newDir with rfl | hd
    · rw [and_self, areasFor_oldDir hne]
      by_cases hr : reached
      · have hcount : (s.view oldDir).1 = s.mappingCount oldDir := rfl
        rw [if_pos ⟨hr, rfl⟩, MapView.keptBy_pair hold, hcount]
        simp [hr]
      · simpa [hr] using hone
    · rw [areasFor_oldDir hne, areasFor_newDir hne reached hd, if_neg fun hc => hd hc.2.symm,
        and_iff_right hone]
      by_cases hr : reached <;> simp [hr, hd, Gets]
  have holdInode : (s.view oldInode).KeptBy
        (areasFor (s.renameMaps oldDir newDir oldInode newInode o reached) oldInode) ↔
      (s.isDir oldInode = true → s.Gets oldInode o.oldInodeArea) := by
    rw [areasFor_oldInode hne]
    split_ifs with hk <;> simp [hk, Gets]
  have hnewInode : (∀ n ∈ newInode.toList, (s.view n).KeptBy
        (areasFor (s.renameMaps oldDir newDir oldInode newInode o reached) n)) ↔
      ∀ n ∈ newInode, s.Gets n o.newInodeArea := by
    simp only [Option.mem_toList]
    exact forall₂_congr fun n hn => by
      rw [areasFor_new hne reached hn, MapView.keptBy_singleton, Gets]
  rw [RenameGets, ← holdInode, ← hnewInode, ← hdirs]
  simp only [List.forall_mem_cons]
  tauto

end areas

theorem renameOut_eq (t : Names) (oldDir oldInode : ℕ) (newInode : Option ℕ) :
    t.renameOut oldDir oldInode newInode =
      t.destroyAll (t.renameInodes oldInode newInode ++ [oldDir]) := by
  cases newInode <;> cases hk : t.isDir oldInode <;> simp [renameOut, destroyAll, renameInodes, hk]

/-- The end of `rdfs_rename`, which finds the old entry again or follows a null pointer. -/
theorem renameEnd_cases (hmapped : (t.view oldDir).2 ≠ 0) (hhas : t.Has oldDir oldName)
    (newDir oldInode : ℕ) (newInode : Option ℕ) (o : RenameOutcome) :
    (o.findAgain = false ∧ t.renameEnd oldDir oldName newDir oldInode newInode o = none) ∨
      (o.findAgain = true ∧ ∃ s', t.renameEnd oldDir oldName newDir oldInode newInode o = some s' ∧
        s'.view = (t.destroyAll (t.renameInodes oldInode newInode ++ [oldDir, newDir])).view) := by
  rw [renameEnd, findEntry_mapped _ hmapped, bind_some, decide_eq_true hhas, Bool.true_and]
  cases hf : o.findAgain with
  | false => exact Or.inl ⟨rfl, rfl⟩
  | true =>
    refine Or.inr ⟨rfl, _, rfl, ?_⟩
    obtain ⟨x, hx, hview⟩ : ∃ x : Names, x = (if t.isDir oldInode = true then
        (if o.delete = true then t.deleteEntry oldDir oldName else t).decLink oldDir
        else if o.delete = true then t.deleteEntry oldDir oldName else t) ∧ x.view = t.view := by
      refine ⟨_, rfl, ?_⟩
      split_ifs <;> rfl
    rw [← view_destroyAll_congr hview]
    cases newInode <;> cases hk : t.isDir oldInode <;>
      simp [destroyAll, renameInodes, hk, hx]

theorem renameInodes_perm (s : Names) (oldDir newDir oldInode : ℕ) (newInode : Option ℕ)
    (o : RenameOutcome) (reached : Prop) [Decidable reached] :
    (s.renameInodes oldInode newInode ++ oldDir :: if reached then [newDir] else []).Perm
      ((s.renameMaps oldDir newDir oldInode newInode o reached).map Prod.fst) := by
  rw [perm_iff_count]
  intro j
  simp only [renameInodes, renameMaps, renameOld, map_append, List.map_cons, count_append,
    List.count_cons]
  cases newInode <;> split_ifs <;> simp <;> omega

/-- `rdfs_rename` returns from a state `t` in which it has mapped what it maps. -/
theorem keeps_return (hne : RenameDistinct oldDir newDir oldInode newInode)
    (hold : s.Gets oldDir o.oldDirArea) (reached : Prop) [Decidable reached]
    (ht : t.view = (s.establishAll (s.renameMaps oldDir newDir oldInode newInode o reached)).view)
    {L : List ℕ} (hs' : s'.view = (t.destroyAll L).view)
    (hL : L.Perm (s.renameInodes oldInode newInode ++ oldDir :: if reached then [newDir] else [])) :
    s.Keeps (oldDir :: newDir :: oldInode :: newInode.toList) (some s') ↔
      RenameGets s oldDir newDir oldInode newInode o reached := by
  rw [keeps_all (hs'.trans (view_destroyAll_congr ht L))
    (hL.trans (renameInodes_perm s oldDir newDir oldInode newInode o reached))]
  exact keptBy_renameMaps hne reached hold

/-- `rdfs_rename` gets to the new directory. -/
def RenameReaches (s : Names) (oldInode : ℕ) (newInode : Option ℕ) (o : RenameOutcome) : Prop :=
  ∀ n ∈ newInode, s.isDir oldInode = true → (∀ e ∈ s.entries, e.dir ≠ n) ∧ o.empty = true

/-- `rdfs_rename` enters the inode in the new directory. -/
def RenameEnters (s : Names) (newDir : ℕ) (newName : List UInt8) (newInode : Option ℕ)
    (o : RenameOutcome) : Prop :=
  if newInode.isSome then s.Has newDir newName ∧ o.findNew = true
  else ¬s.Has newDir newName ∧ o.addLink = true

theorem renameInodes_congr (h : t.isDir = s.isDir) :
    t.renameInodes oldInode newInode = s.renameInodes oldInode newInode := by
  rw [renameInodes, renameInodes, h]

section

variable (hne : RenameDistinct oldDir newDir oldInode newInode) (hold : s.Gets oldDir o.oldDirArea)
include hne hold

theorem oldDir_mapped (reached : Prop) [Decidable reached] :
    ((s.establishAll (s.renameMaps oldDir newDir oldInode newInode o reached)).view oldDir).2 ≠
      0 := by
  rw [Ne, establishAll_unmapped, areasFor_oldDir hne]
  rintro ⟨hv, harea⟩
  exact hold.elim (fun h => h hv) fun h => h (harea _ (List.mem_cons_self ..))

theorem newDir_mapped :
    ((s.establishAll (s.renameMaps oldDir newDir oldInode newInode o True)).view newDir).2 ≠ 0 ↔
      (oldDir ≠ newDir → s.Gets newDir o.newDirArea) := by
  rcases eq_or_ne oldDir newDir with rfl | hd
  · simpa using oldDir_mapped hne hold True
  · rw [Ne, establishAll_unmapped, areasFor_newDir hne True hd]
    simp [hd, Gets, MapView.Gets, imp_iff_not_or]

section

variable (ht : t.view = (s.establishAll (s.renameMaps oldDir newDir oldInode newInode o True)).view)
  (hdir : t.isDir = s.isDir)
include ht hdir

theorem keeps_renameEnd (hhas : t.Has oldDir oldName) :
    s.Keeps (oldDir :: newDir :: oldInode :: newInode.toList)
        (t.renameEnd oldDir oldName newDir oldInode newInode o) ↔
      RenameGets s oldDir newDir oldInode newInode o True ∧ o.findAgain = true := by
  have hmapped : (t.view oldDir).2 ≠ 0 := ht ▸ oldDir_mapped hne hold True
  rcases renameEnd_cases hmapped hhas newDir oldInode newInode o with ⟨hf, hr⟩ | ⟨hf, s', hr, hv⟩
  · simp [hr, hf]
  · rw [hr, keeps_return hne hold True ht hv (by rw [renameInodes_congr hdir]; rfl)]
    simp [hf]

theorem keeps_renameOut : s.Keeps (oldDir :: newDir :: oldInode :: newInode.toList)
        (some ((t.destroy newDir).renameOut oldDir oldInode newInode)) ↔
      RenameGets s oldDir newDir oldInode newInode o True := by
  have hdir' : (t.destroy newDir).isDir = s.isDir := by rw [destroy_isDir, hdir]
  refine keeps_return hne hold True ht
    (L := newDir :: (s.renameInodes oldInode newInode ++ [oldDir])) ?_ ?_
  · rw [renameOut_eq, renameInodes_congr hdir']
    rfl
  · simpa using (perm_append_singleton newDir (s.renameInodes oldInode newInode ++ [oldDir])).symm

end

end

theorem has_setLink (h : t.Has dir name) (newDir : ℕ) (newName : List UInt8) (ino : ℕ) :
    (t.setLink newDir newName ino).Has dir name := by
  obtain ⟨e, hmem, he⟩ := h
  by_cases hkey : e.dir = newDir ∧ e.name = newName
  · exact ⟨⟨newDir, newName, ino⟩, Multiset.mem_cons_self _ _, hkey.1 ▸ he.1, hkey.2 ▸ he.2⟩
  · exact ⟨e, Multiset.mem_cons_of_mem (Multiset.mem_filter.2 ⟨hmem, hkey⟩), he⟩

theorem addLink_eq_none {dir ino : ℕ} :
    t.addLink ok dir name ino = none ↔ (t.view dir).2 = 0 ∨ t.Has dir name ∨ ok = false := by
  unfold addLink
  split_ifs with h
  · exact iff_of_true rfl h
  · exact iff_of_false (by simp) h

theorem addLink_eq_some {t' : Names} {dir ino : ℕ} (h : t.addLink ok dir name ino = some t') :
    ¬t.Has dir name ∧ ok = true ∧ t' = { t with entries := ⟨dir, name, ino⟩ ::ₘ t.entries } := by
  unfold addLink at h
  split_ifs at h with hc
  rw [not_or, not_or, Bool.not_eq_false] at hc
  exact ⟨hc.2.1, hc.2.2, (some_inj.1 h).symm⟩

theorem keeps_renameNew_none (hne : RenameDistinct oldDir newDir oldInode none)
    (hold : s.Gets oldDir o.oldDirArea) (hhas : s.Has oldDir oldName) :
    s.Keeps [oldDir, newDir, oldInode]
        ((s.establishAll (s.renameOld oldDir oldInode o)).renameNew oldDir oldName newDir newName
          oldInode none o) ↔
      RenameGets s oldDir newDir oldInode none o True ∧
        (s.RenameEnters newDir newName none o → o.findAgain = true) := by
  obtain ⟨t, ht⟩ : ∃ t, (s.establishAll (s.renameOld oldDir oldInode o)).establish newDir
    o.newDirArea = t := ⟨_, rfl⟩
  have hview :
      t.view = (s.establishAll (s.renameMaps oldDir newDir oldInode none o True)).view := by
    simp [← ht, renameMaps, establishAll]
  have hentries : t.entries = s.entries := by simp [← ht]
  have hdir : t.isDir = s.isDir := by simp [← ht]
  simp only [renameNew, ht]
  cases hl : t.addLink o.addLink newDir newName oldInode with
  | none =>
    refine (keeps_renameOut hne hold hview hdir).trans (iff_self_and.2 fun hg henters => ?_)
    rw [addLink_eq_none, hview, has_congr hentries] at hl
    have hmapped := (newDir_mapped hne hold).2 (hg.2.2 trivial).1
    have henters : ¬s.Has newDir newName ∧ o.addLink = true := henters
    simp [hmapped, henters] at hl
  | some t' =>
    obtain ⟨hnot, hok, rfl⟩ := addLink_eq_some hl
    have henters : s.RenameEnters newDir newName none o :=
      ⟨(has_congr hentries _ _).not.1 hnot, hok⟩
    obtain ⟨e, hmem, he⟩ := hhas
    refine (keeps_renameEnd hne hold ?_ ?_ ⟨e, ?_, he⟩).trans (by simp [henters])
    · rw [← hview]
      split_ifs <;> rfl
    · split_ifs <;> exact hdir
    · split_ifs <;> exact Multiset.mem_cons_of_mem (hentries ▸ hmem)

section

variable {n : ℕ} (hne : RenameDistinct oldDir newDir oldInode (some n))
include hne

/-- The test of `rdfs_rename` that a directory it replaces is empty. -/
theorem renameEmpty_cases {u : Names}
    (hu : u = s.establishAll (s.renameMaps oldDir newDir oldInode (some n) o False))
    (hentries : u.entries = s.entries) :
    ((if s.isDir oldInode = true then u.emptyDir o.empty n else some true) = none ∧
        ¬s.Gets n o.newInodeArea) ∨
      ∃ b, (if s.isDir oldInode = true then u.emptyDir o.empty n else some true) = some b ∧
        (b = true ↔ s.RenameReaches oldInode (some n) o) := by
  have hmapped : (u.view n).2 = 0 ↔ ¬s.Gets n o.newInodeArea := by
    rw [hu, establishAll_unmapped, areasFor_new hne False rfl]
    simp [Gets, MapView.Gets]
  split_ifs with hk
  · by_cases h : (u.view n).2 = 0
    · exact Or.inl ⟨if_pos h, hmapped.1 h⟩
    · refine Or.inr ⟨_, if_neg h, ?_⟩
      simp [RenameReaches, hk, hentries]
  · exact Or.inr ⟨true, rfl, by simp [RenameReaches, hk]⟩

theorem keeps_renameNew_some (hold : s.Gets oldDir o.oldDirArea) (hhas : s.Has oldDir oldName) :
    s.Keeps [oldDir, newDir, oldInode, n]
        ((s.establishAll (s.renameOld oldDir oldInode o)).renameNew oldDir oldName newDir newName
          oldInode (some n) o) ↔
      RenameGets s oldDir newDir oldInode (some n) o (s.RenameReaches oldInode (some n) o) ∧
        (s.RenameReaches oldInode (some n) o → s.RenameEnters newDir newName (some n) o →
          o.findAgain = true) := by
  obtain ⟨u, hu⟩ : ∃ u, (s.establishAll (s.renameOld oldDir oldInode o)).establish n
    o.newInodeArea = u := ⟨_, rfl⟩
  have huview : u = s.establishAll (s.renameMaps oldDir newDir oldInode (some n) o False) := by
    simp [← hu, renameMaps, establishAll]
  have hentries : u.entries = s.entries := by simp [← hu]
  have hdir : u.isDir = s.isDir := by simp [← hu]
  simp only [renameNew, hu, establishAll_isDir]
  rcases renameEmpty_cases hne huview hentries with ⟨he, hgets⟩ | ⟨b, he, hreach⟩
  · rw [he]
    exact iff_of_false not_keeps_none fun h => hgets (h.1.2.1 n rfl)
  rw [he, bind_some]
  cases b with
  | false =>
    have hreach : ¬s.RenameReaches oldInode (some n) o := by simpa using hreach
    have hview : (u.renameOut oldDir oldInode (some n)).view =
        (u.destroyAll (s.renameInodes oldInode (some n) ++ [oldDir])).view := by
      rw [renameOut_eq, renameInodes_congr hdir]
    rw [if_pos rfl]
    refine (keeps_return hne hold False (by rw [huview]) hview (by simp)).trans ?_
    simp [hreach]
  | true =>
    have hreach : s.RenameReaches oldInode (some n) o := by simpa using hreach
    obtain ⟨t, ht⟩ : ∃ t, u.establish newDir o.newDirArea = t := ⟨_, rfl⟩
    have hview : t.view =
        (s.establishAll (s.renameMaps oldDir newDir oldInode (some n) o True)).view := by
      simp [← ht, huview, renameMaps, establishAll]
    have hentries : t.entries = s.entries := by rw [← ht, establish_entries, hentries]
    have hdir : t.isDir = s.isDir := by rw [← ht, establish_isDir, hdir]
    simp only [hreach, ht]
    by_cases hmapped : (t.view newDir).2 = 0
    · rw [findEntry_unmapped _ hmapped]
      refine iff_of_false not_keeps_none fun h => ?_
      exact (newDir_mapped hne hold).2 (h.1.2.2 trivial).1 (hview ▸ hmapped)
    rw [findEntry_mapped _ hmapped, bind_some]
    have henters : (decide (t.Has newDir newName) && o.findNew) = true ↔
        s.RenameEnters newDir newName (some n) o := by
      simp [RenameEnters, has_congr hentries]
    by_cases hf : (decide (t.Has newDir newName) && o.findNew) = false
    · rw [if_pos hf]
      rw [← Bool.not_eq_true, henters] at hf
      refine (keeps_renameOut hne hold hview hdir).trans ?_
      simp [hf]
    · rw [if_neg hf]
      rw [Bool.not_eq_false, henters] at hf
      have hhas' := has_setLink ((has_congr hentries _ _).2 hhas) newDir newName oldInode
      refine (keeps_renameEnd hne hold ?_ ?_ ?_).trans (by simp [hf])
      · rw [← hview]
        split_ifs <;> rfl
      · split_ifs <;> exact hdir
      · split_ifs <;> exact hhas'

end

theorem keeps_renameNew (newName : List UInt8)
    (hne : RenameDistinct oldDir newDir oldInode newInode)
    (hold : s.Gets oldDir o.oldDirArea) (hhas : s.Has oldDir oldName) :
    s.Keeps (oldDir :: newDir :: oldInode :: newInode.toList)
        ((s.establishAll (s.renameOld oldDir oldInode o)).renameNew oldDir oldName newDir newName
          oldInode newInode o) ↔
      RenameGets s oldDir newDir oldInode newInode o (s.RenameReaches oldInode newInode o) ∧
        (s.RenameReaches oldInode newInode o → s.RenameEnters newDir newName newInode o →
          o.findAgain = true) := by
  cases newInode with
  | none =>
    have hreach : s.RenameReaches oldInode none o := by simp [RenameReaches]
    simpa [hreach] using keeps_renameNew_none hne hold hhas
  | some n => exact keeps_renameNew_some hne hold hhas

theorem keeps_rename (hne : RenameDistinct oldDir newDir oldInode newInode) :
    s.Keeps (oldDir :: newDir :: oldInode :: newInode.toList)
        (s.rename oldDir oldName newDir newName oldInode newInode o) ↔
      s.Gets oldDir o.oldDirArea ∧ (s.Has oldDir oldName → o.find = true →
        RenameGets s oldDir newDir oldInode newInode o (s.RenameReaches oldInode newInode o) ∧
          (s.RenameReaches oldInode newInode o → s.RenameEnters newDir newName newInode o →
            o.findAgain = true)) := by
  by_cases hold : s.Gets oldDir o.oldDirArea
  · rw [and_iff_right hold]
    have hview := view_establish_of_ne s o.oldDirArea hne.old_ne_oldDir
    simp only [rename, findEntry_mapped _ (establish_mapped hold), bind_some,
      has_congr (establish_entries s oldDir o.oldDirArea)]
    by_cases hf : s.Has oldDir oldName ∧ o.find = true
    · have hnew := keeps_renameNew newName hne hold hf.1
      rw [if_neg (by simp [hf])]
      simp only [hf.1, hf.2, true_imp_iff]
      split_ifs with hk hv
      · refine iff_of_false not_keeps_none fun h => ?_
        have hgets : (s.establish oldDir o.oldDirArea).Gets oldInode o.oldInodeArea := by
          rw [Gets, hview]
          exact h.1.1 hk
        exact establish_mapped hgets hv
      · rwa [renameOld, if_pos (show s.isDir oldInode = true from hk)] at hnew
      · rwa [renameOld, if_neg (show ¬s.isDir oldInode = true from hk)] at hnew
    · rw [if_pos (by simpa using hf), keeps_around s (by simp) rfl]
      exact iff_of_true hold fun h1 h2 => absurd ⟨h1, h2⟩ hf
  · simp [rename, findEntry_unmapped _ (establish_unmapped hold), hold]

end rename

end Names

/-! ## The result -/

namespace NsOp

/-- The inodes that an operation is about. -/
def involved : NsOp → List ℕ
  | lookup dir _ _ _ => [dir]
  | readdir inode _ _ => [inode]
  | create dir _ o => dir :: o.newInode.toList
  | symlink dir _ o => dir :: o.newInode.toList
  | link inode dir _ _ _ => [inode, dir]
  | unlink dir _ inode _ => [dir, inode]
  | mkdir dir _ o => dir :: o.newInode.toList
  | rmdir dir _ inode _ _ _ => [dir, inode]
  | rename oldDir _ newDir _ oldInode newInode _ => oldDir :: newDir :: oldInode :: newInode.toList

/-- The inodes are different ones, and a new inode is not mapped. -/
def Distinct (s : Names) : NsOp → Prop
  | create dir _ o => ∀ i ∈ o.newInode, i ≠ dir ∧ s.view i = (0, 0)
  | symlink dir _ o => ∀ i ∈ o.newInode, i ≠ dir ∧ s.view i = (0, 0)
  | mkdir dir _ o => ∀ i ∈ o.newInode, i ≠ dir ∧ s.view i = (0, 0)
  | rmdir dir _ inode _ _ _ => inode ≠ dir
  | rename oldDir _ newDir _ oldInode newInode _ =>
    Names.RenameDistinct oldDir newDir oldInode newInode
  | _ => True

/-- The areas and the calls that an operation needs. -/
def GetsAreas (s : Names) : NsOp → Prop
  | lookup dir _ area _ => s.Gets dir area
  | readdir inode area _ => s.Gets inode area
  | create dir _ o => o.newInode = none ∨ s.Gets dir o.area
  | symlink dir _ o =>
    o.newInode = none ∨ o.allocBlocks = false ∨ (o.inodeArea ≠ 0 ∧ s.Gets dir o.area)
  | link _ dir _ area _ => s.Gets dir area
  | unlink dir _ _ o => s.Gets dir o.area
  | mkdir dir _ o => (o.newInode = none ∧ (s.view dir).2 = 0) ∨
      (o.newInode.isSome ∧ s.Gets dir o.area ∧ o.inodeArea ≠ 0 ∧ o.nvmap = true ∧
        o.allocBlocks = true)
  | rmdir dir _ inode area empty o => s.Gets inode area ∧
      ((∀ e ∈ s.entries, e.dir ≠ inode) ∧ empty = true → s.Gets dir o.area)
  | rename oldDir oldName newDir newName oldInode newInode o =>
    s.Gets oldDir o.oldDirArea ∧ (s.Has oldDir oldName → o.find = true →
      s.RenameGets oldDir newDir oldInode newInode o (s.RenameReaches oldInode newInode o) ∧
        (s.RenameReaches oldInode newInode o → s.RenameEnters newDir newName newInode o →
          o.findAgain = true))

/-- An operation returns with every mapping count as it was and without an area left at a count of
0 exactly when its areas and calls are there. -/
theorem mapsKept_iff (s : Names) (op : NsOp) (hop : op.Distinct s) :
    s.Keeps op.involved (op.run s) ↔ op.GetsAreas s := by
  cases op with
  | lookup dir name area find => exact s.keeps_lookup dir name area find
  | readdir inode area atEnd => exact s.keeps_readdir inode area atEnd
  | create dir name o => exact s.keeps_create dir name o hop
  | symlink dir name o => exact s.keeps_symlink dir name o hop
  | link inode dir name area ok => exact s.keeps_link dir name inode area ok
  | unlink dir name inode o => exact s.keeps_unlink dir name inode o
  | mkdir dir name o => exact s.keeps_mkdir dir name o hop
  | rmdir dir name inode area empty o => exact s.keeps_rmdir dir name inode area empty o hop
  | rename oldDir oldName newDir newName oldInode newInode o => exact Names.keeps_rename hop

theorem mapsKept_createA :
    createA.Distinct someNames ∧ someNames.Keeps createA.involved (createA.run someNames) := by
  have hdistinct : createA.Distinct someNames := by simp [createA, Distinct, someNames, Names.view]
  exact ⟨hdistinct, (mapsKept_iff someNames createA hdistinct).2 (Or.inr (Or.inr (by decide)))⟩

/-- `rdfs_create` in a directory that gets no area : the directory is counted as mapped. -/
theorem create_counts_without_area : ¬someNames.Keeps [0, 1]
    ((NsOp.create 0 [97] ⟨some 1, 0, true⟩).run someNames) := by
  rintro ⟨s', hs', h⟩
  obtain rfl := some_inj.1 hs'
  exact absurd (h 0 (List.mem_cons_self ..)).1 (by decide)

end NsOp

end Rdfs
