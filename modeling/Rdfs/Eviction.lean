import Rdfs.PageOwners

/-!
# Groups of files that leave the inode cache

Which groups of a slave a file holds is known only to its inode in core : the group it hands out,
and the groups it has used up. `rdfs_evict_inode` takes the inode out of core. It removes the table
of a file without links and puts its slot back on the free list, but it calls nothing that gives a
group back to the slave, and an inode that is read again starts without a group.

`CacheOp` are the creation of a file, the allocation of blocks, a change of the link count, and the
eviction, after which a file that still has links is read again. Blocks move groups between the
list of the slave and one inode (`Moved`), and an eviction drops what the inode holds
(`CacheOp.evict_count`). So in a run whose evictions all meet `CacheOp.KeepsGroups` every whole
group of the slave is accounted for (`CacheRun.groups_spec`), and an eviction that does not meet it
loses a group for good.
-/

namespace Rdfs

open List Function Option

/-! ## The code -/

/-- What `rdfs_evict_inode` does to an inode without links at time `now`, up to
`rdfs_destroy_mapping` : `mark_inode_dirty` calls `rdfs_dirty_inode`. -/
def dropInode (sb : Super) (g : Master) (inode : Inode) (stateNew : Bool) (now : ℕ) :
    Inode × Master :=
  let inode := { inode with iDtime := now }
  let w := rawRdfsWriteInode sb (rdfsUpdateInode sb g.nvm.mem inode) inode stateNew
  let r := rdfsTruncateBlocks sb { g with nvm := { g.nvm with mem := w.2 } } w.1 0 w.1.iSize now
  ({ r.1 with iSize := 0 }, r.2)

/-- `rdfs_evict_inode` of inode `f`, whose `struct inode` is at `inodePtr`; `none` if `nvfree`
follows a null pointer. -/
def Fs.evictInode (sb : Super) (s : Fs) (f inodePtr : ℕ) (stateNew : Bool) (now : ℕ) : Option Fs :=
  let s : Fs := { s with toSpace := (s.toSpace.establish sb f inodePtr).2 }
  let wantDelete : Bool := (s.inode f).iNlink = 0
  let s : Fs := if wantDelete then
      let r := dropInode sb s.master (s.inode f) stateNew now
      s.put f (r.1, r.2, s.areas)
    else s
  (s.toSpace.destroy sb f).map fun r =>
    let s : Fs := { s with toSpace := r.2 }
    if wantDelete then
      { s.setNvm (rdfsFreeInode sb s.master.nvm f now) with live := s.live.erase f }
    else s

/-- `rdfs_alloc_inode`, which clears the inode, and `rdfs_iget` of inode `f`. -/
def Fs.iget (sb : Super) (s : Fs) (f : ℕ) : Fs :=
  let inode := { (default : Inode) with iIno := f }
  let inode := match rdfsReadInode sb s.master.nvm.mem inode (getRdfsInode sb f) with
    | .ok inode => inode
    | .error _ => inode
  { s with inode := Function.update s.inode f inode }

/-- The operations on the inode cache. -/
inductive CacheOp
  | create (cpu : ℕ) (attrs : Inode) (umask : ℕ)
  | alloc (f cpu num zeroing : ℕ) (type : AllocType) (phys : ℕ)
  | setNlink (f nlink : ℕ)
  | evict (f inodePtr : ℕ) (stateNew : Bool) (now : ℕ)

namespace CacheOp

/-- What an operation does. A file that has links is read again after its eviction. -/
def run (sb : Super) (s : Fs) : CacheOp → Option Fs
  | create cpu attrs umask => some (s.newInode sb cpu attrs umask)
  | alloc f cpu num zeroing type phys =>
    let r := rdfsAllocBlocks sb cpu s.master (s.inode f) num zeroing type phys
    some (s.put f (r.2.inode, r.2.master, s.areas))
  | setNlink f nlink =>
    some (s.put f ({ s.inode f with iNlink := nlink }, s.master, s.areas))
  | evict f inodePtr stateNew now =>
    (s.evictInode sb f inodePtr stateNew now).map fun s' =>
      if (s.inode f).iNlink = 0 then s' else s'.iget sb f

/-- The operation is on a file that exists, and the root keeps its links. -/
def Valid (s : Fs) : CacheOp → Prop
  | create _ _ _ => True
  | alloc f _ num _ type _ =>
    f ∈ s.files ∧ num < 2 ^ 31 ∧ (type = .pte ↔ SIsReg (s.inode f).iMode)
  | setNlink f nlink => f ∈ s.files ∧ (f = 1 → nlink ≠ 0)
  | evict f _ _ _ => f ∈ s.files ∧ ((s.inode f).iNlink = 0 → f ∈ s.live)

instance (s : Fs) (o : CacheOp) : Decidable (o.Valid s) := by
  cases o <;> unfold Valid <;> infer_instance

end CacheOp

/-- States reached from a fresh mount, with a slave that offers `blocks` blocks, by operations that
meet the condition `C`. -/
inductive CacheRun {sb : Super} (R : Region sb) (blocks : ℕ) (C : Fs → CacheOp → Prop) : Fs → Prop
  | mount (m : Mem) (cpu : ℕ) (root : Inode) (slaves : SlaveInfos) (s : SlaveInfo)
      (nextNumaId : ℕ)
      (hslave : slaves rdfsSelectSlave = rdfsInitSlaveMemoryBitmapList s blocks) :
      CacheRun R blocks C (Fs.mount R m cpu root slaves nextNumaId)
  | op {s s' : Fs} (h : CacheRun R blocks C s) (o : CacheOp) (hv : o.Valid s) (hc : C s o)
      (hr : o.run sb s = some s') : CacheRun R blocks C s'

/-! ## Groups -/

/-- The first blocks of the groups an inode holds. -/
def BitmapInfo.groups (ri : BitmapInfo) : List ℕ :=
  ri.preBitmap.toList.map PreAllocBitmap.preStartBlockId ++
    ri.usedBitmapList.map MemBitmapBlock.startBlockId

@[simp] theorem BitmapInfo.groups_default : (default : BitmapInfo).groups = [] := rfl

/-- The first blocks of the groups on the list of a slave. -/
def SlaveInfo.groups (s : SlaveInfo) : List ℕ := s.bitmapHead.map MemBitmapBlock.startBlockId

/-- How many whole groups a slave has. -/
def SlaveInfo.wholeGroups (s : SlaveInfo) : ℕ := (s.totalBlockNums.tdiv 64).toNat

/-- The groups on the list of the slave, and those of the files. -/
def Fs.groups (s : Fs) : List ℕ :=
  (s.master.slaves rdfsSelectSlave).groups ++ s.files.flatMap fun f => (s.inode f).bitmaps.groups

/-- Every whole group of the slave is on its list or held by one file, and the free count is that of
the list and of the rest of the slave. -/
structure GroupsOk (s : Fs) : Prop where
  whole : ∀ g < (s.master.slaves rdfsSelectSlave).wholeGroups, s.groups.count (64 * g) = 1
  free : (s.master.slaves rdfsSelectSlave).freeBlockNums =
    64 * (s.master.slaves rdfsSelectSlave).bitmapHead.length +
      ((s.master.slaves rdfsSelectSlave).totalBlockNums -
        64 * (s.master.slaves rdfsSelectSlave).wholeGroups)

/-- A file is created in a slot that is not in use, and what leaves the cache holds no group of the
slave. -/
def CacheOp.KeepsGroups (sb : Super) (s : Fs) : CacheOp → Prop
  | create _ _ _ =>
    (s.master.nvm.numaDes (getANuma sb s.nextNumaId).1).freeInodeCount ≠ 0 → s.freeIno sb ∉ s.files
  | alloc _ _ _ _ _ _ | setNlink _ _ => True
  | evict f _ _ _ => ∀ g < (s.master.slaves rdfsSelectSlave).wholeGroups,
    64 * g ∉ (s.inode f).bitmaps.groups

/-! ## Blocks move groups -/

/-- Groups move between the list of a slave and one inode. A slave that has run out hands out
the first block -1, which is not that of a group. -/
structure Moved (s s' : SlaveInfo) (ri ri' : BitmapInfo) : Prop where
  total : s'.totalBlockNums = s.totalBlockNums
  free : s'.freeBlockNums - 64 * s'.bitmapHead.length = s.freeBlockNums - 64 * s.bitmapHead.length
  count : ∀ g, (s'.groups ++ ri'.groups).count (64 * g) = (s.groups ++ ri.groups).count (64 * g)
  known : (∀ pre ∈ ri.preBitmap, pre.preAllocSlaveId ≠ -1) →
    ∀ pre ∈ ri'.preBitmap, pre.preAllocSlaveId ≠ -1

theorem Moved.refl (s : SlaveInfo) (ri : BitmapInfo) : Moved s s ri ri :=
  ⟨rfl, rfl, fun _ => rfl, id⟩

variable {ri : BitmapInfo} {f ptr now : ℕ} {sb : Super} {stateNew : Bool}

theorem Moved.trans {s s' s'' : SlaveInfo} {ri' ri'' : BitmapInfo} (h : Moved s s' ri ri')
    (h' : Moved s' s'' ri' ri'') : Moved s s'' ri ri'' :=
  ⟨h'.total.trans h.total, h'.free.trans h.free, fun g => (h'.count g).trans (h.count g),
    fun hk => h'.known (h.known hk)⟩

/-- The group at the head of the list leaves it. -/
theorem rdfsAllocSlaveMemoryBitmap_groups (s : SlaveInfo) {start : ℕ} {s' : SlaveInfo}
    (hr : rdfsAllocSlaveMemoryBitmap s = (start, s')) : s'.totalBlockNums = s.totalBlockNums ∧
    s'.freeBlockNums - 64 * s'.bitmapHead.length = s.freeBlockNums - 64 * s.bitmapHead.length ∧
    ∀ g, (start :: s'.groups).count (64 * g) = s.groups.count (64 * g) := by
  have hnone : ∀ g, (u64 (-1) :: s.groups).count (64 * g) = s.groups.count (64 * g) := fun g =>
    count_cons_of_ne (by rw [show u64 (-1) = 2 ^ 64 - 1 by decide]; omega)
  unfold rdfsAllocSlaveMemoryBitmap at hr
  cases hl : s.bitmapHead with
  | nil =>
    rw [hl] at hr
    obtain ⟨rfl, rfl⟩ := Prod.mk.inj hr
    exact ⟨rfl, by rw [hl], hnone⟩
  | cons use tmp =>
    rw [hl] at hr
    split_ifs at hr with hf
    · obtain ⟨rfl, rfl⟩ := Prod.mk.inj hr
      exact ⟨rfl, by rw [hl], hnone⟩
    · obtain ⟨rfl, rfl⟩ := Prod.mk.inj hr
      refine ⟨rfl, ?_, fun g => ?_⟩
      · simp only [length_cons]
        push_cast
        omega
      · rw [SlaveInfo.groups, SlaveInfo.groups, hl, map_cons]

/-- An inode without a group takes one. -/
theorem Moved.newGroup (slaves : SlaveInfos) (used : List MemBitmapBlock) :
    Moved (slaves rdfsSelectSlave) ((Rdfs.newGroup slaves).2 rdfsSelectSlave) ⟨none, used⟩
      ⟨some (Rdfs.newGroup slaves).1, used⟩ := by
  rcases hr : rdfsAllocSlaveMemoryBitmap (slaves rdfsSelectSlave) with ⟨start, s'⟩
  obtain ⟨htotal, hfree, hcount⟩ := rdfsAllocSlaveMemoryBitmap_groups _ hr
  have hnew : Rdfs.newGroup slaves =
      (⟨0, start, rdfsSelectSlave, 0⟩, Function.update slaves rdfsSelectSlave s') := by
    rw [Rdfs.newGroup, hr]
  rw [hnew]
  dsimp only
  rw [update_self]
  refine ⟨htotal, hfree, fun g => ?_, fun _ pre hpre => ?_⟩
  · have := hcount g
    simp only [BitmapInfo.groups, toList_some, toList_none, map_cons,
      map_nil, singleton_append, nil_append, count_append, count_cons] at this ⊢
    omega
  · obtain rfl := some_inj.1 hpre
    exact (by decide : (rdfsSelectSlave : ℤ) ≠ -1)

/-- A group that is used up moves to the used list. -/
theorem Moved.retire (s : SlaveInfo) (pre : PreAllocBitmap) (used : List MemBitmapBlock) (id : ℕ) :
    Moved s s ⟨some pre, used⟩ ⟨none, ⟨id, pre.preStartBlockId⟩ :: used⟩ :=
  ⟨rfl, rfl, fun _ => rfl, fun _ _ h => by cases h⟩

section

variable (slaves : SlaveInfos) (hk : ∀ pre ∈ ri.preBitmap, pre.preAllocSlaveId ≠ -1)
include slaves hk

theorem Moved.refill :
    Moved (slaves rdfsSelectSlave) ((Rdfs.refill slaves ri).2.2 rdfsSelectSlave) ri
        (Rdfs.refill slaves ri).2.1 ∧
      (Rdfs.refill slaves ri).2.1.preBitmap = some (Rdfs.refill slaves ri).1 := by
  obtain ⟨pre, used⟩ := ri
  cases pre with
  | none =>
    have hr : Rdfs.refill slaves ⟨none, used⟩ =
        ((Rdfs.newGroup slaves).1, ⟨some (Rdfs.newGroup slaves).1, used⟩,
          (Rdfs.newGroup slaves).2) := by
      simp [Rdfs.refill, Rdfs.newGroup]
    rw [hr]
    exact ⟨Moved.newGroup slaves used, rfl⟩
  | some pre =>
    by_cases hi : pre.preIndex = 64
    · have hr : Rdfs.refill slaves ⟨some pre, used⟩ = ((Rdfs.newGroup slaves).1,
            ⟨some (Rdfs.newGroup slaves).1, ⟨u64 pre.preAllocSlaveId, pre.preStartBlockId⟩ :: used⟩,
            (Rdfs.newGroup slaves).2) := by
        simp [Rdfs.refill, hi, hk pre rfl]
      rw [hr]
      exact ⟨(Moved.retire _ pre used _).trans (Moved.newGroup slaves _), rfl⟩
    · have hr : Rdfs.refill slaves ⟨some pre, used⟩ = (pre, ⟨some pre, used⟩, slaves) := by
        simp [Rdfs.refill, hi]
      rw [hr]
      exact ⟨Moved.refl _ _, rfl⟩

theorem Moved.allocBlock :
    Moved (slaves rdfsSelectSlave) ((Rdfs.allocBlock slaves ri).2.2.2 rdfsSelectSlave) ri
      (Rdfs.allocBlock slaves ri).2.2.1 := by
  obtain ⟨h, hpre⟩ := Moved.refill slaves hk
  refine ⟨h.total, h.free, fun g => ?_, fun _ pre' hpre' => ?_⟩
  · rw [← h.count g]
    simp only [BitmapInfo.groups, hpre]
    rfl
  · obtain rfl := some_inj.1 hpre'
    exact h.known hk (Rdfs.refill slaves ri).1 hpre

end

theorem Moved.rdfsNewPagePte (sb : Super) (cpu : ℕ) (g : Master) (ni : ℕ)
    (hk : ∀ pre ∈ ri.preBitmap, pre.preAllocSlaveId ≠ -1) : Moved (g.slaves rdfsSelectSlave)
      ((Rdfs.rdfsNewPagePte sb cpu g ri ni).2.2.2.slaves rdfsSelectSlave) ri
      (Rdfs.rdfsNewPagePte sb cpu g ri ni).2.2.1 := by
  rw [Rdfs.rdfsNewPagePte]
  split_ifs
  · exact Moved.allocBlock g.slaves hk
  · exact Moved.allocBlock g.slaves hk

/-- The groups of the inode and of the slave before and after a part of `rdfs_alloc_blocks`. -/
def AllocState.Moves (a b : AllocState) : Prop :=
  Moved (a.master.slaves rdfsSelectSlave) (b.master.slaves rdfsSelectSlave) a.inode.bitmaps
    b.inode.bitmaps

theorem takeBlock_moves (sb : Super) (cpu zeroing : ℕ) (type : AllocType) (s : AllocState)
    (hk : ∀ pre ∈ s.inode.bitmaps.preBitmap, pre.preAllocSlaveId ≠ -1) :
    s.Moves (takeBlock sb cpu zeroing type s).2 := by
  cases type with
  | page => exact Moved.refl _ _
  | pte => exact Moved.rdfsNewPagePte sb cpu s.master _ hk

theorem allocLoop_moves (sb : Super) (cpu zeroing : ℕ) (type : AllocType) (num : ℕ) (s : AllocState)
    (hk : ∀ pre ∈ s.inode.bitmaps.preBitmap, pre.preAllocSlaveId ≠ -1) :
    s.Moves (allocLoop sb cpu zeroing type num s).2 := by
  fun_induction allocLoop sb cpu zeroing type num s with
  | case1 s => exact Moved.refl _ _
  | case2 num s t r h => exact takeBlock_moves sb cpu zeroing type s hk
  | case3 num s t r h ih =>
    -- the rest of a round moves nothing
    have hround : s.Moves r.2 := takeBlock_moves sb cpu zeroing type s hk
    exact hround.trans (ih (hround.known hk))

theorem allocStart_slaves (sb : Super) (cpu : ℕ) (g : Master) (inode : Inode) (num : ℤ)
    (type : AllocType) (phys : ℕ) :
    (allocStart sb cpu g inode num type phys).master.slaves = g.slaves := by
  cases type <;> simp only [allocStart]

/-! ## Evictions drop groups -/

/-- The slaves and the groups of the inodes are the same. -/
def SameGroups (s s' : Space) : Prop :=
  s'.master.slaves = s.master.slaves ∧ ∀ f, (s'.inode f).bitmaps = (s.inode f).bitmaps

theorem SameGroups.trans {s s' s'' : Space} (h : SameGroups s s') (h' : SameGroups s' s'') :
    SameGroups s s'' :=
  ⟨h'.1.trans h.1, fun f => (h'.2 f).trans (h.2 f)⟩

theorem SameGroups.put {s : Space} {r : Inode × Master × NvmLists}
    (hs : r.2.1.slaves = s.master.slaves) (hb : r.1.bitmaps = (s.inode f).bitmaps) :
    SameGroups s (s.put f r) := by
  refine ⟨hs, fun j => ?_⟩
  rw [Space.put_inode]
  by_cases hj : j = f
  · rw [hj, update_self, hb]
  · rw [update_of_ne hj]

theorem SameGroups.establish (sb : Super) (s : Space) (f ptr : ℕ) :
    SameGroups s (s.establish sb f ptr).2 ∧
      ((s.establish sb f ptr).2.inode f).iNlink = (s.inode f).iNlink := by
  obtain ⟨r, hr⟩ : ∃ r, takeArea sb s.master.nvm.mem s.areas
    { s.inode f with mappingCount := (s.inode f).mappingCount + 1 } ptr = r := ⟨_, rfl⟩
  obtain ⟨v, hv⟩ := takeArea_inode sb s.master.nvm.mem s.areas
    { s.inode f with mappingCount := (s.inode f).mappingCount + 1 } ptr
  rw [hr] at hv
  rw [Space.establish_eq hr]
  refine ⟨SameGroups.put rfl (by rw [hv]), ?_⟩
  rw [Space.put_inode, update_self, hv]

theorem SameGroups.destroy {s s' : Space} {e : ℤ} (hr : s.destroy sb f = some (e, s')) :
    SameGroups s s' := by
  obtain ⟨r, hd, hput⟩ := map_eq_some_iff.1 hr
  obtain rfl := (Prod.mk.inj hput).2
  have hframe : r.2.2.1.slaves = s.master.slaves ∧ r.2.1.bitmaps = (s.inode f).bitmaps := by
    rw [rdfsDestroyMapping] at hd
    dsimp only at hd
    split_ifs at hd
    · rw [← some_inj.1 hd]
      exact ⟨rfl, rfl⟩
    · rw [← some_inj.1 hd]
      exact ⟨rfl, rfl⟩
    · obtain ⟨areas, -, hd⟩ := map_eq_some_iff.1 hd
      rw [← hd]
      exact ⟨rfl, rfl⟩
  exact SameGroups.put hframe.1 hframe.2

theorem dropInode_frame (sb : Super) (g : Master) (inode : Inode) (stateNew : Bool) (now : ℕ) :
    (dropInode sb g inode stateNew now).2.slaves = g.slaves ∧
      (dropInode sb g inode stateNew now).1.bitmaps = inode.bitmaps := by
  obtain ⟨w, hw⟩ : ∃ w, rawRdfsWriteInode sb
    (rdfsUpdateInode sb g.nvm.mem { inode with iDtime := now }) { inode with iDtime := now }
    stateNew = w := ⟨_, rfl⟩
  have hbitmaps : w.1.bitmaps = inode.bitmaps := by
    simp only [← hw, rawRdfsWriteInode]
  simp only [dropInode, hw, rdfsTruncateBlocks, rawRdfsTruncateBlocks]
  split_ifs <;> exact ⟨rfl, hbitmaps⟩

/-- An eviction takes nothing from any inode in core and from no slave; a file without links is
gone. -/
theorem Fs.evictInode_frame {s s' : Fs} (hr : s.evictInode sb f ptr stateNew now = some s') :
    SameGroups s.toSpace s'.toSpace ∧
      s'.live = if (s.inode f).iNlink = 0 then s.live.erase f else s.live := by
  obtain ⟨hest, hnlink⟩ := SameGroups.establish sb s.toSpace f ptr
  generalize he : (s.toSpace.establish sb f ptr).2 = e
  rw [he] at hest hnlink
  simp only [evictInode, he, hnlink] at hr
  by_cases hn : (s.inode f).iNlink = 0
  · simp only [hn] at hr ⊢
    obtain ⟨⟨c, d⟩, hd, hr⟩ := map_eq_some_iff.1 hr
    have hframe := dropInode_frame sb e.master (e.inode f) stateNew now
    have hsame := (hest.trans (SameGroups.put hframe.1 hframe.2)).trans (SameGroups.destroy hd)
    rw [← hr]
    exact ⟨hsame, rfl⟩
  · simp only [hn] at hr ⊢
    obtain ⟨⟨c, d⟩, hd, hr⟩ := map_eq_some_iff.1 hr
    have hsame := hest.trans (SameGroups.destroy hd)
    rw [← hr]
    exact ⟨hsame, rfl⟩

/-! ## Runs -/

/-- What one member contributes to a count over a list. -/
theorem count_flatMap_of_mem {l : List ℕ} (hf : f ∈ l) (G : ℕ → List ℕ) (x : ℕ) :
    (l.flatMap G).count x = (G f).count x + ((l.erase f).flatMap G).count x := by
  rw [((perm_cons_erase hf).flatMap_right G).count_eq, flatMap_cons, count_append]

/-- The members other than `f` are not concerned by a change at `f`. -/
theorem flatMap_erase_congr {l : List ℕ} (hn : l.Nodup) {G G' : ℕ → List ℕ}
    (h : ∀ j ≠ f, G' j = G j) : (l.erase f).flatMap G' = (l.erase f).flatMap G :=
  flatMap_congr fun j hj => h j fun heq => hn.not_mem_erase (heq ▸ hj)

/-- An inode that is read again holds no group. -/
theorem Fs.iget_bitmaps (sb : Super) (s : Fs) (f : ℕ) :
    ((s.iget sb f).inode f).bitmaps = default := by
  rw [Fs.iget]
  dsimp only
  rw [update_self]
  split
  · rename_i inode hread
    rw [rdfsReadInode] at hread
    dsimp only at hread
    split_ifs at hread
    · cases hread
      rfl
    · cases hread
      rfl
  · rfl

/-- An eviction leaves the slaves alone, and drops the groups of the inode. -/
theorem CacheOp.evict_count {s s' : Fs} (hn : s.files.Nodup)
    (hv : (evict f ptr stateNew now).Valid s) (hr : (evict f ptr stateNew now).run sb s = some s') :
    s'.master.slaves = s.master.slaves ∧ s'.files.Nodup ∧
    (∀ j ∈ s'.files, (s'.inode j).bitmaps = default ∨
      (s'.inode j).bitmaps = (s.inode j).bitmaps ∧ j ∈ s.files) ∧
    ∀ x, s'.groups.count x + (s.inode f).bitmaps.groups.count x = s.groups.count x := by
  obtain ⟨e, he, hr⟩ := map_eq_some_iff.1 hr
  obtain ⟨⟨hslaves, hbitmaps⟩, hlive⟩ := Fs.evictInode_frame he
  by_cases hz : (s.inode f).iNlink = 0
  · rw [if_pos hz] at hr hlive
    subst hr
    have hf1 : f ≠ 1 := fun h => (nodup_cons.1 hn).1 (h ▸ hv.2 hz)
    have hfiles : e.files = s.files.erase f := by
      rw [Fs.files, Fs.files, hlive, erase_cons_tail (by simpa using hf1.symm)]
    refine ⟨hslaves, hfiles ▸ hn.erase f, fun j hj => Or.inr ⟨hbitmaps j, ?_⟩, fun x => ?_⟩
    · exact mem_of_mem_erase (hfiles ▸ hj)
    · rw [Fs.groups, Fs.groups, hslaves, hfiles]
      simp only [hbitmaps, count_append]
      rw [count_flatMap_of_mem hv.1]
      omega
  · rw [if_neg hz] at hr hlive
    subst hr
    have hfiles : (e.iget sb f).files = s.files := by
      rw [Fs.files, Fs.files, ← hlive]
      rfl
    have hother : ∀ j ≠ f, ((e.iget sb f).inode j).bitmaps = (s.inode j).bitmaps := by
      intro j hj
      rw [← hbitmaps j, Fs.iget]
      exact congrArg Inode.bitmaps (update_of_ne hj _ _)
    refine ⟨hslaves, hfiles ▸ hn, fun j hj => ?_, fun x => ?_⟩
    · by_cases hjf : j = f
      · exact Or.inl (hjf ▸ Fs.iget_bitmaps sb e f)
      · exact Or.inr ⟨hother j hjf, hfiles ▸ hj⟩
    · have hmaster : (e.iget sb f).master.slaves = s.master.slaves := hslaves
      have hrest : ((s.files.erase f).flatMap fun j => ((e.iget sb f).inode j).bitmaps.groups) =
          (s.files.erase f).flatMap fun j => (s.inode j).bitmaps.groups :=
        flatMap_erase_congr hn fun j hj => congrArg BitmapInfo.groups (hother j hj)
      rw [Fs.groups, Fs.groups, hmaster, hfiles, count_append, count_append,
        count_flatMap_of_mem hv.1, count_flatMap_of_mem hv.1, hrest, Fs.iget_bitmaps,
        BitmapInfo.groups_default, count_nil]
      omega

/-- The groups are accounted for, and the inodes in core know the slave of their group. -/
structure GroupsInv (s : Fs) : Prop extends GroupsOk s where
  nodup : s.files.Nodup
  known : ∀ f ∈ s.files, ∀ pre ∈ (s.inode f).bitmaps.preBitmap, pre.preAllocSlaveId ≠ -1

theorem GroupsInv.mount (R : Region sb) (m : Mem) (cpu : ℕ) (root : Inode) (slaves : SlaveInfos)
    (s : SlaveInfo) (nextNumaId blocks : ℕ)
    (hslave : slaves rdfsSelectSlave = rdfsInitSlaveMemoryBitmapList s blocks) :
    GroupsInv (Fs.mount R m cpu root slaves nextNumaId) := by
  have hslaves : (Fs.mount R m cpu root slaves nextNumaId).master.slaves rdfsSelectSlave =
    rdfsInitSlaveMemoryBitmapList s blocks := hslave
  have hbitmaps : ((Fs.mount R m cpu root slaves nextNumaId).inode 1).bitmaps = default := rfl
  have hfiles : (Fs.mount R m cpu root slaves nextNumaId).files = [1] := rfl
  refine ⟨⟨fun g hg => ?_, ?_⟩, by simp [hfiles], fun f hf pre hpre => ?_⟩
  · rw [hslaves] at hg
    rw [Fs.groups, hslaves, hfiles, flatMap_singleton, hbitmaps]
    have hlist : (rdfsInitSlaveMemoryBitmapList s blocks).groups =
        (List.range (rdfsInitSlaveMemoryBitmapList s blocks).wholeGroups).map (64 * ·) := by
      simp only [SlaveInfo.groups, rdfsInitSlaveMemoryBitmapList, List.map_map]
      exact map_congr_left fun i _ => Nat.mul_comm i 64
    rw [hlist, BitmapInfo.groups_default, append_nil]
    exact count_eq_one_of_mem (nodup_range.map fun a b h => Nat.eq_of_mul_eq_mul_left (by decide) h)
      (List.mem_map.2 ⟨g, mem_range.2 hg, rfl⟩)
  · rw [hslaves]
    simp only [rdfsInitSlaveMemoryBitmapList, SlaveInfo.wholeGroups, length_map, length_range]
    omega
  · obtain rfl := mem_singleton.1 (hfiles ▸ hf)
    rw [hbitmaps] at hpre
    cases hpre

/-- A file without groups comes in. -/
theorem GroupsInv.add {s s' : Fs} (h : GroupsInv s) (ino : ℕ) (hfresh : ino ∉ s.files)
    (hslaves : s'.master.slaves = s.master.slaves) (hlive : s'.live = s.live ++ [ino])
    (hold : ∀ f ≠ ino, (s'.inode f).bitmaps = (s.inode f).bitmaps)
    (hnew : (s'.inode ino).bitmaps = default) : GroupsInv s' := by
  have hfiles : s'.files = s.files ++ [ino] := by rw [Fs.files, Fs.files, hlive, cons_append]
  have hne : ∀ f ∈ s.files, f ≠ ino := fun f hf heq => hfresh (heq ▸ hf)
  have hgroups : s'.groups = s.groups := by
    have hflat : (s.files.flatMap fun f => (s'.inode f).bitmaps.groups) =
        s.files.flatMap fun f => (s.inode f).bitmaps.groups :=
      flatMap_congr fun f hf => by rw [hold f (hne f hf)]
    rw [Fs.groups, Fs.groups, hslaves, hfiles, flatMap_append, flatMap_singleton, hnew,
      BitmapInfo.groups_default, append_nil, hflat]
  refine ⟨⟨?_, ?_⟩, ?_, fun f hf => ?_⟩
  · rw [hslaves, hgroups]
    exact h.whole
  · rw [hslaves]
    exact h.free
  · rw [hfiles]
    exact h.nodup.append (nodup_singleton ino) (disjoint_singleton.2 hfresh)
  · rw [hfiles, mem_append, mem_singleton] at hf
    rcases hf with hf | rfl
    · rw [hold f (hne f hf)]
      exact h.known f hf
    · rw [hnew]
      rintro pre hpre
      cases hpre

theorem GroupsInv.create {s : Fs} (h : GroupsInv s) (cpu : ℕ) (attrs : Inode) (umask : ℕ)
    (hc : (CacheOp.create cpu attrs umask).KeepsGroups sb s) :
    GroupsInv (s.newInode sb cpu attrs umask) := by
  by_cases hcount : (s.master.nvm.numaDes (getANuma sb s.nextNumaId).1).freeInodeCount = 0
  · rw [Fs.newInode, rdfsNewInodeTake, if_pos hcount]
    exact ⟨⟨h.whole, h.free⟩, h.nodup, h.known⟩
  · obtain ⟨nvm, hnvm⟩ : ∃ nvm, rdfsNewInodeTake sb s.master.nvm s.nextNumaId =
        (some (s.freeIno sb), nvm) := by
      rw [rdfsNewInodeTake, if_neg hcount]
      exact ⟨_, rfl⟩
    simp only [Fs.newInode, hnvm]
    refine h.add (s.freeIno sb) (hc hcount) rfl rfl (fun f hf => ?_) ?_
    · exact congrArg Inode.bitmaps (update_of_ne hf _ _)
    · rw [Fs.put, Space.put_inode, update_self]
      rfl

/-- Groups move between the slave and one file. -/
theorem GroupsInv.moved {s : Fs} (h : GroupsInv s) (hf : f ∈ s.files)
    {r : Inode × Master × NvmLists} (hm : Moved (s.master.slaves rdfsSelectSlave)
      (r.2.1.slaves rdfsSelectSlave) (s.inode f).bitmaps r.1.bitmaps) : GroupsInv (s.put f r) := by
  have hinode : ∀ j ≠ f, ((s.put f r).inode j).bitmaps = (s.inode j).bitmaps := fun j hj =>
    congrArg Inode.bitmaps (update_of_ne hj _ _)
  have hself : ((s.put f r).inode f).bitmaps = r.1.bitmaps :=
    congrArg Inode.bitmaps (update_self _ _ _)
  have hslaves : (s.put f r).master.slaves = r.2.1.slaves := rfl
  have hfiles : (s.put f r).files = s.files := rfl
  have hwhole : (r.2.1.slaves rdfsSelectSlave).wholeGroups =
      (s.master.slaves rdfsSelectSlave).wholeGroups := by
    rw [SlaveInfo.wholeGroups, SlaveInfo.wholeGroups, hm.total]
  refine ⟨⟨fun g hg => ?_, ?_⟩, h.nodup, fun j hj => ?_⟩
  · rw [hslaves, hwhole] at hg
    have hrest : ((s.files.erase f).flatMap fun j => ((s.put f r).inode j).bitmaps.groups) =
        (s.files.erase f).flatMap fun j => (s.inode j).bitmaps.groups :=
      flatMap_erase_congr h.nodup fun j hj => congrArg BitmapInfo.groups (hinode j hj)
    have hold := h.whole g hg
    have hcount := hm.count g
    rw [Fs.groups, count_append, count_flatMap_of_mem hf] at hold
    rw [Fs.groups, hslaves, hfiles, count_append, count_flatMap_of_mem hf, hrest, hself]
    rw [count_append, count_append] at hcount
    omega
  · have hfree := h.free
    have := hm.free
    rw [hslaves, hwhole, hm.total]
    omega
  · by_cases hjf : j = f
    · rw [hjf, hself]
      exact hm.known (h.known f hf)
    · rw [hinode j hjf]
      exact h.known j hj

/-- An eviction keeps the groups accounted for if and only if the inode holds no group. -/
theorem GroupsInv.evict_iff {s s' : Fs} (h : GroupsInv s)
    (hv : (CacheOp.evict f ptr stateNew now).Valid s)
    (hr : (CacheOp.evict f ptr stateNew now).run sb s = some s') :
    GroupsOk s' ↔ (CacheOp.evict f ptr stateNew now).KeepsGroups sb s := by
  obtain ⟨hslaves, -, -, hcount⟩ := CacheOp.evict_count h.nodup hv hr
  have hfree := h.free
  rw [← hslaves] at hfree
  refine ⟨fun h' g hg => ?_, fun hk => ⟨fun g hg => ?_, hfree⟩⟩
  · have h1 := h.whole g hg
    have h2 := h'.whole g (hslaves ▸ hg)
    have := hcount (64 * g)
    exact count_eq_zero.1 (by omega)
  · rw [hslaves] at hg
    have h1 := h.whole g hg
    have h2 := count_eq_zero.2 (hk g hg)
    have := hcount (64 * g)
    omega

theorem GroupsInv.evict {s s' : Fs} (h : GroupsInv s)
    (hv : (CacheOp.evict f ptr stateNew now).Valid s)
    (hr : (CacheOp.evict f ptr stateNew now).run sb s = some s')
    (hc : (CacheOp.evict f ptr stateNew now).KeepsGroups sb s) : GroupsInv s' := by
  obtain ⟨-, hnodup, hbitmaps, -⟩ := CacheOp.evict_count h.nodup hv hr
  refine ⟨(h.evict_iff hv hr).2 hc, hnodup, fun j hj pre hpre => ?_⟩
  rcases hbitmaps j hj with hd | ⟨heq, hmem⟩
  · rw [hd] at hpre
    cases hpre
  · exact h.known j hmem pre (heq ▸ hpre)

theorem GroupsInv.step {s s' : Fs} (h : GroupsInv s) {o : CacheOp} (hv : o.Valid s)
    (hc : o.KeepsGroups sb s) (hr : o.run sb s = some s') : GroupsInv s' := by
  cases o with
  | create cpu attrs umask => exact some_inj.1 hr ▸ h.create cpu attrs umask hc
  | alloc f cpu num zeroing type phys =>
    have hmoves := allocLoop_moves sb cpu zeroing type (num : ℤ).toNat
      (allocStart sb cpu (ensureTable sb cpu s.master (s.inode f)) (s.inode f) num type phys)
      (by rw [allocStart_inode]; exact h.known f hv.1)
    rw [AllocState.Moves, allocStart_slaves, ensureTable_slaves, allocStart_inode] at hmoves
    rw [← some_inj.1 hr]
    exact h.moved hv.1 hmoves
  | setNlink f nlink =>
    rw [← some_inj.1 hr]
    exact h.moved hv.1 (Moved.refl _ _)
  | evict f ptr stateNew now => exact h.evict hv hr hc

section spec

variable {sb : Super} {R : Region sb} {blocks : ℕ} {s : Fs}

theorem CacheRun.inv (h : CacheRun R blocks (CacheOp.KeepsGroups sb) s) : GroupsInv s := by
  induction h with
  | mount m cpu root slaves s nextNumaId hslave =>
    exact GroupsInv.mount R m cpu root slaves s nextNumaId blocks hslave
  | op _ o hv hc hr ih => exact ih.step hv hc hr

/-- In every run whose evictions are of inodes without a group, every whole group of the slave is
on its list or held by one file. From there an eviction of any file keeps it so if and only if the
file holds no group. -/
theorem CacheRun.groups_spec (h : CacheRun R blocks (CacheOp.KeepsGroups sb) s) :
    GroupsOk s ∧ ∀ f ptr stateNew now s', (CacheOp.evict f ptr stateNew now).Valid s →
      (CacheOp.evict f ptr stateNew now).run sb s = some s' →
        (GroupsOk s' ↔ ∀ g < (s.master.slaves rdfsSelectSlave).wholeGroups,
          64 * g ∉ (s.inode f).bitmaps.groups) :=
  ⟨h.inv.toGroupsOk, fun _ _ _ _ _ hv hr => h.inv.evict_iff hv hr⟩

end spec

/-- A regular file on the small mount. -/
def createdFile : Fs := plainFs.newInode Region.behindTables 0 regAttrs 0

/-- The file has got a block of the slave. -/
def grownFile : Fs :=
  let r := rdfsAllocBlocks Region.behindTables 0 createdFile.master (createdFile.inode 2) (1 : ℕ) 1
    .pte 0
  createdFile.put 2 (r.2.inode, r.2.master, createdFile.areas)

/-- The file has lost its last link. -/
def unlinkedFile : Fs :=
  grownFile.put 2 ({ grownFile.inode 2 with iNlink := 0 }, grownFile.master, grownFile.areas)

theorem cacheRun_grownFile {C : Fs → CacheOp → Prop} (hcreate : C plainFs (.create 0 regAttrs 0))
    (halloc : C createdFile (.alloc 2 0 1 1 .pte 0)) : CacheRun Region.plain 64 C grownFile := by
  have hmount : CacheRun Region.plain 64 C plainFs := by
    exact CacheRun.mount _ _ _ _ default _ rfl
  have hcreated : CacheRun Region.plain 64 C createdFile :=
    hmount.op (.create 0 regAttrs 0) trivial hcreate rfl
  exact hcreated.op (.alloc 2 0 1 1 .pte 0) (by decide +kernel) halloc rfl

/-- The only group of the small slave is the one the file hands out. -/
theorem CacheRun.groups_spec_grownFile :
    CacheRun Region.plain 64 (CacheOp.KeepsGroups Region.behindTables) grownFile ∧
      (grownFile.inode 2).bitmaps.groups = [0] ∧ GroupsOk grownFile := by
  have hrun : CacheRun Region.plain 64 (CacheOp.KeepsGroups Region.behindTables) grownFile := by
    refine cacheRun_grownFile (fun _ => ?_) trivial
    decide +kernel
  refine ⟨hrun, ?_, (CacheRun.groups_spec hrun).1⟩
  decide +kernel

/-- The file loses its last link and is evicted : the group is on no list, and the slave has no
free block left. -/
theorem deleted_file_keeps_group :
    ∃ s, CacheRun Region.plain 64 (fun _ _ => True) s ∧ s.files = [1] ∧
      (s.master.slaves rdfsSelectSlave).wholeGroups = 1 ∧ s.groups = [] ∧
      (s.master.slaves rdfsSelectSlave).freeBlockNums = 0 ∧ ¬GroupsOk s := by
  have hunlinked : CacheRun Region.plain 64 (fun _ _ => True) unlinkedFile :=
    (cacheRun_grownFile trivial trivial).op (.setNlink 2 0) (by decide +kernel) trivial rfl
  have hevict : ((CacheOp.evict 2 0 true 0).run Region.behindTables unlinkedFile).map (fun s =>
      (s.files, (s.master.slaves rdfsSelectSlave).wholeGroups, s.groups,
        (s.master.slaves rdfsSelectSlave).freeBlockNums)) = some ([1], 1, [], 0) := by
    decide +kernel
  obtain ⟨s, hr, hs⟩ := map_eq_some_iff.1 hevict
  simp only [Prod.mk.injEq] at hs
  obtain ⟨hfiles, hwhole, hgroups, hfree⟩ := hs
  refine ⟨s, hunlinked.op _ (by decide +kernel) trivial hr, hfiles, hwhole, hgroups, hfree,
    fun hok => ?_⟩
  have hcount := hok.whole 0 (by omega)
  rw [hgroups] at hcount
  cases hcount

end Rdfs
