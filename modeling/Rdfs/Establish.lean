import Rdfs.FileTree

/-!
# Mapping and opening files

`Space` is the state of the mount with the inodes in core. `rdfs_establish_mapping` stores the
inode of a regular file in a table of 1024 pointers behind the super block. The index of the
table is scaled twice, so the table is left with the area of index 128; as long as no more than
128 regular files are mapped at a time this does not happen (`MapRun.table_iff`).
-/

namespace Rdfs

open List Function Option

/-! ## State and operations -/

/-- The state of the mount : the master, the areas, the page `rdfs_init_local_rw_buffer` takes at
the first open, and the inodes in core. -/
structure Space where
  master : Master
  areas : NvmLists
  flag : Bool
  globalPhyAddr : ℕ
  inode : ℕ → Inode

/-- The state with inode `f`, the master and the areas replaced. -/
def Space.put (s : Space) (f : ℕ) (r : Inode × Master × NvmLists) : Space :=
  { s with master := r.2.1, areas := r.2.2, inode := Function.update s.inode f r.1 }

/-- `rdfs_establish_mapping` of inode `f`, whose `struct inode` is at `inodePtr`. -/
def Space.establish (sb : Super) (s : Space) (f inodePtr : ℕ) : ℤ × Space :=
  let r := rdfsEstablishMapping sb s.master s.areas (s.inode f) inodePtr
  (r.1, s.put f r.2)

/-- `rdfs_destroy_mapping` of inode `f`. -/
def Space.destroy (sb : Super) (s : Space) (f : ℕ) : Option (ℤ × Space) :=
  (rdfsDestroyMapping sb s.master s.areas (s.inode f)).map fun r => (r.1, s.put f r.2)

/-! ## Areas of inodes -/

/-- The mode `rdfs_establish_mapping` calls `nvmalloc` with. -/
def areaMode (mode : ℕ) : Option (Fin 2) :=
  if SIsDir mode ∨ SIsLnk mode then some 1 else if SIsReg mode then some 0 else none

theorem areaMode_eq_zero_iff {mode : ℕ} : areaMode mode = some 0 ↔ SIsReg mode := by
  unfold areaMode SIsDir SIsLnk SIsReg
  split_ifs with h1 h2
  · simp only [some.injEq, Fin.reduceEq, false_iff]
    omega
  · simp [h2]
  · simp [h2]

/-- Inodes have areas of their mode, each its own. -/
structure SpaceInv (s : Space) (free used : Fin 2 → List ℕ) : Prop where
  areas : AreaInv s.areas free used
  inUse : ∀ f, (s.inode f).iVirtAddr ≠ 0 →
    ∃ i, areaMode (s.inode f).iMode = some i ∧ (s.inode f).iVirtAddr ∈ used i
  unique : ∀ f f', (s.inode f).iVirtAddr = (s.inode f').iVirtAddr →
    (s.inode f).iVirtAddr ≠ 0 → f = f'

@[simp] theorem Space.put_inode (s : Space) (f : ℕ) (r : Inode × Master × NvmLists) :
    (s.put f r).inode = Function.update s.inode f r.1 :=
  rfl

variable {s s' : Space} {f : ℕ} {i : Fin 2} {sb : Super} {free used : Fin 2 → List ℕ}

theorem Space.put_iMode {r : Inode × Master × NvmLists} (h : r.1.iMode = (s.inode f).iMode) (j : ℕ)
    : ((s.put f r).inode j).iMode = (s.inode j).iMode := by
  by_cases hj : j = f
  · rw [hj, ← h, put_inode, update_self]
  · rw [put_inode, update_of_ne hj]

theorem Space.put_iVirtAddr (s : Space) (f : ℕ) (r : Inode × Master × NvmLists) (j : ℕ) :
    ((s.put f r).inode j).iVirtAddr = if j = f then r.1.iVirtAddr else (s.inode j).iVirtAddr := by
  by_cases hj : j = f
  · rw [if_pos hj, hj, put_inode, update_self]
  · rw [if_neg hj, put_inode, update_of_ne hj]

theorem Space.put_iVirtAddr_of_eq {r : Inode × Master × NvmLists}
    (h : r.1.iVirtAddr = (s.inode f).iVirtAddr) (j : ℕ) :
    ((s.put f r).inode j).iVirtAddr = (s.inode j).iVirtAddr := by
  rw [put_iVirtAddr, h]
  split_ifs with hj
  · rw [hj]
  · rfl

/-- The place `rdfs_establish_mapping` stores the inode at, if it does. -/
def establishStore (sb : Super) (s : Space) (f : ℕ) : Option ℕ :=
  if (s.inode f).iVirtAddr = 0 ∧ SIsReg (s.inode f).iMode then
    some (rdfsAddressToIno sb (nvmalloc 0 s.areas).1)
  else none

/-- What `takeArea` does, by the mode of the inode. -/
theorem takeArea_eq (sb : Super) (m : Mem) (areas : NvmLists) (inode : Inode) (ptr : ℕ) :
    takeArea sb m areas inode ptr = if inode.iVirtAddr ≠ 0 then (inode, m, areas)
      else match areaMode inode.iMode with
        | none => (inode, m, areas)
        | some i => ({ inode with iVirtAddr := (nvmalloc (i : ℕ) areas).1 },
          if i = 0 then m.store 8 (rdfsPa sb (rdfsAddressToIno sb (nvmalloc 0 areas).1)) ptr else m,
          (nvmalloc (i : ℕ) areas).2) := by
  unfold takeArea areaMode
  split_ifs <;> rfl

/-- Giving an inode an area changes nothing else in it. -/
theorem takeArea_inode (sb : Super) (m : Mem) (areas : NvmLists) (inode : Inode) (ptr : ℕ) :
    ∃ v, (takeArea sb m areas inode ptr).1 = { inode with iVirtAddr := v } := by
  unfold takeArea
  split_ifs <;> exact ⟨_, rfl⟩

theorem takeArea_mapped (sb : Super) (m : Mem) (areas : NvmLists) (inode : Inode) (ptr : ℕ)
    (hv : inode.iVirtAddr ≠ 0) : takeArea sb m areas inode ptr = (inode, m, areas) :=
  if_pos hv

/-- An inode without an area, given what `nvmalloc` returns. -/
theorem takeArea_new (sb : Super) (m : Mem) (inode : Inode) (ptr : ℕ) {areas areas' : NvmLists}
    {p : ℕ} (hv : inode.iVirtAddr = 0) (hmode : areaMode inode.iMode = some i)
    (hr : nvmalloc (i : ℕ) areas = (p, areas')) :
    takeArea sb m areas inode ptr = ({ inode with iVirtAddr := p },
      if i = 0 then m.store 8 (rdfsPa sb (rdfsAddressToIno sb p)) ptr else m, areas') := by
  have hstore : i = 0 → (nvmalloc 0 areas).1 = p := by
    rintro rfl
    exact congrArg Prod.fst hr
  rw [takeArea_eq, if_neg (by simp [hv]), hmode]
  simp only [hr]
  split_ifs with hi
  · rw [hstore hi]
  · rfl

/-- The state after `rdfs_establish_mapping`, given what `takeArea` returns. -/
theorem Space.establish_eq {f ptr : ℕ} {r : Inode × Mem × NvmLists}
    (hr : takeArea sb s.master.nvm.mem s.areas
      { s.inode f with mappingCount := (s.inode f).mappingCount + 1 } ptr = r) :
    (s.establish sb f ptr).2 = s.put f (r.1, { s.master with
      nvm := { s.master.nvm with mem := r.2.1 }
      kernel := if InDirArea r.1.iVirtAddr ∨
          (rdfsStart + dirAreaSize ≤ r.1.iVirtAddr ∧ r.1.iVirtAddr < rdfsEnd) then
        (nvmap sb r.2.1 s.master.kernel r.1.iVirtAddr
          (rdfsGetPud sb s.master.nvm.mem (s.inode f).iIno)).2
      else s.master.kernel }, r.2.2) := by
  simp only [Space.establish, rdfsEstablishMapping, hr]
  split_ifs <;> rfl

/-- What `rdfs_establish_mapping` does to the areas : nothing, or it takes the first free area of
the mode of an inode that has none. -/
theorem SpaceInv.establish_cases (h : SpaceInv s free used) (sb : Super) (f ptr : ℕ) :
    (∀ j, ((s.establish sb f ptr).2.inode j).iMode = (s.inode j).iMode) ∧
    (((s.establish sb f ptr).2.areas = s.areas ∧
      (∀ j, ((s.establish sb f ptr).2.inode j).iVirtAddr = (s.inode j).iVirtAddr) ∧
      ∀ i, (s.inode f).iVirtAddr = 0 → areaMode (s.inode f).iMode = some i → free i = []) ∨
    ∃ i p rest, (s.inode f).iVirtAddr = 0 ∧ areaMode (s.inode f).iMode = some i ∧
      free i = p :: rest ∧ AreaInv (s.establish sb f ptr).2.areas (Function.update free i rest)
        (Function.update used i (p :: used i)) ∧
      ∀ j, ((s.establish sb f ptr).2.inode j).iVirtAddr =
        if j = f then p else (s.inode j).iVirtAddr) := by
  obtain ⟨r, hr⟩ : ∃ r, takeArea sb s.master.nvm.mem s.areas
    { s.inode f with mappingCount := (s.inode f).mappingCount + 1 } ptr = r := ⟨_, rfl⟩
  obtain ⟨g', hput⟩ : ∃ g', (s.establish sb f ptr).2 = s.put f (r.1, g', r.2.2) :=
    ⟨_, Space.establish_eq hr⟩
  rw [hput]
  rw [takeArea_eq] at hr
  refine ⟨Space.put_iMode ?_, ?_⟩
  · rw [← hr]
    split_ifs
    · rfl
    · cases areaMode (s.inode f).iMode <;> rfl
  by_cases hv : (s.inode f).iVirtAddr = 0
  · rw [if_neg (by simp [hv])] at hr
    cases hmode : areaMode (s.inode f).iMode with
    | none =>
      rw [hmode] at hr
      subst hr
      exact Or.inl ⟨rfl, Space.put_iVirtAddr_of_eq rfl, fun i _ hi => by cases hi⟩
    | some i =>
      simp only [hmode] at hr
      cases hfree : free i with
      | nil =>
        rw [h.areas.nvmalloc_none hfree] at hr
        subst hr
        exact Or.inl ⟨rfl, Space.put_iVirtAddr_of_eq hv.symm,
          fun j _ hj => by rwa [← some_inj.1 hj]⟩
      | cons p rest =>
        obtain ⟨l', hl', hinv⟩ := h.areas.nvmalloc hfree
        rw [hl'] at hr
        subst hr
        exact Or.inr ⟨i, p, rest, hv, rfl, hfree, hinv, Space.put_iVirtAddr _ _ _⟩
  · rw [if_pos hv] at hr
    subst hr
    exact Or.inl ⟨rfl, Space.put_iVirtAddr_of_eq rfl, fun i h0 => absurd h0 hv⟩

/-- A change that leaves areas and kinds of mapped inodes alone. -/
theorem SpaceInv.congr_kind (h : SpaceInv s free used) (hareas : s'.areas = s.areas)
    (hv : ∀ j, (s'.inode j).iVirtAddr = (s.inode j).iVirtAddr)
    (hmode : ∀ j, (s.inode j).iVirtAddr ≠ 0 →
      areaMode (s'.inode j).iMode = areaMode (s.inode j).iMode) : SpaceInv s' free used := by
  refine ⟨hareas ▸ h.areas, fun f hf => ?_, fun f f' heq hf => ?_⟩
  · rw [hv] at hf ⊢
    rw [hmode f hf]
    exact h.inUse f hf
  · rw [hv] at hf
    rw [hv, hv] at heq
    exact h.unique f f' heq hf

theorem SpaceInv.congr (h : SpaceInv s free used) (hareas : s'.areas = s.areas)
    (hv : ∀ j, (s'.inode j).iVirtAddr = (s.inode j).iVirtAddr)
    (hmode : ∀ j, (s.inode j).iVirtAddr ≠ 0 → (s'.inode j).iMode = (s.inode j).iMode) :
    SpaceInv s' free used :=
  h.congr_kind hareas hv fun j hj => by rw [hmode j hj]

/-- An inode without an area gets a free one. -/
theorem SpaceInv.take (h : SpaceInv s free used) {f p : ℕ} {rest : List ℕ}
    (hmode : areaMode (s.inode f).iMode = some i) (hfree : free i = p :: rest)
    (hareas : AreaInv s'.areas (Function.update free i rest) (Function.update used i (p :: used i)))
    (hmodes : ∀ j, (s'.inode j).iMode = (s.inode j).iMode)
    (hv : ∀ j, (s'.inode j).iVirtAddr = if j = f then p else (s.inode j).iVirtAddr) :
    SpaceInv s' (Function.update free i rest) (Function.update used i (p :: used i)) := by
  have hnew : ∀ j, (s.inode j).iVirtAddr ≠ 0 → (s.inode j).iVirtAddr ≠ p := by
    intro j hj heq
    obtain ⟨k, hk, hused⟩ := h.inUse j hj
    have hpi : p ∈ free i := hfree ▸ mem_cons_self
    rw [heq] at hused
    obtain rfl := mode_unique (h.areas.mem_of_free hpi) (h.areas.mem_of_used hused)
    exact (nodup_append.1 (h.areas.nodup i)).2.2 p hpi p hused rfl
  refine ⟨hareas, fun j hj => ?_, fun j j' heq hj => ?_⟩
  · rw [hv] at hj ⊢
    rw [hmodes]
    by_cases hjf : j = f
    · rw [hjf, if_pos rfl]
      exact ⟨i, hmode, by simp⟩
    · rw [if_neg hjf] at hj ⊢
      obtain ⟨k, hk, hused⟩ := h.inUse j hj
      refine ⟨k, hk, ?_⟩
      by_cases hki : k = i
      · subst hki
        rw [update_self]
        exact mem_cons_of_mem _ hused
      · rwa [update_of_ne hki]
  · rw [hv, hv] at heq
    rw [hv] at hj
    by_cases hjf : j = f <;> by_cases hjf' : j' = f
    · rw [hjf, hjf']
    · rw [if_pos hjf, if_neg hjf'] at heq
      rw [if_pos hjf] at hj
      exact absurd heq.symm (hnew j' (heq ▸ hj))
    · rw [if_neg hjf, if_pos hjf'] at heq
      rw [if_neg hjf] at hj
      exact absurd heq (hnew j hj)
    · rw [if_neg hjf, if_neg hjf'] at heq
      rw [if_neg hjf] at hj
      exact h.unique j j' heq hj

/-- `rdfs_destroy_mapping` leaves the areas alone, or gives back the area of the inode. -/
theorem SpaceInv.destroy_cases (h : SpaceInv s free used) (sb : Super) (f : ℕ) :
    ∃ r s', s.destroy sb f = some (r, s') ∧ (∀ j, (s'.inode j).iMode = (s.inode j).iMode) ∧
      ((s'.areas = s.areas ∧ ∀ j, (s'.inode j).iVirtAddr = (s.inode j).iVirtAddr) ∨
      ∃ i, (s.inode f).iVirtAddr ∈ used i ∧
        AreaInv s'.areas (Function.update free i ((s.inode f).iVirtAddr :: free i))
          (Function.update used i ((used i).erase (s.inode f).iVirtAddr)) ∧
        ∀ j, (s'.inode j).iVirtAddr = if j = f then 0 else (s.inode j).iVirtAddr) := by
  by_cases hv : (s.inode f).iVirtAddr = 0
  · exact ⟨_, _, by rw [Space.destroy, rdfsDestroyMapping_unmapped sb _ hv, map_some],
      Space.put_iMode rfl, Or.inl ⟨rfl, Space.put_iVirtAddr_of_eq rfl⟩⟩
  by_cases hc : 1 < (s.inode f).mappingCount
  · exact ⟨_, _, by rw [Space.destroy, rdfsDestroyMapping_counted sb _ hv hc, map_some],
      Space.put_iMode rfl, Or.inl ⟨rfl, Space.put_iVirtAddr_of_eq rfl⟩⟩
  · obtain ⟨i, -, hused⟩ := h.inUse f hv
    obtain ⟨l', hl', hinv⟩ := h.areas.nvfree hused
    have hr : s.destroy sb f = _ :=
      congrArg (Option.map _) (rdfsDestroyMapping_last sb s.master hv (by omega) hl')
    exact ⟨_, _, hr, Space.put_iMode rfl, Or.inr ⟨i, hused, hinv, Space.put_iVirtAddr s f _⟩⟩

/-- An inode gives its area back. -/
theorem SpaceInv.give (h : SpaceInv s free used) (hused : (s.inode f).iVirtAddr ∈ used i)
    (hareas : AreaInv s'.areas (Function.update free i ((s.inode f).iVirtAddr :: free i))
      (Function.update used i ((used i).erase (s.inode f).iVirtAddr)))
    (hmodes : ∀ j, (s'.inode j).iMode = (s.inode j).iMode)
    (hv : ∀ j, (s'.inode j).iVirtAddr = if j = f then 0 else (s.inode j).iVirtAddr) :
    SpaceInv s' (Function.update free i ((s.inode f).iVirtAddr :: free i))
      (Function.update used i ((used i).erase (s.inode f).iVirtAddr)) := by
  refine ⟨hareas, fun j hj => ?_, fun j j' heq hj => ?_⟩
  · rw [hv] at hj ⊢
    have hjf : j ≠ f := fun hjf => hj (if_pos hjf)
    rw [if_neg hjf] at hj ⊢
    rw [hmodes]
    obtain ⟨k, hk, hk'⟩ := h.inUse j hj
    refine ⟨k, hk, ?_⟩
    by_cases hki : k = i
    · subst hki
      rw [update_self]
      exact (mem_erase_of_ne fun heq => hjf (h.unique j f heq hj)).2 hk'
    · rwa [update_of_ne hki]
  · rw [hv, hv] at heq
    rw [hv] at hj
    have hjf : j ≠ f := fun hjf => hj (if_pos hjf)
    rw [if_neg hjf] at hj heq
    have hjf' : j' ≠ f := fun hjf' => hj (heq.trans (if_pos hjf'))
    rw [if_neg hjf'] at heq
    exact h.unique j j' heq hj

/-! ## Runs of mapping and unmapping -/

/-- Runs of `rdfs_establish_mapping` and `rdfs_destroy_mapping` over any inodes, from a state where
no inode is mapped, interleaved with anything that leaves the areas alone. Every inode that is
established meets the condition `C`. -/
inductive MapRun (sb : Super) (C : Space → ℕ → Prop) : Space → Prop
  | init {s : Space} (hareas : s.areas = nvmallocInit) (hv : ∀ f, (s.inode f).iVirtAddr = 0) :
      MapRun sb C s
  | establish {s : Space} (h : MapRun sb C s) (f ptr : ℕ) (hc : C s f) :
      MapRun sb C (s.establish sb f ptr).2
  | destroy {s s' : Space} {r : ℤ} (h : MapRun sb C s) (f : ℕ)
      (hr : s.destroy sb f = some (r, s')) : MapRun sb C s'
  | other {s s' : Space} (h : MapRun sb C s) (hareas : s'.areas = s.areas)
      (hv : ∀ f, (s'.inode f).iVirtAddr = (s.inode f).iVirtAddr)
      (hmode : ∀ f, (s.inode f).iVirtAddr ≠ 0 → (s'.inode f).iMode = (s.inode f).iMode) :
      MapRun sb C s'

/-- A property of the free lists holds in every run if it does at the beginning, taking the first
free area keeps it, and so does giving an area back. -/
theorem MapRun.induct {C : Space → ℕ → Prop} {P : (Fin 2 → List ℕ) → Prop} (hinit : P areasOf)
    (htake : ∀ s free used f i p rest, SpaceInv s free used → P free → C s f →
      (s.inode f).iVirtAddr = 0 → areaMode (s.inode f).iMode = some i → free i = p :: rest →
        P (Function.update free i rest))
    (hgive : ∀ free i p, P free → P (Function.update free i (p :: free i))) (h : MapRun sb C s) :
    ∃ free used, SpaceInv s free used ∧ P free := by
  induction h with
  | init hareas hv =>
    exact ⟨areasOf, fun _ => [], ⟨hareas ▸ areaInv_nvmallocInit, fun f hf => absurd (hv f) hf,
      fun f _ _ hf => absurd (hv f) hf⟩, hinit⟩
  | establish _ f ptr hc ih =>
    obtain ⟨free, used, hinv, hP⟩ := ih
    obtain ⟨hmode, ⟨hareas, hv, -⟩ | ⟨i, p, rest, h0, hi, hfree, hareas, hv⟩⟩ :=
      hinv.establish_cases sb f ptr
    · exact ⟨free, used, hinv.congr hareas hv fun j _ => hmode j, hP⟩
    · exact ⟨_, _, hinv.take hi hfree hareas hmode hv,
        htake _ _ _ f i p rest hinv hP hc h0 hi hfree⟩
  | destroy _ f hr ih =>
    obtain ⟨free, used, hinv, hP⟩ := ih
    obtain ⟨r', s'', hr', hmode, ⟨hareas, hv⟩ | ⟨i, hused, hareas, hv⟩⟩ := hinv.destroy_cases sb f
    · obtain ⟨-, rfl⟩ := Prod.mk.inj (some_inj.1 (hr.symm.trans hr'))
      exact ⟨free, used, hinv.congr hareas hv fun j _ => hmode j, hP⟩
    · obtain ⟨-, rfl⟩ := Prod.mk.inj (some_inj.1 (hr.symm.trans hr'))
      exact ⟨_, _, hinv.give hused hareas hmode hv, hgive _ _ _ hP⟩
  | other _ hareas hv hmode ih =>
    obtain ⟨free, used, hinv, hP⟩ := ih
    exact ⟨free, used, hinv.congr hareas hv hmode, hP⟩

/-! ## The table of areas -/

/-- `p_address_to_ino`, where the table begins. -/
def pAddressToIno (sb : Super) : ℕ := sb.virtAddr + 4096

/-- `ADDRESS_TO_INO_SPACE`. -/
def addressToInoSpace : ℕ := 1024 * 8

/-- What is expected of `rdfs_establish_mapping` : the store is in the table, nothing else in the
region changes, and mapped regular files have places apart from each other. -/
def TableOk (sb : Super) (s : Space) (f ptr : ℕ) : Prop :=
  let s' := (s.establish sb f ptr).2
  (∀ a ∈ establishStore sb s f, pAddressToIno sb ≤ a ∧
    a + 8 ≤ pAddressToIno sb + addressToInoSpace) ∧
  Mem.SameOff s.master.nvm.mem s'.master.nvm.mem addressToInoSpace (rdfsPa sb (pAddressToIno sb)) ∧
  s'.master.nvm.numaDes = s.master.nvm.numaDes ∧
  ∀ f₁ f₂, f₁ ≠ f₂ → SIsReg (s'.inode f₁).iMode → SIsReg (s'.inode f₂).iMode →
    (s'.inode f₁).iVirtAddr ≠ 0 → (s'.inode f₂).iVirtAddr ≠ 0 →
      rdfsAddressToIno sb (s'.inode f₁).iVirtAddr + 8 ≤
          rdfsAddressToIno sb (s'.inode f₂).iVirtAddr ∨
        rdfsAddressToIno sb (s'.inode f₂).iVirtAddr + 8 ≤
          rdfsAddressToIno sb (s'.inode f₁).iVirtAddr

/-- A regular file that is not mapped finds one of the first 128 areas in front of the free
list. -/
def LowArea (s : Space) (f : ℕ) : Prop :=
  (s.inode f).iVirtAddr = 0 → SIsReg (s.inode f).iMode → 0 < (s.areas.lists 0).freeCnt ∧
    (s.areas.lists 0).freeList < rdfsStart + dirAreaSize + 128 * maxFileSize

/-- A regular file that is not mapped finds fewer than 128 areas of regular files in use. -/
def FewMapped (s : Space) (f : ℕ) : Prop :=
  (s.inode f).iVirtAddr = 0 → SIsReg (s.inode f).iMode → (s.areas.lists 0).usedCnt < 128

theorem rdfsAddressToIno_area (sb : Super) {i : ℕ} (hi : i < 958) :
    rdfsAddressToIno sb (rdfsStart + 2 ^ 35 + 2 ^ 35 * i) = pAddressToIno sb + 64 * i := by
  have hindex : u64 (((rdfsStart + 2 ^ 35 + 2 ^ 35 * i : ℕ) : ℤ) - rdfsStart - dirAreaSize) /
      maxFileSize = i := by
    unfold u64 dirAreaSize maxFileSize
    omega
  rw [rdfsAddressToIno, hindex, pAddressToIno]
  omega

/-- Without an area the place is far behind the table. -/
theorem rdfsAddressToIno_zero (sb : Super) :
    rdfsAddressToIno sb 0 = pAddressToIno sb + 64 * 1695 := by
  have hindex : u64 (((0 : ℕ) : ℤ) - rdfsStart - dirAreaSize) / maxFileSize = 1695 := by
    decide
  rw [rdfsAddressToIno, hindex, pAddressToIno]

/-- The memory after `rdfs_establish_mapping`. -/
theorem establish_mem (sb : Super) (s : Space) (f ptr : ℕ) :
    (s.establish sb f ptr).2.master.nvm = { s.master.nvm with
      mem := match establishStore sb s f with
        | none => s.master.nvm.mem
        | some a => s.master.nvm.mem.store 8 (rdfsPa sb a) ptr } := by
  obtain ⟨r, hr⟩ : ∃ r, takeArea sb s.master.nvm.mem s.areas
    { s.inode f with mappingCount := (s.inode f).mappingCount + 1 } ptr = r := ⟨_, rfl⟩
  have hmem : (s.establish sb f ptr).2.master.nvm = { s.master.nvm with mem := r.2.1 } := by
    rw [Space.establish_eq hr]
    rfl
  rw [takeArea_eq] at hr
  rw [hmem, ← hr, establishStore]
  by_cases hv : (s.inode f).iVirtAddr = 0
  · rw [if_neg (by simp [hv])]
    by_cases hreg : SIsReg (s.inode f).iMode
    · simp only [areaMode_eq_zero_iff.2 hreg, if_pos (And.intro hv hreg), if_true]
    · rw [if_neg fun hc => hreg hc.2]
      cases hmode : areaMode (s.inode f).iMode with
      | none => rfl
      | some i =>
        have hi : i ≠ 0 := fun h0 => hreg (areaMode_eq_zero_iff.1 (h0 ▸ hmode))
        simp only [if_neg hi]
  · rw [if_pos hv, if_neg fun hc => hv hc.1]

/-- A store in the table changes nothing else. -/
theorem establish_sameOff (ptr : ℕ) (h : ∀ a ∈ establishStore sb s f, pAddressToIno sb ≤ a ∧
      a + 8 ≤ pAddressToIno sb + addressToInoSpace) :
    Mem.SameOff s.master.nvm.mem (s.establish sb f ptr).2.master.nvm.mem addressToInoSpace
      (rdfsPa sb (pAddressToIno sb)) := by
  rw [establish_mem]
  cases hs : establishStore sb s f with
  | none => exact fun _ _ => rfl
  | some a =>
    have ha := h a hs
    intro x hx
    refine Mem.sameOff_store _ _ _ _ x ?_
    unfold rdfsPa pAddressToIno at *
    omega

/-- In every run the next `rdfs_establish_mapping` keeps to the table exactly if the area it takes
is one of the first 128. -/
theorem SpaceInv.tableOk_iff (h : SpaceInv s free used) (sb : Super) (f ptr : ℕ) :
    TableOk sb s f ptr ↔ LowArea s f := by
  have hrep := h.areas.rep 0
  have hplace : (s.inode f).iVirtAddr = 0 → SIsReg (s.inode f).iMode →
      ((pAddressToIno sb ≤ rdfsAddressToIno sb (nvmalloc 0 s.areas).1 ∧
        rdfsAddressToIno sb (nvmalloc 0 s.areas).1 + 8 ≤ pAddressToIno sb + addressToInoSpace) ↔
      (0 < (s.areas.lists 0).freeCnt ∧
        (s.areas.lists 0).freeList < rdfsStart + dirAreaSize + 128 * maxFileSize)) := by
    intro _ _
    cases hfree : free 0 with
    | nil =>
      have hnone : nvmalloc 0 s.areas = (0, s.areas) := h.areas.nvmalloc_none hfree
      have hcnt := hrep.freeCnt
      rw [hfree] at hcnt
      rw [hnone, rdfsAddressToIno_zero, addressToInoSpace]
      simp [hcnt]
    | cons p rest =>
      obtain ⟨l', hl', -⟩ := h.areas.nvmalloc hfree
      have hp : p ∈ regAreas := h.areas.mem_of_free (i := 0) (hfree ▸ mem_cons_self)
      obtain ⟨i, hi, rfl⟩ := mem_regAreas.1 hp
      have hcnt := hrep.freeCnt
      have hlist := hrep.linkedFree
      rw [hfree] at hcnt hlist
      replace hl' : nvmalloc 0 s.areas = _ := hl'
      rw [hl', rdfsAddressToIno_area sb hi, hlist.1, addressToInoSpace, hcnt, length_cons,
        dirAreaSize, maxFileSize]
      omega
  constructor
  · intro hok hv hreg
    refine (hplace hv hreg).1 (hok.1 _ ?_)
    rw [establishStore, if_pos ⟨hv, hreg⟩]
    rfl
  · intro hlow
    have hin : ∀ a ∈ establishStore sb s f, pAddressToIno sb ≤ a ∧
        a + 8 ≤ pAddressToIno sb + addressToInoSpace := by
      intro a ha
      rw [establishStore] at ha
      split_ifs at ha with hc
      · obtain rfl := some_inj.1 ha
        exact (hplace hc.1 hc.2).2 (hlow hc.1 hc.2)
      · cases ha
    refine ⟨hin, establish_sameOff ptr hin, by rw [establish_mem], ?_⟩
    · intro f₁ f₂ hne hr₁ hr₂ hv₁ hv₂
      obtain ⟨free', used', hinv'⟩ :
          ∃ free' used', SpaceInv (s.establish sb f ptr).2 free' used' := by
        obtain ⟨hmode, ⟨hareas, hv, -⟩ | ⟨i, p, rest, h0, hi, hfree, hareas, hv⟩⟩ :=
          h.establish_cases sb f ptr
        · exact ⟨free, used, h.congr hareas hv fun j _ => hmode j⟩
        · exact ⟨_, _, h.take hi hfree hareas hmode hv⟩
      have harea : ∀ j, SIsReg ((s.establish sb f ptr).2.inode j).iMode →
          ((s.establish sb f ptr).2.inode j).iVirtAddr ≠ 0 → ∃ i < 958,
            ((s.establish sb f ptr).2.inode j).iVirtAddr = rdfsStart + 2 ^ 35 + 2 ^ 35 * i := by
        intro j hr hv
        obtain ⟨i, hi, hused⟩ := hinv'.inUse j hv
        obtain rfl := some_inj.1 (hi.symm.trans (areaMode_eq_zero_iff.2 hr))
        exact mem_regAreas.1 (hinv'.areas.mem_of_used hused)
      obtain ⟨a, ha, h₁⟩ := harea f₁ hr₁ hv₁
      obtain ⟨b, hb, h₂⟩ := harea f₂ hr₂ hv₂
      have hab : a ≠ b := fun hab => hne (hinv'.unique f₁ f₂ (by rw [h₁, h₂, hab]) hv₁)
      rw [h₁, h₂, rdfsAddressToIno_area sb ha, rdfsAddressToIno_area sb hb]
      omega

/-- The areas of regular files from the `k`-th on. -/
theorem drop_regAreas (k : ℕ) : regAreas.drop k =
    List.range' (rdfsStart + dirAreaSize + k * maxFileSize) (958 - k) maxFileSize := by
  rw [regAreas, drop_range']
  rfl

theorem drop_regAreas_cons {k : ℕ} (hk : k < 958) : regAreas.drop k =
    (rdfsStart + dirAreaSize + k * maxFileSize) :: regAreas.drop (k + 1) := by
  rw [drop_regAreas, drop_regAreas, show 958 - k = 958 - (k + 1) + 1 by omega, range'_succ,
    Nat.succ_mul, Nat.add_assoc (rdfsStart + dirAreaSize)]

/-- No more than 128 areas have ever been handed out at a time : behind the areas that have been
given back, the free list is as it was in the beginning. -/
def Untouched (free : Fin 2 → List ℕ) : Prop :=
  ∃ k ≤ 128, ∃ front, free 0 = front ++ regAreas.drop k

/-- With fewer than 128 areas in use, one of the first 128 is free, and it is in front. -/
theorem SpaceInv.low_head (h : SpaceInv s free used) (hfree : Untouched free)
    (hfew : (s.areas.lists 0).usedCnt < 128) :
    ∃ p rest, free 0 = p :: rest ∧ p < rdfsStart + dirAreaSize + 128 * maxFileSize ∧
      Untouched (Function.update free 0 rest) := by
  obtain ⟨k, hk, front, hfront⟩ := hfree
  have hlen := (h.areas.perm 0).length_eq
  have hcnt := (h.areas.rep 0).usedCnt
  have hall : (areasOf 0).length = 958 := by
    rw [areasOf, if_pos rfl, regAreas, length_range']
    rfl
  cases front with
  | nil =>
    rw [nil_append] at hfront
    rw [length_append, hfront, length_drop, show regAreas.length = 958 from hall, hall] at hlen
    rw [drop_regAreas_cons (by omega)] at hfront
    refine ⟨_, _, hfront, ?_, k + 1, by omega, [], by simp⟩
    unfold maxFileSize
    omega
  | cons q front =>
    refine ⟨q, _, hfront, ?_, k, hk, front, by simp⟩
    have hq : q ∈ regAreas := h.areas.mem_of_free (i := 0) (hfront ▸ mem_cons_self)
    obtain ⟨i, hi, rfl⟩ := mem_regAreas.1 hq
    have hnodup := (nodup_append.1 (h.areas.nodup 0)).1
    rw [hfront, cons_append, nodup_cons, mem_append, not_or] at hnodup
    have hout := hnodup.1.2
    rw [drop_regAreas, mem_range'] at hout
    unfold dirAreaSize maxFileSize at *
    by_contra hge
    exact hout ⟨i - k, by omega, by omega⟩

theorem MapRun.untouched (h : MapRun sb FewMapped s) :
    ∃ free used, SpaceInv s free used ∧ Untouched free := by
  refine h.induct ⟨0, by decide, [], rfl⟩ ?_ ?_
  · intro s free used f i p rest hinv hfree hfew hv hi hp
    by_cases hi0 : i = 0
    · subst hi0
      obtain ⟨p', rest', hp', -, hrest⟩ := hinv.low_head hfree (hfew hv (areaMode_eq_zero_iff.1 hi))
      obtain ⟨-, rfl⟩ := cons.inj (hp.symm.trans hp')
      exact hrest
    · rwa [Untouched, update_of_ne (Ne.symm hi0)]
  · rintro free i p ⟨k, hk, front, hfront⟩
    by_cases hi0 : i = 0
    · subst hi0
      exact ⟨k, hk, p :: front, by rw [update_self, hfront]; rfl⟩
    · exact ⟨k, hk, front, by rwa [update_of_ne (Ne.symm hi0)]⟩

/-- In every state of every run the next `rdfs_establish_mapping` keeps to the table of areas
exactly if the area it takes is one of the first 128, and this is so in every run that never maps
a regular file when 128 are mapped. -/
theorem MapRun.table_iff (sb : Super) :
    (∀ s, MapRun sb (fun _ _ => True) s → ∀ f ptr, TableOk sb s f ptr ↔ LowArea s f) ∧
      ∀ s, MapRun sb FewMapped s → ∀ f ptr, FewMapped s f → LowArea s f ∧ TableOk sb s f ptr := by
  constructor
  · intro s h f ptr
    obtain ⟨free, used, hinv, -⟩ := h.induct (P := fun _ => True) trivial (fun _ _ _ _ _ _ _ _ _ _
      _ _ _ => trivial) fun _ _ _ _ => trivial
    exact hinv.tableOk_iff sb f ptr
  · intro s h f ptr hfew
    obtain ⟨free, used, hinv, hfree⟩ := h.untouched
    have hlow : LowArea s f := by
      intro hv hreg
      obtain ⟨p, rest, hp, hlt, -⟩ := hinv.low_head hfree (hfew hv hreg)
      have hrep := hinv.areas.rep 0
      rw [hp] at hrep
      have hcnt := hrep.freeCnt
      rw [length_cons] at hcnt
      exact ⟨by omega, hrep.linkedFree.1 ▸ hlt⟩
    exact ⟨hlow, (hinv.tableOk_iff sb f ptr).2 hlow⟩

/-- The small mount, with regular files in core of which the first `n` are mapped. -/
def mappedFiles : ℕ → Space
  | 0 => ⟨⟨Region.plain.mount fun _ => 0, ⟨fun _ => 0, fun _ => 0⟩, 512, 0, fun _ => default⟩,
      nvmallocInit, false, 0, fun f => { (default : Inode) with iIno := f, iMode := 0x8000 }⟩
  | n + 1 => ((mappedFiles n).establish Region.behindTables n 0).2

theorem mappedFiles_spec : ∀ {n : ℕ}, n ≤ 958 →
    MapRun Region.behindTables (fun _ _ => True) (mappedFiles n) ∧
      (∃ used, SpaceInv (mappedFiles n) (Function.update areasOf 0 (regAreas.drop n)) used) ∧
      ∀ f, SIsReg ((mappedFiles n).inode f).iMode ∧
        (n ≤ f → ((mappedFiles n).inode f).iVirtAddr = 0)
  | 0, _ => by
    refine ⟨MapRun.init rfl fun _ => rfl, ⟨fun _ => [], ?_, fun f hf => absurd rfl hf,
      fun f _ _ hf => absurd rfl hf⟩, fun f => ⟨(by decide : SIsReg 0x8000), fun _ => rfl⟩⟩
    rw [drop_zero, show regAreas = areasOf 0 from rfl, update_eq_self]
    exact areaInv_nvmallocInit
  | n + 1, hn => by
    obtain ⟨hrun, ⟨used, hinv⟩, hfiles⟩ := mappedFiles_spec (n := n) (by omega)
    have hfree : Function.update areasOf 0 (regAreas.drop n) 0 =
        (rdfsStart + dirAreaSize + n * maxFileSize) :: regAreas.drop (n + 1) := by
      rw [update_self, drop_regAreas_cons (by omega)]
    have hv := (hfiles n).2 le_rfl
    have hmode := areaMode_eq_zero_iff.2 (hfiles n).1
    obtain ⟨hmodes, ⟨-, -, hnil⟩ | ⟨i, p, rest, -, hi, hp, hareas, hvirt⟩⟩ :=
      hinv.establish_cases Region.behindTables n 0
    · have := hnil 0 hv hmode
      rw [hfree] at this
      cases this
    · obtain rfl := some_inj.1 (hi.symm.trans hmode)
      obtain ⟨-, rfl⟩ := cons.inj (hfree.symm.trans hp)
      have htake := hinv.take hmode hp hareas hmodes hvirt
      rw [update_idem] at htake
      refine ⟨hrun.establish n 0 trivial, ⟨_, htake⟩, fun f => ⟨?_, fun hf => ?_⟩⟩
      · rw [mappedFiles, hmodes]
        exact (hfiles f).1
      · rw [mappedFiles, hvirt, if_neg (by omega)]
        exact (hfiles f).2 (by omega)

theorem not_tableOk_mappedFiles {n : ℕ} (hn : 128 ≤ n) (hn' : n < 958) :
    ¬TableOk Region.behindTables (mappedFiles n) n 0 := by
  obtain ⟨-, ⟨used, hinv⟩, hfiles⟩ := mappedFiles_spec (n := n) (by omega)
  intro hok
  obtain ⟨-, hlow⟩ := (hinv.tableOk_iff Region.behindTables n 0).1 hok ((hfiles n).2 le_rfl)
    (hfiles n).1
  have hlist := (hinv.areas.rep 0).linkedFree
  rw [update_self, drop_regAreas_cons hn'] at hlist
  rw [hlist.1, maxFileSize] at hlow
  omega

/-- With 128 regular files mapped, mapping one more writes behind the table. -/
theorem establish_leaves_table : MapRun Region.behindTables (fun _ _ => True) (mappedFiles 128) ∧
      ¬TableOk Region.behindTables (mappedFiles 128) 128 0 :=
  ⟨(mappedFiles_spec (by decide)).1, not_tableOk_mappedFiles (by decide) (by decide)⟩

end Rdfs
