import Rdfs.Establish

/-!
# Opening and releasing a file

`rdfs_open_file` establishes a mapping every time, which counts `mapping_count`, and counts
`i_p_counter`. `rdfs_release_file` destroys a mapping only when `i_p_counter` reaches zero. So
`mapping_count` keeps one for every open that was made while another was there, and with such an
open the area is never given back.

`OpenRun` are the histories of opens and releases of one regular file. The file stays mapped
while an open remains, and once all are released the area is back exactly if no two opens have
overlapped (`OpenRun.openOk_iff`).
-/

namespace Rdfs

open List Function Option

/-! ## The code -/

/-- `rdfs_init_local_rw_buffer`. -/
def rdfsInitLocalRwBuffer (sb : Super) (cpu : ℕ) (s : Space) : Space :=
  if s.flag then s
  else
    let r := rdfsNewBlock sb cpu s.master.nvm s.globalPhyAddr 1 none
    { s with flag := true, globalPhyAddr := r.2.1, master := { s.master with nvm := r.2.2 } }

/-- `rdfs_open_file` of inode `f`. What `generic_file_open` returns depends on the flags of the
`struct file` only. -/
def rdfsOpenFile (sb : Super) (cpu : ℕ) (s : Space) (f inodePtr : ℕ) : Space :=
  let s := rdfsInitLocalRwBuffer sb cpu (s.establish sb f inodePtr).2
  let inode := s.inode f
  if SIsReg inode.iMode then
    s.put f ({ inode with iPCounter := inode.iPCounter + 1 }, s.master, s.areas)
  else s

/-- `rdfs_release_file` of inode `f`. -/
def rdfsReleaseFile (sb : Super) (s : Space) (f : ℕ) : Option (ℤ × Space) :=
  let inode := s.inode f
  if inode.iVirtAddr = 0 then some (0, s)
  else
    let s := s.put f ({ inode with iPCounter := inode.iPCounter - 1 }, s.master, s.areas)
    if inode.iPCounter - 1 = 0 then s.destroy sb f else some (0, s)

/-! ## The file system behind the table of areas -/

variable {sb : Super} {R : Region sb}

/-- The nodes begin behind the table of areas. -/
def Region.Behind (R : Region sb) : Prop :=
  rdfsPa sb (pAddressToIno sb) + addressToInoSpace ≤ R.start 0

theorem behind_plain : Region.plain.Behind := by
  unfold Region.Behind
  decide

theorem Region.start_zero_le (R : Region sb) {n : Fin 2} (hn : n = 0 ∨ sb.sNumaFlag = true) :
    R.start 0 ≤ R.start n := by
  rcases node_cases n with rfl | rfl
  · exact le_rfl
  · have hline := R.line (hn.resolve_left (by decide))
    have h0 := (R.des_bounds 0).2.1
    have h1 := (R.des_lt 0).2 (Or.inl rfl)
    omega

theorem Region.start_le_isPage (R : Region sb) {p : ℕ} (hp : R.pages.IsPage p) : R.start 0 ≤ p := by
  obtain ⟨n, hn, i, -, rfl⟩ := R.isPage_iff.1 hp
  have h0 := R.start_zero_le hn
  have h1 := (R.des_bounds n).2.1
  omega

theorem Region.start_le_isSlot (R : Region sb) {a : ℕ} (ha : R.inodes.IsSlot a) :
    R.start 0 ≤ a := by
  obtain ⟨n, i, hn, -, rfl⟩ := ha
  have h0 := R.start_zero_le hn
  have hslot : R.inodes.slot n i = R.start n + 128 + 128 * i := rfl
  omega

variable {st : Nvm} {ino v f d o : ℕ} {t : Option Tree} {own : List ℕ} {s : Space}

/-- A store to the table of areas changes no file. -/
theorem FileState.of_table {st' : Nvm} (h : FileState R st ino t own) (hR : R.Behind)
    (hdes : st'.numaDes = st.numaDes)
    (hm : Mem.SameOff st.mem st'.mem addressToInoSpace (rdfsPa sb (pAddressToIno sb))) :
    FileState R st' ino t own := by
  unfold Region.Behind at hR
  refine h.congr (fun n => by rw [hdes]; exact ⟨rfl, rfl⟩) (fun p hp _ => hm.sameOn ?_)
    (hm.sameOn ?_)
  · have := R.start_le_isPage hp
    omega
  · have := R.start_le_isSlot h.isSlot
    omega

/-- `nvmap` with the table of an inode enters the tree it holds, and nothing else. -/
theorem FileState.nvmap_area {m : Mem} (h : FileState R st ino t own)
    (hpg : inodeStruct.getField m (getRdfsInodePhyAddr sb ino) .iPgAddr = t.elim 0 Tree.pud)
    (hv : v ∈ dirAreas ∨ v ∈ regAreas) (hlen : ∀ t' ∈ t, t'.pmds.length ≤ 32) (k : KernelMap) :
    OnlyArea k (nvmap sb st.mem k v (rdfsGetPud sb m ino)).2 v ∧
      (∀ t' ∈ t, Mapped (nvmap sb st.mem k v (rdfsGetPud sb m ino)).2 v t') ∧
      ∀ t₀, t₀ = t ∨ t₀ = none → AreaHolds k v t₀ →
        AreaHolds (nvmap sb st.mem k v (rdfsGetPud sb m ino)).2 v t := by
  cases t with
  | none =>
    have hpud : rdfsGetPud sb m ino = 0 := by rw [rdfsGetPud, hpg]; rfl
    rw [hpud, nvmap, if_pos (Or.inr rfl)]
    exact ⟨OnlyArea.refl k v, by simp, by rintro t₀ (rfl | rfl) h <;> exact h⟩
  | some t =>
    have hne : t.pud ≠ 0 := fun h0 =>
      R.not_isPage_zero (h0 ▸ h.owned.isPage (by simp [Tree.pages]))
    have hpud : rdfsGetPud sb m ino = rdfsVa sb t.pud := by
      rw [rdfsGetPud, hpg]
      exact if_neg hne
    obtain ⟨k', hk', hmap, honly, hrest⟩ := nvmap_tree (R := R) hv (h.rep t rfl)
      (fun p hp => h.owned.isPage (mem_append_left _ hp)) (hlen t rfl) k
    rw [hpud, hk']
    refine ⟨honly, fun t' ht' => ?_, fun t₀ ht₀ hk => hmap.areaHolds hk ?_ hrest⟩
    · obtain rfl := some_inj.1 ht'
      exact hmap
    · rcases ht₀ with rfl | rfl <;> simp

/-! ## Histories of one file -/

/-- A regular file that is not open, with the area `v` in front of the free list. -/
structure ClosedFile (s : Space) (f v : ℕ) : Prop where
  reg : SIsReg (s.inode f).iMode
  virtAddr : (s.inode f).iVirtAddr = 0
  pCounter : (s.inode f).iPCounter = 0
  count : (s.inode f).mappingCount = 0
  areas : ∃ free used, AreaInv s.areas free used ∧ ∃ rest, free 0 = v :: rest

/-- Histories of opens and releases of the file `f`, with the number of opens that have not been
released and the number of opens that were made while another was there. -/
inductive OpenRun (sb : Super) (f : ℕ) (s₀ : Space) : ℕ → ℕ → Space → Prop
  | start : OpenRun sb f s₀ 0 0 s₀
  | opened {d o : ℕ} {s : Space} (h : OpenRun sb f s₀ d o s) (cpu ptr : ℕ) :
      OpenRun sb f s₀ (d + 1) (if d = 0 then o else o + 1) (rdfsOpenFile sb cpu s f ptr)
  | released {d o : ℕ} {s s' : Space} {r : ℤ} (h : OpenRun sb f s₀ (d + 1) o s)
      (hr : rdfsReleaseFile sb s f = some (r, s')) : OpenRun sb f s₀ d o s'

/-- What is expected with `d` opens : the area is the file's while one remains, and back on the
free list when none does. -/
def OpenOk (s : Space) (f v d : ℕ) : Prop :=
  (0 < d → (s.inode f).iVirtAddr = v ∧ ∃ free used, AreaInv s.areas free used ∧ v ∈ used 0) ∧
  (d = 0 → (s.inode f).mappingCount = 0 ∧ (s.inode f).iVirtAddr = 0 ∧
    ∃ free used, AreaInv s.areas free used ∧ v ∈ free 0)

/-- The counters with `d` opens, after `o` opens that overlapped another, and where the area is. -/
structure OpenInv (s : Space) (f v ino d o : ℕ) : Prop where
  reg : SIsReg (s.inode f).iMode
  iIno : (s.inode f).iIno = ino
  pCounter : (s.inode f).iPCounter = d
  count : (s.inode f).mappingCount = o + if d = 0 then 0 else 1
  area : v ∈ regAreas
  areas : ∃ free used, AreaInv s.areas free used ∧
    ((d = 0 ∧ o = 0 ∧ (s.inode f).iVirtAddr = 0 ∧ ∃ rest, free 0 = v :: rest) ∨
      ((d ≠ 0 ∨ o ≠ 0) ∧ (s.inode f).iVirtAddr = v ∧ v ∈ used 0))

theorem ClosedFile.openInv (h : ClosedFile s f v) : OpenInv s f v (s.inode f).iIno 0 0 := by
  obtain ⟨free, used, hinv, rest, hfree⟩ := h.areas
  exact ⟨h.reg, rfl, h.pCounter, h.count, hinv.mem_of_free (i := 0) (hfree ▸ mem_cons_self),
    free, used, hinv, Or.inl ⟨rfl, rfl, h.virtAddr, rest, hfree⟩⟩

/-- An open counts the mapping and gives the file its area. -/
theorem OpenInv.establish (h : OpenInv s f v ino d o) (sb : Super) (ptr : ℕ) :
    ∃ g' l' free used, (s.establish sb f ptr).2 = s.put f ({ s.inode f with
        mappingCount := (s.inode f).mappingCount + 1, iVirtAddr := v }, g', l') ∧
      AreaInv l' free used ∧ v ∈ used 0 ∧
      (establishStore sb s f = none ∨ establishStore sb s f = some (rdfsAddressToIno sb v)) ∧
      g'.kernel = (nvmap sb g'.nvm.mem s.master.kernel v
        (rdfsGetPud sb s.master.nvm.mem (s.inode f).iIno)).2 := by
  have hrange := Or.inr (a := InDirArea v) (inRegArea_of_mem h.area).2.1
  have hv0 : v ≠ 0 := ne_zero_of_mem_areasOf (show v ∈ areasOf 0 from h.area)
  obtain ⟨free, used, hinv, ⟨-, -, hv, rest, hfree⟩ | ⟨-, hv, hused⟩⟩ := h.areas
  · obtain ⟨l', hl', hinv'⟩ := hinv.nvmalloc hfree
    have hr := takeArea_new sb s.master.nvm.mem
      { s.inode f with mappingCount := (s.inode f).mappingCount + 1 } ptr hv
      (areaMode_eq_zero_iff.2 h.reg) hl'
    refine ⟨_, l', _, _, Space.establish_eq hr, hinv', by simp, Or.inr ?_, if_pos hrange⟩
    rw [establishStore, if_pos ⟨hv, h.reg⟩, show nvmalloc 0 s.areas = _ from hl']
  · have hr := takeArea_mapped sb s.master.nvm.mem s.areas
      { s.inode f with mappingCount := (s.inode f).mappingCount + 1 } ptr (hv ▸ hv0)
    subst hv
    refine ⟨_, s.areas, free, used, Space.establish_eq hr, hinv, hused, Or.inl ?_, if_pos hrange⟩
    rw [establishStore, if_neg fun hc => hv0 hc.1]

theorem rdfsInitLocalRwBuffer_eq (sb : Super) (cpu : ℕ) (s : Space) :
    ∃ nvm' flag phys, rdfsInitLocalRwBuffer sb cpu s = { s with
        flag := flag, globalPhyAddr := phys, master := { s.master with nvm := nvm' } } ∧
      (nvm' = s.master.nvm ∨
        nvm' = (rdfsNewBlock sb cpu s.master.nvm s.globalPhyAddr 1 none).2.2) := by
  unfold rdfsInitLocalRwBuffer
  split_ifs
  · exact ⟨s.master.nvm, s.flag, s.globalPhyAddr, rfl, Or.inl rfl⟩
  · exact ⟨_, true, _, rfl, Or.inr rfl⟩

/-- The page for the buffer is a free one, so no file notices. -/
theorem FileState.newBlock (h : FileState R st ino t own) (cpu phys : ℕ) :
    ∃ own', FileState R (rdfsNewBlock sb cpu st phys 1 none).2.2 ino t own' := by
  rcases Nat.eq_zero_or_pos (st.numaDes (newBlockNode sb cpu none)).freePageCount with h0 | hpos
  · rw [rdfsNewBlock_fail phys (by rw [h0]; decide)]
    exact ⟨own, h⟩
  · obtain ⟨st', hr, hown, hm, -⟩ := h.owned.newBlock cpu 1 none phys rfl hpos (by decide)
    rw [show rdfsNewBlock sb cpu st phys 1 none = _ from hr]
    obtain ⟨ps, hps⟩ : ∃ ps, pagesFrom st (st.numaDes (newBlockNode sb cpu none)).freePagePhy 1 =
      ps := ⟨_, rfl⟩
    rw [hps] at hown
    refine ⟨ps ++ own, h.isSlot, hown.of_perm ?_, hm ▸ h.rep, hm ▸ h.pgAddr⟩
    rw [← append_assoc, ← append_assoc]
    exact perm_append_comm.append_right _

theorem OpenInv.opened (h : OpenInv s f v ino d o) (sb : Super) (cpu ptr : ℕ) :
    OpenInv (rdfsOpenFile sb cpu s f ptr) f v ino (d + 1) (if d = 0 then o else o + 1) := by
  obtain ⟨g', l', free, used, hest, hinv, hused, -, -⟩ := h.establish sb ptr
  obtain ⟨nvm', flag, phys, hbuf, -⟩ := rdfsInitLocalRwBuffer_eq sb cpu (s.establish sb f ptr).2
  have hinode : (rdfsInitLocalRwBuffer sb cpu (s.establish sb f ptr).2).inode f = { s.inode f with
      mappingCount := (s.inode f).mappingCount + 1, iVirtAddr := v } := by
    rw [hbuf, hest]
    exact update_self _ _ _
  have hareas : (rdfsInitLocalRwBuffer sb cpu (s.establish sb f ptr).2).areas = l' := by
    rw [hbuf, hest]
    rfl
  have hreg : SIsReg ((rdfsInitLocalRwBuffer sb cpu (s.establish sb f ptr).2).inode f).iMode := by
    rw [hinode]
    exact h.reg
  have hcount := h.count
  have hself : (rdfsOpenFile sb cpu s f ptr).inode f = { s.inode f with
      mappingCount := (s.inode f).mappingCount + 1, iVirtAddr := v
      iPCounter := (s.inode f).iPCounter + 1 } := by
    rw [rdfsOpenFile, if_pos hreg, Space.put_inode, update_self, hinode]
  have hareas' : (rdfsOpenFile sb cpu s f ptr).areas = l' := by
    rw [rdfsOpenFile, if_pos hreg]
    exact hareas
  refine ⟨hself ▸ h.reg, hself ▸ h.iIno, ?_, ?_, h.area, free, used, hareas' ▸ hinv,
    Or.inr ⟨Or.inl (Nat.succ_ne_zero d), by rw [hself], hused⟩⟩
  · rw [hself]
    have := h.pCounter
    simp only
    omega
  · rw [hself, if_neg (Nat.succ_ne_zero d)]
    simp only
    split_ifs at hcount ⊢ <;> omega

/-- The state after a release, from the inode afterwards. -/
theorem OpenInv.of_put {inode : Inode} {g : Master} {l : NvmLists} {free used : Fin 2 → List ℕ}
    (hv : v ∈ regAreas) (hreg : SIsReg inode.iMode) (hino : inode.iIno = ino)
    (hp : inode.iPCounter = d) (hcount : inode.mappingCount = o + if d = 0 then 0 else 1)
    (hinv : AreaInv l free used)
    (harea : (d = 0 ∧ o = 0 ∧ inode.iVirtAddr = 0 ∧ ∃ rest, free 0 = v :: rest) ∨
      ((d ≠ 0 ∨ o ≠ 0) ∧ inode.iVirtAddr = v ∧ v ∈ used 0)) :
    OpenInv (s.put f (inode, g, l)) f v ino d o := by
  have hself : (s.put f (inode, g, l)).inode f = inode := update_self _ _ _
  refine ⟨?_, ?_, ?_, ?_, hv, free, used, hinv, ?_⟩ <;> rw [hself]
  · exact hreg
  · exact hino
  · exact hp
  · exact hcount
  · exact harea

theorem OpenInv.released (h : OpenInv s f v ino (d + 1) o) (sb : Super) :
    ∃ r s', rdfsReleaseFile sb s f = some (r, s') ∧ OpenInv s' f v ino d o ∧
      s'.master.nvm = s.master.nvm ∧ (d ≠ 0 ∨ o ≠ 0 → s'.master.kernel = s.master.kernel) := by
  have hv0 : v ≠ 0 := ne_zero_of_mem_areasOf (show v ∈ areasOf 0 from h.area)
  obtain ⟨free, used, hinv, ⟨h0, -⟩ | ⟨-, hv, hused⟩⟩ := h.areas
  · exact absurd h0 (Nat.succ_ne_zero d)
  obtain ⟨inode₁, hinode₁⟩ : ∃ i, { s.inode f with iPCounter := (s.inode f).iPCounter - 1 } = i :=
    ⟨_, rfl⟩
  have hrel : rdfsReleaseFile sb s f = if d = 0 then
      (s.put f (inode₁, s.master, s.areas)).destroy sb f
    else some (0, s.put f (inode₁, s.master, s.areas)) := by
    have hp := h.pCounter
    simp only [rdfsReleaseFile]
    rw [if_neg (by rw [hv]; exact hv0), hinode₁]
    refine if_congr ?_ rfl rfl
    omega
  have hself : (s.put f (inode₁, s.master, s.areas)).inode f = inode₁ := update_self _ _ _
  have hreg : SIsReg inode₁.iMode := hinode₁ ▸ h.reg
  have hino : inode₁.iIno = ino := hinode₁ ▸ h.iIno
  have hp : inode₁.iPCounter = d := by
    rw [← hinode₁]
    show (s.inode f).iPCounter - 1 = d
    rw [h.pCounter]
    omega
  have hcount : inode₁.mappingCount = o + 1 := hinode₁ ▸ h.count
  have hv₁ : inode₁.iVirtAddr = v := hinode₁ ▸ hv
  have hv₁0 : inode₁.iVirtAddr ≠ 0 := hv₁ ▸ hv0
  rw [hrel]
  by_cases hd : d = 0
  · rw [if_pos hd, Space.destroy, hself]
    by_cases ho : o = 0
    · obtain ⟨l', hl', hinv'⟩ := hinv.nvfree hused
      rw [← hv₁] at hl'
      have hr := rdfsDestroyMapping_last sb s.master hv₁0 (by omega) hl'
      generalize unnvmap sb _ _ _ _ = k at hr
      refine ⟨_, _, congrArg (Option.map _) hr, OpenInv.of_put h.area hreg hino hp ?_ hinv'
        (Or.inl ⟨hd, ho, rfl, free 0, by simp⟩), rfl, fun hc => absurd hc (by simp [hd, ho])⟩
      show inode₁.mappingCount - 1 = _
      rw [if_pos hd]
      omega
    · have hr : rdfsDestroyMapping sb s.master s.areas inode₁ = _ :=
        rdfsDestroyMapping_counted sb s.master hv₁0 (show 1 < inode₁.mappingCount by omega)
      refine ⟨_, _, congrArg (Option.map _) hr, OpenInv.of_put h.area hreg hino hp ?_ hinv
        (Or.inr ⟨Or.inr ho, hv₁, hused⟩), rfl, fun _ => rfl⟩
      show inode₁.mappingCount - 1 = _
      rw [if_pos hd]
      omega
  · rw [if_neg hd]
    exact ⟨_, _, rfl, OpenInv.of_put h.area hreg hino hp (by rw [hcount, if_neg hd]) hinv
      (Or.inr ⟨Or.inl hd, hv₁, hused⟩), rfl, fun _ => rfl⟩

/-- The file is in order, and the kernel's page table leads from the area to its table. -/
structure OpenKernel (R : Region sb) (s : Space) (v ino d o : ℕ) (t : Option Tree) : Prop where
  file : ∃ own, FileState R s.master.nvm ino t own
  mapped : d ≠ 0 ∨ o ≠ 0 → ∀ t' ∈ t, Mapped s.master.kernel v t'

theorem OpenKernel.opened (hk : OpenKernel R s v ino d o t) (h : OpenInv s f v ino d o)
    (hR : R.Behind) (hlow : v < rdfsStart + dirAreaSize + 128 * maxFileSize)
    (hlen : ∀ t' ∈ t, t'.pmds.length ≤ 32) (cpu ptr o' : ℕ) :
    OpenKernel R (rdfsOpenFile sb cpu s f ptr) v ino (d + 1) o' t := by
  obtain ⟨own, hfile⟩ := hk.file
  obtain ⟨g', l', free, used, hest, -, -, hstore, hkernel⟩ := h.establish sb ptr
  have hmaster₁ : (s.establish sb f ptr).2.master = g' := by rw [hest]; rfl
  have hlow' : ∀ a ∈ establishStore sb s f, pAddressToIno sb ≤ a ∧
      a + 8 ≤ pAddressToIno sb + addressToInoSpace := by
    intro a ha
    rcases hstore with h0 | h0
    · rw [h0] at ha
      cases ha
    · obtain ⟨i, hi, rfl⟩ := mem_regAreas.1 h.area
      rw [h0, rdfsAddressToIno_area sb hi] at ha
      obtain rfl := some_inj.1 ha
      unfold dirAreaSize maxFileSize at hlow
      unfold addressToInoSpace
      omega
  have hfile₁ : FileState R (s.establish sb f ptr).2.master.nvm ino t own :=
    hfile.of_table hR (by rw [establish_mem]) (establish_sameOff ptr hlow')
  rw [hmaster₁] at hfile₁
  have hmapped := (hfile₁.nvmap_area hfile.pgAddr (Or.inr h.area) hlen s.master.kernel).2.1
  rw [← h.iIno, ← hkernel] at hmapped
  obtain ⟨nvm', flag, phys, hbuf, hnvm'⟩ := rdfsInitLocalRwBuffer_eq sb cpu (s.establish sb f ptr).2
  rw [hmaster₁] at hnvm' hbuf
  have hmaster : (rdfsOpenFile sb cpu s f ptr).master = { g' with nvm := nvm' } := by
    simp only [rdfsOpenFile, hbuf]
    split_ifs <;> rfl
  refine ⟨?_, fun _ => by rw [hmaster]; exact hmapped⟩
  rw [hmaster]
  rcases hnvm' with rfl | rfl
  · exact ⟨own, hfile₁⟩
  · exact hfile₁.newBlock cpu _

section

variable {s₀ : Space} (h : OpenRun sb f s₀ d o s) (h₀ : ClosedFile s₀ f v)
include h h₀

theorem OpenRun.openInv : OpenInv s f v (s₀.inode f).iIno d o := by
  induction h with
  | start => exact h₀.openInv
  | opened _ cpu ptr ih => exact ih.opened sb cpu ptr
  | released _ hr ih =>
    obtain ⟨r', s'', hr', hinv, -⟩ := ih.released sb
    obtain ⟨-, rfl⟩ := Prod.mk.inj (some_inj.1 (hr.symm.trans hr'))
    exact hinv

theorem OpenRun.openKernel (hfile : FileState R s₀.master.nvm (s₀.inode f).iIno t own)
    (hR : R.Behind) (hlow : v < rdfsStart + dirAreaSize + 128 * maxFileSize)
    (hlen : ∀ t' ∈ t, t'.pmds.length ≤ 32) : OpenKernel R s v (s₀.inode f).iIno d o t := by
  induction h with
  | start => exact ⟨⟨own, hfile⟩, fun hc => absurd hc (by simp)⟩
  | opened hrun cpu ptr ih => exact ih.opened (hrun.openInv h₀) hR hlow hlen cpu ptr _
  | released hrun hr ih =>
    obtain ⟨r', s'', hr', -, hnvm, hkernel⟩ := (hrun.openInv h₀).released sb
    obtain ⟨-, rfl⟩ := Prod.mk.inj (some_inj.1 (hr.symm.trans hr'))
    refine ⟨hnvm ▸ ih.file, fun hc => ?_⟩
    rw [hkernel hc]
    exact ih.mapped (Or.inl (Nat.succ_ne_zero _))

end

/-- In every history of opens and releases of a regular file the area is the file's while an open
remains, and is back once all are released, exactly if no open that overlapped another has been
followed by the release of all. While an open remains, the kernel's page table leads from the
area to the table of the file. -/
theorem OpenRun.openOk_iff {s₀ s : Space} {f v d o : ℕ} (h₀ : ClosedFile s₀ f v)
    (h : OpenRun sb f s₀ d o s) : (OpenOk s f v d ↔ (d = 0 → o = 0)) ∧
    (0 < d → ∃ r s', rdfsReleaseFile sb s f = some (r, s')) ∧
    ∀ (R : Region sb) t own, FileState R s₀.master.nvm (s₀.inode f).iIno t own → R.Behind →
      v < rdfsStart + dirAreaSize + 128 * maxFileSize → (∀ t' ∈ t, t'.pmds.length ≤ 32) →
        0 < d → ∀ t' ∈ t, Mapped s.master.kernel v t' := by
  have hinv := h.openInv h₀
  refine ⟨⟨fun hok hd => ?_, fun ho => ⟨fun hd => ?_, fun hd => ?_⟩⟩, fun hd => ?_,
    fun R t own hfile hR hlow hlen hd =>
      (h.openKernel h₀ hfile hR hlow hlen).mapped (Or.inl (Nat.ne_of_gt hd))⟩
  · have hcount := hinv.count
    rw [(hok.2 hd).1, if_pos hd] at hcount
    omega
  · obtain ⟨free, used, hareas, ⟨h0, -⟩ | ⟨-, hv, hused⟩⟩ := hinv.areas
    · omega
    · exact ⟨hv, free, used, hareas, hused⟩
  · have hcount := hinv.count
    rw [if_pos hd, ho hd] at hcount
    obtain ⟨free, used, hareas, ⟨-, -, hv, rest, hfree⟩ | ⟨hc, -⟩⟩ := hinv.areas
    · exact ⟨hcount, hv, free, used, hareas, hfree ▸ mem_cons_self⟩
    · exact absurd hc (by simp [hd, ho hd])
  · obtain ⟨d', rfl⟩ := Nat.exists_eq_succ_of_ne_zero (Nat.ne_of_gt hd)
    obtain ⟨r, s', hr, -⟩ := hinv.released sb
    exact ⟨r, s', hr⟩

/-- A closed file of the small mount. -/
theorem closedFile_mappedFiles : ClosedFile (mappedFiles 0) 0 (rdfsStart + dirAreaSize) := by
  refine ⟨by decide, rfl, rfl, rfl, areasOf, fun _ => [], areaInv_nvmallocInit, regAreas.drop 1, ?_⟩
  rw [areasOf, if_pos rfl, ← drop_zero (l := regAreas), drop_regAreas_cons (by decide)]
  rfl

/-- One open and its release. -/
theorem OpenRun.openOk_iff_once : ∃ s, OpenRun Region.behindTables 0 (mappedFiles 0) 0 0 s ∧
      OpenOk s 0 (rdfsStart + dirAreaSize) 0 := by
  have hstart : OpenRun Region.behindTables 0 (mappedFiles 0) 0 0 (mappedFiles 0) := OpenRun.start
  have hopen := hstart.opened 0 0
  obtain ⟨r, s, hr⟩ := (OpenRun.openOk_iff closedFile_mappedFiles hopen).2.1 (by decide)
  have hclosed := hopen.released hr
  exact ⟨s, hclosed, (OpenRun.openOk_iff closedFile_mappedFiles hclosed).1.2 fun _ => rfl⟩

/-- Two opens that overlap : once both are released, `mapping_count` is 1 and the file still has
its area. -/
theorem overlapping_opens_keep_area :
    ∃ s, OpenRun Region.behindTables 0 (mappedFiles 0) 0 1 s ∧ (s.inode 0).mappingCount = 1 ∧
      (s.inode 0).iVirtAddr = rdfsStart + dirAreaSize ∧
      ¬OpenOk s 0 (rdfsStart + dirAreaSize) 0 := by
  have hstart : OpenRun Region.behindTables 0 (mappedFiles 0) 0 0 (mappedFiles 0) := OpenRun.start
  have h₂ := (hstart.opened 0 0).opened 0 0
  obtain ⟨r₁, s₁, hr₁, -⟩ := (h₂.openInv closedFile_mappedFiles).released Region.behindTables
  have h₁ := h₂.released hr₁
  obtain ⟨r, s, hr, -⟩ := (h₁.openInv closedFile_mappedFiles).released Region.behindTables
  have h₀ := h₁.released hr
  have hinv := h₀.openInv closedFile_mappedFiles
  have hcount : (s.inode 0).mappingCount = 1 := hinv.count
  refine ⟨s, h₀, hcount, ?_, fun hok => ?_⟩
  · obtain ⟨free, used, -, ⟨-, h1, -⟩ | ⟨-, hv, -⟩⟩ := hinv.areas
    · exact absurd h1 (by decide)
    · exact hv
  · have := (hok.2 rfl).1
    omega

end Rdfs
