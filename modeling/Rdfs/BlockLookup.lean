import Rdfs.PageOwners
import Rdfs.PteCalls
import Rdfs.Trace

/-!
# Looking up the blocks of regular files

`rdfs_search_metadata` finds the pte value of block `b` at byte `8 * b` of the area of the file, in
the page of block `b / 512` at place `b % 512`. `rdfs_new_page_pte` writes the pte values of all
files one after another through one cursor, and the page of the cursor becomes the page of the
block. So a file is looked up in the right places only if it has its page from place 0 on to
itself, and if it has no more than 512 blocks, since behind them the lookup goes to the page of
block 1, which is the first page again.

`Logged.Resolves` says that every lookup finds the slave and the block that were obtained, and
`PteCall.InOrder` when a call keeps it so. From files without blocks, with enough pages and groups,
all lookups are right in all states of a run exactly if all of its calls are in order
(`PteStart.resolves_iff`).
-/

namespace Rdfs

open List Function Option

variable {sb : Super} {R : Region sb} {blocks : ℕ}

/-! ## What is expected -/

/-- `rdfs_search_metadata` of block `b` of the file `f`. -/
def Logged.lookup (s : Logged) (f b : ℕ) : Option (ℕ × ℕ) :=
  rdfsSearchMetadata s.fs.master.kernel s.fs.master.nvm.mem (s.fs.inode f).iVirtAddr (b * 4096)

/-- `f` is a regular file that is in use. -/
def Logged.IsReg (s : Logged) (f : ℕ) : Prop := f ∈ s.fs.files ∧ SIsReg (s.fs.inode f).iMode

/-- The lookup of every block of every regular file finds what was obtained for it, and no two
blocks are found at the same place. -/
structure Logged.Resolves (s : Logged) : Prop where
  obtained : ∀ f b, s.IsReg f → b < (s.fs.inode f).iBlocks →
    ∃ x, (s.log f)[b]? = some x ∧ s.lookup f b = some x
  distinct : ∀ f b g c, s.IsReg f → b < (s.fs.inode f).iBlocks → s.IsReg g →
    c < (s.fs.inode g).iBlocks → s.lookup f b = s.lookup g c → f = g ∧ b = c

/-- The call is for a regular file, and finds the pages and groups it needs. -/
structure PteCall.Enough (R : Region sb) (s : Logged) (c : PteCall) : Prop where
  valid : (FsOp.alloc c.f c.cpu c.num c.zeroing .pte c.phys).Valid s.fs
  sound : (FsOp.alloc c.f c.cpu c.num c.zeroing .pte c.phys).Sound R s.fs
  groups : GroupsFound c.num s.fs.master.slaves (s.fs.inode c.f).bitmaps

/-- The file has as many blocks as the page of the cursor has pte values, or none if that page is
full, and it does not get more than a page has room for. -/
def PteCall.InOrder (s : Logged) (c : PteCall) : Prop :=
  c.num = 0 ∨ ((s.fs.inode c.f).iBlocks = s.fs.master.pteCnt % 512 ∧
    (s.fs.inode c.f).iBlocks + c.num ≤ 512)

/-- The regular files are mapped and have empty tables, and slave 0 has just offered `blocks`
blocks. -/
structure PteStart (R : Region sb) (blocks : ℕ) (s : Fs) : Prop where
  inv : FsInv R s
  empty : ∀ f ∈ s.files, SIsReg (s.inode f).iMode → (s.inode f).iVirtAddr ≠ 0 ∧
    HasTable sb s.master.nvm.mem f ∧ (s.inode f).iBlocks = 0
  bitmaps : ∀ f ∈ s.files, (s.inode f).bitmaps = ⟨none, []⟩
  slave : ∃ i, s.master.slaves rdfsSelectSlave = rdfsInitSlaveMemoryBitmapList i blocks
  lt : blocks < 2 ^ 31

/-! ## Logs -/

/-- The logs are of blocks of slave 0 among `ids`, none of which is logged twice. -/
structure LogInv (ids : List ℕ) (log : ℕ → List (ℕ × ℕ)) : Prop where
  mem : ∀ f, ∀ x ∈ log f, x.1 = 0 ∧ x.2 ∈ ids
  unique : ∀ (f g b c : ℕ) (x : ℕ × ℕ),
    (log f)[b]? = some x → (log g)[c]? = some x → f = g ∧ b = c

variable {x y : ℕ × ℕ} {staging : List ℕ} {a : PteCall}

theorem getElem?_update_append {log : ℕ → List (ℕ × ℕ)} {f g b : ℕ}
    (h : (Function.update log f (log f ++ [x]) g)[b]? = some y) :
    (log g)[b]? = some y ∨ (g = f ∧ b = (log f).length ∧ y = x) := by
  by_cases hg : g = f
  · subst hg
    rw [update_self] at h
    rcases Nat.lt_trichotomy b (log g).length with hb | hb | hb
    · rw [getElem?_append_left hb] at h
      exact Or.inl h
    · rw [getElem?_append_right hb.ge, hb, Nat.sub_self] at h
      exact Or.inr ⟨rfl, hb, (some_inj.1 h).symm⟩
    · rw [getElem?_eq_none (by simp; omega)] at h
      cases h
  · rw [update_of_ne hg] at h
    exact Or.inl h

theorem LogInv.append {ids : List ℕ} {log : ℕ → List (ℕ × ℕ)} (h : LogInv ids log) {id : ℕ}
    (hid : id ∉ ids) (f : ℕ) :
    LogInv (ids ++ [id]) (Function.update log f (log f ++ [(0, id)])) := by
  have hnew : ∀ g b : ℕ, (log g)[b]? ≠ some (0, id) := fun g b hb =>
    hid (h.mem g _ (mem_of_getElem? hb)).2
  constructor
  · intro g x hx
    obtain ⟨b, hb⟩ := getElem?_of_mem hx
    rcases getElem?_update_append hb with hb | ⟨-, -, rfl⟩
    · obtain ⟨h0, hmem⟩ := h.mem g x (mem_of_getElem? hb)
      exact ⟨h0, mem_append_left _ hmem⟩
    · exact ⟨rfl, mem_append_right _ mem_cons_self⟩
  · intro g g' b c x hb hc
    rcases getElem?_update_append hb with hb | ⟨hg, hb, hx⟩ <;>
      rcases getElem?_update_append hc with hc | ⟨hg', hc, hx'⟩
    · exact h.unique g g' b c x hb hc
    · exact absurd (hx' ▸ hb) (hnew g b)
    · exact absurd (hx ▸ hc) (hnew g' c)
    · exact ⟨hg.trans hg'.symm, hb.trans hc.symm⟩

/-! ## Every run -/

/-- What holds in every run with enough pages and groups. -/
structure PteBase (R : Region sb) (blocks : ℕ) (s : Logged) (tree : ℕ → Option Tree)
    (metas : List ℕ) : Prop where
  pages : ∃ staging, PagesInv R s.fs tree metas staging
  kernel : KernelInv s.fs tree
  mapped : ∀ f, s.IsReg f → (s.fs.inode f).iVirtAddr ≠ 0 ∧ ∃ t, tree f = some t
  length : ∀ f, s.IsReg f → (s.log f).length = (s.fs.inode f).iBlocks
  run : ∃ ids inodes, SlaveRun blocks s.fs.master.slaves inodes ids ∧
    (∀ f ∈ s.fs.files, inodes f = (s.fs.inode f).bitmaps) ∧ LogInv ids s.log
  lt : blocks < 2 ^ 31

/-- From `s` to `s'` the regular file `f` has got the block `x`. -/
structure OneBlock (R : Region sb) (blocks f : ℕ) (s s' : Logged) (tree tree' : ℕ → Option Tree)
    (metas metas' : List ℕ) (p c : ℕ) (x : ℕ × ℕ) : Prop where
  before : PteBase R blocks s tree metas
  after : PteBase R blocks s' tree' metas'
  isReg : s.IsReg f
  got : GotBlock f s.fs s'.fs tree tree' metas p c x
  log : s'.log = Function.update s.log f (s.log f ++ [x])
  fresh : ∀ g, x ∉ s.log g

theorem GotBlock.isReg_iff {f : ℕ} {s s' : Logged} {tree tree' : ℕ → Option Tree} {metas : List ℕ}
    {p c : ℕ} (h : GotBlock f s.fs s'.fs tree tree' metas p c x) (g : ℕ) :
    s'.IsReg g ↔ s.IsReg g := by
  have hmode : (s'.fs.inode g).iMode = (s.fs.inode g).iMode := by
    rw [h.inode]
    by_cases hg : g = f
    · rw [hg, update_self]
    · rw [update_of_ne hg]
  rw [Logged.IsReg, Logged.IsReg, h.files, hmode]

namespace PteBase

variable {s : Logged} {tree : ℕ → Option Tree} {metas : List ℕ} {f : ℕ}

theorem hasTable (h : PteBase R blocks s tree metas) (hf : s.IsReg f) :
    HasTable sb s.fs.master.nvm.mem f := by
  obtain ⟨staging, hp⟩ := h.pages
  exact (hp.hasTable_iff hf.1).2 (h.mapped f hf).2

theorem iIno (h : PteBase R blocks s tree metas) (hf : s.IsReg f) : (s.fs.inode f).iIno = f := by
  obtain ⟨staging, hp⟩ := h.pages
  exact hp.iIno f hf.1

/-- The room of a call for a file with a table. -/
theorem sound_iff (h : PteBase R blocks s tree metas) (hf : s.IsReg f) (cpu num zeroing phys : ℕ) :
    (FsOp.alloc f cpu num zeroing .pte phys).Sound R s.fs ↔
      Placed (s.fs.inode f).iVirtAddr ((s.fs.inode f).iBlocks + num) ∧
      PteRoom s.fs.master.nvm (getCpuNuma sb cpu) (rdfsGetNumaByInode sb (getRdfsInode sb f))
        (s.fs.inode f).iBlocks s.fs.master.pteCnt num := by
  have hheld : s.fs.tableHeld sb f = tableSize (s.fs.inode f).iBlocks := if_pos (h.hasTable hf)
  rw [FsOp.Sound, hheld]
  exact Iff.rfl

/-- The base after one block. -/
theorem of_gotBlock (h : PteBase R blocks s tree metas) (hf : s.IsReg f) {s' : Logged}
    {tree' : ℕ → Option Tree} {metas' staging' : List ℕ} {p c : ℕ}
    (hgot : GotBlock f s.fs s'.fs tree tree' metas p c x)
    (hlog : s'.log = Function.update s.log f (s.log f ++ [x]))
    (hpages : PagesInv R s'.fs tree' metas' staging') (hkernel : KernelInv s'.fs tree')
    (hgroup : (s.fs.inode f).bitmaps.NeedsGroup →
      (s.fs.master.slaves rdfsSelectSlave).bitmapHead ≠ []) :
    OneBlock R blocks f s s' tree tree' metas metas' p c x := by
  obtain ⟨ids, inodes, hrun, hinodes, hlogs⟩ := h.run
  rw [← hinodes f hf.1] at hgroup
  obtain ⟨hslave, hnew, hlt⟩ := hrun.next h.lt hgroup
  rw [hinodes f hf.1] at hslave hnew
  have hx : x = (0, (allocBlock s.fs.master.slaves (s.fs.inode f).bitmaps).1) := by
    rw [hgot.block, hslave]
  have hother : ∀ g, g ≠ f → s'.fs.inode g = s.fs.inode g := fun g hg => by
    rw [hgot.inode, update_of_ne hg]
  have hself := congrFun hgot.inode f
  rw [update_self] at hself
  refine ⟨h, ⟨⟨staging', hpages⟩, hkernel, fun g hg => ?_, fun g hg => ?_, ?_, h.lt⟩, hf, hgot,
    hlog, fun g hmem => ?_⟩
  · rw [hgot.isReg_iff] at hg
    by_cases hgf : g = f
    · rw [hgf, hself]
      exact ⟨(h.mapped f hf).1, hgot.tree_self⟩
    · rw [hother g hgf, hgot.tree_ne g hgf]
      exact h.mapped g hg
  · rw [hgot.isReg_iff] at hg
    have hlen := h.length g hg
    rw [hlog]
    by_cases hgf : g = f
    · subst hgf
      rw [update_self, hself, length_append, hlen]
      rfl
    · rw [update_of_ne hgf, hother g hgf, hlen]
  · have hrun' := hrun.alloc f hgroup
    rw [hinodes f hf.1, ← hgot.slaves] at hrun'
    refine ⟨_, _, hrun', fun g hg => ?_, ?_⟩
    · rw [hgot.files] at hg
      by_cases hgf : g = f
      · rw [hgf, update_self, hself]
      · rw [update_of_ne hgf, hother g hgf, hinodes g hg]
    · rw [hlog, hx]
      exact hlogs.append hnew f
  · rw [hx] at hmem
    exact hnew (hlogs.mem g _ hmem).2

/-- The first block of a call, and what is left of it. -/
theorem round (h : PteBase R blocks s tree metas) (hp : PagesInv R s.fs tree metas staging)
    {cpu num zeroing phys : ℕ} (hc : PteCall.Enough R s ⟨f, cpu, num + 1, zeroing, phys⟩) :
    ∃ s' tree' metas' p c x, OneBlock R blocks f s s' tree tree' metas metas' p c x ∧
      PagesInv R s'.fs tree' metas' staging ∧
      s.call sb ⟨f, cpu, num + 1, zeroing, phys⟩ = s'.call sb ⟨f, cpu, num, zeroing, phys⟩ ∧
      PteCall.Enough R s' ⟨f, cpu, num, zeroing, phys⟩ := by
  obtain ⟨⟨hmem, hnum, hkind⟩, hsound, hgroup, hgroups⟩ := hc
  dsimp only at hmem hnum hkind hsound hgroup hgroups
  have hf : s.IsReg f := ⟨hmem, hkind.1 rfl⟩
  obtain ⟨hplaced, hroom⟩ := (h.sound_iff hf cpu (num + 1) zeroing phys).1 hsound
  obtain ⟨t, ht⟩ := (h.mapped f hf).2
  obtain ⟨a, tree', metas', p, c, x, hround, hx, hgot, hpages, hkernel, hroom'⟩ := hp.gotBlock
    h.kernel hmem hf.2 ht rfl rfl (hplaced.mono (by omega)) hroom.one zeroing phys
  have hone : OneBlock R blocks f s (s.put f a) tree tree' metas metas' p c x :=
    h.of_gotBlock hf hgot (by rw [Logged.put, hx]) hpages hkernel hgroup
  have hf' : (s.put f a).IsReg f := (hgot.isReg_iff f).2 hf
  have hself : (s.put f a).fs.inode f = a.inode := Fs.put_inode_self s.fs f _
  have hblocks := congrFun hgot.inode f
  rw [update_self] at hblocks
  refine ⟨s.put f a, tree', metas', p, c, x, hone, hpages, ?_,
    ⟨hf'.1, show num < 2 ^ 31 by omega, fun _ => hf'.2, fun _ => rfl⟩,
    (hone.after.sound_iff hf' cpu num zeroing phys).2 ⟨?_, ?_⟩, ?_⟩
  · refine Logged.call_succ ((h.iIno hf).symm ▸ h.hasTable hf) hround ?_ num
    have htable := hone.after.hasTable hf'
    have hino := hone.after.iIno hf'
    rw [hself] at hino
    rwa [hino]
  · rw [Logged.put, hblocks]
    rwa [show (s.fs.inode f).iBlocks + 1 + num = (s.fs.inode f).iBlocks + (num + 1) by omega]
  · have := hroom' num hroom
    rw [Logged.put, hblocks]
    exact this
  · rw [Logged.put, hblocks, hgot.slaves]
    exact hgroups

/-- What the blocks of a call do one after another, `P` being known with `num` of them to go. The
staging page stays apart. -/
theorem induct_pages (h : PteBase R blocks s tree metas) (hp : PagesInv R s.fs tree metas staging)
    {c : PteCall} (hc : c.Enough R s) {P : ℕ → Logged → (ℕ → Option Tree) → Prop}
    (hstart : P c.num s tree) (hstep : ∀ {num s s' tree tree' metas metas' p d x},
      OneBlock R blocks c.f s s' tree tree' metas metas' p d x → P (num + 1) s tree →
        P num s' tree') :
    ∃ tree' metas', PteBase R blocks (s.call sb c) tree' metas' ∧
      PagesInv R (s.call sb c).fs tree' metas' staging ∧ P 0 (s.call sb c) tree' := by
  obtain ⟨f, cpu, num, zeroing, phys⟩ := c
  induction num generalizing s tree metas with
  | zero =>
    have hf : s.IsReg f := ⟨hc.valid.1, hc.valid.2.2.1 rfl⟩
    rw [Logged.call_zero ((h.iIno hf).symm ▸ h.hasTable hf)]
    exact ⟨tree, metas, h, hp, hstart⟩
  | succ num ih =>
    obtain ⟨s', tree', metas', p, d, x, hone, hp', hcall, hc'⟩ := h.round hp hc
    rw [hcall]
    exact ih hone.after hp' hc' (hstep hone hstart) hstep

theorem induct (h : PteBase R blocks s tree metas) {c : PteCall} (hc : c.Enough R s)
    {P : ℕ → Logged → (ℕ → Option Tree) → Prop} (hstart : P c.num s tree)
    (hstep : ∀ {num s s' tree tree' metas metas' p d x},
      OneBlock R blocks c.f s s' tree tree' metas metas' p d x → P (num + 1) s tree →
        P num s' tree') :
    ∃ tree' metas', PteBase R blocks (s.call sb c) tree' metas' ∧ P 0 (s.call sb c) tree' := by
  obtain ⟨staging, hp⟩ := h.pages
  obtain ⟨tree', metas', hbase, -, hend⟩ := h.induct_pages hp hc hstart hstep
  exact ⟨tree', metas', hbase, hend⟩

/-- The pages of pte values that a file has entered. -/
theorem ents (h : PteBase R blocks s tree metas) (hf : s.IsReg f) :
    fileEnts (tree f) ⊆ metas ∧ (fileEnts (tree f)).length = (s.fs.inode f).iBlocks := by
  obtain ⟨staging, hp⟩ := h.pages
  exact ⟨hp.entered f hf.1 hf.2, hp.blocks f hf.1⟩

/-- The cursor is in a page that a file has entered, or at the end of it. -/
theorem cursor (h : PteBase R blocks s tree metas) : s.fs.master.pteCnt ≤ 512 ∧
    (s.fs.master.pteCnt < 512 → s.fs.master.ptePhyAddr ∈ metas ∧
      ∃ g, s.IsReg g ∧ s.fs.master.ptePhyAddr ∈ fileEnts (tree g)) := by
  obtain ⟨staging, hp⟩ := h.pages
  refine ⟨hp.cursor.1, fun hlt => ⟨hp.cursor.2 hlt, ?_⟩⟩
  obtain ⟨g, hg, hreg, hmem⟩ := hp.enters _ (hp.cursor.2 hlt)
  exact ⟨g, ⟨hg, hreg⟩, hmem⟩

/-- A lookup reads place `b % 512` of the page of block `b / 512`. If the pte value of a block
that some file has obtained is there, it finds that block. -/
theorem lookup_eq (h : PteBase R blocks s tree metas) (hf : s.IsReg f) {b e g : ℕ}
    (he : (fileEnts (tree f))[b / 512]? = some e) (hy : y ∈ s.log g)
    (hword : s.fs.master.nvm.mem.load 8 (e + 8 * (b % 512)) = pteValue y.1 y.2) :
    s.lookup f b = some y := by
  obtain ⟨staging, hp⟩ := h.pages
  obtain ⟨hv, t, ht⟩ := h.mapped f hf
  obtain ⟨free, used, hspace⟩ := h.kernel.space
  obtain ⟨i, hmode, hused⟩ := hspace.inUse f hv
  have hi : i = 0 := by
    rw [areaMode_eq_zero_iff.2 hf.2] at hmode
    exact (some_inj.1 hmode).symm
  subst hi
  have hreg : (s.fs.inode f).iVirtAddr ∈ regAreas :=
    (hspace.areas.perm 0).subset (mem_append_right _ hused)
  have hrep := hp.files.rep f hf.1 t ht
  have hlen := hp.ents_length_le hf.1 ht
  have hpmds := hrep.length_pmds
  have hholds := h.kernel.holds f
  rw [ht] at hholds he
  obtain ⟨ids, inodes, hrun, -, hlogs⟩ := h.run
  obtain ⟨t₀, hinv⟩ := hrun.slaveInv h.lt
  obtain ⟨h0, hid⟩ := hlogs.mem g y hy
  have htaken := hinv.taken y.2 hid
  have hle := hinv.le
  have hlt := h.lt
  have hpage : ∀ q ∈ t.pages ++ t.ents, R.pages.IsPage q := by
    intro q hq
    rcases mem_append.1 hq with hq | hq
    · exact hp.files.isPage hf.1 ht hq
    · exact hp.ent_isPage hf.1 (by rwa [ht])
  rw [Logged.lookup, (hholds.mapped (by omega)).search hreg hrep hpage he, hword,
    decodePte_pteValue (by omega) (by omega)]

end PteBase

/-! ## Runs in order -/

/-- Every file has one page to itself, in which its pte values are in order. The page is full, or
it is that of the cursor. -/
structure InPlace (s : Logged) (tree : ℕ → Option Tree) : Prop where
  one : ∀ f, s.IsReg f → ∀ q ∈ fileEnts (tree f), ∀ q' ∈ fileEnts (tree f), q = q'
  size : ∀ f, s.IsReg f → ∀ q ∈ fileEnts (tree f), (s.fs.inode f).iBlocks =
    if q = s.fs.master.ptePhyAddr then s.fs.master.pteCnt else 512
  words : ∀ f, s.IsReg f → ∀ q ∈ fileEnts (tree f), ∀ (b : ℕ) (x : ℕ × ℕ), (s.log f)[b]? = some x →
    s.fs.master.nvm.mem.load 8 (q + 8 * b) = pteValue x.1 x.2
  own : ∀ f g, s.IsReg f → s.IsReg g → ∀ q, q ∈ fileEnts (tree f) → q ∈ fileEnts (tree g) → f = g

section

variable {s s' : Logged} {tree tree' : ℕ → Option Tree} {metas metas' : List ℕ} {f p c : ℕ}
  {x : ℕ × ℕ}

theorem InPlace.iBlocks_le (h : InPlace s tree) (hb : PteBase R blocks s tree metas)
    (hf : s.IsReg f) : (s.fs.inode f).iBlocks ≤ 512 := by
  have hlen := (hb.ents hf).2
  cases hents : fileEnts (tree f) with
  | nil =>
    rw [hents] at hlen
    simp only [length_nil] at hlen
    omega
  | cons q qs =>
    have hsize := h.size f hf q (hents ▸ mem_cons_self)
    have hcnt := hb.cursor.1
    split_ifs at hsize <;> omega

/-- In order, all lookups are right. -/
theorem InPlace.resolves (h : InPlace s tree) (hb : PteBase R blocks s tree metas) :
    s.Resolves := by
  have hfound : ∀ f b, s.IsReg f → b < (s.fs.inode f).iBlocks →
      ∃ x, (s.log f)[b]? = some x ∧ s.lookup f b = some x := by
    intro f b hf hlt
    obtain ⟨-, hlen⟩ := hb.ents hf
    have hle := h.iBlocks_le hb hf
    have hlog : b < (s.log f).length := by rwa [hb.length f hf]
    obtain ⟨q, hq⟩ : ∃ q, (fileEnts (tree f))[b / 512]? = some q :=
      ⟨_, getElem?_eq_getElem (by omega)⟩
    refine ⟨(s.log f)[b], getElem?_eq_getElem hlog, hb.lookup_eq hf hq (getElem_mem hlog) ?_⟩
    rw [show b % 512 = b by omega]
    exact h.words f hf q (mem_of_getElem? hq) b _ (getElem?_eq_getElem hlog)
  refine ⟨hfound, fun f b g c hf hbf hg hcg heq => ?_⟩
  obtain ⟨y, hy, hlook⟩ := hfound f b hf hbf
  obtain ⟨z, hz, hlook'⟩ := hfound g c hg hcg
  obtain ⟨ids, inodes, -, -, hlogs⟩ := hb.run
  rw [hlook, hlook', some_inj] at heq
  exact hlogs.unique f g b c y hy (heq ▸ hz)

namespace OneBlock

variable (o : OneBlock R blocks f s s' tree tree' metas metas' p c x)
include o

theorem iBlocks_self : (s'.fs.inode f).iBlocks = (s.fs.inode f).iBlocks + 1 := by
  rw [o.got.inode, update_self]

theorem iBlocks_of_ne {g : ℕ} (hg : g ≠ f) : (s'.fs.inode g).iBlocks = (s.fs.inode g).iBlocks := by
  rw [o.got.inode, update_of_ne hg]

/-- What was logged stays, and the new block is behind it. -/
theorem getElem?_log {g b : ℕ} : (s'.log g)[b]? = some y ↔
    (s.log g)[b]? = some y ∨ (g = f ∧ b = (s.fs.inode f).iBlocks ∧ y = x) := by
  have hlen := o.before.length f o.isReg
  rw [o.log, ← hlen]
  refine ⟨getElem?_update_append, ?_⟩
  by_cases hg : g = f
  · subst hg
    rw [update_self]
    rintro (h | ⟨-, rfl, rfl⟩)
    · rw [getElem?_append_left (List.getElem?_eq_some_iff.1 h).1]
      exact h
    · rw [getElem?_append_right le_rfl, Nat.sub_self]
      rfl
  · rw [update_of_ne hg]
    exact fun h => h.resolve_right fun h => hg h.1

theorem mem_log {g : ℕ} (h : y ∈ s.log g) : y ∈ s'.log g := by
  obtain ⟨b, hb⟩ := getElem?_of_mem h
  exact mem_of_getElem? (o.getElem?_log.2 (Or.inl hb))

/-- The pages that were entered stay, and the page of the new block is behind them. -/
theorem getElem?_ents {g i e : ℕ} (h : (fileEnts (tree g))[i]? = some e) :
    (fileEnts (tree' g))[i]? = some e := by
  by_cases hg : g = f
  · subst hg
    rw [o.got.ents, getElem?_append_left (List.getElem?_eq_some_iff.1 h).1]
    exact h
  · rwa [o.got.tree_ne g hg]

theorem mem_ents {g q : ℕ} (h : q ∈ fileEnts (tree' g)) :
    q ∈ fileEnts (tree g) ∨ (g = f ∧ q = p) := by
  by_cases hg : g = f
  · subst hg
    rw [o.got.ents, mem_append, mem_singleton] at h
    exact h.imp_right fun h => ⟨rfl, h⟩
  · rw [o.got.tree_ne g hg] at h
    exact Or.inl h

end OneBlock

section

variable (h : InPlace s tree) (o : OneBlock R blocks f s s' tree tree' metas metas' p c x)
  (hord : (s.fs.inode f).iBlocks = s.fs.master.pteCnt % 512)
include h o hord

/-- A file that is in order has the page of the next place to itself, and has it filled up to
there; the pages of all other files are full. -/
theorem InPlace.next : c = (s.fs.inode f).iBlocks ∧ (∀ q ∈ fileEnts (tree f), q = p) ∧
      ∀ g, s.IsReg g → g ≠ f → ∀ q ∈ fileEnts (tree g), q ≠ p ∧ (s.fs.inode g).iBlocks = 512 := by
  obtain ⟨-, hlen⟩ := o.before.ents o.isReg
  rcases o.got.place with ⟨hcnt, hp, hc⟩ | ⟨hcnt, hp, hc⟩
  · have h0 : (s.fs.inode f).iBlocks = 0 := by omega
    rw [h0, length_eq_zero_iff] at hlen
    refine ⟨by omega, by simp [hlen], fun g hg _ q hq => ⟨?_, ?_⟩⟩
    · rintro rfl
      exact hp ((o.before.ents hg).1 hq)
    · rw [h.size g hg q hq, hcnt, ite_self]
  · obtain ⟨-, g₀, hg₀, hmem₀⟩ := o.before.cursor.2 hcnt
    have hsize₀ := h.size g₀ hg₀ _ hmem₀
    have hpos := length_pos_of_mem hmem₀
    rw [(o.before.ents hg₀).2, hsize₀, if_pos rfl] at hpos
    obtain ⟨q₀, hq₀⟩ := exists_mem_of_length_pos (show 0 < (fileEnts (tree f)).length by omega)
    have hq₀p : q₀ = p := by
      by_contra hne
      have := h.size f o.isReg q₀ hq₀
      rw [if_neg (hp ▸ hne)] at this
      omega
    subst hq₀p
    refine ⟨by omega, fun q hq => h.one f o.isReg q hq q₀ hq₀, fun g hg hgf q hq => ?_⟩
    have hne : q ≠ q₀ := by
      rintro rfl
      exact hgf (h.own g f hg o.isReg q hq hq₀)
    exact ⟨hne, by rw [h.size g hg q hq, if_neg (hp ▸ hne)]⟩

/-- A block in order. -/
theorem InPlace.step : InPlace s' tree' := by
  obtain ⟨hc, hself, hothers⟩ := h.next o hord
  obtain ⟨hptr, hcnt⟩ := o.got.cursor
  have hpage : ∀ q ∈ fileEnts (tree' f), q = p := fun q hq =>
    (o.mem_ents hq).elim (hself q) And.right
  constructor
  · intro g hg q hq q' hq'
    by_cases hgf : g = f
    · subst hgf
      rw [hpage q hq, hpage q' hq']
    · rw [o.got.tree_ne g hgf] at hq hq'
      exact h.one g ((o.got.isReg_iff g).1 hg) q hq q' hq'
  · intro g hg q hq
    by_cases hgf : g = f
    · subst hgf
      rw [hpage q hq, hptr, if_pos rfl, o.iBlocks_self, hcnt, hc]
    · rw [o.got.tree_ne g hgf] at hq
      obtain ⟨hne, h512⟩ := hothers g ((o.got.isReg_iff g).1 hg) hgf q hq
      rw [hptr, if_neg hne, o.iBlocks_of_ne hgf, h512]
  · intro g hg q hq b y hy
    rw [o.got.isReg_iff] at hg
    have hle := h.iBlocks_le o.before hg
    rcases o.getElem?_log.1 hy with hold | ⟨rfl, rfl, rfl⟩
    · have hb := (List.getElem?_eq_some_iff.1 hold).1
      rw [o.before.length g hg] at hb
      obtain ⟨hsub, hlen⟩ := o.before.ents hg
      obtain ⟨q₀, hq₀⟩ := exists_mem_of_length_pos (show 0 < (fileEnts (tree g)).length by omega)
      have hqq₀ : q = q₀ ∧ (q ≠ p ∨ b ≠ c) := by
        by_cases hgf : g = f
        · subst hgf
          exact ⟨(hpage q hq).trans (hself q₀ hq₀).symm, Or.inr (by omega)⟩
        · rw [o.got.tree_ne g hgf] at hq
          exact ⟨h.one g hg q hq q₀ hq₀, Or.inl (hothers g hg hgf q hq).1⟩
      obtain ⟨rfl, hne⟩ := hqq₀
      rw [o.got.same q (hsub hq₀) b (by omega) hne]
      exact h.words g hg q hq₀ b y hold
    · rw [hpage q hq, ← hc]
      exact o.got.word
  · intro g g' hg hg' q hq hq'
    rw [o.got.isReg_iff] at hg hg'
    by_cases hgf : g = f <;> by_cases hgf' : g' = f
    · rw [hgf, hgf']
    · subst hgf
      rw [o.got.tree_ne g' hgf'] at hq'
      exact absurd (hpage q hq) (hothers g' hg' hgf' q hq').1
    · subst hgf'
      rw [o.got.tree_ne g hgf] at hq
      exact absurd (hpage q hq') (hothers g hg hgf q hq).1
    · rw [o.got.tree_ne g hgf] at hq
      rw [o.got.tree_ne g' hgf'] at hq'
      exact h.own g g' hg hg' q hq hq'

end

/-! ## Runs out of order -/

/-- The place where block `b` of the file `g` is looked up has the pte value of another block,
and the cursor is past it. -/
def Lost (s : Logged) (tree : ℕ → Option Tree) : Prop :=
  ∃ (g b e j : ℕ) (y z : ℕ × ℕ), s.IsReg g ∧ (fileEnts (tree g))[b / 512]? = some e ∧
    y ∈ s.log j ∧ s.fs.master.nvm.mem.load 8 (e + 8 * (b % 512)) = pteValue y.1 y.2 ∧
    (s.log g)[b]? = some z ∧ y ≠ z ∧
    (e = s.fs.master.ptePhyAddr → b % 512 < s.fs.master.pteCnt)

theorem Lost.not_resolves (h : Lost s tree) (hb : PteBase R blocks s tree metas) :
    ¬ s.Resolves := by
  obtain ⟨g, b, e, j, y, z, hg, he, hy, hword, hz, hne, -⟩ := h
  intro hres
  have hlt := (List.getElem?_eq_some_iff.1 hz).1
  rw [hb.length g hg] at hlt
  obtain ⟨x, hx, hlook⟩ := hres.obtained g b hg hlt
  rw [hb.lookup_eq hg he hy hword, some_inj] at hlook
  rw [hz, some_inj] at hx
  exact hne (hlook.trans hx.symm)

/-- The cursor does not come back. -/
theorem Lost.step (h : Lost s tree)
    (o : OneBlock R blocks f s s' tree tree' metas metas' p c x) : Lost s' tree' := by
  obtain ⟨g, b, e, j, y, z, hg, he, hy, hword, hz, hne, hpast⟩ := h
  obtain ⟨hptr, hcnt⟩ := o.got.cursor
  have hmem : e ∈ metas := (o.before.ents hg).1 (mem_of_getElem? he)
  have hlt : e = p → b % 512 < c := by
    rintro rfl
    rcases o.got.place with ⟨-, hp, -⟩ | ⟨-, hp, hc⟩
    · exact absurd hmem hp
    · exact hc ▸ hpast hp
  refine ⟨g, b, e, j, y, z, (o.got.isReg_iff g).2 hg, o.getElem?_ents he, o.mem_log hy, ?_,
    o.getElem?_log.2 (Or.inl hz), hne, fun hep => ?_⟩
  · rw [o.got.same e hmem (b % 512) (Nat.mod_lt _ (by decide)), hword]
    by_cases hep : e = p
    · exact Or.inr (hlt hep).ne
    · exact Or.inl hep
  · omega

section

variable (h : InPlace s tree) (o : OneBlock R blocks f s s' tree tree' metas metas' p c x)
include h o

/-- The first block of a file, in a page that another file has begun. -/
theorem InPlace.lost_first (hzero : (s.fs.inode f).iBlocks = 0)
    (hcnt : s.fs.master.pteCnt % 512 ≠ 0) : Lost s' tree' := by
  obtain ⟨hle, hcur⟩ := o.before.cursor
  obtain ⟨hmem, g, hg, hent⟩ := hcur (by omega)
  obtain ⟨-, hp, hc⟩ := o.got.place.resolve_left fun h => by omega
  have hlog : 0 < (s.log g).length := by
    rw [o.before.length g hg, h.size g hg _ hent, if_pos rfl]
    omega
  have hy := getElem?_eq_getElem hlog
  have hents : fileEnts (tree f) = [] := by
    rw [← length_eq_zero_iff, (o.before.ents o.isReg).2, hzero]
  refine ⟨f, 0, p, g, (s.log g)[0], x, (o.got.isReg_iff f).2 o.isReg, ?_,
    o.mem_log (getElem_mem hlog), ?_, o.getElem?_log.2 (Or.inr ⟨rfl, hzero.symm, rfl⟩), ?_,
    fun _ => ?_⟩
  · rw [o.got.ents, hents]
    rfl
  · rw [o.got.same p (hp ▸ hmem) (0 % 512) (by decide) (Or.inr (by omega)), hp]
    exact h.words g hg _ hent 0 _ hy
  · intro heq
    exact o.fresh g (heq ▸ getElem_mem hlog)
  · rw [o.got.cursor.2]
    omega

/-- Block 512 of a file is looked up at place 0 of its first page, which block 1 has, too. -/
theorem InPlace.lost_full (hfull : (s.fs.inode f).iBlocks = 512) : Lost s' tree' := by
  obtain ⟨hsub, hlen⟩ := o.before.ents o.isReg
  have hlog : 0 < (s.log f).length := by
    rw [o.before.length f o.isReg]
    omega
  have hone : 1 < (fileEnts (tree f)).length := by omega
  have hq := getElem_mem hone
  have hne : (fileEnts (tree f))[1] ≠ p := by
    intro hqp
    have hsize := h.size f o.isReg _ hq
    rcases o.got.place with ⟨-, hp, -⟩ | ⟨hcnt, hp, -⟩
    · exact hp (hqp ▸ hsub hq)
    · rw [if_pos (hqp.trans hp)] at hsize
      omega
  refine ⟨f, 512, (fileEnts (tree f))[1], f, (s.log f)[0], x, (o.got.isReg_iff f).2 o.isReg,
    o.getElem?_ents (getElem?_eq_getElem hone), o.mem_log (getElem_mem hlog), ?_,
    o.getElem?_log.2 (Or.inr ⟨rfl, hfull.symm, rfl⟩), ?_, fun hqp => ?_⟩
  · rw [o.got.same _ (hsub hq) (512 % 512) (by decide) (Or.inl hne)]
    exact h.words f o.isReg _ hq 0 _ (getElem?_eq_getElem hlog)
  · intro heq
    exact o.fresh f (heq ▸ getElem_mem hlog)
  · exact absurd (hqp.trans o.got.cursor.1) hne

/-- A block out of order. -/
theorem InPlace.lost (hord : (s.fs.inode f).iBlocks ≠ s.fs.master.pteCnt % 512) :
    Lost s' tree' := by
  obtain ⟨-, hlen⟩ := o.before.ents o.isReg
  have hle := o.before.cursor.1
  by_cases hzero : (s.fs.inode f).iBlocks = 0
  · exact h.lost_first o hzero (by omega)
  · obtain ⟨q, hq⟩ := exists_mem_of_length_pos (show 0 < (fileEnts (tree f)).length by omega)
    have hsize := h.size f o.isReg q hq
    exact h.lost_full o (by split_ifs at hsize <;> omega)

end

/-! ## Whole calls -/

section

variable (h : InPlace s tree) (hb : PteBase R blocks s tree metas)
include h hb

/-- A call in order. The staging page stays apart. -/
theorem InPlace.call_pages (hp : PagesInv R s.fs tree metas staging) (hc : a.Enough R s)
    (hord : a.InOrder s) : ∃ tree' metas', PteBase R blocks (s.call sb a) tree' metas' ∧
      PagesInv R (s.call sb a).fs tree' metas' staging ∧ InPlace (s.call sb a) tree' ∧
      ((s.call sb a).fs.inode a.f).iBlocks = (s.fs.inode a.f).iBlocks + a.num := by
  generalize hk : (s.fs.inode a.f).iBlocks + a.num = k
  have hcall := hb.induct_pages hp hc (P := fun num s tree => InPlace s tree ∧
    PteCall.InOrder s { a with num := num } ∧ (s.fs.inode a.f).iBlocks + num = k) ⟨h, hord, hk⟩
  obtain ⟨tree', metas', hb', hp', hplace, -, hend⟩ := hcall fun o => by
    rintro ⟨h, hord, hk⟩
    obtain ⟨heq, hle⟩ := hord.resolve_left (Nat.succ_ne_zero _)
    obtain ⟨hc, -⟩ := h.next o heq
    refine ⟨h.step o heq, or_iff_not_imp_left.2 fun hnum => ?_, by rw [o.iBlocks_self]; omega⟩
    dsimp only at hle hnum ⊢
    rw [o.iBlocks_self, o.got.cursor.2]
    omega
  exact ⟨tree', metas', hb', hp', hplace, by omega⟩

theorem InPlace.call (hc : a.Enough R s) (hord : a.InOrder s) :
    ∃ tree' metas', PteBase R blocks (s.call sb a) tree' metas' ∧ InPlace (s.call sb a) tree' := by
  obtain ⟨staging, hp⟩ := hb.pages
  obtain ⟨tree', metas', hb', -, hplace, -⟩ := h.call_pages hb hp hc hord
  exact ⟨tree', metas', hb', hplace⟩

/-- A call out of order. -/
theorem InPlace.not_resolves (hc : a.Enough R s) (hord : ¬ a.InOrder s) :
    ¬ (s.call sb a).Resolves := by
  have hcall := hb.induct hc (P := fun num s tree => Lost s tree ∨
    (InPlace s tree ∧ ¬ PteCall.InOrder s { a with num := num })) (Or.inr ⟨h, hord⟩)
  obtain ⟨tree', metas', hb', hlost⟩ := hcall fun {_ s _ _ _ _ _ _ _ _} o => by
    rintro (hlost | ⟨h, hord⟩)
    · exact Or.inl (hlost.step o)
    · by_cases heq : (s.fs.inode a.f).iBlocks = s.fs.master.pteCnt % 512
      · refine Or.inr ⟨h.step o heq, ?_⟩
        rw [PteCall.InOrder] at hord ⊢
        dsimp only at hord ⊢
        rw [o.iBlocks_self, o.got.cursor.2]
        omega
      · exact Or.inl (h.lost o heq)
  exact (hlost.resolve_right fun h => h.2 (Or.inl rfl)).not_resolves hb'

end

end

/-! ## Whole runs -/

/-- Without blocks, every file is in order. -/
theorem PteStart.inPlace {s : Fs} (h : PteStart R blocks s) : ∃ tree metas,
    PteBase R blocks ⟨s, fun _ => []⟩ tree metas ∧ InPlace ⟨s, fun _ => []⟩ tree := by
  obtain ⟨tree, metas, staging, hp, hk⟩ := h.inv
  obtain ⟨i, hslave⟩ := h.slave
  have hnil : ∀ f, Logged.IsReg ⟨s, fun _ => []⟩ f → ∀ q, q ∉ fileEnts (tree f) := by
    intro f hf q hq
    have hpos := length_pos_of_mem hq
    rw [hp.blocks f hf.1, (h.empty f hf.1 hf.2).2.2] at hpos
    exact absurd hpos (lt_irrefl 0)
  refine ⟨tree, metas, ⟨⟨staging, hp⟩, hk, fun f hf => ?_, fun f hf => ?_, ?_, h.lt⟩, ?_⟩
  · obtain ⟨hv, htable, -⟩ := h.empty f hf.1 hf.2
    exact ⟨hv, (hp.hasTable_iff hf.1).1 htable⟩
  · exact (h.empty f hf.1 hf.2).2.2.symm
  · exact ⟨[], _, SlaveRun.start _ i hslave, fun f hf => (h.bitmaps f hf).symm, by simp, by simp⟩
  · exact ⟨fun f hf q hq => absurd hq (hnil f hf q), fun f hf q hq => absurd hq (hnil f hf q),
      fun f hf q hq => absurd hq (hnil f hf q), fun f g hf _ q hq => absurd hq (hnil f hf q)⟩

/-- From files without blocks, all lookups are right in all states of a run exactly if all of its
calls are in order. -/
theorem PteStart.resolves_iff {s : Fs} (h : PteStart R blocks s) {cs : List PteCall}
    (henough : Each (Logged.call sb) (PteCall.Enough R) ⟨s, fun _ => []⟩ cs) :
    Always (Logged.call sb) Logged.Resolves ⟨s, fun _ => []⟩ cs ↔
      Each (Logged.call sb) PteCall.InOrder ⟨s, fun _ => []⟩ cs := by
  have hres : ∀ t : Logged, (∃ tree metas, PteBase R blocks t tree metas ∧ InPlace t tree) →
      t.Resolves := by
    rintro t ⟨tree, metas, hb, hplace⟩
    exact hplace.resolves hb
  refine always_iff_each hres ?_ ?_ h.inPlace henough
  · rintro t a ⟨tree, metas, hb, hplace⟩ hc hord
    exact hplace.call hb hc hord
  · rintro t a ⟨tree, metas, hb, hplace⟩ hc hord
    exact hplace.not_resolves hb hc hord

/-! ## Two files -/

instance (R : Region sb) (s : Logged) (c : PteCall) : Decidable (c.Enough R s) :=
  decidable_of_iff
    ((FsOp.alloc c.f c.cpu c.num c.zeroing .pte c.phys).Valid s.fs ∧
      (FsOp.alloc c.f c.cpu c.num c.zeroing .pte c.phys).Sound R s.fs ∧
      GroupsFound c.num s.fs.master.slaves (s.fs.inode c.f).bitmaps)
    ⟨fun h => ⟨h.1, h.2.1, h.2.2⟩, fun h => ⟨h.1, h.2, h.3⟩⟩

instance (s : Logged) (c : PteCall) : Decidable (c.InOrder s) := inferInstanceAs (Decidable (_ ∨ _))

/-- The small mount with a slave of 128 blocks, on which two regular files are created and
mapped. -/
def twoFiles : Option Fs :=
  FsOp.runAll Region.behindTables (FsOp.Sound Region.plain)
    [.newInode 0 regAttrs 0, .newInode 0 regAttrs 0, .establish 2 0, .establish 3 0]
    (Fs.mount Region.plain (fun _ => 0) 0 { (default : Inode) with iMode := 0x41ed }
      (fun _ => rdfsInitSlaveMemoryBitmapList default 128) 0)

theorem pteStart_twoFiles {s : Fs} (h : twoFiles = some s) : PteStart Region.plain 128 s := by
  have hrun : FsRun Region.plain (FsOp.Sound Region.plain) s :=
    (FsRun.mount _ _ _ _ _ (by decide) (by decide)).runAll h
  have hfacts : twoFiles.all fun s => decide ((∀ f ∈ s.files, SIsReg (s.inode f).iMode →
      (s.inode f).iVirtAddr ≠ 0 ∧ HasTable Region.behindTables s.master.nvm.mem f ∧
        (s.inode f).iBlocks = 0) ∧ (∀ f ∈ s.files, (s.inode f).bitmaps = ⟨none, []⟩) ∧
      s.master.slaves rdfsSelectSlave = rdfsInitSlaveMemoryBitmapList default 128) := by
    decide +kernel
  rw [h, all_some, decide_eq_true_iff] at hfacts
  obtain ⟨hempty, hbitmaps, hslave⟩ := hfacts
  exact ⟨hrun.inv behind_plain, hempty, hbitmaps, ⟨default, hslave⟩, by decide⟩

/-- The first file gets a block, and then two more. -/
theorem resolves_twoFiles : ∃ s cs, PteStart Region.plain 128 s ∧ cs.map PteCall.num = [1, 2] ∧
    Always (Logged.call Region.behindTables) Logged.Resolves ⟨s, fun _ => []⟩ cs := by
  have hfacts : twoFiles.map (fun s => decide
      (Each (Logged.call Region.behindTables) (PteCall.Enough Region.plain) ⟨s, fun _ => []⟩
        [⟨2, 0, 1, 1, 0⟩, ⟨2, 0, 2, 1, 0⟩] ∧
      Each (Logged.call Region.behindTables) PteCall.InOrder ⟨s, fun _ => []⟩
        [⟨2, 0, 1, 1, 0⟩, ⟨2, 0, 2, 1, 0⟩])) = some true := by decide +kernel
  obtain ⟨s, hs, hdec⟩ := map_eq_some_iff.1 hfacts
  obtain ⟨henough, hord⟩ := of_decide_eq_true hdec
  have hstart := pteStart_twoFiles hs
  exact ⟨s, _, hstart, rfl, (hstart.resolves_iff henough).2 hord⟩

/-- Each of two files gets a block. Both are written to one page, and the lookup of the second
file finds the block of the first. -/
theorem lookup_finds_other_file : ∃ s t, PteStart Region.plain 128 s ∧
    Each (Logged.call Region.behindTables) (PteCall.Enough Region.plain) ⟨s, fun _ => []⟩
      [⟨2, 0, 1, 1, 0⟩, ⟨3, 0, 1, 1, 0⟩] ∧
    [⟨2, 0, 1, 1, 0⟩, ⟨3, 0, 1, 1, 0⟩].foldl (Logged.call Region.behindTables) ⟨s, fun _ => []⟩ =
      t ∧ t.log 3 = [(0, 64)] ∧ t.lookup 3 0 = some (0, 0) ∧ t.lookup 2 0 = some (0, 0) ∧
    ¬ t.Resolves := by
  have hfacts : twoFiles.map (fun s => decide
      (Each (Logged.call Region.behindTables) (PteCall.Enough Region.plain) ⟨s, fun _ => []⟩
        [⟨2, 0, 1, 1, 0⟩, ⟨3, 0, 1, 1, 0⟩] ∧
      let t := [⟨2, 0, 1, 1, 0⟩, ⟨3, 0, 1, 1, 0⟩].foldl (Logged.call Region.behindTables)
        ⟨s, fun _ => []⟩
      (2 ∈ t.fs.files ∧ SIsReg (t.fs.inode 2).iMode ∧ 0 < (t.fs.inode 2).iBlocks) ∧
      (3 ∈ t.fs.files ∧ SIsReg (t.fs.inode 3).iMode ∧ 0 < (t.fs.inode 3).iBlocks) ∧
      t.log 3 = [(0, 64)] ∧ t.lookup 3 0 = some (0, 0) ∧ t.lookup 2 0 = some (0, 0))) =
      some true := by decide +kernel
  obtain ⟨s, hs, hdec⟩ := map_eq_some_iff.1 hfacts
  obtain ⟨henough, ⟨hmem₂, hreg₂, hpos₂⟩, ⟨hmem₃, hreg₃, hpos₃⟩, hlog, hlook₃, hlook₂⟩ :=
    of_decide_eq_true hdec
  refine ⟨s, _, pteStart_twoFiles hs, henough, rfl, hlog, hlook₃, hlook₂, fun hres => ?_⟩
  obtain ⟨h23, -⟩ := hres.distinct 2 0 3 0 ⟨hmem₂, hreg₂⟩ hpos₂ ⟨hmem₃, hreg₃⟩ hpos₃
    (hlook₂.trans hlook₃.symm)
  exact absurd h23 (by decide)

end Rdfs
