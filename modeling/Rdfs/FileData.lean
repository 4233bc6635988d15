import Rdfs.BlockLookup
import Rdfs.Copying
import Rdfs.FileIo

/-!
# The data of regular files

`rdfs_local_file_write` copies the bytes of the user to the staging page and from there, block by
block, to the memories of the slaves, to the blocks that `rdfs_search_metadata` finds.
`rdfs_local_file_read` goes the other way. Both run the same loop (`rwLoop`), which copies byte `x`
of the file between its place in the staging page and its place in the memory of a slave
(`rwLoop_copied`).

The lookups of the loop read tables in the same memory that the staging page is in. While the files
are in order (`InPlace`) and the staging page is apart from all tables (`StagedInv`), what is staged
and the sizes of files make no difference to them, no operation faults, and every byte of a file has
a place of its own. So a read finds what was last written (`DataRun.reads_written`), and no write
leaves the blocks that the slave has offered (`DataRun.outside`).
-/

namespace Rdfs

open List Function Option

/-! ## The code -/

/-- The memory of the master, and those of the slaves, each from `rem_addr` on. -/
structure Memories where
  master : Mem
  slave : ℕ → Mem

/-- `RDFS_READ` and `RDFS_WRITE`. -/
inductive RwFlag
  | read
  | write
deriving DecidableEq, Repr

/-- `rdfs_rdma_block_rw` : what is copied if `ib_post_send` takes the request. -/
def rdfsRdmaBlockRw (ok : Bool) (localAddr sId blockId blockOffset size : ℕ) (flag : RwFlag)
    (d : Memories) : Memories :=
  let remoteAddr := blockId * 4096 + blockOffset
  if ok then
    match flag with
    | .read => ⟨d.master.blit localAddr ((d.slave sId).bytes size remoteAddr), d.slave⟩
    | .write => ⟨d.master, Function.update d.slave sId
        ((d.slave sId).blit remoteAddr (d.master.bytes size localAddr))⟩
  else d

/-- The loop of a read or a write over parts of blocks, from call `n` and the local address
`rwAddr` on, with the outcomes of the calls. `none` for a page fault. -/
def rwLoop (k : KernelMap) (iVirtAddr : ℕ) (rdma : ℕ → Bool) (flag : RwFlag) :
    List (ℕ × ℕ × ℕ) → ℕ → ℕ → Memories → Option Memories
  | [], _, _, d => some d
  | (pte, blockOffset, size) :: ps, n, rwAddr, d =>
    match rdfsSearchMetadata k d.master iVirtAddr pte with
    | none => none
    | some (sId, blockId) => rwLoop k iVirtAddr rdma flag ps (n + 1) (rwAddr + size)
        (rdfsRdmaBlockRw (rdma n) rwAddr sId blockId blockOffset size flag d)

/-- A file system with its logs, and the memories of the slaves. -/
structure DataFs where
  logged : Logged
  slave : ℕ → Mem

/-- A call of read or write : the file, the processor, `*ppos`, the value of `phys` on entry to
`rdfs_alloc_blocks`, and which of the requests of its loop are taken. -/
structure IoCall where
  f : ℕ
  cpu : ℕ
  pos : ℕ
  phys : ℕ
  rdma : ℕ → Bool

/-- The state with another memory of the master, and another size of the file `f`. -/
def Logged.restage (s : Logged) (f size : ℕ) (m : Mem) : Logged :=
  ⟨s.fs.put f ({ s.fs.inode f with iSize := size },
    { s.fs.master with nvm := { s.fs.master.nvm with mem := m } }, s.fs.areas), s.log⟩

/-- `rdfs_local_file_write` for the bytes `buf` of the user : the return value and the state, `none`
for a page fault. -/
def DataFs.write (sb : Super) (d : DataFs) (c : IoCall) (buf : List UInt8) : Option (ℤ × DataFs) :=
  let fs := d.logged.fs
  let a := (allocForWrite sb c.cpu fs.master (fs.inode c.f) c.pos buf.length c.phys).2
  let r := rdfsLocalFileWrite sb c.cpu fs.master (fs.inode c.f) fs.globalPhyAddr buf c.pos c.phys
  let stop := (c.pos + buf.length) % 2 ^ 64
  (rwLoop r.2.2.kernel r.2.1.iVirtAddr c.rdma .write (blockRange stop (stop - c.pos) c.pos) 0
    fs.globalPhyAddr ⟨r.2.2.nvm.mem, d.slave⟩).map fun m =>
      (i64 buf.length, ⟨d.logged.put c.f { a with
        inode := r.2.1
        master := { r.2.2 with nvm := { r.2.2.nvm with mem := m.master } } }, m.slave⟩)

/-- `rdfs_local_file_read` : the return value, the bytes that are copied to the user, and the
state, `none` for a page fault. -/
def DataFs.read (sb : Super) (d : DataFs) (c : IoCall) (length : ℕ) :
    Option (ℤ × List UInt8 × DataFs) :=
  let fs := d.logged.fs
  let inode := fs.inode c.f
  let r := rdfsLocalFileRead ⟨fun _ => (0, 0), c.rdma, 0⟩ inode.iSize length c.pos
  (rwLoop fs.master.kernel inode.iVirtAddr c.rdma .read
    (blockRange r.ppos (r.ppos - c.pos) c.pos) 0 fs.globalPhyAddr
    ⟨fs.master.nvm.mem, d.slave⟩).map fun m =>
      (r.ret, m.master.bytes r.copied (rdfsPa sb (rdfsVa sb fs.globalPhyAddr)),
        ⟨d.logged.restage c.f inode.iSize m.master, m.slave⟩)

/-! ## The loop -/

/-- A byte of the master, or one of a slave. -/
abbrev Place := ℕ ⊕ (ℕ × ℕ)

/-- The byte at a place. -/
def Memories.byte (d : Memories) : Place → UInt8 := Sum.elim d.master fun p => d.slave p.1 p.2

/-- The place of byte `x` of a range that begins at `pos`, in the staging page. -/
def stagePlace (rwAddr pos x : ℕ) : Place := Sum.inl (rwAddr + (x - pos))

/-- The place of byte `x` of a file whose blocks are at `loc`. -/
def filePlace (loc : ℕ → ℕ × ℕ) (x : ℕ) : Place :=
  Sum.inr ((loc (x / 4096)).1, (loc (x / 4096)).2 * 4096 + x % 4096)

/-- Where a transfer comes from. -/
def RwFlag.src (stage file : ℕ → Place) : RwFlag → ℕ → Place
  | .read => file
  | .write => stage

/-- Where a transfer goes to. -/
def RwFlag.dst (stage file : ℕ → Place) : RwFlag → ℕ → Place
  | .read => stage
  | .write => file

/-- The bytes of the file from `i` to `stop` have been copied between the staging page, where `pos`
is at `rwAddr`, and the blocks at `loc`. -/
abbrev Carried (flag : RwFlag) (rwAddr pos : ℕ) (loc : ℕ → ℕ × ℕ) (ok : ℕ → Bool) (i stop : ℕ)
    (d d' : Memories) : Prop :=
  Copied ok (flag.src (stagePlace rwAddr pos) (filePlace loc))
    (flag.dst (stagePlace rwAddr pos) (filePlace loc)) i stop d.byte d'.byte

theorem filePlace_injOn {loc : ℕ → ℕ × ℕ} {pos stop : ℕ}
    (hloc : Set.InjOn loc (Set.Ico (pos / 4096) ((stop + 4095) / 4096))) :
    Set.InjOn (filePlace loc) (Set.Ico pos stop) := by
  rintro x ⟨hx, hx'⟩ y ⟨hy, hy'⟩ heq
  simp only [filePlace, Sum.inr.injEq, Prod.mk.injEq] at heq
  have hblock : loc (x / 4096) = loc (y / 4096) := Prod.ext heq.1 (by omega)
  have := hloc ⟨by omega, by omega⟩ ⟨by omega, by omega⟩ hblock
  omega

theorem stagePlace_injOn (rwAddr pos stop : ℕ) :
    Set.InjOn (stagePlace rwAddr pos) (Set.Ico pos stop) := by
  rintro x ⟨hx, -⟩ y ⟨hy, -⟩ heq
  simp only [stagePlace, Sum.inl.injEq] at heq
  omega

theorem Mem.blit_bytes_apply (m m' : Mem) (a a' n x : ℕ) :
    (m.blit a (m'.bytes n a')) x = if a ≤ x ∧ x < a + n then m' (a' + (x - a)) else m x := by
  rw [blit]
  by_cases hx : a ≤ x
  · rw [if_pos hx]
    by_cases hx' : x < a + n
    · rw [if_pos ⟨hx, hx'⟩, getElem?_bytes m' a' (by omega), getD_some]
    · rw [if_neg fun h => hx' h.2, getElem?_eq_none (by rw [length_bytes]; omega), getD_none]
  · rw [if_neg hx, if_neg fun h => hx h.1]

section

variable (d : Memories) (a sId blockId offset size : ℕ)

theorem byte_rdma_read (x : ℕ) :
    (rdfsRdmaBlockRw true a sId blockId offset size .read d).byte (Sum.inl x) =
      if a ≤ x ∧ x < a + size then
        d.byte (Sum.inr (sId, blockId * 4096 + offset + (x - a)))
      else d.byte (Sum.inl x) :=
  Mem.blit_bytes_apply d.master (d.slave sId) a _ size x

theorem byte_rdma_write (s x : ℕ) :
    (rdfsRdmaBlockRw true a sId blockId offset size .write d).byte (Sum.inr (s, x)) =
      if s = sId ∧ blockId * 4096 + offset ≤ x ∧ x < blockId * 4096 + offset + size then
        d.byte (Sum.inl (a + (x - (blockId * 4096 + offset))))
      else d.byte (Sum.inr (s, x)) := by
  show Function.update d.slave sId _ s x = _
  by_cases hs : s = sId
  · subst hs
    rw [update_self, Mem.blit_bytes_apply]
    simp only [true_and]
    rfl
  · rw [update_of_ne hs, if_neg fun h => hs h.1]
    rfl

end

/-- One transfer, of the bytes from `i` on. -/
theorem rdfsRdmaBlockRw_copied (ok : Bool) (flag : RwFlag) (d : Memories) (rwAddr : ℕ)
    {pos i size : ℕ} (loc : ℕ → ℕ × ℕ) (hi : pos ≤ i) (hsize : i % 4096 + size ≤ 4096) :
    Carried flag rwAddr pos loc (fun _ => ok) i (i + size) d
      (rdfsRdmaBlockRw ok (rwAddr + (i - pos)) (loc (i / 4096)).1 (loc (i / 4096)).2 (i % 4096)
        size flag d) := by
  generalize ha : rwAddr + (i - pos) = a
  obtain ⟨y, hy⟩ : ∃ y, loc (i / 4096) = y := ⟨_, rfl⟩
  generalize hr : y.2 * 4096 + i % 4096 = r
  have hfile : ∀ x ∈ Set.Ico i (i + size), filePlace loc x = Sum.inr (y.1, r + (x - i)) := by
    rintro x ⟨hx, hx'⟩
    rw [filePlace, show x / 4096 = i / 4096 by omega, hy,
      show x % 4096 = i % 4096 + (x - i) by omega, ← hr, Nat.add_assoc]
  have hstage : ∀ x ∈ Set.Ico i (i + size), stagePlace rwAddr pos x = Sum.inl (a + (x - i)) := by
    rintro x ⟨hx, hx'⟩
    rw [stagePlace, show x - pos = i - pos + (x - i) by omega, ← ha, Nat.add_assoc]
  rw [hy]
  cases ok with
  | false => exact ⟨fun x _ => rfl, fun p _ => rfl⟩
  | true =>
    cases flag with
    | read =>
      refine ⟨fun x hx => ?_, ?_⟩
      · have ⟨h1, h2⟩ := hx
        rw [RwFlag.dst, RwFlag.src, hstage x hx, hfile x hx, byte_rdma_read, hr,
          if_pos (by omega), if_pos rfl, Nat.add_sub_cancel_left]
      · rintro (p | p) hp
        · rw [byte_rdma_read, if_neg]
          rintro ⟨h1, h2⟩
          have hx : i + (p - a) ∈ Set.Ico i (i + size) := ⟨by omega, by omega⟩
          refine hp _ hx ?_
          rw [RwFlag.dst, hstage _ hx, Nat.add_sub_cancel_left, Nat.add_sub_cancel' h1]
        · rfl
    | write =>
      refine ⟨fun x hx => ?_, ?_⟩
      · have ⟨h1, h2⟩ := hx
        rw [RwFlag.dst, RwFlag.src, hstage x hx, hfile x hx, byte_rdma_write, hr,
          if_pos ⟨rfl, by omega, by omega⟩, if_pos rfl, Nat.add_sub_cancel_left]
      · rintro (p | ⟨s, p⟩) hp
        · rfl
        · rw [byte_rdma_write, hr, if_neg]
          rintro ⟨rfl, h1, h2⟩
          have hx : i + (p - r) ∈ Set.Ico i (i + size) := ⟨by omega, by omega⟩
          refine hp _ hx ?_
          rw [RwFlag.dst, hfile _ hx, Nat.add_sub_cancel_left, Nat.add_sub_cancel' h1]

/-- A transfer changes the memory of the master at most in the staging page. -/
theorem Carried.sameOff_master {ok : ℕ → Bool} {flag : RwFlag} {rwAddr pos i stop : ℕ}
    {loc : ℕ → ℕ × ℕ} {d d' : Memories} (h : Carried flag rwAddr pos loc ok i stop d d')
    (hi : pos ≤ i) : Mem.SameOff d.master d'.master (stop - pos) rwAddr := by
  intro p hp
  refine h.frame (Sum.inl p) fun x hx heq => ?_
  obtain ⟨h1, h2⟩ := hx
  cases flag with
  | read =>
    have hpx : p = rwAddr + (x - pos) := Sum.inl.inj heq
    omega
  | write => cases heq

/-- The loop copies the range between the staging page and the blocks that are found, whichever of
the two it changes. -/
theorem rwLoop_copied {k : KernelMap} {v rwAddr pos stop : ℕ} {m₀ : Mem} (loc : ℕ → ℕ × ℕ)
    (rdma : ℕ → Bool) (flag : RwFlag) (hfound : ∀ m, Mem.SameOff m₀ m (stop - pos) rwAddr →
      ∀ b ∈ Set.Ico (pos / 4096) ((stop + 4095) / 4096),
        rdfsSearchMetadata k m v (b * 4096) = some (loc b))
    (hloc : Set.InjOn loc (Set.Ico (pos / 4096) ((stop + 4095) / 4096))) :
    ∀ (fuel : ℕ) {i n : ℕ} {d : Memories}, pos ≤ i → stop - i ≤ fuel →
      Mem.SameOff m₀ d.master (stop - pos) rwAddr →
      ∃ d', rwLoop k v rdma flag (blockRange stop fuel i) n (rwAddr + (i - pos)) d = some d' ∧
        Carried flag rwAddr pos loc (fun x => rdma (n + (x / 4096 - i / 4096))) i stop d d' := by
  have hapart : ∀ x y, flag.src (stagePlace rwAddr pos) (filePlace loc) x ≠
      flag.dst (stagePlace rwAddr pos) (filePlace loc) y := by
    intro x y
    cases flag
    · exact Sum.inr_ne_inl
    · exact Sum.inl_ne_inr
  have hinj : Set.InjOn (flag.dst (stagePlace rwAddr pos) (filePlace loc)) (Set.Ico pos stop) := by
    cases flag
    · exact stagePlace_injOn rwAddr pos stop
    · exact filePlace_injOn hloc
  intro fuel
  induction fuel with
  | zero =>
    intro i n d _ hfuel _
    exact ⟨d, rfl, Copied.of_le (by omega) _⟩
  | succ fuel ih =>
    intro i n d hi hfuel hd
    rcases Nat.lt_or_ge i stop with hlt | hge
    · rw [blockRange_succ, if_pos hlt, rwLoop, hfound d.master hd (i / 4096) ⟨by omega, by omega⟩]
      obtain ⟨size, hsize⟩ : ∃ size, min (stop - i) (4096 - i % 4096) = size := ⟨_, rfl⟩
      have hone := rdfsRdmaBlockRw_copied (rdma n) flag d rwAddr loc hi
        (show i % 4096 + size ≤ 4096 by omega)
      generalize hd₁ : rdfsRdmaBlockRw (rdma n) (rwAddr + (i - pos)) (loc (i / 4096)).1 (loc (i /
        4096)).2 (i % 4096) size flag d = d₁
      rw [hd₁] at hone
      have hoff := hd.trans ((hone.sameOff_master hi).mono le_rfl (by omega))
      have hfirst : ∀ x ∈ Set.Ico i (i + size), rdma n = rdma (n + (x / 4096 - i / 4096)) := by
        rintro x ⟨h1, h2⟩
        rw [show x / 4096 - i / 4096 = 0 by omega, Nat.add_zero]
      simp only [hsize, hd₁]
      rcases Nat.lt_or_ge (i + (4096 - i % 4096)) stop with hnext | hlast
      · rw [show 4096 - i % 4096 = size by omega] at hnext ⊢
        obtain ⟨d', hloop, hrest⟩ := ih (i := i + size) (n := n + 1) (by omega) (by omega) hoff
        rw [show rwAddr + (i + size - pos) = rwAddr + (i - pos) + size by omega] at hloop
        refine ⟨d', hloop, (hone.congr hfirst).trans (hrest.congr ?_) (by omega) hnext.le
          (hinj.mono (Set.Ico_subset_Ico_left hi)) fun x _ y _ => hapart x y⟩
        rintro x ⟨h1, h2⟩
        rw [show n + 1 + (x / 4096 - (i + size) / 4096) = n + (x / 4096 - i / 4096) by omega]
      · rw [blockRange_of_le hlast]
        rw [show i + size = stop by omega] at hone hfirst
        exact ⟨d₁, rfl, hone.congr hfirst⟩
    · rw [blockRange_of_le hge]
      exact ⟨d, rfl, Copied.of_le hge _⟩

/-! ## What the staging page leaves alone -/

variable {sb : Super} {R : Region sb} {blocks : ℕ}

/-- The regular files are in order, and the staging page is apart from all of them. -/
structure StagedInv (R : Region sb) (blocks : ℕ) (s : Logged) (tree : ℕ → Option Tree)
    (metas : List ℕ) : Prop where
  base : PteBase R blocks s tree metas
  place : InPlace s tree
  pages : PagesInv R s.fs tree metas [s.fs.globalPhyAddr]

section

variable {s : Logged} {tree : ℕ → Option Tree} {metas : List ℕ} {f size : ℕ} {m : Mem}

theorem Logged.restage_inode (s : Logged) (f size : ℕ) (m : Mem) (g : ℕ) :
    (s.restage f size m).fs.inode g =
      { s.fs.inode g with iSize := if g = f then size else (s.fs.inode g).iSize } := by
  by_cases hg : g = f
  · subst hg
    rw [if_pos rfl]
    exact Fs.put_inode_self s.fs g _
  · rw [if_neg hg]
    exact Fs.put_inode_of_ne s.fs _ hg

/-- The two states differ in nothing that lookups and blocks depend on, but for the memory. -/
structure SameBlocks (s s' : Logged) : Prop where
  files : s'.fs.files = s.fs.files
  inode : ∀ f, (s'.fs.inode f).iMode = (s.fs.inode f).iMode ∧
    (s'.fs.inode f).iVirtAddr = (s.fs.inode f).iVirtAddr ∧
    (s'.fs.inode f).iBlocks = (s.fs.inode f).iBlocks ∧
    (s'.fs.inode f).bitmaps = (s.fs.inode f).bitmaps
  cursor : s'.fs.master.pteCnt = s.fs.master.pteCnt ∧
    s'.fs.master.ptePhyAddr = s.fs.master.ptePhyAddr
  slaves : s'.fs.master.slaves = s.fs.master.slaves
  log : s'.log = s.log

section

variable {s' : Logged}

theorem SameBlocks.isReg_iff (h : SameBlocks s s') (g : ℕ) : s'.IsReg g ↔ s.IsReg g := by
  rw [Logged.IsReg, Logged.IsReg, h.files, (h.inode g).1]

theorem PteBase.congr (hb : PteBase R blocks s tree metas) (h : SameBlocks s s')
    (hpages : ∃ staging, PagesInv R s'.fs tree metas staging) (hk : KernelInv s'.fs tree) :
    PteBase R blocks s' tree metas := by
  obtain ⟨ids, inodes, hrun, hinodes, hlogs⟩ := hb.run
  refine ⟨hpages, hk, fun g hg => ?_, fun g hg => ?_, ⟨ids, inodes, ?_, fun g hg => ?_, ?_⟩, hb.lt⟩
  · rw [h.isReg_iff] at hg
    rw [(h.inode g).2.1]
    exact hb.mapped g hg
  · rw [h.isReg_iff] at hg
    rw [h.log, (h.inode g).2.2.1]
    exact hb.length g hg
  · rwa [h.slaves]
  · rw [h.files] at hg
    rw [(h.inode g).2.2.2]
    exact hinodes g hg
  · rwa [h.log]

theorem InPlace.congr (hp : InPlace s tree) (h : SameBlocks s s')
    (hwords : ∀ f, s.IsReg f → ∀ q ∈ fileEnts (tree f), ∀ b < (s.log f).length,
      s'.fs.master.nvm.mem.load 8 (q + 8 * b) = s.fs.master.nvm.mem.load 8 (q + 8 * b)) :
    InPlace s' tree := by
  refine ⟨fun g hg => ?_, fun g hg => ?_, fun g hg q hq b x hx => ?_, fun g g' hg hg' => ?_⟩
  · exact hp.one g ((h.isReg_iff g).1 hg)
  · rw [h.isReg_iff] at hg
    rw [(h.inode g).2.2.1, h.cursor.1, h.cursor.2]
    exact hp.size g hg
  · rw [h.isReg_iff] at hg
    rw [h.log] at hx
    rw [hwords g hg q hq b (List.getElem?_eq_some_iff.1 hx).1]
    exact hp.words g hg q hq b x hx
  · exact hp.own g g' ((h.isReg_iff g).1 hg) ((h.isReg_iff g').1 hg')

end

theorem Logged.sameBlocks_restage (s : Logged) (f size : ℕ) (m : Mem) :
    SameBlocks s (s.restage f size m) := by
  refine ⟨rfl, fun g => ?_, ⟨rfl, rfl⟩, rfl, rfl⟩
  rw [Logged.restage_inode]
  exact ⟨rfl, rfl, rfl, rfl⟩

theorem Logged.isReg_restage (g : ℕ) : (s.restage f size m).IsReg g ↔ s.IsReg g :=
  (s.sameBlocks_restage f size m).isReg_iff g

/-- The kernel does not look at the size. -/
theorem KernelInv.restage (h : KernelInv s.fs tree) : KernelInv (s.restage f size m).fs tree := by
  obtain ⟨free, used, hinv⟩ := h.space
  have hspace : SpaceInv (s.restage f size m).fs.toSpace free used := by
    refine hinv.congr rfl (fun j => ?_) fun j _ => ?_ <;> rw [Logged.restage_inode]
  rw [← update_eq_self f tree]
  exact h.put ⟨free, used, hspace⟩ (Or.inl rfl) (Or.inl rfl) (OnlyArea.refl _ _) (h.holds f)

section

variable (h : StagedInv R blocks s tree metas)
include h

/-- No page of pte values is the staging page. -/
theorem StagedInv.apart {q : ℕ} (hq : q ∈ metas) :
    s.fs.globalPhyAddr + 4096 ≤ q ∨ q + 4096 ≤ s.fs.globalPhyAddr := by
  have howned := h.pages.files.owned
  rw [← append_assoc, ← append_assoc] at howned
  exact (howned.disjoint_append (mem_append_right _ hq) mem_cons_self).symm

/-- Bytes of the staging page and the size of a file are looked at by no lookup. -/
theorem StagedInv.restage (hm : SameOffPages s.fs.master.nvm.mem m [s.fs.globalPhyAddr]) :
    StagedInv R blocks (s.restage f size m) tree metas := by
  have hpages : PagesInv R (s.restage f size m).fs tree metas [s.fs.globalPhyAddr] :=
    (h.pages.write_page (by simp) hm).put_core (f := f) rfl Iff.rfl rfl rfl ⟨rfl, rfl⟩
  have hsame := s.sameBlocks_restage f size m
  refine ⟨h.base.congr hsame ⟨_, hpages⟩ h.base.kernel.restage,
    h.place.congr hsame fun g hg q hq b hb => ?_, hpages⟩
  have hlen := h.base.length g hg
  have hle := h.place.iBlocks_le h.base hg
  have hapart := h.apart ((h.base.ents hg).1 hq)
  refine Mem.load_congr (hm.sameOn fun p hp => ?_)
  obtain rfl := mem_singleton.1 hp
  omega

end

/-! ## The blocks of a file -/

/-- The slave and the block that were obtained for block `b` of the file `f`. -/
def Logged.loc (s : Logged) (f b : ℕ) : ℕ × ℕ := ((s.log f)[b]?).getD (0, 0)

/-- The slave and the place in its memory where byte `x` of the file `f` is. -/
def Logged.place (s : Logged) (f x : ℕ) : ℕ × ℕ :=
  ((s.loc f (x / 4096)).1, (s.loc f (x / 4096)).2 * 4096 + x % 4096)

section

variable (h : StagedInv R blocks s tree metas)
include h

section

variable (hf : s.IsReg f)
include hf

theorem StagedInv.getElem?_log {b : ℕ} (hb : b < (s.fs.inode f).iBlocks) :
    (s.log f)[b]? = some (s.loc f b) := by
  rw [← h.base.length f hf] at hb
  rw [Logged.loc, getElem?_eq_getElem hb, getD_some]

theorem StagedInv.loc_inj {g b c : ℕ} (hg : s.IsReg g) (hb : b < (s.fs.inode f).iBlocks)
    (hc : c < (s.fs.inode g).iBlocks) (heq : s.loc f b = s.loc g c) : f = g ∧ b = c := by
  obtain ⟨ids, inodes, -, -, hlogs⟩ := h.base.run
  exact hlogs.unique f g b c _ (h.getElem?_log hf hb) (heq ▸ h.getElem?_log hg hc)

/-- No two bytes of files are at one place. -/
theorem StagedInv.place_inj {g x y : ℕ} (hg : s.IsReg g) (hx : x / 4096 < (s.fs.inode f).iBlocks)
    (hy : y / 4096 < (s.fs.inode g).iBlocks) (heq : s.place f x = s.place g y) : f = g ∧ x = y := by
  simp only [Logged.place, Prod.mk.injEq] at heq
  have hloc : s.loc f (x / 4096) = s.loc g (y / 4096) := Prod.ext heq.1 (by omega)
  obtain ⟨rfl, hblock⟩ := h.loc_inj hf hg hx hy hloc
  exact ⟨rfl, by omega⟩

/-- The bytes of files are in the blocks of slave 0. -/
theorem StagedInv.place_lt {x : ℕ} (hx : x / 4096 < (s.fs.inode f).iBlocks) :
    (s.place f x).1 = 0 ∧ (s.place f x).2 < blocks * 4096 := by
  obtain ⟨ids, inodes, hrun, -, hlogs⟩ := h.base.run
  obtain ⟨t, hinv⟩ := hrun.slaveInv h.base.lt
  obtain ⟨h0, hid⟩ := hlogs.mem f _ (mem_of_getElem? (h.getElem?_log hf hx))
  have htaken := hinv.taken _ hid
  have hle := hinv.le
  refine ⟨h0, ?_⟩
  rw [Logged.place]
  omega

/-- Whatever is in the staging page, the lookup of a block finds it. -/
theorem StagedInv.search_eq {b : ℕ} (hb : b < (s.fs.inode f).iBlocks)
    (hm : SameOffPages s.fs.master.nvm.mem m [s.fs.globalPhyAddr]) :
    rdfsSearchMetadata s.fs.master.kernel m (s.fs.inode f).iVirtAddr (b * 4096) =
      some (s.loc f b) := by
  have h' : StagedInv R blocks (s.restage f (s.fs.inode f).iSize m) tree metas := h.restage hm
  have hinode := Logged.restage_inode s f (s.fs.inode f).iSize m f
  obtain ⟨x, hx, hlook⟩ := (h'.place.resolves h'.base).obtained f b
    ((Logged.isReg_restage f).2 hf) (by rw [hinode]; exact hb)
  rw [Logged.lookup, hinode] at hlook
  have hloc : (s.log f)[b]? = some x := hx
  rw [h.getElem?_log hf hb, some_inj] at hloc
  rw [hloc]
  exact hlook

/-- The loop of a read or a write in the blocks of a regular file, of at most a page. -/
theorem StagedInv.rwLoop (pos stop : ℕ) (hstop : (stop + 4095) / 4096 ≤ (s.fs.inode f).iBlocks)
    (hlen : stop - pos ≤ 4096) (hm : SameOffPages s.fs.master.nvm.mem m [s.fs.globalPhyAddr])
    (slave : ℕ → Mem) (rdma : ℕ → Bool) (flag : RwFlag) :
    ∃ d, Rdfs.rwLoop s.fs.master.kernel (s.fs.inode f).iVirtAddr rdma flag
        (blockRange stop (stop - pos) pos) 0 s.fs.globalPhyAddr ⟨m, slave⟩ = some d ∧
      Carried flag s.fs.globalPhyAddr pos (s.loc f) (fun x => rdma (x / 4096 - pos / 4096)) pos stop
        ⟨m, slave⟩ d ∧
      SameOffPages s.fs.master.nvm.mem d.master [s.fs.globalPhyAddr] := by
  have hpage : ∀ m', Mem.SameOff m m' (stop - pos) s.fs.globalPhyAddr →
      SameOffPages s.fs.master.nvm.mem m' [s.fs.globalPhyAddr] := fun m' hoff =>
    hm.trans (SameOffPages.of_sameOff hoff le_rfl (by omega))
  have hloop := rwLoop_copied (s.loc f) rdma flag
    (fun m' hoff b hb => h.search_eq hf (hb.2.trans_le hstop) (hpage m' hoff))
    fun b hb c hc heq =>
      (h.loc_inj hf hf (hb.2.trans_le hstop) (hc.2.trans_le hstop) heq).2
  obtain ⟨d, hd, hmoved⟩ := hloop (stop - pos) (i := pos) (n := 0) (d := ⟨m, slave⟩) le_rfl le_rfl
    fun _ _ => rfl
  rw [Nat.sub_self, Nat.add_zero] at hd
  simp only [Nat.zero_add] at hmoved
  exact ⟨d, hd, hmoved, hpage _ (hmoved.sameOff_master le_rfl)⟩

end

end

end

/-! ## Writing -/

/-- The files are in order, and have blocks for all of their bytes. -/
structure DataInv (R : Region sb) (blocks : ℕ) (d : DataFs) : Prop where
  staged : ∃ tree metas, StagedInv R blocks d.logged tree metas
  size : ∀ f, d.logged.IsReg f →
    ((d.logged.fs.inode f).iSize + 4095) / 4096 ≤ (d.logged.fs.inode f).iBlocks

/-- The byte of a slave at a place. -/
def DataFs.at (d : DataFs) (p : ℕ × ℕ) : UInt8 := d.slave p.1 p.2

/-- The blocks that a write has to append. -/
def DataFs.lacking (d : DataFs) (c : IoCall) (length : ℕ) : PteCall :=
  ⟨c.f, c.cpu, (c.pos + length + 4095) / 4096 - ((d.logged.fs.inode c.f).iSize + 4095) / 4096, 1,
    c.phys⟩

/-- The first half of a write : the blocks it appends. -/
def DataFs.alloc (sb : Super) (d : DataFs) (c : IoCall) (length : ℕ) : AllocState :=
  (allocForWrite sb c.cpu d.logged.fs.master (d.logged.fs.inode c.f) c.pos length c.phys).2

/-- The write is to a regular file, fits in the staging page together with the zero byte behind it,
and finds the blocks it lacks. They are appended in order (`PteCall.InOrder`) : no file gets its
first block before the last one to get blocks has 512, and none gets more. -/
@[mk_iff]
structure WriteFits (R : Region sb) (d : DataFs) (c : IoCall) (length : ℕ) : Prop where
  isReg : d.logged.IsReg c.f
  page : length < 4096
  noWrap : c.pos + length < 2 ^ 63
  enough : 0 < (d.lacking c length).num → (d.lacking c length).Enough R d.logged
  inOrder : (d.lacking c length).InOrder d.logged

section

variable {d : DataFs} {c : IoCall} {length : ℕ}

theorem DataInv.iSize_le (h : DataInv R blocks d) {f : ℕ} (hf : d.logged.IsReg f) :
    (d.logged.fs.inode f).iSize ≤ 512 * 4096 := by
  obtain ⟨tree, metas, hs⟩ := h.staged
  have hle := hs.place.iBlocks_le hs.base hf
  have hsize := h.size f hf
  omega

/-- It is a call. -/
theorem DataInv.put_alloc (h : DataInv R blocks d) (hfit : WriteFits R d c length) :
    d.logged.put c.f (d.alloc sb c length) =
    if 0 < (d.lacking c length).num then d.logged.call sb (d.lacking c length) else d.logged := by
  have hsize := h.iSize_le hfit.isReg
  have hpages := pagesToAlloc_eq (show (d.logged.fs.inode c.f).iSize < 2 ^ 63 by omega) hfit.noWrap
  have hnum : (d.lacking c length).num = (c.pos + length + 4095) / 4096 -
    ((d.logged.fs.inode c.f).iSize + 4095) / 4096 := rfl
  by_cases hpos : 0 < (d.lacking c length).num
  · have hlt := (hfit.enough hpos).valid.2.1
    rw [if_pos hpos, DataFs.alloc, allocForWrite, if_pos (by omega), hpages,
      i32_eq (by omega) (by omega), Logged.call, DataFs.lacking]
    rw [Int.ofNat_sub (by omega)]
  · rw [if_neg hpos, DataFs.alloc, allocForWrite, if_neg (by omega)]
    unfold Logged.put
    simp only [append_nil, update_eq_self]
    exact congrArg (Logged.mk · _) (Fs.put_self d.logged.fs c.f)

/-- From `s` to `s'` blocks have been appended to the file `f`. -/
structure Grew (f : ℕ) (s s' : Logged) : Prop where
  files : s'.fs.files = s.fs.files
  buffer : s'.fs.globalPhyAddr = s.fs.globalPhyAddr
  other : ∀ g, g ≠ f → s'.fs.inode g = s.fs.inode g
  self : SameFile (s.fs.inode f) (s'.fs.inode f)
  log : ∀ (g b : ℕ) (y : ℕ × ℕ), (s.log g)[b]? = some y → (s'.log g)[b]? = some y

variable {f : ℕ} {s s' : Logged}

theorem Logged.put_grew {a : AllocState} (hsame : SameFile (s.fs.inode f) a.inode) :
    Grew f s (s.put f a) := by
  refine ⟨rfl, rfl, fun g hg => Fs.put_inode_of_ne s.fs _ hg, ?_, fun g b y hy => ?_⟩
  · rwa [show (s.put f a).fs.inode f = a.inode from Fs.put_inode_self s.fs f _]
  · rw [Logged.put]
    dsimp only
    by_cases hg : g = f
    · subst hg
      rw [update_self, getElem?_append_left (List.getElem?_eq_some_iff.1 hy).1, hy]
    · rw [update_of_ne hg, hy]

theorem Grew.isReg_iff (h : Grew f s s') (g : ℕ) : s'.IsReg g ↔ s.IsReg g := by
  have hmode : (s'.fs.inode g).iMode = (s.fs.inode g).iMode := by
    by_cases hg : g = f
    · rw [hg, h.self]
    · rw [h.other g hg]
  rw [Logged.IsReg, Logged.IsReg, h.files, hmode]

theorem Grew.iSize_restage (h : Grew f s s') (size : ℕ) (m : Mem) (g : ℕ) :
    ((s'.restage f size m).fs.inode g).iSize = if g = f then size else (s.fs.inode g).iSize := by
  rw [Logged.restage_inode]
  by_cases hg : g = f
  · rw [if_pos hg, if_pos hg]
  · rw [if_neg hg, if_neg hg, h.other g hg]

theorem DataFs.alloc_sameFile (sb : Super) (d : DataFs) (c : IoCall) (length : ℕ) :
    SameFile (d.logged.fs.inode c.f) (d.alloc sb c length).inode := by
  unfold DataFs.alloc allocForWrite
  split_ifs
  · exact (rdfsAllocBlocks_inode sb c.cpu _ _ _ 1 .pte c.phys).1
  · rfl

/-- The first half of a write keeps the files in order, and gives the file its blocks. -/
theorem DataInv.alloc (h : DataInv R blocks d) (hfit : WriteFits R d c length) {s : Logged}
    (hs : d.logged.put c.f (d.alloc sb c length) = s) :
    (∃ tree metas, StagedInv R blocks s tree metas) ∧
      (d.logged.fs.inode c.f).iBlocks ≤ (s.fs.inode c.f).iBlocks ∧
      (c.pos + length + 4095) / 4096 ≤ (s.fs.inode c.f).iBlocks := by
  obtain ⟨tree, metas, hstaged⟩ := h.staged
  have hsize := h.size c.f hfit.isReg
  have hnum : (d.lacking c length).num = (c.pos + length + 4095) / 4096 -
    ((d.logged.fs.inode c.f).iSize + 4095) / 4096 := rfl
  rw [h.put_alloc hfit] at hs
  subst hs
  by_cases hpos : 0 < (d.lacking c length).num
  · rw [if_pos hpos]
    obtain ⟨tree', metas', hbase, hpages, hplace, hblocks⟩ := hstaged.place.call_pages hstaged.base
      hstaged.pages (hfit.enough hpos) hfit.inOrder
    have hblocks' : ((d.logged.call sb (d.lacking c length)).fs.inode c.f).iBlocks =
      (d.logged.fs.inode c.f).iBlocks + (d.lacking c length).num := hblocks
    exact ⟨⟨tree', metas', hbase, hplace, hpages⟩, by omega, by omega⟩
  · rw [if_neg hpos]
    exact ⟨⟨tree, metas, hstaged⟩, le_rfl, by omega⟩

/-- The bytes of the user and the zero byte behind them, in the staging page. -/
theorem staged_write (m : Mem) (p : ℕ) {buf : List UInt8} (hlen : buf.length < 4096) :
    SameOffPages m ((m.blit p buf).store 1 (p + buf.length) 0) [p] ∧
      ∀ i < buf.length, buf[i]? = some ((m.blit p buf).store 1 (p + buf.length) 0 (p + i)) := by
  refine ⟨(SameOffPages.of_sameOff (Mem.sameOff_blit m p buf) le_rfl (by omega)).trans
    (SameOffPages.of_sameOff (Mem.sameOff_store _ _ _ _) (by omega) (by omega)), fun i hi => ?_⟩
  rw [Mem.sameOff_store _ _ _ _ _ (by omega), Mem.blit, if_pos (Nat.le_add_right _ _),
    Nat.add_sub_cancel_left, getElem?_eq_getElem hi, getD_some]

/-- What a write does : it appends blocks, sets the size, writes the bytes whose requests are taken,
and nothing else. -/
structure Wrote (d d' : DataFs) (c : IoCall) (buf : List UInt8) : Prop where
  isReg : ∀ g, d'.logged.IsReg g ↔ d.logged.IsReg g
  log : ∀ (g b : ℕ) (y : ℕ × ℕ), (d.logged.log g)[b]? = some y → (d'.logged.log g)[b]? = some y
  iBlocks : ∀ g, (d.logged.fs.inode g).iBlocks ≤ (d'.logged.fs.inode g).iBlocks
  iSize : ∀ g, (d'.logged.fs.inode g).iSize =
    if g = c.f then c.pos + buf.length else (d.logged.fs.inode g).iSize
  inside : (c.pos + buf.length + 4095) / 4096 ≤ (d'.logged.fs.inode c.f).iBlocks
  new : ∀ x ∈ Set.Ico c.pos (c.pos + buf.length), c.rdma (x / 4096 - c.pos / 4096) = true →
    buf[x - c.pos]? = some (d'.at (d'.logged.place c.f x))
  frame : ∀ p, (∀ x ∈ Set.Ico c.pos (c.pos + buf.length),
    c.rdma (x / 4096 - c.pos / 4096) = true → p ≠ d'.logged.place c.f x) → d'.at p = d.at p

theorem Logged.restage_put (s : Logged) (f size : ℕ) (m : Mem) (a : AllocState) :
    (s.put f a).restage f size m = s.put f { a with
      inode := { a.inode with iSize := size }
      master := { a.master with nvm := { a.master.nvm with mem := m } } } := by
  have hinode : (s.put f a).fs.inode f = a.inode := Fs.put_inode_self s.fs f _
  rw [Logged.restage, hinode]
  exact congrArg (Logged.mk · _) (Fs.put_put s.fs f _ _)

/-- The state a write ends in. -/
theorem DataFs.write_eq {buf : List UInt8} {s : Logged} {m : Memories}
    (hs : d.logged.put c.f (d.alloc sb c buf.length) = s) (hwrap : c.pos + buf.length < 2 ^ 63)
    (hloop : Rdfs.rwLoop s.fs.master.kernel (s.fs.inode c.f).iVirtAddr c.rdma .write
      (blockRange (c.pos + buf.length) (c.pos + buf.length - c.pos) c.pos) 0 s.fs.globalPhyAddr
      ⟨(s.fs.master.nvm.mem.blit s.fs.globalPhyAddr buf).store 1
        (s.fs.globalPhyAddr + buf.length) 0, d.slave⟩ = some m) :
    d.write sb c buf =
      some ((buf.length : ℤ), ⟨s.restage c.f (c.pos + buf.length) m.master, m.slave⟩) := by
  generalize ha : d.alloc sb c buf.length = a
  have hsize : ∀ iSize, writeSize iSize c.pos buf.length a.inode =
      { a.inode with iSize := c.pos + buf.length } := by
    intro iSize
    unfold writeSize
    split_ifs <;> rfl
  have hinode : s.fs.inode c.f = a.inode := by
    rw [← hs, ha]
    exact Fs.put_inode_self d.logged.fs c.f _
  rw [ha] at hs
  have hmaster : s.fs.master = a.master := by rw [← hs]; rfl
  have hbuffer : s.fs.globalPhyAddr = d.logged.fs.globalPhyAddr := by rw [← hs]; rfl
  rw [hinode, hmaster, hbuffer] at hloop
  rw [DataFs.alloc] at ha
  simp only [DataFs.write, rdfsLocalFileWrite, ha, hsize, rdfsPa_rdfsVa,
    Nat.mod_eq_of_lt (show c.pos + buf.length < 2 ^ 64 by omega), hloop, map_some,
    i64_natCast (show buf.length < 2 ^ 63 by omega)]
  rw [← hs, Logged.restage_put]

/-- A write that fits does not fault, and does what it should. -/
theorem DataInv.write (h : DataInv R blocks d) {buf : List UInt8}
    (hfit : WriteFits R d c buf.length) :
    ∃ d', d.write sb c buf = some ((buf.length : ℤ), d') ∧ DataInv R blocks d' ∧
      Wrote d d' c buf := by
  generalize hs : d.logged.put c.f (d.alloc sb c buf.length) = s
  obtain ⟨⟨tree, metas, hst⟩, hle, hneed⟩ := h.alloc hfit hs
  have hgrew : Grew c.f d.logged s := hs ▸ Logged.put_grew (d.alloc_sameFile sb c buf.length)
  have hf : s.IsReg c.f := (hgrew.isReg_iff c.f).2 hfit.isReg
  obtain ⟨hoff, hbytes⟩ := staged_write s.fs.master.nvm.mem s.fs.globalPhyAddr hfit.page
  obtain ⟨m, hloop, hcopied, hend⟩ := hst.rwLoop hf c.pos (c.pos + buf.length) hneed
    (by have := hfit.page; omega) hoff d.slave c.rdma .write
  have hblocks : ∀ g, ((s.restage c.f (c.pos + buf.length) m.master).fs.inode g).iBlocks =
      (s.fs.inode g).iBlocks := fun g => by rw [Logged.restage_inode]
  refine ⟨_, DataFs.write_eq hs hfit.noWrap hloop,
    ⟨⟨tree, metas, hst.restage hend⟩, fun g hg => ?_⟩,
    ⟨fun g => (Logged.isReg_restage g).trans (hgrew.isReg_iff g), hgrew.log, fun g => ?_,
    hgrew.iSize_restage _ _, (hblocks c.f).symm ▸ hneed, fun x hx hok => ?_, fun p hp => ?_⟩⟩
  · rw [Logged.isReg_restage, hgrew.isReg_iff] at hg
    rw [hblocks, hgrew.iSize_restage]
    by_cases hgf : g = c.f
    · rw [if_pos hgf, hgf]
      exact hneed
    · rw [if_neg hgf, hgrew.other g hgf]
      exact h.size g hg
  · rw [hblocks]
    by_cases hg : g = c.f
    · rwa [hg]
    · rw [hgrew.other g hg]
  · have hbyte := hcopied.copied x hx
    rw [hok, if_pos rfl] at hbyte
    have ⟨h1, h2⟩ := hx
    rw [hbytes (x - c.pos) (by omega)]
    exact congrArg some hbyte.symm
  · by_cases hx : ∃ x ∈ Set.Ico c.pos (c.pos + buf.length), p = s.place c.f x
    · obtain ⟨x, hx, rfl⟩ := hx
      have hbyte := hcopied.copied x hx
      rw [Bool.eq_false_iff.2 fun hok => hp x hx hok rfl, if_neg Bool.false_ne_true] at hbyte
      exact hbyte
    · refine hcopied.frame (Sum.inr p) fun x hx' heq => hx ⟨x, hx', Sum.inr.inj heq⟩

/-! ## Reading -/

/-- The read is of a regular file, begins in it or at its end, and what there is to read fits in the
staging page. -/
@[mk_iff]
structure ReadFits (d : DataFs) (c : IoCall) (length : ℕ) : Prop where
  isReg : d.logged.IsReg c.f
  pos : 0 < (d.logged.fs.inode c.f).iSize
  le : c.pos ≤ (d.logged.fs.inode c.f).iSize
  page : min length ((d.logged.fs.inode c.f).iSize - c.pos) ≤ 4096
  noWrap : c.pos + length < 2 ^ 64

/-- A read that fits does not fault, returns the bytes whose requests are taken, and changes no
file. -/
theorem DataInv.read (h : DataInv R blocks d) (hfit : ReadFits d c length) {n : ℕ}
    (hn : min length ((d.logged.fs.inode c.f).iSize - c.pos) = n) :
    ∃ bytes d', d.read sb c length = some ((n : ℤ), bytes, d') ∧ DataInv R blocks d' ∧
      bytes.length = n ∧ (∀ i < n, c.rdma ((c.pos + i) / 4096 - c.pos / 4096) = true →
        bytes[i]? = some (d.at (d.logged.place c.f (c.pos + i)))) ∧
      d'.slave = d.slave ∧ d'.logged.log = d.logged.log ∧
      d'.logged.fs.inode = d.logged.fs.inode ∧ d'.logged.fs.files = d.logged.fs.files := by
  obtain ⟨tree, metas, hst⟩ := h.staged
  have hsize := h.size c.f hfit.isReg
  have hle := h.iSize_le hfit.isReg
  have hpage := hfit.page
  have hpos := hfit.le
  have hread := rdfsLocalFileRead_eq (c := ⟨fun _ => (0, 0), c.rdma, 0⟩) hfit.pos (by omega) hpos
    hfit.noWrap hn
  obtain ⟨m, hloop, hcopied, hend⟩ := hst.rwLoop hfit.isReg c.pos (c.pos + n) (by omega)
    (by omega) (SameOffPages.refl _ _) d.slave c.rdma .read
  have hslave : m.slave = d.slave := by
    funext sId y
    exact hcopied.frame (Sum.inr (sId, y)) fun x _ heq => by cases heq
  have hinode : (d.logged.restage c.f (d.logged.fs.inode c.f).iSize m.master).fs.inode =
      d.logged.fs.inode := by
    funext g
    rw [Logged.restage_inode]
    by_cases hg : g = c.f
    · rw [if_pos hg, hg]
    · rw [if_neg hg]
  have heq : d.read sb c length = some ((n : ℤ), m.master.bytes n d.logged.fs.globalPhyAddr,
      ⟨d.logged.restage c.f (d.logged.fs.inode c.f).iSize m.master, m.slave⟩) := by
    simp only [DataFs.read, hread, rdfsPa_rdfsVa, hloop, map_some]
  refine ⟨_, _, heq, ⟨⟨tree, metas, hst.restage hend⟩, fun g hg => ?_⟩, Mem.length_bytes _ _ _,
    fun i hi hok => ?_, hslave, rfl, hinode, rfl⟩
  · rw [Logged.isReg_restage] at hg
    rw [hinode]
    exact h.size g hg
  · have hbyte := hcopied.copied (c.pos + i) ⟨Nat.le_add_right _ _, Nat.add_lt_add_left hi _⟩
    rw [hok, if_pos rfl, RwFlag.dst, stagePlace, Nat.add_sub_cancel_left] at hbyte
    rw [Mem.getElem?_bytes _ _ hi]
    exact congrArg some hbyte

end

/-! ## Runs -/

/-- A write of bytes, or a read of a length. -/
inductive DataOp
  | write (c : IoCall) (buf : List UInt8)
  | read (c : IoCall) (length : ℕ)

namespace DataOp

/-- The return value, the bytes that are read, and the state, `none` for a page fault. -/
def run (sb : Super) (d : DataFs) : DataOp → Option (ℤ × List UInt8 × DataFs)
  | write c buf => (d.write sb c buf).map fun r => (r.1, [], r.2)
  | read c length => d.read sb c length

/-- The operation fits in the staging page and finds what it needs. The blocks of a write are
appended in order, and a read is of a file that is not empty and begins in it or at its end. -/
def Fits (R : Region sb) (d : DataFs) : DataOp → Prop
  | write c buf => WriteFits R d c buf.length
  | read c length => ReadFits d c length

/-- The last byte written to each place of each file, after the operation. -/
def note (w : ℕ → ℕ → Option UInt8) (o : DataOp) (f x : ℕ) : Option UInt8 :=
  match o with
  | write c buf =>
    if f = c.f ∧ (c.pos ≤ x ∧ x < c.pos + buf.length) ∧
      c.rdma (x / 4096 - c.pos / 4096) = true then buf[x - c.pos]? else w f x
  | read _ _ => w f x

end DataOp

/-- A run of operations that fit from `d₀` to a state, with the last byte written to each place of
each file. -/
inductive DataRun (R : Region sb) (d₀ : DataFs) : DataFs → (ℕ → ℕ → Option UInt8) → Prop
  | refl : DataRun R d₀ d₀ fun _ _ => none
  | step {d : DataFs} {w : ℕ → ℕ → Option UInt8} (h : DataRun R d₀ d w) (o : DataOp)
      (hfit : o.Fits R d) {ret : ℤ} {bytes : List UInt8} {d' : DataFs}
      (hr : o.run sb d = some (ret, bytes, d')) : DataRun R d₀ d' (o.note w)

/-- The bytes of the files are those last written, or what was there in `d₀`, and so are all other
bytes of the slaves. -/
structure Known (d₀ d : DataFs) (w : ℕ → ℕ → Option UInt8) : Prop where
  noted : ∀ f x v, w f x = some v →
    d.logged.IsReg f ∧ x / 4096 < (d.logged.fs.inode f).iBlocks
  content : ∀ f x, d.logged.IsReg f → x / 4096 < (d.logged.fs.inode f).iBlocks →
    d.at (d.logged.place f x) = (w f x).getD (d₀.at (d.logged.place f x))
  fresh : ∀ p, (∀ f x, d.logged.IsReg f → x / 4096 < (d.logged.fs.inode f).iBlocks →
    p ≠ d.logged.place f x) → d.at p = d₀.at p

section

variable {d₀ d d' : DataFs} {w : ℕ → ℕ → Option UInt8} {c : IoCall} {buf : List UInt8}

theorem Wrote.place_eq (h : Wrote d d' c buf) (hd : DataInv R blocks d) {f x : ℕ}
    (hf : d.logged.IsReg f) (hx : x / 4096 < (d.logged.fs.inode f).iBlocks) :
    d'.logged.place f x = d.logged.place f x := by
  obtain ⟨tree, metas, hst⟩ := hd.staged
  have hlog := hst.getElem?_log hf hx
  have hloc : d'.logged.loc f (x / 4096) = d.logged.loc f (x / 4096) := by
    rw [Logged.loc, h.log _ _ _ hlog, getD_some]
  rw [Logged.place, Logged.place, hloc]

/-- A write keeps what is known. -/
theorem Known.write (h : Known d₀ d w) (hw : Wrote d d' c buf) (hd : DataInv R blocks d)
    (hd' : DataInv R blocks d') (hf : d.logged.IsReg c.f) :
    Known d₀ d' ((DataOp.write c buf).note w) := by
  obtain ⟨tree, metas, hst⟩ := hd'.staged
  have hin : ∀ x ∈ Set.Ico c.pos (c.pos + buf.length),
      x / 4096 < (d'.logged.fs.inode c.f).iBlocks := by
    rintro x ⟨-, hx⟩
    have := hw.inside
    omega
  have hf' := (hw.isReg c.f).2 hf
  refine ⟨fun f x v hv => ?_, fun f x hfx hx => ?_, fun p hp => ?_⟩
  · simp only [DataOp.note] at hv
    split_ifs at hv with hc
    · obtain ⟨rfl, hx, -⟩ := hc
      exact ⟨hf', hin x hx⟩
    · obtain ⟨hfx, hx⟩ := h.noted f x v hv
      exact ⟨(hw.isReg f).2 hfx, hx.trans_le (hw.iBlocks f)⟩
  · simp only [DataOp.note]
    split_ifs with hc
    · obtain ⟨rfl, hx, hok⟩ := hc
      rw [hw.new x hx hok, getD_some]
    · have hkept : d'.at (d'.logged.place f x) = d.at (d'.logged.place f x) := by
        refine hw.frame _ fun y hy hok heq => hc ?_
        obtain ⟨rfl, rfl⟩ := hst.place_inj hfx hf' hx (hin y hy) heq
        exact ⟨rfl, hy, hok⟩
      rw [hkept]
      by_cases hold : x / 4096 < (d.logged.fs.inode f).iBlocks
      · have hfx' := (hw.isReg f).1 hfx
        rw [hw.place_eq hd hfx' hold]
        exact h.content f x hfx' hold
      -- the byte is in a block that the write has appended
      · have hnone : w f x = none := eq_none_iff_forall_ne_some.2 fun v hv =>
          hold (h.noted f x v hv).2
        rw [hnone, getD_none]
        refine h.fresh _ fun g y hg hy heq => hold ?_
        have hg' := (hw.isReg g).2 hg
        rw [← hw.place_eq hd hg hy] at heq
        obtain ⟨rfl, rfl⟩ := hst.place_inj hfx hg' hx (hy.trans_le (hw.iBlocks g)) heq
        exact hy
  · rw [hw.frame p fun x hx _ => hp c.f x hf' (hin x hx)]
    refine h.fresh p fun f x hfx hx => ?_
    rw [← hw.place_eq hd hfx hx]
    exact hp f x ((hw.isReg f).2 hfx) (hx.trans_le (hw.iBlocks f))

theorem Known.congr (h : Known d₀ d w) (hslave : d'.slave = d.slave)
    (hlog : d'.logged.log = d.logged.log) (hinode : d'.logged.fs.inode = d.logged.fs.inode)
    (hfiles : d'.logged.fs.files = d.logged.fs.files) : Known d₀ d' w := by
  have hreg : ∀ f, d'.logged.IsReg f ↔ d.logged.IsReg f := fun f => by
    rw [Logged.IsReg, Logged.IsReg, hfiles, hinode]
  have hplace : d'.logged.place = d.logged.place := by
    funext f x
    simp only [Logged.place, Logged.loc, hlog]
  have hat : d'.at = d.at := by
    funext p
    rw [DataFs.at, DataFs.at, hslave]
  refine ⟨?_, ?_, ?_⟩ <;> simp only [hreg, hplace, hat, hinode]
  · exact h.noted
  · exact h.content
  · exact h.fresh

end

/-- The state once `rdfs_open_file` has called `rdfs_init_local_rw_buffer`, before any block has
been obtained. -/
def Fs.opened (sb : Super) (s : Fs) (cpu : ℕ) (slave : ℕ → Mem) : DataFs :=
  ⟨⟨{ s with toSpace := rdfsInitLocalRwBuffer sb cpu s.toSpace }, fun _ => []⟩, slave⟩

/-- The regular files are mapped and empty, and there is a page for the staging of data. -/
structure DataStart (R : Region sb) (blocks : ℕ) (s : Fs) (cpu : ℕ) : Prop where
  start : PteStart R blocks s
  flag : s.flag = false
  page : 0 < (s.master.nvm.numaDes (getCpuNuma sb cpu)).freePageCount
  empty : ∀ f ∈ s.files, SIsReg (s.inode f).iMode → (s.inode f).iSize = 0

theorem DataStart.inv {s : Fs} {cpu : ℕ} (h : DataStart R blocks s cpu) (slave : ℕ → Mem) :
    DataInv R blocks (s.opened sb cpu slave) ∧ ∀ f, (s.opened sb cpu slave).logged.IsReg f →
      ((s.opened sb cpu slave).logged.fs.inode f).iBlocks = 0 := by
  obtain ⟨tree, metas, hb, hplace⟩ := h.start.inPlace
  obtain ⟨staging, hp⟩ := hb.pages
  generalize hs : rdfsInitLocalRwBuffer sb cpu s.toSpace = s'
  obtain ⟨hpages, hm⟩ := hp.rwBuffer_take h.flag h.page hs
  obtain ⟨nvm, flag, globalPhyAddr, heq, -⟩ := rdfsInitLocalRwBuffer_eq sb cpu s.toSpace
  rw [Fs.opened, hs]
  rw [hs] at heq
  subst heq
  have hsame : SameBlocks ⟨s, fun _ => []⟩ ⟨{ s with
      flag := flag
      globalPhyAddr := globalPhyAddr
      master := { s.master with nvm := nvm } }, fun _ => []⟩ :=
    ⟨rfl, fun f => ⟨rfl, rfl, rfl, rfl⟩, ⟨rfl, rfl⟩, rfl, rfl⟩
  refine ⟨⟨⟨tree, metas, hb.congr hsame ⟨_, hpages⟩ (hb.kernel.congr rfl rfl rfl),
    hplace.congr hsame fun f hf q hq b hb => absurd hb (Nat.not_lt_zero b), hpages⟩,
    fun f hf => ?_⟩, fun f hf => (h.start.empty f hf.1 hf.2).2.2⟩
  rw [h.empty f hf.1 hf.2]
  exact Nat.zero_le _

/-- What holds in every run. -/
theorem DataRun.known {s : Fs} {cpu : ℕ} (hs : DataStart R blocks s cpu) {slave : ℕ → Mem}
    {d : DataFs} {w : ℕ → ℕ → Option UInt8} (h : DataRun R (s.opened sb cpu slave) d w) :
    DataInv R blocks d ∧ Known (s.opened sb cpu slave) d w := by
  induction h with
  | refl =>
    obtain ⟨h₀, hempty⟩ := hs.inv slave
    refine ⟨h₀, ⟨fun f x v hv => (by cases hv), fun f x hf hx => ?_, fun p _ => rfl⟩⟩
    rw [hempty f hf] at hx
    exact absurd hx (Nat.not_lt_zero _)
  | step _ o hfit hr ih =>
    obtain ⟨hd, hknown⟩ := ih
    cases o with
    | write c buf =>
      obtain ⟨d', hrun, hd', hw⟩ := hd.write hfit
      rw [DataOp.run, hrun, map_some] at hr
      cases hr
      exact ⟨hd', hknown.write hw hd hd' hfit.isReg⟩
    | read c length =>
      obtain ⟨bytes, d', hrun, hd', -, -, hslave, hlog, hinode, hfiles⟩ := hd.read hfit rfl
      rw [DataOp.run, hrun] at hr
      cases hr
      exact ⟨hd', hknown.congr hslave hlog hinode hfiles⟩

/-- In every run of reads and writes that fit (`DataOp.Fits`), no operation that fits faults, and a
read returns how much there is to read and, where its requests are taken, the bytes last written :
where there are none, those that the slave had at the start. -/
theorem DataRun.reads_written {s : Fs} {cpu : ℕ} (hs : DataStart R blocks s cpu) {slave : ℕ → Mem}
    {d : DataFs} {w : ℕ → ℕ → Option UInt8} (h : DataRun R (s.opened sb cpu slave) d w) :
    (∀ o : DataOp, o.Fits R d → (o.run sb d).isSome) ∧
    ∀ (c : IoCall) (length n : ℕ), ReadFits d c length →
      min length ((d.logged.fs.inode c.f).iSize - c.pos) = n →
      ∃ bytes d', d.read sb c length = some ((n : ℤ), bytes, d') ∧ bytes.length = n ∧
        ∀ i < n, c.rdma ((c.pos + i) / 4096 - c.pos / 4096) = true →
          bytes[i]? = some ((w c.f (c.pos + i)).getD
            (slave (d.logged.place c.f (c.pos + i)).1 (d.logged.place c.f (c.pos + i)).2)) := by
  obtain ⟨hd, hknown⟩ := h.known hs
  refine ⟨fun o ho => ?_, fun c length n hfit hn => ?_⟩
  · cases o with
    | write c buf =>
      obtain ⟨d', hrun, -⟩ := hd.write ho
      rw [DataOp.run, hrun]
      rfl
    | read c length =>
      obtain ⟨bytes, d', hrun, -⟩ := hd.read ho rfl
      rw [DataOp.run, hrun]
      rfl
  · obtain ⟨bytes, d', hrun, -, hlen, hbytes, -⟩ := hd.read hfit hn
    refine ⟨bytes, d', hrun, hlen, fun i hi hok => ?_⟩
    have hsize := hd.size c.f hfit.isReg
    rw [hbytes i hi hok, hknown.content c.f (c.pos + i) hfit.isReg (by omega)]
    rfl

/-- In every such run the memories of the slaves stay as they are off the blocks that slave 0 has
offered. -/
theorem DataRun.outside {s : Fs} {cpu : ℕ} (hs : DataStart R blocks s cpu) {slave : ℕ → Mem}
    {d : DataFs} {w : ℕ → ℕ → Option UInt8} (h : DataRun R (s.opened sb cpu slave) d w) {sId y : ℕ}
    (hout : sId ≠ 0 ∨ blocks * 4096 ≤ y) : d.slave sId y = slave sId y := by
  obtain ⟨hd, hknown⟩ := h.known hs
  obtain ⟨tree, metas, hst⟩ := hd.staged
  refine hknown.fresh (sId, y) fun f x hf hx heq => ?_
  obtain ⟨h0, hlt⟩ := hst.place_lt hf hx
  rw [← heq] at h0 hlt
  omega

instance (s : Logged) (f : ℕ) : Decidable (s.IsReg f) :=
  inferInstanceAs (Decidable (_ ∧ _))

instance (R : Region sb) (d : DataFs) (c : IoCall) (length : ℕ) :
    Decidable (WriteFits R d c length) :=
  decidable_of_iff' _ (writeFits_iff R d c length)

instance (d : DataFs) (c : IoCall) (length : ℕ) : Decidable (ReadFits d c length) :=
  decidable_of_iff' _ (readFits_iff d c length)

theorem dataStart_twoFiles {s : Fs} (h : twoFiles = some s) : DataStart Region.plain 128 s 0 := by
  have hfacts : twoFiles.all fun s => decide (s.flag = false ∧
      0 < (s.master.nvm.numaDes (getCpuNuma Region.behindTables 0)).freePageCount ∧
      ∀ f ∈ s.files, SIsReg (s.inode f).iMode → (s.inode f).iSize = 0) := by decide +kernel
  rw [h, all_some, decide_eq_true_iff] at hfacts
  exact ⟨pteStart_twoFiles h, hfacts.1, hfacts.2.1, hfacts.2.2⟩

/-- Three bytes are written to the first file. -/
theorem dataRun_twoFiles : ∃ s d w, DataStart Region.plain 128 s 0 ∧
    DataRun Region.plain (s.opened Region.behindTables 0 fun _ _ => 7) d w ∧
    w 2 1 = some 5 ∧ w 2 2 = some 6 ∧
    ReadFits d ⟨2, 0, 1, 0, fun _ => true⟩ 2 ∧ min 2 ((d.logged.fs.inode 2).iSize - 1) = 2 := by
  have hfacts : (twoFiles.bind fun s =>
      let d := s.opened Region.behindTables 0 fun _ _ => 7
      (DataOp.run Region.behindTables d (.write ⟨2, 0, 0, 0, fun _ => true⟩ [4, 5, 6])).map fun r =>
        decide (WriteFits Region.plain d ⟨2, 0, 0, 0, fun _ => true⟩ 3 ∧
          ReadFits r.2.2 ⟨2, 0, 1, 0, fun _ => true⟩ 2 ∧
          min 2 ((r.2.2.logged.fs.inode 2).iSize - 1) = 2)) = some true := by decide +kernel
  obtain ⟨s, hs, hrun⟩ := bind_eq_some_iff.1 hfacts
  obtain ⟨r, hrun, hdec⟩ := map_eq_some_iff.1 hrun
  obtain ⟨hfit, hread⟩ := of_decide_eq_true hdec
  exact ⟨s, r.2.2, _, dataStart_twoFiles hs, DataRun.refl.step (.write _ [4, 5, 6]) hfit hrun, rfl,
    rfl, hread⟩

/-- Two of the bytes are read. -/
theorem reads_written_twoFiles : ∃ s d w, DataStart Region.plain 128 s 0 ∧
    DataRun Region.plain (s.opened Region.behindTables 0 fun _ _ => 7) d w ∧
    ∃ bytes d', d.read Region.behindTables ⟨2, 0, 1, 0, fun _ => true⟩ 2 =
      some ((2 : ℤ), bytes, d') ∧ bytes[0]? = some 5 ∧ bytes[1]? = some 6 := by
  obtain ⟨s, d, w, hstart, hrun, h5, h6, hread, hn⟩ := dataRun_twoFiles
  obtain ⟨bytes, d', heq, -, hbytes⟩ := (hrun.reads_written hstart).2 _ 2 2 hread hn
  refine ⟨s, d, w, hstart, hrun, bytes, d', heq, ?_, ?_⟩
  · rw [hbytes 0 (by decide) rfl, h5, getD_some]
  · rw [hbytes 1 (by decide) rfl, h6, getD_some]

/-- The memory of slave 1 is as it was. -/
theorem outside_twoFiles : ∃ s d w, DataStart Region.plain 128 s 0 ∧
    DataRun Region.plain (s.opened Region.behindTables 0 fun _ _ => 7) d w ∧ d.slave 1 0 = 7 := by
  obtain ⟨s, d, w, hstart, hrun, -⟩ := dataRun_twoFiles
  exact ⟨s, d, w, hstart, hrun, hrun.outside hstart (Or.inl (by decide))⟩

end Rdfs
