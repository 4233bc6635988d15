import Rdfs.FsSteps

/-!
# Blocks of slaves, one at a time

`Logged` is a file system together with the log of the slaves and blocks that the files have
obtained, and `Logged.call` is a call of `rdfs_alloc_blocks` for a regular file with what it adds
to the log.

A call that appends several blocks is a call for the first block, followed by a call for the rest
(`Logged.call_succ`). What happens with one block is `GotBlock` : its pte value goes to the next
place of the page of the cursor, or to the first place of a new page, the page is entered in the
table of the file, and the other pte values stay as they are (`PagesInv.gotBlock`).
-/

namespace Rdfs

open List Function

/-! ## Calls -/

/-- A file system, and the slaves and blocks that each file has obtained, in order. -/
structure Logged where
  fs : Fs
  log : ℕ → List (ℕ × ℕ)

/-- A call of `rdfs_alloc_blocks` with `ALLOC_PTE`. -/
structure PteCall where
  f : ℕ
  cpu : ℕ
  num : ℕ
  zeroing : ℕ
  phys : ℕ

/-- The state after a call for the file `f` that ended in `a`. -/
def Logged.put (s : Logged) (f : ℕ) (a : AllocState) : Logged :=
  ⟨s.fs.put f (a.inode, a.master, s.fs.areas), Function.update s.log f (s.log f ++ a.obtained)⟩

/-- The state after a call. -/
def Logged.call (sb : Super) (s : Logged) (c : PteCall) : Logged :=
  s.put c.f
    (rdfsAllocBlocks sb c.cpu s.fs.master (s.fs.inode c.f) c.num c.zeroing .pte c.phys).2

/-- One round does the same whatever has been obtained before. -/
theorem pteRound_obtained (sb : Super) (cpu zeroing : ℕ) (inode : Inode) (g : Master) :
    ∃ ret x inode' g', ∀ phys obtained,
      let t := takeBlock sb cpu zeroing .pte ⟨phys, obtained, inode, g⟩
      enterBlock sb cpu t.1 t.2 = (ret, ⟨phys, obtained ++ [x], inode', g'⟩) := by
  generalize hn : rdfsNewPagePte sb cpu g inode.bitmaps (getRdfsInode sb inode.iIno) = n
  have htake : ∀ phys obtained, takeBlock sb cpu zeroing .pte ⟨phys, obtained, inode, g⟩ =
      (n.2.1.phyaddr, ⟨phys, obtained ++ [(n.2.1.sId, n.2.1.blockId)],
        { inode with bitmaps := n.2.2.1 }, n.2.2.2⟩) := by
    intro phys obtained
    simp only [takeBlock, hn]
  obtain ⟨r, hr⟩ : ∃ r, rdfsInsertPage sb cpu
      (countBlock sb n.2.2.2.nvm { inode with bitmaps := n.2.2.1 }) n.2.2.2.kernel inode.iIno
      inode.iVirtAddr (inode.iBlocks + 1) n.2.1.phyaddr = r := ⟨_, rfl⟩
  refine ⟨r.1, (n.2.1.sId, n.2.1.blockId),
    { inode with bitmaps := n.2.2.1, iBlocks := inode.iBlocks + 1 },
    { n.2.2.2 with nvm := r.2.1, kernel := r.2.2 }, fun phys obtained => ?_⟩
  simp only [htake]
  exact enterBlock_eq hr

/-- The rounds do the same whatever has been obtained before. -/
theorem allocLoop_pte_obtained (sb : Super) (cpu zeroing : ℕ) :
    ∀ (num : ℕ) (inode : Inode) (g : Master), ∃ ret xs inode' g', ∀ phys obtained,
      allocLoop sb cpu zeroing .pte num ⟨phys, obtained, inode, g⟩ =
        (ret, ⟨phys, obtained ++ xs, inode', g'⟩)
  | 0, inode, g => ⟨0, [], inode, g, fun phys obtained => by simp [allocLoop]⟩
  | num + 1, inode, g => by
    obtain ⟨ret, x, inode₁, g₁, hround⟩ := pteRound_obtained sb cpu zeroing inode g
    obtain ⟨ret', xs, inode', g', hloop⟩ := allocLoop_pte_obtained sb cpu zeroing num inode₁ g₁
    by_cases h0 : ret = 0
    · refine ⟨ret', x :: xs, inode', g', fun phys obtained => ?_⟩
      rw [allocLoop, hround, if_neg (not_not.2 h0), hloop, append_assoc]
      rfl
    · refine ⟨ret, [x], inode₁, g₁, fun phys obtained => ?_⟩
      rw [allocLoop, hround, if_pos h0]

theorem rdfsAllocBlocks_of_table {sb : Super} {g : Master} {inode : Inode}
    (htable : HasTable sb g.nvm.mem inode.iIno) (cpu num zeroing phys : ℕ) :
    rdfsAllocBlocks sb cpu g inode num zeroing .pte phys =
      allocLoop sb cpu zeroing .pte num ⟨phys, [], inode, g⟩ := by
  rw [rdfsAllocBlocks, ensureTable, if_neg htable]
  rfl

namespace Logged

variable {sb : Super} {s : Logged} {f : ℕ}

theorem put_put (s : Logged) (f : ℕ) (a b : AllocState) :
    (s.put f a).put f b = s.put f { b with obtained := a.obtained ++ b.obtained } := by
  have hfs := Fs.put_put s.fs f (a.inode, a.master, s.fs.areas) (b.inode, b.master, s.fs.areas)
  unfold put
  simp only [update_self, update_idem, append_assoc]
  exact congrArg (Logged.mk · _) hfs

theorem call_zero (htable : HasTable sb s.fs.master.nvm.mem (s.fs.inode f).iIno)
    (cpu zeroing phys : ℕ) : s.call sb ⟨f, cpu, 0, zeroing, phys⟩ = s := by
  rw [call, rdfsAllocBlocks_of_table htable, allocLoop]
  unfold put
  simp only [append_nil, update_eq_self]
  exact congrArg (Logged.mk · _) (Fs.put_self s.fs f)

/-- The first block of a call, and the others. -/
theorem call_succ (htable : HasTable sb s.fs.master.nvm.mem (s.fs.inode f).iIno)
    {cpu zeroing phys : ℕ} {a : AllocState} (hround : ∀ num,
      allocLoop sb cpu zeroing .pte (num + 1) ⟨phys, [], s.fs.inode f, s.fs.master⟩ =
        allocLoop sb cpu zeroing .pte num a)
    (htable' : HasTable sb a.master.nvm.mem a.inode.iIno) (num : ℕ) :
    s.call sb ⟨f, cpu, num + 1, zeroing, phys⟩ =
      (s.put f a).call sb ⟨f, cpu, num, zeroing, phys⟩ := by
  have hinode : (s.put f a).fs.inode f = a.inode := Fs.put_inode_self s.fs f _
  obtain ⟨ret, xs, inode', g', hloop⟩ := allocLoop_pte_obtained sb cpu zeroing num a.inode a.master
  have hfirst : allocLoop sb cpu zeroing .pte num a =
      (ret, ⟨a.phys, a.obtained ++ xs, inode', g'⟩) := hloop a.phys a.obtained
  have hrest : rdfsAllocBlocks sb cpu (s.put f a).fs.master ((s.put f a).fs.inode f) num zeroing
      .pte phys = (ret, ⟨phys, xs, inode', g'⟩) := by
    rw [hinode]
    exact (rdfsAllocBlocks_of_table htable' cpu num zeroing phys).trans (hloop phys [])
  rw [call, rdfsAllocBlocks_of_table htable, hround, hfirst, call, hrest, put_put]
  rfl

end Logged

/-! ## One block -/

/-- From `s` to `s'` the file `f` has got the block `x` of a slave, whose pte value is at place `c`
of the page `p`. The pages of pte values were `metas`. -/
structure GotBlock (f : ℕ) (s s' : Fs) (tree tree' : ℕ → Option Tree) (metas : List ℕ) (p c : ℕ)
    (x : ℕ × ℕ) : Prop where
  files : s'.files = s.files
  inode : s'.inode = Function.update s.inode f { s.inode f with
    iBlocks := (s.inode f).iBlocks + 1
    bitmaps := (allocBlock s.master.slaves (s.inode f).bitmaps).2.2.1 }
  slaves : s'.master.slaves = (allocBlock s.master.slaves (s.inode f).bitmaps).2.2.2
  block : x = ((allocBlock s.master.slaves (s.inode f).bitmaps).2.1,
    (allocBlock s.master.slaves (s.inode f).bitmaps).1)
  tree_ne : ∀ j ≠ f, tree' j = tree j
  tree_self : ∃ t', tree' f = some t'
  ents : fileEnts (tree' f) = fileEnts (tree f) ++ [p]
  cursor : s'.master.ptePhyAddr = p ∧ s'.master.pteCnt = c + 1
  place : (s.master.pteCnt = 512 ∧ p ∉ metas ∧ c = 0) ∨
    (s.master.pteCnt < 512 ∧ p = s.master.ptePhyAddr ∧ c = s.master.pteCnt)
  word : s'.master.nvm.mem.load 8 (p + 8 * c) = pteValue x.1 x.2
  same : ∀ q ∈ metas, ∀ d < 512, q ≠ p ∨ d ≠ c →
    s'.master.nvm.mem.load 8 (q + 8 * d) = s.master.nvm.mem.load 8 (q + 8 * d)

section

variable {sb : Super} {R : Region sb} {s : Fs} {tree : ℕ → Option Tree} {metas staging : List ℕ}
  {f : ℕ}

/-- The pte values after a round. -/
theorem PteRound.words {s s' : AllocState} {new own : List ℕ} {p c : ℕ} {t' : Tree}
    (h : PteRound s s' new p c)
    (hrep : FileRep R s'.master.nvm s.inode.iIno t' (new ++ own)) (hp : p ∈ new ++ own)
    (hsame : SameBut s.master.nvm.mem s'.master.nvm.mem (getRdfsInodePhyAddr sb s.inode.iIno)
      (t'.pages ++ [p])) {x : ℕ × ℕ} (hx : s'.obtained = s.obtained ++ [x]) :
    s'.master.nvm.mem.load 8 (p + 8 * c) = pteValue x.1 x.2 ∧ ∀ q ∈ own, ∀ d < 512, q ≠ p ∨ d ≠ c →
        s'.master.nvm.mem.load 8 (q + 8 * d) = s.master.nvm.mem.load 8 (q + 8 * d) := by
  have hlt := h.lt
  have hobt := h.obtained
  rw [hx, append_cancel_left_eq, singleton_inj] at hobt
  have hpage : ∀ d < 512, s'.master.nvm.mem.load 8 (p + 8 * d) =
      (s.master.nvm.mem.store 8 (p + 8 * c) (pteValue x.1 x.2)).load 8 (p + 8 * d) := by
    intro d hd
    rw [hobt]
    exact Mem.load_congr fun y h1 h2 => h.word y (by omega) (by omega)
  refine ⟨?_, fun q hq d hd hne => ?_⟩
  · rw [hpage c hlt, Mem.load_store_of_lt]
    exact Nat.mod_lt _ (by decide)
  · by_cases hqp : q = p
    · subst hqp
      rw [hpage d hd]
      exact Mem.load_store_disjoint _ (by omega)
    · have hqown : q ∈ new ++ own := mem_append_right _ hq
      have hisPage : ∀ w ∈ t'.pages ++ (new ++ own), R.pages.IsPage w :=
        fun w hw => hrep.owned.isPage hw
      have hqpage := hisPage q (mem_append_right _ hqown)
      have hslot := R.isSlot_disjoint_page hrep.isSlot hqpage
      refine Mem.load_congr fun y h1 h2 => hsame y (by omega) fun w hw => ?_
      have hapart : w + 4096 ≤ q ∨ q + 4096 ≤ w := by
        rcases mem_append.1 hw with hw | hw
        · exact hrep.owned.disjoint_append hw hqown
        · rw [mem_singleton.1 hw]
          exact (hisPage p (mem_append_right _ hp)).disjoint hqpage (Ne.symm hqp)
      omega

/-- `rdfs_alloc_blocks` appends a block of a slave to a regular file with a table. -/
theorem PagesInv.gotBlock (h : PagesInv R s tree metas staging) (hk : KernelInv s tree)
    (hf : f ∈ s.files) (hreg : SIsReg (s.inode f).iMode) {t : Tree} (ht : tree f = some t)
    {cpu : ℕ} {n i : Fin 2} (hn : getCpuNuma sb cpu = n)
    (hi : rdfsGetNumaByInode sb (getRdfsInode sb f) = i)
    (hplaced : Placed (s.inode f).iVirtAddr ((s.inode f).iBlocks + 1))
    (hroom : PteRoom s.master.nvm n i (s.inode f).iBlocks s.master.pteCnt 1) (zeroing phys : ℕ) :
    ∃ a tree' metas' p c x, (∀ num,
        allocLoop sb cpu zeroing .pte (num + 1) ⟨phys, [], s.inode f, s.master⟩ =
          allocLoop sb cpu zeroing .pte num a) ∧ a.obtained = [x] ∧
      GotBlock f s (s.put f (a.inode, a.master, s.areas)) tree tree' metas p c x ∧
      PagesInv R (s.put f (a.inode, a.master, s.areas)) tree' metas' staging ∧
      KernelInv (s.put f (a.inode, a.master, s.areas)) tree' ∧
      ∀ num, PteRoom s.master.nvm n i (s.inode f).iBlocks s.master.pteCnt (num + 1) →
        PteRoom a.master.nvm n i ((s.inode f).iBlocks + 1) a.master.pteCnt num := by
  have hfile := h.file hf
  rw [ht] at hfile
  have hrep := hfile.fileRep
  have hlen : t.ents.length = (s.inode f).iBlocks := by
    have := h.blocks f hf
    rwa [ht] at this
  obtain ⟨t', a, new, p, c, hloop, hp, hrep', hrounds, hround, hcount⟩ := hrep.pteRound
    (s := ⟨phys, [], s.inode f, s.master⟩) zeroing hn hlen
    ⟨h.cursor.1, fun hlt => by simp [h.cursor.2 hlt]⟩ (by rwa [h.iIno f hf])
    (hplaced.addrOk (Nat.lt_succ_self _)) hroom
  have hents : t'.ents = t.ents ++ [p] := hrounds.appended.ents
  have hgrown : Grown sb n s.master a.master (s.inode f) a.inode (tree f) t' [p] [p] := by
    rw [ht]
    refine hrounds.grown (t := some t) hrep hrep' rfl (SameOffPages.refl _ _) rfl
      (SameInodes.refl _) ?_ (fun t₀ ht₀ => ?_) (fun h0 => absurd h0 (by simp))
    · rw [hents, length_append, hlen]
      exact hplaced
    · obtain rfl := Option.some_inj.1 ht₀
      exact ⟨rfl, rfl, rfl⟩
  obtain ⟨hpmetas, hcur⟩ := hround.cursorIn h.cursor
  have hnew : new ⊆ [p] := by
    rcases hround.place with ⟨-, rfl, -⟩ | ⟨-, rfl, -⟩ <;> simp
  have hinv := h.put_pte hf hreg hrep' hgrown hplaced.le
    (cons_subset.2 ⟨hpmetas, nil_subset _⟩) hnew hcur
  obtain ⟨b, hinode⟩ := hgrown.inode_eq
  have hbitmaps : a.inode.bitmaps = b := by rw [hinode]
  rw [hround.bitmaps] at hbitmaps
  obtain ⟨hword, hsame⟩ := hround.words hrep' hp hgrown.sameBut hround.obtained
  refine ⟨a, Function.update tree f (some t'), new ++ metas, p, c, _, hloop, hround.obtained, ?_,
    hinv, hk.grown hgrown, fun num hroom' => hround.room hcount hroom'⟩
  refine ⟨Fs.put_files _ _ _, ?_, hround.slaves, rfl, fun j hj => update_of_ne hj _ _,
    ⟨t', update_self _ _ _⟩, ?_, ⟨hround.ptePhyAddr, hround.pteCnt⟩, ?_,
    hword, fun q hq => hsame q (by simp [hq])⟩
  · rw [hinode, ← hbitmaps]
    rfl
  · rw [update_self, ht]
    exact hents
  · rcases hround.place with ⟨hcnt, rfl, hc⟩ | ⟨hcnt, rfl, hp', hc⟩
    · refine Or.inl ⟨hcnt, fun hmem => ?_, hc⟩
      have hnodup := (nodup_append.1 hrep'.owned.nodup).2.1
      exact (nodup_cons.1 hnodup).1 (by simp [hmem])
    · exact Or.inr ⟨hcnt, hp', hc⟩

end

end Rdfs
