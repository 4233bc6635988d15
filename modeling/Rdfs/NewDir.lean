import Rdfs.DirRuns

/-!
# Directories from their beginning

`rdfs_make_empty` gives a new directory a page with the entries `.` and `..`. They stay its first
two records (`Dots`), so no other entry ever is without a record before it, and the records are in
order in every state of a run whose steps are safe (`dirRun_spec`).

Without that they are not. A directory with 16 pages of short names, the names deleted one after
another, gives `..` all the bytes, and with the last name `2 ^ 16` of them, which is stored as 0
(`wrapRun_not_tiled`).
-/

namespace Rdfs

open List

/-! ## The first two records -/

/-- The record of `.`. -/
def dotRec (inode : Inode) : DirRec where
  ent := {
    inode := le32 inode.iIno
    name := [46]
    fileType := inode.deType
    inode_lt := Nat.lt_trans (Nat.mod_lt _ (by decide)) (by decide)
    name_lt := by decide
    fileType_lt := inode.deType_lt_byte }
  recLen := 16
  four_dvd := four_dvd_sixteen
  fits := (by decide : rdfsDirRecLen 1 ≤ 16)
  recLen_lt := sixteen_lt

/-- The record of `..`, with the rest of the page. -/
def dotdotRec (inode parent : Inode) : DirRec where
  ent := {
    inode := le32 parent.iIno
    name := [46, 46]
    fileType := inode.deType
    inode_lt := Nat.lt_trans (Nat.mod_lt _ (by decide)) (by decide)
    name_lt := by decide
    fileType_lt := inode.deType_lt_byte }
  recLen := 4080
  four_dvd := by decide
  fits := (by decide : rdfsDirRecLen 2 ≤ 4080)
  recLen_lt := by decide

variable {k : ℕ} {inode parent : Inode} {s : DirState}

theorem bytes_blit_take (m : Mem) (a : ℕ) {bs : List UInt8} (hk : k ≤ bs.length) :
    (m.blit a bs).bytes k a = bs.take k := by
  have h := congrArg (List.take k) (Mem.bytes_blit m a bs)
  rwa [Mem.bytes_take, Nat.min_eq_left hk] at h

theorem holds_writeDots (m : Mem) (inode parent : Inode) :
    Holds (writeDots m inode parent) 0 [dotRec inode, dotdotRec inode parent] := by
  have htype := inode.deType_lt
  have hino : ∀ n, le32 n % 256 ^ 8 = le32 n := fun n =>
    Nat.mod_eq_of_lt (Nat.lt_trans (Nat.mod_lt _ (by decide)) (by decide))
  have htype' : inode.deType % 256 = inode.deType := Nat.mod_eq_of_lt (by omega)
  unfold writeDots rdfsSetDeType
  simp only
  generalize hm5 : putDe (putDe _ 0 .inode (le32 inode.iIno)) 0 .fileType inode.deType = m5
  have hdot : HoldsRec m5 0 (dotRec inode) := by
    subst hm5
    constructor
    · rw [deField_putDe_of_ne (by decide), deField_putDe]
      exact hino _
    · rw [deField_putDe_of_ne (by decide), deField_putDe_of_ne (by decide), deField_blit_name,
        deField_putDe]
      rfl
    · rw [deField_putDe_of_ne (by decide), deField_putDe_of_ne (by decide), deField_blit_name,
        deField_putDe_of_ne (by decide), deField_putDe]
      rfl
    · rw [deField_putDe]
      exact htype'
    · rw [bytes_putDe, bytes_putDe]
      exact bytes_blit_take _ _ (by decide : 1 ≤ 4)
  generalize hde : rdfsDirRecLen 1 = de
  have hde16 : de = 16 := hde.symm
  have hput : ∀ (m : Mem) (f : DirField) (v : ℕ), Mem.SameOff m (putDe m de f v) 16 16 :=
    fun m f v => (sameOff_putDe m _ f v).mono (Nat.le_of_eq hde16.symm) (by rw [hde16]; decide)
  have hblit : ∀ m : Mem, Mem.SameOff m (m.blit (de + dirNameOffset) [46, 46, 0, 0]) 16 16 :=
    fun m => (Mem.sameOff_blit m _ _).mono (by rw [hde16]; decide) (by rw [hde16]; decide)
  refine ⟨hdot.congr (Mem.SameOff.sameOn ((((hput _ _ _).trans (hput _ _ _)).trans
    (hput _ _ _)).trans ((hblit _).trans (hput _ _ _)))
    (Or.inl (by decide : 0 + (12 + 1) ≤ 16))), ?_, trivial⟩
  rw [show 0 + (dotRec inode).recLen = de from hde16.symm]
  constructor
  · rw [deField_putDe_of_ne (by decide), deField_blit_name, deField_putDe]
    exact hino _
  · rw [deField_putDe_of_ne (by decide), deField_blit_name, deField_putDe_of_ne (by decide),
      deField_putDe, hde16]
    rfl
  · rw [deField_putDe_of_ne (by decide), deField_blit_name, deField_putDe_of_ne (by decide),
      deField_putDe_of_ne (by decide), deField_putDe]
    rfl
  · rw [deField_putDe]
    exact htype'
  · rw [bytes_putDe]
    exact bytes_blit_take _ _ (by decide : 2 ≤ 4)

/-- A new directory that is mapped. -/
structure NewDir (dir : Dir) : Prop where
  size : dir.inode.iSize = 0
  blocks : dir.inode.iBlocks = 0
  mapped : dir.inode.iVirtAddr ≠ 0

/-- What `rdfs_make_empty` makes of a new directory. -/
def madeEmpty (dir : Dir) (parent : Inode) : Dir := (rdfsMakeEmpty dir parent 0 .entered 0).2

theorem NewDir.rep {dir : Dir} (h : NewDir dir) (parent : Inode) :
    (madeEmpty dir parent).Rep [dotRec dir.inode, dotdotRec dir.inode parent] := by
  unfold madeEmpty rdfsMakeEmpty
  rw [if_neg (by decide), if_pos h.size]
  simp only
  rw [if_neg h.mapped]
  refine ⟨h.mapped, holds_writeDots _ _ _, rfl, ?_⟩
  show 4096 = 4096 * (dir.inode.iBlocks + 1)
  rw [h.blocks]

/-- The records of a directory that has just been made. -/
def freshRecs (inode parent : Inode) : List DirRec := [dotRec inode, dotdotRec inode parent]

/-- A directory that has just been made. -/
def freshDir (inode parent : Inode) : Dir := dirOf inode (freshRecs inode parent)

theorem rep_freshDir (inode parent : Inode) :
    (freshDir inode parent).Rep (freshRecs inode parent) := rep_dirOf inode ⟨1, rfl⟩

theorem liveNames_freshRecs (hino : le32 inode.iIno ≠ 0) (hparent : le32 parent.iIno ≠ 0) :
    liveNames (freshRecs inode parent) = [[46], [46, 46]] := by
  have hdot : (dotRec inode).ent.Live := hino
  have hdotdot : (dotdotRec inode parent).ent.Live := hparent
  rw [freshRecs, liveNames_cons_of_live hdot, liveNames_cons_of_live hdotdot]
  rfl

/-- Where a record is, seen from the first two. -/
theorem cons_cons_eq_append {d dd r : DirRec} {rest pre post : List DirRec}
    (h : d :: dd :: rest = pre ++ r :: post) :
    (pre = [] ∧ r = d ∧ post = dd :: rest) ∨ (pre = [d] ∧ r = dd ∧ post = rest) ∨
      ∃ pre', pre = d :: dd :: pre' ∧ rest = pre' ++ r :: post := by
  rcases pre with _ | ⟨q, _ | ⟨q', pre'⟩⟩
  all_goals simp only [nil_append, cons_append, cons.injEq] at h
  · exact Or.inl ⟨rfl, h.1.symm, h.2.symm⟩
  · exact Or.inr (Or.inl ⟨by rw [h.1], h.2.1.symm, h.2.2.symm⟩)
  · exact Or.inr (Or.inr ⟨pre', by rw [h.1, h.2.1], h.2.2⟩)

/-- The first two records are those of `.` and `..`, and the first has no room. -/
def Dots (rs : List DirRec) : Prop :=
  ∃ d dd rest, rs = d :: dd :: rest ∧ d.ent.Named [46] ∧ d.recLen = 16 ∧ dd.ent.Named [46, 46]

namespace Dots

variable {rs rs' pre post : List DirRec} {r : DirRec} {name : List UInt8}

/-- An entry is added behind the two. -/
theorem added {e : DirEnt} (h : Dots rs) (hadded : Added e rs rs') : Dots rs' := by
  obtain ⟨d, dd, rest, rfl, hd, hlen, hdd⟩ := h
  cases hadded with
  | page => exact ⟨d, dd, rest ++ [pageRec e], by simp, hd, hlen, hdd⟩
  | @place pre r post heq hroom =>
    rcases cons_cons_eq_append heq with ⟨rfl, rfl, rfl⟩ | ⟨rfl, rfl, rfl⟩ | ⟨pre', rfl, rfl⟩
    · have hneed : r.ent.need = 16 := by
        unfold DirEnt.need
        rw [hd.2]
        rfl
      have hpos := e.need_pos
      rcases hroom with ⟨hdead, -⟩ | hslack
      · exact absurd hd.1 hdead
      · omega
    · have hplace : r.place e hroom = [_, _] := dif_pos hdd.1
      rw [hplace]
      exact ⟨d, _, _ :: post, rfl, hd, hlen, hdd⟩
    · exact ⟨d, dd, pre' ++ r.place e hroom ++ post, rfl, hd, hlen, hdd⟩

/-- The two are not found under other names. -/
theorem pre_eq (h : Dots rs) (hf : FirstNamed name rs pre r post)
    (hname : name ≠ [46] ∧ name ≠ [46, 46]) : ∃ d dd pre', pre = d :: dd :: pre' ∧
      d.ent.Named [46] ∧ d.recLen = 16 ∧ dd.ent.Named [46, 46] := by
  obtain ⟨d, dd, rest, heq, hd, hlen, hdd⟩ := h
  rcases cons_cons_eq_append (heq.symm.trans hf.eq) with ⟨-, rfl, -⟩ | ⟨-, rfl, -⟩ | ⟨pre', h, -⟩
  · exact absurd (hf.named.2.symm.trans hd.2) hname.1
  · exact absurd (hf.named.2.symm.trans hdd.2) hname.2
  · exact ⟨d, dd, pre', h, hd, hlen, hdd⟩

/-- The second may take in the third. -/
theorem merge {p : DirRec} (h : Dots rs) (hf : FirstNamed name rs (pre ++ [p]) r post)
    (hname : name ≠ [46] ∧ name ≠ [46, 46]) (hsum : p.recLen + r.recLen < 2 ^ 16) :
    Dots (pre ++ p.merge r hsum :: post) := by
  obtain ⟨d, dd, pre', heq, hd, hlen, hdd⟩ := h.pre_eq hf hname
  rcases cons_cons_eq_append heq.symm with ⟨-, -, hnil⟩ | ⟨rfl, rfl, rfl⟩ | ⟨pre'', rfl, -⟩
  · exact absurd hnil.symm (cons_ne_nil _ _)
  · exact ⟨d, _, post, rfl, hd, hlen, hdd⟩
  · exact ⟨d, dd, pre'' ++ p.merge r hsum :: post, rfl, hd, hlen, hdd⟩

theorem relink (h : Dots (pre ++ r :: post)) (hpos : 0 < inode.iIno) (hlt : inode.iIno < 2 ^ 64) :
    Dots (pre ++ r.relink inode hlt :: post) := by
  have hnamed : ∀ n, r.ent.Named n → (r.relink inode hlt).ent.Named n := fun n hn =>
    ⟨Nat.pos_iff_ne_zero.1 hpos, hn.2⟩
  obtain ⟨d, dd, rest, heq, hd, hlen, hdd⟩ := h
  rcases cons_cons_eq_append heq.symm with ⟨rfl, rfl, rfl⟩ | ⟨rfl, rfl, rfl⟩ | ⟨pre', rfl, -⟩
  · exact ⟨_, dd, rest, rfl, hnamed _ hd, hlen, hdd⟩
  · exact ⟨d, _, post, rfl, hd, hlen, hnamed _ hdd⟩
  · exact ⟨d, dd, pre' ++ r.relink inode hlt :: post, rfl, hd, hlen, hdd⟩

end Dots

theorem dots_freshRecs (hino : le32 inode.iIno ≠ 0) (hparent : le32 parent.iIno ≠ 0) :
    Dots (freshRecs inode parent) :=
  ⟨_, _, [], rfl, ⟨hino, rfl⟩, rfl, ⟨hparent, rfl⟩⟩

/-! ## Runs -/

/-- `.` and `..` are not deleted. -/
def DirOp.KeepsDots : DirOp → Prop
  | delete name _ => name ≠ [46] ∧ name ≠ [46, 46]
  | _ => True

theorem DirInv.step_dots {rs : List DirRec} (h : DirInv s rs) (hd : Dots rs) {op : DirOp}
    (hv : op.Valid) (hk : op.KeepsDots) (hsafe : op.Safe s.dir) :
    ∃ rs', DirInv (s.step op) rs' ∧ Dots rs' := by
  cases op with
  | add name inode alloc now =>
    obtain ⟨rs', h', rfl | ⟨hadded, -⟩⟩ := h.add hv hsafe
    exacts [⟨_, h', hd⟩, ⟨_, h', hd.added hadded⟩]
  | delete name now =>
    have hfirst : ∀ r post, ¬FirstNamed name rs [] r post := fun r post hf => by
      obtain ⟨d, dd, pre, heq, -⟩ := hd.pre_eq hf hk
      exact absurd heq (cons_ne_nil _ _).symm
    obtain ⟨rs', h', rfl | ⟨pre, p, r, post, hsum, hf, rfl⟩⟩ := h.delete hsafe hfirst
    exacts [⟨_, h', hd⟩, ⟨_, h', hd.merge hf hk hsum⟩]
  | setLink name inode updateTimes now =>
    obtain ⟨rs', h', rfl | ⟨pre, r, post, heq, -, rfl⟩⟩ := h.setLink hv
    exacts [⟨_, h', hd⟩, ⟨_, h', (heq ▸ hd).relink hv.1 hv.2⟩]

/-- The records from the first byte to `i_size` are in order, and the names in use are the ones that
have been added and not deleted. -/
def Tiled (s : DirState) : Prop :=
  ∃ rs, Holds s.dir.mem 0 rs ∧ total rs = s.dir.inode.iSize ∧ s.names = (liveNames rs).toFinset

/-- A new directory with its first two entries. -/
def startDir (dir : Dir) (parent : Inode) : DirState := ⟨madeEmpty dir parent, {[46], [46, 46]}⟩

theorem NewDir.inv {dir : Dir} (h : NewDir dir) (hino : le32 dir.inode.iIno ≠ 0)
    (hparent : le32 parent.iIno ≠ 0) :
    DirInv (startDir dir parent) [dotRec dir.inode, dotdotRec dir.inode parent] := by
  have hnames : liveNames [dotRec dir.inode, dotdotRec dir.inode parent] = [[46], [46, 46]] :=
    liveNames_freshRecs hino hparent
  refine ⟨h.rep parent, ?_, ?_⟩
  · rw [hnames]
    decide
  · rw [hnames]
    rfl

/-- Along a run whose steps are safe, the records of a directory that starts with `.` and `..` are
in order, and the names in use are the ones expected. -/
theorem dirRun_spec {dir : Dir} {parent : Inode} (hnew : NewDir dir)
    (hino : le32 dir.inode.iIno ≠ 0) (hparent : le32 parent.iIno ≠ 0) {ops : List DirOp}
    (hops : Each DirState.step (fun s op => op.Valid ∧ op.KeepsDots ∧ op.Safe s.dir)
      (startDir dir parent) ops) :
    Always DirState.step Tiled (startDir dir parent) ops := by
  have hstep : ∀ (s : DirState) (op : DirOp), (∃ rs, DirInv s rs ∧ Dots rs) →
      (op.Valid ∧ op.KeepsDots ∧ op.Safe s.dir) → ∃ rs, DirInv (s.step op) rs ∧ Dots rs := by
    rintro s op ⟨rs, hs, hd⟩ ⟨hv, hk, hsafe⟩
    exact hs.step_dots hd hv hk hsafe
  refine (Each.always hstep ⟨_, hnew.inv hino hparent, dots_freshRecs hino hparent⟩ hops).imp ?_
  rintro s ⟨rs, hs, -⟩
  exact ⟨rs, hs.rep.holds, hs.rep.size, hs.names⟩

/-- A new directory in the root directory. -/
def subDir : Dir := ⟨{ linkDir with iVirtAddr := rdfsStart }, fun _ => 0⟩

/-- The inode of the root directory. -/
def rootInode : Inode := { (default : Inode) with iIno := 1, iMode := 0x41ed }

theorem newDir_subDir : NewDir subDir := ⟨rfl, rfl, by decide⟩

theorem dirRun_spec_subDir : Always DirState.step Tiled (startDir subDir rootInode)
      [.add (denseName 2) linkFile .entered 0] := by
  refine dirRun_spec newDir_subDir (by decide) (by decide)
    ⟨⟨linkable_denseTwo, trivial, fun rs hrep => ⟨fun pre r post hf => ?_, nofun⟩⟩, trivial⟩
  obtain rfl := hrep.unique (newDir_subDir.rep rootInode)
  have hmem : denseName 2 ∈ liveNames [dotRec subDir.inode, dotdotRec subDir.inode rootInode] :=
    mem_liveNames.2 ⟨r, by rw [hf.eq]; simp, hf.named⟩
  exact absurd hmem (by decide)

/-! ## A record that gets too long -/

theorem ofNat_inj_of_lt {a b : ℕ} (ha : a < 256) (hb : b < 256)
    (h : UInt8.ofNat a = UInt8.ofNat b) : a = b := by
  have := congrArg UInt8.toNat h
  rwa [UInt8.toNat_ofNat', UInt8.toNat_ofNat', Nat.mod_eq_of_lt ha, Nat.mod_eq_of_lt hb] at this

theorem denseName_inj {k l : ℕ} (hk : k < 17576) (hl : l < 17576) (h : denseName k = denseName l) :
    k = l := by
  rcases k with _ | _ | k <;> rcases l with _ | _ | l
  case succ.succ.succ.succ =>
    obtain ⟨h1, h⟩ := cons.inj h
    obtain ⟨h2, h⟩ := cons.inj h
    obtain ⟨h3, -⟩ := cons.inj h
    have h1 := ofNat_inj_of_lt (by omega) (by omega) h1
    have h2 := ofNat_inj_of_lt (by omega) (by omega) h2
    have h3 := ofNat_inj_of_lt (by omega) (by omega) h3
    omega
  all_goals first | rfl | exact absurd (congrArg List.length h) (by simp [denseName])

theorem linkable_denseName (k : ℕ) : Linkable (denseName k) linkFile where
  name_pos := (length_denseName k).1
  name_le := Nat.le_trans (length_denseName k).2 (by decide)
  ino_pos := by decide
  ino_lt := by decide

/-- The entries of the directory : `.`, `..` and short names of one file. -/
def fillEnt : ℕ → DirEnt
  | 0 => (dotRec subDir.inode).ent
  | 1 => (dotdotRec subDir.inode rootInode).ent
  | k => (linkable_denseName k).ent

theorem fillEnt_name : ∀ k, (fillEnt k).name = denseName k
  | 0 => rfl
  | 1 => rfl
  | _ + 2 => rfl

theorem fillEnt_live : ∀ k, (fillEnt k).Live
  | 0 => by decide
  | 1 => by decide
  | _ + 2 => (linkable_denseName _).ent_live

theorem fillEnt_need (k : ℕ) : (fillEnt k).need = 16 := by
  unfold DirEnt.need
  rw [fillEnt_name, need_denseName]

/-- A record of 16 bytes or more. -/
def fillRec (k len : ℕ) (h4 : 4 ∣ len) (hge : 16 ≤ len) (hlt : len < 2 ^ 16) : DirRec where
  ent := fillEnt k
  recLen := len
  four_dvd := h4
  fits := by rw [fillEnt_need]; exact hge
  recLen_lt := hlt

/-- A record without room. -/
def tightRec (k : ℕ) : DirRec := fillRec k 16 four_dvd_sixteen (by decide) sixteen_lt

/-- The last record, up to the end of its page. -/
def lastRec (n : ℕ) : DirRec :=
  fillRec n (4096 - 16 * n % 4096) (by omega) (by omega) (by omega)

/-- `n + 1` entries one behind another. -/
def filled (n : ℕ) : List DirRec := (List.range n).map tightRec ++ [lastRec n]

theorem total_tight (l : List ℕ) : total (l.map tightRec) = 16 * l.length := by
  induction l with
  | nil => rfl
  | cons k l ih =>
    rw [map_cons, total_cons, ih, length_cons]
    show 16 + _ = _
    omega

theorem total_filled (n : ℕ) : total (filled n) = 16 * n + (4096 - 16 * n % 4096) := by
  rw [filled, total_append, total_tight, length_range]
  rfl

theorem not_named_filled {n k : ℕ} (hk : n < k) (hk' : k < 17576) :
    ∀ r ∈ filled n, ¬r.ent.Named (denseName k) := by
  have hne : ∀ j ≤ n, ¬(fillEnt j).Named (denseName k) := fun j hj hnamed => by
    have := denseName_inj (by omega) (by omega) ((fillEnt_name j).symm.trans hnamed.2)
    omega
  intro r hr
  rcases mem_append.1 hr with hr | hr
  · obtain ⟨j, hj, rfl⟩ := mem_map.1 hr
    exact hne j (Nat.le_of_lt (mem_range.1 hj))
  · obtain rfl := mem_singleton.1 hr
    exact hne n (Nat.le_refl n)

theorem tightRec_not_room (k j : ℕ) : ¬(tightRec k).Room (rdfsDirRecLen (denseName j).length) := by
  rintro (⟨hdead, -⟩ | hslack)
  · exact hdead (fillEnt_live k)
  · have h1 : (tightRec k).ent.need = 16 := fillEnt_need k
    have h2 : (tightRec k).recLen = 16 := rfl
    rw [need_denseName] at hslack
    omega

theorem fillEnt_succ {n : ℕ} (h : 1 ≤ n) : fillEnt (n + 1) = (linkable_denseName (n + 1)).ent := by
  obtain ⟨k, rfl⟩ := Nat.exists_eq_add_of_le' h
  rfl

theorem filled_succ (n : ℕ) :
    filled (n + 1) = (List.range n).map tightRec ++ [tightRec n, lastRec (n + 1)] := by
  rw [filled, range_succ, map_append, append_assoc]
  rfl

section add

variable {n : ℕ}

theorem lastRec_room_iff :
    (lastRec n).Room (linkable_denseName (n + 1)).ent.need ↔ 32 ≤ 4096 - 16 * n % 4096 := by
  have hneed : (lastRec n).ent.need = 16 := fillEnt_need n
  have hneed' : (linkable_denseName (n + 1)).ent.need = 16 := need_denseName _
  unfold DirRec.Room
  rw [hneed, hneed', or_iff_right fun h => h.1 (fillEnt_live n)]
  rfl

/-- The last record cut behind its name. -/
theorem lastRec_place (h1 : 1 ≤ n)
    (hroom : (lastRec n).Room (linkable_denseName (n + 1)).ent.need) :
    (lastRec n).place (linkable_denseName (n + 1)).ent hroom = [tightRec n, lastRec (n + 1)] := by
  have hslack := lastRec_room_iff.1 hroom
  refine (dif_pos (fillEnt_live n)).trans ?_
  refine congrArg₂ (fun r r' => [r, r']) (DirRec.ext rfl (fillEnt_need n))
    (DirRec.ext (fillEnt_succ h1).symm ?_)
  show 4096 - 16 * n % 4096 - (fillEnt n).need = 4096 - 16 * (n + 1) % 4096
  rw [fillEnt_need]
  omega

/-- The last record in a page that is full, and the first of the next page. -/
theorem lastRec_full (h1 : 1 ≤ n)
    (hroom : ¬(lastRec n).Room (linkable_denseName (n + 1)).ent.need) :
    lastRec n = tightRec n ∧ pageRec (linkable_denseName (n + 1)).ent = lastRec (n + 1) := by
  rw [lastRec_room_iff] at hroom
  refine ⟨DirRec.ext rfl ?_, DirRec.ext (fillEnt_succ h1).symm ?_⟩
  · show 4096 - 16 * n % 4096 = 16
    omega
  · show 4096 = 4096 - 16 * (n + 1) % 4096
    omega

/-- One more name. -/
theorem filled_add (h : s.dir.Rep (filled n)) (h1 : 1 ≤ n) (hn : n ≤ 4096) :
    (s.step (.add (denseName (n + 1)) linkFile .entered 0)).dir.Rep (filled (n + 1)) := by
  have hl := linkable_denseName (n + 1)
  have hnamed := not_named_filled (n := n) (k := n + 1) (by omega) (by omega)
  have htight : ∀ r ∈ (List.range n).map tightRec, ¬r.Stops (denseName (n + 1)) := by
    intro r hr hstop
    obtain ⟨j, -, rfl⟩ := mem_map.1 hr
    rcases hstop with hstop | hstop
    exacts [hnamed _ (mem_append_left _ hr) hstop, tightRec_not_room j _ hstop]
  have hret : (rdfsAddLink s.dir (denseName (n + 1)) linkFile .entered 0).1 = 0 := by
    have htotal := h.size
    have hblocks := h.blocks
    rw [total_filled] at htotal
    refine addLink_succeeds_of_few_pages h ?_ hl ?_ 0 ?_
    · show _ ≤ 2 ^ 21
      omega
    · intro e he hname
      obtain ⟨r, hr, hnr⟩ := named_iff_live.2 ⟨e, he, hname⟩
      exact hnamed r hr hnr
    · rw [need_denseName]
      omega
  obtain ⟨hpassed, hahead⟩ := passed_append htight [lastRec n]
  obtain ⟨dir', heq, hcase⟩ := h.addLink_zero hl (fun hs => hs.1 rfl) hret
  show (rdfsAddLink s.dir (denseName (n + 1)) linkFile .entered 0).2.Rep (filled (n + 1))
  rw [heq, filled_succ]
  by_cases hroom : (lastRec n).Room hl.ent.need
  · have hstop : (lastRec n).Stops (denseName (n + 1)) := Or.inr hroom
    obtain ⟨hp, ha⟩ := passed_cons_of_stops hstop []
    have hah : ahead (denseName (n + 1)) (filled n) = [lastRec n] := hahead.trans ha
    rcases hcase with ⟨r, post, hroom', hah', -, hrep, -⟩ | ⟨hah', -⟩
    · obtain ⟨rfl, rfl⟩ := cons.inj (hah'.symm.trans hah)
      rwa [filled, hpassed, hp, append_nil, lastRec_place h1, append_nil] at hrep
    · exact absurd (hah'.symm.trans hah) (cons_ne_nil _ _).symm
  · have hstop : ¬(lastRec n).Stops (denseName (n + 1)) := not_or.2
      ⟨hnamed _ (mem_append_right _ (mem_singleton.2 rfl)), hroom⟩
    obtain ⟨-, ha⟩ := passed_cons_of_not_stops hstop []
    have hah : ahead (denseName (n + 1)) (filled n) = [] := hahead.trans ha
    obtain ⟨hlast, hpage⟩ := lastRec_full h1 hroom
    rcases hcase with ⟨r, post, -, hah', -⟩ | ⟨-, hrep, -⟩
    · exact absurd (hah'.symm.trans hah) (cons_ne_nil _ _)
    · rwa [filled, hlast, hpage, append_assoc] at hrep

end add

/-- The names added one after another. -/
def fillOps (n : ℕ) : List DirOp :=
  (List.range n).map fun i => .add (denseName (i + 2)) linkFile .entered 0

theorem rep_fillOps : ∀ n ≤ 4096,
    ((fillOps n).foldl DirState.step (startDir subDir rootInode)).dir.Rep (filled (n + 1))
  | 0, _ => newDir_subDir.rep rootInode
  | n + 1, hn => by
    have ih := rep_fillOps n (by omega)
    rw [fillOps, range_succ, map_append, foldl_append]
    exact filled_add ih (by omega) (by omega)

/-- The names up to the `k`-th one deleted, and their records taken in by that of `..`. -/
def drained (k : ℕ) (h : 16 * (k + 1) < 2 ^ 16) : List DirRec :=
  tightRec 0 :: fillRec 1 (16 * (k + 1)) (by omega) (by omega) h ::
    ((List.range' (k + 2) (4095 - k)).map tightRec ++ [lastRec 4097])

theorem drained_zero : drained 0 (by decide) = filled 4097 := by
  rw [filled, range_eq_range', range'_succ, range'_succ]
  rfl

theorem drained_first (h : 16 * (k + 1) < 2 ^ 16) : FirstNamed (denseName (k + 2)) (drained k h)
      ([tightRec 0] ++ [fillRec 1 (16 * (k + 1)) (by omega) (by omega) h]) (tightRec (k + 2))
      ((List.range' (k + 3) (4094 - k)).map tightRec ++ [lastRec 4097]) where
  eq := by
    rw [drained, show 4095 - k = 4094 - k + 1 by omega, range'_succ]
    rfl
  named := ⟨fillEnt_live _, fillEnt_name _⟩
  first r hr hn := by
    simp only [cons_append, nil_append, mem_cons, not_mem_nil, or_false] at hr
    have hname : ∃ j < 2, r.ent.name = denseName j := by
      rcases hr with rfl | rfl
      exacts [⟨0, by decide, fillEnt_name 0⟩, ⟨1, by decide, fillEnt_name 1⟩]
    obtain ⟨j, hj, hname⟩ := hname
    have := denseName_inj (by omega) (by omega) (hname.symm.trans hn.2)
    omega

/-- One name less. -/
theorem drained_delete {h : 16 * (k + 1) < 2 ^ 16} (hrep : s.dir.Rep (drained k h))
    (h' : 16 * (k + 1 + 1) < 2 ^ 16) :
    (s.step (.delete (denseName (k + 2)) 0)).dir.Rep (drained (k + 1) h') := by
  obtain ⟨dir', hstep, -, hmerge, -⟩ := hrep.step_delete (drained_first h) 0
  rw [hstep]
  have := hmerge h'
  have hrec : (fillRec 1 (16 * (k + 1)) (by omega) (by omega) h).merge (tightRec (k + 2)) h' =
      fillRec 1 (16 * (k + 1 + 1)) (by omega) (by omega) h' := DirRec.ext rfl rfl
  rw [hrec] at this
  rwa [drained, show 4095 - (k + 1) = 4094 - k by omega]

/-- The names deleted one after another. -/
def drainOps (n : ℕ) : List DirOp := (List.range n).map fun i => .delete (denseName (i + 2)) 0

theorem drainOps_succ (n : ℕ) :
    drainOps (n + 1) = drainOps n ++ [.delete (denseName (n + 2)) 0] := by
  rw [drainOps, range_succ, map_append]
  rfl

theorem rep_drainOps (hs : s.dir.Rep (filled 4097)) : ∀ (n : ℕ) (h : 16 * (n + 1) < 2 ^ 16),
      ((drainOps n).foldl DirState.step s).dir.Rep (drained n h)
  | 0, _ => by
    rw [drained_zero]
    exact hs
  | n + 1, h => by
    have ih := rep_drainOps hs n (by omega)
    rw [drainOps_succ, foldl_append]
    exact drained_delete ih h

/-- All names added, and all but the last one deleted. -/
def wrapRun : List DirOp := fillOps 4096 ++ drainOps (4094 + 1)

/-- The last deletion : the length of `..` becomes 0. -/
theorem not_tiled_drained (hrep : s.dir.Rep (drained 4094 (by decide))) :
    ¬Tiled (s.step (.delete (denseName 4096) 0)) := by
  obtain ⟨dir', hstep, hlen, -, hinode, hoff⟩ := hrep.step_delete (drained_first (by decide)) 0
  have hsize : total (drained 4094 (by decide)) = s.dir.inode.iSize := hrep.size
  have hdot : HoldsRec dir'.mem 0 (tightRec 0) := by
    refine hrep.holds.1.congr (hoff.sameOn (Or.inl ?_))
    decide
  rw [hstep]
  rintro ⟨rs, hrs, htotal, -⟩
  have hsame : dir'.inode.iSize = s.dir.inode.iSize := by
    rw [hinode]
    rfl
  replace htotal : total rs = s.dir.inode.iSize := htotal.trans hsame
  rw [← hsize, drained, total_cons, total_cons] at htotal
  have h16 : (tightRec 0).recLen = 16 := rfl
  match rs, hrs with
  | [], _ =>
    rw [total_nil] at htotal
    omega
  | [r], ⟨hr, _⟩ =>
    obtain rfl := hr.unique hdot
    have hpos := (fillRec 1 (16 * (4094 + 1)) (by decide) (by decide) (by decide)).recLen_pos
    rw [total_cons, total_nil] at htotal
    omega
  | r :: r' :: _, ⟨hr, hr', _⟩ =>
    obtain rfl := hr.unique hdot
    have hzero : deField dir'.mem 16 .recLen = 0 := hlen
    have hpos := r'.recLen_pos
    rw [h16, Nat.zero_add] at hr'
    rw [← hr'.recLen, hzero] at hpos
    omega

/-- The record of `..` takes in `2 ^ 16` bytes in all, and the directory is out of order. -/
theorem wrapRun_not_tiled : NewDir subDir ∧ le32 subDir.inode.iIno ≠ 0 ∧ le32 rootInode.iIno ≠ 0 ∧
      (∀ op ∈ wrapRun, op.Valid ∧ op.KeepsDots) ∧
      ¬Always DirState.step Tiled (startDir subDir rootInode) wrapRun := by
  refine ⟨newDir_subDir, by decide, by decide, fun op hop => ?_, mt Always.last ?_⟩
  · rcases mem_append.1 hop with hop | hop
    · obtain ⟨i, -, rfl⟩ := mem_map.1 hop
      exact ⟨linkable_denseName _, trivial⟩
    · obtain ⟨i, hi, rfl⟩ := mem_map.1 hop
      have hi := mem_range.1 hi
      refine ⟨trivial, fun hdot => ?_, fun hdot => ?_⟩
      · have := denseName_inj (k := i + 2) (l := 0) (by omega) (by omega) hdot
        omega
      · have := denseName_inj (k := i + 2) (l := 1) (by omega) (by omega) hdot
        omega
  · rw [wrapRun, drainOps_succ, ← append_assoc, foldl_append, foldl_append, foldl_cons, foldl_nil]
    exact not_tiled_drained (rep_drainOps (rep_fillOps 4096 (by omega)) 4094 (by omega))

end Rdfs
