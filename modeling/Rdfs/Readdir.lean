import Rdfs.NewDir

/-!
# Listing a directory

`rdfs_readdir` hands the entries of a directory to `dir_emit` until there is none left or `dir_emit`
refuses one. `OpenDir` is what an open directory keeps from one call to the next : its position, and
the version of the directory at the last call.

The walk begins at the first record in every call, and the position only decides whether there is a
walk at all. So every call that emits anything emits the first entry (`emission_restarts`), and a
listing is right exactly if the first call takes all of it and leaves the position at or behind the
end of the directory (`readdir_lists_iff`).
-/

namespace Rdfs

open List

/-! ## `rdfs_readdir` -/

/-- What `dir_emit` is given of a record. -/
structure Dirent where
  name : List UInt8
  ino : ℕ
  dType : ℕ
deriving DecidableEq, Repr

/-- What `rdfs_readdir` reads of the record at `nde`. -/
def direntAt (m : Mem) (nde : ℕ) : Dirent where
  name := m.bytes (deField m nde .nameLen) (nde + dirNameOffset)
  ino := deField m nde .inode
  dType := rdfsFiletypeTable (deField m nde .fileType)

/-- The loop of `rdfs_readdir`, with room for `capacity` entries : the places of the records emitted
and what was emitted, and `ctx->pos`. -/
def readdirLoop (m : Mem) (stop nde capacity : ℕ) (pos : ℤ) : List (ℕ × Dirent) × ℤ :=
  if nde < stop then
    if deField m nde .recLen = 0 then ([], pos)
    else if deField m nde .inode ≠ 0 then
      if capacity = 0 then ([], pos)
      else
        let rest := readdirLoop m stop (rdfsNextEntry m nde) (capacity - 1)
          (pos + deField m nde .recLen)
        ((nde, direntAt m nde) :: rest.1, rest.2)
    else readdirLoop m stop (rdfsNextEntry m nde) capacity (pos + deField m nde .recLen)
  else ([], pos)
termination_by stop - nde
decreasing_by
  all_goals
    unfold rdfsNextEntry
    omega

/-- An address as a `loff_t`. -/
def loffOfAddr (a : ℕ) : ℤ := if a < 2 ^ 63 then a else (a : ℤ) - 2 ^ 64

/-- `ctx->pos` and `f_version` of an open directory. -/
structure OpenDir where
  pos : ℤ
  fVersion : ℕ

/-- What is outside of the directory in a call : how many entries `dir_emit` takes, and what
`rdfs_destroy_mapping` returns. -/
structure ReaddirCall where
  capacity : ℕ
  destroy : ℤ

/-- What a call returns, emits and leaves. -/
structure ReaddirResult where
  err : ℤ
  emitted : List (ℕ × Dirent)
  file : OpenDir

/-- The position and the version after the check of the version. -/
def checkVersion (dir : Dir) (iVersion : ℕ) (file : OpenDir) : OpenDir :=
  if file.fVersion ≠ iVersion then
    ⟨if file.pos ≠ 0 then loffOfAddr dir.inode.iVirtAddr else file.pos, iVersion⟩
  else file

/-- `rdfs_readdir` on a directory that gets mapped. The error of a record of length 0 is
overwritten. -/
def rdfsReaddir (dir : Dir) (iVersion : ℕ) (call : ReaddirCall) (file : OpenDir) :
    ReaddirResult :=
  if (dir.inode.iSize : ℤ) ≤ file.pos then ⟨call.destroy, [], file⟩
  else
    let file' := checkVersion dir iVersion file
    let walk := readdirLoop dir.mem dir.inode.iSize 0 call.capacity file'.pos
    ⟨call.destroy, walk.1, ⟨walk.2, file'.fVersion⟩⟩

/-! ## Calls one after another -/

/-- The open directory before the call `k`. -/
def fileAt (dir : Dir) (iVersion : ℕ) : (ℕ → ReaddirCall) → ℕ → OpenDir → OpenDir
  | _, 0, file => file
  | calls, k + 1, file =>
    fileAt dir iVersion (fun i => calls (i + 1)) k (rdfsReaddir dir iVersion (calls 0) file).file

/-- What the call `k` emits. -/
def emission (dir : Dir) (iVersion : ℕ) (calls : ℕ → ReaddirCall) (file : OpenDir) (k : ℕ) :
    List (ℕ × Dirent) :=
  (rdfsReaddir dir iVersion (calls k) (fileAt dir iVersion calls k file)).emitted

/-- What the calls before the call `k` emit. -/
def emissions (dir : Dir) (iVersion : ℕ) (calls : ℕ → ReaddirCall) (file : OpenDir) (k : ℕ) :
    List (ℕ × Dirent) :=
  (List.range k).flatMap (emission dir iVersion calls file)

/-- What an entry in use gives. -/
def DirEnt.dirent (e : DirEnt) : Dirent := ⟨e.name, e.inode, rdfsFiletypeTable e.fileType⟩

/-- The records in use, by their places, with what they give. -/
def listing : ℕ → List DirRec → List (ℕ × Dirent)
  | _, [] => []
  | a, r :: rs =>
    if r.ent.Live then (a, r.ent.dirent) :: listing (a + r.recLen) rs
    else listing (a + r.recLen) rs

/-- The calls emit each of the entries in use once and in order, and from some call on nothing. -/
def Lists (dir : Dir) (iVersion : ℕ) (calls : ℕ → ReaddirCall) (file : OpenDir)
    (rs : List DirRec) : Prop :=
  ∃ n, emissions dir iVersion calls file n = listing 0 rs ∧
    ∀ k, n ≤ k → emission dir iVersion calls file k = []

/-! ## The listing -/

/-- The listing gives the entries in use. -/
theorem listing_map_snd : ∀ (a : ℕ) (rs : List DirRec),
      (listing a rs).map Prod.snd = (liveEnts rs).map DirEnt.dirent
  | _, [] => rfl
  | a, r :: rs => by
    have ih := listing_map_snd (a + r.recLen) rs
    unfold liveEnts at ih ⊢
    by_cases hr : r.ent.Live <;> simp [listing, hr, ih]

theorem length_listing (a : ℕ) (rs : List DirRec) :
    (listing a rs).length = (liveEnts rs).length := by
  simpa using congrArg List.length (listing_map_snd a rs)

theorem le_of_mem_listing :
    ∀ {rs : List DirRec} {a : ℕ} {x : ℕ × Dirent}, x ∈ listing a rs → a ≤ x.1
  | [], _, _, h => by simp [listing] at h
  | r :: rs, a, x, h => by
    rw [listing] at h
    split at h
    · rcases mem_cons.mp h with rfl | h
      · exact Nat.le_refl _
      · exact Nat.le_trans (Nat.le_add_right _ _) (le_of_mem_listing h)
    · exact Nat.le_trans (Nat.le_add_right _ _) (le_of_mem_listing h)

theorem nodup_listing : ∀ (a : ℕ) (rs : List DirRec), (listing a rs).Nodup
  | _, [] => nodup_nil
  | a, r :: rs => by
    have ih := nodup_listing (a + r.recLen) rs
    rw [listing]
    split
    · refine nodup_cons.mpr ⟨fun h => ?_, ih⟩
      have hle := le_of_mem_listing h
      have hpos := r.recLen_pos
      omega
    · exact ih

/-! ## One call -/

theorem HoldsRec.direntAt {m : Mem} {a : ℕ} {r : DirRec} (h : HoldsRec m a r) :
    direntAt m a = r.ent.dirent := by
  unfold Rdfs.direntAt DirEnt.dirent
  rw [h.nameLen, h.name, h.inode, h.fileType]

/-- The walk emits as much of the listing as there is room for, and if that is all of it, the
position moves by the bytes of the records. -/
theorem readdirLoop_eq {m : Mem} {stop : ℕ} :
    ∀ {rs : List DirRec} {a : ℕ} (capacity : ℕ) (pos : ℤ), Holds m a rs → a + total rs = stop →
      (readdirLoop m stop a capacity pos).1 = (listing a rs).take capacity ∧
        ((listing a rs).length ≤ capacity → (readdirLoop m stop a capacity pos).2 = pos + total rs)
  | [], a, capacity, pos, _, ha => by
    rw [readdirLoop, if_neg (by rw [total_nil] at ha; omega)]
    simp [listing]
  | r :: rs, a, capacity, pos, ⟨hr, h⟩, ha => by
    have hpos := r.recLen_pos
    rw [total_cons] at ha
    have hrest : a + r.recLen + total rs = stop := by omega
    rw [readdirLoop, if_pos (by omega), hr.recLen, if_neg (by omega), hr.inode, rdfsNextEntry,
      hr.recLen, total_cons, listing]
    by_cases hl : r.ent.Live
    · have hne : r.ent.inode ≠ 0 := hl
      rw [if_pos hl, if_pos hne]
      rcases capacity with _ | capacity
      · simp
      · obtain ⟨h1, h2⟩ := readdirLoop_eq capacity (pos + r.recLen) h hrest
        rw [if_neg (by omega), Nat.add_sub_cancel, hr.direntAt]
        refine ⟨by simp [h1], fun hle => ?_⟩
        have hle' : (listing (a + r.recLen) rs).length ≤ capacity := by simpa using hle
        push_cast
        omega
    · have hz : ¬r.ent.inode ≠ 0 := hl
      obtain ⟨h1, h2⟩ := readdirLoop_eq capacity (pos + r.recLen) h hrest
      rw [if_neg hl, if_neg hz]
      refine ⟨h1, fun hle => ?_⟩
      rw [h2 hle]
      push_cast
      omega

variable {file : OpenDir}

section calls

variable {dir : Dir} {iVersion : ℕ} {rs : List DirRec}

/-- A call at or behind the end does nothing. -/
theorem rdfsReaddir_of_le {call : ReaddirCall} (h : (dir.inode.iSize : ℤ) ≤ file.pos) :
    (rdfsReaddir dir iVersion call file).emitted = [] ∧
      (rdfsReaddir dir iVersion call file).file = file := by
  rw [rdfsReaddir, if_pos h]
  exact ⟨rfl, rfl⟩

/-- A call in front of the end emits the listing from its beginning. -/
theorem Dir.Rep.rdfsReaddir_of_lt (h : dir.Rep rs) (iVersion : ℕ) (call : ReaddirCall)
    (hlt : file.pos < dir.inode.iSize) :
    (rdfsReaddir dir iVersion call file).emitted = (listing 0 rs).take call.capacity ∧
      ((listing 0 rs).length ≤ call.capacity → (rdfsReaddir dir iVersion call file).file.pos =
          (checkVersion dir iVersion file).pos + dir.inode.iSize) := by
  obtain ⟨h1, h2⟩ := readdirLoop_eq call.capacity (checkVersion dir iVersion file).pos h.holds
    (by rw [Nat.zero_add, h.size])
  rw [h.size] at h2
  rw [rdfsReaddir, if_neg (by omega)]
  exact ⟨h1, h2⟩

/-- The position a call starts from is not negative. -/
theorem checkVersion_pos_nonneg_iff (harea : InDirArea dir.inode.iVirtAddr) :
    0 ≤ (checkVersion dir iVersion file).pos ↔
      0 ≤ file.pos ∧ (file.pos = 0 ∨ file.fVersion = iVersion) := by
  have hneg : loffOfAddr dir.inode.iVirtAddr < 0 := by
    unfold InDirArea rdfsStart dirAreaSize at harea
    unfold loffOfAddr
    rw [if_neg (by omega)]
    omega
  unfold checkVersion
  by_cases hv : file.fVersion = iVersion
  · simp [hv]
  · by_cases hp : file.pos = 0
    · simp [hv, hp]
    · simp only [ne_eq, hv, not_false_eq_true, if_true, hp, or_self, and_false, iff_false]
      omega

/-! ## Calls -/

theorem emissions_succ (calls : ℕ → ReaddirCall) (file : OpenDir) (k : ℕ) :
    emissions dir iVersion calls file (k + 1) = (rdfsReaddir dir iVersion (calls 0) file).emitted ++
        emissions dir iVersion (fun i => calls (i + 1))
          (rdfsReaddir dir iVersion (calls 0) file).file k := by
  unfold emissions
  rw [range_succ_eq_map, flatMap_cons, flatMap_map]
  rfl

/-- Behind the end nothing is emitted any more. -/
theorem emission_of_le (h : (dir.inode.iSize : ℤ) ≤ file.pos) :
    ∀ (calls : ℕ → ReaddirCall) (k : ℕ), emission dir iVersion calls file k = []
  | calls, 0 => (rdfsReaddir_of_le h).1
  | calls, k + 1 => by
    have hstay : (rdfsReaddir dir iVersion (calls 0) file).file = file := (rdfsReaddir_of_le h).2
    have ih := emission_of_le h (fun i => calls (i + 1)) k
    unfold emission at ih ⊢
    rw [fileAt, hstay]
    exact ih

theorem emissions_of_le (h : (dir.inode.iSize : ℤ) ≤ file.pos) (calls : ℕ → ReaddirCall) (k : ℕ) :
    emissions dir iVersion calls file k = [] := by
  unfold emissions
  rw [flatMap_eq_nil_iff]
  exact fun i _ => emission_of_le h calls i

/-- What a call emits is a part of the listing from its beginning. -/
theorem Dir.Rep.emission_restarts (h : dir.Rep rs) (iVersion : ℕ) (calls : ℕ → ReaddirCall)
    (file : OpenDir) (k : ℕ) : ∃ n, emission dir iVersion calls file k = (listing 0 rs).take n := by
  by_cases hle : (dir.inode.iSize : ℤ) ≤ (fileAt dir iVersion calls k file).pos
  · exact ⟨0, (rdfsReaddir_of_le hle).1⟩
  · exact ⟨_, (h.rdfsReaddir_of_lt iVersion (calls k) (by omega)).1⟩

/-- What calls emit one after another begins with the first entry. -/
theorem Dir.Rep.emissions_restart (h : dir.Rep rs) {x : ℕ × Dirent} {l : List (ℕ × Dirent)}
    (hx : listing 0 rs = x :: l) (calls : ℕ → ReaddirCall) (file : OpenDir) :
    ∀ k, emissions dir iVersion calls file k = [] ∨
      ∃ t, emissions dir iVersion calls file k = x :: t
  | 0 => Or.inl rfl
  | k + 1 => by
    have ih := h.emissions_restart hx calls file k
    have hk : emissions dir iVersion calls file (k + 1) =
        emissions dir iVersion calls file k ++ emission dir iVersion calls file k := by
      simp [emissions, range_succ]
    obtain ⟨n, hn⟩ := h.emission_restarts iVersion calls file k
    rw [hk]
    rcases ih with ih | ⟨t, ih⟩
    · rw [ih, hn, hx]
      rcases n with _ | n
      · exact Or.inl rfl
      · exact Or.inr ⟨l.take n, rfl⟩
    · exact Or.inr ⟨t ++ emission dir iVersion calls file k, by rw [ih, cons_append]⟩

/-- If the listing comes out right, the first call emits all of it. -/
theorem Dir.Rep.first_call_takes_all (h : dir.Rep rs) {x : ℕ × Dirent} {l : List (ℕ × Dirent)}
    (hx : listing 0 rs = x :: l) {n c : ℕ} (hc : 0 < c) {calls : ℕ → ReaddirCall}
    (heq : (listing 0 rs).take c ++ emissions dir iVersion calls file n = listing 0 rs) :
    (listing 0 rs).length ≤ c ∧ emissions dir iVersion calls file n = [] := by
  have hdrop : emissions dir iVersion calls file n = (listing 0 rs).drop c :=
    append_cancel_left (heq.trans (take_append_drop c _).symm)
  rcases h.emissions_restart hx calls file n with hnil | ⟨t, ht⟩
  · exact ⟨drop_eq_nil_iff.mp (hdrop.symm.trans hnil), hnil⟩
  · -- the first entry would be emitted twice
    exfalso
    have htake : x ∈ (listing 0 rs).take c := by
      obtain ⟨c, rfl⟩ := Nat.exists_eq_succ_of_ne_zero (Nat.pos_iff_ne_zero.mp hc)
      simp [hx]
    have hmem : x ∈ (listing 0 rs).drop c := by
      rw [← hdrop, ht]
      exact mem_cons_self
    have hnodup := nodup_listing 0 rs
    rw [← take_append_drop c (listing 0 rs)] at hnodup
    exact (nodup_append.mp hnodup).2.2 x htake x hmem rfl

/-- A call in front of the end emits something, if there is anything. -/
theorem Dir.Rep.emitted_ne_nil (h : dir.Rep rs) (hne : liveEnts rs ≠ []) {call : ReaddirCall}
    (hcap : 0 < call.capacity) (hlt : file.pos < dir.inode.iSize) :
    (rdfsReaddir dir iVersion call file).emitted ≠ [] := by
  rw [(h.rdfsReaddir_of_lt iVersion call hlt).1, ne_eq, take_eq_nil_iff, not_or]
  refine ⟨by omega, fun hnil => hne ?_⟩
  rw [← length_eq_zero_iff, ← length_listing 0, hnil]
  rfl

/-- What it takes to list a directory that is not empty. -/
theorem Dir.Rep.of_lists (h : dir.Rep rs) (harea : InDirArea dir.inode.iVirtAddr)
    {calls : ℕ → ReaddirCall} (hcap : ∀ i, 0 < (calls i).capacity) (hne : liveEnts rs ≠ [])
    (hl : Lists dir iVersion calls file rs) : (0 ≤ file.pos ∧ file.pos < dir.inode.iSize) ∧
      (liveEnts rs).length ≤ (calls 0).capacity ∧ (file.pos = 0 ∨ file.fVersion = iVersion) := by
  obtain ⟨n, hn, hafter⟩ := hl
  obtain ⟨x, l, hx⟩ : ∃ x l, listing 0 rs = x :: l := by
    refine exists_cons_of_ne_nil fun hnil => hne ?_
    rw [← length_eq_zero_iff, ← length_listing 0, hnil]
    rfl
  have hlt : file.pos < dir.inode.iSize := by
    by_contra hge
    rw [emissions_of_le (by omega), hx] at hn
    exact absurd hn.symm (cons_ne_nil _ _)
  obtain ⟨h1, h2⟩ := h.rdfsReaddir_of_lt iVersion (calls 0) hlt
  rcases n with _ | n
  · exact absurd (hx.symm.trans hn.symm) (cons_ne_nil _ _)
  rw [emissions_succ, h1] at hn
  obtain ⟨hall, hrest⟩ := h.first_call_takes_all hx (hcap 0) hn
  have hpos : 0 ≤ (checkVersion dir iVersion file).pos := by
    -- otherwise the second call is in front of the end again
    by_contra hneg
    have hlt' : (rdfsReaddir dir iVersion (calls 0) file).file.pos < dir.inode.iSize := by
      rw [h2 hall]
      omega
    have hsecond : emission dir iVersion calls file 1 ≠ [] := h.emitted_ne_nil hne (hcap 1) hlt'
    rcases n with _ | n
    · exact hsecond (hafter 1 (Nat.le_refl _))
    · exact hsecond (flatMap_eq_nil_iff.mp hrest 0 (by simp))
  obtain ⟨h0, hv⟩ := (checkVersion_pos_nonneg_iff harea).mp hpos
  exact ⟨⟨h0, hlt⟩, length_listing 0 rs ▸ hall, hv⟩

/-- When calls on an open directory list it : there is nothing to list, or the first call is made
inside of the directory, takes all of its entries, and does not lose its position. -/
theorem readdir_lists_iff (h : dir.Rep rs) (harea : InDirArea dir.inode.iVirtAddr)
    {calls : ℕ → ReaddirCall} (hcap : ∀ i, 0 < (calls i).capacity) (file : OpenDir) :
    Lists dir iVersion calls file rs ↔ liveEnts rs = [] ∨
        (0 ≤ file.pos ∧ file.pos < dir.inode.iSize) ∧ (liveEnts rs).length ≤ (calls 0).capacity ∧
            (file.pos = 0 ∨ file.fVersion = iVersion) := by
  constructor
  · intro hl
    by_cases hnil : liveEnts rs = []
    · exact Or.inl hnil
    · exact Or.inr (h.of_lists harea hcap hnil hl)
  · rintro (hnil | ⟨⟨h0, hlt⟩, hall, hv⟩)
    · have hx : listing 0 rs = [] := by
        rw [← length_eq_zero_iff, length_listing, hnil]
        rfl
      refine ⟨0, hx.symm, fun k _ => ?_⟩
      obtain ⟨n, hn⟩ := h.emission_restarts iVersion calls file k
      rw [hn, hx, take_nil]
    · rw [← length_listing 0] at hall
      obtain ⟨h1, h2⟩ := h.rdfsReaddir_of_lt iVersion (calls 0) hlt
      have hpos : 0 ≤ (checkVersion dir iVersion file).pos :=
        (checkVersion_pos_nonneg_iff harea).mpr ⟨h0, hv⟩
      refine ⟨1, ?_, fun k hk => ?_⟩
      · rw [emissions_succ, h1, take_of_length_le hall]
        exact append_nil _
      · obtain ⟨k, rfl⟩ := Nat.exists_eq_succ_of_ne_zero (Nat.pos_iff_ne_zero.mp hk)
        exact emission_of_le (by rw [h2 hall]; omega) (fun i => calls (i + 1)) k

end calls

/-! ## A directory with two entries -/

theorem inDirArea_freshDir (inode parent : Inode) :
    InDirArea (freshDir inode parent).inode.iVirtAddr :=
  (by decide : InDirArea rdfsStart)

/-- With room for both entries, the first call lists them. -/
theorem freshDir_listed_at_once :
    Lists (freshDir linkDir rootInode) 1 (fun _ => ⟨2, 0⟩) ⟨0, 0⟩ (freshRecs linkDir rootInode) :=
  (readdir_lists_iff (rep_freshDir linkDir rootInode) (inDirArea_freshDir linkDir rootInode)
      (fun _ => by decide) ⟨0, 0⟩).mpr
    (Or.inr ⟨⟨by decide, by decide⟩, by decide, Or.inl rfl⟩)

/-- With room for one entry, the listing of the directory does not come out. -/
theorem freshDir_not_listed : ¬Lists (freshDir linkDir rootInode) 1 (fun _ => ⟨1, 0⟩) ⟨0, 0⟩
      (freshRecs linkDir rootInode) := by
  intro hl
  have hall := ((rep_freshDir linkDir rootInode).of_lists (inDirArea_freshDir linkDir rootInode)
    (fun _ => by decide) (by decide) hl).2.1
  exact absurd hall (by decide)

end Rdfs
