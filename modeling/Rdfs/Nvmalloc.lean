import Mathlib.Data.List.Perm.Basic
import Rdfs.Links
import Rdfs.PageTable

/-!
# Virtual areas

`nvmalloc.c` divides a part of the kernel's address space into areas, of 2 MB for directories and
symbolic links and of 32 GB for regular files. Each kind has a list of free areas and a list of
areas in use, with a counter each. `NvmLists` are the lists as the code has them : heads, next
pointers and counters. A node never changes the area it stands for, so the area is its name.

`AreaInv l free used` says that the lists of `l` are `free` and `used`, that the counters are
their lengths, and that together they are the areas of `nvmalloc_init`. `nvmalloc` moves the first
free area to the front of the areas in use (`AreaInv.nvmalloc`), and `nvfree` moves an area in
use, from wherever it is in the list, to the front of the free ones (`AreaInv.nvfree`).

`AreaReached` are the lists after any calls of the two functions, with any mode and any address.
In each of them `nvfree` moves the area in use at its address or changes nothing, unless the
address is one of a mode that has no area in use : then it follows a null pointer
(`AreaReached.nvfree_iff`).
-/

namespace Rdfs

open List Function Option

/-! ## The code -/

/-- A free list, a used list, and their counters. -/
structure AreaList where
  freeList : ℕ
  usedList : ℕ
  freeCnt : ℤ
  usedCnt : ℤ

/-- The lists of `nvmalloc.c` : `next` of the nodes, and the lists of regular files (mode 0) and
of directories (mode 1). -/
structure NvmLists where
  next : ℕ → ℕ
  lists : Fin 2 → AreaList

/-- The loop of `nvmalloc_init` behind the area `p`, for at most `cnt` areas : the next pointers
and the counter. -/
def initLoop (size limit : ℕ) : ℕ → ℕ → (ℕ → ℕ) → ℤ → (ℕ → ℕ) × ℤ
  | 0, _, next, freeCnt => (next, freeCnt)
  | cnt + 1, p, next, freeCnt =>
    let addr := p + size
    if addr + size - 1 < limit then
      initLoop size limit cnt addr (Function.update next p addr) (freeCnt + 1)
    else (next, freeCnt)

/-- `nvmalloc_init`. -/
def nvmallocInit : NvmLists :=
  let dirEnd := rdfsStart + dirAreaSize
  let dir := initLoop maxDirSize dirEnd (dirAreaSize / maxDirSize) rdfsStart (fun _ => 0) 1
  let reg := initLoop maxFileSize rdfsEnd ((rdfsEnd - dirEnd) / maxFileSize) dirEnd dir.1 1
  { next := reg.1
    lists := fun mode => if mode = 0 then ⟨dirEnd, 0, reg.2, 0⟩ else ⟨rdfsStart, 0, dir.2, 0⟩ }

/-- `nvmalloc` : an area for a regular file (mode 0) or for a directory (mode 1), `NULL` if there
is none. -/
def nvmalloc (mode : ℤ) (l : NvmLists) : ℕ × NvmLists :=
  if mode = 0 ∨ mode = 1 then
    let i : Fin 2 := if mode = 0 then 0 else 1
    let a := l.lists i
    if 0 < a.freeCnt then
      let p := a.freeList
      let next := Function.update l.next p (if a.usedList = 0 then 0 else a.usedList)
      (p, ⟨next, Function.update l.lists i ⟨l.next p, p, a.freeCnt - 1, a.usedCnt + 1⟩⟩)
    else (0, l)
  else (0, l)

/-- The walk of `nvfree` through a used list : the node before `addr`. The nodes are as many as
the areas, so it visits no more than that. -/
def findPre (next : ℕ → ℕ) (addr : ℕ) : ℕ → ℕ → ℕ → Option ℕ
  | 0, _, _ => none
  | cnt + 1, pre, p =>
    if p = 0 then none else if p = addr then some pre else findPre next addr cnt p (next p)

/-- The mode `nvfree` finds for an address. -/
def nvfreeMode (addr : ℕ) : Option (Fin 2) :=
  if rdfsStart ≤ addr ∧ addr < rdfsStart + dirAreaSize then some 1
  else if rdfsStart + dirAreaSize ≤ addr ∧ addr < rdfsEnd then some 0
  else none

/-- How many areas there are. -/
def areaCount : ℕ :=
  dirAreaSize / maxDirSize + (rdfsEnd - (rdfsStart + dirAreaSize)) / maxFileSize

/-- `nvfree`, `none` for the null pointer it follows if no area of that mode is in use. -/
def nvfree (l : NvmLists) (addr : ℕ) : Option NvmLists :=
  if addr = 0 then some l
  else match nvfreeMode addr with
    | none => some l
    | some i =>
      let a := l.lists i
      if a.usedList = 0 then none
      else if a.usedList = addr then
        some ⟨Function.update l.next addr a.freeList,
          Function.update l.lists i ⟨addr, l.next addr, a.freeCnt + 1, a.usedCnt - 1⟩⟩
      else match findPre l.next addr areaCount a.usedList (l.next a.usedList) with
        | none => some l
        | some pre =>
          some ⟨Function.update (Function.update l.next pre (l.next addr)) addr a.freeList,
            Function.update l.lists i ⟨addr, a.usedList, a.freeCnt + 1, a.usedCnt - 1⟩⟩

/-! ## Areas -/

/-- The areas of directories. -/
def dirAreas : List ℕ := List.range' rdfsStart (dirAreaSize / maxDirSize) maxDirSize

/-- The areas of regular files. -/
def regAreas : List ℕ :=
  List.range' (rdfsStart + dirAreaSize) ((rdfsEnd - (rdfsStart + dirAreaSize)) / maxFileSize)
    maxFileSize

/-- The areas of a mode. -/
def areasOf (mode : Fin 2) : List ℕ := if mode = 0 then regAreas else dirAreas

/-- The size of the areas of a mode. -/
def areaSize (mode : Fin 2) : ℕ := if mode = 0 then maxFileSize else maxDirSize

variable {v : ℕ} {next : ℕ → ℕ} {l : NvmLists}

theorem mem_dirAreas : v ∈ dirAreas ↔ ∃ i < 2 ^ 14, v = rdfsStart + 2 ^ 21 * i := by
  rw [dirAreas, mem_range']
  rfl

theorem mem_regAreas : v ∈ regAreas ↔ ∃ i < 958, v = rdfsStart + 2 ^ 35 + 2 ^ 35 * i := by
  rw [regAreas, mem_range']
  rfl

theorem nodup_areasOf (mode : Fin 2) : (areasOf mode).Nodup := by
  unfold areasOf
  split_ifs
  · exact nodup_range' maxFileSize (by decide)
  · exact nodup_range' maxDirSize (by decide)

theorem inDirArea_of_mem (h : v ∈ dirAreas) : InDirArea v ∧ v % 2 ^ 21 = 0 := by
  obtain ⟨i, hi, rfl⟩ := mem_dirAreas.1 h
  unfold InDirArea rdfsStart dirAreaSize maxDirSize
  omega

theorem inRegArea_of_mem (h : v ∈ regAreas) :
    ¬InDirArea v ∧ (rdfsStart + dirAreaSize ≤ v ∧ v < rdfsEnd) ∧ v % 2 ^ 35 = 0 := by
  obtain ⟨i, hi, rfl⟩ := mem_regAreas.1 h
  unfold InDirArea rdfsStart dirAreaSize maxDirSize rdfsEnd
  omega

theorem nvfreeMode_of_mem {mode : Fin 2} (h : v ∈ areasOf mode) : nvfreeMode v = some mode := by
  unfold nvfreeMode
  rcases node_cases mode with rfl | rfl
  · obtain ⟨i, hi, rfl⟩ := mem_regAreas.1 h
    unfold rdfsStart dirAreaSize rdfsEnd
    rw [if_neg (by omega), if_pos (by omega)]
  · obtain ⟨i, hi, rfl⟩ := mem_dirAreas.1 h
    unfold rdfsStart dirAreaSize
    rw [if_pos (by omega)]

theorem ne_zero_of_mem_areasOf {mode : Fin 2} (h : v ∈ areasOf mode) : v ≠ 0 := by
  rintro rfl
  exact absurd (nvfreeMode_of_mem h) (by simp [nvfreeMode, rdfsStart])

/-- No area is of both modes. -/
theorem mode_unique {i j : Fin 2} (hi : v ∈ areasOf i) (hj : v ∈ areasOf j) : i = j :=
  some_inj.1 ((nvfreeMode_of_mem hi).symm.trans (nvfreeMode_of_mem hj))

theorem length_areasOf_le (mode : Fin 2) : (areasOf mode).length ≤ areaCount := by
  unfold areasOf areaCount
  split_ifs
  · rw [regAreas, length_range']
    exact Nat.le_add_left _ _
  · rw [dirAreas, length_range']
    exact Nat.le_add_right _ _

/-! ## The lists -/

/-- The lists of one mode are `free` and `used`. -/
structure AreaRep (next : ℕ → ℕ) (a : AreaList) (free used : List ℕ) : Prop where
  linkedFree : LinkedTo next a.freeList free
  linkedUsed : LinkedTo next a.usedList used
  freeCnt : a.freeCnt = free.length
  usedCnt : a.usedCnt = used.length

/-- The lists are `free` and `used`, which together are the areas of each mode. -/
structure AreaInv (l : NvmLists) (free used : Fin 2 → List ℕ) : Prop where
  rep : ∀ i, AreaRep l.next (l.lists i) (free i) (used i)
  perm : ∀ i, (free i ++ used i).Perm (areasOf i)

theorem AreaRep.congr {next' : ℕ → ℕ} {a : AreaList} {free used : List ℕ}
    (h : AreaRep next a free used) (hn : ∀ p ∈ free ++ used, next' p = next p) :
    AreaRep next' a free used :=
  ⟨h.linkedFree.congr fun p hp => hn p (mem_append_left _ hp),
    h.linkedUsed.congr fun p hp => hn p (mem_append_right _ hp), h.freeCnt, h.usedCnt⟩

theorem AreaRep.fresh {a : ℕ} {c : ℤ} {areas : List ℕ} (h : LinkedTo next a areas)
    (hc : c = areas.length) : AreaRep next ⟨a, 0, c, 0⟩ areas [] :=
  ⟨h, rfl, hc, rfl⟩

namespace AreaInv

variable {l : NvmLists} {free used : Fin 2 → List ℕ} {i : Fin 2} {p : ℕ}

section

variable (h : AreaInv l free used)
include h

theorem nodup (i : Fin 2) : (free i ++ used i).Nodup := (h.perm i).nodup_iff.2 (nodup_areasOf i)

theorem mem_of_free (hp : p ∈ free i) : p ∈ areasOf i := (h.perm i).subset (mem_append_left _ hp)

theorem mem_of_used (hp : p ∈ used i) : p ∈ areasOf i := (h.perm i).subset (mem_append_right _ hp)

/-- New lists of one mode; the next pointers have changed for nodes of that mode only. -/
theorem update {a : AreaList} {f u : List ℕ} (hn : ∀ q ∉ areasOf i, next q = l.next q)
    (hrep : AreaRep next a f u) (hperm : (f ++ u).Perm (free i ++ used i)) :
    AreaInv ⟨next, Function.update l.lists i a⟩ (Function.update free i f)
      (Function.update used i u) := by
  refine ⟨fun j => ?_, fun j => ?_⟩
  · by_cases hj : j = i
    · subst hj
      simpa using hrep
    · simp only [update_of_ne hj]
      refine (h.rep j).congr fun q hq => hn q fun hq' => hj ?_
      exact mode_unique ((h.perm j).subset hq) hq'
  · by_cases hj : j = i
    · subst hj
      simpa using hperm.trans (h.perm j)
    · simpa only [update_of_ne hj] using h.perm j

/-- `nvmalloc` for a mode with no free area. -/
theorem nvmalloc_none (hf : free i = []) : Rdfs.nvmalloc (i : ℕ) l = (0, l) := by
  have hcnt := (h.rep i).freeCnt
  rw [hf] at hcnt
  rcases node_cases i with rfl | rfl <;> simp [Rdfs.nvmalloc, hcnt]

/-- `nvmalloc` moves the first free area to the front of the areas in use. -/
theorem nvmalloc {rest : List ℕ} (hf : free i = p :: rest) :
    ∃ l', Rdfs.nvmalloc (i : ℕ) l = (p, l') ∧
      AreaInv l' (Function.update free i rest) (Function.update used i (p :: used i)) := by
  have hrep := h.rep i
  have hnodup := h.nodup i
  rw [hf] at hrep hnodup
  obtain ⟨hhead, hp0, hrest⟩ := hrep.linkedFree
  have hcnt := hrep.freeCnt
  rw [length_cons] at hcnt
  have hused : (if (l.lists i).usedList = 0 then 0 else (l.lists i).usedList) =
      (l.lists i).usedList := by
    split_ifs with h0
    · exact h0.symm
    · rfl
  have hpr : p ∉ rest ∧ p ∉ used i := by
    rw [← not_or, ← mem_append]
    exact (nodup_cons.1 hnodup).1
  have hr : Rdfs.nvmalloc (i : ℕ) l = (p, ⟨Function.update l.next p (l.lists i).usedList,
      Function.update l.lists i ⟨l.next p, p, (l.lists i).freeCnt - 1,
        (l.lists i).usedCnt + 1⟩⟩) := by
    have hpos : 0 < (l.lists i).freeCnt := by omega
    rcases node_cases i with rfl | rfl <;> simp [Rdfs.nvmalloc, hpos, hused, hhead]
  refine ⟨_, hr, h.update (fun q hq => update_of_ne ?_ _ _)
    ⟨hrest.update_of_notMem hpr.1 _, hrep.linkedUsed.push hp0 hpr.2, ?_, ?_⟩ ?_⟩
  · rintro rfl
    exact hq (h.mem_of_free (by rw [hf]; exact mem_cons_self))
  · show (l.lists i).freeCnt - 1 = rest.length
    omega
  · show (l.lists i).usedCnt + 1 = (p :: used i).length
    rw [hrep.usedCnt, length_cons]
    omega
  · rw [hf, cons_append]
    exact perm_middle

end

end AreaInv

/-- The walk finds the node before `addr`. -/
theorem findPre_eq {addr : ℕ} {l' : List ℕ} :
    ∀ {l : List ℕ} {cnt pre : ℕ}, LinkedTo next (next pre) (l ++ addr :: l') → addr ∉ l →
      l.length < cnt → findPre next addr cnt pre (next pre) = some ((pre :: l).getLast (by simp))
  | _, 0, _, _, _, hcnt => absurd hcnt (Nat.not_lt_zero _)
  | [], cnt + 1, pre, h, _, _ => by
    obtain ⟨ha, h0, -⟩ := h
    rw [findPre, ha, if_neg h0, if_pos rfl]
    rfl
  | q :: l, cnt + 1, pre, h, hnot, hcnt => by
    obtain ⟨hq, h0, hl⟩ := h
    obtain ⟨hne, hnot'⟩ := not_or.1 (mem_cons.not.1 hnot)
    rw [findPre, hq, if_neg h0, if_neg (Ne.symm hne), findPre_eq hl hnot' (by simpa using hcnt)]
    simp

/-- The walk ends at the null pointer if `addr` is not in the list. -/
theorem findPre_eq_none {addr : ℕ} : ∀ {l : List ℕ} {cnt pre p : ℕ}, LinkedTo next p l → addr ∉ l →
      findPre next addr cnt pre p = none
  | _, 0, _, _, _, _ => rfl
  | [], cnt + 1, pre, p, h, _ => by
    rw [findPre, if_pos (show p = 0 from h)]
  | q :: l, cnt + 1, pre, p, h, hnot => by
    obtain ⟨rfl, h0, hl⟩ := h
    obtain ⟨hne, hnot'⟩ := not_or.1 (mem_cons.not.1 hnot)
    rw [findPre, if_neg h0, if_neg (Ne.symm hne), findPre_eq_none hl hnot']

namespace AreaInv

variable {l : NvmLists} {free used : Fin 2 → List ℕ} {i : Fin 2} {p : ℕ}

section

variable (h : AreaInv l free used)
include h

/-- The lists with `p` moved to the front of the free areas. -/
theorem freed (hp : p ∈ used i) {head : ℕ} (hn : ∀ q ∉ areasOf i, next q = l.next q)
    (hfree : LinkedTo next p (p :: free i)) (hused : LinkedTo next head ((used i).erase p)) :
    AreaInv ⟨next, Function.update l.lists i ⟨p, head, (l.lists i).freeCnt + 1,
        (l.lists i).usedCnt - 1⟩⟩ (Function.update free i (p :: free i))
      (Function.update used i ((used i).erase p)) := by
  have hrep := h.rep i
  have hlen : ((used i).erase p).length + 1 = (used i).length := length_erase_add_one hp
  refine h.update hn ⟨hfree, hused, ?_, ?_⟩ ?_
  · show (l.lists i).freeCnt + 1 = (p :: free i).length
    rw [hrep.freeCnt, length_cons]
    omega
  · show (l.lists i).usedCnt - 1 = ((used i).erase p).length
    rw [hrep.usedCnt]
    omega
  · rw [cons_append]
    exact perm_middle.symm.trans ((perm_cons_erase hp).symm.append_left _)

theorem notMem_free (hp : p ∈ used i) : p ∉ free i := fun hf =>
  (nodup_append.1 (h.nodup i)).2.2 p hf p hp rfl

/-- `nvfree` of the first area in use. -/
theorem nvfree_head {us : List ℕ} (hu : used i = p :: us) : ∃ l', Rdfs.nvfree l p = some l' ∧
      AreaInv l' (Function.update free i (p :: free i))
        (Function.update used i ((used i).erase p)) := by
  have hp : p ∈ used i := hu ▸ mem_cons_self
  have harea := h.mem_of_used hp
  have hlinked := (h.rep i).linkedUsed
  have hunodup := (nodup_append.1 (h.nodup i)).2.1
  rw [hu] at hlinked hunodup
  obtain ⟨hhead, hp0, hus⟩ := hlinked
  have herase : (used i).erase p = us := by rw [hu, erase_cons_head]
  have hr : Rdfs.nvfree l p = some ⟨Function.update l.next p (l.lists i).freeList,
      Function.update l.lists i ⟨p, l.next p, (l.lists i).freeCnt + 1,
        (l.lists i).usedCnt - 1⟩⟩ := by
    simp only [Rdfs.nvfree, if_neg hp0, nvfreeMode_of_mem harea, hhead, if_true]
  refine ⟨_, hr, h.freed hp (fun q hq => update_of_ne ?_ _ _)
    ((h.rep i).linkedFree.push hp0 (h.notMem_free hp)) ?_⟩
  · rintro rfl
    exact hq harea
  · rw [herase]
    exact hus.update_of_notMem (nodup_cons.1 hunodup).1 _

/-- `nvfree` of an area behind the first one in use, where `pre` is the area before it. -/
theorem nvfree_behind {u : ℕ} {l₁ l₂ : List ℕ} (hu : used i = u :: (l₁ ++ p :: l₂)) (hup : u ≠ p)
    (hl₁ : p ∉ l₁) : ∃ l', Rdfs.nvfree l p = some l' ∧
      AreaInv l' (Function.update free i (p :: free i))
        (Function.update used i ((used i).erase p)) := by
  have hp : p ∈ used i := by simp [hu]
  have harea := h.mem_of_used hp
  have hp0 := ne_zero_of_mem_areasOf harea
  have hlinked := (h.rep i).linkedUsed
  have hunodup := (nodup_append.1 (h.nodup i)).2.1
  rw [hu] at hlinked
  obtain ⟨hhead, hu0, hus⟩ := hlinked
  set pre := (u :: l₁).getLast (by simp) with hpre
  have hinit : (u :: l₁).dropLast ++ [pre] = u :: l₁ := dropLast_append_getLast _
  have hsplit : (u :: l₁).dropLast ++ pre :: p :: l₂ = u :: (l₁ ++ p :: l₂) := by
    rw [append_cons, hinit]
    rfl
  have herase : (used i).erase p = (u :: l₁).dropLast ++ pre :: l₂ := by
    rw [append_cons, hinit, hu, erase_cons_tail (by simpa using hup),
      erase_append_right _ hl₁, erase_cons_head]
    rfl
  have hfind : findPre l.next p areaCount u (l.next u) = some pre := by
    refine findPre_eq hus hl₁ ?_
    have h1 := (h.perm i).length_eq
    have h2 := length_areasOf_le i
    rw [length_append, hu, length_cons, length_append, length_cons] at h1
    omega
  have hr : Rdfs.nvfree l p = some
      ⟨Function.update (Function.update l.next pre (l.next p)) p (l.lists i).freeList,
        Function.update l.lists i ⟨p, u, (l.lists i).freeCnt + 1, (l.lists i).usedCnt - 1⟩⟩ := by
    simp only [Rdfs.nvfree, if_neg hp0, nvfreeMode_of_mem harea, hhead, if_neg hu0, if_neg hup,
      hfind]
  have hpreUsed : pre ∈ used i := by
    rw [hu, ← hsplit]
    simp
  have hpnot : p ∉ (used i).erase p := fun hm => ((Nodup.mem_erase_iff hunodup).1 hm).1 rfl
  refine ⟨_, hr, h.freed hp (fun q hq => ?_)
    (((h.rep i).linkedFree.update_of_notMem (h.notMem_free hpreUsed) _).push hp0
      (h.notMem_free hp)) ?_⟩
  · rw [update_of_ne, update_of_ne]
    · rintro rfl
      exact hq (h.mem_of_used hpreUsed)
    · rintro rfl
      exact hq harea
  · refine LinkedTo.update_of_notMem ?_ hpnot _
    have hlinked' := (h.rep i).linkedUsed
    rw [hu, ← hsplit] at hlinked' hunodup
    rw [herase]
    simpa [hhead] using hlinked'.unlink hunodup

/-- `nvfree` moves an area in use to the front of the free ones. -/
theorem nvfree (hp : p ∈ used i) : ∃ l', Rdfs.nvfree l p = some l' ∧
      AreaInv l' (Function.update free i (p :: free i))
        (Function.update used i ((used i).erase p)) := by
  obtain ⟨u, us, hu⟩ := exists_cons_of_ne_nil (ne_nil_of_mem hp)
  by_cases hup : u = p
  · exact h.nvfree_head (hup ▸ hu)
  · have hmem : p ∈ us := by
      rw [hu] at hp
      exact (mem_cons.1 hp).resolve_left (Ne.symm hup)
    obtain ⟨l₁, l₂, rfl, hl₁⟩ := eq_append_cons_of_mem hmem
    exact h.nvfree_behind hu hup hl₁

theorem usedList_eq_zero : (l.lists i).usedList = 0 ↔ used i = [] := by
  have hlinked := (h.rep i).linkedUsed
  cases hu : used i with
  | nil =>
    rw [hu] at hlinked
    simpa using show (l.lists i).usedList = 0 from hlinked
  | cons u us =>
    rw [hu] at hlinked
    obtain ⟨hhead, hu0, -⟩ := hlinked
    simpa [hhead] using hu0

/-- The head of an empty list of areas in use is the null pointer that `nvfree` follows. -/
theorem nvfree_null (hmode : nvfreeMode p = some i) (hu : used i = []) :
    Rdfs.nvfree l p = none := by
  have hp0 : p ≠ 0 := by
    rintro rfl
    exact absurd hmode (by simp [nvfreeMode, rdfsStart])
  simp only [Rdfs.nvfree, if_neg hp0, hmode, if_pos (h.usedList_eq_zero.2 hu)]

/-- `nvfree` of an address at which no area in use starts. -/
theorem nvfree_unknown (hp : ∀ i, p ∉ used i) (hmode : ∀ i, nvfreeMode p = some i → used i ≠ []) :
    Rdfs.nvfree l p = some l := by
  by_cases hp0 : p = 0
  · rw [Rdfs.nvfree, if_pos hp0]
  cases hm : nvfreeMode p with
  | none => simp only [Rdfs.nvfree, if_neg hp0, hm]
  | some i =>
    obtain ⟨u, us, hu⟩ := exists_cons_of_ne_nil (hmode i hm)
    have hlinked := (h.rep i).linkedUsed
    have hpi := hp i
    rw [hu] at hlinked hpi
    obtain ⟨hhead, hu0, hus⟩ := hlinked
    obtain ⟨hne, hpus⟩ := not_or.1 (mem_cons.not.1 hpi)
    simp only [Rdfs.nvfree, if_neg hp0, hm, hhead, if_neg hu0, if_neg (Ne.symm hne),
      findPre_eq_none hus hpus]

end

end AreaInv

/-! ## The lists after `nvmalloc_init` -/

/-- The loop links up the `r` areas that fit behind `p`. -/
theorem initLoop_spec {size : ℕ} (limit : ℕ) (hs : 0 < size) :
    ∀ (r cnt p : ℕ) (next : ℕ → ℕ) (c : ℤ), p ≠ 0 → r ≤ cnt → p + size * (r + 1) ≤ limit →
      limit < p + size * (r + 2) → (∀ q, p ≤ q → next q = 0) →
      LinkedTo (initLoop size limit cnt p next c).1 p (List.range' p (r + 1) size) ∧
        (initLoop size limit cnt p next c).2 = c + r ∧
        ∀ q, q < p ∨ p + size * r ≤ q → (initLoop size limit cnt p next c).1 q = next q
  | 0, cnt, p, next, c, h0, _, _, hlim, hnext => by
    have hstop : initLoop size limit cnt p next c = (next, c) := by
      cases cnt with
      | zero => rfl
      | succ cnt =>
        rw [initLoop, if_neg]
        omega
    rw [hstop]
    exact ⟨⟨rfl, h0, hnext p le_rfl⟩, by simp, fun _ _ => rfl⟩
  | r + 1, 0, p, next, c, _, hcnt, _, _, _ => absurd hcnt (by omega)
  | r + 1, cnt + 1, p, next, c, h0, hcnt, hle, hlim, hnext => by
    have e1 : size * (r + 1 + 1) = size * (r + 1) + size := Nat.mul_succ _ _
    have e2 : size * (r + 1 + 2) = size * (r + 2) + size := Nat.mul_succ _ (r + 2)
    have e3 : size * (r + 1) = size * r + size := Nat.mul_succ _ _
    have hmore : p + size + size - 1 < limit := by omega
    obtain ⟨h1, h2, h3⟩ := initLoop_spec limit hs r cnt (p + size)
      (Function.update next p (p + size)) (c + 1) (by omega) (by omega) (by omega) (by omega)
      fun q hq => by rw [update_of_ne (by omega), hnext q (by omega)]
    rw [initLoop, if_pos hmore]
    refine ⟨⟨rfl, h0, ?_⟩, by omega, fun q hq => ?_⟩
    · rw [h3 p (Or.inl (by omega)), update_self]
      exact h1
    · rw [h3 q (by omega), update_of_ne (by omega)]

/-- After `nvmalloc_init` all areas are free. -/
theorem areaInv_nvmallocInit : AreaInv nvmallocInit areasOf fun _ => [] := by
  obtain ⟨hdir, hdirCnt, hdirNext⟩ := initLoop_spec _ (show 0 < maxDirSize by decide) (2 ^ 14 - 1)
    (dirAreaSize / maxDirSize) rdfsStart (fun _ => 0) 1 (by decide) (by decide)
    (show _ ≤ rdfsStart + dirAreaSize by decide) (by decide) fun _ _ => rfl
  obtain ⟨hreg, hregCnt, hregNext⟩ := initLoop_spec _ (show 0 < maxFileSize by decide) 957
    ((rdfsEnd - (rdfsStart + dirAreaSize)) / maxFileSize) (rdfsStart + dirAreaSize) _ 1 (by decide)
    (by decide) (show _ ≤ rdfsEnd by decide) (by decide)
    fun q hq => hdirNext q (Or.inr (le_trans (by decide) hq))
  have hregAreas : List.range' (rdfsStart + dirAreaSize) (957 + 1) maxFileSize = areasOf 0 := by
    rw [areasOf, if_pos rfl, regAreas]
    rfl
  have hdirAreas : List.range' rdfsStart (2 ^ 14 - 1 + 1) maxDirSize = areasOf 1 := by
    rw [areasOf, if_neg (by decide), dirAreas]
    rfl
  have hregLen : (areasOf 0).length = 957 + 1 := by rw [← hregAreas, length_range']
  have hdirLen : (areasOf 1).length = 2 ^ 14 - 1 + 1 := by rw [← hdirAreas, length_range']
  rw [hregAreas] at hreg
  rw [hdirAreas] at hdir
  have hin : ∀ q ∈ areasOf 1, q < rdfsStart + dirAreaSize := fun q hq => by
    have := (inDirArea_of_mem (v := q) hq).1.2
    unfold maxDirSize at this
    omega
  simp only [nvmallocInit]
  generalize initLoop maxDirSize _ _ rdfsStart _ 1 = dir at *
  generalize initLoop maxFileSize _ _ _ dir.1 1 = reg at *
  refine ⟨fun i => ?_, fun i => by simp⟩
  rcases node_cases i with rfl | rfl
  · exact AreaRep.fresh hreg (by omega)
  · exact AreaRep.fresh (hdir.congr fun q hq => hregNext q (Or.inl (hin q hq))) (by omega)

/-! ## Runs -/

/-- Runs of `nvmalloc` and `nvfree` from `nvmalloc_init` on; `out` are the areas of each mode that
have been handed out and not been freed. -/
inductive AreaRun : NvmLists → (Fin 2 → List ℕ) → Prop
  | init : AreaRun nvmallocInit fun _ => []
  | take {l : NvmLists} {out : Fin 2 → List ℕ} (h : AreaRun l out) (i : Fin 2) :
      AreaRun (nvmalloc (i : ℕ) l).2 (if (nvmalloc (i : ℕ) l).1 = 0 then out
        else Function.update out i ((nvmalloc (i : ℕ) l).1 :: out i))
  | give {l l' : NvmLists} {out : Fin 2 → List ℕ} {i : Fin 2} {p : ℕ} (h : AreaRun l out)
      (hp : p ∈ out i) (hr : nvfree l p = some l') :
      AreaRun l' (Function.update out i ((out i).erase p))

/-- The areas handed out are the areas in use. -/
theorem AreaRun.inv {out : Fin 2 → List ℕ} (h : AreaRun l out) : ∃ free, AreaInv l free out := by
  induction h with
  | init => exact ⟨areasOf, areaInv_nvmallocInit⟩
  | @take l out _ i ih =>
    obtain ⟨free, ih⟩ := ih
    cases hf : free i with
    | nil =>
      rw [ih.nvmalloc_none hf, if_pos rfl]
      exact ⟨free, ih⟩
    | cons p rest =>
      obtain ⟨l', hr, hinv⟩ := ih.nvmalloc hf
      have hp := ne_zero_of_mem_areasOf (ih.mem_of_free (hf ▸ mem_cons_self))
      rw [hr, if_neg hp]
      exact ⟨_, hinv⟩
  | give _ hp hr ih =>
    obtain ⟨free, ih⟩ := ih
    obtain ⟨l'', hr', hinv⟩ := ih.nvfree hp
    obtain rfl : _ = l'' := some_inj.1 (hr.symm.trans hr')
    exact ⟨_, hinv⟩

/-! ## Calls with any argument -/

/-- The lists after calls of `nvmalloc` with any mode and of `nvfree` with any address that have
all returned. -/
inductive AreaReached : NvmLists → Prop
  | init : AreaReached nvmallocInit
  | nvmalloc {l : NvmLists} (h : AreaReached l) (mode : ℤ) : AreaReached (nvmalloc mode l).2
  | nvfree {l l' : NvmLists} (h : AreaReached l) (addr : ℕ) (hr : nvfree l addr = some l') :
      AreaReached l'

/-- `nvfree(addr)` returns, and it has moved the area in use that starts at `addr` to the free
list of its mode or, if there is none, changed nothing. -/
def Frees (l : NvmLists) (free used : Fin 2 → List ℕ) (addr : ℕ) : Prop :=
  ∃ l', nvfree l addr = some l' ∧
    ((∃ i, addr ∈ used i ∧ AreaInv l' (Function.update free i (addr :: free i))
        (Function.update used i ((used i).erase addr))) ∨
      (∀ i, addr ∉ used i) ∧ l' = l)

section

variable {free used : Fin 2 → List ℕ} (h : AreaInv l free used)
include h

/-- What a call of `nvfree` does. -/
theorem AreaInv.nvfree_cases (addr : ℕ) :
    (∃ i, nvfreeMode addr = some i ∧ used i = [] ∧ Rdfs.nvfree l addr = none) ∨
      (∀ i, nvfreeMode addr = some i → used i ≠ []) ∧ Frees l free used addr := by
  by_cases hmode : ∀ i, nvfreeMode addr = some i → used i ≠ []
  · refine Or.inr ⟨hmode, ?_⟩
    by_cases hp : ∃ i, addr ∈ used i
    · obtain ⟨i, hi⟩ := hp
      obtain ⟨l', hr, hinv⟩ := h.nvfree hi
      exact ⟨l', hr, Or.inl ⟨i, hi, hinv⟩⟩
    · have hp' : ∀ i, addr ∉ used i := fun i hi => hp ⟨i, hi⟩
      exact ⟨l, h.nvfree_unknown hp' hmode, Or.inr ⟨hp', rfl⟩⟩
  · push Not at hmode
    obtain ⟨i, hm, hu⟩ := hmode
    exact Or.inl ⟨i, hm, hu, h.nvfree_null hm hu⟩

theorem AreaInv.nvmalloc_any (mode : ℤ) :
    ∃ free' used', AreaInv (Rdfs.nvmalloc mode l).2 free' used' := by
  by_cases hm : mode = 0 ∨ mode = 1
  · obtain ⟨i, rfl⟩ : ∃ i : Fin 2, mode = (i : ℕ) := by
      rcases hm with rfl | rfl
      · exact ⟨0, rfl⟩
      · exact ⟨1, rfl⟩
    cases hf : free i with
    | nil =>
      rw [h.nvmalloc_none hf]
      exact ⟨free, used, h⟩
    | cons p rest =>
      obtain ⟨l', hr, hinv⟩ := h.nvmalloc hf
      rw [hr]
      exact ⟨_, _, hinv⟩
  · rw [Rdfs.nvmalloc, if_neg hm]
    exact ⟨free, used, h⟩

end

/-- The lists stay lists of the areas, whatever the calls. -/
theorem AreaReached.inv (h : AreaReached l) : ∃ free used, AreaInv l free used := by
  induction h with
  | init => exact ⟨areasOf, fun _ => [], areaInv_nvmallocInit⟩
  | nvmalloc _ mode ih =>
    obtain ⟨free, used, ih⟩ := ih
    exact ih.nvmalloc_any mode
  | nvfree _ addr hr ih =>
    obtain ⟨free, used, ih⟩ := ih
    obtain ⟨i, -, -, hnull⟩ | ⟨-, l', hr', hfreed⟩ := ih.nvfree_cases addr
    · exact absurd (hr.symm.trans hnull) (by simp)
    · obtain rfl := some_inj.1 (hr.symm.trans hr')
      rcases hfreed with ⟨i, -, hinv⟩ | ⟨-, rfl⟩
      · exact ⟨_, _, hinv⟩
      · exact ⟨free, used, ih⟩

/-- After any calls, `nvfree(addr)` frees the area in use at `addr` or leaves the lists as they
are, exactly if the mode it finds for the address has an area in use. -/
theorem AreaReached.nvfree_iff {l : NvmLists} (h : AreaReached l) :
    ∃ free used, AreaInv l free used ∧ ∀ addr, Frees l free used addr ↔
      ∀ i, nvfreeMode addr = some i → (l.lists i).usedCnt ≠ 0 := by
  obtain ⟨free, used, hinv⟩ := h.inv
  have hcnt : ∀ i, (l.lists i).usedCnt ≠ 0 ↔ used i ≠ [] := fun i => by
    rw [(hinv.rep i).usedCnt, Ne, Int.natCast_eq_zero, length_eq_zero_iff]
  refine ⟨free, used, hinv, fun addr => ?_⟩
  simp only [hcnt]
  obtain ⟨i, hmode, hu, hnull⟩ | ⟨hmode, hfrees⟩ := hinv.nvfree_cases addr
  · refine iff_of_false ?_ fun hne => hne i hmode hu
    rintro ⟨l', hr, -⟩
    exact absurd (hr.symm.trans hnull) (by simp)
  · exact iff_of_true hfrees hmode

/-- Once a regular file has an area, freeing an address that is no area changes nothing. -/
theorem AreaReached.nvfree_iff_inside : ∃ l free used, AreaReached l ∧ AreaInv l free used ∧
    Frees l free used (rdfsStart + dirAreaSize + 1) := by
  have h := AreaReached.init.nvmalloc 0
  obtain ⟨l, hr, hused⟩ := areaInv_nvmallocInit.nvmalloc (i := 0) (rfl)
  rw [show Rdfs.nvmalloc 0 nvmallocInit = _ from hr] at h
  obtain ⟨free, used, hinv, hiff⟩ := h.nvfree_iff
  refine ⟨l, free, used, h, hinv, (hiff _).2 fun i hi => ?_⟩
  obtain rfl : 0 = i := some_inj.1 (Eq.trans (by decide) hi)
  rw [(hused.rep 0).usedCnt]
  simp

/-- No area is in use after `nvmalloc_init` : freeing the first address of the directories follows
a null pointer. -/
theorem nvfree_follows_null : ∃ l, AreaReached l ∧ (∀ i, (l.lists i).usedCnt = 0) ∧
    nvfree l rdfsStart = none ∧ ∀ free used, ¬Frees l free used rdfsStart := by
  have hinv := areaInv_nvmallocInit
  have hnull := hinv.nvfree_null (show nvfreeMode rdfsStart = some 1 by decide) rfl
  refine ⟨_, .init, fun i => (hinv.rep i).usedCnt, hnull, ?_⟩
  rintro free used ⟨l', hr, -⟩
  exact absurd (hr.symm.trans hnull) (by simp)

end Rdfs
