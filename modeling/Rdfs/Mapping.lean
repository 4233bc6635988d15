import Rdfs.PageTable
import Rdfs.SlaveMemory

/-!
# Blocks in the kernel's address space

An open file has a virtual area of the kernel (`nvmalloc`), and the kernel's page table leads
from there into the table of the inode (`nvmap`) : for a regular file at the level of `pud`,
one entry for each gigabyte, for a directory at the level of `pmd`. `KernelMap` is that part
of the kernel's page table, `translate` is the walk the processor makes, and
`rdfsSearchMetadata` reads an entry of a regular file through it. `rdfsInsertPage` enters a
block in the table of the inode and in the kernel's.
-/

namespace Rdfs

/-! ## The kernel's page table -/

/-- The entries of the kernel's page table for the areas of `nvmalloc`, of level `pud` by
gigabyte and of level `pmd` by two megabytes. Where `pud` has no entry, the kernel's own table
of level `pmd` applies. -/
structure KernelMap where
  pud : ℕ → ℕ
  pmd : ℕ → ℕ

/-- The entry of level `pud` for `addr` set. -/
def KernelMap.setPud (k : KernelMap) (addr e : ℕ) : KernelMap :=
  { k with pud := Function.update k.pud (addr >>> 30) e }

/-- The entry of level `pmd` for `addr` set. -/
def KernelMap.setPmd (k : KernelMap) (addr e : ℕ) : KernelMap :=
  { k with pmd := Function.update k.pmd (addr >>> 21) e }

section

variable (k : KernelMap) (addr e : ℕ)
include k addr e

@[simp] theorem KernelMap.setPud_pmd : (k.setPud addr e).pmd = k.pmd := rfl

@[simp] theorem KernelMap.setPmd_pud : (k.setPmd addr e).pud = k.pud := rfl

theorem KernelMap.setPud_pud (g : ℕ) :
    (k.setPud addr e).pud g = if g = addr >>> 30 then e else k.pud g :=
  Function.update_apply _ _ _ _

theorem KernelMap.setPmd_pmd (g : ℕ) :
    (k.setPmd addr e).pmd g = if g = addr >>> 21 then e else k.pmd g :=
  Function.update_apply _ _ _ _

end

/-- The physical address the processor finds for a virtual one, `none` for a page fault. -/
def translate (k : KernelMap) (m : Mem) (addr : ℕ) : Option ℕ :=
  let pud := k.pud (addr >>> 30)
  let pmd := if pud = 0 then k.pmd (addr >>> 21)
    else m.load 8 ((pud &&& physMask) + 8 * pmdIndex addr)
  if pmd = 0 then none
  else
    let pte := m.load 8 ((pmd &&& physMask) + 8 * pteIndex addr)
    if pte = 0 then none else some ((pte &&& physMask) + addr % 4096)

/-- `nvmap_pmd`. -/
def nvmapPmd (sb : Super) (k : KernelMap) (addr ppmd : ℕ) : KernelMap :=
  if addr = 0 then k else k.setPud addr (rdfsPa sb ppmd ||| pageTable)

/-- `nvmap_dir`. -/
def nvmapDir (sb : Super) (m : Mem) (k : KernelMap) (addr ppud : ℕ) : KernelMap :=
  k.setPmd addr (rdfsPa sb (rdfsGetPte sb m (rdfsGetPmd sb m ppud)) ||| pageTable)

/-- `pud_addr_end` : the next gigabyte, `stop` at most. -/
def pudAddrEnd (addr stop : ℕ) : ℕ :=
  let boundary := (addr + 2 ^ 30) / 2 ^ 30 * 2 ^ 30
  if boundary - 1 < stop - 1 then boundary else stop

/-- The loop of `nvmap_file`, for at most `cnt` entries. -/
def nvmapFileLoop (sb : Super) (m : Mem) (stop : ℕ) : ℕ → ℕ → ℕ → KernelMap → KernelMap
  | 0, _, _, k => k
  | cnt + 1, addr, ppud, k =>
    let k := k.setPud addr (rdfsPa sb (rdfsGetPmd sb m ppud) ||| pageTable)
    if deref sb m (ppud + 8) = 0 then k
    else nvmapFileLoop sb m stop cnt (pudAddrEnd addr stop) (ppud + 8) k

/-- `nvmap_file` : the kernel's entries for all gigabytes of a regular file. The loop ends at
the first empty entry of the table, and a table page has 512 entries. -/
def nvmapFile (sb : Super) (m : Mem) (k : KernelMap) (addr ppud : ℕ) : KernelMap :=
  nvmapFileLoop sb m (addr + maxFileSize - 1) 512 addr ppud k

/-- `nvmap`. -/
def nvmap (sb : Super) (m : Mem) (k : KernelMap) (addr ppud : ℕ) : ℤ × KernelMap :=
  if addr = 0 ∨ ppud = 0 then (-1, k)
  else if InDirArea addr then (0, nvmapDir sb m k addr ppud)
  else if rdfsStart + dirAreaSize ≤ addr ∧ addr < rdfsEnd then (0, nvmapFile sb m k addr ppud)
  else (-1, k)

/-- The loop of `unnvmap_file`, for at most `cnt` entries. -/
def unnvmapFileLoop (sb : Super) (m : Mem) (stop : ℕ) : ℕ → ℕ → ℕ → KernelMap → KernelMap
  | 0, _, _, k => k
  | cnt + 1, addr, ppud, k =>
    if deref sb m ppud = 0 then k
    else unnvmapFileLoop sb m stop cnt (pudAddrEnd addr stop) (ppud + 8) (k.setPud addr 0)

/-- `unnvmap_file`. -/
def unnvmapFile (sb : Super) (m : Mem) (k : KernelMap) (addr ppud : ℕ) : KernelMap :=
  unnvmapFileLoop sb m (addr + maxFileSize - 1) 512 addr ppud k

/-- `unnvmap`. -/
def unnvmap (sb : Super) (m : Mem) (k : KernelMap) (addr ppud : ℕ) : ℤ × KernelMap :=
  if ppud = 0 then (0, k)
  else if addr = 0 then (-1, k)
  else if InDirArea addr then (0, k.setPmd addr 0)
  else if rdfsStart + dirAreaSize ≤ addr ∧ addr < rdfsEnd then (0, unnvmapFile sb m k addr ppud)
  else (-1, k)

/-! ## Entering and reading blocks -/

/-- `rdfs_insert_page` : `phys` becomes block `blocks - 1` of the inode `ino` whose virtual
area starts at `addr`. -/
def rdfsInsertPage (sb : Super) (cpu : ℕ) (st : Nvm) (k : KernelMap) (ino addr blocks phys : ℕ) :
    ℤ × Nvm × KernelMap :=
  let offset := (blocks - 1) <<< 12
  let newAddr := (addr + offset) % 2 ^ 64
  let pud := rdfsPudAlloc sb st.mem ino offset
  if pud = 0 then (-1, st, k)
  else
    let pmd := rdfsPmdAlloc sb cpu st pud newAddr
    let k := if deref sb st.mem pud = 0 then
        nvmapPmd sb k newAddr (rdfsGetPmd sb pmd.2.mem pud)
      else k
    if pmd.1 = 0 then (-1, pmd.2, k)
    else
      let pte := rdfsPteAlloc sb cpu pmd.2 pmd.1 newAddr
      if pte.1 = 0 then (-1, pte.2, k)
      else (0, { pte.2 with mem := rdfsSetPte sb pte.2.mem pte.1 phys }, k)

theorem rdfsInsertPage_ret (sb : Super) (cpu : ℕ) (st : Nvm) (k : KernelMap)
    (ino addr blocks phys : ℕ) : (rdfsInsertPage sb cpu st k ino addr blocks phys).1 = 0 ∨
      (rdfsInsertPage sb cpu st k ino addr blocks phys).1 = -1 := by
  simp only [rdfsInsertPage]
  split_ifs <;> simp

/-- `rdfs_insert_page` once the entries on all levels have been found. -/
theorem rdfsInsertPage_eq {sb : Super} {cpu : ℕ} {st st₁ st₂ : Nvm} {ino addr blocks : ℕ}
    {pud pmd pte newAddr : ℕ} (hnew : (addr + (blocks - 1) <<< 12) % 2 ^ 64 = newAddr)
    (hpud : rdfsPudAlloc sb st.mem ino ((blocks - 1) <<< 12) = pud)
    (hpmd : rdfsPmdAlloc sb cpu st pud newAddr = (pmd, st₁))
    (hpte : rdfsPteAlloc sb cpu st₁ pmd newAddr = (pte, st₂)) (hpud0 : pud ≠ 0) (hpmd0 : pmd ≠ 0)
    (hpte0 : pte ≠ 0) (k : KernelMap) (phys : ℕ) : rdfsInsertPage sb cpu st k ino addr blocks phys =
      (0, { st₂ with mem := rdfsSetPte sb st₂.mem pte phys },
        if deref sb st.mem pud = 0 then nvmapPmd sb k newAddr (rdfsGetPmd sb st₁.mem pud)
        else k) := by
  simp only [rdfsInsertPage, hnew, hpud, if_neg hpud0, hpmd, if_neg hpmd0, hpte, if_neg hpte0]

/-- `SLAVE_ID_MASK`. -/
def slaveIdMask : ℕ := 0xFFF0000000000000

/-- `BLOCK_ID_MASK`. -/
def blockIdMask : ℕ := 0x000FFFFFFFFFF000

/-- The pte value `rdfs_new_page_pte` stores for a block of a slave. -/
def pteValue (sId blockId : ℕ) : ℕ := (sId <<< 52 ||| blockId <<< 12) % 2 ^ 64

/-- The slave and the block `rdfs_search_metadata` reads out of a pte value. -/
def decodePte (pteValue : ℕ) : ℕ × ℕ :=
  ((pteValue &&& slaveIdMask) >>> 52, (pteValue &&& blockIdMask) >>> 12)

theorem decodePte_eq (w : ℕ) : decodePte w = (w / 2 ^ 52 % 2 ^ 12, w / 2 ^ 12 % 2 ^ 40) := by
  have hs : slaveIdMask >>> 52 = 2 ^ 12 - 1 := by decide
  have hb : blockIdMask >>> 12 = 2 ^ 40 - 1 := by decide
  rw [decodePte, Nat.shiftRight_and_distrib, Nat.shiftRight_and_distrib, hs, hb,
    Nat.and_two_pow_sub_one_eq_mod, Nat.and_two_pow_sub_one_eq_mod, Nat.shiftRight_eq_div_pow,
    Nat.shiftRight_eq_div_pow]

theorem decodePte_lt (w : ℕ) : (decodePte w).1 < 2 ^ 12 ∧ (decodePte w).2 < 2 ^ 40 := by
  rw [decodePte_eq]
  exact ⟨Nat.mod_lt _ (by decide), Nat.mod_lt _ (by decide)⟩

/-- `rdfs_search_metadata` : `*s_id` and `*block_id`, `none` for a page fault. -/
def rdfsSearchMetadata (k : KernelMap) (m : Mem) (iVirtAddr offset : ℕ) : Option (ℕ × ℕ) :=
  (translate k m (iVirtAddr + offset / 4096 * 8)).map fun pa => decodePte (m.load 8 pa)

end Rdfs
