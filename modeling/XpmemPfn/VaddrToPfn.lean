import XpmemPfn.Geometry

/-!
# Looking up a frame: `xpmem_vaddr_to_PFN`

`xpmem_vaddr_to_pte_offset` walks the page table of `vaddr` and stops at the
first missing entry, at a huge PUD or PMD leaf, or at the PTE. For a huge
leaf `xpmem_hugetlb_pte` finds the VMA and sets `*offset` to the offset of
`vaddr` inside the huge page, taking the page size from the hstate of a
hugetlb VMA and `HPAGE_PMD_SIZE` otherwise (the `CONFIG_TRANSPARENT_HUGEPAGE`
branch). `xpmem_vaddr_to_PFN` adds the pages of that offset to the leaf's
frame.

`leafOf` walks the same table by the words of the specification: the leaf
and the size of the region it maps. Where the huge page size the VMA gives
is the leaf's own size (a base PTE, a transparent huge PMD leaf, a hugetlb
leaf of its hstate's size) the frame is the one the leaf maps `vaddr` to.
Elsewhere the offset is taken within the wrong size: a PUD-level leaf outside
hugetlb is offset within `PMD_SIZE` instead of `PUD_SIZE`, and a PMD block of
an arm64 contiguous-PMD hugetlb page within the whole hstate size instead of
`PMD_SIZE`.
-/

namespace XpmemPfn.VaddrToPfn

/-- A page-table entry as the walk reads it. -/
structure Entry where
  /-- `pXd_present`. -/
  present : Bool
  /-- `pud_is_huge` / `pmd_is_huge`: a leaf mapping its whole block. -/
  huge : Bool
  /-- `pte_pfn` of the entry read as a PTE: the first frame it maps. -/
  pfn : ℕ
  deriving DecidableEq, Repr

/-- What `find_vma` reports about the VMA of an address. -/
structure Vma where
  /-- For a hugetlb VMA, `huge_page_shift(hstate_vma(vma))`. -/
  hugetlb : Option (Fin 64)
  deriving DecidableEq, Repr

/-- The shift of the huge page size `xpmem_hugetlb_pte` uses: the hstate's
for a hugetlb VMA, `HPAGE_PMD_SHIFT` for a transparent huge page. -/
def Vma.pageShift (g : Geometry) (vma : Vma) : ℕ :=
  match vma.hugetlb with
  | some shift => shift
  | none => g.pmdShift

theorem Vma.pageShift_le (g : Geometry) (vma : Vma) : vma.pageShift g ≤ 64 := by
  unfold Vma.pageShift
  cases vma.hugetlb with
  | some shift => exact Nat.le_of_lt shift.isLt
  | none => exact Nat.le_of_lt (g.shift_lt .pmd)

/-- The address space: its page table, an entry of level `l` indexed by its
block number, and `find_vma`. -/
structure Mm where
  entry : Level → ℕ → Entry
  findVma : ℕ → Option Vma

variable (g : Geometry) (mm : Mm)

/-- The level-`l` entry on the walk of `vaddr`. -/
def Mm.walk (l : Level) (vaddr : ℕ) : Entry := mm.entry l (vaddr / g.size l)

/-- `xpmem_hugetlb_pte(pte, mm, vaddr, &offset)`: the leaf and `*offset`.
The `pte_none` test on a present leaf never fires and is left out. -/
def xpmemHugetlbPte (pte : Entry) (vaddr : ℕ) : Option (Entry × ℕ) :=
  match mm.findVma vaddr with
  | none => none
  | some vma =>
    let pageSize := 2 ^ vma.pageShift g
    some (pte, (vaddr &&& (pageSize - 1)) &&& g.pageMask)

/-- `xpmem_vaddr_to_pte_offset(mm, vaddr, &offset)`: the entry found and
`*offset`, `none` for `NULL`. -/
def xpmemVaddrToPteOffset (vaddr : ℕ) : Option (Entry × ℕ) :=
  if !(mm.walk g .pgd vaddr).present then none
  else if !(mm.walk g .p4d vaddr).present then none
  else if !(mm.walk g .pud vaddr).present then none
  else if (mm.walk g .pud vaddr).huge then xpmemHugetlbPte g mm (mm.walk g .pud vaddr) vaddr
  else if !(mm.walk g .pmd vaddr).present then none
  else if (mm.walk g .pmd vaddr).huge then xpmemHugetlbPte g mm (mm.walk g .pmd vaddr) vaddr
  else if !(mm.walk g .pte vaddr).present then none
  else some (mm.walk g .pte vaddr, 0)

/-- `xpmem_vaddr_to_PFN(mm, vaddr)`. -/
def xpmemVaddrToPFN (vaddr : ℕ) : ℕ :=
  match xpmemVaddrToPteOffset g mm vaddr with
  | none => 0
  | some (pte, offset) => pte.pfn + (offset >>> g.pageShift)

/-- The present leaf the walk of `vaddr` reaches and its level, by the
specification: a huge PUD leaf, a huge PMD leaf or a base PTE. -/
def leafOf (vaddr : ℕ) : Option (Entry × Level) :=
  if (mm.walk g .pgd vaddr).present && (mm.walk g .p4d vaddr).present &&
      (mm.walk g .pud vaddr).present then
    if (mm.walk g .pud vaddr).huge then some (mm.walk g .pud vaddr, .pud)
    else if (mm.walk g .pmd vaddr).present then
      if (mm.walk g .pmd vaddr).huge then some (mm.walk g .pmd vaddr, .pmd)
      else if (mm.walk g .pte vaddr).present then some (mm.walk g .pte vaddr, .pte)
      else none
    else none
  else none

/-- The frame a leaf mapping `size` bytes maps `vaddr` to. -/
def mapsTo (e : Entry) (size vaddr : ℕ) : ℕ := e.pfn + vaddr % size / g.pageSize

/-- The offset `xpmem_hugetlb_pte` computes is `vaddr` modulo the huge page
size, rounded down to a page. -/
theorem hugeOffset_shiftRight {s : ℕ} (hs : s ≤ 64) (vaddr : ℕ) :
    ((vaddr &&& (2 ^ s - 1)) &&& g.pageMask) >>> g.pageShift = vaddr % 2 ^ s / g.pageSize := by
  have hlt : vaddr % 2 ^ s < 2 ^ 64 :=
    Nat.lt_of_lt_of_le (Nat.mod_lt _ (Nat.two_pow_pos s)) (Nat.pow_le_pow_right (by decide) hs)
  rw [Nat.and_pow_two_sub_one_eq_mod, g.and_pageMask hlt, Nat.shiftRight_eq_div_pow]
  exact Nat.mul_div_cancel _ g.pageSize_pos

/-- A huge leaf's frame plus the pages of the offset within the VMA's huge
page size. -/
theorem xpmemHugetlbPte_pfn (e : Entry) (vaddr : ℕ) :
    ((xpmemHugetlbPte g mm e vaddr).map fun p => p.1.pfn + (p.2 >>> g.pageShift)) =
      (mm.findVma vaddr).map fun vma => mapsTo g e (2 ^ vma.pageShift g) vaddr := by
  unfold xpmemHugetlbPte
  cases mm.findVma vaddr with
  | none => rfl
  | some vma =>
    simp only [Option.map_some', mapsTo, hugeOffset_shiftRight g (vma.pageShift_le g)]

/-- What `xpmem_vaddr_to_PFN` computes, in the terms of the specification: 0
without a leaf, the frame of a base PTE, and for a huge leaf in a VMA the
frame it maps `vaddr` to within the VMA's huge page size. -/
theorem xpmemVaddrToPFN_eq (vaddr : ℕ) :
    xpmemVaddrToPFN g mm vaddr =
      match leafOf g mm vaddr with
      | none => 0
      | some (e, .pte) => e.pfn
      | some (e, _) => ((mm.findVma vaddr).map fun vma => mapsTo g e (2 ^ vma.pageShift g) vaddr).getD 0 := by
  have hh := xpmemHugetlbPte_pfn g mm
  unfold xpmemVaddrToPFN xpmemVaddrToPteOffset leafOf
  cases (mm.walk g .pgd vaddr).present <;> cases (mm.walk g .p4d vaddr).present <;>
    cases (mm.walk g .pud vaddr).present <;> simp only [Bool.not_true, Bool.not_false,
      Bool.and_true, Bool.and_false, Bool.false_eq_true, if_true, if_false]
  cases hpud : (mm.walk g .pud vaddr).huge
  · cases (mm.walk g .pmd vaddr).present <;> simp only [Bool.not_true, Bool.not_false,
      Bool.false_eq_true, if_true, if_false]
    cases hpmd : (mm.walk g .pmd vaddr).huge
    · cases (mm.walk g .pte vaddr).present <;> simp [Nat.zero_shiftRight]
    · simp only [if_true, ← hh]
      cases xpmemHugetlbPte g mm (mm.walk g .pmd vaddr) vaddr <;> rfl
  · simp only [if_true, ← hh]
    cases xpmemHugetlbPte g mm (mm.walk g .pud vaddr) vaddr <;> rfl

/-- Without a present leaf on the walk `xpmem_vaddr_to_PFN` returns 0; at a
base PTE, and at a huge leaf whose VMA's huge page size is the leaf's size
(a transparent huge PMD leaf, or a hugetlb leaf of its hstate's size), it
returns the frame the leaf maps `vaddr` to. -/
theorem vaddr_to_PFN_maps_leaf (vaddr : ℕ) :
    (leafOf g mm vaddr = none → xpmemVaddrToPFN g mm vaddr = 0) ∧
    ∀ e l, leafOf g mm vaddr = some (e, l) →
      (l = .pte ∨ ∃ vma, mm.findVma vaddr = some vma ∧ vma.pageShift g = g.shift l) →
      xpmemVaddrToPFN g mm vaddr = mapsTo g e (g.size l) vaddr := by
  refine ⟨fun h => by rw [xpmemVaddrToPFN_eq, h], fun e l h hl => ?_⟩
  rw [xpmemVaddrToPFN_eq, h]
  rcases hl with rfl | ⟨vma, hv, hs⟩
  · simp [mapsTo, Nat.div_eq_of_lt (Nat.mod_lt vaddr g.pageSize_pos)]
  · have hsize : 2 ^ vma.pageShift g = g.size l := by rw [hs]; rfl
    cases l <;> simp [hv, hsize, mapsTo, Nat.div_eq_of_lt (Nat.mod_lt vaddr g.pageSize_pos)]

/-- Every entry present, the PUD entry a huge leaf of frame 0 mapping 1 GiB,
in a VMA outside hugetlb: a device-DAX mapping with 1 GiB alignment. -/
def pudThp : Mm := ⟨fun l _ => ⟨true, decide (l = .pud), 0⟩, fun _ => some ⟨none⟩⟩

/-- On x86-64, 2 MiB into that leaf the walk reaches the PUD leaf, which maps
the address to frame `0x200`, but `xpmem_vaddr_to_PFN` takes the offset
within `HPAGE_PMD_SIZE` and returns frame 0. -/
theorem vaddr_to_PFN_pud_thp_offset :
    leafOf Geometry.x86_64 pudThp 0x200000 = some (⟨true, true, 0⟩, .pud) ∧
      pudThp.findVma 0x200000 = some ⟨none⟩ ∧
      xpmemVaddrToPFN Geometry.x86_64 pudThp 0x200000 = 0 ∧
      mapsTo Geometry.x86_64 ⟨true, true, 0⟩ (Geometry.x86_64.size .pud) 0x200000 = 0x200 := by
  decide

/-- arm64 with 4 KiB pages: a 32 MiB hugetlb page is sixteen contiguous PMD
block entries, each holding the first frame of its own 2 MiB. -/
def contPmd : Mm :=
  ⟨fun l i => ⟨true, decide (l = .pmd), if l = .pmd then i * 512 else 0⟩, fun _ => some ⟨some 25⟩⟩

/-- 4 KiB into the second block the walk reaches its PMD entry, which maps
the address to frame 513, but `xpmem_vaddr_to_PFN` takes the offset within
the 32 MiB hstate size and returns frame 1025. -/
theorem vaddr_to_PFN_cont_pmd_offset :
    leafOf Geometry.arm64 contPmd 0x201000 = some (⟨true, true, 512⟩, .pmd) ∧
      contPmd.findVma 0x201000 = some ⟨some 25⟩ ∧
      xpmemVaddrToPFN Geometry.arm64 contPmd 0x201000 = 1025 ∧
      mapsTo Geometry.arm64 ⟨true, true, 512⟩ (Geometry.arm64.size .pmd) 0x201000 = 513 := by
  decide

end XpmemPfn.VaddrToPfn
