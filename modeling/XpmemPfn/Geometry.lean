import Mathlib.Algebra.Group.Nat.Basic

/-!
# Page geometry and u64 address arithmetic

Addresses, sizes and masks in `xpmem_pfn.c` are `u64`: natural numbers below
`2^64` whose sums wrap, written here with an explicit `% 2^64`. The shifts of
the page-table levels come from the architecture headers, which the source
does not contain; a `Geometry` carries them with the ordering every
supported architecture satisfies, so each result holds for all of them.
`PAGE_MASK`-style masking is reduced once to division, for every caller.
-/

namespace XpmemPfn

/-- Wrap a natural number to the `u64` range, as unsigned addition does. -/
def u64 (x : ℕ) : ℕ := x % 2 ^ 64

/-- Bitwise complement `~x` of a `u64` value. -/
def u64Not (x : ℕ) : ℕ := 2 ^ 64 - 1 - x

/-- Unsigned `x - y` of two `u64` values. -/
def u64Sub (x y : ℕ) : ℕ := u64 (x + 2 ^ 64 - y)

/-- `u64` values stay below `2^64`. -/
theorem u64_lt (x : ℕ) : u64 x < 2 ^ 64 := Nat.mod_lt _ (Nat.two_pow_pos 64)

/-- Wrapping is the identity on values already in range. -/
theorem u64_of_lt {x : ℕ} (h : x < 2 ^ 64) : u64 x = x := Nat.mod_eq_of_lt h

/-- Wrapping keeps the remainder by a divisor of `2^64`. -/
theorem u64_mod_of_dvd (x : ℕ) {S : ℕ} (h : S ∣ 2 ^ 64) : u64 x % S = x % S := Nat.mod_mod_of_dvd x h

/-- Rounding down to a multiple of a divisor of `2^64` commutes with wrapping. -/
theorem u64_div_mul (x : ℕ) {S : ℕ} (h : S ∣ 2 ^ 64) : u64 x / S * S = u64 (x / S * S) := by
  obtain ⟨t, ht⟩ := h
  rw [u64, u64, ht, Nat.mod_mul_right_div_self, Nat.mul_comm S t, Nat.mul_mod_mul_right]

/-- Masking with `~(2^k - 1)` rounds a `u64` value down to a multiple of `2^k`. -/
theorem and_u64Not_pow {x k : ℕ} (hx : x < 2 ^ 64) (hk : k ≤ 64) :
    x &&& u64Not (2 ^ k - 1) = x / 2 ^ k * 2 ^ k := by
  have hm : u64Not (2 ^ k - 1) = 2 ^ k * (2 ^ (64 - k) - 1) := by
    have h1 : 2 ^ 64 = 2 ^ k * 2 ^ (64 - k) := by rw [← Nat.pow_add]; congr 1; omega
    have h2 : 1 ≤ 2 ^ k := Nat.one_le_two_pow
    have h3 : 1 ≤ 2 ^ (64 - k) := Nat.one_le_two_pow
    rw [u64Not, h1, Nat.mul_sub_one]; omega
  rw [hm, show x / 2 ^ k * 2 ^ k = 2 ^ k * (x >>> k) by
    rw [Nat.shiftRight_eq_div_pow, Nat.mul_comm]]
  apply Nat.eq_of_testBit_eq
  intro j
  simp only [Nat.testBit_and, Nat.testBit_mul_pow_two, Nat.testBit_two_pow_sub_one,
    Nat.testBit_shiftRight]
  by_cases hj : k ≤ j
  · rw [show k + (j - k) = j by omega]
    by_cases h64 : j < 64
    · simp [hj, show j - k < 64 - k by omega]
    · have hb : x.testBit j = false :=
        Nat.testBit_lt_two_pow (Nat.lt_of_lt_of_le hx (Nat.pow_le_pow_right (by decide) (by omega)))
      simp [hb]
  · simp [show ¬j ≥ k from hj]

/-- The page-table shifts of one architecture configuration: `PAGE_SHIFT`,
`PMD_SHIFT`, `PUD_SHIFT`, `P4D_SHIFT` and `PGDIR_SHIFT`. A folded level has
the shift of the level above it. -/
structure Geometry where
  /-- `PAGE_SHIFT`. -/
  pageShift : ℕ
  /-- `PMD_SHIFT`; also `HPAGE_PMD_SHIFT`, the transparent huge page order. -/
  pmdShift : ℕ
  /-- `PUD_SHIFT`. -/
  pudShift : ℕ
  /-- `P4D_SHIFT`. -/
  p4dShift : ℕ
  /-- `PGDIR_SHIFT`. -/
  pgdirShift : ℕ
  page_le_pmd : pageShift ≤ pmdShift
  pmd_le_pud : pmdShift ≤ pudShift
  pud_le_p4d : pudShift ≤ p4dShift
  p4d_le_pgdir : p4dShift ≤ pgdirShift
  pgdir_lt : pgdirShift < 64

/-- The five levels of the page table walk, from the root down. -/
inductive Level where
  | pgd | p4d | pud | pmd | pte
  deriving DecidableEq, Repr

namespace Geometry

variable (g : Geometry)

/-- x86-64 with four-level paging: the P4D level is folded into the PGD. -/
def x86_64 : Geometry :=
  ⟨12, 21, 30, 39, 39, by decide, by decide, by decide, by decide, by decide⟩

/-- arm64 with 4 KiB pages and 48-bit addresses: four levels, the P4D folded. -/
def arm64 : Geometry :=
  ⟨12, 21, 30, 39, 39, by decide, by decide, by decide, by decide, by decide⟩

/-- The shift of the region one entry of a level maps. -/
def shift : Level → ℕ
  | .pgd => g.pgdirShift
  | .p4d => g.p4dShift
  | .pud => g.pudShift
  | .pmd => g.pmdShift
  | .pte => g.pageShift

/-- `PGDIR_SIZE`, `P4D_SIZE`, `PUD_SIZE`, `PMD_SIZE` and `PAGE_SIZE`. -/
def size (l : Level) : ℕ := 2 ^ g.shift l

/-- `PAGE_SIZE`. -/
def pageSize : ℕ := 2 ^ g.pageShift

/-- `PAGE_MASK`, that is `~(PAGE_SIZE - 1)`. -/
def pageMask : ℕ := u64Not (g.pageSize - 1)

/-- `offset_in_page(v)`: the low `PAGE_SHIFT` bits. -/
def offsetInPage (v : ℕ) : ℕ := v &&& (g.pageSize - 1)

/-- `num_of_pages(v, s)`: the pages, rounded up, that `[v, v + s)` touches. -/
def numOfPages (v s : ℕ) : ℕ := u64 (g.offsetInPage v + s + (g.pageSize - 1)) >>> g.pageShift

theorem shift_le_pgdir (l : Level) : g.shift l ≤ g.pgdirShift := by
  have := g.page_le_pmd; have := g.pmd_le_pud; have := g.pud_le_p4d; have := g.p4d_le_pgdir
  cases l <;> simp only [shift] <;> omega

theorem page_le_shift (l : Level) : g.pageShift ≤ g.shift l := by
  have := g.page_le_pmd; have := g.pmd_le_pud; have := g.pud_le_p4d; have := g.p4d_le_pgdir
  cases l <;> simp only [shift] <;> omega

theorem shift_lt (l : Level) : g.shift l < 64 :=
  Nat.lt_of_le_of_lt (g.shift_le_pgdir l) g.pgdir_lt

theorem pageSize_pos : 0 < g.pageSize := Nat.two_pow_pos _

theorem size_pos (l : Level) : 0 < g.size l := Nat.two_pow_pos _

@[simp] theorem size_pte : g.size .pte = g.pageSize := rfl

/-- Every level's size is a whole number of pages. -/
theorem pageSize_dvd_size (l : Level) : g.pageSize ∣ g.size l :=
  Nat.pow_dvd_pow 2 (g.page_le_shift l)

/-- Every level's size divides `2^64`, so the address space is a whole number of blocks. -/
theorem size_dvd_two_pow_64 (l : Level) : g.size l ∣ 2 ^ 64 :=
  Nat.pow_dvd_pow 2 (Nat.le_of_lt (g.shift_lt l))

/-- `offset_in_page` is the remainder by `PAGE_SIZE`. -/
theorem offsetInPage_eq (v : ℕ) : g.offsetInPage v = v % g.pageSize :=
  Nat.and_pow_two_sub_one_eq_mod v _

/-- `v & PAGE_MASK` rounds a `u64` address down to its page. -/
theorem and_pageMask {v : ℕ} (hv : v < 2 ^ 64) : v &&& g.pageMask = v / g.pageSize * g.pageSize :=
  and_u64Not_pow hv (Nat.le_of_lt (g.shift_lt .pte))

/-- Without overflow, `num_of_pages` is the ceiling of the touched length in pages. -/
theorem numOfPages_eq {v s : ℕ} (h : v % g.pageSize + s + (g.pageSize - 1) < 2 ^ 64) :
    g.numOfPages v s = (v % g.pageSize + s + (g.pageSize - 1)) / g.pageSize := by
  rw [numOfPages, offsetInPage_eq, u64_of_lt h, Nat.shiftRight_eq_div_pow]; rfl

end Geometry

end XpmemPfn
