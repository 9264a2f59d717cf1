import XpmemPfn.Geometry
import XpmemPfn.VaddrToPfn
import Mathlib.Data.List.Range
import Mathlib.Data.List.Nodup

/-!
# Releasing an attachment range: `xpmem_unpin_pages`

The loop rounds `vaddr` down to its page and counts down `num_of_pages`
pages. Where `xpmem_vaddr_to_pte_size` finds a PTE it puts that page and
moves one page on; where it finds a missing entry at some level, it jumps to
the end of that entry's naturally aligned block and drops the pages it
skipped from the count. A missing entry covers its whole block, so the jump
passes over no present PTE.

Addresses are `u64`: `vaddr += PAGE_SIZE` and the jump wrap at `2^64`. The
loop therefore visits the `num_of_pages` page addresses from the rounded
start taken modulo `2^64`, which are the pages of `[vaddr, vaddr + size)`
when that range ends by `2^64`.
-/

namespace XpmemPfn.UnpinPages

/-- An importer page table with base-page leaves only, as XPMEM builds for
its attachments. An entry of level `l` covers a naturally aligned block of
`size l` bytes, so it is indexed by the block number. -/
structure PageTable where
  /-- Whether the level-`l` entry of block `i` is present. -/
  entry : Level → ℕ → Bool
  /-- `pte_pfn` of the PTE of page `j`. -/
  pfn : ℕ → ℕ

namespace PageTable

variable (g : Geometry) (pt : PageTable)

/-- `pXd_present(*pXd)` of the level-`l` entry on the walk of `vaddr`. -/
def present (l : Level) (vaddr : ℕ) : Bool := pt.entry l (vaddr / g.size l)

/-- A present PTE maps `vaddr`: every entry on its walk is present. -/
def mapped (vaddr : ℕ) : Bool :=
  pt.present g .pgd vaddr && pt.present g .p4d vaddr && pt.present g .pud vaddr &&
    pt.present g .pmd vaddr && pt.present g .pte vaddr

/-- A missing entry leaves its whole block unmapped. -/
theorem mapped_of_block {l : Level} {a b : ℕ} (h : pt.present g l a = false)
    (hb : b / g.size l = a / g.size l) : pt.mapped g b = false := by
  have h' : pt.present g l b = false := by rw [present, hb]; exact h
  cases l <;> simp [mapped, h']

end PageTable

/-- What `xpmem_vaddr_to_pte_size` hands back. -/
inductive PteSize where
  /-- The PTE of the address, given by its `pte_pfn`. -/
  | pte (pfn : ℕ)
  /-- `NULL`, with `*size` set to the size of the level whose entry is missing. -/
  | hole (size : ℕ)
  deriving DecidableEq, Repr

/-- `xpmem_vaddr_to_pte_size(mm, vaddr, &size)`. -/
def xpmemVaddrToPteSize (g : Geometry) (pt : PageTable) (vaddr : ℕ) : PteSize :=
  if !pt.present g .pgd vaddr then .hole (g.size .pgd)
  else if !pt.present g .p4d vaddr then .hole (g.size .p4d)
  else if !pt.present g .pud vaddr then .hole (g.size .pud)
  else if !pt.present g .pmd vaddr then .hole (g.size .pmd)
  else if !pt.present g .pte vaddr then .hole (g.size .pte)
  else .pte (pt.pfn (vaddr / g.pageSize))

/-- The walk finds the PTE exactly at mapped addresses; otherwise it reports
the size of a level whose entry on the walk is missing. -/
theorem xpmemVaddrToPteSize_cases (g : Geometry) (pt : PageTable) (vaddr : ℕ) :
    (pt.mapped g vaddr = true ∧ xpmemVaddrToPteSize g pt vaddr = .pte (pt.pfn (vaddr / g.pageSize))) ∨
    ∃ l, pt.present g l vaddr = false ∧ xpmemVaddrToPteSize g pt vaddr = .hole (g.size l) := by
  unfold xpmemVaddrToPteSize
  split_ifs with h1 h2 h3 h4 h5
  · exact .inr ⟨_, by simpa using h1, rfl⟩
  · exact .inr ⟨_, by simpa using h2, rfl⟩
  · exact .inr ⟨_, by simpa using h3, rfl⟩
  · exact .inr ⟨_, by simpa using h4, rfl⟩
  · exact .inr ⟨_, by simpa using h5, rfl⟩
  · simp_all [PageTable.mapped]

/-- The `while (n_pgs > 0)` loop of `xpmem_unpin_pages` from `n_pgs`,
`vaddr` and `n_pgs_unpinned`, with a ghost log of the addresses whose PTE's
page it put. `fuel` bounds the iterations. The `long` count meets the `u64`
stride in `n_pgs -= …`; both stay far inside the `long` range, so the
subtraction is exact. -/
def unpinLoop (g : Geometry) (pt : PageTable) (fuel : ℕ) (nPgs : ℤ) (vaddr unpinned : ℕ)
    (puts : List ℕ) : Option (ℕ × List ℕ) :=
  if 0 < nPgs then
    match fuel with
    | 0 => none
    | fuel + 1 =>
      match xpmemVaddrToPteSize g pt vaddr with
      | .pte _ =>
        unpinLoop g pt fuel (nPgs - 1) (u64 (vaddr + g.pageSize)) (unpinned + 1) (puts ++ [vaddr])
      | .hole vsize =>
        let vsize := u64 (vaddr + vsize) &&& u64Not (vsize - 1)
        unpinLoop g pt fuel (nPgs - (u64Sub vsize vaddr / g.pageSize : ℕ)) vsize unpinned puts
  else some (unpinned, puts)

/-- `seg->tg->n_pinned` and `xpmem_my_part->n_unpinned`. -/
structure Counters where
  nPinned : ℤ
  nUnpinned : ℤ
  deriving DecidableEq, Repr

/-- `xpmem_unpin_pages(seg, mm, vaddr, size)`: the counters after it and the
log of the addresses whose page it put. Each iteration lowers `n_pgs` by at
least one, so `n_pgs` iterations are enough; `unpin_pages_puts_touched_ptes`
shows the result is never `none`. -/
def xpmemUnpinPages (g : Geometry) (pt : PageTable) (c : Counters) (vaddr size : ℕ) :
    Option (Counters × List ℕ) := do
  let nPgs := g.numOfPages vaddr size
  let (unpinned, puts) ← unpinLoop g pt nPgs nPgs (vaddr &&& g.pageMask) 0 []
  pure (⟨c.nPinned - unpinned, c.nUnpinned + unpinned⟩, puts)

/-- The `n` page addresses from `vaddr` on, wrapping at `2^64`. -/
def pagesFrom (g : Geometry) (vaddr n : ℕ) : List ℕ :=
  (List.range n).map fun i => u64 (vaddr + i * g.pageSize)

theorem pagesFrom_add (g : Geometry) (vaddr m n : ℕ) :
    pagesFrom g vaddr (m + n) = pagesFrom g vaddr m ++ pagesFrom g (u64 (vaddr + m * g.pageSize)) n := by
  simp only [pagesFrom, List.range_add, List.map_append, List.map_map, Function.comp_def, u64,
    Nat.mod_add_mod, Nat.add_mul, Nat.add_assoc]

section Hole

variable (g : Geometry) {vaddr : ℕ} (hv : vaddr < 2 ^ 64) (l : Level)
include hv

omit hv in
/-- The start of the next level-`l` block is `size l - vaddr % size l` bytes on. -/
theorem add_toBlockEnd : vaddr + (g.size l - vaddr % g.size l) = (vaddr / g.size l + 1) * g.size l := by
  have := Nat.div_add_mod vaddr (g.size l)
  have := Nat.mod_lt vaddr (g.size_pos l)
  rw [Nat.add_mul, Nat.one_mul, Nat.mul_comm]; omega

/-- The block of `vaddr` ends by `2^64`. -/
theorem add_toBlockEnd_le : vaddr + (g.size l - vaddr % g.size l) ≤ 2 ^ 64 := by
  obtain ⟨t, ht⟩ := g.size_dvd_two_pow_64 l
  have hq : vaddr / g.size l < t := (Nat.div_lt_iff_lt_mul (g.size_pos l)).mpr (by rw [Nat.mul_comm, ← ht]; exact hv)
  rw [add_toBlockEnd g, ht, Nat.mul_comm (g.size l) t]
  exact Nat.mul_le_mul_right _ hq

omit hv in
/-- The distance to the block end is a whole, positive number of pages. -/
theorem toBlockEnd_pages (ha : vaddr % g.pageSize = 0) :
    (g.size l - vaddr % g.size l) / g.pageSize * g.pageSize = g.size l - vaddr % g.size l ∧
      0 < (g.size l - vaddr % g.size l) / g.pageSize := by
  have hd : g.pageSize ∣ g.size l - vaddr % g.size l := by
    refine Nat.dvd_sub' (g.pageSize_dvd_size l) (Nat.dvd_of_mod_eq_zero ?_)
    rw [Nat.mod_mod_of_dvd _ (g.pageSize_dvd_size l), ha]
  have hpos : 0 < g.size l - vaddr % g.size l := by have := Nat.mod_lt vaddr (g.size_pos l); omega
  exact ⟨Nat.div_mul_cancel hd, Nat.div_pos (Nat.le_of_dvd hpos hd) g.pageSize_pos⟩

/-- The hole branch of the loop jumps to the end of the block and counts the
bytes it skipped. -/
theorem hole_jump :
    u64 (vaddr + g.size l) &&& u64Not (g.size l - 1) = u64 (vaddr + (g.size l - vaddr % g.size l)) ∧
      u64Sub (u64 (vaddr + (g.size l - vaddr % g.size l))) vaddr = g.size l - vaddr % g.size l := by
  have hle := add_toBlockEnd_le g hv l
  have hlt : g.size l < 2 ^ 64 := Nat.pow_lt_pow_right (by decide) (g.shift_lt l)
  refine ⟨?_, ?_⟩
  · have hm : u64 (vaddr + g.size l) &&& u64Not (g.size l - 1) =
        u64 (vaddr + g.size l) / g.size l * g.size l :=
      and_u64Not_pow (u64_lt _) (Nat.le_of_lt (g.shift_lt l))
    rw [hm, u64_div_mul _ (g.size_dvd_two_pow_64 l), add_toBlockEnd g]
    congr 1
    rw [Nat.add_div_right _ (g.size_pos l)]
  · simp only [u64Sub, u64]
    rcases Nat.lt_or_eq_of_le hle with h | h
    · rw [Nat.mod_eq_of_lt h]; omega
    · rw [h]; omega

/-- Every page the jump skips lies in the block of `vaddr`. -/
theorem skipped_in_block (ha : vaddr % g.pageSize = 0) {i : ℕ} (hi : i < (g.size l - vaddr % g.size l) / g.pageSize) :
    (vaddr + i * g.pageSize) / g.size l = vaddr / g.size l ∧ vaddr + i * g.pageSize < 2 ^ 64 := by
  have hd := (Nat.lt_div_iff_mul_lt (Nat.dvd_of_mod_eq_zero (by
    rw [← (toBlockEnd_pages g l ha).1, Nat.mul_mod_left])) i).mp hi
  have hle := add_toBlockEnd_le g hv l
  have hend : vaddr + _ = _ := add_toBlockEnd g l
  refine ⟨Nat.div_eq_of_lt_le ?_ ?_, by rw [Nat.mul_comm] at hd; omega⟩
  · exact Nat.le_trans (Nat.div_mul_le_self vaddr _) (Nat.le_add_right _ _)
  · rw [Nat.mul_comm] at hd; omega

/-- The jump skips only unmapped pages. -/
theorem filter_pagesFrom_skipped (pt : PageTable) (ha : vaddr % g.pageSize = 0)
    (hp : pt.present g l vaddr = false) {m : ℕ} (hm : m ≤ (g.size l - vaddr % g.size l) / g.pageSize) :
    (pagesFrom g vaddr m).filter (pt.mapped g) = [] := by
  refine List.filter_eq_nil_iff.mpr fun a ha' => ?_
  obtain ⟨i, hi, rfl⟩ := List.mem_map.mp ha'
  obtain ⟨hb, hlt⟩ := skipped_in_block g hv l ha (Nat.lt_of_lt_of_le (List.mem_range.mp hi) hm)
  rw [u64_of_lt hlt, pt.mapped_of_block g hp hb]
  decide

end Hole

/-- A `u64` address keeps its page alignment after wrapping. -/
theorem u64_mod_pageSize (g : Geometry) (x : ℕ) : u64 x % g.pageSize = x % g.pageSize :=
  u64_mod_of_dvd x (g.size_dvd_two_pow_64 .pte)

/-- From a page-aligned `vaddr`, the loop puts, in address order, the mapped
pages among the `n_pgs` page addresses from `vaddr` on, and counts them;
`n_pgs` iterations are enough. -/
theorem unpinLoop_eq (g : Geometry) (pt : PageTable) (fuel : ℕ) :
    ∀ (nPgs : ℤ) (vaddr unpinned : ℕ) (puts : List ℕ), nPgs.toNat ≤ fuel → vaddr < 2 ^ 64 →
      vaddr % g.pageSize = 0 →
      unpinLoop g pt fuel nPgs vaddr unpinned puts =
        some (unpinned + ((pagesFrom g vaddr nPgs.toNat).filter (pt.mapped g)).length,
          puts ++ (pagesFrom g vaddr nPgs.toNat).filter (pt.mapped g)) := by
  induction fuel with
  | zero =>
    intro nPgs vaddr unpinned puts hf _ _
    simp [unpinLoop, show ¬0 < nPgs by omega, show nPgs.toNat = 0 by omega, pagesFrom]
  | succ fuel ih =>
    intro nPgs vaddr unpinned puts hf hv ha
    by_cases hn : 0 < nPgs
    swap
    · simp [unpinLoop, hn, show nPgs.toNat = 0 by omega, pagesFrom]
    rw [unpinLoop, if_pos hn]
    rcases xpmemVaddrToPteSize_cases g pt vaddr with ⟨hm, hw⟩ | ⟨l, hp, hw⟩
    · -- a PTE: put it and move one page on
      have hsplit : pagesFrom g vaddr nPgs.toNat =
          vaddr :: pagesFrom g (u64 (vaddr + g.pageSize)) (nPgs - 1).toNat := by
        rw [show nPgs.toNat = 1 + (nPgs - 1).toNat by omega, pagesFrom_add]
        simp [pagesFrom, List.range_succ, u64_of_lt hv]
      have hnext : u64 (vaddr + g.pageSize) % g.pageSize = 0 := by
        rw [u64_mod_pageSize, Nat.add_mod_right, ha]
      simp only [hw]
      rw [ih _ _ _ _ (by omega) (u64_lt _) hnext, hsplit, List.filter_cons_of_pos hm]
      simp only [List.length_cons, List.append_assoc, List.singleton_append]
      congr 2; omega
    · -- a hole: jump to the end of the missing entry's block
      obtain ⟨hj1, hj2⟩ := hole_jump g hv l
      obtain ⟨hd, hdpos⟩ := toBlockEnd_pages g l ha
      have hnext : u64 (vaddr + (g.size l - vaddr % g.size l)) % g.pageSize = 0 := by
        rw [u64_mod_pageSize, ← hd, Nat.add_mul_mod_self_right, ha]
      have hskip : (pagesFrom g vaddr nPgs.toNat).filter (pt.mapped g) =
          (pagesFrom g (u64 (vaddr + (g.size l - vaddr % g.size l)))
            (nPgs - ((g.size l - vaddr % g.size l) / g.pageSize : ℕ)).toNat).filter (pt.mapped g) := by
        by_cases hlt : (g.size l - vaddr % g.size l) / g.pageSize < nPgs.toNat
        · rw [show nPgs.toNat = (g.size l - vaddr % g.size l) / g.pageSize +
              (nPgs - ((g.size l - vaddr % g.size l) / g.pageSize : ℕ)).toNat by omega,
            pagesFrom_add, List.filter_append, hd, filter_pagesFrom_skipped g hv l pt ha hp le_rfl,
            List.nil_append]
        · rw [filter_pagesFrom_skipped g hv l pt ha hp (by omega),
            show (nPgs - ((g.size l - vaddr % g.size l) / g.pageSize : ℕ)).toNat = 0 by omega]
          rfl
      simp only [hw, hj1, hj2]
      rw [ih _ _ _ _ (by omega) (u64_lt _) hnext, hskip]

/-- Fewer than `2^64 / PAGE_SIZE` page addresses from one start are distinct,
wrapping or not. -/
theorem pagesFrom_nodup (g : Geometry) (vaddr n : ℕ) (h : n * g.pageSize ≤ 2 ^ 64) :
    (pagesFrom g vaddr n).Nodup := by
  refine List.Nodup.map_on (fun i hi j hj he => ?_) (List.nodup_range n)
  rw [List.mem_range] at hi hj
  wlog hij : i ≤ j generalizing i j
  · exact (this j hj i hi he.symm (by omega)).symm
  have hmod := Nat.sub_mod_eq_zero_of_mod_eq he.symm
  rw [show vaddr + j * g.pageSize - (vaddr + i * g.pageSize) = (j - i) * g.pageSize by
    rw [Nat.sub_mul]; omega] at hmod
  have hlt : (j - i) * g.pageSize < 2 ^ 64 :=
    Nat.lt_of_lt_of_le (Nat.mul_lt_mul_of_pos_right (by omega) g.pageSize_pos) h
  have h0 := Nat.eq_zero_of_dvd_of_lt (Nat.dvd_of_mod_eq_zero hmod) hlt
  rcases Nat.mul_eq_zero.mp h0 with h0 | h0
  · omega
  · exact absurd h0 (Nat.pos_iff_ne_zero.mp g.pageSize_pos)

/-- The page addresses `xpmem_unpin_pages(seg, mm, vaddr, size)` visits. -/
def touched (g : Geometry) (vaddr size : ℕ) : List ℕ :=
  pagesFrom g (vaddr / g.pageSize * g.pageSize) (g.numOfPages vaddr size)

/-- Without overflow the visited addresses are distinct. -/
theorem touched_nodup (g : Geometry) {vaddr size : ℕ}
    (hs : vaddr % g.pageSize + size + (g.pageSize - 1) < 2 ^ 64) : (touched g vaddr size).Nodup := by
  refine pagesFrom_nodup g _ _ ?_
  rw [g.numOfPages_eq hs]; exact Nat.le_of_lt (Nat.lt_of_le_of_lt (Nat.div_mul_le_self _ _) hs)

/-- `xpmem_unpin_pages` on a `u64` address puts the mapped pages among the
visited addresses and moves both counters by their number. -/
theorem xpmemUnpinPages_eq (g : Geometry) (pt : PageTable) (c : Counters) {vaddr size : ℕ}
    (hv : vaddr < 2 ^ 64) :
    xpmemUnpinPages g pt c vaddr size =
      some (⟨c.nPinned - ((touched g vaddr size).filter (pt.mapped g)).length,
        c.nUnpinned + ((touched g vaddr size).filter (pt.mapped g)).length⟩,
        (touched g vaddr size).filter (pt.mapped g)) := by
  have hrun := unpinLoop_eq g pt (g.numOfPages vaddr size) (g.numOfPages vaddr size)
    (vaddr / g.pageSize * g.pageSize) 0 [] (by simp)
    (by have := Nat.div_mul_le_self vaddr g.pageSize; omega) (Nat.mul_mod_left _ _)
  rw [Int.toNat_ofNat] at hrun
  simp only [xpmemUnpinPages, g.and_pageMask hv, hrun, touched, Nat.zero_add, List.nil_append]
  rfl

/-- Every visited address is page aligned. -/
theorem mem_touched_aligned (g : Geometry) {vaddr size a : ℕ} (ha : a ∈ touched g vaddr size) :
    a % g.pageSize = 0 := by
  obtain ⟨i, -, rfl⟩ := List.mem_map.mp ha
  rw [u64_mod_pageSize, Nat.add_mul_mod_self_right, Nat.mul_mod_left]

/-- Without wrapping, the page addresses from a page-aligned `base` are the
page-aligned addresses of `[base, base + n * PAGE_SIZE)`. -/
theorem mem_pagesFrom (g : Geometry) {base n a : ℕ} (hb : base % g.pageSize = 0)
    (htop : base + n * g.pageSize ≤ 2 ^ 64) :
    a ∈ pagesFrom g base n ↔ a % g.pageSize = 0 ∧ base ≤ a ∧ a < base + n * g.pageSize := by
  have hps := g.pageSize_pos
  constructor
  · intro h
    obtain ⟨i, hi, rfl⟩ := List.mem_map.mp h
    have hlt : base + i * g.pageSize < base + n * g.pageSize :=
      Nat.add_lt_add_left (Nat.mul_lt_mul_of_pos_right (List.mem_range.mp hi) hps) _
    rw [u64_of_lt (by omega), Nat.add_mul_mod_self_right, hb]
    exact ⟨rfl, by omega, hlt⟩
  · rintro ⟨ha, h1, h2⟩
    -- `a` is `(a - base) / PAGE_SIZE` pages on from `base`
    have hd : (a - base) % g.pageSize = 0 := Nat.sub_mod_eq_zero_of_mod_eq (ha.trans hb.symm)
    have he : (a - base) / g.pageSize * g.pageSize = a - base := Nat.div_mul_cancel (Nat.dvd_of_mod_eq_zero hd)
    have hi : (a - base) / g.pageSize < n := (Nat.div_lt_iff_lt_mul hps).mpr (by omega)
    refine List.mem_map.mpr ⟨(a - base) / g.pageSize, List.mem_range.mpr hi, ?_⟩
    rw [he, u64_of_lt (by omega)]; omega

/-- The `num_of_pages(vaddr, size)` pages from `vaddr & PAGE_MASK` are the
pages that begin below `vaddr + size` and end above `vaddr`. -/
theorem pages_iff (g : Geometry) {vaddr size a : ℕ}
    (hs : vaddr % g.pageSize + size + (g.pageSize - 1) < 2 ^ 64) (ha : a % g.pageSize = 0) :
    (vaddr / g.pageSize * g.pageSize ≤ a ∧ a < vaddr / g.pageSize * g.pageSize + g.numOfPages vaddr size * g.pageSize) ↔
      a < vaddr + size ∧ vaddr < a + g.pageSize := by
  have hps := g.pageSize_pos
  -- page `i` from the rounded start is counted exactly when it starts below `vaddr + size`
  have hcount : ∀ i, i < g.numOfPages vaddr size ↔ i * g.pageSize < vaddr % g.pageSize + size := fun i => by
    rw [g.numOfPages_eq hs, Nat.lt_iff_add_one_le, Nat.le_div_iff_mul_le hps, Nat.add_mul, Nat.one_mul]
    omega
  obtain ⟨j, rfl⟩ : ∃ j, a = j * g.pageSize :=
    ⟨a / g.pageSize, (Nat.div_mul_cancel (Nat.dvd_of_mod_eq_zero ha)).symm⟩
  have hvm := Nat.div_add_mod' vaddr g.pageSize
  have hr := Nat.mod_lt vaddr hps
  generalize g.numOfPages vaddr size = n at hcount ⊢
  generalize vaddr / g.pageSize = q at hvm ⊢
  generalize vaddr % g.pageSize = r at hvm hr hcount
  subst hvm
  -- compare the page of `a` with the first page
  rcases Nat.lt_or_ge j q with hjq | hqj
  swap
  · obtain ⟨d, rfl⟩ := Nat.exists_eq_add_of_le hqj
    have hd : d * g.pageSize < n * g.pageSize ↔ d * g.pageSize < r + size :=
      (Nat.mul_lt_mul_right hps).trans (hcount d)
    rw [Nat.add_mul]
    constructor <;> rintro ⟨h1, h2⟩ <;> omega
  · have := Nat.mul_le_mul_right g.pageSize (Nat.succ_le_of_lt hjq)
    rw [Nat.succ_mul] at this
    constructor <;> rintro ⟨h1, h2⟩ <;> omega

/-- For `size >= 1` those are exactly the pages that share an address with
`[vaddr, vaddr + size)`. -/
theorem touches_iff (g : Geometry) {vaddr size a : ℕ} (hsize : 1 ≤ size)
    (hs : vaddr % g.pageSize + size + (g.pageSize - 1) < 2 ^ 64) (ha : a % g.pageSize = 0) :
    (vaddr / g.pageSize * g.pageSize ≤ a ∧ a < vaddr / g.pageSize * g.pageSize + g.numOfPages vaddr size * g.pageSize) ↔
      ∃ x, a ≤ x ∧ x < a + g.pageSize ∧ vaddr ≤ x ∧ x < vaddr + size := by
  have hps := g.pageSize_pos
  rw [pages_iff g hs ha]
  constructor
  · rintro ⟨h1, h2⟩; exact ⟨max a vaddr, le_max_left _ _, by omega, le_max_right _ _, by omega⟩
  · rintro ⟨x, h1, h2, h3, h4⟩; omega

/-- For every `vaddr` and every `size >= 1` with `num_of_pages` free of
overflow and whose pages end by the top of the address space, and every
page table with base-page leaves: `xpmem_unpin_pages` returns; it puts, each
exactly once, the page of every present PTE at the page-aligned addresses of
`[vaddr & PAGE_MASK, (vaddr & PAGE_MASK) + num_of_pages(vaddr, size) * PAGE_SIZE)`,
which are the pages `[vaddr, vaddr + size)` touches, and no other page; and
it moves `n_pinned` and `n_unpinned` by their number. -/
theorem unpin_pages_puts_touched_ptes (g : Geometry) (pt : PageTable) (c : Counters)
    (vaddr size : ℕ) (hv : vaddr < 2 ^ 64) (hsize : 1 ≤ size)
    (hs : vaddr % g.pageSize + size + (g.pageSize - 1) < 2 ^ 64)
    (htop : (vaddr &&& g.pageMask) + g.numOfPages vaddr size * g.pageSize ≤ 2 ^ 64) :
    ∃ c' puts, xpmemUnpinPages g pt c vaddr size = some (c', puts) ∧ puts.Nodup ∧
      (∀ a, a ∈ puts ↔ a % g.pageSize = 0 ∧ vaddr &&& g.pageMask ≤ a ∧
        a < (vaddr &&& g.pageMask) + g.numOfPages vaddr size * g.pageSize ∧ pt.mapped g a = true) ∧
      (∀ a, a % g.pageSize = 0 → ((vaddr &&& g.pageMask ≤ a ∧
        a < (vaddr &&& g.pageMask) + g.numOfPages vaddr size * g.pageSize) ↔
          ∃ x, a ≤ x ∧ x < a + g.pageSize ∧ vaddr ≤ x ∧ x < vaddr + size)) ∧
      c'.nPinned = c.nPinned - puts.length ∧ c'.nUnpinned = c.nUnpinned + puts.length := by
  rw [g.and_pageMask hv] at htop ⊢
  refine ⟨_, _, xpmemUnpinPages_eq g pt c hv, (touched_nodup g hs).filter _, fun a => ?_,
    fun a ha => touches_iff g hsize hs ha, rfl, rfl⟩
  rw [List.mem_filter, touched, mem_pagesFrom g (Nat.mul_mod_left _ _) htop, and_assoc, and_assoc]

/-- A range from the middle of page `0x1000` into the next page, on a table
whose PTE of page 2 is missing. -/
def holeAtTwo : PageTable := ⟨fun l j => l ≠ .pte || j ≠ 2, id⟩

/-- It touches pages `0x1000` and `0x2000`; only the first holds a PTE. -/
theorem unpin_pages_puts_touched_ptes_straddle :
    0x1010 < 2 ^ 64 ∧ 1 ≤ 0x1000 ∧ 0x1010 % Geometry.x86_64.pageSize + 0x1000 + (Geometry.x86_64.pageSize - 1) < 2 ^ 64 ∧
      (0x1010 &&& Geometry.x86_64.pageMask) + Geometry.x86_64.numOfPages 0x1010 0x1000 * Geometry.x86_64.pageSize ≤ 2 ^ 64 ∧
      ∃ c' puts, xpmemUnpinPages Geometry.x86_64 holeAtTwo ⟨2, 0⟩ 0x1010 0x1000 = some (c', puts) ∧
        (0x1000 ∈ puts ∧ 0x2000 ∉ puts) ∧ c'.nPinned = 2 - puts.length := by
  obtain ⟨c', puts, h, -, hmem, -, hn, -⟩ :=
    unpin_pages_puts_touched_ptes Geometry.x86_64 holeAtTwo ⟨2, 0⟩ 0x1010 0x1000 (by decide) (by decide)
      (by decide) (by decide)
  exact ⟨by decide, by decide, by decide, by decide, c', puts, h, ⟨(hmem _).mpr (by decide),
    fun h' => absurd ((hmem _).mp h').2.2.2 (by decide)⟩, hn⟩

/-! ## The base-page walk against `xpmem_vaddr_to_pte_offset`

`xpmem_vaddr_to_pte_size` is "similar to `xpmem_vaddr_to_pte_offset`, except
it should only be used for areas mapped with base pages". On such a table the
two walks agree. -/

section Agree

open VaddrToPfn

variable (g : Geometry) (mm : Mm)

/-- An address space's page table as `xpmem_vaddr_to_pte_size` reads it: the
present bit of every entry and the frame of every PTE. -/
def baseTable : PageTable := ⟨fun l i => (mm.entry l i).present, fun j => (mm.entry .pte j).pfn⟩

/-- With no huge PUD or PMD leaf, `xpmem_vaddr_to_pte_offset` finds the PTE,
at offset 0, exactly at the addresses the base-page walk maps. -/
theorem xpmemVaddrToPteOffset_base (hbase : ∀ i, (mm.entry .pud i).huge = false ∧ (mm.entry .pmd i).huge = false)
    (vaddr : ℕ) :
    xpmemVaddrToPteOffset g mm vaddr =
      if (baseTable mm).mapped g vaddr then some (mm.walk g .pte vaddr, 0) else none := by
  simp only [xpmemVaddrToPteOffset, PageTable.mapped, PageTable.present, baseTable, Mm.walk,
    (hbase _).1, (hbase _).2]
  split_ifs <;> simp_all

/-- On a table with no huge PUD or PMD leaf, for every address: where
`xpmem_vaddr_to_pte_offset` finds a PTE, `xpmem_vaddr_to_pte_size` finds the
same one, at offset 0, and `xpmem_vaddr_to_PFN` is its frame; elsewhere
`xpmem_vaddr_to_PFN` is 0 and `xpmem_vaddr_to_pte_size` reports the size of
a level whose entry on the walk is missing. -/
theorem pte_size_agrees_with_pte_offset
    (hbase : ∀ i, (mm.entry .pud i).huge = false ∧ (mm.entry .pmd i).huge = false) (vaddr : ℕ) :
    (∃ e, xpmemVaddrToPteOffset g mm vaddr = some (e, 0) ∧
        xpmemVaddrToPteSize g (baseTable mm) vaddr = .pte e.pfn ∧ xpmemVaddrToPFN g mm vaddr = e.pfn) ∨
      (xpmemVaddrToPteOffset g mm vaddr = none ∧ xpmemVaddrToPFN g mm vaddr = 0 ∧
        ∃ l, (mm.walk g l vaddr).present = false ∧ xpmemVaddrToPteSize g (baseTable mm) vaddr = .hole (g.size l)) := by
  have hoff := xpmemVaddrToPteOffset_base g mm hbase vaddr
  rcases xpmemVaddrToPteSize_cases g (baseTable mm) vaddr with ⟨hm, hpte⟩ | ⟨l, hl, hhole⟩
  · rw [hm, if_pos rfl] at hoff
    refine .inl ⟨_, hoff, hpte, ?_⟩
    simp [xpmemVaddrToPFN, hoff]
  · have hm : (baseTable mm).mapped g vaddr = false := PageTable.mapped_of_block g _ hl rfl
    rw [hm] at hoff
    exact .inr ⟨hoff, by simp [xpmemVaddrToPFN, hoff], l, hl, hhole⟩

end Agree

end XpmemPfn.UnpinPages
