import XpmemPfn.Geometry
import Mathlib.Data.Nat.Defs
import Mathlib.Tactic.SplitIfs
import Mathlib.Tactic.PushNeg

/-!
# Pinning source pages: `xpmem_pin_pages`

`xpmem_pin_pages` looks up the source VMA of `vaddr` and refuses with
`-ENOENT` when there is none, when it starts above `vaddr`, or when it is an
XPMEM attachment itself. Otherwise it clamps `count` to the pages left in the
VMA, asks `get_user_pages` for them, writable exactly when the VMA is, and
adds the number pinned to `tg->n_pinned` and `xpmem_my_part->n_pinned`.
`xpmem_ensure_valid_PFN` puts the segment's `DESTROYING` test in front.

`find_vma` and `get_user_pages` belong to the source address space and are
taken as given, with the contracts the kernel states for them. The affinity
change around `get_user_pages` changes none of the values here; `SavedMask`
models it.
-/

namespace XpmemPfn.PinPages

/-- `ENOENT`. -/
def enoent : ℤ := 2

/-- A source VMA as `xpmem_pin_pages` reads it. -/
structure Vma where
  /-- `vm_start`. -/
  vmStart : ℕ
  /-- `vm_end`. -/
  vmEnd : ℕ
  /-- `vm_flags & VM_WRITE`. -/
  write : Bool
  /-- `xpmem_is_vm_ops_set(vma)`: the VMA is an XPMEM attachment. -/
  xpmemOps : Bool
  deriving DecidableEq, Repr

/-- The source address space as `xpmem_pin_pages` sees it. -/
structure Src where
  /-- `find_vma(src_mm, vaddr)`. -/
  findVma : ℕ → Option Vma
  /-- `get_user_pages(src_mm, vaddr, count, foll_write, pages)`: a negative
  errno, or the frames of the pages it pinned. -/
  gup : ℕ → ℕ → Bool → Except ℤ (List ℕ)

/-- The contracts of `find_vma` and `get_user_pages`: a VMA found for `vaddr`
ends above it and inside the `u64` space; an error is negative; at most the
pages asked for are pinned. -/
structure Src.Spec (src : Src) : Prop where
  findVma_end : ∀ vaddr vma, src.findVma vaddr = some vma → vaddr < vma.vmEnd ∧ vma.vmEnd < 2 ^ 64
  gup_error : ∀ vaddr count write e, src.gup vaddr count write = .error e → e < 0
  gup_ok : ∀ vaddr count write pages, src.gup vaddr count write = .ok pages → pages.length ≤ count

/-- `tg->n_pinned` and `xpmem_my_part->n_pinned`. -/
structure Counters where
  tgPinned : ℤ
  partPinned : ℤ
  deriving DecidableEq, Repr

/-- What a call returns and leaves. -/
structure PinResult where
  /-- The return value: `nr_pinned`, or a negative errno. -/
  ret : ℤ
  /-- `pages[]` as filled, each page as its frame. -/
  pages : List ℕ
  /-- The counters after the call. -/
  counters : Counters
  deriving DecidableEq, Repr

/-- The end of `xpmem_pin_pages` on the value `get_user_pages` returned: the
counters move under `if (nr_pinned > 0)`. -/
def gupResult (c : Counters) : Except ℤ (List ℕ) → PinResult
  | .error e => ⟨e, [], c⟩
  | .ok pages =>
    let nrPinned : ℤ := pages.length
    if 0 < nrPinned then ⟨nrPinned, pages, ⟨c.tgPinned + nrPinned, c.partPinned + nrPinned⟩⟩
    else ⟨nrPinned, pages, c⟩

/-- `xpmem_pin_pages(tg, src_task, src_mm, vaddr, pages, count)`. -/
def xpmemPinPages (g : Geometry) (src : Src) (c : Counters) (vaddr count : ℕ) : PinResult :=
  match src.findVma vaddr with
  | none => ⟨-enoent, [], c⟩
  | some vma =>
    if vma.vmStart > vaddr then ⟨-enoent, [], c⟩
    -- don't pin pages in address ranges attached from other thread groups
    else if vma.xpmemOps then ⟨-enoent, [], c⟩
    else
      let avail := u64Sub vma.vmEnd vaddr >>> g.pageShift
      gupResult c (src.gup vaddr (min count avail) vma.write)

/-- `xpmem_ensure_valid_PFN(seg, vaddr, pages, count)`, with `destroying` the
segment's `XPMEM_FLAG_DESTROYING`. -/
def xpmemEnsureValidPFN (g : Geometry) (destroying : Bool) (src : Src) (c : Counters)
    (vaddr count : ℕ) : PinResult :=
  if destroying then ⟨-enoent, [], c⟩ else xpmemPinPages g src c vaddr count

/-- The counters after `c` moved by `n` pins. -/
def Counters.add (c : Counters) (n : ℕ) : Counters := ⟨c.tgPinned + n, c.partPinned + n⟩

@[simp] theorem Counters.add_zero (c : Counters) : c.add 0 = c := by simp [Counters.add]

section Spec

variable (g : Geometry) (src : Src) (c : Counters) (vaddr count : ℕ)

/-- `get_user_pages` pinning `pages` returns their number and moves both
counters by it; with none pinned `if (nr_pinned > 0)` leaves them, as adding
zero would. -/
theorem gupResult_ok (pages : List ℕ) :
    gupResult c (.ok pages) = ⟨pages.length, pages, c.add pages.length⟩ := by
  simp only [gupResult]
  split_ifs with h
  · rfl
  · simp [show pages.length = 0 by omega]

/-- On every value of `get_user_pages` the counters move by the pages filled. -/
theorem gupResult_counters (r : Except ℤ (List ℕ)) :
    (gupResult c r).counters = c.add (gupResult c r).pages.length := by
  cases r with
  | error e => simp [gupResult]
  | ok pages => simp [gupResult_ok]

/-- On every path both counters move by the pages filled. -/
theorem xpmemPinPages_counters :
    (xpmemPinPages g src c vaddr count).counters = c.add (xpmemPinPages g src c vaddr count).pages.length := by
  unfold xpmemPinPages
  split
  · simp
  · split_ifs <;> simp [gupResult_counters]

/-- A VMA that is missing, starts above `vaddr` or is an XPMEM attachment
gives `-ENOENT`, fills nothing and leaves the counters. -/
theorem xpmemPinPages_refused (h : ∀ vma, src.findVma vaddr = some vma → vaddr < vma.vmStart ∨ vma.xpmemOps = true) :
    xpmemPinPages g src c vaddr count = ⟨-enoent, [], c⟩ := by
  unfold xpmemPinPages
  split
  · rfl
  · rename_i vma hv
    rcases h vma hv with hs | ho
    · rw [if_pos hs]
    · split_ifs <;> rfl

/-- Past the checks `get_user_pages` is asked for the pages left in the VMA,
at most `count`, writable exactly when the VMA is. -/
theorem xpmemPinPages_gup {vma : Vma} (hv : src.findVma vaddr = some vma) (hs : vma.vmStart ≤ vaddr)
    (ho : vma.xpmemOps = false) :
    xpmemPinPages g src c vaddr count =
      gupResult c (src.gup vaddr (min count (u64Sub vma.vmEnd vaddr >>> g.pageShift)) vma.write) := by
  simp [xpmemPinPages, hv, Nat.not_lt.mpr hs, ho]

/-- The pages left in a VMA from an address inside it end by `vm_end`. -/
theorem avail_mul_le {vma : Vma} (hend : vaddr < vma.vmEnd) (hlt : vma.vmEnd < 2 ^ 64) :
    (u64Sub vma.vmEnd vaddr >>> g.pageShift) * g.pageSize ≤ vma.vmEnd - vaddr := by
  have hsub : u64Sub vma.vmEnd vaddr = vma.vmEnd - vaddr := by
    rw [u64Sub, show vma.vmEnd + 2 ^ 64 - vaddr = vma.vmEnd - vaddr + 2 ^ 64 by omega, u64,
      Nat.add_mod_right, Nat.mod_eq_of_lt (by omega)]
  rw [hsub, Nat.shiftRight_eq_div_pow]
  exact Nat.div_mul_le_self _ _

/-- A destroying segment pins nothing; otherwise `xpmem_ensure_valid_PFN` is
`xpmem_pin_pages`, so on every path the counters move by the pages filled. -/
theorem xpmemEnsureValidPFN_counters (destroying : Bool) :
    (xpmemEnsureValidPFN g destroying src c vaddr count).counters =
      c.add (xpmemEnsureValidPFN g destroying src c vaddr count).pages.length := by
  cases destroying
  · exact xpmemPinPages_counters g src c vaddr count
  · simp [xpmemEnsureValidPFN]

/-- The pages filled do not depend on the counters. -/
theorem xpmemEnsureValidPFN_pages (destroying : Bool) (c' : Counters) :
    (xpmemEnsureValidPFN g destroying src c vaddr count).pages =
      (xpmemEnsureValidPFN g destroying src c' vaddr count).pages := by
  have hgup : ∀ r, (gupResult c r).pages = (gupResult c' r).pages := fun r => by
    cases r with
    | error e => rfl
    | ok pages => rw [gupResult_ok, gupResult_ok]
  cases destroying
  · simp only [xpmemEnsureValidPFN, Bool.false_eq_true, if_false, xpmemPinPages]
    cases src.findVma vaddr with
    | none => rfl
    | some vma => dsimp only; split_ifs <;> simp [hgup]
  · rfl

end Spec

/-- For every source whose `find_vma` and `get_user_pages` keep their
contracts: a missing VMA, one starting above `vaddr` or an XPMEM attachment
gives `-ENOENT` and changes nothing; otherwise the call returns a negative
errno with no page, or the number of pages it pinned, at most `count`, all
from `vaddr` up to `vm_end` of a VMA that contains `vaddr` and is not an
attachment; and on every path both counters move by the pages pinned. -/
theorem pin_pages_within_vma (g : Geometry) (src : Src) (hsrc : src.Spec) (c : Counters)
    (vaddr count : ℕ) :
    (xpmemPinPages g src c vaddr count).counters =
        c.add (xpmemPinPages g src c vaddr count).pages.length ∧
      ((∀ vma, src.findVma vaddr = some vma → vaddr < vma.vmStart ∨ vma.xpmemOps = true) →
        xpmemPinPages g src c vaddr count = ⟨-enoent, [], c⟩) ∧
      ((xpmemPinPages g src c vaddr count).ret < 0 ∧ (xpmemPinPages g src c vaddr count).pages = [] ∨
        (xpmemPinPages g src c vaddr count).ret = (xpmemPinPages g src c vaddr count).pages.length ∧
        (xpmemPinPages g src c vaddr count).pages.length ≤ count ∧
        ∃ vma, src.findVma vaddr = some vma ∧ vma.vmStart ≤ vaddr ∧ vma.xpmemOps = false ∧
          vaddr + (xpmemPinPages g src c vaddr count).pages.length * g.pageSize ≤ vma.vmEnd) := by
  refine ⟨xpmemPinPages_counters g src c vaddr count, xpmemPinPages_refused g src c vaddr count, ?_⟩
  by_cases hchk : ∃ vma, src.findVma vaddr = some vma ∧ vma.vmStart ≤ vaddr ∧ vma.xpmemOps = false
  · obtain ⟨vma, hv, hs, ho⟩ := hchk
    obtain ⟨hin, hlt⟩ := hsrc.findVma_end vaddr vma hv
    have hlim := avail_mul_le g vaddr hin hlt
    rw [xpmemPinPages_gup g src c vaddr count hv hs ho]
    cases hr : src.gup vaddr (min count (u64Sub vma.vmEnd vaddr >>> g.pageShift)) vma.write with
    | error e => exact .inl ⟨hsrc.gup_error _ _ _ e hr, rfl⟩
    | ok pages =>
      -- the pages pinned are at most those asked for, which end by `vm_end`
      have hlen := hsrc.gup_ok _ _ _ pages hr
      have hend : vaddr + pages.length * g.pageSize ≤ vma.vmEnd := by
        have := Nat.mul_le_mul_right g.pageSize (Nat.le_trans hlen (Nat.min_le_right _ _))
        omega
      rw [gupResult_ok]
      exact .inr ⟨rfl, Nat.le_trans hlen (Nat.min_le_left _ _), vma, hv, hs, ho, hend⟩
  · push_neg at hchk
    rw [xpmemPinPages_refused g src c vaddr count fun vma hv => by
      by_cases hs : vma.vmStart ≤ vaddr
      · exact .inr (by simpa using hchk vma hv hs)
      · exact .inl (by omega)]
    exact .inl ⟨show -enoent < 0 by decide, rfl⟩

/-- One writable VMA `[0x1000, 0x3000)`, from which `get_user_pages` pins
every page asked for, frames from 5 up. -/
def oneVma : Src where
  findVma a := if a < 0x3000 then some ⟨0x1000, 0x3000, true, false⟩ else none
  gup _ count _ := .ok ((List.range count).map (· + 5))

theorem oneVma_spec : oneVma.Spec where
  findVma_end a vma h := by
    simp only [oneVma] at h
    split_ifs at h with ha
    cases h
    exact ⟨ha, by decide⟩
  gup_error _ _ _ _ h := by cases h
  gup_ok _ _ _ _ h := by cases h; simp

/-- Above the VMA the call is refused and the counters stay. -/
theorem pin_pages_within_vma_above :
    oneVma.Spec ∧ ((∀ vma, oneVma.findVma 0x3000 = some vma → 0x3000 < vma.vmStart ∨ vma.xpmemOps = true) →
      xpmemPinPages Geometry.x86_64 oneVma ⟨0, 0⟩ 0x3000 5 = ⟨-enoent, [], ⟨0, 0⟩⟩) :=
  ⟨oneVma_spec, (pin_pages_within_vma Geometry.x86_64 oneVma oneVma_spec ⟨0, 0⟩ 0x3000 5).2.1⟩

/-- Five pages asked for one page below `vm_end`: one is pinned. -/
example : xpmemPinPages Geometry.x86_64 oneVma ⟨3, 3⟩ 0x2000 5 = ⟨1, [5], ⟨4, 4⟩⟩ := by decide

end XpmemPfn.PinPages
