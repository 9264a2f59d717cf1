import XpmemPfn.Geometry
import Mathlib.Data.List.Range
import Mathlib.Data.List.Nodup

/-!
# Installing pinned pages: `remap_func` and `xpmem_remap_pages`

A fault on an attachment pins `nr_pages` pages of the source and hands them to
`xpmem_remap_pages`, which walks the importer range with
`apply_to_page_range`. For each slot the walk reaches, `remap_func` takes the
next page: an empty slot gets a special PTE for it, a filled slot keeps its
entry and the page is released. The walk may stop early (it allocates page
tables), and the loop after it releases every page it did not reach. The
slot of the faulting address decides the return value.

`pages[]` is read through `getElem?`, so a read past `nr_pages` would be a
`none`: that every run returns a result shows there is none.
-/

namespace XpmemPfn.RemapPages

/-- `VM_FAULT_NOPAGE`. -/
def vmFaultNopage : ℕ := 0x100

/-- An importer PTE as `remap_func` sees it. -/
structure Pte where
  /-- `pte_pfn(pte)`: 0 for an empty slot. -/
  pfn : ℕ
  /-- Made by `pte_mkspecial`: no `struct page` behind it. -/
  special : Bool
  deriving DecidableEq, Repr

/-- `struct remap_context`, less `seg`, `vma` and `count`: the first two only
name the memory below, the last is never read. -/
structure RemapContext where
  /-- `pages`, each entry as the frame `page_to_pfn` gives. -/
  pages : List ℕ
  /-- `index`: the next entry of `pages` to hand out. -/
  index : ℕ
  /-- `vaddr`: the faulting address. -/
  vaddr : ℕ
  /-- `result`: the fault outcome so far. -/
  result : ℕ

/-- The memory `xpmem_remap_pages` writes. -/
structure Mem where
  /-- The importer's PTE slots, by address. -/
  ptes : ℕ → Pte
  /-- `seg->tg->n_pinned`. -/
  nPinned : ℤ
  /-- `xpmem_my_part->n_unpinned`. -/
  nUnpinned : ℤ
  /-- Ghost: the index into `pages` of every `xpmem_put_page`, in call order. -/
  puts : List ℕ

/-- `xpmem_put_page(pages[i])` and the two counter updates after it. -/
def Mem.putPage (m : Mem) (i : ℕ) : Mem :=
  { m with nPinned := m.nPinned - 1, nUnpinned := m.nUnpinned + 1, puts := m.puts ++ [i] }

@[simp] theorem Mem.putPage_ptes (m : Mem) (i : ℕ) : (m.putPage i).ptes = m.ptes := rfl

/-- `remap_func(pte, addr, data)` on the context and the memory. -/
def remapFunc (d : RemapContext × Mem) (addr : ℕ) : Option (RemapContext × Mem) := do
  let (ctx, m) := d
  let pfn ← ctx.pages[ctx.index]?
  let oldPfn := (m.ptes addr).pfn
  let ctx' := { ctx with
    index := ctx.index + 1
    result := if addr = ctx.vaddr ∧ (oldPfn = 0 ∨ pfn = oldPfn) then vmFaultNopage else ctx.result }
  if oldPfn ≠ 0 then pure (ctx', m.putPage ctx.index)
  else pure (ctx', { m with ptes := Function.update m.ptes addr ⟨pfn, true⟩ })

/-- `apply_to_page_range(mm, start, size, fn, data)` as far as it gets: `fn`
on the first `k` page slots of the range, in address order. `remap_func`
always returns 0, so only a failed page-table allocation stops it early. -/
def applyToPageRange {σ : Type} (g : Geometry) (fn : σ → ℕ → Option σ) (start k : ℕ) (d : σ) :
    Option σ :=
  (List.range k).foldlM (fun d i => fn d (start + i * g.pageSize)) d

/-- `xpmem_remap_pages(seg, vma, vaddr, start, pages, nr_pages)` when
`apply_to_page_range` visits `k` slots: the memory after it and its return
value. -/
def xpmemRemapPages (g : Geometry) (m : Mem) (vaddr start : ℕ) (pages : List ℕ) (k : ℕ) :
    Option (Mem × ℕ) := do
  let (ctx, m) ← applyToPageRange g remapFunc start k (⟨pages, 0, vaddr, 0⟩, m)
  let m := (List.range' ctx.index (pages.length - ctx.index)).foldl Mem.putPage m
  pure (m, ctx.result)

theorem applyToPageRange_succ {σ : Type} (g : Geometry) (fn : σ → ℕ → Option σ) (start k : ℕ)
    (d : σ) : applyToPageRange g fn start (k + 1) d =
      (applyToPageRange g fn start k d).bind fun d => fn d (start + k * g.pageSize) := by
  simp only [applyToPageRange, List.range_succ, List.foldlM_append, List.foldlM_cons,
    List.foldlM_nil, bind_pure]
  rfl

/-- The release loop after the walk appends its indices to the log and moves
both counters by their number. -/
theorem foldl_putPage (m : Mem) (l : List ℕ) :
    l.foldl Mem.putPage m =
      { m with nPinned := m.nPinned - l.length, nUnpinned := m.nUnpinned + l.length,
               puts := m.puts ++ l } := by
  induction l generalizing m with
  | nil => simp
  | cons i l ih =>
    rw [List.foldl_cons, ih]
    simp only [Mem.putPage, List.length_cons, List.append_assoc, List.singleton_append]
    congr 1 <;> omega

/-- A flag set at the first index that satisfies `p`, over one more index. -/
theorem ite_exists_succ {p : ℕ → Prop} [DecidablePred p] (k a : ℕ) :
    (if p k then a else if ∃ j < k, p j then a else 0) = if ∃ j < k + 1, p j then a else 0 := by
  by_cases hk : p k
  · rw [if_pos hk, if_pos ⟨k, Nat.lt_succ_self k, hk⟩]
  · simp only [hk, if_false, Nat.lt_succ_iff_lt_or_eq, or_and_right, exists_or, exists_eq_left,
      or_false]

/-- `xpmem_my_part->n_unpinned` moved by `du`, as another partition member's
calls move it. -/
def Mem.addUnpinned (m : Mem) (du : ℤ) : Mem := { m with nUnpinned := m.nUnpinned + du }

theorem remapFunc_addUnpinned (ctx : RemapContext) (m : Mem) (du : ℤ) (addr : ℕ) :
    remapFunc (ctx, m.addUnpinned du) addr = (remapFunc (ctx, m) addr).map fun d => (d.1, d.2.addUnpinned du) := by
  simp only [remapFunc]
  cases ctx.pages[ctx.index]? with
  | none => rfl
  | some pfn =>
    simp only [Option.bind_eq_bind, Option.some_bind, Mem.addUnpinned, Mem.putPage]
    split_ifs <;> simp only [Option.pure_def, Option.map_some', Option.some.injEq, Prod.mk.injEq,
      Mem.mk.injEq, true_and, and_true] <;> omega

theorem applyToPageRange_addUnpinned (g : Geometry) (start : ℕ) (ctx : RemapContext) (m : Mem) (du : ℤ) :
    ∀ k, applyToPageRange g remapFunc start k (ctx, m.addUnpinned du) =
      (applyToPageRange g remapFunc start k (ctx, m)).map fun d => (d.1, d.2.addUnpinned du)
  | 0 => rfl
  | k + 1 => by
    rw [applyToPageRange_succ, applyToPageRange_succ, applyToPageRange_addUnpinned g start ctx m du k]
    cases applyToPageRange g remapFunc start k (ctx, m) with
    | none => rfl
    | some d => exact remapFunc_addUnpinned d.1 d.2 du _

/-- `xpmem_remap_pages` only adds to `n_unpinned`: from another starting
value it ends moved by as much, with everything else the same. -/
theorem xpmemRemapPages_addUnpinned (g : Geometry) (m : Mem) (du : ℤ) (vaddr start : ℕ)
    (pages : List ℕ) (k : ℕ) :
    xpmemRemapPages g (m.addUnpinned du) vaddr start pages k =
      (xpmemRemapPages g m vaddr start pages k).map fun r => (r.1.addUnpinned du, r.2) := by
  unfold xpmemRemapPages
  rw [applyToPageRange_addUnpinned]
  cases applyToPageRange g remapFunc start k (⟨pages, 0, vaddr, 0⟩, m) with
  | none => rfl
  | some d =>
    simp only [Option.map_some', Option.bind_eq_bind, Option.some_bind, foldl_putPage, Mem.addUnpinned,
      Option.pure_def, Option.some.injEq, Prod.mk.injEq, Mem.mk.injEq, true_and, and_true]
    omega

section Walk

variable (g : Geometry) (m₀ : Mem) (vaddr start : ℕ) (pages : List ℕ)

/-- The address of the `i`-th slot of the range. -/
def slotAddr (i : ℕ) : ℕ := start + i * g.pageSize

/-- The contents of the `i`-th slot before the call. -/
def oldSlot (i : ℕ) : Pte := m₀.ptes (slotAddr g start i)

/-- Whether slot `i` held an entry before the call. -/
def filled (i : ℕ) : Bool := (oldSlot g m₀ start i).pfn ≠ 0

/-- Whether slot `i` is the faulting address and empty or already ours. -/
def satisfies (i : ℕ) : Prop :=
  slotAddr g start i = vaddr ∧
    ((oldSlot g m₀ start i).pfn = 0 ∨ pages.getD i 0 = (oldSlot g m₀ start i).pfn)

instance : DecidablePred (satisfies g m₀ vaddr start pages) :=
  fun _ => inferInstanceAs (Decidable (_ ∧ _))

/-- The walk after `remap_func` has run on slots `0 … k-1`. -/
structure Visited (k : ℕ) (c : RemapContext) (m : Mem) : Prop where
  pages_eq : c.pages = pages
  index_eq : c.index = k
  vaddr_eq : c.vaddr = vaddr
  result_eq : c.result = if ∃ j < k, satisfies g m₀ vaddr start pages j then vmFaultNopage else 0
  visited : ∀ i < k, m.ptes (slotAddr g start i) =
    if (oldSlot g m₀ start i).pfn = 0 then ⟨pages.getD i 0, true⟩ else oldSlot g m₀ start i
  other : ∀ a, (∀ i < k, a ≠ slotAddr g start i) → m.ptes a = m₀.ptes a
  puts_eq : m.puts = m₀.puts ++ (List.range k).filter (filled g m₀ start)
  nPinned_eq : m.nPinned = m₀.nPinned - ((List.range k).filter (filled g m₀ start)).length
  nUnpinned_eq : m.nUnpinned = m₀.nUnpinned + ((List.range k).filter (filled g m₀ start)).length

omit vaddr pages in
theorem slotAddr_inj {i j : ℕ} (h : slotAddr g start i = slotAddr g start j) : i = j :=
  Nat.eq_of_mul_eq_mul_right g.pageSize_pos (by simp only [slotAddr] at h; omega)

/-- One `remap_func` call on the next slot extends the visited prefix. -/
theorem remapFunc_visited {k : ℕ} {c : RemapContext} {m : Mem} (hk : k < pages.length)
    (hv : Visited g m₀ vaddr start pages k c m) :
    ∃ c' m', remapFunc (c, m) (slotAddr g start k) = some (c', m') ∧
      Visited g m₀ vaddr start pages (k + 1) c' m' := by
  have hold : m.ptes (slotAddr g start k) = oldSlot g m₀ start k :=
    hv.other _ fun i hi he => by have := slotAddr_inj g start he; omega
  have hget : c.pages[k]? = some (pages.getD k 0) := by
    rw [hv.pages_eq, List.getD_eq_getElem?_getD, List.getElem?_eq_getElem hk]; rfl
  have hfil : (List.range (k + 1)).filter (filled g m₀ start) =
      (List.range k).filter (filled g m₀ start) ++ if filled g m₀ start k then [k] else [] := by
    rw [List.range_succ, List.filter_append]; cases h : filled g m₀ start k <;> simp [List.filter, h]
  simp only [remapFunc, hget, hold, hv.index_eq, hv.vaddr_eq, Option.bind_eq_bind, Option.some_bind]
  cases hf : filled g m₀ start k with
  | true =>
    have hne : (oldSlot g m₀ start k).pfn ≠ 0 := by simpa [filled] using hf
    rw [if_pos hne]
    refine ⟨_, _, rfl, hv.pages_eq, rfl, rfl, ?_, fun i hi => ?_, fun a ha => ?_, ?_, ?_, ?_⟩
    · show (if satisfies g m₀ vaddr start pages k then vmFaultNopage else c.result) = _
      rw [hv.result_eq]; exact ite_exists_succ k vmFaultNopage
    · rcases Nat.lt_succ_iff_lt_or_eq.mp hi with hi | rfl
      · exact hv.visited i hi
      · simp [hold, hne]
    · exact hv.other a fun i hi => ha i (by omega)
    · simp [Mem.putPage, hv.puts_eq, hfil, hf]
    · simp [Mem.putPage, hv.nPinned_eq, hfil, hf]; omega
    · simp [Mem.putPage, hv.nUnpinned_eq, hfil, hf]; omega
  | false =>
    have he : (oldSlot g m₀ start k).pfn = 0 := by simpa [filled] using hf
    rw [if_neg (not_not.mpr he)]
    refine ⟨_, _, rfl, hv.pages_eq, rfl, rfl, ?_, fun i hi => ?_, fun a ha => ?_, ?_, ?_, ?_⟩
    · show (if satisfies g m₀ vaddr start pages k then vmFaultNopage else c.result) = _
      rw [hv.result_eq]; exact ite_exists_succ k vmFaultNopage
    · dsimp only
      rcases Nat.lt_succ_iff_lt_or_eq.mp hi with hi | rfl
      · rw [Function.update_noteq fun h => by have := slotAddr_inj g start h; omega]
        exact hv.visited i hi
      · simp [he]
    · dsimp only
      rw [Function.update_noteq (ha k (by omega))]
      exact hv.other a fun i hi => ha i (by omega)
    · simp [hv.puts_eq, hfil, hf]
    · simp [hv.nPinned_eq, hfil, hf]
    · simp [hv.nUnpinned_eq, hfil, hf]

/-- `apply_to_page_range` over `k ≤ nr_pages` slots reads only entries of
`pages` and leaves the walk at slot `k`. -/
theorem applyToPageRange_visited {k : ℕ} (hk : k ≤ pages.length) :
    ∃ c m, applyToPageRange g remapFunc start k (⟨pages, 0, vaddr, 0⟩, m₀) = some (c, m) ∧
      Visited g m₀ vaddr start pages k c m := by
  induction k with
  | zero => exact ⟨_, _, rfl, rfl, rfl, rfl, by simp, by simp, fun _ _ => rfl, by simp, by simp, by simp⟩
  | succ k ih =>
    obtain ⟨c, m, hrun, hv⟩ := ih (by omega)
    obtain ⟨c', m', hstep, hv'⟩ := remapFunc_visited g m₀ vaddr start pages (by omega) hv
    exact ⟨c', m', by rw [applyToPageRange_succ, hrun, Option.some_bind]; exact hstep, hv'⟩

/-- The pages `xpmem_remap_pages` releases, in order: those of the filled
slots the walk reached, then every page it did not reach. -/
def released (k : ℕ) : List ℕ :=
  (List.range k).filter (filled g m₀ start) ++ List.range' k (pages.length - k)

omit vaddr in
theorem mem_released {k : ℕ} (hk : k ≤ pages.length) (i : ℕ) :
    i ∈ released g m₀ start pages k ↔
      i < pages.length ∧ (k ≤ i ∨ (oldSlot g m₀ start i).pfn ≠ 0) := by
  simp only [released, List.mem_append, List.mem_filter, List.mem_range, List.mem_range'_1, filled,
    decide_eq_true_eq]
  omega

omit vaddr in
theorem nodup_released (k : ℕ) : (released g m₀ start pages k).Nodup := by
  refine (List.nodup_range k).filter _ |>.append (List.nodup_range' _ _) fun i h1 h2 => ?_
  simp only [List.mem_filter, List.mem_range, List.mem_range'_1] at h1 h2
  omega

/-- `xpmem_remap_pages` returns the walk's outcome and the memory after the
release loop. -/
theorem xpmemRemapPages_visited {k : ℕ} (hk : k ≤ pages.length) :
    ∃ c m, Visited g m₀ vaddr start pages k c m ∧
      xpmemRemapPages g m₀ vaddr start pages k =
        some ({ m with nPinned := m.nPinned - (pages.length - k : ℕ),
                       nUnpinned := m.nUnpinned + (pages.length - k : ℕ),
                       puts := m.puts ++ List.range' k (pages.length - k) }, c.result) := by
  obtain ⟨c, m, hrun, hv⟩ := applyToPageRange_visited g m₀ vaddr start pages hk
  refine ⟨c, m, hv, ?_⟩
  simp only [xpmemRemapPages, hrun, Option.bind_eq_bind, Option.some_bind, hv.index_eq,
    foldl_putPage, List.length_range']
  rfl

end Walk

/-- For every `nr_pages`, `pages`, start, faulting address, initial slot
contents and number `k ≤ nr_pages` of slots the walk reaches,
`xpmem_remap_pages` reads no entry past `pages[nr_pages - 1]`; gives each
reached empty slot a special PTE for its page and leaves every other slot as
it was; releases, each once, exactly the pages of reached filled slots and of
unreached slots, moving `n_pinned` and `n_unpinned` by their number; and
returns `VM_FAULT_NOPAGE` exactly when the faulting address is a reached slot
that was empty or held the page's own frame. -/
theorem remap_pages_installs_empty_slots (g : Geometry) (m : Mem) (vaddr start : ℕ)
    (pages : List ℕ) (k : ℕ) (hk : k ≤ pages.length) :
    ∃ m' r rel, xpmemRemapPages g m vaddr start pages k = some (m', r) ∧
      (∀ i (hi : i < k), m'.ptes (start + i * g.pageSize) =
        if (m.ptes (start + i * g.pageSize)).pfn = 0 then ⟨pages[i], true⟩
        else m.ptes (start + i * g.pageSize)) ∧
      (∀ a, (∀ i < k, a ≠ start + i * g.pageSize) → m'.ptes a = m.ptes a) ∧
      m'.puts = m.puts ++ rel ∧ rel.Nodup ∧
      (∀ i, i ∈ rel ↔ i < pages.length ∧ (k ≤ i ∨ (m.ptes (start + i * g.pageSize)).pfn ≠ 0)) ∧
      m'.nPinned = m.nPinned - rel.length ∧ m'.nUnpinned = m.nUnpinned + rel.length ∧
      (r = vmFaultNopage ↔ ∃ j, ∃ hj : j < k, start + j * g.pageSize = vaddr ∧
        ((m.ptes (start + j * g.pageSize)).pfn = 0 ∨ pages[j] = (m.ptes (start + j * g.pageSize)).pfn)) ∧
      (r = 0 ∨ r = vmFaultNopage) := by
  obtain ⟨c, m', hv, hrun⟩ := xpmemRemapPages_visited g m vaddr start pages hk
  have hlen : (released g m start pages k).length =
      ((List.range k).filter (filled g m start)).length + (pages.length - k) := by
    simp [released]
  have hget : ∀ i (hi : i < pages.length), pages.getD i 0 = pages[i] := fun i hi => by
    rw [List.getD_eq_getElem?_getD, List.getElem?_eq_getElem hi]; rfl
  refine ⟨_, _, released g m start pages k, hrun, fun i hi => ?_, hv.other, ?_,
    nodup_released g m start pages k, mem_released g m start pages hk, ?_, ?_, ?_, ?_⟩
  · rw [← hget i (by omega)]; exact hv.visited i hi
  · simp [hv.puts_eq, released]
  · simp only [hv.nPinned_eq, hlen]; push_cast; omega
  · simp only [hv.nUnpinned_eq, hlen]; push_cast; omega
  · rw [hv.result_eq]
    have : (∃ j < k, satisfies g m vaddr start pages j) ↔ ∃ j, ∃ hj : j < k,
        start + j * g.pageSize = vaddr ∧ ((m.ptes (start + j * g.pageSize)).pfn = 0 ∨
          pages[j] = (m.ptes (start + j * g.pageSize)).pfn) :=
      ⟨fun ⟨j, hj, h⟩ => ⟨j, hj, by simpa only [satisfies, oldSlot, slotAddr, hget j (by omega)] using h⟩,
        fun ⟨j, hj, h⟩ => ⟨j, hj, by simpa only [satisfies, oldSlot, slotAddr, hget j (by omega)] using h⟩⟩
    split_ifs with h
    · exact iff_of_true rfl (this.mp h)
    · exact iff_of_false (by decide) (this.not.mp h)
  · rw [hv.result_eq]; split_ifs <;> simp

/-- Three pinned pages for a range whose second slot already holds frame 3;
three pages counted in `n_pinned`. -/
def halfFilled : Mem := ⟨fun a => if a = 8192 then ⟨3, true⟩ else ⟨0, false⟩, 3, 0, []⟩

/-- The walk stops after two slots: it installs page 0 in the empty first
slot, keeps the filled second one, and pages 1 and 2 are released. -/
theorem remap_pages_installs_empty_slots_partial :
    2 ≤ [7, 8, 9].length ∧ ∃ m' r rel, xpmemRemapPages Geometry.x86_64 halfFilled 4096 4096 [7, 8, 9] 2 =
      some (m', r) ∧ m'.ptes 4096 = ⟨7, true⟩ ∧ m'.ptes 8192 = ⟨3, true⟩ ∧ m'.puts = rel ∧
      (∀ i, i ∈ rel ↔ i = 1 ∨ i = 2) ∧ m'.nPinned = 3 - rel.length := by
  obtain ⟨m', r, rel, h, hslot, -, hputs, -, hrel, hn, -⟩ :=
    remap_pages_installs_empty_slots Geometry.x86_64 halfFilled 4096 4096 [7, 8, 9] 2 (by decide)
  refine ⟨by decide, m', r, rel, h, by simpa [halfFilled] using hslot 0 (by decide),
    by simpa [halfFilled] using hslot 1 (by decide), by simpa [halfFilled] using hputs, fun i => ?_, hn⟩
  rw [hrel i]
  simp only [halfFilled, Geometry.x86_64, Geometry.pageSize, List.length_cons, List.length_nil]
  split_ifs <;> simp <;> omega

end XpmemPfn.RemapPages
