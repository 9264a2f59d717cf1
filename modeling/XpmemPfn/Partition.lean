import XpmemPfn.PinAccounting
import Mathlib.Algebra.Order.BigOperators.Group.Finset
import Mathlib.Algebra.Order.Group.Int

/-!
# The partition's counters across thread groups

`xpmem_my_part->n_pinned` and `xpmem_my_part->n_unpinned` are shared by every
thread group of the partition: each pin, remap and clear of a group adds to
them atomically as it moves its own `tg->n_pinned`. Here any number of groups
interleave their moves, each one the single-group `step` on the group's own
state with the partition's counters.

Every group keeps a ghost share of the two counters, what its own moves
added. A move only adds to the counters (`step_addPart`), so a group's state
with its share is one the single-group model reaches, and everything
`PinAccounting` proves holds of each group. The partition's counters are the
sums of the shares; so the total unpinned is never above the total pinned,
and their difference is the sum of the groups' `n_pinned`.
-/

namespace XpmemPfn.Partition

open PinAccounting

/-- The thread groups of the partition and its counters. -/
structure State (TG : Type) where
  /-- Each group's pins and attachments. Its `partPinned` and `partUnpinned`
  are a ghost share: what the group's own moves added to the partition's
  counters. -/
  tgs : TG → PinAccounting.State
  /-- `xpmem_my_part->n_pinned`. -/
  nPinned : ℤ
  /-- `xpmem_my_part->n_unpinned`. -/
  nUnpinned : ℤ

variable {g : Geometry} {TG : Type} [DecidableEq TG] (slots : TG → Slots g)

/-- Group `k` as its own calls see memory: its state, with the partition's counters. -/
def State.view (p : State TG) (k : TG) : PinAccounting.State :=
  { p.tgs k with partPinned := p.nPinned, partUnpinned := p.nUnpinned }

/-- A move of group `k`: the single-group move on its view. The partition's
counters take the result; the group's share moves by as much. -/
def step (p : State TG) (k : TG) (a : Action) : Option (State TG) :=
  (PinAccounting.step (slots k) (p.view k) a).map fun s =>
    ⟨Function.update p.tgs k
        (s.addPart ((p.tgs k).partPinned - p.nPinned) ((p.tgs k).partUnpinned - p.nUnpinned)),
      s.partPinned, s.partUnpinned⟩

/-- No group has pinned anything. -/
def State.init : State TG := ⟨fun _ => PinAccounting.State.init, 0, 0⟩

/-- The states reachable from a fresh partition, in any interleaving of the groups' moves. -/
inductive Reachable : State TG → Prop
  | init : Reachable State.init
  | step {p p' : State TG} (k : TG) (a : Action) : Reachable p → step slots p k a = some p' → Reachable p'

/-- The moves `as`, each by its group, one after another; `none` when one is not enabled. -/
def run (p : State TG) : List (TG × Action) → Option (State TG)
  | [] => some p
  | a :: as => (step slots p a.1 a.2).bind fun p' => run p' as

theorem run_reachable {p p' : State TG} (h : Reachable slots p) :
    ∀ {as : List (TG × Action)}, run slots p as = some p' → Reachable slots p'
  | [], hr => Option.some.inj hr ▸ h
  | a :: as, hr => by
    obtain ⟨p1, h1, hr⟩ := Option.bind_eq_some.mp hr
    exact run_reachable (.step a.1 a.2 h h1) hr

omit [DecidableEq TG] in
/-- The view is the group's state with its share shifted to the partition's counters. -/
theorem State.view_eq (p : State TG) (k : TG) :
    p.view k = (p.tgs k).addPart (p.nPinned - (p.tgs k).partPinned) (p.nUnpinned - (p.tgs k).partUnpinned) := by
  simp only [State.view, State.addPart, sub_add_cancel, add_sub_cancel]

/-- A move of group `k` is a single-group move of its state with its share:
the other groups stay, and the partition's counters move as the share does. -/
theorem step_share {p p' : State TG} {k : TG} {a : Action} (h : step slots p k a = some p') :
    ∃ s, PinAccounting.step (slots k) (p.tgs k) a = some s ∧ p'.tgs = Function.update p.tgs k s ∧
      p'.nPinned = p.nPinned + (s.partPinned - (p.tgs k).partPinned) ∧
      p'.nUnpinned = p.nUnpinned + (s.partUnpinned - (p.tgs k).partUnpinned) := by
  rw [step, State.view_eq, step_addPart] at h
  obtain ⟨s', h1, rfl⟩ := Option.map_eq_some'.mp h
  obtain ⟨s, hs, rfl⟩ := Option.map_eq_some'.mp h1
  refine ⟨s, hs, by simp, ?_, ?_⟩ <;> simp only [State.addPart] <;> omega

variable [Fintype TG]

/-- Moving one group's share moves the sum of all shares by as much. -/
theorem sum_update_share (f : TG → PinAccounting.State) (k : TG) (s : PinAccounting.State)
    (v : PinAccounting.State → ℤ) :
    ∑ j, v (Function.update f k s j) = ∑ j, v (f j) + (v s - v (f k)) := by
  have e : ∀ j, v (Function.update f k s j) = Function.update (fun j => v (f j)) k (v s) j := fun j => by
    by_cases hj : j = k
    · subst hj; simp
    · simp [hj]
  simp only [e]
  rw [Finset.sum_update_of_mem (Finset.mem_univ k), ← Finset.add_sum_erase _ _ (Finset.mem_univ k),
    Finset.sdiff_singleton_eq_erase]
  omega

/-- Every group's state with its share is reachable alone, and the
partition's counters are the sums of the shares. -/
theorem reachable_shares {p : State TG} (h : Reachable slots p) :
    (∀ k, PinAccounting.Reachable (slots k) (p.tgs k)) ∧
      p.nPinned = ∑ k, (p.tgs k).partPinned ∧ p.nUnpinned = ∑ k, (p.tgs k).partUnpinned := by
  induction h with
  | init => exact ⟨fun _ => .init, by simp [State.init, PinAccounting.State.init]⟩
  | step k a _ hs ih =>
    obtain ⟨s, hstep, htgs, hp, hu⟩ := step_share slots hs
    obtain ⟨hr, hP, hU⟩ := ih
    refine ⟨fun j => ?_, ?_, ?_⟩
    · rw [htgs]
      by_cases hj : j = k
      · subst hj; simpa using PinAccounting.Reachable.step a (hr j) hstep
      · simpa [hj] using hr j
    · rw [htgs, sum_update_share, hp, hP]
    · rw [htgs, sum_update_share, hu, hU]

/-- In every interleaving of the pins, remaps and clears of any finite set of
thread groups sharing a partition: each group, with what its own moves added
to the partition's counters, is in a state the single-group model reaches,
so its accounting is conserved as there; `xpmem_my_part->n_pinned` minus
`xpmem_my_part->n_unpinned` is the sum of the groups' `tg->n_pinned`; and the
partition never counts more pages unpinned than pinned. -/
theorem partition_counters_sum_groups {p : State TG} (h : Reachable slots p) :
    (∀ k, PinAccounting.Reachable (slots k) (p.tgs k)) ∧
      p.nPinned - p.nUnpinned = ∑ k, (p.tgs k).nPinned ∧ p.nUnpinned ≤ p.nPinned := by
  obtain ⟨hr, hP, hU⟩ := reachable_shares slots h
  have hsum : p.nPinned - p.nUnpinned = ∑ k, (p.tgs k).nPinned := by
    rw [hP, hU, ← Finset.sum_sub_distrib]
    exact Finset.sum_congr rfl fun k _ => (inv_reachable (slots k) (hr k)).part_eq
  have hpos : 0 ≤ ∑ k, (p.tgs k).nPinned := by
    apply Finset.sum_nonneg
    intro k _
    rw [(inv_reachable (slots k) (hr k)).nPinned_eq_installed]; omega
  exact ⟨hr, hsum, by omega⟩

/-- Two groups, each with one attachment page: group 0 faults twice as in
`faultTwice`, then group 1 pins one page, which stays in flight. -/
def twoGroups : List (Fin 2 × Action) :=
  faultTwice.map (0, ·) ++ [(1, .pin false PinPages.oneVma 0x1000 1)]

/-- After those moves the partition counts four pages pinned and one
unpinned, and the three pins still held are the groups' `n_pinned`. -/
theorem partition_counters_sum_groups_two :
    ∃ p, run (fun _ : Fin 2 => onePage) State.init twoGroups = some p ∧
      Reachable (fun _ : Fin 2 => onePage) p ∧ p.nPinned = 4 ∧ p.nUnpinned = 1 ∧
      (∀ k, PinAccounting.Reachable onePage (p.tgs k)) ∧
      p.nPinned - p.nUnpinned = ∑ k, (p.tgs k).nPinned ∧ p.nUnpinned ≤ p.nPinned := by
  obtain ⟨p, hp, hv⟩ := Option.map_eq_some'.mp (show (run (fun _ : Fin 2 => onePage) State.init twoGroups).map
      (fun p => (p.nPinned, p.nUnpinned)) = some (4, 1) by decide)
  simp only [Prod.mk.injEq] at hv
  have hr := run_reachable (fun _ : Fin 2 => onePage) .init hp
  exact ⟨p, hp, hr, hv.1, hv.2, partition_counters_sum_groups (fun _ : Fin 2 => onePage) hr⟩

end XpmemPfn.Partition
