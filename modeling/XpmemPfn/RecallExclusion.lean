import XpmemPfn.RecallCounter

/-!
# Blockers and owner-side recalls exclude each other

`n_recall_PFNs` counts the open recall sections minus the threads whose
block returned 0, and one of the two counts is always zero. An open section
is a disallow that returned and whose allow has not run: a thread inside
`xpmem_unpin_procfs_write` or `xpmem_fork_begin` past its disallow, a fork
section left open when `xpmem_fork_begin` returned (or when the lookup of
its `xpmem_fork_end` failed), and the one a thread in `xpmem_fork_end` holds
until its decrement. So no blocker is inside its section while
`xpmem_recall_PFNs_of_tg` runs, and the counter moves only at a successful
CAS, an unblock or an allow: a non-waiting block that returns `-EAGAIN`, and
the `-ESRCH`/`-EPERM` returns of `xpmem_unpin_procfs_write`, leave it alone.

This holds along every run that keeps the threads and the open fork sections
together below `2^31`. The bound is not implied by the code: one thread can
open any number of fork sections, and at `2^31` of them the `int` arithmetic
of the disallow loop wraps. `recall_counter_wraps_at_int_max` runs one
thread into that state and lets a second thread's block return 0 while the
first is inside `xpmem_recall_PFNs_of_tg`.
-/

namespace XpmemPfn.RecallCounter

variable {Tid : Type} [Fintype Tid] [DecidableEq Tid]

/-- Fewer than `2^31` threads and open fork sections together: the disallow
loop's `int` locals cannot wrap. -/
def State.Below (s : State Tid) : Prop := Fintype.card Tid + s.forks < 2 ^ 31

/-- The states of runs from a fresh group every state of which is `Below`. -/
inductive ReachableBelow : State Tid → Prop
  | init : (State.init : State Tid).Below → ReachableBelow State.init
  | step {s s' : State Tid} (a : Action Tid) : ReachableBelow s → step s a = some s' → s'.Below →
      ReachableBelow s'

theorem ReachableBelow.bounded {s : State Tid} (h : ReachableBelow s) : s.Below := by
  cases h <;> assumption

theorem ReachableBelow.reachable {s : State Tid} (h : ReachableBelow s) : Reachable s := by
  induction h with
  | init => exact .init
  | step a _ hs _ ih => exact .step a ih hs

/-- A step opens at most one fork section. -/
theorem threadEffect_forks_le {n : ℤ} {k : ℕ} {live act : Bool} {p : Phase} {e : Effect}
    (he : threadEffect n k live act p = some e) : e.forks ≤ k + 1 := by
  cases p with
  | blockSleep w | disallowSleep c w => simp only [threadEffect] at he; split_ifs at he; cases he; simp
  | recalling c => cases c <;> (simp only [threadEffect, Option.some.injEq] at he; subst he; simp)
  | idle => cases he
  | forkEndLookup => simp only [threadEffect, Option.some.injEq] at he; subst he; split_ifs <;> simp
  | _ => simp only [threadEffect, Option.some.injEq] at he; subst he; simp

/-- A move of the scheduler opens at most one fork section. -/
theorem step_forks_le {s s' : State Tid} {a : Action Tid} (hs : step s a = some s') :
    s'.forks ≤ s.forks + 1 := by
  cases a with
  | call t op =>
    simp only [step] at hs; split_ifs at hs
    obtain ⟨k, hk, rfl⟩ := Option.map_eq_some'.mp hs
    have := Op.take_spec hk; simp only [State.apply_forks]; omega
  | step t =>
    obtain ⟨e, he, rfl⟩ := Option.map_eq_some'.mp hs
    exact threadEffect_forks_le he
  | destroy => cases hs; exact Nat.le_succ _

/-- A run of `m` moves from a `ReachableBelow` state stays `Below` when its
pool could not reach the bound even if every move opened a section. -/
theorem run_reachableBelow {s s' : State Tid} (h : ReachableBelow s) :
    ∀ {as : List (Action Tid)}, run s as = some s' → Fintype.card Tid + s.forks + as.length < 2 ^ 31 →
      ReachableBelow s'
  | [], hr, _ => Option.some.inj hr ▸ h
  | a :: as, hr, hb => by
    obtain ⟨s1, h1, hr⟩ := Option.bind_eq_some.mp hr
    have hf := step_forks_le h1
    simp only [List.length_cons] at hb
    exact run_reachableBelow (.step a h h1 (by unfold State.Below; omega)) hr (by omega)

/-- The counting invariant of one thread group's recall counter. -/
structure ExclusionInv (s : State Tid) : Prop where
  /-- `n_recall_PFNs` is open sections minus blockers. -/
  counter : s.n = s.sections - s.blockers.card
  /-- Open sections and blockers never coexist. -/
  exclusive : s.sections = 0 ∨ s.blockers.card = 0
  /-- Every CAS in flight tries a value on its own side of zero. -/
  casSign : ∀ t, (s.pc t).casSign

omit [DecidableEq Tid] in
theorem exclusionInv_init : ExclusionInv (State.init : State Tid) :=
  ⟨by simp [State.init, State.sections, State.blockers, Phase.inSection],
    Or.inl (by simp [State.init, State.sections, Phase.inSection]), fun _ => trivial⟩

/-- A thread's step keeps the invariant when it writes the counter only as a
`CounterStep`, which leaves the pool alone, otherwise keeps the open
sections and the blockers, and sets up CAS values on the right side of zero. -/
theorem ExclusionInv.apply {s : State Tid} (hi : ExclusionInv s) {t : Tid} {e : Effect}
    (hsame : e.n = s.n → e.next.inSection.toNat + e.forks = (s.pc t).inSection.toNat + s.forks ∧
      (e.next = .blocked ↔ s.pc t = .blocked))
    (hstep : e.n ≠ s.n → CounterStep s.n (s.pc t) e.n e.next ∧ e.forks = s.forks)
    (hsign : e.next.casSign) : ExclusionInv (s.apply t e) := by
  have hR := sections_apply s t e
  have hB := blockers_apply s t e
  have hc := hi.counter
  have hex := hi.exclusive
  have key : e.n = (s.apply t e).sections - (s.apply t e).blockers.card ∧
      ((s.apply t e).sections = 0 ∨ (s.apply t e).blockers.card = 0) := by
    by_cases hn : e.n = s.n
    · obtain ⟨h1, h2⟩ := hsame hn
      simp only [h2] at hB
      omega
    · obtain ⟨hcs, hk⟩ := hstep hn
      have hs := hi.casSign t
      rcases hcs with ⟨w, hp, hnx, hen⟩ | ⟨hp, hen, hnx⟩ | ⟨c, hp, hnx, hen⟩ | ⟨hp, hen, hnx⟩
      · -- a successful block CAS: one more blocker
        rw [hp] at hs; simp only [Phase.casSign] at hs
        simp [hp, hnx, hk, Phase.inSection] at hR hB; omega
      · -- an unblock: one blocker less
        have hnx' : e.next = .unblockWake ∨ e.next = .idle := by split_ifs at hnx <;> simp [hnx]
        rcases hnx' with hnx' | hnx' <;> simp [hp, hnx', hk, Phase.inSection] at hR hB <;> omega
      · -- a successful disallow CAS: one more open section
        rw [hp] at hs; simp only [Phase.casSign] at hs
        simp [hp, hnx, hk, Phase.inSection] at hR hB; omega
      · -- an allow: one open section less
        have hnx' : e.next = .allowWake ∨ e.next = .idle := by split_ifs at hnx <;> simp [hnx]
        rcases hnx' with hnx' | hnx' <;> simp [hp, hnx', hk, Phase.inSection] at hR hB <;> omega
  refine ⟨key.1, key.2, fun x => ?_⟩
  by_cases h : x = t
  · subst h; simpa using hsign
  · rw [State.apply_pc_ne s e h]; cases e.wakes
    · exact hi.casSign x
    · exact Phase.casSign_wake _ _ (hi.casSign x)

omit [DecidableEq Tid] in
/-- While the group is `Below`, the counter stays inside the `int` range,
and a disallow CAS in flight can still add one. -/
theorem ExclusionInv.range {s : State Tid} (hi : ExclusionInv s) (hb : s.Below) (t : Tid) :
    -2 ^ 31 < s.n ∧ s.n < 2 ^ 31 ∧ ∀ c v, s.pc t = .disallowCas c v → s.n + 1 < 2 ^ 31 := by
  have hR : (Finset.univ.filter fun t => (s.pc t).inSection = true).card ≤ Fintype.card Tid :=
    Finset.card_filter_le _ _
  have hB : s.blockers.card ≤ Fintype.card Tid := Finset.card_filter_le _ _
  unfold State.Below at hb
  refine ⟨by rw [hi.counter]; omega, by rw [hi.counter, State.sections]; omega, fun c v hp => ?_⟩
  have hlt := card_filter_lt_of_not (p := fun t => (s.pc t).inSection = true) (t := t)
    (by simp [hp, Phase.inSection])
  rw [hi.counter, State.sections]; omega

/-- Every move of the scheduler from a `Below` state keeps the invariant. -/
theorem exclusionInv_step {s s' : State Tid} {a : Action Tid} (hi : ExclusionInv s) (hb : s.Below)
    (hs : step s a = some s') : ExclusionInv s' := by
  cases a with
  | call t op =>
    simp only [step] at hs; split_ifs at hs with hp
    obtain ⟨k, hk, rfl⟩ := Option.map_eq_some'.mp hs
    refine hi.apply (fun _ => ⟨?_, ?_⟩) (fun hn => absurd rfl hn) (by cases op <;> trivial)
    · simpa [hp, Phase.inSection] using Op.take_spec hk
    · cases op <;> simp [hp, Op.entry]
  | destroy => cases hs; exact ⟨hi.counter, hi.exclusive, hi.casSign⟩
  | step t =>
    obtain ⟨e, he, rfl⟩ := Option.map_eq_some'.mp hs
    obtain ⟨hlo, hhi, hdis⟩ := hi.range hb t
    exact hi.apply (threadEffect_status he hlo hhi) (threadEffect_n_ne he (hi.casSign t) hlo hhi hdis)
      (threadEffect_casSign he)

/-- The invariant holds in every state of a run that stays `Below`. -/
theorem exclusionInv_reachableBelow {s : State Tid} (h : ReachableBelow s) : ExclusionInv s := by
  induction h with
  | init => exact exclusionInv_init
  | step a hr hs _ ih => exact exclusionInv_step ih hr.bounded hs

/-- Along every run that keeps the threads and the open fork sections
together below `2^31`: the counter is the number of open recall sections
minus the number of blockers, one of the two is zero, no blocker exists
while a thread runs `xpmem_recall_PFNs_of_tg`, and only a successful CAS, an
unblock or an allow writes the counter. -/
theorem recall_sections_exclude_blockers {s : State Tid} (h : ReachableBelow s) :
    s.n = s.sections - s.blockers.card ∧
    (s.sections = 0 ∨ s.blockers.card = 0) ∧
    (∀ t c, s.pc t = .recalling c → s.blockers = ∅) ∧
    (∀ a s', step s a = some s' → s'.n ≠ s.n →
      ∃ t, a = .step t ∧ CounterStep s.n (s.pc t) s'.n (s'.pc t)) := by
  have hi := exclusionInv_reachableBelow h
  refine ⟨hi.counter, hi.exclusive, fun t c hp => ?_, fun a s' hs hn => ?_⟩
  · have hpos : 0 < s.sections := by
      have : 0 < (Finset.univ.filter fun t => (s.pc t).inSection = true).card :=
        Finset.card_pos.mpr ⟨t, by simp [hp, Phase.inSection]⟩
      unfold State.sections; omega
    exact Finset.card_eq_zero.mp (hi.exclusive.resolve_left (by omega))
  · cases a with
    | call t op =>
      simp only [step] at hs; split_ifs at hs
      obtain ⟨k, -, rfl⟩ := Option.map_eq_some'.mp hs
      exact absurd rfl hn
    | destroy => cases hs; exact absurd rfl hn
    | step t =>
      obtain ⟨e, he, rfl⟩ := Option.map_eq_some'.mp hs
      obtain ⟨hlo, hhi, hdis⟩ := hi.range h.bounded t
      refine ⟨t, rfl, ?_⟩
      simp only [State.apply_n, State.apply_pc_self] at hn ⊢
      exact (threadEffect_n_ne he (hi.casSign t) hlo hhi hdis hn).1

/-- Thread 0 opens a fork section and returns, thread 1 faults and sleeps on
`block_recall_PFNs_wq`, and thread 0 calls `xpmem_fork_begin` again. -/
def nestedForks : List (Action (Fin 2)) :=
  [.call 0 .forkBegin, .step 0, .step 0, .step 0, .step 0,
   .call 1 (.block true), .step 1, .step 1, .step 1, .step 1, .step 1,
   .call 0 .forkBegin, .step 0, .step 0, .step 0]

/-- One thread inside its second fork section: the counter is 2, one open
section in the pool and one held, and no blocker. -/
theorem recall_sections_exclude_blockers_nested :
    ∃ s, run State.init nestedForks = some s ∧ ReachableBelow s ∧ s.pc 0 = .recalling .fork ∧
      s.n = 2 ∧ s.n = s.sections - s.blockers.card ∧ s.blockers = ∅ := by
  obtain ⟨s, hs, hv⟩ := Option.map_eq_some'.mp
    (show (run State.init nestedForks).map (fun s => (s.pc 0, s.n)) = some (.recalling .fork, 2) by decide)
  simp only [Prod.mk.injEq] at hv
  have hr := run_reachableBelow (.init (by simp [State.Below, State.init])) hs (by simp [State.init, nestedForks])
  have h := recall_sections_exclude_blockers hr
  exact ⟨s, hs, hr, hv.1, hv.2, h.1, h.2.2.1 0 .fork hv.1⟩

/-! ## One thread opening `2^31` fork sections -/

omit [Fintype Tid] in
/-- A step that wakes nobody only writes the counter, the thread's phase and the pool. -/
theorem State.apply_quiet (s : State Tid) (t : Tid) {e : Effect} (hw : e.wakes = none) :
    s.apply t e = ⟨e.n, Function.update s.pc t e.next, s.live, e.forks⟩ := by
  simp [State.apply, hw]

/-- An idle thread of a live group runs `xpmem_fork_begin` up to its disallow CAS. -/
theorem reachable_forkCas {s : State Tid} {t : Tid} (h : Reachable s) (hp : s.pc t = .idle)
    (hl : s.live = true) (h0 : 0 ≤ s.n) (h1 : s.n < 2 ^ 31) :
    Reachable ⟨s.n, Function.update s.pc t (.disallowCas .fork s.n), s.live, s.forks⟩ := by
  have hr : toInt32 s.n = s.n := toInt32_of_range (by omega) h1
  have h₁ := Reachable.step (.call t .forkBegin) h (by simp [step, hp, Op.take]; rfl)
  rw [State.apply_quiet _ _ rfl] at h₁
  have h₂ := Reachable.step (.step t) h₁ (by simp [step, threadEffect, hl, Op.entry]; rfl)
  rw [State.apply_quiet _ _ rfl] at h₂
  have h₃ := Reachable.step (.step t) h₂ (by simp [step, threadEffect, hr, show ¬ s.n < 0 by omega]; rfl)
  rw [State.apply_quiet _ _ rfl] at h₃
  simpa [hl] using h₃

/-- The disallow CAS with the current counter succeeds and adds one in `int` arithmetic. -/
theorem step_forkCas {s : State Tid} {t : Tid} (hp : s.pc t = .disallowCas .fork s.n)
    (h0 : -2 ^ 31 ≤ s.n) (h1 : s.n < 2 ^ 31) :
    step s (.step t) = some ⟨toInt32 (s.n + 1), Function.update s.pc t (.recalling .fork), s.live, s.forks⟩ := by
  have hr : toInt32 s.n = s.n := toInt32_of_range h0 h1
  simp only [step, hp, threadEffect, hr, if_true, Option.map_some']
  rw [State.apply_quiet _ _ rfl]

/-- `xpmem_fork_begin` returns 0 with its section still open. -/
theorem step_forkReturn {s : State Tid} {t : Tid} (hp : s.pc t = .recalling .fork) :
    step s (.step t) = some ⟨s.n, Function.update s.pc t .idle, s.live, s.forks + 1⟩ := by
  simp only [step, hp, threadEffect, Option.map_some']
  rw [State.apply_quiet _ _ rfl]

/-- A live group in which `k` fork sections are open and every thread is idle. -/
def forkedTimes (k : ℕ) : State Tid := ⟨k, fun _ => .idle, true, k⟩

/-- One thread `t` opens `k` fork sections one after another, each
`xpmem_fork_begin` returning before the next. -/
theorem forkedTimes_reachable (t : Tid) : ∀ k, k < 2 ^ 31 → Reachable (forkedTimes k : State Tid)
  | 0, _ => .init
  | k + 1, hk => by
    have hn : toInt32 ((k : ℤ) + 1) = ((k + 1 : ℕ) : ℤ) := by
      rw [toInt32_of_range (by omega) (by omega)]; push_cast; rfl
    have h1 := reachable_forkCas (t := t) (forkedTimes_reachable t k (by omega)) rfl rfl
      (Int.natCast_nonneg k) (by simp only [forkedTimes]; omega)
    have h2 := Reachable.step _ h1 (step_forkCas (t := t) (by simp) (by simp only [forkedTimes]; omega)
      (by simp only [forkedTimes]; omega))
    have h3 := Reachable.step _ h2 (step_forkReturn (t := t) (by simp))
    simp only [forkedTimes, hn, Function.update_idem, Function.update_eq_self] at h3
    exact h3

/-- After thread 0 has opened `2^31 - 1` fork sections: its next
`xpmem_fork_begin` up to the disallow CAS, then a fault of thread 1 into
`xpmem_block_recall_PFNs(tg, 1)`. -/
def wrapSchedule : List (Action (Fin 2)) :=
  [.call 0 .forkBegin, .step 0, .step 0, .step 0, .call 1 (.block true), .step 1, .step 1, .step 1]

/-- Thread 0 of a two-thread group opens `2^31 - 1` fork sections and calls
`xpmem_fork_begin` once more: its disallow CAS computes `INT_MAX + 1` in
`int` and stores `INT_MIN`. Thread 1's block then returns 0 while thread 0
runs `xpmem_recall_PFNs_of_tg`, with `2^31` sections open. -/
theorem recall_counter_wraps_at_int_max :
    ∃ s, run (forkedTimes (2 ^ 31 - 1)) wrapSchedule = some s ∧ Reachable s ∧
      s.pc 0 = .recalling .fork ∧ s.pc 1 = .blocked ∧ s.sections = 2 ^ 31 ∧ s.blockers.card = 1 := by
  obtain ⟨s, hs, hv⟩ := Option.map_eq_some'.mp (show (run (forkedTimes (2 ^ 31 - 1)) wrapSchedule).map
      (fun s => (s.pc 0, s.pc 1, s.sections, s.blockers.card)) = some (.recalling .fork, .blocked, 2 ^ 31, 1) by
    decide)
  simp only [Prod.mk.injEq] at hv
  exact ⟨s, hs, run_reachable (forkedTimes_reachable (0 : Fin 2) (2 ^ 31 - 1) (by decide)) hs, hv.1, hv.2.1, hv.2.2.1, hv.2.2.2⟩

end XpmemPfn.RecallCounter
