import XpmemPfn.RecallExclusion

/-!
# No lost wake-ups on the recall queues

A blocker sleeps on `block_recall_PFNs_wq` until `n_recall_PFNs <= 0`, a
recaller on `allow_recall_PFNs_wq` until `n_recall_PFNs >= 0`. The counter
crosses into a waiter's condition only at the unblock or allow whose
increment or decrement gave 0, and that thread's next step is the `wake_up`
of the matching queue. So whenever a thread is asleep with its condition
true, the wake-up that releases it is already pending, and that wake-up
leaves nobody asleep on its queue.

Like the exclusion results this holds along runs that keep the threads and
the open fork sections together below `2^31`. At `2^31` open sections the
disallow CAS moves the counter from `INT_MAX` to `INT_MIN` without a
wake-up: `recall_wakeup_lost_at_int_max` leaves a blocker asleep with its
condition true and no wake-up pending.
-/

namespace XpmemPfn.RecallCounter

/-- Whether a thread is asleep in `schedule()` on the queue. -/
def Phase.asleepOn (q : Queue) (p : Phase) : Bool :=
  match q, p with
  | .block, .blockSleep w | .allow, .disallowSleep _ w => w == .asleep
  | _, _ => false

/-- The condition of the queue's `wait_event`. -/
def Queue.holds : Queue → ℤ → Bool
  | .block, n => decide (n ≤ 0)
  | .allow, n => decide (0 ≤ n)

/-- The phase whose next step is the queue's `wake_up`. -/
def Queue.waker : Queue → Phase
  | .block => .allowWake
  | .allow => .unblockWake

/-- The phase whose counter update can make the queue's condition true:
the allow decrement for blockers, the unblock increment for recallers. -/
def Queue.crosser : Queue → Phase
  | .block => .allowDec
  | .allow => .blocked

/-- A woken entry is never left asleep. -/
theorem Sleep.wake_ne_asleep (w : Sleep) : w.wake ≠ .asleep := by
  cases w <;> simp [Sleep.wake]

namespace Phase

theorem asleepOn_wake_self (q : Queue) (p : Phase) : (p.wake q).asleepOn q = false := by
  cases q <;> cases p <;> simp [wake, asleepOn, Sleep.wake_ne_asleep]

theorem asleepOn_wake_ne {q q' : Queue} (h : q' ≠ q) (p : Phase) :
    (p.wake q').asleepOn q = p.asleepOn q := by
  cases q <;> cases q' <;> simp at h <;> cases p <;> rfl

theorem waker_wake (q q' : Queue) : q.waker.wake q' = q.waker := by
  cases q <;> cases q' <;> rfl

end Phase

section Effect

variable {n : ℤ} {k : ℕ} {live act : Bool} {p : Phase} {e : Effect}

/-- A thread falls asleep only after reading its condition false, and
without writing the counter. -/
theorem threadEffect_asleepOn (he : threadEffect n k live act p = some e) (q : Queue)
    (h : e.next.asleepOn q = true) : q.holds e.n = false := by
  cases p with
  | blockSleep w =>
    simp only [threadEffect] at he; split_ifs at he; cases he
    cases q <;> cases w <;> simp_all [Sleep.next, Phase.asleepOn, Queue.holds] <;>
      split_ifs at h <;> simp_all [Phase.asleepOn]
  | disallowSleep c w =>
    simp only [threadEffect] at he; split_ifs at he; cases he
    cases q <;> cases w <;> simp_all [Sleep.next, Phase.asleepOn, Queue.holds] <;>
      split_ifs at h <;> simp_all [Phase.asleepOn]
  | recalling c =>
    cases c <;> (simp only [threadEffect, Option.some.injEq] at he; subst he; cases q <;> simp_all [Phase.asleepOn])
  | idle => cases he
  | blockTest w | blockRead w | blockCas w v =>
    simp only [threadEffect, Option.some.injEq] at he; subst he
    cases q <;> cases w <;> (try split_ifs at h) <;> simp_all [Phase.asleepOn, Phase.giveUp]
  | _ =>
    simp only [threadEffect, Option.some.injEq] at he; subst he
    cases q <;> (try split_ifs at h) <;> simp_all [Phase.asleepOn]

/-- The waker's step is the `wake_up` of its queue, and it returns. -/
theorem threadEffect_waker_eq (q : Queue) :
    threadEffect n k live act q.waker = some ⟨n, .idle, some q, k⟩ := by
  cases q <;> rfl

theorem threadEffect_waker (he : threadEffect n k live act p = some e) (q : Queue)
    (h : p = q.waker) : e.wakes = some q := by
  subst h; rw [threadEffect_waker_eq, Option.some.injEq] at he; rw [← he]

end Effect

variable {Tid : Type} [Fintype Tid] [DecidableEq Tid]

/-- A thread asleep on a queue whose condition holds has its wake-up pending. -/
def WakeInv (s : State Tid) : Prop :=
  ∀ q t, (s.pc t).asleepOn q = true → q.holds s.n = true → ∃ u, s.pc u = q.waker

omit [Fintype Tid] in
/-- A thread's step keeps the wake-up invariant when it falls asleep only on
a false condition, makes a condition true only as that queue's waker, and
wakes its queue when it is the waker. -/
theorem WakeInv.apply {s : State Tid} (hw : WakeInv s) {t : Tid} {e : Effect}
    (hasleep : ∀ q : Queue, e.next.asleepOn q = true → q.holds e.n = false)
    (hcross : ∀ q : Queue, q.holds s.n = false → q.holds e.n = true → e.next = q.waker)
    (hwaker : ∀ q : Queue, s.pc t = q.waker → e.wakes = some q) :
    WakeInv (s.apply t e) := by
  intro q x hx hq
  simp only [State.apply_n] at hq
  by_cases hnext : e.next = q.waker
  · exact ⟨t, by simp [hnext]⟩
  have hxt : x ≠ t := by
    rintro rfl; simp [hasleep q (by simpa using hx)] at hq
  have hwq : e.wakes ≠ some q := by
    intro hq'; rw [State.apply_pc_ne s e hxt, hq'] at hx; simp [Phase.asleepOn_wake_self] at hx
  have hx' : (s.pc x).asleepOn q = true := by
    rw [State.apply_pc_ne s e hxt] at hx
    cases h : e.wakes with
    | none => simpa [h] using hx
    | some q' =>
      have hne : q' ≠ q := by rintro rfl; exact hwq h
      rwa [h, Option.elim, Phase.asleepOn_wake_ne hne] at hx
  have hs : q.holds s.n = true := by
    cases h : q.holds s.n
    · exact absurd (hcross q h hq) hnext
    · rfl
  obtain ⟨u, hu⟩ := hw q x hx' hs
  have hut : u ≠ t := by rintro rfl; exact hwq (hwaker q hu)
  refine ⟨u, ?_⟩
  rw [State.apply_pc_ne s e hut, hu]
  cases e.wakes <;> simp [Phase.waker_wake]

omit [DecidableEq Tid] in
/-- A step from a `Below` state with the invariant makes a queue's condition
true only as that queue's waker. -/
theorem threadEffect_cross {s : State Tid} (hi : ExclusionInv s) (hb : s.Below) {t : Tid} {e : Effect}
    (he : threadEffect s.n s.forks s.live (s.active .allow) (s.pc t) = some e) (q : Queue)
    (h1 : q.holds s.n = false) (h2 : q.holds e.n = true) :
    s.pc t = q.crosser ∧ e.n = 0 ∧ e.next = q.waker := by
  obtain ⟨hlo, hhi, hdis⟩ := hi.range hb t
  have hne : e.n ≠ s.n := by rintro h; rw [h] at h2; simp [h1] at h2
  have hs := hi.casSign t
  rcases (threadEffect_n_ne he hs hlo hhi hdis hne).1 with
    ⟨w, hp, hnx, hen⟩ | ⟨hp, hen, hnx⟩ | ⟨c, hp, hnx, hen⟩ | ⟨hp, hen, hnx⟩ <;>
    rw [hp] at hs ⊢ <;> simp only [Phase.casSign] at hs <;> rw [hen] at h2 ⊢ <;>
    cases q <;> simp only [Queue.holds, decide_eq_true_eq, decide_eq_false_iff_not, not_le] at h1 h2 ⊢
  all_goals first
    | omega
    | exact ⟨rfl, by omega, by rw [hnx, if_pos (by omega)]; rfl⟩

/-- The wake-up invariant holds in every state of a run that stays `Below`. -/
theorem wakeInv_reachableBelow {s : State Tid} (h : ReachableBelow s) : WakeInv s := by
  induction h with
  | init => intro q t h; cases q <;> simp [State.init, Phase.asleepOn] at h
  | @step s s' a hr hs _ ih =>
    have hi := exclusionInv_reachableBelow hr
    cases a with
    | call t op =>
      simp only [step] at hs; split_ifs at hs with hp
      obtain ⟨k, -, rfl⟩ := Option.map_eq_some'.mp hs
      refine ih.apply (fun q h => ?_) (fun q h1 h2 => by simp [h1] at h2) (fun q h => ?_)
      · cases op <;> cases q <;> simp [Op.entry, Phase.asleepOn] at h
      · cases q <;> simp [hp, Queue.waker] at h
    | destroy => cases hs; exact ih
    | step t =>
      obtain ⟨e, he, rfl⟩ := Option.map_eq_some'.mp hs
      exact ih.apply (threadEffect_asleepOn he)
        (fun q h1 h2 => (threadEffect_cross hi hr.bounded he q h1 h2).2.2) (threadEffect_waker he)

/-- A scheduler move from a state of a run that stays `Below` that makes a
queue's condition true is a step of a thread at the queue's crossing update
that set the counter to 0, and that thread's next step wakes the queue. -/
theorem step_cross {s s' : State Tid} {a : Action Tid} (hr : ReachableBelow s) (hs : step s a = some s')
    (q : Queue) (h1 : q.holds s.n = false) (h2 : q.holds s'.n = true) :
    ∃ t, a = .step t ∧ s.pc t = q.crosser ∧ s'.n = 0 ∧ s'.pc t = q.waker ∧
      step s' (.step t) = some (s'.apply t ⟨0, .idle, some q, s'.forks⟩) := by
  cases a with
  | call t op =>
    simp only [step] at hs; split_ifs at hs
    obtain ⟨k, -, rfl⟩ := Option.map_eq_some'.mp hs
    simp [h1] at h2
  | destroy => cases hs; simp [h1] at h2
  | step t =>
    obtain ⟨e, he, rfl⟩ := Option.map_eq_some'.mp hs
    obtain ⟨hp, hn, hnx⟩ := threadEffect_cross (exclusionInv_reachableBelow hr) hr.bounded he q h1 h2
    refine ⟨t, rfl, hp, hn, by simpa using hnx, ?_⟩
    simp only [step, State.apply_pc_self, hnx, threadEffect_waker_eq, State.apply_n, hn,
      State.apply_forks, Option.map_some']

/-- Along every run that keeps the threads and the open fork sections
together below `2^31`: a move that takes the counter from negative to
non-negative is an unblock whose increment gave 0 and whose next step wakes
`allow_recall_PFNs_wq`; one that takes it from positive to non-positive is
an allow whose decrement gave 0 and whose next step wakes
`block_recall_PFNs_wq`; and every thread asleep on a queue whose condition
holds has that wake-up pending. -/
theorem recall_wakeups_not_lost {s : State Tid} (hr : ReachableBelow s) :
    (∀ a s', step s a = some s' → s.n < 0 → 0 ≤ s'.n →
      ∃ t, a = .step t ∧ s.pc t = .blocked ∧ s'.n = 0 ∧ s'.pc t = .unblockWake ∧
        step s' (.step t) = some (s'.apply t ⟨0, .idle, some .allow, s'.forks⟩)) ∧
    (∀ a s', step s a = some s' → 0 < s.n → s'.n ≤ 0 →
      ∃ t, a = .step t ∧ s.pc t = .allowDec ∧ s'.n = 0 ∧ s'.pc t = .allowWake ∧
        step s' (.step t) = some (s'.apply t ⟨0, .idle, some .block, s'.forks⟩)) ∧
    (∀ q t, (s.pc t).asleepOn q = true → q.holds s.n = true → ∃ u, s.pc u = q.waker) :=
  ⟨fun a s' hs h1 h2 => step_cross hr hs .allow (by simpa [Queue.holds] using h1)
      (by simpa [Queue.holds] using h2),
    fun a s' hs h1 h2 => step_cross hr hs .block (by simpa [Queue.holds] using h1)
      (by simpa [Queue.holds] using h2),
    wakeInv_reachableBelow hr⟩

/-- Thread 0 opens a fork section, thread 1 faults and sleeps on
`block_recall_PFNs_wq`, and thread 0's `xpmem_fork_end` decrements the
counter to 0. -/
def forkEndWakes : List (Action (Fin 2)) :=
  [.call 0 .forkBegin, .step 0, .step 0, .step 0, .step 0,
   .call 1 (.block true), .step 1, .step 1, .step 1, .step 1, .step 1,
   .call 0 .forkEnd, .step 0, .step 0]

/-- The blocker asleep with its condition true has its wake-up pending. -/
theorem recall_wakeups_not_lost_fork_end :
    ∃ s, run State.init forkEndWakes = some s ∧ ReachableBelow s ∧ (s.pc 1).asleepOn .block = true ∧
      Queue.block.holds s.n = true ∧ ∃ u, s.pc u = Queue.block.waker := by
  obtain ⟨s, hs, hv⟩ := Option.map_eq_some'.mp (show (run State.init forkEndWakes).map
      (fun s => ((s.pc 1).asleepOn .block, Queue.block.holds s.n)) = some (true, true) by decide)
  simp only [Prod.mk.injEq] at hv
  have hr := run_reachableBelow (.init (by simp [State.Below, State.init])) hs (by simp [State.init, forkEndWakes])
  exact ⟨s, hs, hr, hv.1, hv.2, (recall_wakeups_not_lost hr).2.2 .block 1 hv.1 hv.2⟩

/-- After thread 0 has opened `2^31 - 1` fork sections: thread 1 faults and
falls asleep on `block_recall_PFNs_wq`, and thread 0 calls
`xpmem_fork_begin` up to its disallow CAS. -/
def lostWakeupSchedule : List (Action (Fin 2)) :=
  [.call 1 (.block true), .step 1, .step 1, .step 1, .step 1, .step 1,
   .call 0 .forkBegin, .step 0, .step 0]

/-- Thread 0 of a two-thread group opens `2^31 - 1` fork sections; thread 1
faults and sleeps on `block_recall_PFNs_wq` until `n_recall_PFNs <= 0`.
Thread 0's next `xpmem_fork_begin` moves the counter from `INT_MAX` to
`INT_MIN` with its disallow CAS, not with an allow: thread 1's condition
now holds, and no wake-up of its queue is pending. -/
theorem recall_wakeup_lost_at_int_max :
    ∃ s₀ s, run (forkedTimes (2 ^ 31 - 1)) lostWakeupSchedule = some s₀ ∧ step s₀ (.step 0) = some s ∧
      Reachable s ∧ 0 < s₀.n ∧ s.n ≤ 0 ∧ s₀.pc 0 = .disallowCas .fork (2 ^ 31 - 1) ∧
      (s.pc 1).asleepOn .block = true ∧ Queue.block.holds s.n = true ∧ ∀ u, s.pc u ≠ Queue.block.waker := by
  obtain ⟨s₀, hs₀, hv₀⟩ := Option.map_eq_some'.mp (show (run (forkedTimes (2 ^ 31 - 1)) lostWakeupSchedule).map
      (fun s => (decide (0 < s.n), s.pc 0)) = some (true, .disallowCas .fork (2 ^ 31 - 1)) by decide)
  obtain ⟨s, hs, hv⟩ := Option.map_eq_some'.mp (show ((run (forkedTimes (2 ^ 31 - 1)) lostWakeupSchedule).bind
      fun s => step s (.step 0)).map (fun s => (decide (s.n ≤ 0), (s.pc 1).asleepOn .block,
        Queue.block.holds s.n, decide (∀ u, s.pc u ≠ Queue.block.waker))) = some (true, true, true, true) by
    decide)
  rw [hs₀, Option.some_bind] at hs
  simp only [Prod.mk.injEq, decide_eq_true_eq] at hv hv₀
  exact ⟨s₀, s, hs₀, hs, .step _ (run_reachable (forkedTimes_reachable (0 : Fin 2) (2 ^ 31 - 1) (by decide)) hs₀) hs,
    hv₀.1, hv.1, hv₀.2, hv.2.1, hv.2.2.1, hv.2.2.2⟩

end XpmemPfn.RecallCounter
