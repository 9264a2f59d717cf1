import Mathlib.Data.Fintype.Card
import Mathlib.Algebra.BigOperators.Group.Finset

/-!
# The recall counter as interleaved atomic steps

`tg->n_recall_PFNs` and its two wait queues, driven by any finite set of
threads. Every step below is one access to shared state, with the local code
after it folded in: the `waitqueue_active` test, each read and each
`atomic_long_cmpxchg` of `xpmem_block_recall_PFNs` and
`xpmem_disallow_blocking_recall_PFNs`, the increment and decrement of the
unblock and allow calls, their `wake_up`, and the steps of `wait_event`
(`prepare_to_wait_event`, the condition test, `schedule`, `finish_wait`).
The locals `value` and `returned_value` are C `int`s holding a `long`, so
reads narrow to 32 bits and `value ± 1` wraps.

Owner-side recalls enter through `xpmem_unpin_procfs_write` and
`xpmem_fork_begin`, whose `xpmem_tg_ref_by_tgid` fails once the group is torn
down. The mutex and the segment walk in between touch neither the counter nor
the queues and are one phase here. `xpmem_fork_begin` returns to user space
with its recall section still open, so the group keeps a pool of open fork
sections and the thread is free again: any idle thread may open another
section, fault into `xpmem_block_recall_PFNs`, write the procfs file, or
call `xpmem_fork_end`. That call takes one open section over and allows
blocking again, or, when its lookup fails, returns with the section still
open.
-/

namespace XpmemPfn.RecallCounter

/-- `(int)x`: a `long` narrowed to the C `int` locals of the CAS loops. -/
def toInt32 (x : ℤ) : ℤ := Int.bmod x (2 ^ 32)

/-- Narrowing is the identity on the `int` range. -/
theorem toInt32_of_range {x : ℤ} (h1 : -2 ^ 31 ≤ x) (h2 : x < 2 ^ 31) : toInt32 x = x := by
  simp only [toInt32, Int.bmod]; split <;> omega

/-- `block_recall_PFNs_wq` and `allow_recall_PFNs_wq`. -/
inductive Queue where
  | block | allow
  deriving DecidableEq, Repr

/-- Where a thread is inside one `wait_event(wq, condition)`. -/
inductive Sleep where
  /-- The first `if (condition) break;`, before anything is queued. -/
  | test
  /-- `prepare_to_wait_event`: queue the entry, mark the task sleeping. -/
  | prepare
  /-- The condition test after queueing; `queued` is false once a
  `wake_up` has removed the entry and made the task runnable. -/
  | check (queued : Bool)
  /-- `schedule()` with the entry queued: only a `wake_up` resumes it. -/
  | asleep
  /-- `finish_wait` after the condition held. -/
  | finish (queued : Bool)
  deriving DecidableEq, Repr

namespace Sleep

/-- Whether the wait entry is on the queue. -/
def queued : Sleep → Bool
  | .check q | .finish q => q
  | .asleep => true
  | .test | .prepare => false

/-- `wake_up`: `autoremove_wake_function` dequeues the entry and sets the
task running, so a later `schedule()` returns at once. -/
def wake : Sleep → Sleep
  | .check _ => .check false
  | .asleep => .prepare
  | .finish _ => .finish false
  | w => w

/-- The step of a runnable waiter that reads the condition as `cond`;
`none` when `wait_event` returns. -/
def next (cond : Bool) : Sleep → Option Sleep
  | .test => if cond then none else some .prepare
  | .prepare => some (.check true)
  | .check q => if cond then some (.finish q) else some (if q then .asleep else .prepare)
  | .asleep => some .asleep
  | .finish _ => none

end Sleep

/-- The two owner-side entry points that open a recall section. -/
inductive Caller where
  | procfs | fork
  deriving DecidableEq, Repr

/-- A thread's position in the recall-counter protocol. -/
inductive Phase where
  | idle
  /-- `waitqueue_active(&tg->allow_recall_PFNs_wq)` in `xpmem_block_recall_PFNs(tg, wait)`. -/
  | blockTest (wait : Bool)
  /-- `value = atomic_long_read(&tg->n_recall_PFNs)`. -/
  | blockRead (wait : Bool)
  /-- `atomic_long_cmpxchg(&tg->n_recall_PFNs, value, value - 1)`. -/
  | blockCas (wait : Bool) (value : ℤ)
  /-- `wait_event(tg->block_recall_PFNs_wq, n_recall_PFNs <= 0)`. -/
  | blockSleep (w : Sleep)
  /-- The block returned 0: the blocker's section, until `xpmem_unblock_recall_PFNs`. -/
  | blocked
  /-- The unblock's increment gave 0: `wake_up(&tg->allow_recall_PFNs_wq)` is next. -/
  | unblockWake
  /-- `xpmem_tg_ref_by_tgid` and `xpmem_is_thread_group_stopped` of `xpmem_unpin_procfs_write`. -/
  | procfsLookup (stopped : Bool)
  /-- `xpmem_tg_ref_by_tgid` of `xpmem_fork_begin`. -/
  | forkLookup
  /-- `value = atomic_long_read(&tg->n_recall_PFNs)` in `xpmem_disallow_blocking_recall_PFNs`. -/
  | disallowRead (c : Caller)
  /-- `atomic_long_cmpxchg(&tg->n_recall_PFNs, value, value + 1)`. -/
  | disallowCas (c : Caller) (value : ℤ)
  /-- `wait_event(tg->allow_recall_PFNs_wq, n_recall_PFNs >= 0)`. -/
  | disallowSleep (c : Caller) (w : Sleep)
  /-- Disallow returned: the mutex and `xpmem_recall_PFNs_of_tg`. -/
  | recalling (c : Caller)
  /-- `xpmem_tg_ref_by_tgid` of `xpmem_fork_end`, holding the open fork
  section the call closes. -/
  | forkEndLookup
  /-- `atomic_long_dec_return(&tg->n_recall_PFNs)` of `xpmem_allow_blocking_recall_PFNs`. -/
  | allowDec
  /-- The decrement gave 0: `wake_up(&tg->block_recall_PFNs_wq)` is next. -/
  | allowWake
  deriving DecidableEq, Repr

namespace Phase

/-- The thread holds a recall section: disallow returned, allow not yet called. -/
def inSection : Phase → Bool
  | .recalling _ | .forkEndLookup | .allowDec => true
  | _ => false

/-- The CAS loops only try a `value` on their own side of zero. -/
def casSign : Phase → Prop
  | .blockCas _ v => v ≤ 0
  | .disallowCas _ v => 0 ≤ v
  | _ => True

/-- Whether the thread's wait entry is on the given queue. -/
def onQueue : Queue → Phase → Bool
  | .block, .blockSleep w => w.queued
  | .allow, .disallowSleep _ w => w.queued
  | _, _ => false

/-- The effect of `wake_up` on a queue on one thread. -/
def wake : Queue → Phase → Phase
  | .block, .blockSleep w => .blockSleep w.wake
  | .allow, .disallowSleep c w => .disallowSleep c w.wake
  | _, p => p

/-- The `wait:` label of `xpmem_block_recall_PFNs`: `-EAGAIN` unless waiting. -/
def giveUp (wait : Bool) : Phase := if wait then .blockSleep .test else .idle

@[simp] theorem inSection_wake (q : Queue) (p : Phase) : (p.wake q).inSection = p.inSection := by
  cases q <;> cases p <;> rfl

@[simp] theorem wake_eq_blocked (q : Queue) (p : Phase) : p.wake q = .blocked ↔ p = .blocked := by
  cases q <;> cases p <;> simp [wake]

theorem casSign_wake (q : Queue) (p : Phase) (h : p.casSign) : (p.wake q).casSign := by
  cases q <;> cases p <;> exact h

end Phase

/-- An entry point an idle thread calls. -/
inductive Op where
  /-- `xpmem_block_recall_PFNs(tg, wait)`. -/
  | block (wait : Bool)
  /-- `xpmem_unpin_procfs_write`, with whether every thread of the group is stopped. -/
  | procfsWrite (stopped : Bool)
  /-- `xpmem_fork_begin`. -/
  | forkBegin
  /-- `xpmem_fork_end`, closing one of the group's open fork sections. -/
  | forkEnd
  deriving DecidableEq, Repr

/-- The first phase of an entry point. -/
def Op.entry : Op → Phase
  | .block w => .blockTest w
  | .procfsWrite stopped => .procfsLookup stopped
  | .forkBegin => .forkLookup
  | .forkEnd => .forkEndLookup

/-- The open fork sections once an idle thread enters `op`: `xpmem_fork_end`
takes one over, and is called only while one is open. -/
def Op.take : Op → ℕ → Option ℕ
  | .forkEnd, 0 => none
  | .forkEnd, k + 1 => some k
  | _, k => some k

/-- Entering a call keeps the number of open sections: `xpmem_fork_end`
moves one from the pool to its thread. -/
theorem Op.take_spec {op : Op} {k k' : ℕ} (h : op.take k = some k') :
    op.entry.inSection.toNat + k' = k := by
  cases op <;> cases k <;> simp_all [Op.take, Op.entry, Phase.inSection, Nat.add_comm]

/-- What one atomic step of a thread does. -/
structure Effect where
  /-- `tg->n_recall_PFNs` after the step. -/
  n : ℤ
  /-- The thread's phase after the step. -/
  next : Phase
  /-- The queue the step wakes. -/
  wakes : Option Queue
  /-- The group's open fork sections after the step. -/
  forks : ℕ

/-- The next atomic step of a thread in phase `p`, given the counter `n`, the
open fork sections `k`, whether the group can still be looked up and whether
`allow_recall_PFNs_wq` has waiters; `none` for an idle or sleeping thread. -/
def threadEffect (n : ℤ) (k : ℕ) (live active : Bool) : Phase → Option Effect
  | .idle => none
  | .blockTest w => some ⟨n, if active then Phase.giveUp w else .blockRead w, none, k⟩
  | .blockRead w =>
    let v := toInt32 n
    some ⟨n, if 0 < v then Phase.giveUp w else .blockCas w v, none, k⟩
  | .blockCas w v =>
    let r := toInt32 n
    some ⟨if n = v then toInt32 (v - 1) else n,
      if r = v then .blocked else if 0 < r then Phase.giveUp w else .blockCas w r, none, k⟩
  | .blockSleep w =>
    if w = .asleep then none
    else some ⟨n, (w.next (decide (n ≤ 0))).elim (.blockTest true) .blockSleep, none, k⟩
  | .blocked => some ⟨n + 1, if n + 1 = 0 then .unblockWake else .idle, none, k⟩
  | .unblockWake => some ⟨n, .idle, some .allow, k⟩
  | .procfsLookup stopped =>
    some ⟨n, if live && stopped then .disallowRead .procfs else .idle, none, k⟩
  | .forkLookup => some ⟨n, if live then .disallowRead .fork else .idle, none, k⟩
  | .disallowRead c =>
    let v := toInt32 n
    some ⟨n, if v < 0 then .disallowSleep c .test else .disallowCas c v, none, k⟩
  | .disallowCas c v =>
    let r := toInt32 n
    some ⟨if n = v then toInt32 (v + 1) else n,
      if r = v then .recalling c else if r < 0 then .disallowSleep c .test else .disallowCas c r,
      none, k⟩
  | .disallowSleep c w =>
    if w = .asleep then none
    else some ⟨n, (w.next (decide (0 ≤ n))).elim (.disallowRead c) (.disallowSleep c), none, k⟩
  | .recalling .procfs => some ⟨n, .allowDec, none, k⟩
  | .recalling .fork => some ⟨n, .idle, none, k + 1⟩
  | .forkEndLookup => some ⟨n, if live then .allowDec else .idle, none, if live then k else k + 1⟩
  | .allowDec => some ⟨n - 1, if n - 1 = 0 then .allowWake else .idle, none, k⟩
  | .allowWake => some ⟨n, .idle, some .block, k⟩

/-- The steps that write the counter, from `n` in phase `p` to `n'` in `p'`:
a successful block CAS, an unblock, a successful disallow CAS, an allow. -/
def CounterStep (n : ℤ) (p : Phase) (n' : ℤ) (p' : Phase) : Prop :=
  (∃ w, p = .blockCas w n ∧ p' = .blocked ∧ n' = n - 1) ∨
  (p = .blocked ∧ n' = n + 1 ∧ p' = if n + 1 = 0 then .unblockWake else .idle) ∨
  (∃ c, p = .disallowCas c n ∧ p' = .recalling c ∧ n' = n + 1) ∨
  (p = .allowDec ∧ n' = n - 1 ∧ p' = if n - 1 = 0 then .allowWake else .idle)

section Effect

variable {n : ℤ} {k : ℕ} {live act : Bool} {p : Phase} {e : Effect}

/-- Only four steps write `n_recall_PFNs` while it is in the `int` range: a
successful block CAS, the unblock increment, a successful disallow CAS and
the allow decrement; none of them opens or closes a fork section. -/
theorem threadEffect_n_ne (he : threadEffect n k live act p = some e) (hsign : p.casSign)
    (hlo : -2 ^ 31 < n) (hhi : n < 2 ^ 31) (hdis : ∀ c v, p = .disallowCas c v → n + 1 < 2 ^ 31)
    (hn : e.n ≠ n) : CounterStep n p e.n e.next ∧ e.forks = k := by
  have hr : toInt32 n = n := toInt32_of_range (by omega) hhi
  cases p with
  | blockCas w v =>
    simp only [threadEffect, Option.some.injEq] at he; subst he
    simp only [Phase.casSign] at hsign
    by_cases hv : n = v
    · subst hv
      simp only [if_true, hr] at hn ⊢
      rw [toInt32_of_range (by omega) (by omega)]; simp [CounterStep]
    · simp [hv] at hn
  | disallowCas c v =>
    simp only [threadEffect, Option.some.injEq] at he; subst he
    have := hdis c v rfl
    by_cases hv : n = v
    · subst hv
      simp only [if_true, hr] at hn ⊢
      rw [toInt32_of_range (by omega) (by omega)]; simp [CounterStep]
    · simp [hv] at hn
  | blocked | allowDec => simp only [threadEffect, Option.some.injEq] at he; subst he; simp [CounterStep]
  | blockSleep w | disallowSleep c w =>
    simp only [threadEffect] at he; split_ifs at he; cases he; simp at hn
  | recalling c => cases c <;> (simp only [threadEffect, Option.some.injEq] at he; subst he; simp at hn)
  | idle => cases he
  | _ => simp only [threadEffect, Option.some.injEq] at he; subst he; simp at hn

/-- A step that leaves the counter alone keeps the thread's sections, its
own or parked in the pool, and whether it is a blocker. -/
theorem threadEffect_status (he : threadEffect n k live act p = some e)
    (hlo : -2 ^ 31 < n) (hhi : n < 2 ^ 31) (hn : e.n = n) :
    e.next.inSection.toNat + e.forks = p.inSection.toNat + k ∧ (e.next = .blocked ↔ p = .blocked) := by
  have hr : toInt32 n = n := toInt32_of_range (by omega) hhi
  cases p with
  | blockCas w v =>
    simp only [threadEffect, Option.some.injEq] at he; subst he
    by_cases hv : n = v
    · subst hv; simp [hr, toInt32_of_range (x := n - 1) (by omega) (by omega)] at hn
    · cases w <;> simp [hv, hr] <;> split_ifs <;> simp [Phase.giveUp, Phase.inSection]
  | disallowCas c v =>
    simp only [threadEffect, Option.some.injEq] at he; subst he
    by_cases hv : n = v
    · subst hv
      have h := Int.bmod_emod (x := n + 1) (m := 2 ^ 32)
      simp only [if_true, toInt32] at hn; rw [hn] at h; omega
    · simp [hv, hr]; split_ifs <;> simp [Phase.inSection]
  | blockSleep w | disallowSleep c w =>
    simp only [threadEffect] at he; split_ifs at he; cases he
    cases Sleep.next _ w <;> simp [Phase.inSection]
  | recalling c =>
    cases c <;> (simp only [threadEffect, Option.some.injEq] at he; subst he; simp [Phase.inSection, Nat.add_comm])
  | forkEndLookup =>
    simp only [threadEffect, Option.some.injEq] at he; subst he
    cases live <;> simp [Phase.inSection, Nat.add_comm]
  | blockTest w | blockRead w =>
    simp only [threadEffect, Option.some.injEq] at he; subst he
    cases w <;> split_ifs <;> simp [Phase.inSection, Phase.giveUp]
  | idle => cases he
  | _ =>
    simp only [threadEffect, Option.some.injEq] at he; subst he
    (try split_ifs) <;> simp_all [Phase.inSection] <;> omega

/-- Every CAS a step sets up tries a value on its own side of zero. -/
theorem threadEffect_casSign (he : threadEffect n k live act p = some e) : e.next.casSign := by
  cases p with
  | blockSleep w | disallowSleep c w =>
    simp only [threadEffect] at he; split_ifs at he; cases he
    cases Sleep.next _ w <;> trivial
  | recalling c => cases c <;> (simp only [threadEffect, Option.some.injEq] at he; subst he; trivial)
  | idle => cases he
  | blockTest w | blockRead w | blockCas w v =>
    simp only [threadEffect, Option.some.injEq] at he; subst he
    cases w <;> split_ifs <;> simp_all [Phase.casSign, Phase.giveUp]
  | _ =>
    simp only [threadEffect, Option.some.injEq] at he; subst he
    (try split_ifs) <;> simp_all [Phase.casSign]

end Effect

/-- The shared state of one thread group and the threads using it. -/
structure State (Tid : Type) where
  /-- `tg->n_recall_PFNs`. -/
  n : ℤ
  /-- Each thread's phase. -/
  pc : Tid → Phase
  /-- `xpmem_tg_ref_by_tgid` still finds the group. -/
  live : Bool
  /-- Ghost: the fork sections whose `xpmem_fork_begin` returned 0 and that
  no `xpmem_fork_end` has taken over. -/
  forks : ℕ

/-- The scheduler's choices: a call by an idle thread, one atomic step of a
thread, or the teardown of the group. -/
inductive Action (Tid : Type) where
  | call (t : Tid) (op : Op)
  | step (t : Tid)
  | destroy

variable {Tid : Type} [DecidableEq Tid]

namespace State

/-- A fresh group: counter 0, every thread idle, no section open. -/
def init : State Tid := ⟨0, fun _ => .idle, true, 0⟩

/-- Apply a thread's step: the wake-up, the counter, its phase, the pool. -/
def apply (s : State Tid) (t : Tid) (e : Effect) : State Tid :=
  { n := e.n
    pc := Function.update (fun x => (e.wakes.elim (s.pc x) fun q => (s.pc x).wake q)) t e.next
    live := s.live
    forks := e.forks }

@[simp] theorem apply_n (s : State Tid) (t : Tid) (e : Effect) : (s.apply t e).n = e.n := rfl

@[simp] theorem apply_pc_self (s : State Tid) (t : Tid) (e : Effect) : (s.apply t e).pc t = e.next := by
  simp [apply]

theorem apply_pc_ne (s : State Tid) {t x : Tid} (e : Effect) (h : x ≠ t) :
    (s.apply t e).pc x = e.wakes.elim (s.pc x) fun q => (s.pc x).wake q := by
  simp [apply, h]

@[simp] theorem apply_live (s : State Tid) (t : Tid) (e : Effect) : (s.apply t e).live = s.live := rfl

@[simp] theorem apply_forks (s : State Tid) (t : Tid) (e : Effect) : (s.apply t e).forks = e.forks := rfl

variable [Fintype Tid]

/-- `waitqueue_active`: some thread's entry is on the queue. -/
def active (s : State Tid) (q : Queue) : Bool := decide (∃ t, (s.pc t).onQueue q = true)

/-- The open recall sections: threads inside one, and fork sections left open. -/
def sections (s : State Tid) : ℕ := (Finset.univ.filter fun t => (s.pc t).inSection = true).card + s.forks

/-- Threads whose block returned 0 and that have not unblocked. -/
def blockers (s : State Tid) : Finset Tid := Finset.univ.filter fun t => s.pc t = .blocked

end State

variable [Fintype Tid]

/-- One move of the scheduler; `none` when the chosen thread cannot move. -/
def step (s : State Tid) : Action Tid → Option (State Tid)
  | .call t op =>
    if s.pc t = .idle then (op.take s.forks).map fun k => s.apply t ⟨s.n, op.entry, none, k⟩ else none
  | .step t => (threadEffect s.n s.forks s.live (s.active .allow) (s.pc t)).map (s.apply t)
  | .destroy => some { s with live := false }

/-- The states the protocol reaches from a fresh group. -/
inductive Reachable : State Tid → Prop
  | init : Reachable State.init
  | step {s s' : State Tid} (a : Action Tid) : Reachable s → step s a = some s' → Reachable s'

/-- The moves `as` one after another; `none` when one is not enabled. -/
def run (s : State Tid) : List (Action Tid) → Option (State Tid)
  | [] => some s
  | a :: as => (step s a).bind fun s' => run s' as

theorem run_reachable {s s' : State Tid} (h : Reachable s) :
    ∀ {as : List (Action Tid)}, run s as = some s' → Reachable s'
  | [], hr => Option.some.inj hr ▸ h
  | a :: as, hr => by
    obtain ⟨s1, h1, hr⟩ := Option.bind_eq_some.mp hr
    exact run_reachable (.step a h h1) hr

/-- A count over all threads moves only by the thread whose predicate changed. -/
theorem card_filter_add_of_agree {p q : Tid → Prop} [DecidablePred p] [DecidablePred q] (t : Tid)
    (h : ∀ x, x ≠ t → (p x ↔ q x)) :
    (Finset.univ.filter q).card + (if p t then 1 else 0) =
      (Finset.univ.filter p).card + (if q t then 1 else 0) := by
  have he : ∑ x ∈ Finset.univ.erase t, (if q x then 1 else 0) =
      ∑ x ∈ Finset.univ.erase t, (if p x then 1 else 0) :=
    Finset.sum_congr rfl fun x hx => if_congr (h x (Finset.ne_of_mem_erase hx)).symm rfl rfl
  rw [Finset.card_filter, Finset.card_filter, ← Finset.add_sum_erase _ _ (Finset.mem_univ t),
    ← Finset.add_sum_erase _ _ (Finset.mem_univ t), he]
  omega

omit [DecidableEq Tid] in
/-- A set of threads that misses one thread has fewer than all of them. -/
theorem card_filter_lt_of_not {p : Tid → Prop} [DecidablePred p] {t : Tid} (h : ¬p t) :
    (Finset.univ.filter p).card < Fintype.card Tid :=
  Finset.card_lt_card (Finset.filter_ssubset.mpr ⟨t, Finset.mem_univ t, h⟩)

/-- A step of thread `t` changes the open sections only through `t` and the pool. -/
theorem sections_apply (s : State Tid) (t : Tid) (e : Effect) :
    (s.apply t e).sections + (s.pc t).inSection.toNat + s.forks =
      s.sections + e.next.inSection.toNat + e.forks := by
  have h := card_filter_add_of_agree (p := fun x => (s.pc x).inSection = true)
    (q := fun x => ((s.apply t e).pc x).inSection = true) t
    (fun x hx => by simp only [State.apply_pc_ne s e hx]; cases e.wakes <;> simp)
  simp only [State.sections, State.apply_forks]
  cases h1 : (s.pc t).inSection <;> cases h2 : e.next.inSection <;> simp_all <;> omega

/-- A step of thread `t` changes the blocker count only through `t`. -/
theorem blockers_apply (s : State Tid) (t : Tid) (e : Effect) :
    (s.apply t e).blockers.card + (if s.pc t = .blocked then 1 else 0) =
      s.blockers.card + (if e.next = .blocked then 1 else 0) := by
  have h := card_filter_add_of_agree (p := fun x => s.pc x = .blocked)
    (q := fun x => (s.apply t e).pc x = .blocked) t
    (fun x hx => by simp only [State.apply_pc_ne s e hx]; cases e.wakes <;> simp)
  simpa [State.blockers] using h

/-! ## `xpmem_is_thread_group_stopped`

The `stopped` that `xpmem_unpin_procfs_write` hands to its lookup phase. -/

/-- A thread as `xpmem_is_thread_group_stopped` reads it. -/
structure Task where
  /-- `task->flags & PF_EXITING`. -/
  exiting : Bool
  /-- `task_is_stopped(task)`. -/
  stopped : Bool
  deriving DecidableEq, Repr

/-- A thread group's threads as `next_thread` links them: a ring through
`threads`, in order from the group leader and back to it. -/
structure Ring (Tid : Type) where
  /-- `tg->group_leader`. -/
  leader : Tid
  /-- `next_thread(task)`. -/
  nextThread : Tid → Tid
  /-- The group's threads in ring order. -/
  threads : List Tid
  head : threads.head? = some leader
  nodup : threads.Nodup
  next : ∀ i (h : i < threads.length),
    nextThread (threads.get ⟨i, h⟩) = threads.get ⟨(i + 1) % threads.length, Nat.mod_lt _ (by omega)⟩

variable {Tid : Type} [DecidableEq Tid]

/-- The `do … while (task != tg->group_leader)` loop from `task`; `fuel`
bounds the iterations, `none` when it runs out. -/
def stoppedLoop (task : Tid → Task) (r : Ring Tid) : ℕ → Tid → Option Bool
  | 0, _ => none
  | fuel + 1, t =>
    if !(task t).exiting && !(task t).stopped then some false
    else
      let t := r.nextThread t
      if t ≠ r.leader then stoppedLoop task r fuel t else some true

/-- `xpmem_is_thread_group_stopped(tg)`: the loop from the leader, given one
iteration per thread. -/
def xpmemIsThreadGroupStopped (task : Tid → Task) (r : Ring Tid) : Option Bool :=
  stoppedLoop task r r.threads.length r.leader

omit [DecidableEq Tid] in
/-- The leader is the ring's first thread. -/
theorem Ring.get_zero (r : Ring Tid) (h : 0 < r.threads.length) : r.threads.get ⟨0, h⟩ = r.leader := by
  have := r.head
  rw [List.head?_eq_head (List.ne_nil_of_length_pos h)] at this
  simpa [List.head_eq_getElem] using this

/-- From the `i`-th thread on, the loop visits the rest of the ring once and
returns whether all of it is exiting or stopped. -/
theorem stoppedLoop_eq (task : Tid → Task) (r : Ring Tid) :
    ∀ n i (h : i < r.threads.length), i + n = r.threads.length →
      stoppedLoop task r n (r.threads.get ⟨i, h⟩) =
        some ((r.threads.drop i).all fun t => (task t).exiting || (task t).stopped)
  | 0, i, h, hn => by omega
  | n + 1, i, h, hn => by
    rw [List.drop_eq_getElem_cons h, List.all_cons]
    simp only [stoppedLoop, List.get_eq_getElem, ← Bool.not_or]
    by_cases hrun : ((task r.threads[i]).exiting || (task r.threads[i]).stopped) = true
    · have hnext := r.next i h
      simp only [List.get_eq_getElem] at hnext
      simp only [hrun, Bool.not_true, Bool.false_eq_true, if_false, Bool.true_and, hnext]
      rcases Nat.lt_or_ge (i + 1) r.threads.length with hi | hi
      · -- the next thread is not the leader: the loop goes on
        have hne : r.threads[i + 1] ≠ r.leader := fun he => by
          have := (List.Nodup.getElem_inj_iff r.nodup).mp
            (he.trans (r.get_zero (by omega)).symm)
          omega
        simp only [Nat.mod_eq_of_lt hi, ne_eq, hne, not_false_eq_true, if_true]
        simpa using stoppedLoop_eq task r n (i + 1) hi (by omega)
      · -- back at the leader: every thread was exiting or stopped
        have hlast : i + 1 = r.threads.length := by omega
        have hlead : r.threads[0] = r.leader := by simpa using r.get_zero (by omega)
        simp [hlast, hlead, List.drop_of_length_le (by omega : r.threads.length ≤ i + 1)]
    · simp only [Bool.not_eq_true] at hrun
      simp [hrun]

/-- For every thread group, `xpmem_is_thread_group_stopped` goes once round
the ring of `next_thread` from the leader and returns: 1 when every thread of
the group is exiting or stopped, and 0 when some thread runs. -/
theorem thread_group_stopped_eq_all (task : Tid → Task) (r : Ring Tid) :
    xpmemIsThreadGroupStopped task r =
      some (decide (∀ t ∈ r.threads, (task t).exiting = true ∨ (task t).stopped = true)) := by
  have hpos : 0 < r.threads.length :=
    List.length_pos.mpr fun h => by have hh := r.head; simp [h] at hh
  have h := stoppedLoop_eq task r r.threads.length 0 hpos (by omega)
  rw [r.get_zero hpos, List.drop_zero] at h
  simp [xpmemIsThreadGroupStopped, h, List.all_eq]

/-- A two-thread group whose second thread still runs is not stopped. -/
example : xpmemIsThreadGroupStopped (fun t : ℕ => ⟨false, t == 0⟩)
    ⟨0, fun t => 1 - t, [0, 1], rfl, by decide, by decide⟩ = some false := by
  decide

end XpmemPfn.RecallCounter
