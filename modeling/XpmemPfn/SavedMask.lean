import Mathlib.Data.Nat.Bitwise

/-!
# The per-CPU saved affinity of `xpmem_pin_pages`

When the page to pin is not yet present and the source task runs on another
NUMA node, `xpmem_pin_pages` saves the caller's `cpus_mask` into
`saved_mask_percpu` of the CPU it runs on, keeps a pointer to that slot,
binds itself to the source task's CPU, sleeps in `get_user_pages` and then
restores its mask from the kept slot. The slot belongs to a CPU, not to the
call: once the caller has moved away, another caller running on that CPU
saves its own mask into the same slot, and the first caller restores the
second one's mask.

Masks are `cpumask_t` bitmaps as natural numbers; `cpumask_of(cpu)` is
`1 <<< cpu`. The scheduler may move a thread to any CPU its mask allows at
any time. `ownerRestores` shows that a restore returns the entry mask when no
other call saved into the slot meanwhile; `pin_pages_restores_other_mask`
runs two calls into the overwrite.
-/

namespace XpmemPfn.SavedMask

/-- Where a thread is in the affinity branch of `xpmem_pin_pages`. -/
inductive Phase where
  | idle
  /-- `*saved_mask = current->cpus_mask` done into the slot of CPU `slot`;
  `set_cpus_allowed_ptr(current, cpumask_of(src))` is next. -/
  | saved (slot src : ℕ)
  /-- Bound to the source CPU, sleeping in `get_user_pages`. -/
  | gup (slot : ℕ)
  /-- `get_user_pages` returned; `set_cpus_allowed_ptr(current, saved_mask)` is next. -/
  | restoring (slot : ℕ)
  deriving DecidableEq, Repr

/-- The state: each thread's CPU, mask and phase, and the per-CPU slots. -/
structure State (Tid : Type) where
  /-- `task_cpu(t)`. -/
  cpu : Tid → ℕ
  /-- `t->cpus_mask`. -/
  mask : Tid → ℕ
  pc : Tid → Phase
  /-- `saved_mask_percpu` of each CPU. -/
  slot : ℕ → ℕ
  /-- Ghost: the mask each thread had when its current call began. -/
  entry : Tid → ℕ
  /-- Ghost: the thread whose save last wrote each slot. -/
  owner : ℕ → Option Tid

/-- The scheduler's choices. -/
inductive Action (Tid : Type) where
  /-- An idle thread calls `xpmem_pin_pages` for a source task on CPU `src`,
  takes the affinity branch and saves its mask. -/
  | save (t : Tid) (src : ℕ)
  /-- `set_cpus_allowed_ptr(current, cpumask_of(src))`. -/
  | migrate (t : Tid)
  /-- `get_user_pages` returns. -/
  | gupReturn (t : Tid)
  /-- `set_cpus_allowed_ptr(current, saved_mask)`: the call returns. -/
  | restore (t : Tid)
  /-- The scheduler moves a thread to a CPU its mask allows. -/
  | schedule (t : Tid) (c : ℕ)

variable {Tid : Type} [DecidableEq Tid]

/-- One move; `none` when it is not enabled. -/
def step (s : State Tid) : Action Tid → Option (State Tid)
  | .save t src =>
    if s.pc t = .idle then
      some { s with
        slot := Function.update s.slot (s.cpu t) (s.mask t)
        pc := Function.update s.pc t (.saved (s.cpu t) src)
        entry := Function.update s.entry t (s.mask t)
        owner := Function.update s.owner (s.cpu t) (some t) }
    else none
  | .migrate t =>
    match s.pc t with
    | .saved p src =>
      some { s with
        mask := Function.update s.mask t (1 <<< src)
        cpu := Function.update s.cpu t src
        pc := Function.update s.pc t (.gup p) }
    | _ => none
  | .gupReturn t =>
    match s.pc t with
    | .gup p => some { s with pc := Function.update s.pc t (.restoring p) }
    | _ => none
  | .restore t =>
    match s.pc t with
    | .restoring p =>
      some { s with
        mask := Function.update s.mask t (s.slot p)
        pc := Function.update s.pc t .idle }
    | _ => none
  | .schedule t c =>
    if (s.mask t).testBit c then some { s with cpu := Function.update s.cpu t c } else none

/-- Runs a list of moves; `none` at the first one not enabled. -/
def run (s : State Tid) : List (Action Tid) → Option (State Tid)
  | [] => some s
  | a :: as => (step s a).bind fun s' => run s' as

/-- Threads with masks `mask` on CPUs `cpu`, all idle; the slots hold `slot`. -/
def init (cpu mask : Tid → ℕ) (slot : ℕ → ℕ) : State Tid :=
  ⟨cpu, mask, fun _ => .idle, slot, mask, fun _ => none⟩

/-- The states reachable from some initial placement of the threads. -/
inductive Reachable : State Tid → Prop
  | init (cpu mask : Tid → ℕ) (slot : ℕ → ℕ) : Reachable (init cpu mask slot)
  | step {s s' : State Tid} (a : Action Tid) : Reachable s → step s a = some s' → Reachable s'

theorem run_reachable {s s' : State Tid} (h : Reachable s) :
    ∀ {as : List (Action Tid)}, run s as = some s' → Reachable s'
  | [], hr => by cases hr; exact h
  | a :: as, hr => by
    obtain ⟨s₁, h₁, h₂⟩ := Option.bind_eq_some.mp hr
    exact run_reachable (Reachable.step a h h₁) h₂

/-- The phase's kept slot, if the thread is inside the affinity branch. -/
def Phase.kept : Phase → Option ℕ
  | .saved p _ | .gup p | .restoring p => some p
  | .idle => none

/-- A slot whose last writer still keeps it holds that writer's entry mask. -/
def OwnerInv (s : State Tid) : Prop :=
  ∀ p t, s.owner p = some t → (s.pc t).kept = some p → s.slot p = s.entry t

omit [DecidableEq Tid] in
theorem ownerInv_init (cpu mask : Tid → ℕ) (slot : ℕ → ℕ) : OwnerInv (init cpu mask slot) := by
  intro p t h; cases h

/-- Only a save writes a slot, and it makes its thread the slot's owner; the
other moves keep every slot, entry mask and kept slot of another thread. -/
theorem ownerInv_step {s s' : State Tid} {a : Action Tid} (hi : OwnerInv s)
    (hs : step s a = some s') : OwnerInv s' := by
  intro p u hu hk
  cases a with
  | save t src =>
    simp only [step] at hs; split_ifs at hs; cases hs
    by_cases hpt : p = s.cpu t
    · subst hpt; simp only [Function.update_same, Option.some.injEq] at hu; subst hu; simp
    · simp only [Function.update_noteq hpt] at hu ⊢
      have hut : u ≠ t := by rintro rfl; simp [Phase.kept, Ne.symm hpt] at hk
      simp only [Function.update_noteq hut] at hk ⊢
      exact hi p u hu hk
  | migrate t | gupReturn t | restore t =>
    simp only [step] at hs; split at hs <;> cases hs
    by_cases hut : u = t
    · subst hut; exact hi p u hu (by simp_all [Phase.kept])
    · simp only [Function.update_noteq hut] at hk ⊢; exact hi p u hu hk
  | schedule t c =>
    simp only [step] at hs; split_ifs at hs; cases hs
    exact hi p u hu hk

theorem ownerInv_reachable {s : State Tid} (h : Reachable s) : OwnerInv s := by
  induction h with
  | init cpu mask slot => exact ownerInv_init cpu mask slot
  | step a _ hs ih => exact ownerInv_step ih hs

/-- A restore from a slot no other call saved into since this call's save
gives the thread back the mask it had on entry. -/
theorem ownerRestores {s s' : State Tid} {t : Tid} {p : ℕ} (h : Reachable s)
    (hp : s.pc t = .restoring p) (ho : s.owner p = some t) (hs : step s (.restore t) = some s') :
    s'.mask t = s.entry t := by
  simp only [step, hp, Option.some.injEq] at hs; subst hs
  simp [ownerInv_reachable h p t ho (by simp [hp, Phase.kept])]

/-- A call on its own gets its mask back: thread 0 saves into CPU 0's slot,
moves to CPU 3, returns from `get_user_pages` and restores `0b011`. -/
theorem ownerRestores_alone :
    ∃ s s', run (init (fun _ => 0) (fun _ => 0b011) (fun _ => 0) : State (Fin 1))
        [.save 0 3, .migrate 0, .gupReturn 0] = some s ∧ step s (.restore 0) = some s' ∧ s'.mask 0 = 0b011 := by
  have h : (run (init (fun _ => 0) (fun _ => 0b011) (fun _ => 0) : State (Fin 1))
      [.save 0 3, .migrate 0, .gupReturn 0]).map (fun s => (s.pc 0, s.owner 0, s.entry 0)) =
      some (.restoring 0, some 0, 0b011) := by decide
  obtain ⟨s, hs, he⟩ := Option.map_eq_some'.mp h
  simp only [Prod.mk.injEq] at he
  obtain ⟨hp, ho, hen⟩ := he
  have hstep : step s (.restore 0) =
      some { s with mask := Function.update s.mask 0 (s.slot 0), pc := Function.update s.pc 0 .idle } := by
    simp [step, hp]
  exact ⟨_, _, hs, hstep, (ownerRestores (run_reachable (.init _ _ _) hs) hp ho hstep).trans hen⟩

/-- Thread 0 with mask `0b011` and thread 1 with mask `0b101`, both last on CPU 0. -/
def twoOnCpu0 : State (Fin 2) := init (fun _ => 0) (fun t => if t = 0 then 0b011 else 0b101) (fun _ => 0)

/-- Thread 0 saves into CPU 0's slot and leaves for CPU 3; thread 1 then
runs on CPU 0, saves into the same slot and leaves; thread 0 wakes from
`get_user_pages` and restores thread 1's mask. -/
def overwriteRun : List (Action (Fin 2)) :=
  [.save 0 3, .migrate 0, .save 1 3, .migrate 1, .gupReturn 0, .restore 0]

/-- The run is possible and thread 0's call returns with mask `0b101`, not
the `0b011` it had on entry. -/
theorem pin_pages_restores_other_mask :
    ∃ s, run twoOnCpu0 overwriteRun = some s ∧ Reachable s ∧ s.pc 0 = .idle ∧
      s.entry 0 = 0b011 ∧ s.mask 0 = 0b101 := by
  have h : (run twoOnCpu0 overwriteRun).map (fun s => (s.pc 0, s.entry 0, s.mask 0)) =
      some (.idle, 0b011, 0b101) := by decide
  obtain ⟨s, hs, he⟩ := Option.map_eq_some'.mp h
  simp only [Prod.mk.injEq] at he
  exact ⟨s, hs, run_reachable (Reachable.init _ _ _) hs, he.1, he.2.1, he.2.2⟩

end XpmemPfn.SavedMask
