import Mathlib.Logic.Function.Basic

/-!
# The segment flags during a recall

`xpmem_recall_PFNs` tests `XPMEM_FLAG_DESTROYING | XPMEM_FLAG_RECALLINGPFNS`
and sets `RECALLINGPFNS` in one `seg->lock` section, clears the PTEs, and
clears the bit again in a second one. It runs only inside
`xpmem_recall_PFNs_of_tg`, which `xpmem_fork_begin` and
`xpmem_unpin_procfs_write` call under `tg->recall_PFNs_mutex`; other threads
may set `DESTROYING` on any segment under `seg->lock` at any time. Every
`seg->lock` section is one atomic step here. The walk's choice of segments
is `RecallWalk`'s subject: here the mutex holder may start a recall on any
segment whose `DESTROYING` it read clear.

In every reachable state the bit is set exactly while one call on the
segment is between its two sections, so the test sees it clear: the wait
branch is taken exactly on `DESTROYING`, no call clears or sets that bit,
and every call returns with `RECALLINGPFNS` clear.
-/

namespace XpmemPfn.RecallFlags

/-- Where a thread is in an owner-side recall. -/
inductive Phase (Seg : Type) where
  | idle
  /-- Holding `recall_PFNs_mutex`, walking `seg_list`. -/
  | walking
  /-- `xpmem_recall_PFNs(seg)` called; the first `seg->lock` section is next. -/
  | test (seg : Seg)
  /-- `RECALLINGPFNS` set; `xpmem_seg_down_write` and `xpmem_clear_PTEs` next. -/
  | clearing (seg : Seg)
  /-- PTEs cleared; the second `seg->lock` section is next. -/
  | unsetting (seg : Seg)
  /-- In `xpmem_wait_for_seg_destroyed`. -/
  | waiting (seg : Seg)
  deriving DecidableEq, Repr

/-- The call on `seg` is between setting and clearing `RECALLINGPFNS`. -/
def Phase.between {Seg : Type} (seg : Seg) : Phase Seg → Prop
  | .clearing s | .unsetting s => s = seg
  | _ => False

/-- The segments' flags, the mutex and the threads. -/
structure State (Tid Seg : Type) where
  /-- `XPMEM_FLAG_DESTROYING` of each segment. -/
  destroying : Seg → Bool
  /-- `XPMEM_FLAG_RECALLINGPFNS` of each segment. -/
  recalling : Seg → Bool
  /-- The owner of `tg->recall_PFNs_mutex`. -/
  mutex : Option Tid
  pc : Tid → Phase Seg

/-- The scheduler's choices. -/
inductive Action (Tid Seg : Type) where
  /-- The next step of a thread's recall. -/
  | step (t : Tid)
  /-- The walk of the mutex holder calls `xpmem_recall_PFNs(seg)`. -/
  | recallPFNs (t : Tid) (seg : Seg)
  /-- Another thread sets `DESTROYING` on a segment under `seg->lock`. -/
  | destroy (seg : Seg)

variable {Tid Seg : Type} [DecidableEq Tid] [DecidableEq Seg]

/-- One move; `none` when it is not enabled. -/
def step (s : State Tid Seg) : Action Tid Seg → Option (State Tid Seg)
  | .step t =>
    match s.pc t with
    | .idle =>
      -- `mutex_lock(&tg->recall_PFNs_mutex)`
      if s.mutex = none then some { s with mutex := some t, pc := Function.update s.pc t .walking }
      else none
    | .walking =>
      -- the walk ends: `mutex_unlock(&tg->recall_PFNs_mutex)`
      some { s with mutex := none, pc := Function.update s.pc t .idle }
    | .test seg =>
      if s.destroying seg || s.recalling seg then
        some { s with pc := Function.update s.pc t (.waiting seg) }
      else
        some { s with recalling := Function.update s.recalling seg true,
                      pc := Function.update s.pc t (.clearing seg) }
    | .clearing seg => some { s with pc := Function.update s.pc t (.unsetting seg) }
    | .unsetting seg =>
      some { s with recalling := Function.update s.recalling seg false,
                    pc := Function.update s.pc t .walking }
    | .waiting _ => some { s with pc := Function.update s.pc t .walking }
  | .recallPFNs t seg =>
    if s.pc t = .walking ∧ s.destroying seg = false then
      some { s with pc := Function.update s.pc t (.test seg) }
    else none
  | .destroy seg => some { s with destroying := Function.update s.destroying seg true }

/-- No flag set, the mutex free, every thread idle. -/
def State.init : State Tid Seg := ⟨fun _ => false, fun _ => false, none, fun _ => .idle⟩

/-- The states reachable from a fresh group. -/
inductive Reachable : State Tid Seg → Prop
  | init : Reachable State.init
  | step {s s' : State Tid Seg} (a : Action Tid Seg) : Reachable s → step s a = some s' → Reachable s'

/-- Only the mutex holder is past `mutex_lock`, and the bit of a segment is
set exactly while some call on it is between its two sections. -/
structure FlagInv (s : State Tid Seg) : Prop where
  holder : ∀ t, s.pc t ≠ .idle → s.mutex = some t
  recalling : ∀ seg, s.recalling seg = true ↔ ∃ t, (s.pc t).between seg

omit [DecidableEq Tid] [DecidableEq Seg] in
theorem flagInv_init : FlagInv (State.init : State Tid Seg) :=
  ⟨fun _ h => absurd rfl h, fun _ => by simp [State.init, Phase.between]⟩

omit [DecidableEq Tid] [DecidableEq Seg] in
/-- Inside the mutex every thread but the holder is idle. -/
theorem FlagInv.others_idle {s : State Tid Seg} (hi : FlagInv s) {t u : Tid} (ht : s.pc t ≠ .idle)
    (hut : u ≠ t) : s.pc u = .idle := by
  by_contra h; exact hut (Option.some.inj ((hi.holder u h).symm.trans (hi.holder t ht)))

omit [DecidableEq Seg] in
/-- Inside the mutex, a segment's bit is set exactly when the holder is
between the two sections of a call on it. -/
theorem FlagInv.recalling_iff_self {s : State Tid Seg} (hi : FlagInv s) {t : Tid}
    (ht : s.pc t ≠ .idle) (seg : Seg) : s.recalling seg = true ↔ (s.pc t).between seg := by
  rw [hi.recalling seg]
  refine ⟨fun ⟨u, hu⟩ => ?_, fun h => ⟨t, h⟩⟩
  by_cases hut : u = t
  · exact hut ▸ hu
  · rw [hi.others_idle ht hut] at hu; exact hu.elim

omit [DecidableEq Tid] [DecidableEq Seg] in
/-- With the mutex free every thread is idle and no bit is set. -/
theorem FlagInv.free {s : State Tid Seg} (hi : FlagInv s) (hm : s.mutex = none) :
    (∀ u, s.pc u = .idle) ∧ ∀ seg, s.recalling seg = false := by
  have hidle : ∀ u, s.pc u = .idle := fun u => by
    by_contra h; simp [hi.holder u h] at hm
  refine ⟨hidle, fun seg => ?_⟩
  cases h : s.recalling seg
  · rfl
  · obtain ⟨u, hu⟩ := (hi.recalling seg).mp h; rw [hidle u] at hu; exact hu.elim

omit [DecidableEq Seg] in
/-- A move of the mutex holder to another phase inside the mutex, writing
the bits so that they mark the new phase. -/
theorem FlagInv.update {s : State Tid Seg} (hi : FlagInv s) {t : Tid} (ht : s.pc t ≠ .idle)
    {p : Phase Seg} (r : Seg → Bool) (hr : ∀ seg, r seg = true ↔ p.between seg) :
    FlagInv { s with recalling := r, pc := Function.update s.pc t p } := by
  refine ⟨fun u hu => ?_, fun seg => ?_⟩
  · by_cases hut : u = t
    · subst hut; exact hi.holder u ht
    · exact absurd (by simpa [Function.update_noteq hut] using hi.others_idle ht hut) hu
  · rw [hr seg]
    refine ⟨fun h => ⟨t, by simpa using h⟩, fun ⟨u, hu⟩ => ?_⟩
    by_cases hut : u = t
    · subst hut; simpa using hu
    · simp [Function.update_noteq hut, hi.others_idle ht hut, Phase.between] at hu

omit [DecidableEq Seg] in
/-- A move of the holder that keeps the bits, to a phase between the same
segments. -/
theorem FlagInv.move {s : State Tid Seg} (hi : FlagInv s) {t : Tid} (ht : s.pc t ≠ .idle)
    {p : Phase Seg} (hp : ∀ x, p.between x ↔ (s.pc t).between x) :
    FlagInv { s with pc := Function.update s.pc t p } :=
  hi.update ht s.recalling fun x => by rw [hp, hi.recalling_iff_self ht]

/-- A move of the holder that writes `b` into the bit of `seg`, to a phase
between `seg` exactly when `b` is set, from one between no other segment. -/
theorem FlagInv.mark {s : State Tid Seg} (hi : FlagInv s) {t : Tid} (ht : s.pc t ≠ .idle)
    {p : Phase Seg} {seg : Seg} {b : Bool} (hold : ∀ x, x ≠ seg → ¬(s.pc t).between x)
    (hp : ∀ x, p.between x ↔ x = seg ∧ b = true) :
    FlagInv { s with recalling := Function.update s.recalling seg b, pc := Function.update s.pc t p } :=
  hi.update ht _ fun x => by
    by_cases hx : x = seg
    · subst hx; simp [hp]
    · simp [Function.update_noteq hx, hi.recalling_iff_self ht, hold x hx, hp, hx]

/-- Every move keeps the invariant. -/
theorem flagInv_step {s s' : State Tid Seg} {a : Action Tid Seg} (hi : FlagInv s)
    (hs : step s a = some s') : FlagInv s' := by
  cases a with
  | destroy seg => cases hs; exact ⟨hi.holder, hi.recalling⟩
  | recallPFNs t seg =>
    simp only [step] at hs; split_ifs at hs with h; cases hs
    exact hi.move (by simp [h.1]) fun x => by simp [h.1, Phase.between]
  | step t =>
    simp only [step] at hs
    split at hs
    case h_1 hp =>
      -- `mutex_lock`: the mutex was free, so every thread was idle
      split_ifs at hs with hm; cases hs
      obtain ⟨hidle, hr⟩ := hi.free hm
      refine ⟨fun u hu => ?_, fun seg => ⟨fun h => by simp [hr seg] at h, fun ⟨u, hu⟩ => ?_⟩⟩
      · by_cases hut : u = t
        · subst hut; rfl
        · simp [Function.update_noteq hut, hidle u] at hu
      · by_cases hut : u = t
        · subst hut; simp [Phase.between] at hu
        · simp [Function.update_noteq hut, hidle u, Phase.between] at hu
    case h_2 hp =>
      -- `mutex_unlock`: the holder leaves and every thread is idle
      cases hs
      have ht : s.pc t ≠ .idle := by simp [hp]
      have hidle : ∀ u, Function.update s.pc t .idle u = .idle := fun u => by
        by_cases hut : u = t
        · subst hut; simp
        · simp [Function.update_noteq hut, hi.others_idle ht hut]
      refine ⟨fun u hu => absurd (hidle u) hu, fun seg => ?_⟩
      simp only [hi.recalling_iff_self ht, hp, Phase.between, hidle, false_iff]
      exact fun ⟨_, h⟩ => h
    case h_3 seg hp =>
      -- the first `seg->lock` section: wait, or set the bit
      have ht : s.pc t ≠ .idle := by simp [hp]
      split_ifs at hs <;> cases hs
      · exact hi.move ht fun x => by simp [hp, Phase.between]
      · exact hi.mark ht (by simp [hp, Phase.between]) fun x => by simp [Phase.between, eq_comm]
    case h_4 seg hp =>
      cases hs
      exact hi.move (by simp [hp]) fun x => by simp [hp, Phase.between]
    case h_5 seg hp =>
      -- the second `seg->lock` section clears the bit
      cases hs
      exact hi.mark (by simp [hp]) (fun x hx => by simp [hp, Phase.between, Ne.symm hx])
        fun x => by simp [Phase.between]
    case h_6 seg hp =>
      cases hs
      exact hi.move (by simp [hp]) fun x => by simp [hp, Phase.between]

theorem flagInv_reachable {s : State Tid Seg} (h : Reachable s) : FlagInv s := by
  induction h with
  | init => exact flagInv_init
  | step a _ hs ih => exact flagInv_step ih hs

/-- No move of a thread writes `DESTROYING`: only another thread's destroy
sets it. -/
theorem step_destroying {s s' : State Tid Seg} {a : Action Tid Seg} (hs : step s a = some s') :
    s'.destroying = s.destroying ∨
      ∃ seg, a = .destroy seg ∧ s'.destroying = Function.update s.destroying seg true := by
  cases a with
  | destroy seg =>
    cases hs
    exact .inr ⟨seg, rfl, rfl⟩
  | recallPFNs t seg =>
    simp only [step] at hs
    split_ifs at hs
    cases hs
    exact .inl rfl
  | step t =>
    simp only [step] at hs
    split at hs <;> (try split_ifs at hs) <;> cases hs <;> exact .inl rfl

/-- In every reachable state a segment's `RECALLINGPFNS` is set exactly while
one call on it is between its two sections; the first section of a call
takes the wait branch exactly when `DESTROYING` is set; a call returns with
`RECALLINGPFNS` clear; and `DESTROYING` is never cleared and is set only by
another thread's destroy. -/
theorem recalling_flag_marks_one_call {s : State Tid Seg} (h : Reachable s) :
    (∀ seg, s.recalling seg = true ↔ ∃ t, (s.pc t).between seg) ∧
    (∀ seg t u, (s.pc t).between seg → (s.pc u).between seg → t = u) ∧
    (∀ t seg s', s.pc t = .test seg → step s (.step t) = some s' →
      (s'.pc t = .waiting seg ↔ s.destroying seg = true)) ∧
    (∀ t seg s', (s.pc t = .unsetting seg ∨ s.pc t = .waiting seg) → step s (.step t) = some s' →
      s'.pc t = .walking ∧ s'.recalling seg = false) ∧
    (∀ a s', step s a = some s' → (∀ seg, s.destroying seg = true → s'.destroying seg = true) ∧
      ((∀ seg, a ≠ .destroy seg) → s'.destroying = s.destroying)) := by
  have hi := flagInv_reachable h
  refine ⟨hi.recalling, fun seg t u ht hu => ?_, fun t seg s' hp hs => ?_, fun t seg s' hp hs => ?_,
    fun a s' hs => ?_⟩
  · have hne : ∀ {v}, (s.pc v).between seg → s.pc v ≠ .idle := fun hv he => by
      rw [he] at hv; exact hv
    exact Option.some.inj ((hi.holder t (hne ht)).symm.trans (hi.holder u (hne hu)))
  · have hr : s.recalling seg = false := by
      have := hi.recalling_iff_self (t := t) (by simp [hp]) seg
      simp only [hp, Phase.between] at this; simpa using this
    simp only [step, hp, hr, Bool.or_false] at hs
    cases hd : s.destroying seg <;> simp [hd] at hs <;> subst hs <;> simp
  · have ht : s.pc t ≠ .idle := by rcases hp with hp | hp <;> simp [hp]
    rcases hp with hp | hp <;> simp only [step, hp, Option.some.injEq] at hs <;> subst hs
    · simp
    · have := hi.recalling_iff_self ht seg
      simp only [hp, Phase.between] at this
      simpa using this
  · rcases step_destroying hs with he | ⟨seg, rfl, he⟩
    · exact ⟨fun seg hd => by rw [he]; exact hd, fun _ => he⟩
    · refine ⟨fun x hd => ?_, fun hne => absurd rfl (hne seg)⟩
      rw [he]; by_cases hx : x = seg
      · subst hx; simp
      · rw [Function.update_noteq hx]; exact hd

/-- The moves `as` one after another; `none` when one is not enabled. -/
def run (s : State Tid Seg) : List (Action Tid Seg) → Option (State Tid Seg)
  | [] => some s
  | a :: as => (step s a).bind fun s' => run s' as

theorem run_reachable {s s' : State Tid Seg} (h : Reachable s) :
    ∀ {as : List (Action Tid Seg)}, run s as = some s' → Reachable s'
  | [], hr => Option.some.inj hr ▸ h
  | a :: as, hr => by
    obtain ⟨s1, h1, hr⟩ := Option.bind_eq_some.mp hr
    exact run_reachable (.step a h h1) hr

/-- A thread takes the mutex and its walk calls `xpmem_recall_PFNs` on
segment 0; another thread sets `DESTROYING` on segment 1; the call passes
its first `seg->lock` section. -/
def recallWhileDestroying : List (Action (Fin 1) (Fin 2)) := [.step 0, .recallPFNs 0 0, .destroy 1, .step 0]

/-- Between the two sections of that call, segment 0's bit is set and marks
the one call on it, while segment 1 is being destroyed. -/
theorem recalling_flag_marks_one_call_midway :
    ∃ s, run State.init recallWhileDestroying = some s ∧ Reachable s ∧ s.recalling 0 = true ∧
      s.destroying 1 = true ∧
      (∀ seg, s.recalling seg = true ↔ ∃ t, (s.pc t).between seg) ∧
      (∀ seg t u, (s.pc t).between seg → (s.pc u).between seg → t = u) ∧
      (∀ t seg s', s.pc t = .test seg → step s (.step t) = some s' →
        (s'.pc t = .waiting seg ↔ s.destroying seg = true)) ∧
      (∀ t seg s', (s.pc t = .unsetting seg ∨ s.pc t = .waiting seg) → step s (.step t) = some s' →
        s'.pc t = .walking ∧ s'.recalling seg = false) ∧
      (∀ a s', step s a = some s' → (∀ seg, s.destroying seg = true → s'.destroying seg = true) ∧
        ((∀ seg, a ≠ .destroy seg) → s'.destroying = s.destroying)) := by
  obtain ⟨s, hs, hv⟩ := Option.map_eq_some'.mp (show (run State.init recallWhileDestroying).map
      (fun s => (s.recalling 0, s.destroying 1)) = some (true, true) by decide)
  simp only [Prod.mk.injEq] at hv
  have hr := run_reachable .init hs
  exact ⟨s, hs, hr, hv.1, hv.2, recalling_flag_marks_one_call hr⟩

end XpmemPfn.RecallFlags
