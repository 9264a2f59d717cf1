import Mathlib.Logic.Function.Basic
import Mathlib.Data.List.Nodup
import Mathlib.Tactic.Set

/-!
# The walk of `xpmem_recall_PFNs_of_tg` over `seg_list`

The walk holds `seg_list_lock` for reading except around each
`xpmem_recall_PFNs`, where other threads may delete segments with
`list_del_init`, append new ones, and set `XPMEM_FLAG_DESTROYING`. After the
call it tests `list_empty(&seg->seg_list)`: a deleted cursor sends the walk
back to the list head.

`seg_list` is kept as the part before the cursor, the cursor and the part
after it; `env` lists the changes made during each call, in order, one batch
per call. A flag set while the walk holds the lock is seen exactly as one set
in the window before, since the flag is sticky and read only at the test.
The walk ends for every finite `env`, and it recalls every segment that is
on the list, never deleted and never destroyed.
-/

namespace XpmemPfn.RecallWalk

/-- A change another thread makes while the walk has dropped the lock. -/
inductive Change (Seg : Type) where
  /-- `list_del_init(&seg->seg_list)` under the write lock. -/
  | remove (seg : Seg)
  /-- `list_add_tail(&seg->seg_list, &seg_tg->seg_list)` of a new segment. -/
  | append (seg : Seg)
  /-- `seg->flags |= XPMEM_FLAG_DESTROYING`. -/
  | destroy (seg : Seg)
  deriving DecidableEq, Repr

/-- `seg_list` split at the walk's cursor, with the flags and a ghost log. -/
structure Walk (Seg : Type) where
  /-- The entries before the cursor. -/
  done : List Seg
  /-- The cursor `seg`: `none` at the list head, or once the cursor is deleted. -/
  cur : Option Seg
  /-- The entries after the cursor. -/
  todo : List Seg
  /-- `XPMEM_FLAG_DESTROYING` of each segment. -/
  destroying : Seg → Bool
  /-- Ghost: every segment passed to `xpmem_recall_PFNs`, in order. -/
  recalled : List Seg

namespace Walk

variable {Seg : Type}

/-- The segments on `seg_list`, in order. -/
def list (w : Walk Seg) : List Seg := w.done ++ w.cur.toList ++ w.todo

/-- `seg` becomes the cursor, `todo` the entries after it. -/
def moveTo (w : Walk Seg) (seg : Seg) (todo : List Seg) : Walk Seg :=
  { w with done := w.done ++ w.cur.toList, cur := some seg, todo := todo }

/-- `seg = list_entry(&seg_tg->seg_list, ...)`: the cursor goes back to the list head. -/
def toHead (w : Walk Seg) : Walk Seg := { w with done := [], cur := none, todo := w.list }

end Walk

variable {Seg : Type} [DecidableEq Seg]

/-- One change, as the walk sees it after it retakes the lock. -/
def Change.apply : Change Seg → Walk Seg → Walk Seg
  | .remove x, w =>
    { w with done := w.done.erase x, cur := if w.cur = some x then none else w.cur,
             todo := w.todo.erase x }
  | .append x, w => { w with todo := w.todo ++ [x] }
  | .destroy x, w => { w with destroying := Function.update w.destroying x true }

/-- The changes of one window, in order. -/
def applyAll (b : List (Change Seg)) (w : Walk Seg) : Walk Seg := b.foldl (fun w c => c.apply w) w

/-- The `list_for_each_entry` loop from the cursor on, with `env` the batches
of the remaining windows; `fuel` bounds the iterations. -/
def recallLoop (fuel : ℕ) (w : Walk Seg) (env : List (List (Change Seg))) : Option (Walk Seg) :=
  match fuel with
  | 0 => none
  | fuel + 1 =>
    match w.todo with
    | [] => some w
    | seg :: todo =>
      let w := w.moveTo seg todo
      if w.destroying seg then recallLoop fuel w env
      else
        -- `xpmem_seg_ref`, `read_unlock`, `xpmem_recall_PFNs(seg)`, `read_lock`
        let w := applyAll (env.headD []) { w with recalled := w.recalled ++ [seg] }
        -- `list_empty(&seg->seg_list)`: the cursor was deleted
        recallLoop fuel (if w.cur = none then w.toHead else w) env.tail

/-- Whether a change deletes a segment. -/
def Change.isRemove : Change Seg → Bool
  | .remove _ => true
  | _ => false

/-- Whether a change appends a segment. -/
def Change.isAppend : Change Seg → Bool
  | .append _ => true
  | _ => false

/-- The deletions in all windows. -/
def removals (env : List (List (Change Seg))) : ℕ := env.flatten.countP Change.isRemove

/-- The appends in all windows. -/
def appends (env : List (List (Change Seg))) : ℕ := env.flatten.countP Change.isAppend

/-- `xpmem_recall_PFNs_of_tg` on `seg_list = segs`: the walk after its last
iteration. Each iteration either moves the cursor on or follows a deletion,
so the fuel below is enough for every schedule. -/
def xpmemRecallPFNsOfTg (segs : List Seg) (destroying : Seg → Bool) (env : List (List (Change Seg))) :
    Option (Walk Seg) :=
  recallLoop (removals env * (segs.length + appends env + 1) + segs.length + appends env + 1)
    ⟨[], none, segs, destroying, []⟩ env

section Batch

variable (S : Seg → Prop)

/-- The walk has recalled every segment of `S` at or before the cursor, and
every segment of `S` is on the list and not destroyed. -/
def Cov (w : Walk Seg) : Prop :=
  ∀ x, S x → x ∈ w.list ∧ w.destroying x = false ∧ (x ∈ w.done ∨ w.cur = some x → x ∈ w.recalled)

omit [DecidableEq Seg] in
theorem removals_eq (env : List (List (Change Seg))) :
    removals env = (env.headD []).countP Change.isRemove + removals env.tail := by
  cases env <;> simp [removals, List.countP_append]

omit [DecidableEq Seg] in
theorem appends_eq (env : List (List (Change Seg))) :
    appends env = (env.headD []).countP Change.isAppend + appends env.tail := by
  cases env <;> simp [appends, List.countP_append]

/-- A change keeps the log, grows the list and the part after the cursor
only by an append, and clears the cursor only by a deletion. -/
theorem Change.apply_spec (c : Change Seg) (w : Walk Seg) :
    (c.apply w).recalled = w.recalled ∧
    (c.apply w).list.length ≤ w.list.length + (if c.isAppend then 1 else 0) ∧
    (c.apply w).todo.length ≤ w.todo.length + (if c.isAppend then 1 else 0) ∧
    (w.cur ≠ none → (c.apply w).cur = none → c.isRemove = true) := by
  have hcur : ∀ x, (if w.cur = some x then none else w.cur).toList.length ≤ w.cur.toList.length :=
    fun x => by split_ifs <;> simp
  cases c with
  | remove x =>
    refine ⟨rfl, ?_, by simpa using List.length_erase_le .., fun _ _ => rfl⟩
    have h1 := List.length_erase_le x w.done
    have h2 := List.length_erase_le x w.todo
    have h3 := hcur x
    simp only [Change.apply, Walk.list, List.length_append, Change.isAppend]; omega
  | append x =>
    refine ⟨rfl, ?_, ?_, fun h h' => absurd h' h⟩ <;> simp [Change.apply, Walk.list, Change.isAppend]
    omega
  | destroy x =>
    exact ⟨rfl, by simp [Change.apply, Walk.list, Change.isAppend],
      by simp [Change.apply, Change.isAppend], fun h h' => absurd h' h⟩

/-- A change that neither deletes nor destroys a segment of `S` keeps `Cov`. -/
theorem Change.apply_cov {c : Change Seg} {w : Walk Seg}
    (hc : ∀ x, S x → c ≠ .remove x ∧ c ≠ .destroy x) (hw : Cov S w) : Cov S (c.apply w) := by
  intro x hx
  obtain ⟨hl, hd, hr⟩ := hw x hx
  cases c with
  | remove y =>
    have hxy : x ≠ y := fun h => (hc x hx).1 (h ▸ rfl)
    -- deleting another segment keeps `x` where it was, the cursor included
    have hcur : (if w.cur = some y then none else w.cur) = some x ↔ w.cur = some x := by
      split_ifs with hy <;> simp [hy, Ne.symm hxy]
    have hmem : x ∈ (if w.cur = some y then none else w.cur).toList ↔ x ∈ w.cur.toList := by
      simpa only [Option.mem_toList, Option.mem_def] using hcur
    refine ⟨?_, hd, fun h => hr ?_⟩
    · simpa only [Walk.list, Change.apply, List.mem_append, List.mem_erase_of_ne hxy, hmem] using hl
    · simpa only [Change.apply, List.mem_erase_of_ne hxy, hcur] using h
  | append y =>
    have hlist : ((Change.append y).apply w).list = w.list ++ [y] := by simp [Walk.list, Change.apply]
    exact ⟨hlist ▸ List.mem_append_left _ hl, hd, hr⟩
  | destroy y =>
    have hxy : x ≠ y := fun h => (hc x hx).2 (h ▸ rfl)
    exact ⟨hl, by simp [Change.apply, Function.update_noteq hxy, hd], hr⟩

/-- A window's changes, by induction on the batch. -/
theorem applyAll_spec (b : List (Change Seg)) (w : Walk Seg) :
    (applyAll b w).recalled = w.recalled ∧
    (applyAll b w).list.length ≤ w.list.length + b.countP Change.isAppend ∧
    (applyAll b w).todo.length ≤ w.todo.length + b.countP Change.isAppend ∧
    (w.cur ≠ none → (applyAll b w).cur = none → 1 ≤ b.countP Change.isRemove) := by
  induction b generalizing w with
  | nil => simp [applyAll]
  | cons c b ih =>
    obtain ⟨r1, l1, t1, c1⟩ := c.apply_spec w
    obtain ⟨r2, l2, t2, c2⟩ := ih (c.apply w)
    simp only [applyAll, List.foldl_cons] at r2 l2 t2 c2 ⊢
    refine ⟨r2.trans r1, ?_, ?_, fun hw hn => ?_⟩
    · rw [List.countP_cons]; omega
    · rw [List.countP_cons]; omega
    · rw [List.countP_cons]
      by_cases hc : (c.apply w).cur = none
      · rw [if_pos (c1 hw hc)]; omega
      · have := c2 hc hn; omega

theorem applyAll_cov {b : List (Change Seg)} {w : Walk Seg}
    (hb : ∀ x, S x → Change.remove x ∉ b ∧ Change.destroy x ∉ b) (hw : Cov S w) :
    Cov S (applyAll b w) := by
  induction b generalizing w with
  | nil => exact hw
  | cons c b ih =>
    refine ih (fun x hx => ?_) (Change.apply_cov S (fun x hx => ?_) hw)
    · exact ⟨fun h => (hb x hx).1 (List.mem_cons_of_mem _ h),
        fun h => (hb x hx).2 (List.mem_cons_of_mem _ h)⟩
    · exact ⟨fun h => (hb x hx).1 (h ▸ List.mem_cons_self _ _),
        fun h => (hb x hx).2 (h ▸ List.mem_cons_self _ _)⟩

omit [DecidableEq Seg] in
theorem Walk.list_moveTo {w : Walk Seg} {seg : Seg} {todo : List Seg} (ht : w.todo = seg :: todo) :
    (w.moveTo seg todo).list = w.list := by
  simp [Walk.list, Walk.moveTo, ht]

omit [DecidableEq Seg] in
/-- Moving the cursor on keeps `Cov` when the log keeps its entries and
gains the new cursor if it belongs to `S`. -/
theorem Cov.moveTo {w : Walk Seg} {seg : Seg} {todo r : List Seg} (ht : w.todo = seg :: todo)
    (hw : Cov S w) (hr : ∀ x ∈ w.recalled, x ∈ r) (hseg : S seg → seg ∈ r) :
    Cov S { w.moveTo seg todo with recalled := r } := by
  intro x hx
  obtain ⟨hl, hd, hrec⟩ := hw x hx
  refine ⟨(Walk.list_moveTo ht).symm ▸ hl, hd, fun h => ?_⟩
  rcases h with h | h
  · exact hr x (hrec (by simpa [Walk.moveTo, Option.mem_toList, eq_comm] using h))
  · obtain rfl := Option.some.inj h
    exact hseg hx

omit [DecidableEq Seg] in
/-- Going back to the list head keeps `Cov`. -/
theorem Cov.toHead {w : Walk Seg} (hw : Cov S w) : Cov S w.toHead :=
  fun x hx => ⟨by simpa [Walk.toHead, Walk.list] using (hw x hx).1, (hw x hx).2.1, by simp [Walk.toHead]⟩

end Batch

section Loop

variable {fuel : ℕ} {w : Walk Seg} {env : List (List (Change Seg))} {seg : Seg} {todo : List Seg}

theorem recallLoop_end (ht : w.todo = []) : recallLoop (fuel + 1) w env = some w := by
  simp [recallLoop, ht]

theorem recallLoop_skip (ht : w.todo = seg :: todo) (hd : w.destroying seg = true) :
    recallLoop (fuel + 1) w env = recallLoop fuel (w.moveTo seg todo) env := by
  simp [recallLoop, ht, Walk.moveTo, hd]

theorem recallLoop_recall (ht : w.todo = seg :: todo) (hd : w.destroying seg = false) :
    recallLoop (fuel + 1) w env =
      let w' := applyAll (env.headD []) { w.moveTo seg todo with recalled := w.recalled ++ [seg] }
      recallLoop fuel (if w'.cur = none then w'.toHead else w') env.tail := by
  simp only [recallLoop, ht, Walk.moveTo, hd, Bool.false_eq_true, if_false]

variable (S : Seg → Prop) (B : ℕ)

/-- The loop ends with every segment of `S` recalled, given fuel above the
potential `removals env * B + w.todo.length + appends env`, where `B` bounds
the list together with the appends still to come: a step that moves the
cursor on lowers the potential, and a restart pays for itself with a
deletion. -/
theorem recallLoop_spec : ∀ (fuel : ℕ) (w : Walk Seg) (env : List (List (Change Seg))),
    removals env * B + w.todo.length + appends env < fuel → w.list.length + appends env < B →
    (∀ b ∈ env, ∀ x, S x → Change.remove x ∉ b ∧ Change.destroy x ∉ b) → Cov S w →
    ∃ w', recallLoop fuel w env = some w' ∧ ∀ x, S x → x ∈ w'.recalled
  | 0, _, _, hf, _, _, _ => absurd hf (Nat.not_lt_zero _)
  | fuel + 1, w, env, hf, hB, hS, hw => by
    rcases ht : w.todo with _ | ⟨seg, todo⟩
    · -- the cursor is on the last entry: the walk ends
      refine ⟨w, recallLoop_end ht, fun x hx => (hw x hx).2.2 ?_⟩
      simpa [Walk.list, ht] using (hw x hx).1
    rw [ht, List.length_cons] at hf
    have hl1 : (w.moveTo seg todo).list = w.list := Walk.list_moveTo ht
    by_cases hd : w.destroying seg
    · -- `XPMEM_FLAG_DESTROYING`: the segment is skipped
      have hcov : Cov S (w.moveTo seg todo) :=
        Cov.moveTo S ht hw (fun _ hx => hx) fun hs => by simp [(hw seg hs).2.1] at hd
      obtain ⟨w', h1, h2⟩ := recallLoop_spec fuel _ env (by simp only [Walk.moveTo]; omega)
        (hl1 ▸ hB) hS hcov
      exact ⟨w', (recallLoop_skip ht hd).trans h1, h2⟩
    -- the segment is recalled, then the window's changes are seen
    replace hd : w.destroying seg = false := by simpa using hd
    have hhead : ∀ x, S x → Change.remove x ∉ env.headD [] ∧ Change.destroy x ∉ env.headD [] := by
      cases env with
      | nil => simp
      | cons b env => exact hS b (List.mem_cons_self _ _)
    let w2 : Walk Seg := { w.moveTo seg todo with recalled := w.recalled ++ [seg] }
    have hcov : Cov S (applyAll (env.headD []) w2) :=
      applyAll_cov S hhead (Cov.moveTo S ht hw (fun _ hx => List.mem_append_left _ hx) fun _ => by simp)
    obtain ⟨-, hl, htodo, hcur⟩ := applyAll_spec (env.headD []) w2
    set w3 := applyAll (env.headD []) w2
    have hl2 : w2.list.length = w.list.length := congrArg List.length hl1
    have ht2 : w2.todo.length = todo.length := rfl
    have hmul := congrArg (· * B) (removals_eq env)
    have hA := appends_eq env
    simp only [Nat.add_mul] at hmul
    -- the next walk, with its potential and its bound
    have hnext : removals env.tail * B + (if w3.cur = none then w3.toHead else w3).todo.length +
        appends env.tail < fuel ∧
        (if w3.cur = none then w3.toHead else w3).list.length + appends env.tail < B ∧
        Cov S (if w3.cur = none then w3.toHead else w3) := by
      by_cases hc : w3.cur = none
      · -- `list_empty(&seg->seg_list)`: the cursor was deleted, so the window deleted a segment
        have hr := Nat.le_mul_of_pos_left B (hcur (by simp [w2, Walk.moveTo]) hc)
        have h4 : w3.toHead.list.length = w3.list.length := by simp [Walk.toHead, Walk.list]
        have h5 : w3.toHead.todo.length = w3.list.length := rfl
        rw [if_pos hc]
        exact ⟨by omega, by omega, hcov.toHead S⟩
      · rw [if_neg hc]
        exact ⟨by omega, by omega, hcov⟩
    obtain ⟨w', h1, h2⟩ := recallLoop_spec fuel _ env.tail hnext.1 hnext.2.1
      (fun b hb => hS b (List.mem_of_mem_tail hb)) hnext.2.2
    exact ⟨w', (recallLoop_recall ht hd).trans h1, h2⟩

end Loop

/-- `xpmem_recall_PFNs_of_tg` terminates for every initial list and every
finite schedule of changes, and calls `xpmem_recall_PFNs` on every segment
that is on the list at the start and that no window deletes or destroys. -/
theorem recall_walk_covers_live_segments (segs : List Seg) (destroying : Seg → Bool)
    (env : List (List (Change Seg))) :
    ∃ w, xpmemRecallPFNsOfTg segs destroying env = some w ∧
      ∀ x ∈ segs, destroying x = false → (∀ b ∈ env, Change.remove x ∉ b ∧ Change.destroy x ∉ b) →
        x ∈ w.recalled := by
  let S x := x ∈ segs ∧ destroying x = false ∧ ∀ b ∈ env, Change.remove x ∉ b ∧ Change.destroy x ∉ b
  have hcov : Cov S ⟨[], none, segs, destroying, []⟩ :=
    fun x hx => ⟨by simp [Walk.list, hx.1], hx.2.1, by simp⟩
  obtain ⟨w, h1, h2⟩ := recallLoop_spec S (segs.length + appends env + 1) _ _ env
    (Nat.lt_succ_self _) (by simp [Walk.list]) (fun b hb x hx => hx.2.2 b hb) hcov
  exact ⟨w, h1, fun x hx hd he => h2 x ⟨hx, hd, he⟩⟩

/-- Segment 0 is deleted while it is recalled: the walk restarts at the
head and recalls 1 and 2. -/
example : (xpmemRecallPFNsOfTg [0, 1, 2] (fun _ => false) [[.remove 0]]).map Walk.recalled =
    some [0, 1, 2] := by
  rfl

/-! ## Only listed, live segments are recalled -/

omit [DecidableEq Seg] in
/-- The segment a change appends. -/
def Change.appendOf : Change Seg → Option Seg
  | .append x => some x
  | _ => none

/-- One change to `seg_list` itself: `list_del_init` takes the entry out,
`list_add_tail` appends it, and a flag leaves the list alone. -/
def Change.applyList : Change Seg → List Seg → List Seg
  | .remove x, l => l.erase x
  | .append x, l => l ++ [x]
  | .destroy _, l => l

/-- `seg_list` when the walk makes its `j`-th call: `segs` with the changes
of the first `j` windows, in order. -/
def segListAt (segs : List Seg) (env : List (List (Change Seg))) (j : ℕ) : List Seg :=
  (env.take j).flatten.foldl (fun l c => c.applyList l) segs

/-- One more window. -/
theorem segListAt_succ (segs : List Seg) (env : List (List (Change Seg))) (j : ℕ) :
    segListAt segs env (j + 1) = (env.getD j []).foldl (fun l c => c.applyList l) (segListAt segs env j) := by
  simp only [segListAt, List.take_succ, List.flatten_append, List.foldl_append]
  cases h : env[j]? <;> simp [List.getD_eq_getElem?_getD, h]

section Batch

variable {w : Walk Seg} {x : Seg}

/-- A change drops entries of the list, or adds the segment it appends at the end. -/
theorem Change.apply_list_sublist (c : Change Seg) (w : Walk Seg) :
    List.Sublist (c.apply w).list (w.list ++ c.appendOf.toList) := by
  cases c with
  | remove y =>
    have hcur : List.Sublist (if w.cur = some y then none else w.cur).toList w.cur.toList := by
      split_ifs <;> simp
    simpa [Change.apply, Walk.list, Change.appendOf] using
      ((List.erase_sublist y w.done).append hcur).append (List.erase_sublist y w.todo)
  | append y => simp [Change.apply, Walk.list, Change.appendOf]
  | destroy y => simp [Change.apply, Walk.list, Change.appendOf]

/-- A window keeps the list free of duplicates when its appends are new, as
are those still to come. -/
theorem applyAll_nodup (b : List (Change Seg)) (R : List Seg) :
    ∀ w : Walk Seg, (w.list ++ b.filterMap Change.appendOf ++ R).Nodup → ((applyAll b w).list ++ R).Nodup := by
  induction b with
  | nil => simp [applyAll]
  | cons c b ih =>
    intro w h
    refine ih (c.apply w) (List.Nodup.sublist ?_ h)
    have hc : (c :: b).filterMap Change.appendOf = c.appendOf.toList ++ b.filterMap Change.appendOf := by
      cases hc : c.appendOf <;> simp [List.filterMap_cons, hc]
    rw [hc, ← List.append_assoc]
    exact ((c.apply_list_sublist w).append (List.Sublist.refl _)).append (List.Sublist.refl _)

/-- On a list without duplicates a change does to the walk's list what it
does to `seg_list`. -/
theorem Change.apply_list {c : Change Seg} (hnd : w.list.Nodup) : (c.apply w).list = c.applyList w.list := by
  cases c with
  | remove x =>
    simp only [Walk.list, List.nodup_append, List.disjoint_left, List.mem_append] at hnd
    obtain ⟨⟨-, -, hdc⟩, -, hdt⟩ := hnd
    simp only [Change.apply, Change.applyList, Walk.list, List.append_assoc]
    by_cases hd : x ∈ w.done
    · -- the deletion takes `x` from the entries before the cursor
      have hc : w.cur ≠ some x := fun h => hdc hd (by simp [h])
      rw [List.erase_append_left _ hd, if_neg hc, List.erase_of_not_mem fun h => hdt (.inl hd) h]
    · rw [List.erase_append_right _ hd, List.erase_of_not_mem hd]
      by_cases hc : w.cur = some x
      · -- the deletion takes the cursor
        have ht : x ∉ w.todo := fun h => hdt (.inr (by simp [hc])) h
        simp [hc, List.erase_of_not_mem ht]
      · have hx : x ∉ w.cur.toList := by simpa [Option.mem_toList, eq_comm] using hc
        rw [if_neg hc, List.erase_append_right _ hx]
  | append x => simp [Change.apply, Change.applyList, Walk.list]
  | destroy x => rfl

/-- A window whose appends are new does to the walk's list what its changes
do to `seg_list`, in order. -/
theorem applyAll_list (b : List (Change Seg)) :
    ∀ w : Walk Seg, (w.list ++ b.filterMap Change.appendOf).Nodup →
      (applyAll b w).list = b.foldl (fun l c => c.applyList l) w.list := by
  induction b with
  | nil => simp [applyAll]
  | cons c b ih =>
    intro w hnd
    have hnd' : ((c.apply w).list ++ b.filterMap Change.appendOf).Nodup :=
      applyAll_nodup [c] _ w (by rw [List.append_assoc, ← List.filterMap_append]; exact hnd)
    rw [List.foldl_cons, ← Change.apply_list (List.nodup_append.mp hnd).1]
    exact ih _ hnd'

/-- A flag set before a window, or by it, is set after it. -/
theorem applyAll_destroying (b : List (Change Seg)) :
    ∀ w : Walk Seg, w.destroying x = true ∨ Change.destroy x ∈ b → (applyAll b w).destroying x = true := by
  induction b with
  | nil => simp [applyAll]
  | cons c b ih =>
    intro w h
    refine ih (c.apply w) ?_
    rw [List.mem_cons] at h
    rcases h with h | rfl | h
    · left
      cases c with
      | destroy y => by_cases hy : x = y <;> simp [Change.apply, hy, h]
      | _ => simpa [Change.apply] using h
    · left; simp [Change.apply]
    · exact .inr h

end Batch

@[simp] theorem applyAll_recalled (b : List (Change Seg)) (w : Walk Seg) :
    (applyAll b w).recalled = w.recalled :=
  (applyAll_spec b w).1

omit [DecidableEq Seg] in
/-- The window the loop sees after `c` calls. -/
theorem headD_drop (env : List (List (Change Seg))) (c : ℕ) : (env.drop c).headD [] = env.getD c [] := by
  simp

omit [DecidableEq Seg] in
/-- The schedule from window `c` on: window `c`, then the rest. -/
theorem flatten_drop (env : List (List (Change Seg))) (c : ℕ) :
    (env.drop c).flatten = env.getD c [] ++ (env.drop (c + 1)).flatten := by
  by_cases hc : c < env.length
  · rw [List.drop_eq_getElem_cons hc, List.flatten_cons]; simp [hc]
  · simp [List.drop_of_length_le (Nat.le_of_not_lt hc), List.drop_of_length_le (by omega : env.length ≤ c + 1),
      List.getElem?_eq_none (Nat.le_of_not_lt hc)]

section Sound

variable (segs : List Seg) (destroying : Seg → Bool) (env : List (List (Change Seg)))

/-- `XPMEM_FLAG_DESTROYING` of `x` is set before call `j`: at the start or in
an earlier window. -/
def Destroyed (j : ℕ) (x : Seg) : Prop :=
  destroying x = true ∨ ∃ i < j, Change.destroy x ∈ env.getD i []

/-- What the walk keeps after its first `w.recalled.length` calls: no
segment is twice on the list or among the appends to come, the list is
`seg_list` as the changes so far left it, every flag set so far is seen, and
every call so far was on a segment of `seg_list` at that call whose flag was
not set before it. -/
structure Sound (w : Walk Seg) : Prop where
  nodup : (w.list ++ (env.drop w.recalled.length).flatten.filterMap Change.appendOf).Nodup
  list : w.list = segListAt segs env w.recalled.length
  flags : ∀ x, Destroyed destroying env w.recalled.length x → w.destroying x = true
  calls : ∀ j x, w.recalled[j]? = some x → x ∈ segListAt segs env j ∧ ¬Destroyed destroying env j x

variable {segs destroying env}

theorem Sound.moveTo {w : Walk Seg} {seg : Seg} {todo : List Seg} (ht : w.todo = seg :: todo)
    (hw : Sound segs destroying env w) : Sound segs destroying env (w.moveTo seg todo) := by
  have hl := Walk.list_moveTo ht
  exact ⟨hl ▸ hw.nodup, hl ▸ hw.list, hw.flags, hw.calls⟩

theorem Sound.toHead {w : Walk Seg} (hw : Sound segs destroying env w) :
    Sound segs destroying env w.toHead := by
  have hl : w.toHead.list = w.list := by simp [Walk.toHead, Walk.list]
  exact ⟨hl ▸ hw.nodup, hl ▸ hw.list, hw.flags, hw.calls⟩

/-- A call on an undestroyed segment at the cursor, followed by its window,
keeps `Sound`. -/
theorem Sound.recall {w : Walk Seg} {seg : Seg} {todo : List Seg} (ht : w.todo = seg :: todo)
    (hd : w.destroying seg = false) (hw : Sound segs destroying env w) :
    Sound segs destroying env
      (applyAll (env.getD w.recalled.length []) { w.moveTo seg todo with recalled := w.recalled ++ [seg] }) := by
  set c := w.recalled.length
  set w2 : Walk Seg := { w.moveTo seg todo with recalled := w.recalled ++ [seg] }
  have hl2 : w2.list = w.list := Walk.list_moveTo ht
  have hlen : (applyAll (env.getD c []) w2).recalled.length = c + 1 := by simp [w2, c]
  -- the window's appends are new, and so are the later ones
  have hnd : (w2.list ++ (env.getD c []).filterMap Change.appendOf ++
      (env.drop (c + 1)).flatten.filterMap Change.appendOf).Nodup := by
    have := hw.nodup
    rwa [flatten_drop env c, List.filterMap_append, ← List.append_assoc, ← hl2] at this
  refine ⟨?_, ?_, fun x hx => ?_, fun j x hj => ?_⟩
  · rw [hlen]; exact applyAll_nodup _ _ w2 hnd
  · rw [hlen, segListAt_succ, ← hw.list, ← hl2]
    exact applyAll_list _ w2 (List.nodup_append.mp hnd).1
  · rw [hlen] at hx
    refine applyAll_destroying _ w2 ?_
    rcases hx with hx | ⟨i, hi, hx⟩
    · exact .inl (hw.flags x (.inl hx))
    · rcases Nat.lt_succ_iff_lt_or_eq.mp hi with hi | rfl
      · exact .inl (hw.flags x (.inr ⟨i, hi, hx⟩))
      · exact .inr hx
  · rw [applyAll_recalled] at hj
    rcases Nat.lt_or_ge j c with hj' | hj'
    · rw [List.getElem?_append_left hj'] at hj
      exact hw.calls j x hj
    · -- the new call, on the segment at the cursor
      rw [List.getElem?_append_right hj'] at hj
      obtain ⟨hjc, rfl⟩ : j - c = 0 ∧ seg = x := by
        rcases h : j - c with _ | _ <;> simp_all
      obtain rfl : j = c := by omega
      refine ⟨hw.list ▸ (by simp [Walk.list, ht]), fun hx => ?_⟩
      simp [hw.flags seg hx] at hd

/-- Every run of the loop from a `Sound` walk ends `Sound`. -/
theorem recallLoop_sound : ∀ (fuel : ℕ) (w w' : Walk Seg), Sound segs destroying env w →
    recallLoop fuel w (env.drop w.recalled.length) = some w' → Sound segs destroying env w'
  | 0, _, _, _, h => by cases h
  | fuel + 1, w, w', hw, h => by
    rcases ht : w.todo with _ | ⟨seg, todo⟩
    · rw [recallLoop_end ht] at h
      exact Option.some.inj h ▸ hw
    by_cases hd : w.destroying seg
    · rw [recallLoop_skip ht hd] at h
      exact recallLoop_sound fuel _ w' (hw.moveTo ht) h
    · replace hd : w.destroying seg = false := by simpa using hd
      rw [recallLoop_recall ht hd, List.tail_drop, headD_drop] at h
      have hs := hw.recall ht hd
      have hlen : w.recalled.length + 1 = (applyAll (env.getD w.recalled.length [])
          { w.moveTo seg todo with recalled := w.recalled ++ [seg] }).recalled.length := by
        simp
      rw [hlen] at h
      dsimp only at h
      split at h
      · exact recallLoop_sound fuel _ w' hs.toHead h
      · exact recallLoop_sound fuel _ w' hs h

end Sound

/-- For a `seg_list` without duplicates whose appended segments are new,
every schedule of changes: the `j`-th call of `xpmem_recall_PFNs` is on a
segment that is on `seg_list` at that moment, the initial list with the
changes of the first `j` windows applied in order, and whose
`XPMEM_FLAG_DESTROYING` was set neither at the start nor in an earlier
window. -/
theorem recall_walk_calls_only_listed_segments (segs : List Seg) (destroying : Seg → Bool)
    (env : List (List (Change Seg))) (hnd : (segs ++ env.flatten.filterMap Change.appendOf).Nodup) :
    ∃ w, xpmemRecallPFNsOfTg segs destroying env = some w ∧
      ∀ j x, w.recalled[j]? = some x →
        x ∈ segListAt segs env j ∧ destroying x = false ∧ ∀ i < j, Change.destroy x ∉ env.getD i [] := by
  have h0 : Sound segs destroying env ⟨[], none, segs, destroying, []⟩ :=
    ⟨by simpa [Walk.list] using hnd, by simp [Walk.list, segListAt], fun x hx => hx.resolve_right (by simp),
      by simp⟩
  obtain ⟨w, hrun, -⟩ := recallLoop_spec (fun _ => False) (segs.length + appends env + 1) _
    ⟨[], none, segs, destroying, []⟩ env
    (Nat.lt_succ_self _) (by simp [Walk.list]) (fun _ _ _ h => h.elim) (fun _ h => h.elim)
  refine ⟨w, hrun, fun j x hj => ?_⟩
  obtain ⟨hl, hnd⟩ := (recallLoop_sound _ _ w h0 (by simpa using hrun)).calls j x hj
  simp only [Destroyed, not_or, not_exists, not_and, Bool.not_eq_true] at hnd
  exact ⟨hl, hnd.1, hnd.2⟩

/-- While segment 0 is recalled, segment 2 is appended and segment 1 deleted:
the walk recalls 0, then 2, which is on `seg_list` at that call. -/
theorem recall_walk_calls_only_listed_segments_appended :
    (([0, 1] : List ℕ) ++ ([[.append 2, .remove 1]] : List (List (Change ℕ))).flatten.filterMap
      Change.appendOf).Nodup ∧
      ∃ w, xpmemRecallPFNsOfTg [0, 1] (fun _ => false) [[.append 2, .remove 1]] = some w ∧
        w.recalled = [0, 2] ∧ 2 ∈ segListAt [0, 1] [[.append 2, .remove 1]] 1 := by
  obtain ⟨w, hw, hcalls⟩ := recall_walk_calls_only_listed_segments [0, 1] (fun _ => false)
    [[.append 2, .remove 1]] (by decide)
  have hrec : (xpmemRecallPFNsOfTg [0, 1] (fun _ => false) [[.append 2, .remove 1]]).map Walk.recalled =
      some [0, 2] := by
    rfl
  rw [hw, Option.map_some', Option.some.injEq] at hrec
  exact ⟨by decide, w, hw, hrec, (hcalls 1 2 (by rw [hrec]; rfl)).1⟩

end XpmemPfn.RecallWalk
