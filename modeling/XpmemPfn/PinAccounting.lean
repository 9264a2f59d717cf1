import XpmemPfn.PinPages
import XpmemPfn.RemapPages
import XpmemPfn.UnpinPages

/-!
# Pin accounting over whole runs

`xpmem_pin_pages` takes a reference on each page it pins and adds their
number to `tg->n_pinned`. `xpmem_remap_pages` hands one pinned batch to the
importer's page table: `remap_func` installs a special PTE in each empty slot
it reaches and releases the page of a filled one, and the loop after the walk
releases every page the walk did not reach. Clearing an attachment range runs
`xpmem_unpin_pages`, which releases the page of every PTE in the range, and
then removes those PTEs. The three interleave in any order.

The state holds one thread group's counters, its pinned batches not yet
remapped, the importer PTEs at the page addresses of its attachments, and
ghost logs of the frames referenced and released. The pin, remap and unpin
steps are `xpmemEnsureValidPFN`, `xpmemRemapPages` and `xpmemUnpinPages`
themselves. In every reachable
state `n_pinned` is the number of in-flight pins plus the number of
installed PTEs, and every frame's references are its puts, its in-flight
pins and its installed PTEs.
-/

namespace XpmemPfn.PinAccounting

open RemapPages UnpinPages

/-- The importer page addresses of the thread group's attachments: page
aligned, each listed once. -/
structure Slots (g : Geometry) where
  addrs : List ℕ
  nodup : addrs.Nodup
  aligned : ∀ a ∈ addrs, a % g.pageSize = 0

/-- One thread group's pins and the importer PTEs of its attachments. -/
structure State where
  /-- Page arrays filled by `xpmem_pin_pages` and not yet passed to
  `xpmem_remap_pages`, each page as its frame. -/
  inflight : List (List ℕ)
  /-- The importer PTEs, by address. -/
  ptes : ℕ → Pte
  /-- `tg->n_pinned`. -/
  nPinned : ℤ
  /-- `xpmem_my_part->n_pinned`. -/
  partPinned : ℤ
  /-- `xpmem_my_part->n_unpinned`. -/
  partUnpinned : ℤ
  /-- Ghost: the frame of every reference `get_user_pages` took. -/
  refs : List ℕ
  /-- Ghost: the frame of every `put_page`. -/
  puts : List ℕ

/-- The importer page table as `xpmem_vaddr_to_pte_size` walks it: every
directory allocated, and the PTE of page `j` present when its slot holds a
frame. -/
def tableOf (g : Geometry) (ptes : ℕ → Pte) : PageTable :=
  ⟨fun l j => match l with
    | .pte => (ptes (j * g.pageSize)).pfn != 0
    | _ => true,
   fun j => (ptes (j * g.pageSize)).pfn⟩

/-- The removal of the PTEs at the addresses `pages`. -/
def zap (pages : List ℕ) (ptes : ℕ → Pte) : ℕ → Pte :=
  fun a => if a ∈ pages then ⟨0, false⟩ else ptes a

/-- The moves of a run. -/
inductive Action where
  /-- `xpmem_ensure_valid_PFN` on a segment, `destroying` or not, over the
  source `src`; `get_user_pages` took one reference on each page it filled. -/
  | pin (destroying : Bool) (src : PinPages.Src) (vaddr count : ℕ)
  /-- `xpmem_remap_pages` on the in-flight batch `pages`, with
  `nr_pages = pages.length`, when `apply_to_page_range` reaches `k` slots. -/
  | remap (pages : List ℕ) (vaddr start k : ℕ)
  /-- The clear of `[vaddr, vaddr + size)`: `xpmem_unpin_pages`, then the
  removal of the range's PTEs. -/
  | clear (vaddr size : ℕ)

variable {g : Geometry} (slots : Slots g)

/-- One move; `none` when it is not enabled. A pin needs nonzero frames,
since `remap_func` takes frame 0 for an empty slot; a remap reaches only
slots of the attachments; a cleared range lies in the `u64` address space. -/
def step (s : State) : Action → Option State
  | .pin destroying src vaddr count =>
    let r := PinPages.xpmemEnsureValidPFN g destroying src ⟨s.nPinned, s.partPinned⟩ vaddr count
    if ∀ f ∈ r.pages, 0 < f then
      some { s with inflight := s.inflight ++ [r.pages], refs := s.refs ++ r.pages,
                    nPinned := r.counters.tgPinned, partPinned := r.counters.partPinned }
    else none
  | .remap pages vaddr start k =>
    if pages ∈ s.inflight ∧ k ≤ pages.length ∧ ∀ j < k, start + j * g.pageSize ∈ slots.addrs then
      match xpmemRemapPages g ⟨s.ptes, s.nPinned, s.partUnpinned, []⟩ vaddr start pages k with
      | some (m, _) =>
        some { s with inflight := s.inflight.erase pages, ptes := m.ptes, nPinned := m.nPinned,
                      partUnpinned := m.nUnpinned, puts := s.puts ++ m.puts.map (pages.getD · 0) }
      | none => none
    else none
  | .clear vaddr size =>
    if vaddr < 2 ^ 64 ∧ vaddr % g.pageSize + size + (g.pageSize - 1) < 2 ^ 64 then
      match xpmemUnpinPages g (tableOf g s.ptes) ⟨s.nPinned, s.partUnpinned⟩ vaddr size with
      | some (c, put) =>
        some { s with ptes := zap (touched g vaddr size) s.ptes, nPinned := c.nPinned,
                      partUnpinned := c.nUnpinned,
                      puts := s.puts ++ put.map fun a => (tableOf g s.ptes).pfn (a / g.pageSize) }
      | none => none
    else none

/-- Nothing pinned, every slot empty. -/
def State.init : State := ⟨[], fun _ => ⟨0, false⟩, 0, 0, 0, [], []⟩

/-- The states reachable from a fresh thread group. -/
inductive Reachable : State → Prop
  | init : Reachable State.init
  | step {s s' : State} (a : Action) : Reachable s → step slots s a = some s' → Reachable s'

/-- The moves `as` one after another; `none` when one is not enabled. -/
def run (s : State) : List Action → Option State
  | [] => some s
  | a :: as => (step slots s a).bind fun s' => run s' as

theorem run_reachable {s s' : State} (h : Reachable slots s) :
    ∀ {as : List Action}, run slots s as = some s' → Reachable slots s'
  | [], hr => Option.some.inj hr ▸ h
  | a :: as, hr => by
    obtain ⟨s1, h1, hr⟩ := Option.bind_eq_some.mp hr
    exact run_reachable (.step a h h1) hr

/-- The installed PTEs among the attachments' slots whose frame satisfies `p`. -/
def installed (ptes : ℕ → Pte) (p : ℕ → Bool) : ℕ := slots.addrs.countP fun a => p (ptes a).pfn

section Count

/-- Counting over a duplicate-free list, split at a duplicate-free part of it. -/
theorem countP_split {l V : List ℕ} (hl : l.Nodup) (hV : V.Nodup) (hsub : ∀ a ∈ V, a ∈ l)
    (q : ℕ → Bool) : l.countP q = V.countP q + (l.filter fun a => a ∉ V).countP q := by
  have hperm : (l.filter fun a => a ∈ V).Perm V :=
    (List.perm_ext_iff_of_nodup (hl.filter _) hV).mpr fun a => by
      simp only [List.mem_filter, decide_eq_true_eq]; exact ⟨And.right, fun h => ⟨hsub a h, h⟩⟩
  rw [List.countP_eq_countP_filter_add l q (fun a => a ∈ V), hperm.countP_eq]
  simp only [decide_not]

/-- Contents that change only on a part `V` of `l` change the count over `l`
as they change it over `V`. -/
theorem countP_change {l V : List ℕ} (hl : l.Nodup) (hV : V.Nodup) (hsub : ∀ a ∈ V, a ∈ l)
    {q q' : ℕ → Bool} (h : ∀ a ∈ l, a ∉ V → q a = q' a) :
    l.countP q' + V.countP q = l.countP q + V.countP q' := by
  have hrest : (l.filter fun a => a ∉ V).countP q' = (l.filter fun a => a ∉ V).countP q :=
    List.countP_congr fun a ha => by
      obtain ⟨hal, hav⟩ := List.mem_filter.mp ha
      rw [h a hal (by simpa using hav)]
  rw [countP_split hl hV hsub q, countP_split hl hV hsub q', hrest]
  omega

/-- A list is its entries read by index. -/
theorem map_getD_range (l : List ℕ) : (List.range l.length).map (l.getD · 0) = l :=
  List.ext_getElem (by simp) fun i h₁ h₂ => by simp [List.getD_eq_getElem?_getD, h₂]

end Count

section Remap

variable {ptes : ℕ → Pte} {n u : ℤ} {vaddr start k : ℕ} {pages : List ℕ}

/-- What `xpmem_remap_pages` leaves: the PTEs of the walk over `k` slots, the
pages it released, and both counters moved by their number. -/
theorem remap_result (hk : k ≤ pages.length) {m : Mem} {r : ℕ}
    (h : xpmemRemapPages g ⟨ptes, n, u, []⟩ vaddr start pages k = some (m, r)) :
    ∃ c mv, Visited g ⟨ptes, n, u, []⟩ vaddr start pages k c mv ∧ m.ptes = mv.ptes ∧
      m.puts = released g ⟨ptes, n, u, []⟩ start pages k ∧
      m.nPinned = n - m.puts.length ∧ m.nUnpinned = u + m.puts.length := by
  obtain ⟨c, mv, hv, hrun⟩ := xpmemRemapPages_visited g ⟨ptes, n, u, []⟩ vaddr start pages hk
  rw [hrun, Option.some.injEq, Prod.mk.injEq] at h
  obtain ⟨rfl, -⟩ := h
  refine ⟨c, mv, hv, rfl, by simp [hv.puts_eq, released], ?_, ?_⟩ <;>
    simp only [hv.puts_eq, hv.nPinned_eq, hv.nUnpinned_eq, List.nil_append, List.length_append,
      List.length_range'] <;>
    push_cast <;> omega

/-- Every page a remap releases is a page of its batch. -/
theorem getD_mem_of_mem_released {m₀ : Mem} {j : ℕ} (hj : j ∈ released g m₀ start pages k)
    (hk : k ≤ pages.length) : pages.getD j 0 ∈ pages := by
  have := ((mem_released g m₀ start pages hk j).mp hj).1
  rw [List.getD_eq_getElem?_getD, List.getElem?_eq_getElem this]
  exact List.getElem_mem this

/-- A remap moves into the slots it reaches, as installed PTEs, exactly the
pages of its batch it does not release: for every property `p` of frames
that frame 0 lacks, the installed PTEs and released pages with `p` after the
remap are those installed before and the batch's pages with `p`. -/
theorem remap_installed (hk : k ≤ pages.length) (hV : ∀ j < k, start + j * g.pageSize ∈ slots.addrs)
    {c : RemapContext} {mv : Mem} (hv : Visited g ⟨ptes, n, u, []⟩ vaddr start pages k c mv)
    (p : ℕ → Bool) (hp : p 0 = false) :
    installed slots mv.ptes p +
        ((released g ⟨ptes, n, u, []⟩ start pages k).map (pages.getD · 0)).countP p =
      installed slots ptes p + pages.countP p := by
  set m₀ : Mem := ⟨ptes, n, u, []⟩
  set F := filled g m₀ start
  set pg := fun j => p (pages.getD j 0)
  set old := fun j => p (oldSlot g m₀ start j).pfn
  -- the slots the walk reached, each once and all among the attachments'
  have hVnd : ((List.range k).map (slotAddr g start)).Nodup :=
    (List.nodup_range k).map fun _ _ h => slotAddr_inj g start h
  have hVsub : ∀ a ∈ (List.range k).map (slotAddr g start), a ∈ slots.addrs := by
    simp only [List.mem_map, List.mem_range]; rintro _ ⟨j, hj, rfl⟩; exact hV j hj
  have hchg : installed slots mv.ptes p +
        ((List.range k).map (slotAddr g start)).countP (fun a => p (ptes a).pfn) =
      installed slots ptes p +
        ((List.range k).map (slotAddr g start)).countP (fun a => p (mv.ptes a).pfn) :=
    countP_change slots.nodup hVnd hVsub fun a _ ha => by
      show p (ptes a).pfn = p (mv.ptes a).pfn
      rw [hv.other a fun i hi he => ha (he ▸ List.mem_map_of_mem _ (List.mem_range.mpr hi))]
  simp only [List.countP_map] at hchg
  -- a reached slot keeps a filled entry and takes the page of an empty one
  have hnew : (List.range k).countP ((fun a => p (mv.ptes a).pfn) ∘ slotAddr g start) =
      ((List.range k).filter F).countP old + ((List.range k).filter (fun j => !F j)).countP pg := by
    rw [List.countP_eq_countP_filter_add _ _ F]
    congr 1 <;> refine List.countP_congr fun j hj => ?_ <;>
      obtain ⟨hj, hf⟩ := List.mem_filter.mp hj <;>
      simp only [Function.comp, hv.visited j (List.mem_range.mp hj)] <;>
      simp_all [F, filled, old, pg]
  have hold : (List.range k).countP ((fun a => p (ptes a).pfn) ∘ slotAddr g start) =
      ((List.range k).filter F).countP old := by
    have hempty : ((List.range k).filter (fun j => !F j)).countP
        ((fun a => p (ptes a).pfn) ∘ slotAddr g start) = 0 :=
      List.countP_eq_zero.mpr fun j hj => by simp_all [F, filled, oldSlot, m₀]
    rw [List.countP_eq_countP_filter_add _ _ F, hempty, Nat.add_zero]
    rfl
  -- the batch read by index, split at the walk's end
  have hpages : pages.countP p = ((List.range k).filter F).countP pg +
      ((List.range k).filter (fun j => !F j)).countP pg + (List.range' k (pages.length - k)).countP pg := by
    have hsplit : List.range pages.length = List.range k ++ List.range' k (pages.length - k) := by
      rw [List.range'_eq_map_range, ← List.range_add, Nat.add_sub_cancel' hk]
    conv_lhs => rw [← map_getD_range pages]
    rw [List.countP_map, hsplit, List.countP_append, List.countP_eq_countP_filter_add (List.range k) _ F]
    rfl
  have hrel : ((released g m₀ start pages k).map (pages.getD · 0)).countP p =
      ((List.range k).filter F).countP pg + (List.range' k (pages.length - k)).countP pg := by
    simp only [released, List.map_append, List.countP_append, List.countP_map]; rfl
  omega

end Remap

section Clear

variable {ptes : ℕ → Pte} {a : ℕ}

/-- At a page-aligned address `tableOf` maps the address exactly when its
slot holds a frame. -/
theorem tableOf_mapped (ha : a % g.pageSize = 0) : (tableOf g ptes).mapped g a = ((ptes a).pfn != 0) := by
  simp [PageTable.mapped, PageTable.present, tableOf, Nat.div_mul_cancel (Nat.dvd_of_mod_eq_zero ha)]

/-- At a page-aligned address `pte_pfn` reads the slot's frame. -/
theorem tableOf_pfn (ha : a % g.pageSize = 0) : (tableOf g ptes).pfn (a / g.pageSize) = (ptes a).pfn := by
  simp [tableOf, Nat.div_mul_cancel (Nat.dvd_of_mod_eq_zero ha)]

/-- A clear releases the frame of every installed PTE in its range and
removes it: for every property `p` of frames that frame 0 lacks, the
installed PTEs with `p` after the clear and the released frames with `p` are
those installed before. -/
theorem clear_installed (hout : ∀ a, a ∉ slots.addrs → (ptes a).pfn = 0) {Z : List ℕ} (hZ : Z.Nodup)
    (hZa : ∀ a ∈ Z, a % g.pageSize = 0) (p : ℕ → Bool) (hp : p 0 = false) :
    installed slots (zap Z ptes) p +
        ((Z.filter ((tableOf g ptes).mapped g)).map fun a => (tableOf g ptes).pfn (a / g.pageSize)).countP p =
      installed slots ptes p := by
  set V := slots.addrs.filter (· ∈ Z)
  have hVsub : ∀ a ∈ V, a ∈ slots.addrs := fun a ha => (List.mem_filter.mp ha).1
  have hchg : installed slots (zap Z ptes) p + V.countP (fun a => p (ptes a).pfn) =
      installed slots ptes p + V.countP (fun a => p (zap Z ptes a).pfn) :=
    countP_change slots.nodup (slots.nodup.filter _) hVsub fun a ha hav => by
      have : a ∉ Z := fun h => hav (List.mem_filter.mpr ⟨ha, by simpa using h⟩)
      simp [zap, this]
  -- the removed PTEs hold no frame
  have hzero : V.countP (fun a => p (zap Z ptes a).pfn) = 0 :=
    List.countP_eq_zero.mpr fun a ha => by simp [zap, (by simpa using (List.mem_filter.mp ha).2 : a ∈ Z), hp]
  -- the released frames are those of the range's slots among the attachments'
  have hrel : ((Z.filter ((tableOf g ptes).mapped g)).map
        fun a => (tableOf g ptes).pfn (a / g.pageSize)).countP p = V.countP fun a => p (ptes a).pfn := by
    have hperm : (Z.filter (· ∈ slots.addrs)).Perm V :=
      (List.perm_ext_iff_of_nodup (hZ.filter _) (slots.nodup.filter _)).mpr fun a => by
        simp only [V, List.mem_filter, decide_eq_true_eq]; exact And.comm
    have hout' : (Z.filter fun a => !decide (a ∈ slots.addrs)).countP (fun a => p (ptes a).pfn) = 0 :=
      List.countP_eq_zero.mpr fun a ha => by
        simp [hout a (by simpa using (List.mem_filter.mp ha).2), hp]
    rw [List.countP_map, List.countP_filter, ← hperm.countP_eq, ← Nat.add_zero (List.countP _ (List.filter _ Z)),
      ← hout', ← List.countP_eq_countP_filter_add]
    refine List.countP_congr fun a ha => ?_
    have hal := hZa a ha
    simp only [Function.comp, tableOf_pfn hal, tableOf_mapped hal, Bool.and_eq_true, bne_iff_ne, ne_eq]
    exact ⟨And.left, fun h => ⟨h, fun h0 => by simp [h0, hp] at h⟩⟩
  omega

end Clear

section Step

variable {s s' : State}

/-- A pin adds the batch it filled to the in-flight ones and to the
references, and both counters by its length. -/
theorem step_pin {destroying : Bool} {src : PinPages.Src} {vaddr count : ℕ}
    (h : step slots s (.pin destroying src vaddr count) = some s') :
    ∃ frames : List ℕ, (∀ f ∈ frames, 0 < f) ∧
      s' = { s with inflight := s.inflight ++ [frames], refs := s.refs ++ frames,
                    nPinned := s.nPinned + frames.length, partPinned := s.partPinned + frames.length } := by
  simp only [step] at h
  split_ifs at h with hf
  refine ⟨_, hf, (Option.some.inj h).symm.trans ?_⟩
  rw [PinPages.xpmemEnsureValidPFN_counters]
  rfl

theorem step_remap {pages : List ℕ} {vaddr start k : ℕ}
    (h : step slots s (.remap pages vaddr start k) = some s') :
    pages ∈ s.inflight ∧ k ≤ pages.length ∧ (∀ j < k, start + j * g.pageSize ∈ slots.addrs) ∧
      ∃ m r, xpmemRemapPages g ⟨s.ptes, s.nPinned, s.partUnpinned, []⟩ vaddr start pages k =
          some (m, r) ∧
        s' = { s with inflight := s.inflight.erase pages, ptes := m.ptes, nPinned := m.nPinned,
                      partUnpinned := m.nUnpinned, puts := s.puts ++ m.puts.map (pages.getD · 0) } := by
  simp only [step] at h
  split_ifs at h with hg
  split at h
  · rename_i m r hm
    exact ⟨hg.1, hg.2.1, hg.2.2, m, r, hm, (Option.some.inj h).symm⟩
  · cases h

theorem step_clear {vaddr size : ℕ} (h : step slots s (.clear vaddr size) = some s') :
    vaddr < 2 ^ 64 ∧ vaddr % g.pageSize + size + (g.pageSize - 1) < 2 ^ 64 ∧
      s' = { s with
        ptes := zap (touched g vaddr size) s.ptes
        nPinned := s.nPinned - ((touched g vaddr size).filter ((tableOf g s.ptes).mapped g)).length
        partUnpinned := s.partUnpinned + ((touched g vaddr size).filter ((tableOf g s.ptes).mapped g)).length
        puts := s.puts ++ ((touched g vaddr size).filter ((tableOf g s.ptes).mapped g)).map
          fun a => (tableOf g s.ptes).pfn (a / g.pageSize) } := by
  simp only [step] at h
  split_ifs at h with hg
  rw [xpmemUnpinPages_eq g _ _ hg.1] at h
  exact ⟨hg.1, hg.2, (Option.some.inj h).symm⟩

end Step

/-- What every reachable state keeps. -/
structure Inv (s : State) : Prop where
  /-- Only the attachments' slots hold frames. -/
  outside : ∀ a, a ∉ slots.addrs → (s.ptes a).pfn = 0
  /-- A slot that holds a frame holds a special PTE. -/
  special : ∀ a, (s.ptes a).special = ((s.ptes a).pfn != 0)
  inflight_pos : ∀ f ∈ s.inflight.flatten, 0 < f
  refs_pos : ∀ f ∈ s.refs, 0 < f
  puts_pos : ∀ f ∈ s.puts, 0 < f
  /-- `tg->n_pinned` follows every reference taken and put. -/
  nPinned_eq : s.nPinned = s.refs.length - s.puts.length
  part_eq : s.partPinned - s.partUnpinned = s.nPinned
  /-- Every reference is put, in flight or installed, counted by any
  property of frames that frame 0 lacks. -/
  conserved : ∀ p : ℕ → Bool, p 0 = false →
    s.refs.countP p = s.puts.countP p + s.inflight.flatten.countP p + installed slots s.ptes p

theorem inv_init : Inv slots State.init where
  outside _ _ := rfl
  special _ := rfl
  inflight_pos := by simp [State.init]
  refs_pos := by simp [State.init]
  puts_pos := by simp [State.init]
  nPinned_eq := rfl
  part_eq := rfl
  conserved p hp := by simp [State.init, installed, hp]

section Preserve

variable {slots} {s s' : State} (hi : Inv slots s)
include hi

theorem Inv.pin {destroying : Bool} {src : PinPages.Src} {vaddr count : ℕ}
    (h : step slots s (.pin destroying src vaddr count) = some s') : Inv slots s' := by
  obtain ⟨frames, hf, rfl⟩ := step_pin slots h
  refine ⟨hi.outside, hi.special, fun f hf' => ?_, fun f hf' => ?_, hi.puts_pos, ?_, ?_, fun p hp => ?_⟩
  · simp only [List.flatten_append, List.flatten_singleton, List.mem_append] at hf'
    exact hf'.elim (hi.inflight_pos f) (hf f)
  · exact (List.mem_append.mp hf').elim (hi.refs_pos f) (hf f)
  · simp only [hi.nPinned_eq, List.length_append]; push_cast; omega
  · have := hi.part_eq; dsimp only; omega
  · simp only [List.countP_append, List.flatten_append, List.flatten_singleton, hi.conserved p hp]
    omega

theorem Inv.remap {pages : List ℕ} {vaddr start k : ℕ}
    (h : step slots s (.remap pages vaddr start k) = some s') : Inv slots s' := by
  obtain ⟨hin, hk, hV, m, r, hm, rfl⟩ := step_remap slots h
  obtain ⟨c, mv, hv, hptes, hputs, hn, hu⟩ := remap_result hk hm
  have hpos : ∀ f ∈ pages, 0 < f := fun f hf => hi.inflight_pos f (List.mem_flatten.mpr ⟨pages, hin, hf⟩)
  -- the slots the walk reached are the attachments'; the others keep their entries
  have hother : ∀ a, (∀ j < k, a ≠ slotAddr g start j) → mv.ptes a = s.ptes a := hv.other
  refine ⟨fun a ha => ?_, fun a => ?_, fun f hf => ?_, hi.refs_pos, fun f hf => ?_, ?_, ?_, fun p hp => ?_⟩
  · dsimp only; rw [hptes, hother a fun j hj he => ha (he ▸ hV j hj)]; exact hi.outside a ha
  · dsimp only; rw [hptes]
    by_cases hvis : ∃ j < k, a = slotAddr g start j
    · obtain ⟨j, hj, rfl⟩ := hvis
      rw [hv.visited j hj]
      split_ifs
      · have : 0 < pages.getD j 0 := hpos _ (by
          rw [List.getD_eq_getElem?_getD, List.getElem?_eq_getElem (by omega)]; exact List.getElem_mem _)
        exact (bne_iff_ne.mpr (Nat.pos_iff_ne_zero.mp this)).symm
      · exact hi.special _
    · push_neg at hvis
      rw [hother a fun j hj he => hvis j hj he]; exact hi.special a
  · obtain ⟨b, hb, hfb⟩ := List.mem_flatten.mp hf
    exact hi.inflight_pos f (List.mem_flatten.mpr ⟨b, List.mem_of_mem_erase hb, hfb⟩)
  · rcases List.mem_append.mp hf with hf | hf
    · exact hi.puts_pos f hf
    · obtain ⟨j, hj, rfl⟩ := List.mem_map.mp hf
      exact hpos _ (getD_mem_of_mem_released (hputs ▸ hj) hk)
  · simp only [hn, hi.nPinned_eq, List.length_append, List.length_map]; push_cast; omega
  · have := hi.part_eq; simp only [hn, hu]; omega
  · have hflat : s.inflight.flatten.countP p =
        pages.countP p + (s.inflight.erase pages).flatten.countP p := by
      obtain ⟨l₁, l₂, -, hl, he⟩ := List.exists_erase_eq hin
      rw [he, hl]
      simp only [List.flatten_append, List.flatten_cons, List.countP_append]
      omega
    have hinst := remap_installed slots hk hV hv p hp
    rw [← hputs, ← hptes] at hinst
    simp only [List.countP_append, hi.conserved p hp, hflat]
    omega

theorem Inv.clear {vaddr size : ℕ} (h : step slots s (.clear vaddr size) = some s') : Inv slots s' := by
  obtain ⟨hv, hs, rfl⟩ := step_clear slots h
  have hal : ∀ a ∈ touched g vaddr size, a % g.pageSize = 0 := fun a => mem_touched_aligned g
  refine ⟨fun a ha => ?_, fun a => ?_, hi.inflight_pos, hi.refs_pos, fun f hf => ?_, ?_, ?_, fun p hp => ?_⟩
  · dsimp only [zap]; split_ifs
    · rfl
    · exact hi.outside a ha
  · dsimp only [zap]; split_ifs
    · rfl
    · exact hi.special a
  · rcases List.mem_append.mp hf with hf | hf
    · exact hi.puts_pos f hf
    · obtain ⟨a, ha, rfl⟩ := List.mem_map.mp hf
      obtain ⟨haZ, hmap⟩ := List.mem_filter.mp ha
      rw [tableOf_mapped (hal a haZ)] at hmap
      rw [tableOf_pfn (hal a haZ)]
      exact Nat.pos_of_ne_zero (by simpa using hmap)
  · simp only [hi.nPinned_eq, List.length_append, List.length_map]; push_cast; omega
  · have := hi.part_eq; dsimp only; omega
  · have hinst := clear_installed slots hi.outside (touched_nodup g hs) hal p hp
    simp only [List.countP_append, hi.conserved p hp]
    omega

end Preserve

theorem inv_step {s s' : State} {a : Action} (hi : Inv slots s) (h : step slots s a = some s') :
    Inv slots s' := by
  cases a with
  | pin destroying src vaddr count => exact hi.pin h
  | remap pages vaddr start k => exact hi.remap h
  | clear vaddr size => exact hi.clear h

theorem inv_reachable {s : State} (h : Reachable slots s) : Inv slots s := by
  induction h with
  | init => exact inv_init slots
  | step a _ hs ih => exact inv_step slots ih hs

section Counts

variable {slots} {s : State} (hi : Inv slots s)
include hi

/-- `tg->n_pinned` is the in-flight pins plus the installed PTEs. -/
theorem Inv.nPinned_eq_installed :
    s.nPinned = (s.inflight.flatten.length + installed slots s.ptes (· != 0) : ℕ) := by
  have hall : ∀ l : List ℕ, (∀ f ∈ l, 0 < f) → l.countP (· != 0) = l.length := fun l hl =>
    List.countP_eq_length.mpr fun f hf => by simpa using Nat.pos_iff_ne_zero.mp (hl f hf)
  have hc := hi.conserved (· != 0) rfl
  rw [hall _ hi.refs_pos, hall _ hi.puts_pos, hall _ hi.inflight_pos] at hc
  rw [hi.nPinned_eq]; omega

/-- With no PTE installed, `n_pinned` counts the in-flight pins, and every
frame's references not yet put are its in-flight pins. -/
theorem Inv.drained (h0 : ∀ a, (s.ptes a).pfn = 0) :
    s.nPinned = s.inflight.flatten.length ∧
      ∀ f, 0 < f → (s.refs.count f : ℤ) - s.puts.count f = s.inflight.flatten.count f := by
  have hnone : ∀ p : ℕ → Bool, p 0 = false → installed slots s.ptes p = 0 := fun p hp =>
    List.countP_eq_zero.mpr fun a _ => by simp [h0 a, hp]
  refine ⟨by rw [hi.nPinned_eq_installed, hnone _ rfl]; rfl, fun f hf => ?_⟩
  have hp : (0 == f) = false := by simpa using Nat.pos_iff_ne_zero.mp hf |>.symm
  have hc := hi.conserved (· == f) hp
  rw [hnone _ hp] at hc
  simp only [List.count_eq_countP]; omega

end Counts

/-- In every reachable state `tg->n_pinned` is the number of in-flight pins
plus the number of installed PTEs; for every frame, the references taken on
it minus the puts on it are its in-flight pins plus its installed PTEs; every
PTE that holds a frame is a special PTE in an attachment's slot; and the
partition's counters differ by `tg->n_pinned`. -/
theorem pin_accounting_conserved {s : State} (h : Reachable slots s) :
    s.nPinned = (s.inflight.flatten.length + installed slots s.ptes (· != 0) : ℕ) ∧
    (∀ f, 0 < f → (s.refs.count f : ℤ) - s.puts.count f =
      (s.inflight.flatten.count f + installed slots s.ptes (· == f) : ℕ)) ∧
    (∀ a, (s.ptes a).pfn ≠ 0 → a ∈ slots.addrs ∧ (s.ptes a).special = true) ∧
    s.partPinned - s.partUnpinned = s.nPinned := by
  have hi := inv_reachable slots h
  refine ⟨hi.nPinned_eq_installed, fun f hf => ?_, fun a ha => ⟨?_, ?_⟩, hi.part_eq⟩
  · have hc := hi.conserved (· == f) (by simpa using Nat.pos_iff_ne_zero.mp hf |>.symm)
    simp only [List.count_eq_countP]; omega
  · by_contra hn; exact ha (hi.outside a hn)
  · rw [hi.special a]; simpa using ha

/-- One attachment page at `0x1000` on x86-64. -/
def onePage : Slots Geometry.x86_64 := ⟨[0x1000], List.nodup_singleton _, by decide⟩

/-- A fault pins frames 5 and 6 and reaches the one slot, installing 5 and
releasing 6; a second fault pins frame 5 again and is still in flight. -/
def faultTwice : List Action :=
  [.pin false PinPages.oneVma 0x1000 2, .remap [5, 6] 0x1000 0x1000 1, .pin false PinPages.oneVma 0x1000 1]

/-- After those faults two pins are held, one installed and one in flight. -/
theorem pin_accounting_conserved_two_faults :
    ∃ s, run onePage State.init faultTwice = some s ∧ Reachable onePage s ∧ s.nPinned = 2 ∧
      s.nPinned = (s.inflight.flatten.length + installed onePage s.ptes (· != 0) : ℕ) ∧
      (∀ f, 0 < f → (s.refs.count f : ℤ) - s.puts.count f =
        (s.inflight.flatten.count f + installed onePage s.ptes (· == f) : ℕ)) ∧
      (∀ a, (s.ptes a).pfn ≠ 0 → a ∈ onePage.addrs ∧ (s.ptes a).special = true) ∧
      s.partPinned - s.partUnpinned = s.nPinned := by
  obtain ⟨s, hs, hv⟩ := Option.map_eq_some'.mp
    (show (run onePage State.init faultTwice).map State.nPinned = some 2 by decide)
  have hr := run_reachable onePage .init hs
  exact ⟨s, hs, hr, hv, pin_accounting_conserved onePage hr⟩

/-! ## The partition's counters -/

/-- The partition's counters moved by `dp` and `du`, as other thread groups'
calls move them. -/
def State.addPart (s : State) (dp du : ℤ) : State :=
  { s with partPinned := s.partPinned + dp, partUnpinned := s.partUnpinned + du }

@[simp] theorem State.addPart_addPart (s : State) (a b c d : ℤ) :
    (s.addPart a b).addPart c d = s.addPart (a + c) (b + d) := by
  simp only [State.addPart, State.mk.injEq, true_and, and_true]
  omega

@[simp] theorem State.addPart_zero (s : State) : s.addPart 0 0 = s := by
  simp [State.addPart]

/-- A move reads the partition's counters only to add to them: from other
values it ends moved by as much, with everything else the same. -/
theorem step_addPart (s : State) (dp du : ℤ) (a : Action) :
    step slots (s.addPart dp du) a = (step slots s a).map (·.addPart dp du) := by
  cases a with
  | pin destroying src vaddr count =>
    have hp := PinPages.xpmemEnsureValidPFN_pages g src ⟨s.nPinned, s.partPinned⟩ vaddr count destroying
      ⟨s.nPinned, s.partPinned + dp⟩
    have hc := PinPages.xpmemEnsureValidPFN_counters g src ⟨s.nPinned, s.partPinned⟩ vaddr count destroying
    have hc' := PinPages.xpmemEnsureValidPFN_counters g src ⟨s.nPinned, s.partPinned + dp⟩ vaddr count destroying
    simp only [step, State.addPart, ← hp, hc, hc']
    split_ifs
    · simp only [Option.map_some', PinPages.Counters.add, Option.some.injEq, State.mk.injEq, true_and,
        and_true]
      omega
    · rfl
  | remap pages vaddr start k =>
    simp only [step, State.addPart]
    split_ifs
    · rw [show (⟨s.ptes, s.nPinned, s.partUnpinned + du, []⟩ : Mem) =
          (⟨s.ptes, s.nPinned, s.partUnpinned, []⟩ : Mem).addUnpinned du from rfl,
        xpmemRemapPages_addUnpinned]
      cases xpmemRemapPages g ⟨s.ptes, s.nPinned, s.partUnpinned, []⟩ vaddr start pages k with
      | none => rfl
      | some r => rfl
    · rfl
  | clear vaddr size =>
    simp only [step, State.addPart]
    split_ifs with hg
    · simp only [xpmemUnpinPages_eq g _ _ hg.1, Option.map_some', Option.some.injEq, State.mk.injEq,
        true_and, and_true]
      omega
    · rfl

/-! ## Clearing every attachment -/

/-- The clears `cl` remove every PTE in their ranges and leave the in-flight
batches alone; a removed PTE stays removed. -/
theorem run_clears {s s' : State} :
    ∀ {cl : List (ℕ × ℕ)}, run slots s (cl.map fun r => .clear r.1 r.2) = some s' →
      s'.inflight = s.inflight ∧
        ∀ a, (s.ptes a).pfn = 0 ∨ (∃ r ∈ cl, a ∈ touched g r.1 r.2) → (s'.ptes a).pfn = 0
  | [], hr => by cases Option.some.inj hr; exact ⟨rfl, fun a h => by simpa using h⟩
  | r :: cl, hr => by
    obtain ⟨s1, h1, hr⟩ := Option.bind_eq_some.mp hr
    obtain ⟨-, -, rfl⟩ := step_clear slots h1
    obtain ⟨hin, hpt⟩ := run_clears hr
    refine ⟨hin, fun a ha => hpt a ?_⟩
    simp only [List.mem_cons, exists_eq_or_imp] at ha
    rcases ha with ha | ha | ha
    · left; simp only [zap]; split_ifs <;> simp [ha]
    · left; simp [zap, ha]
    · exact .inr ha


/-- From every reachable state, clears whose ranges cover every attachment
slot, as `xpmem_clear_PTEs` runs over a segment's attachments, leave no PTE
installed: `tg->n_pinned` falls to the pins still in flight, which the
clears do not touch, and for every frame the references not yet put are
exactly its in-flight pins. -/
theorem clearing_every_slot_releases_installed {s s' : State} (h : Reachable slots s) (cl : List (ℕ × ℕ))
    (hrun : run slots s (cl.map fun r => .clear r.1 r.2) = some s')
    (hcov : ∀ a ∈ slots.addrs, ∃ r ∈ cl, a ∈ touched g r.1 r.2) :
    (∀ a, (s'.ptes a).pfn = 0) ∧ s'.inflight = s.inflight ∧ s'.nPinned = s.inflight.flatten.length ∧
      ∀ f, 0 < f → (s'.refs.count f : ℤ) - s'.puts.count f = s.inflight.flatten.count f := by
  have hi := inv_reachable slots (run_reachable slots h hrun)
  obtain ⟨hin, hpt⟩ := run_clears slots hrun
  have h0 : ∀ a, (s'.ptes a).pfn = 0 := fun a => by
    by_cases ha : a ∈ slots.addrs
    · exact hpt a (.inr (hcov a ha))
    · exact hi.outside a ha
  rw [← hin]
  exact ⟨h0, rfl, hi.drained h0⟩

/-- After the two faults, a clear of the one attachment page releases the
installed frame and leaves the pin in flight. -/
theorem clearing_every_slot_releases_installed_after_faults :
    ∃ s s', run onePage State.init faultTwice = some s ∧ run onePage s [.clear 0x1000 0x1000] = some s' ∧
      s.nPinned = 2 ∧ s'.nPinned = s.inflight.flatten.length ∧ s.inflight.flatten = [5] ∧
      (∀ a, (s'.ptes a).pfn = 0) ∧
      ∀ f, 0 < f → (s'.refs.count f : ℤ) - s'.puts.count f = s.inflight.flatten.count f := by
  obtain ⟨s, hs, hv⟩ := Option.map_eq_some'.mp (show (run onePage State.init faultTwice).map
      (fun s => (s.nPinned, s.inflight.flatten)) = some (2, [5]) by decide)
  obtain ⟨s', hs'⟩ := Option.isSome_iff_exists.mp
    (show ((run onePage State.init faultTwice).bind fun s => run onePage s [.clear 0x1000 0x1000]).isSome = true by
      decide)
  rw [hs, Option.some_bind] at hs'
  simp only [Prod.mk.injEq] at hv
  obtain ⟨h0, -, hn, hf⟩ := clearing_every_slot_releases_installed onePage (run_reachable onePage .init hs)
    [(0x1000, 0x1000)] hs' (by decide)
  exact ⟨s, s', hs, hs', hv.1, hn, hv.2, h0, hf⟩

/-! ## One fault -/

/-- Taking a batch out of the in-flight ones takes its pages out of the flattened count. -/
theorem length_flatten_erase {l : List (List ℕ)} {a : List ℕ} (ha : a ∈ l) :
    (l.erase a).flatten.length + a.length = l.flatten.length := by
  obtain ⟨l₁, l₂, -, hl, he⟩ := List.exists_erase_eq ha
  rw [he, hl]
  simp only [List.flatten_append, List.flatten_cons, List.length_append]
  omega

/-- From every reachable state, a fault that pins a batch with
`xpmem_ensure_valid_PFN` and hands that batch to `xpmem_remap_pages` changes
`tg->n_pinned` by exactly the number of PTEs that now hold a frame and did
not before: `put_page` runs on every page of the batch but those, and the
other in-flight pins are as many as before. -/
theorem fault_keeps_only_installed_pins {s s1 s2 : State} (h : Reachable slots s) {destroying : Bool}
    {src : PinPages.Src} {vaddr count fvaddr start k : ℕ}
    (h1 : step slots s (.pin destroying src vaddr count) = some s1)
    (h2 : step slots s1 (.remap (PinPages.xpmemEnsureValidPFN g destroying src ⟨s.nPinned, s.partPinned⟩
      vaddr count).pages fvaddr start k) = some s2) :
    s2.nPinned - s.nPinned = (installed slots s2.ptes (· != 0) : ℤ) - installed slots s.ptes (· != 0) ∧
      (s2.puts.length : ℤ) - s.puts.length =
        (PinPages.xpmemEnsureValidPFN g destroying src ⟨s.nPinned, s.partPinned⟩ vaddr count).pages.length -
          ((installed slots s2.ptes (· != 0) : ℤ) - installed slots s.ptes (· != 0)) ∧
      s2.inflight.flatten.length = s.inflight.flatten.length := by
  have hi := inv_reachable slots h
  have hi2 := inv_reachable slots (.step _ (.step _ h h1) h2)
  -- the pin adds its batch to the in-flight ones and to the references
  have hs1 : s1.inflight = s.inflight ++ [(PinPages.xpmemEnsureValidPFN g destroying src
      ⟨s.nPinned, s.partPinned⟩ vaddr count).pages] ∧ s1.refs = s.refs ++ (PinPages.xpmemEnsureValidPFN g
      destroying src ⟨s.nPinned, s.partPinned⟩ vaddr count).pages ∧ s1.puts = s.puts := by
    simp only [step] at h1; split_ifs at h1; cases h1; exact ⟨rfl, rfl, rfl⟩
  generalize (PinPages.xpmemEnsureValidPFN g destroying src ⟨s.nPinned, s.partPinned⟩ vaddr count).pages = B
    at hs1 h2 ⊢
  -- the remap takes it out again and keeps the references
  obtain ⟨hmem, -, -, m, r, -, rfl⟩ := step_remap slots h2
  have hflat := length_flatten_erase hmem
  have hlen : s1.inflight.flatten.length = s.inflight.flatten.length + B.length := by simp [hs1.1]
  have hn := hi.nPinned_eq_installed
  have hn2 := hi2.nPinned_eq_installed
  have hp := hi.nPinned_eq
  have hp2 := hi2.nPinned_eq
  dsimp only at hn2 hp2 ⊢
  rw [hs1.2.1, hs1.2.2] at hp2
  rw [hs1.2.2]
  simp only [List.length_append] at hp2 ⊢
  push_cast at hn hn2 hp hp2 ⊢
  exact ⟨by omega, by omega, by omega⟩

/-- A fault pins frames 5 and 6 and reaches only the one slot: frame 5 is
installed and frame 6 released. -/
theorem fault_keeps_only_installed_pins_partial :
    ∃ s1 s2, step onePage State.init (.pin false PinPages.oneVma 0x1000 2) = some s1 ∧
      step onePage s1 (.remap (PinPages.xpmemEnsureValidPFN Geometry.x86_64 false PinPages.oneVma
        ⟨State.init.nPinned, State.init.partPinned⟩ 0x1000 2).pages 0x1000 0x1000 1) = some s2 ∧
      s2.nPinned - State.init.nPinned =
        (installed onePage s2.ptes (· != 0) : ℤ) - installed onePage State.init.ptes (· != 0) ∧
      (s2.puts.length : ℤ) - State.init.puts.length =
        (PinPages.xpmemEnsureValidPFN Geometry.x86_64 false PinPages.oneVma
          ⟨State.init.nPinned, State.init.partPinned⟩ 0x1000 2).pages.length -
          ((installed onePage s2.ptes (· != 0) : ℤ) - installed onePage State.init.ptes (· != 0)) := by
  obtain ⟨s1, h1⟩ := Option.isSome_iff_exists.mp
    (show (step onePage State.init (.pin false PinPages.oneVma 0x1000 2)).isSome = true by decide)
  have h2 : (step onePage s1 (.remap (PinPages.xpmemEnsureValidPFN Geometry.x86_64 false PinPages.oneVma
      ⟨State.init.nPinned, State.init.partPinned⟩ 0x1000 2).pages 0x1000 0x1000 1)).isSome = true := by
    simp only [step] at h1; split_ifs at h1; cases h1; decide
  obtain ⟨s2, h2⟩ := Option.isSome_iff_exists.mp h2
  obtain ⟨e1, e2, -⟩ := fault_keeps_only_installed_pins onePage .init h1 h2
  exact ⟨s1, s2, h1, h2, e1, e2⟩

end XpmemPfn.PinAccounting
