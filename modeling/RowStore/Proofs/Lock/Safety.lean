import Mathlib.Algebra.Module.Submodule.Lattice
import Mathlib.Data.List.Permutation
import RowStore.Proofs.Lock.Decide

/-!
# What locks guard

Whatever transactions ask of a lock table, and in whatever order the waiting requests take their
turns, the locks on a page stand side by side, a transaction's locks are its own business, and a
page that somebody holds or waits for stays known: so whoever asks for it next has to do with all of
its holders.

A transaction that waits for a lock may give its other locks back here, all of them too. Then the
graph no longer tells whom it waits behind, and there may be deadlocks that are not found, but
nobody gets a lock that the holders do not allow. So the invariant, `LockTable.Safe`, says nothing
about the graph, nor about who is due a turn.
-/

namespace RowStore.LockTable

/-! ## Runs -/

/-- Something that is asked of a lock table. -/
inductive Operation
  /-- A transaction asks for a lock. -/
  | acquire (txn : TxnId) (page : PageId) (mode : LockMode)
  /-- A waiting request takes a turn. -/
  | turn (w : Waiter)
  /-- A transaction gives a lock back. -/
  | release (txn : TxnId) (page : PageId)
  /-- A transaction gives all its locks back. -/
  | releaseAll (txn : TxnId)

namespace Operation

/-- The transaction that asks. -/
def txn : Operation → TxnId
  | acquire txn .. => txn
  | turn w => w.txn
  | release txn _ => txn
  | releaseAll txn => txn

/-- The lock that is asked for. -/
def asks : Operation → Option (PageId × LockMode)
  | acquire _ page mode => some (page, mode)
  | turn w => some (w.page, w.mode)
  | _ => none

end Operation

/-- Performs an operation. The first part of the answer is the verdict, if one is asked for. -/
def perform (t : LockTable) : Operation → Option Verdict × LockTable
  | .acquire txn page mode => (t.acquire txn page mode).map some id
  | .turn w => (t.retry w).map some id
  | .release txn page => (none, t.release txn page)
  | .releaseAll txn => (none, t.releaseAll txn)

/-- A transaction asks for one lock at a time, and a request that takes a turn waits. -/
def Permits (t : LockTable) : Operation → Prop
  | .acquire txn .. => ¬ t.IsBlocked txn
  | .turn w => w ∈ t.waiting
  | _ => True

/-- The table after a series of operations. -/
def after : LockTable → List Operation → LockTable
  | t, [] => t
  | t, op :: ops => (t.perform op).2.after ops

/-- Every operation is permitted when it is performed. -/
def Runs : LockTable → List Operation → Prop
  | _, [] => True
  | t, op :: ops => t.Permits op ∧ (t.perform op).2.Runs ops

variable {t : LockTable} {txn x : TxnId} {page p : PageId} {mode m : LockMode} {r : LockRecord}

/-! ## Known pages -/

theorem mem_pages_of_holders (h : r ∈ t.holders page) : page ∈ t.pages := by
  rw [pages, Std.TreeMap.mem_keys, ← Std.TreeMap.isSome_getElem?_iff_mem]
  cases hg : t.granted[page]? with
  | none => simp [holders, hg] at h
  | some records => rfl

@[simp] theorem mem_pages_touch : p ∈ (t.touch page).pages ↔ p = page ∨ p ∈ t.pages := by
  simp [pages, touch, Std.TreeMap.mem_insertIfNew, eq_comm (a := p)]

@[simp] theorem mem_pages_drop : p ∈ (t.drop x page).pages ↔ p ∈ t.pages := by
  simp [pages, drop, Std.TreeMap.mem_modify]

@[simp] theorem mem_pages_granting :
    p ∈ (t.granting txn page mode).pages ↔ p = page ∨ p ∈ t.pages := by
  simp [pages, granting, grant, notify, dequeue, Std.TreeMap.mem_insert, eq_comm (a := p)]

@[simp] theorem mem_pages_approach :
    p ∈ (t.approach txn page mode).pages ↔ p = page ∨ p ∈ t.pages := by
  unfold approach
  split
  · exact mem_pages_drop.trans mem_pages_touch
  · exact mem_pages_touch

/-- A page that somebody waits for is not forgotten. -/
theorem mem_pages_releaseAll (h : p ∈ t.pages) (hw : t.Waits txn p mode) :
    p ∈ (t.releaseAll x).pages := by
  rw [pages, Std.TreeMap.mem_keys] at h ⊢
  obtain ⟨w, hw, -, hp, -⟩ := hw
  have hany : t.waiting.any (·.page = p) = true := List.any_eq_true.2 ⟨w, hw, by simpa using hp⟩
  rw [releaseAll, Std.TreeMap.mem_filterMap]
  exact ⟨h, by simp [hany]⟩

/-! ## Locks of others -/

theorem mem_holders_turn_of_ne (hr : r.txn ≠ txn) :
    r ∈ (t.turn txn page mode).2.holders p ↔ r ∈ t.holders p := by
  obtain ⟨-, he⟩ | ⟨-, -, he⟩ | ⟨-, -, he⟩ := turn_cases t txn page mode
  · have hne : r ≠ ⟨txn, mode, page⟩ := fun he => hr (congrArg LockRecord.txn he)
    rw [he, holders_granting]
    split
    · next hp => simp [hp, hne]
    · rfl
  · rw [he, holders_refusing]
  · rw [he, holders_suspending]

theorem mem_holders_acquire_of_ne (h : t.Sound) (hr : r.txn ≠ txn) :
    r ∈ (t.acquire txn page mode).2.holders p ↔ r ∈ t.holders p := by
  rw [acquire_eq]
  split
  · rw [holders_touch]
  · next hm =>
    rw [mem_holders_turn_of_ne hr, holders_approach h hm]
    split
    · next hp => simp [hp, hr]
    · rfl

theorem mem_holders_release_of_ne (hr : r.txn ≠ txn) :
    r ∈ (t.release txn page).holders p ↔ r ∈ t.holders p := by
  rw [holders_release]
  split
  · next hp => simp [hp, hr]
  · rfl

theorem mem_holders_releaseAll_of_ne (hr : r.txn ≠ txn) :
    r ∈ (t.releaseAll txn).holders p ↔ r ∈ t.holders p := by
  simp [hr]

/-! ## What holds all along a run -/

/-- The locks stand side by side, and the requests that wait are in step with them. -/
structure Safe (t : LockTable) : Prop extends t.Sound where
  /-- Nobody waits for no lock. -/
  mode_ne : ∀ {txn page mode}, t.Waits txn page mode → mode ≠ .free
  /-- Nobody waits for a page while holding it. -/
  apart : ∀ {txn page mode}, t.Waits txn page mode → ∀ r ∈ t.holders page, r.txn ≠ txn
  /-- A page that somebody waits for is known. -/
  known : ∀ {txn page mode}, t.Waits txn page mode → page ∈ t.pages

namespace Safe

theorem empty : LockTable.empty.Safe where
  toSound := .empty
  mode_ne h := absurd h not_waits_empty
  apart h := absurd h not_waits_empty
  known h := absurd h not_waits_empty

theorem touch (h : t.Safe) (page : PageId) : (t.touch page).Safe where
  toSound := h.toSound.congr fun _ => holders_touch t page _
  mode_ne := h.mode_ne
  apart hw r hr := h.apart hw r (holders_touch t page _ ▸ hr)
  known hw := mem_pages_touch.2 (.inr (h.known hw))

theorem drop (h : t.Safe) (txn : TxnId) (page : PageId) : (t.drop txn page).Safe where
  toSound := h.toSound.drop txn page
  mode_ne := h.mode_ne
  apart hw r hr := by
    rw [holders_drop] at hr
    split at hr
    · next hp => exact h.apart hw r (hp ▸ (List.mem_filter.1 hr).1)
    · exact h.apart hw r hr
  known hw := mem_pages_drop.2 (h.known hw)

theorem notify (h : t.Safe) (page : PageId) : (t.notify page).Safe where
  toSound := h.toSound.congr fun _ => rfl
  mode_ne hw := h.mode_ne (waits_notify.1 hw)
  apart hw := h.apart (waits_notify.1 hw)
  known hw := h.known (waits_notify.1 hw)

theorem approach (h : t.Safe) (txn : TxnId) (page : PageId) (mode : LockMode) :
    (t.approach txn page mode).Safe := by
  unfold LockTable.approach
  split
  · exact ((h.touch page).drop txn page).notify page
  · exact h.touch page

theorem granting (h : t.Safe) (hf : ∀ r ∈ t.holders page, r.txn ≠ txn) (hm : mode ≠ .free)
    (ha : t.admits txn page mode = true) : (t.granting txn page mode).Safe where
  toSound := (h.toSound.grant hf hm ha).congr fun _ => rfl
  mode_ne hw := h.mode_ne (waits_granting.1 hw).2
  apart hw r hr := by
    obtain ⟨hx, hw⟩ := waits_granting.1 hw
    rw [holders_granting] at hr
    split at hr
    · next hp =>
      rcases List.mem_cons.1 hr with rfl | hr
      · exact hx.symm
      · exact h.apart hw r (hp ▸ hr)
    · exact h.apart hw r hr
  known hw := mem_pages_granting.2 (.inr (h.known (waits_granting.1 hw).2))

theorem refusing (h : t.Safe) (txn : TxnId) (page : PageId) : (t.refusing txn page).Safe where
  toSound := h.toSound.congr fun _ => rfl
  mode_ne hw := h.mode_ne (waits_refusing.1 hw).2
  apart hw := h.apart (waits_refusing.1 hw).2
  known hw := h.known (waits_refusing.1 hw).2

theorem suspending (h : t.Safe) (hf : ∀ r ∈ t.holders page, r.txn ≠ txn) (hm : mode ≠ .free)
    (hp : page ∈ t.pages) : (t.suspending txn page mode).Safe where
  toSound := h.toSound.congr fun _ => rfl
  mode_ne hw := by
    rcases waits_suspending.1 hw with ⟨-, hw⟩ | ⟨-, -, rfl⟩
    · exact h.mode_ne hw
    · exact hm
  apart hw := by
    rcases waits_suspending.1 hw with ⟨-, hw⟩ | ⟨rfl, rfl, -⟩
    · exact h.apart hw
    · exact hf
  known hw := by
    rcases waits_suspending.1 hw with ⟨-, hw⟩ | ⟨-, rfl, -⟩
    · exact h.known hw
    · exact hp

/-- A turn of a request for a known page that its transaction does not hold. -/
theorem turn (h : t.Safe) (hf : ∀ r ∈ t.holders page, r.txn ≠ txn) (hm : mode ≠ .free)
    (hp : page ∈ t.pages) : (t.turn txn page mode).2.Safe := by
  obtain ⟨ha, he⟩ | ⟨-, -, he⟩ | ⟨-, -, he⟩ := turn_cases t txn page mode
  · rw [he]
    exact h.granting hf hm ha
  · rw [he]
    exact h.refusing txn page
  · rw [he]
    exact h.suspending hf hm hp

theorem acquire (h : t.Safe) (txn : TxnId) (page : PageId) (mode : LockMode) :
    (t.acquire txn page mode).2.Safe := by
  rw [acquire_eq]
  split
  · exact h.touch page
  · next hm =>
    refine (h.approach txn page mode).turn (fun r hr => ?_) ?_ (mem_pages_approach.2 (.inl rfl))
    · rw [holders_approach h.toSound hm, if_pos rfl] at hr
      simpa using (List.mem_filter.1 hr).2
    · rintro rfl
      exact hm (Nat.zero_le _)

theorem retry (h : t.Safe) {w : Waiter} (hw : w ∈ t.waiting) : (t.retry w).2.Safe :=
  have hw := waits_of_mem hw
  h.turn (h.apart hw) (h.mode_ne hw) (h.known hw)

/-- A later turn of a request decides about it. -/
theorem decides_retry (h : t.Safe) {w : Waiter} (hw : w ∈ t.waiting) :
    Decides t w.txn w.page w.mode (t.retry w).1 (t.retry w).2 :=
  have hw := waits_of_mem hw
  .of_turn (h.apart hw) (h.mode_ne hw)

theorem release (h : t.Safe) (txn : TxnId) (page : PageId) : (t.release txn page).Safe := by
  rcases release_cases t txn page with ⟨-, he⟩ | he
  · rw [he]
    exact h
  · rw [he]
    -- the graph is no part of what is safe
    have hd := (h.drop txn page).notify page
    exact ⟨hd.toSound.congr fun _ => rfl, hd.mode_ne, hd.apart, hd.known⟩

theorem releaseAll (h : t.Safe) (txn : TxnId) : (t.releaseAll txn).Safe where
  toSound := h.toSound.releaseAll txn
  mode_ne hw := h.mode_ne (waits_releaseAll.1 hw)
  apart hw r hr := by
    rw [holders_releaseAll] at hr
    exact h.apart (waits_releaseAll.1 hw) r (List.mem_filter.1 hr).1
  known hw :=
    have hw := waits_releaseAll.1 hw
    mem_pages_releaseAll (h.known hw) hw

end Safe

/-! ## Operations -/

theorem Safe.perform (h : t.Safe) {op : Operation} (hp : t.Permits op) : (t.perform op).2.Safe := by
  cases op with
  | acquire txn page mode => exact h.acquire txn page mode
  | turn w => exact h.retry hp
  | release txn page => exact h.release txn page
  | releaseAll txn => exact h.releaseAll txn

theorem Safe.after {ops : List Operation} (h : t.Safe) (hr : t.Runs ops) : (t.after ops).Safe := by
  induction ops generalizing t with
  | nil => exact h
  | cons op ops ih => exact ih (h.perform hr.1) hr.2

/-! ## What is guarded -/

/-- The locks on every page stand side by side, no page in use is forgotten, and the next operation
only bears on the locks of its own transaction. -/
structure Guards (t : LockTable) : Prop where
  /-- On a page stand records of this page. -/
  page_eq : ∀ {page r}, r ∈ t.holders page → r.page = page
  /-- The locks on a page are one for sole use, or shares of different transactions, or none. -/
  compatible : ∀ page, Compatible (t.holders page)
  /-- A page that somebody holds or waits for is known. -/
  known : ∀ {page}, t.holders page ≠ [] ∨ (∃ txn mode, t.Waits txn page mode) → page ∈ t.pages
  /-- A known page is known once. -/
  nodup : t.pages.Nodup
  /-- Who is granted a lock holds the page at least so strongly. -/
  granted : ∀ {op page mode}, t.Permits op → op.asks = some (page, mode) →
    (t.perform op).1 = some .granted → mode ≤ (t.perform op).2.modeOf op.txn page
  /-- Any other lock on a page on which one is granted is a share, and so is the one granted. -/
  beside : ∀ {op page mode r}, t.Permits op → op.asks = some (page, mode) → mode ≠ .free →
    (t.perform op).1 = some .granted → r ∈ t.holders page → r.txn ≠ op.txn →
    r.mode = .shared ∧ mode = .shared
  /-- The other transactions hold what they held. -/
  others : ∀ {op page r}, t.Permits op → r.txn ≠ op.txn →
    (r ∈ (t.perform op).2.holders page ↔ r ∈ t.holders page)
  /-- The other transactions wait for what they waited for. -/
  waits : ∀ {op txn page mode}, t.Permits op → txn ≠ op.txn →
    ((t.perform op).2.Waits txn page mode ↔ t.Waits txn page mode)

namespace Safe

variable {op : Operation}

/-- What is asked for is decided. -/
theorem decides_perform (h : t.Safe) (hp : t.Permits op) (ha : op.asks = some (page, mode)) :
    ∃ verdict, (t.perform op).1 = some verdict ∧
      Decides t op.txn page mode verdict (t.perform op).2 := by
  cases op with
  | acquire txn p m =>
    cases ha
    exact ⟨_, rfl, .of_acquire h.toSound hp⟩
  | turn w =>
    cases ha
    exact ⟨_, rfl, h.decides_retry hp⟩
  | release | releaseAll => cases ha

theorem granted (h : t.Safe) (hp : t.Permits op) (ha : op.asks = some (page, mode))
    (hg : (t.perform op).1 = some .granted) : mode ≤ (t.perform op).2.modeOf op.txn page := by
  obtain ⟨verdict, hv, hd⟩ := h.decides_perform hp ha
  exact hd.le_modeOf (Option.some.inj (hv.symm.trans hg))

theorem others (h : t.Safe) (hr : r.txn ≠ op.txn) :
    r ∈ (t.perform op).2.holders p ↔ r ∈ t.holders p := by
  cases op with
  | acquire txn page mode => exact mem_holders_acquire_of_ne h.toSound hr
  | turn w => exact mem_holders_turn_of_ne hr
  | release txn page => exact mem_holders_release_of_ne hr
  | releaseAll txn => exact mem_holders_releaseAll_of_ne hr

theorem waits (h : t.Safe) (hp : t.Permits op) (hx : x ≠ op.txn) :
    (t.perform op).2.Waits x p m ↔ t.Waits x p m := by
  cases op with
  | acquire txn page mode => exact (Decides.of_acquire h.toSound hp).waits_of_ne hx
  | turn w => exact (h.decides_retry hp).waits_of_ne hx
  | release txn page => exact waits_release
  | releaseAll txn => exact waits_releaseAll

/-- The lock granted stands side by side with the others, which have not changed. -/
theorem beside (h : t.Safe) (hp : t.Permits op) (ha : op.asks = some (page, mode))
    (hm : mode ≠ .free) (hg : (t.perform op).1 = some .granted) (hr : r ∈ t.holders page)
    (hne : r.txn ≠ op.txn) : r.mode = .shared ∧ mode = .shared := by
  have hu := (h.perform hp).toSound
  have hr' := (h.others hne).2 hr
  have hle := h.granted hp ha hg
  have hfree : (t.perform op).2.modeOf op.txn page ≠ .free := by
    intro hf
    rw [hf] at hle
    cases mode with
    | free => exact hm rfl
    | shared | exclusive => exact absurd hle (by decide)
  have hrm : r.mode = .shared := by
    cases hx : r.mode with
    | free => exact absurd hx ((hu.compatible page).mode_ne_free hr')
    | shared => rfl
    | exclusive =>
      rw [← hu.modeOf_of_mem hr'] at hx
      exact absurd (hu.modeOf_eq_free_of_ne hx hne.symm) hfree
  have hnx : (t.perform op).2.modeOf op.txn page ≠ .exclusive := by
    intro hx
    have := hu.modeOf_eq_free_of_ne hx hne
    rw [hu.modeOf_of_mem hr', hrm] at this
    cases this
  refine ⟨hrm, ?_⟩
  cases hh : (t.perform op).2.modeOf op.txn page with
  | free => exact absurd hh hfree
  | exclusive => exact absurd hh hnx
  | shared =>
    rw [hh] at hle
    cases mode with
    | free => exact absurd rfl hm
    | shared => rfl
    | exclusive => exact absurd hle (by decide)

end Safe

/-- After every run that starts without locks, the locks on every page stand side by side, no page
in use is forgotten, and the next operation only bears on the locks of its own transaction. -/
theorem Runs.guards {ops : List Operation} (h : empty.Runs ops) : (empty.after ops).Guards := by
  have hs := Safe.empty.after h
  exact
    { page_eq := hs.page_eq
      compatible := hs.compatible
      known := by
        rintro page (hr | ⟨txn, mode, hw⟩)
        · obtain ⟨r, hr⟩ := List.exists_mem_of_ne_nil _ hr
          exact mem_pages_of_holders hr
        · exact hs.known hw
      nodup := Std.TreeMap.nodup_keys
      granted := hs.granted
      beside := hs.beside
      others := fun _ hne => hs.others hne
      waits := hs.waits }

/-- A transaction gives everything back while it waits for a page. The page's holder ends too, and
before the waiting request takes its turn a third transaction gets the page. -/
def overtaken : List Operation :=
  [.acquire 1 ⟨0, 0⟩ .exclusive, .acquire 2 ⟨0, 1⟩ .exclusive, .acquire 2 ⟨0, 0⟩ .shared,
    .releaseAll 2, .releaseAll 1, .acquire 3 ⟨0, 0⟩ .exclusive, .turn ⟨2, ⟨0, 0⟩, .shared, true⟩]

-- To evaluate a table, `cbv` goes by equations of `LE.le`, `Prod.snd` and `id`, which are in the
-- modules on submodules and on permutations.
theorem runs_overtaken : empty.Runs overtaken := by
  have idle : ∀ {t : LockTable} {txn}, t.waiting.any (·.txn = txn) = false → ¬ t.IsBlocked txn := by
    rintro t txn h ⟨page, mode, w, hw, rfl, -⟩
    have := List.any_eq_false.1 h w hw
    simp at this
  exact ⟨idle (by cbv), idle (by cbv), idle (by cbv), trivial, trivial, idle (by cbv),
    List.mem_of_elem_eq_true (by cbv), trivial⟩

/-- The third transaction has the page for itself alone then, and the request waits on. -/
theorem guards_overtaken :
    empty.Runs overtaken ∧ (empty.after overtaken).Guards ∧
      (empty.after overtaken).holders ⟨0, 0⟩ = [⟨3, .exclusive, ⟨0, 0⟩⟩] ∧
      (empty.after overtaken).waiting = [⟨2, ⟨0, 0⟩, .shared, false⟩] :=
  ⟨runs_overtaken, runs_overtaken.guards, by cbv, by cbv⟩

end RowStore.LockTable
