import RowStore.Proofs.Lock.Cycle
import RowStore.Proofs.Lock.Records

/-!
# Runs of lock requests

A run takes requests for locks, gives locks back, and lets waiting requests take their turns, in any
order. `LockTable.Reachable` is every table that a run can lead to.

What holds all along a run is `LockTable.Consistent`. The heart of it is `Consistent.rests`: a
request that is not due a turn is one that its page's holders do not allow, and the graph has it
wait behind exactly these. A change of the holders gives every request for the page another turn, so
the statement only has to be made about requests whose page has not changed.
-/

namespace RowStore.LockTable

variable {t : LockTable} {txn x : TxnId} {page p : PageId} {mode m : LockMode}

/-! ## Waiting requests -/

/-- The transaction waits for the page in the mode. -/
def Waits (t : LockTable) (txn : TxnId) (page : PageId) (mode : LockMode) : Prop :=
  ∃ w ∈ t.waiting, w.txn = txn ∧ w.page = page ∧ w.mode = mode

/-- The transaction waits for the page in the mode, and is not due a turn. -/
def Rests (t : LockTable) (txn : TxnId) (page : PageId) (mode : LockMode) : Prop :=
  ⟨txn, page, mode, false⟩ ∈ t.waiting

/-- The transaction waits for a page. -/
def IsBlocked (t : LockTable) (txn : TxnId) : Prop := ∃ page mode, t.Waits txn page mode

/-- No waiting request is due a turn. -/
def Settled (t : LockTable) : Prop := ∀ w ∈ t.waiting, w.notified = false

theorem waits_of_mem {w : Waiter} (h : w ∈ t.waiting) : t.Waits w.txn w.page w.mode :=
  ⟨w, h, rfl, rfl, rfl⟩

theorem Rests.waits (h : t.Rests txn page mode) : t.Waits txn page mode := ⟨_, h, rfl, rfl, rfl⟩

theorem Waits.isBlocked (h : t.Waits txn page mode) : t.IsBlocked txn := ⟨page, mode, h⟩

theorem Settled.rests (hs : t.Settled) (h : t.Waits txn page mode) : t.Rests txn page mode := by
  obtain ⟨⟨_, _, _, notified⟩, hw, rfl, rfl, rfl⟩ := h
  obtain rfl : notified = false := hs _ hw
  exact hw

@[simp] theorem not_waits_empty : ¬ LockTable.empty.Waits txn page mode := by
  rintro ⟨w, hw, -⟩
  cases hw

@[simp] theorem waits_notify : (t.notify p).Waits txn page mode ↔ t.Waits txn page mode := by
  simp only [Waits, notify, List.mem_map]
  constructor
  · rintro ⟨-, ⟨w, hw, rfl⟩, h⟩
    refine ⟨w, hw, ?_⟩
    split at h <;> exact h
  · rintro ⟨w, hw, h⟩
    refine ⟨_, ⟨w, hw, rfl⟩, ?_⟩
    split <;> exact h

@[simp] theorem rests_notify :
    (t.notify p).Rests txn page mode ↔ page ≠ p ∧ t.Rests txn page mode := by
  simp only [Rests, notify, List.mem_map]
  constructor
  · rintro ⟨w, hw, h⟩
    split at h
    · cases congrArg Waiter.notified h
    · next hp =>
      subst h
      exact ⟨hp, hw⟩
  · rintro ⟨hp, hw⟩
    exact ⟨_, hw, if_neg hp⟩

@[simp] theorem waits_dequeue :
    (t.dequeue x).Waits txn page mode ↔ txn ≠ x ∧ t.Waits txn page mode := by
  simp only [Waits, dequeue, List.mem_filter, decide_eq_true_eq]
  constructor
  · rintro ⟨w, ⟨hw, hx⟩, rfl, h⟩
    exact ⟨hx, w, hw, rfl, h⟩
  · rintro ⟨hx, w, hw, rfl, h⟩
    exact ⟨w, ⟨hw, hx⟩, rfl, h⟩

@[simp] theorem rests_dequeue :
    (t.dequeue x).Rests txn page mode ↔ txn ≠ x ∧ t.Rests txn page mode := by
  simp [Rests, dequeue, and_comm]

@[simp] theorem waits_enqueue : (t.enqueue x p m).Waits txn page mode ↔
    txn ≠ x ∧ t.Waits txn page mode ∨ txn = x ∧ page = p ∧ mode = m := by
  rw [← waits_dequeue]
  simp only [Waits, enqueue, List.mem_append, List.mem_singleton]
  constructor
  · rintro ⟨w, hw | rfl, h⟩
    · exact .inl ⟨w, hw, h⟩
    · exact .inr ⟨h.1.symm, h.2.1.symm, h.2.2.symm⟩
  · rintro (⟨w, hw, h⟩ | ⟨rfl, rfl, rfl⟩)
    · exact ⟨w, .inl hw, h⟩
    · exact ⟨_, .inr rfl, rfl, rfl, rfl⟩

@[simp] theorem rests_enqueue : (t.enqueue x p m).Rests txn page mode ↔
    txn ≠ x ∧ t.Rests txn page mode ∨ txn = x ∧ page = p ∧ mode = m := by
  rw [← rests_dequeue]
  simp [Rests, enqueue]

/-- Changing the granted locks or the graph changes no request. -/
theorem waits_releaseAll : (t.releaseAll x).Waits txn page mode ↔ t.Waits txn page mode := by
  simp only [Waits, releaseAll, List.mem_map]
  constructor
  · rintro ⟨-, ⟨w, hw, rfl⟩, h⟩
    refine ⟨w, hw, ?_⟩
    split at h <;> exact h
  · rintro ⟨w, hw, h⟩
    refine ⟨_, ⟨w, hw, rfl⟩, ?_⟩
    split <;> exact h

/-- A request that is due no turn after locks were given back waits for a page with none of
them. -/
theorem rests_releaseAll (h : (t.releaseAll x).Rests txn page mode) :
    t.Rests txn page mode ∧ ∀ r ∈ t.holders page, r.txn ≠ x := by
  simp only [Rests, releaseAll, List.mem_map] at h
  obtain ⟨w, hw, h⟩ := h
  split at h
  · cases congrArg Waiter.notified h
  · next hn =>
    subst h
    exact ⟨hw, by simpa using hn⟩

/-! ## What a turn leads to -/

/-- The table in which the lock has been granted. -/
def granting (t : LockTable) (txn : TxnId) (page : PageId) (mode : LockMode) : LockTable :=
  ({ t.grant txn page mode with graph := t.graph.clearWaiting txn }.dequeue txn).notify page

/-- The table in which the request has been refused. -/
def refusing (t : LockTable) (txn : TxnId) (page : PageId) : LockTable :=
  { t with graph := (t.graph.setWaiting txn (t.blockers txn page)).clearWaiting txn }.dequeue txn

/-- The table in which the request waits. -/
def suspending (t : LockTable) (txn : TxnId) (page : PageId) (mode : LockMode) : LockTable :=
  { t with graph := t.graph.setWaiting txn (t.blockers txn page) }.enqueue txn page mode

/-- A turn grants the lock if the holders allow it, refuses it if the transaction would wait in a
circle, and otherwise has it wait. -/
theorem turn_cases (t : LockTable) (txn : TxnId) (page : PageId) (mode : LockMode) :
    t.admits txn page mode = true ∧ t.turn txn page mode = (.granted, t.granting txn page mode) ∨
    t.admits txn page mode = false ∧
      (t.graph.setWaiting txn (t.blockers txn page)).hasCycleFrom txn = true ∧
      t.turn txn page mode = (.deadlock, t.refusing txn page) ∨
    t.admits txn page mode = false ∧
      (t.graph.setWaiting txn (t.blockers txn page)).hasCycleFrom txn = false ∧
      t.turn txn page mode = (.blocked, t.suspending txn page mode) := by
  unfold turn granting refusing suspending
  cases ha : t.admits txn page mode with
  | true => simp
  | false =>
    cases hc : (t.graph.setWaiting txn (t.blockers txn page)).hasCycleFrom txn with
    | true => simp [hc]
    | false => simp [hc]

/-- The table in which a request for a page takes its first turn: a share that stands in the way of
its own transaction is given up. -/
def approach (t : LockTable) (txn : TxnId) (page : PageId) (mode : LockMode) : LockTable :=
  if mode = .exclusive ∧ t.modeOf txn page = .shared then
    ((t.touch page).drop txn page).notify page
  else t.touch page

theorem acquire_eq (t : LockTable) (txn : TxnId) (page : PageId) (mode : LockMode) :
    t.acquire txn page mode = if mode ≤ t.modeOf txn page then (.granted, t.touch page)
      else (t.approach txn page mode).turn txn page mode := by
  unfold acquire approach
  simp only [modeOf_touch]
  split
  · rfl
  · split <;> rfl

@[simp] theorem holders_granting : (t.granting txn page mode).holders p =
    if p = page then ⟨txn, mode, page⟩ :: t.holders page else t.holders p :=
  holders_grant t txn page p mode

@[simp] theorem holders_refusing : (t.refusing txn page).holders p = t.holders p := rfl

@[simp] theorem holders_suspending : (t.suspending txn page mode).holders p = t.holders p := rfl

@[simp] theorem admits_refusing : (t.refusing txn page).admits x p m = t.admits x p m :=
  admits_congr rfl

@[simp] theorem admits_suspending : (t.suspending txn page mode).admits x p m = t.admits x p m :=
  admits_congr rfl

@[simp] theorem graph_granting : (t.granting txn page mode).graph = t.graph.clearWaiting txn := rfl

@[simp] theorem graph_refusing : (t.refusing txn page).graph =
    (t.graph.setWaiting txn (t.blockers txn page)).clearWaiting txn := rfl

@[simp] theorem graph_suspending : (t.suspending txn page mode).graph =
    t.graph.setWaiting txn (t.blockers txn page) := rfl

@[simp] theorem waits_granting : (t.granting txn page mode).Waits x p m ↔
    x ≠ txn ∧ t.Waits x p m := by
  rw [granting, waits_notify, waits_dequeue]
  rfl

@[simp] theorem rests_granting : (t.granting txn page mode).Rests x p m ↔
    p ≠ page ∧ x ≠ txn ∧ t.Rests x p m := by
  rw [granting, rests_notify, rests_dequeue]
  rfl

@[simp] theorem waits_refusing : (t.refusing txn page).Waits x p m ↔ x ≠ txn ∧ t.Waits x p m :=
  waits_dequeue

@[simp] theorem rests_refusing : (t.refusing txn page).Rests x p m ↔ x ≠ txn ∧ t.Rests x p m :=
  rests_dequeue

@[simp] theorem waits_suspending : (t.suspending txn page mode).Waits x p m ↔
    x ≠ txn ∧ t.Waits x p m ∨ x = txn ∧ p = page ∧ m = mode :=
  waits_enqueue

@[simp] theorem rests_suspending : (t.suspending txn page mode).Rests x p m ↔
    x ≠ txn ∧ t.Rests x p m ∨ x = txn ∧ p = page ∧ m = mode :=
  rests_enqueue

@[simp] theorem graph_approach : (t.approach txn page mode).graph = t.graph := by
  unfold approach
  split <;> rfl

@[simp] theorem waits_approach : (t.approach txn page mode).Waits x p m ↔ t.Waits x p m := by
  unfold approach
  split
  · exact waits_notify
  · rfl

theorem holders_approach (h : t.Sound) (hm : ¬ mode ≤ t.modeOf txn page) :
    (t.approach txn page mode).holders p =
      if p = page then (t.holders page).filter (·.txn ≠ txn) else t.holders p := by
  unfold approach
  split
  · simp
  · next hu =>
    have hf : t.modeOf txn page = .free := by
      cases hh : t.modeOf txn page <;> cases mode <;> simp_all [LockMode.le_def, LockMode.rank]
    have hn := h.modeOf_eq_free_iff.1 hf
    rw [holders_touch]
    split
    · next hp =>
      rw [hp]
      exact (List.filter_eq_self.2 fun r hr => by simpa using hn r hr).symm
    · rfl

/-- A request that is still due no turn waits for a page with the same holders as before. -/
theorem rests_approach (h : (t.approach txn page mode).Rests x p m) :
    t.Rests x p m ∧ (t.approach txn page mode).holders p = t.holders p := by
  unfold approach at h ⊢
  split at h
  · next hu =>
    rw [rests_notify] at h
    exact ⟨h.2, by simp [hu, h.1]⟩
  · next hu =>
    rw [if_neg hu]
    exact ⟨h, holders_touch t page p⟩

/-- The table in which a transaction has given a page back. -/
def releasing (t : LockTable) (txn : TxnId) (page : PageId) : LockTable :=
  ({ t with graph := t.graph.removeHolder txn page }.drop txn page).notify page

/-- Giving a page back does nothing if the transaction does not hold it. -/
theorem release_cases (t : LockTable) (txn : TxnId) (page : PageId) :
    (∀ r ∈ t.holders page, r.txn ≠ txn) ∧ t.release txn page = t ∨
      t.release txn page = t.releasing txn page := by
  unfold release releasing
  split
  · exact .inr rfl
  · next h => exact .inl ⟨by simpa using h, rfl⟩

@[simp] theorem holders_releasing : (t.releasing txn page).holders p =
    if p = page then (t.holders page).filter (·.txn ≠ txn) else t.holders p :=
  holders_drop t txn page p

@[simp] theorem waits_releasing : (t.releasing txn page).Waits x p m ↔ t.Waits x p m :=
  waits_notify

@[simp] theorem rests_releasing :
    (t.releasing txn page).Rests x p m ↔ p ≠ page ∧ t.Rests x p m :=
  rests_notify

theorem holders_release (t : LockTable) (txn : TxnId) (page p : PageId) :
    (t.release txn page).holders p =
      if p = page then (t.holders page).filter (·.txn ≠ txn) else t.holders p := by
  rcases release_cases t txn page with ⟨hn, he⟩ | he
  · rw [he]
    split
    · next hp =>
      rw [hp]
      exact (List.filter_eq_self.2 fun r hr => by simpa using hn r hr).symm
    · rfl
  · rw [he, holders_releasing]

/-! ## What holds all along a run -/

/-- What the parts of a table have to do with each other. -/
structure Consistent (t : LockTable) : Prop extends t.Sound where
  /-- A transaction waits for one lock at a time. -/
  unique : ∀ {txn p m p' m'}, t.Waits txn p m → t.Waits txn p' m' → p = p' ∧ m = m'
  /-- Nobody waits for no lock. -/
  mode_ne : ∀ {txn p m}, t.Waits txn p m → m ≠ .free
  /-- Nobody waits for a page while holding it. -/
  apart : ∀ {txn p m}, t.Waits txn p m → ∀ r ∈ t.holders p, r.txn ≠ txn
  /-- The graph only knows transactions that wait. -/
  idle : ∀ {txn}, ¬ t.IsBlocked txn → t.graph.isWaiting txn = false
  /-- Nobody waits, over any number of others, behind itself. -/
  acyclic : t.graph.Acyclic
  /-- A request that is due no turn is not allowed by the holders, and waits behind them. -/
  rests : ∀ {txn p m}, t.Rests txn p m →
    t.admits txn p m = false ∧ ∀ r, r ∈ t.graph.waitingOn txn ↔ r ∈ t.holders p

namespace Consistent

theorem empty : LockTable.empty.Consistent where
  toSound := .empty
  unique h := absurd h not_waits_empty
  mode_ne h := absurd h not_waits_empty
  apart h := absurd h not_waits_empty
  idle _ := WaitGraph.isWaiting_empty _
  acyclic := WaitGraph.acyclic_empty
  rests h := absurd h.waits not_waits_empty

/-- A request takes its first turn in a table that is consistent too: the share that it gives up
leaves edges behind, but only of requests that are due a turn now. -/
theorem approach (h : t.Consistent) (hm : ¬ mode ≤ t.modeOf txn page) :
    (t.approach txn page mode).Consistent where
  page_eq {p r} hr := by
    rw [holders_approach h.toSound hm] at hr
    split at hr
    · next hp => exact hp ▸ h.page_eq (List.mem_filter.1 hr).1
    · exact h.page_eq hr
  compatible p := by
    rw [holders_approach h.toSound hm]
    split
    · exact (h.compatible page).filter _
    · exact h.compatible p
  unique h₁ h₂ := h.unique (waits_approach.1 h₁) (waits_approach.1 h₂)
  mode_ne hw := h.mode_ne (waits_approach.1 hw)
  apart {x p m} hw r hr := by
    rw [holders_approach h.toSound hm] at hr
    split at hr
    · next hp => exact h.apart (waits_approach.1 hw) r (hp ▸ (List.mem_filter.1 hr).1)
    · exact h.apart (waits_approach.1 hw) r hr
  idle {x} hb := by
    rw [graph_approach]
    exact h.idle fun ⟨p, m, hw⟩ => hb ⟨p, m, waits_approach.2 hw⟩
  acyclic := graph_approach (t := t) ▸ h.acyclic
  rests {x p m} hr := by
    obtain ⟨hr, hh⟩ := rests_approach hr
    rw [admits_congr hh, hh, graph_approach]
    exact h.rests hr

/-- Granting a page to a transaction that does not hold it yet. -/
theorem granting (h : t.Consistent) (hf : ∀ r ∈ t.holders page, r.txn ≠ txn) (hm : mode ≠ .free)
    (ha : t.admits txn page mode) : (t.granting txn page mode).Consistent where
  toSound := (h.toSound.grant hf hm ha).congr fun _ => rfl
  unique h₁ h₂ := h.unique (waits_granting.1 h₁).2 (waits_granting.1 h₂).2
  mode_ne hw := h.mode_ne (waits_granting.1 hw).2
  apart {x p m} hw r hr := by
    obtain ⟨hx, hw⟩ := waits_granting.1 hw
    rw [holders_granting] at hr
    split at hr
    · next hp =>
      rcases List.mem_cons.1 hr with rfl | hr
      · exact hx.symm
      · exact h.apart hw r (hp ▸ hr)
    · exact h.apart hw r hr
  idle {x} hb := by
    by_cases hx : x = txn
    · simp [hx]
    · have := h.idle fun ⟨p, m, hw⟩ => hb ⟨p, m, waits_granting.2 ⟨hx, hw⟩⟩
      simp [this]
  acyclic := h.acyclic.clearWaiting txn
  rests {x p m} hr := by
    -- the page is not the one that has gained a holder
    obtain ⟨hp, hx, hr⟩ := rests_granting.1 hr
    have hh : (t.granting txn page mode).holders p = t.holders p :=
      holders_granting.trans (if_neg hp)
    rw [admits_congr hh, hh, graph_granting, WaitGraph.waitingOn_clearWaiting, if_neg hx]
    exact h.rests hr

/-- Refusing a request takes it away, with its edges. -/
theorem refusing (h : t.Consistent) (txn : TxnId) (page : PageId) :
    (t.refusing txn page).Consistent where
  toSound := h.toSound.congr fun _ => rfl
  unique h₁ h₂ := h.unique (waits_refusing.1 h₁).2 (waits_refusing.1 h₂).2
  mode_ne hw := h.mode_ne (waits_refusing.1 hw).2
  apart hw r hr := h.apart (waits_refusing.1 hw).2 r hr
  idle {x} hb := by
    by_cases hx : x = txn
    · simp [hx]
    · have := h.idle fun ⟨p, m, hw⟩ => hb ⟨p, m, waits_refusing.2 ⟨hx, hw⟩⟩
      simp [WaitGraph.isWaiting_setWaiting_of_ne _ hx, this]
  acyclic := by
    refine h.acyclic.mono ?_
    rintro a b ⟨r, hr, rfl⟩
    by_cases hx : a = txn
    · simp [hx] at hr
    · exact ⟨r, by simpa [hx] using hr, rfl⟩
  rests {x p m} hr := by
    obtain ⟨hx, hr⟩ := rests_refusing.1 hr
    simpa [hx] using h.rests hr

/-- Letting a request wait for a page that its transaction does not hold, and that would not admit
it, unless that closes a circle. -/
theorem suspending (h : t.Consistent) (hf : ∀ r ∈ t.holders page, r.txn ≠ txn) (hm : mode ≠ .free)
    (ha : t.admits txn page mode = false)
    (hc : (t.graph.setWaiting txn (t.blockers txn page)).hasCycleFrom txn = false) :
    (t.suspending txn page mode).Consistent where
  toSound := h.toSound.congr fun _ => rfl
  unique {x p p' m m'} h₁ h₂ := by
    rcases waits_suspending.1 h₁ with ⟨hx, h₁⟩ | ⟨rfl, rfl, rfl⟩
    · rcases waits_suspending.1 h₂ with ⟨-, h₂⟩ | ⟨rfl, -⟩
      · exact h.unique h₁ h₂
      · exact absurd rfl hx
    · rcases waits_suspending.1 h₂ with ⟨hx, -⟩ | ⟨-, rfl, rfl⟩
      · exact absurd rfl hx
      · exact ⟨rfl, rfl⟩
  mode_ne hw := by
    rcases waits_suspending.1 hw with ⟨-, hw⟩ | ⟨-, -, rfl⟩
    · exact h.mode_ne hw
    · exact hm
  apart hw r hr := by
    rcases waits_suspending.1 hw with ⟨-, hw⟩ | ⟨rfl, rfl, rfl⟩
    · exact h.apart hw r hr
    · exact hf r hr
  idle {x} hb := by
    have hx : x ≠ txn := fun hx => hb ⟨page, mode, waits_suspending.2 (.inr ⟨hx, rfl, rfl⟩)⟩
    have := h.idle fun ⟨p, m, hw⟩ => hb ⟨p, m, waits_suspending.2 (.inl ⟨hx, hw⟩)⟩
    rw [graph_suspending, WaitGraph.isWaiting_setWaiting_of_ne _ hx, this]
  acyclic := h.acyclic.setWaiting hc
  rests {x p m} hr := by
    rcases rests_suspending.1 hr with ⟨hx, hr⟩ | ⟨rfl, rfl, rfl⟩
    · simpa [hx] using h.rests hr
    · refine ⟨ha, fun r => ?_⟩
      simp only [graph_suspending, WaitGraph.waitingOn_setWaiting, if_true, List.mem_eraseDups,
        blockers, List.mem_filter, decide_eq_true_eq, holders_suspending]
      exact ⟨fun hr => hr.1.1, fun hr => ⟨⟨hr, hf r hr⟩, hf r hr⟩⟩

/-- A turn of a request for a page that its transaction does not hold. -/
theorem turn (h : t.Consistent) (hf : ∀ r ∈ t.holders page, r.txn ≠ txn) (hm : mode ≠ .free) :
    (t.turn txn page mode).2.Consistent := by
  obtain ⟨ha, he⟩ | ⟨ha, hc, he⟩ | ⟨ha, hc, he⟩ := turn_cases t txn page mode
  · rw [he]
    exact h.granting hf hm ha
  · rw [he]
    exact h.refusing txn page
  · rw [he]
    exact h.suspending hf hm ha hc

theorem acquire (h : t.Consistent) (txn : TxnId) (page : PageId) (mode : LockMode) :
    (t.acquire txn page mode).2.Consistent := by
  rw [acquire_eq]
  split
  · exact
      { h with
        page_eq := fun hr => h.page_eq (holders_touch t page _ ▸ hr)
        compatible := fun p => holders_touch t page p ▸ h.compatible p
        apart := fun hw r hr => h.apart hw r (holders_touch t page _ ▸ hr)
        rests := fun hr => by
          rw [admits_congr (holders_touch t page _), holders_touch]
          exact h.rests hr }
  · next hm =>
    refine (h.approach hm).turn (fun r hr => ?_) ?_
    · rw [holders_approach h.toSound hm, if_pos rfl] at hr
      simpa using (List.mem_filter.1 hr).2
    · rintro rfl
      exact hm (Nat.zero_le _)

theorem retry (h : t.Consistent) {w : Waiter} (hw : w ∈ t.waiting) :
    (t.retry w).2.Consistent :=
  h.turn (h.apart (waits_of_mem hw)) (h.mode_ne (waits_of_mem hw))

theorem release (h : t.Consistent) (txn : TxnId) (page : PageId) :
    (t.release txn page).Consistent := by
  rcases release_cases t txn page with ⟨-, he⟩ | he
  · rw [he]
    exact h
  · rw [he]
    refine
      { toSound := (h.toSound.drop txn page).congr fun _ => rfl
        unique := fun h₁ h₂ => h.unique (waits_releasing.1 h₁) (waits_releasing.1 h₂)
        mode_ne := fun hw => h.mode_ne (waits_releasing.1 hw)
        apart := fun hw r hr => ?_
        idle := fun hb => ?_
        acyclic := h.acyclic.dropRecords _
        rests := fun hr => ?_ }
    · rw [holders_releasing] at hr
      split at hr
      · next hp => exact h.apart (waits_releasing.1 hw) r (hp ▸ (List.mem_filter.1 hr).1)
      · exact h.apart (waits_releasing.1 hw) r hr
    · exact t.graph.isWaiting_dropRecords _
        (h.idle fun ⟨p, m, hw⟩ => hb ⟨p, m, waits_releasing.2 hw⟩)
    · -- the records that the request waits behind stand on another page
      obtain ⟨hp, hr⟩ := rests_releasing.1 hr
      have hh : (t.releasing txn page).holders _ = t.holders _ :=
        holders_releasing.trans (if_neg hp)
      rw [admits_congr hh, hh]
      refine ⟨(h.rests hr).1, fun r => ?_⟩
      rw [← (h.rests hr).2 r]
      change r ∈ (t.graph.removeHolder txn page).waitingOn _ ↔ _
      rw [WaitGraph.waitingOn_removeHolder, List.mem_filter, and_iff_left_iff_imp]
      intro hmem
      have : r.page ≠ page := h.page_eq (((h.rests hr).2 r).1 hmem) ▸ hp
      simp [this]

theorem releaseAll (h : t.Consistent) (hi : ¬ t.IsBlocked txn) :
    (t.releaseAll txn).Consistent := by
  refine
    { toSound := h.toSound.releaseAll txn
      unique := fun h₁ h₂ => h.unique (waits_releaseAll.1 h₁) (waits_releaseAll.1 h₂)
      mode_ne := fun hw => h.mode_ne (waits_releaseAll.1 hw)
      apart := fun hw r hr => ?_
      idle := fun {x} hb => ?_
      acyclic := (h.acyclic.clearWaiting txn).dropRecords _
      rests := fun {x p m} hr => ?_ }
  · rw [holders_releaseAll] at hr
    exact h.apart (waits_releaseAll.1 hw) r (List.mem_filter.1 hr).1
  · refine (t.graph.clearWaiting txn).isWaiting_dropRecords _ ?_
    simp [h.idle fun ⟨p, m, hw⟩ => hb ⟨p, m, waits_releaseAll.2 hw⟩]
  · -- the transaction had no lock on the page
    obtain ⟨hr, hn⟩ := rests_releaseAll hr
    have hx : x ≠ txn := fun hx => hi (hx ▸ hr.waits.isBlocked)
    have hh : (t.releaseAll txn).holders p = t.holders p := by
      rw [holders_releaseAll]
      exact List.filter_eq_self.2 fun r hr => by simpa using hn r hr
    rw [admits_congr hh, hh]
    refine ⟨(h.rests hr).1, fun r => ?_⟩
    rw [← (h.rests hr).2 r]
    change r ∈ (t.graph.purge txn).waitingOn _ ↔ _
    rw [WaitGraph.waitingOn_purge, if_neg hx, List.mem_filter, and_iff_left_iff_imp]
    intro hmem
    simpa using hn r (((h.rests hr).2 r).1 hmem)

end Consistent

/-! ## Runs -/

/-- The tables that a run can lead to. Transactions ask for locks and give locks back, one lock or
all, and waiting requests take turns. Who waits neither asks for another lock nor gives everything
back. All but turns has to wait until the table is `ready` for it. -/
inductive Reachable (ready : LockTable → Prop) : LockTable → Prop
  /-- A run starts without locks. -/
  | empty : Reachable ready .empty
  /-- A transaction asks for a lock. -/
  | acquire {t : LockTable} {txn : TxnId} (h : Reachable ready t) (hr : ready t)
    (hi : ¬ t.IsBlocked txn) (page : PageId) (mode : LockMode) :
    Reachable ready (t.acquire txn page mode).2
  /-- A transaction gives a lock back. -/
  | release {t : LockTable} (h : Reachable ready t) (hr : ready t) (txn : TxnId) (page : PageId) :
    Reachable ready (t.release txn page)
  /-- A transaction gives all its locks back. -/
  | releaseAll {t : LockTable} {txn : TxnId} (h : Reachable ready t) (hr : ready t)
    (hi : ¬ t.IsBlocked txn) : Reachable ready (t.releaseAll txn)
  /-- A waiting request takes a turn. -/
  | retry {t : LockTable} {w : Waiter} (h : Reachable ready t) (hw : w ∈ t.waiting) :
    Reachable ready (t.retry w).2

/-- Every run keeps the parts of the table in step with each other. -/
theorem Reachable.consistent {ready : LockTable → Prop} (h : Reachable ready t) :
    t.Consistent := by
  induction h with
  | empty => exact .empty
  | acquire _ _ _ page mode ih => exact ih.acquire _ page mode
  | release _ _ txn page ih => exact ih.release txn page
  | releaseAll _ _ hi ih => exact ih.releaseAll hi
  | retry _ hw ih => exact ih.retry hw

end RowStore.LockTable
