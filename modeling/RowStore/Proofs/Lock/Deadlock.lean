import Mathlib.Algebra.Module.Submodule.Lattice
import Mathlib.Data.Fintype.Pigeonhole
import Mathlib.Data.List.Permutation
import RowStore.Proofs.Lock.Run

/-!
# Deadlocks

A transaction waits for another if it is blocked on a page that the other holds. Two statements say
that the waits-for graph finds the circles of this relation, no less and no more:

* `Reachable.settled_waits`: once no request is due a turn, every blocked request is blocked by
  present holders, the graph shows exactly these, and there is no circle, so that some transaction
  can always go on.
* `Reachable.refused_in_circle`: a request is only refused if it would have closed a circle of
  transactions that wait for each other, and a request that has been let wait is never refused.

The first only needs that the graph is free of circles and, for requests that are due no turn,
exact. For the second the edges have to be looked at while some requests are due a turn: an edge may
then point at a share that has been given up, and a new holder may be missing. `Covers` bounds what
is missing.
-/

namespace RowStore.LockTable

open Relation (TransGen ReflTransGen)

variable {t : LockTable} {txn : TxnId} {page : PageId} {mode : LockMode}

/-- A transaction is blocked on a page that another holds. -/
def WaitsFor (t : LockTable) (a b : TxnId) : Prop :=
  ∃ page mode, t.Waits a page mode ∧ ∃ r ∈ t.holders page, r.txn = b

namespace Consistent

theorem isBlocked_of_mem (h : t.Consistent) {r : LockRecord} (hr : r ∈ t.graph.waitingOn txn) :
    t.IsBlocked txn := by
  by_contra hb
  rw [WaitGraph.waitingOn_eq_nil (h.idle hb)] at hr
  cases hr

/-- When no request is due a turn, the graph is the relation that it stands for. -/
theorem edge_iff_waitsFor (h : t.Consistent) (hs : t.Settled) {a b : TxnId} :
    t.graph.Edge a b ↔ t.WaitsFor a b := by
  constructor
  · rintro ⟨r, hr, rfl⟩
    obtain ⟨p, m, hw⟩ := h.isBlocked_of_mem hr
    exact ⟨p, m, hw, r, ((h.rests (hs.rests hw)).2 r).1 hr, rfl⟩
  · rintro ⟨p, m, hw, r, hr, rfl⟩
    exact ⟨r, ((h.rests (hs.rests hw)).2 r).2 hr, rfl⟩

theorem not_transGen_waitsFor (h : t.Consistent) (hs : t.Settled) (txn : TxnId) :
    ¬ TransGen t.WaitsFor txn txn := fun way =>
  h.acyclic txn (TransGen.mono (fun _ _ => (h.edge_iff_waitsFor hs).2) txn txn way)

end Consistent

/-- A request that is not allowed has a holder in its way. -/
theorem exists_holder (ha : t.admits txn page mode = false) :
    ∃ r, r ∈ t.holders page := by
  by_contra hn
  have : t.holders page = [] := List.eq_nil_iff_forall_not_mem.2 fun r hr => hn ⟨r, hr⟩
  cases mode <;> simp [admits, this] at ha

/-! ## Nobody is forgotten -/

/-- A sequence of transactions each of which waits for the next goes on along the relation. -/
theorem transGen_of_lt {chain : Nat → TxnId} (h : ∀ n, t.WaitsFor (chain n) (chain (n + 1)))
    {i j : Nat} (hij : i < j) : TransGen t.WaitsFor (chain i) (chain j) := by
  induction j, hij using Nat.le_induction with
  | base => exact .single (h i)
  | succ j _ ih => exact ih.tail (h j)

/-- Blocked transactions are finitely many, so following who waits for whom comes to one that is not
blocked, or runs in a circle. -/
theorem exists_not_isBlocked (hc : ∀ txn, ¬ TransGen t.WaitsFor txn txn) (chain : Nat → TxnId)
    (h : ∀ n, t.IsBlocked (chain n) → t.WaitsFor (chain n) (chain (n + 1))) :
    ∃ n, ¬ t.IsBlocked (chain n) := by
  by_contra hall
  simp only [not_exists, not_not] at hall
  have hmem : ∀ n, chain n ∈ (t.waiting.map (·.txn)).toFinset := fun n => by
    obtain ⟨p, m, w, hw, he, -⟩ := hall n
    exact List.mem_toFinset.2 (List.mem_map.2 ⟨w, hw, he⟩)
  obtain ⟨i, j, hne, he⟩ := Finite.exists_ne_map_eq_of_infinite
    fun n : Nat => (⟨chain n, hmem n⟩ : (t.waiting.map (·.txn)).toFinset)
  have he : chain i = chain j := congrArg Subtype.val he
  have way := fun {i j : Nat} (hij : i < j) => transGen_of_lt (fun n => h n (hall n)) hij
  rcases Nat.lt_or_gt_of_ne hne with hij | hij
  · have hw := way hij
    rw [he] at hw
    exact hc (chain j) hw
  · have hw := way hij
    rw [he] at hw
    exact hc (chain j) hw

/-- Whenever every waiting request has had the turns it was due, whatever the run before: a waiting
request is not allowed by the present holders of its page; the graph has it wait behind their
records, of which there is one at least and none of its own, and knows nobody else; and no
transactions wait for each other in a circle, so that following who waits for whom always comes to a
transaction that is not blocked. -/
theorem Reachable.settled_waits (h : Reachable (fun _ => True) t) (hs : t.Settled) :
    (∀ w ∈ t.waiting, t.admits w.txn w.page w.mode = false) ∧
    (∀ w ∈ t.waiting, (∀ r, r ∈ t.graph.waitingOn w.txn ↔ r ∈ t.holders w.page) ∧
      t.graph.waitingOn w.txn ≠ [] ∧ ∀ r ∈ t.graph.waitingOn w.txn, r.txn ≠ w.txn) ∧
    (∀ txn, ¬ t.IsBlocked txn → t.graph.isWaiting txn = false) ∧
    (∀ txn, ¬ TransGen t.WaitsFor txn txn) ∧
    ∀ chain : Nat → TxnId, (∀ n, t.IsBlocked (chain n) → t.WaitsFor (chain n) (chain (n + 1))) →
      ∃ n, ¬ t.IsBlocked (chain n) := by
  have hc := h.consistent
  have exact' : ∀ w ∈ t.waiting, t.admits w.txn w.page w.mode = false ∧
      ∀ r, r ∈ t.graph.waitingOn w.txn ↔ r ∈ t.holders w.page :=
    fun w hw => hc.rests (hs.rests (waits_of_mem hw))
  refine ⟨fun w hw => (exact' w hw).1, fun w hw => ⟨(exact' w hw).2, ?_, ?_⟩,
    fun txn hb => hc.idle hb, hc.not_transGen_waitsFor hs,
    exists_not_isBlocked (hc.not_transGen_waitsFor hs)⟩
  · obtain ⟨r, hr⟩ := exists_holder (exact' w hw).1
    exact List.ne_nil_of_mem (((exact' w hw).2 r).2 hr)
  · intro r hr
    exact hc.apart (waits_of_mem hw) r (((exact' w hw).2 r).1 hr)

/-- Transactions 1 and 2 hold a page each, and 1 asks for the page of 2. -/
def crossing : LockTable :=
  (((LockTable.empty.acquire 1 ⟨0, 0⟩ .exclusive).2.acquire 2 ⟨0, 1⟩ .exclusive).2.acquire
    1 ⟨0, 1⟩ .shared).2

-- To evaluate a table, `cbv` goes by equations of `LE.le` and `Prod.snd`, which are in the modules
-- on submodules and on permutations.
theorem waiting_crossing : crossing.waiting = [⟨1, ⟨0, 1⟩, .shared, false⟩] := by cbv

theorem settled_crossing : crossing.Settled := by
  intro w hw
  rw [waiting_crossing, List.mem_singleton] at hw
  rw [hw]

theorem reachable_crossing {ready : LockTable → Prop} (h : ∀ t, t.Settled → ready t) :
    Reachable ready crossing := by
  have settled : ∀ {t : LockTable}, t.waiting = [] → t.Settled ∧ ∀ txn, ¬ t.IsBlocked txn := by
    intro t ht
    refine ⟨fun w hw => ?_, ?_⟩
    · rw [ht] at hw
      cases hw
    · rintro txn ⟨p, m, w, hw, -⟩
      rw [ht] at hw
      cases hw
  have h₀ := settled (t := .empty) rfl
  have h₁ := settled (t := (LockTable.empty.acquire 1 ⟨0, 0⟩ .exclusive).2) (by cbv)
  have h₂ := settled (t := ((LockTable.empty.acquire 1 ⟨0, 0⟩ .exclusive).2.acquire
    2 ⟨0, 1⟩ .exclusive).2) (by cbv)
  exact ((Reachable.empty.acquire (h _ h₀.1) (h₀.2 1) _ _).acquire (h _ h₁.1) (h₁.2 2) _ _).acquire
    (h _ h₂.1) (h₂.2 1) _ _

theorem settled_waits_crossing :
    crossing.Settled ∧ crossing.admits 1 ⟨0, 1⟩ .shared = false ∧
      crossing.graph.waitingOn 1 ≠ [] ∧ ¬ TransGen crossing.WaitsFor 1 1 := by
  have hw : (⟨1, ⟨0, 1⟩, .shared, false⟩ : Waiter) ∈ crossing.waiting := by
    rw [waiting_crossing]
    exact List.mem_singleton_self _
  obtain ⟨hadmits, hedges, -, hcircle, -⟩ :=
    Reachable.settled_waits (reachable_crossing fun _ _ => trivial) settled_crossing
  exact ⟨settled_crossing, hadmits _ hw, (hedges _ hw).2.1, hcircle 1⟩

/-! ## Nobody is refused in vain

The walk of a first turn starts in a settled table, where the edges are exact, except that the
request may just have given up a share to which edges still lead. A circle over such an edge would
lead on over another holder of the same page, and so would have been there before. -/

/-- The first step of the walk is to a holder of the page asked for. -/
theorem edge_setWaiting_self {g : WaitGraph} {b : TxnId} (blockers : List LockRecord)
    (h : (g.setWaiting txn blockers).Edge txn b) : b ≠ txn ∧ ∃ r ∈ blockers, r.txn = b := by
  obtain ⟨r, hr, rfl⟩ := h
  simp only [WaitGraph.waitingOn_setWaiting, if_true, List.mem_eraseDups, List.mem_filter,
    decide_eq_true_eq] at hr
  exact ⟨hr.2, r, hr.1, rfl⟩

theorem edge_setWaiting_of_ne {g : WaitGraph} {a b : TxnId} (blockers : List LockRecord)
    (ha : a ≠ txn) : (g.setWaiting txn blockers).Edge a b ↔ g.Edge a b := by
  simp [WaitGraph.Edge, ha]

/-- The records on a page when a request has taken its first turn are old ones, and of other
transactions all that there were. -/
theorem mem_holders_approach (h : t.Sound) (hm : ¬ mode ≤ t.modeOf txn page) {p : PageId}
    {r : LockRecord} : r ∈ (t.approach txn page mode).holders p ↔
      r ∈ t.holders p ∧ (p = page → r.txn ≠ txn) := by
  rw [holders_approach h hm]
  by_cases hp : p = page
  · simp [hp]
  · simp [hp]

/-- A refused first request would have closed a circle. -/
theorem Consistent.circle_of_refusal (h : t.Consistent) (hs : t.Settled) (hi : ¬ t.IsBlocked txn)
    (hm : ¬ mode ≤ t.modeOf txn page)
    (hc : (t.graph.setWaiting txn ((t.approach txn page mode).blockers txn page)).hasCycleFrom txn
      = true) :
    ∃ r ∈ (t.approach txn page mode).holders page, r.txn ≠ txn ∧
      TransGen (t.approach txn page mode).WaitsFor r.txn txn := by
  have hmem : ∀ {p r}, r ∈ (t.approach txn page mode).holders p ↔
      r ∈ t.holders p ∧ (p = page → r.txn ≠ txn) := mem_holders_approach h.toSound hm
  have back : ∀ {a b}, (t.approach txn page mode).WaitsFor a b → t.WaitsFor a b := by
    rintro a b ⟨p, m, hw, r, hr, rfl⟩
    exact ⟨p, m, waits_approach.1 hw, r, (hmem.1 hr).1, rfl⟩
  -- on its way back the walk comes to a last transaction before it ends
  have last : ∀ {a}, TransGen
      (t.graph.setWaiting txn ((t.approach txn page mode).blockers txn page)).Edge a txn →
      a ≠ txn → ∃ y, ReflTransGen (t.approach txn page mode).WaitsFor a y ∧ t.WaitsFor y txn := by
    intro a way
    induction way using TransGen.head_induction_on with
    | @single a he =>
      intro ha
      rw [edge_setWaiting_of_ne _ ha, h.edge_iff_waitsFor hs] at he
      exact ⟨a, .refl, he⟩
    | @head a c he _ ih =>
      intro ha
      rw [edge_setWaiting_of_ne _ ha, h.edge_iff_waitsFor hs] at he
      by_cases hcx : c = txn
      · exact ⟨a, .refl, hcx ▸ he⟩
      · obtain ⟨y, way, hy⟩ := ih hcx
        obtain ⟨p, m, hw, r, hr, rfl⟩ := he
        exact ⟨y, .head ⟨p, m, waits_approach.2 hw, r, hmem.2 ⟨hr, fun _ => hcx⟩, rfl⟩ way, hy⟩
  obtain ⟨b, he, rest⟩ := TransGen.head'_iff.1 (WaitGraph.hasCycleFrom_iff.1 hc)
  obtain ⟨hb, r, hr, rfl⟩ := edge_setWaiting_self _ he
  have hr : r ∈ (t.approach txn page mode).holders page := (List.mem_filter.1 hr).1
  refine ⟨r, hr, hb, ?_⟩
  rcases ReflTransGen.cases_head rest with he | ⟨c, he, rest⟩
  · exact absurd he hb
  · obtain ⟨y, way, hy⟩ := last (.head' he rest) hb
    obtain ⟨p, m, hw, s, hs', rfl⟩ := hy
    by_cases hp : p = page
    · -- the last edge leads to the share given up: then `y` waits for `r.txn` as well
      subst hp
      have hyr : t.WaitsFor y r.txn := ⟨p, m, hw, r, (hmem.1 hr).1, rfl⟩
      have way : ReflTransGen t.WaitsFor r.txn y := ReflTransGen.mono (fun _ _ => back) _ _ way
      exact absurd (.tail' way hyr) (h.not_transGen_waitsFor hs _)
    · exact .tail' way ⟨p, m, waits_approach.2 hw, s, hmem.2 ⟨hs', fun he => absurd he hp⟩, rfl⟩

/-- What a request waits behind is on its page's side in the graph, except for holders that do not
wait themselves. -/
def Covers (t : LockTable) : Prop :=
  ∀ a p m, t.Waits a p m → ∀ r ∈ t.holders p, r ∈ t.graph.waitingOn a ∨ ¬ t.IsBlocked r.txn

namespace Consistent

theorem covers_of_settled (h : t.Consistent) (hs : t.Settled) : t.Covers := fun _ _ _ hw r hr =>
  .inl (((h.rests (hs.rests hw)).2 r).2 hr)

/-- With nobody forgotten a request that has been waiting is not refused: the circle that its turn
would have to find has been there before. -/
theorem retry_ne_deadlock (h : t.Consistent) (hc : t.Covers) {w : Waiter} (hw : w ∈ t.waiting) :
    (t.retry w).1 ≠ .deadlock := by
  intro hd
  obtain ⟨-, he⟩ | ⟨-, hcyc, -⟩ | ⟨-, -, he⟩ := turn_cases t w.txn w.page w.mode
  · rw [LockTable.retry, he] at hd
    cases hd
  · have old : ∀ {a}, TransGen (t.graph.setWaiting w.txn (t.blockers w.txn w.page)).Edge a w.txn →
        TransGen t.graph.Edge a w.txn := by
      intro a way
      induction way using TransGen.head_induction_on with
      | @single a he =>
        by_cases ha : a = w.txn
        · exact absurd rfl (edge_setWaiting_self _ (ha ▸ he)).1
        · exact .single ((edge_setWaiting_of_ne _ ha).1 he)
      | @head a c he _ ih =>
        by_cases ha : a = w.txn
        · subst ha
          obtain ⟨-, r, hr, rfl⟩ := edge_setWaiting_self _ he
          obtain ⟨d, ⟨s, hs, -⟩, -⟩ := TransGen.head'_iff.1 ih
          rcases hc _ _ _ (waits_of_mem hw) r (List.mem_filter.1 hr).1 with hmem | hb
          · exact .head ⟨r, hmem, rfl⟩ ih
          · exact absurd (h.isBlocked_of_mem hs) hb
        · exact .head ((edge_setWaiting_of_ne _ ha).1 he) ih
    exact h.acyclic _ (old (WaitGraph.hasCycleFrom_iff.1 hcyc))
  · rw [LockTable.retry, he] at hd
    cases hd

end Consistent

namespace Covers

theorem approach (hc : t.Covers) (h : t.Sound) (hm : ¬ mode ≤ t.modeOf txn page) :
    (t.approach txn page mode).Covers := by
  intro a p m hw r hr
  rw [graph_approach]
  refine (hc _ _ _ (waits_approach.1 hw) r ((mem_holders_approach h hm).1 hr).1).imp_right ?_
  rintro hb ⟨p, m, hw⟩
  exact hb ⟨p, m, waits_approach.1 hw⟩

/-- A turn forgets nobody if those who wait behind the transaction know of it: it may go on to
wait. -/
theorem turn (hc : t.Covers) (hf : ∀ r ∈ t.holders page, r.txn ≠ txn)
    (hk : ∀ {a p m}, t.Waits a p m → ∀ r ∈ t.holders p, r.txn = txn → r ∈ t.graph.waitingOn a) :
    (t.turn txn page mode).2.Covers := by
  obtain ⟨-, he⟩ | ⟨-, -, he⟩ | ⟨-, -, he⟩ := turn_cases t txn page mode
  · rw [he]
    intro a p m hw r hr
    obtain ⟨ha, hw⟩ := waits_granting.1 hw
    by_cases hx : r.txn = txn
    · exact .inr fun ⟨p, m, hw⟩ => (waits_granting.1 hw).1 hx
    · have hr : r ∈ t.holders p := by
        rw [holders_granting] at hr
        split at hr
        · next hp =>
          rcases List.mem_cons.1 hr with rfl | hr
          · exact absurd rfl hx
          · exact hp ▸ hr
        · exact hr
      refine (hc _ _ _ hw r hr).imp (fun hmem => ?_) fun hb ⟨p, m, hw⟩ => hb ⟨p, m, ?_⟩
      · simpa [ha] using hmem
      · exact (waits_granting.1 hw).2
  · rw [he]
    intro a p m hw r hr
    obtain ⟨ha, hw⟩ := waits_refusing.1 hw
    refine (hc _ _ _ hw r hr).imp (fun hmem => ?_) fun hb ⟨p, m, hw⟩ => hb ⟨p, m, ?_⟩
    · simpa [ha] using hmem
    · exact (waits_refusing.1 hw).2
  · rw [he]
    intro a p m hw r hr
    rw [holders_suspending] at hr
    rcases waits_suspending.1 hw with ⟨ha, hw⟩ | ⟨rfl, rfl, rfl⟩
    · by_cases hx : r.txn = txn
      · exact .inl (by simpa [ha] using hk hw r hr hx)
      · refine (hc _ _ _ hw r hr).imp (fun hmem => ?_) fun hb ⟨p, m, hw⟩ => hb ⟨p, m, ?_⟩
        · simpa [ha] using hmem
        · rcases waits_suspending.1 hw with ⟨-, hw⟩ | ⟨hx', -⟩
          · exact hw
          · exact absurd hx' hx
    · refine .inl ?_
      simp only [graph_suspending, WaitGraph.waitingOn_setWaiting, if_true, List.mem_eraseDups,
        blockers, List.mem_filter, decide_eq_true_eq]
      exact ⟨⟨hr, hf r hr⟩, hf r hr⟩

theorem retry (hc : t.Covers) (h : t.Consistent) {w : Waiter} (hw : w ∈ t.waiting) :
    (t.retry w).2.Covers := by
  refine hc.turn (h.apart (waits_of_mem hw)) fun hw' r hr hx => ?_
  rcases hc _ _ _ hw' r hr with hmem | hb
  · exact hmem
  · exact absurd (hx ▸ (waits_of_mem hw).isBlocked) hb

theorem acquire (h : t.Consistent) (hs : t.Settled) :
    (t.acquire txn page mode).2.Covers := by
  rw [acquire_eq]
  split
  · intro a p m hw r hr
    rw [holders_touch] at hr
    exact h.covers_of_settled hs _ _ _ hw r hr
  · next hm =>
    refine ((h.covers_of_settled hs).approach h.toSound hm).turn (fun r hr => ?_)
      fun hw r hr _ => ?_
    · exact ((mem_holders_approach h.toSound hm).1 hr).2 rfl
    · rw [graph_approach]
      exact ((h.rests (hs.rests (waits_approach.1 hw))).2 r).2
        ((mem_holders_approach h.toSound hm).1 hr).1

theorem release (hc : t.Covers) (h : t.Consistent) : (t.release txn page).Covers := by
  rcases release_cases t txn page with ⟨-, he⟩ | he
  · rw [he]
    exact hc
  · rw [he]
    intro a p m hw r hr
    rw [holders_releasing] at hr
    have hmem : r ∈ t.holders p ∧ (p = page → r.txn ≠ txn) := by
      split at hr
      · next hp => simpa [hp] using List.mem_filter.1 hr
      · next hp => exact ⟨hr, fun he => absurd he hp⟩
    refine (hc _ _ _ (waits_releasing.1 hw) r hmem.1).imp (fun hin => ?_)
      fun hb ⟨p, m, hw⟩ => hb ⟨p, m, ?_⟩
    · change r ∈ (t.graph.removeHolder txn page).waitingOn a
      rw [WaitGraph.waitingOn_removeHolder, List.mem_filter]
      refine ⟨hin, ?_⟩
      have : r.txn = txn → r.page ≠ page := fun hx hp => hmem.2 (h.page_eq hmem.1 ▸ hp) hx
      simpa [← imp_iff_not_or] using this
    · exact waits_releasing.1 hw

theorem releaseAll (hc : t.Covers) (hi : ¬ t.IsBlocked txn) : (t.releaseAll txn).Covers := by
  intro a p m hw r hr
  have hw := waits_releaseAll.1 hw
  have ha : a ≠ txn := fun ha => hi (ha ▸ hw.isBlocked)
  rw [holders_releaseAll, List.mem_filter] at hr
  refine (hc _ _ _ hw r hr.1).imp (fun hin => ?_) fun hb ⟨p, m, hw⟩ =>
    hb ⟨p, m, waits_releaseAll.1 hw⟩
  change r ∈ (t.graph.purge txn).waitingOn a
  rw [WaitGraph.waitingOn_purge, if_neg ha]
  exact List.mem_filter.2 ⟨hin, hr.2⟩

end Covers

/-- In a run whose requests wait until all turns are taken, nobody who waits is forgotten. -/
theorem Reachable.covers (h : Reachable Settled t) : t.Covers := by
  induction h with
  | empty => exact fun _ _ _ hw => absurd hw not_waits_empty
  | acquire h hs _ page mode _ => exact Covers.acquire h.consistent hs
  | release h _ txn page ih => exact ih.release h.consistent
  | releaseAll h _ hi ih => exact ih.releaseAll hi
  | retry h hw ih => exact ih.retry h.consistent hw

/-- If every request waits until all turns are taken that are due: a request is only refused if some
holder of its page is in its way and waits, over others, for the transaction that asks; it is given
nothing then, and does not wait. A request that has been let wait is never refused. -/
theorem Reachable.refused_in_circle (h : Reachable Settled t) :
    (∀ txn page mode, t.Settled → ¬ t.IsBlocked txn → (t.acquire txn page mode).1 = .deadlock →
      ((t.acquire txn page mode).2.admits txn page mode = false ∧
        ∃ r ∈ (t.acquire txn page mode).2.holders page, r.txn ≠ txn ∧
          (mode = .exclusive ∨ r.mode = .exclusive) ∧
          TransGen (t.acquire txn page mode).2.WaitsFor r.txn txn) ∧
      (∀ p r, r ∈ (t.acquire txn page mode).2.holders p → r ∈ t.holders p) ∧
      ¬ (t.acquire txn page mode).2.IsBlocked txn ∧
      (t.acquire txn page mode).2.graph.isWaiting txn = false) ∧
    ∀ w ∈ t.waiting, (t.retry w).1 ≠ .deadlock := by
  refine ⟨fun txn page mode hs hi hd => ?_, fun w hw => h.consistent.retry_ne_deadlock h.covers hw⟩
  have hc := h.consistent
  have hm : ¬ mode ≤ t.modeOf txn page := by
    intro hm
    rw [acquire_eq, if_pos hm] at hd
    cases hd
  rw [acquire_eq, if_neg hm] at hd ⊢
  have hu := hc.approach hm
  obtain ⟨-, he⟩ | ⟨ha, hcyc, he⟩ | ⟨-, -, he⟩ :=
    turn_cases (t.approach txn page mode) txn page mode
  · rw [he] at hd
    cases hd
  · rw [he]
    have hidle : ¬ ((t.approach txn page mode).refusing txn page).IsBlocked txn :=
      fun ⟨p, m, hw⟩ => (waits_refusing.1 hw).1 rfl
    rw [graph_approach] at hcyc
    obtain ⟨r, hr, hne, way⟩ := hc.circle_of_refusal hs hi hm hcyc
    refine ⟨⟨(admits_refusing).trans ha, r, hr, hne, ?_, ?_⟩, fun p r hr => ?_, hidle, ?_⟩
    · exact hu.toSound.exclusive_of_not_admits ha hr
    · refine TransGen.mono ?_ _ _ way
      rintro a b ⟨p, m, hw, r, hr, rfl⟩
      have ha : a ≠ txn := fun ha => hi ⟨p, m, ha ▸ waits_approach.1 hw⟩
      exact ⟨p, m, waits_refusing.2 ⟨ha, hw⟩, r, hr, rfl⟩
    · exact ((mem_holders_approach hc.toSound hm).1 hr).1
    · simp
  · rw [he] at hd
    cases hd

theorem refused_in_circle_crossing :
    (crossing.acquire 2 ⟨0, 0⟩ .exclusive).1 = .deadlock ∧
      ∃ r ∈ (crossing.acquire 2 ⟨0, 0⟩ .exclusive).2.holders ⟨0, 0⟩, r.txn ≠ 2 ∧
        TransGen (crossing.acquire 2 ⟨0, 0⟩ .exclusive).2.WaitsFor r.txn 2 := by
  have hd : (crossing.acquire 2 ⟨0, 0⟩ .exclusive).1 = .deadlock := by cbv
  have hi : ¬ crossing.IsBlocked 2 := by
    rintro ⟨p, m, w, hw, he, -⟩
    rw [waiting_crossing, List.mem_singleton] at hw
    subst hw
    cases he
  obtain ⟨⟨-, r, hr, hne, -, way⟩, -⟩ :=
    (Reachable.refused_in_circle (reachable_crossing fun _ hs => hs)).1 2 ⟨0, 0⟩ .exclusive
      settled_crossing hi hd
  exact ⟨hd, r, hr, hne, way⟩

end RowStore.LockTable
