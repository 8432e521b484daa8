import Mathlib.Logic.Relation
import RowStore.Lock.WaitGraph

/-!
# Circles of the waits-for graph

`WaitGraph.hasCycleFrom` walks along the graph and follows the records of every transaction once.
Here it is compared with the relation that the walk explores: `hasCycleFrom_iff` says that the walk
finds its way back exactly if there is one. No step of a `Walk` changes whether it can get back to
where it started, in whatever order it follows the records, and the search is one such walk.

The rest of the file is about graphs without any circle. Taking records away makes none, and a
transaction that begins to wait makes none unless the walk from it finds one, so a graph that is
only changed after such a walk never has a circle.
-/

namespace RowStore.WaitGraph

open Relation (TransGen)

/-- A transaction waits behind a record of another. -/
def Edge (g : WaitGraph) (a b : TxnId) : Prop := ∃ r ∈ g.waitingOn a, r.txn = b

/-- No transaction waits, over any number of others, behind itself. -/
def Acyclic (g : WaitGraph) : Prop := ∀ txn, ¬ TransGen g.Edge txn txn

/-! ## The walk -/

/-- The map leads from a transaction to the holder of one of its records. -/
def Follows (unseen : Std.TreeMap TxnId (List LockRecord)) (a b : TxnId) : Prop :=
  ∃ records, unseen[a]? = some records ∧ ∃ r ∈ records, r.txn = b

theorem follows_edges (g : WaitGraph) : Follows g.edges = g.Edge := by
  funext a b
  unfold Follows Edge waitingOn
  cases g.edges[a]? with
  | none => simp
  | some records => simp

/-- The records that are still followed after those of one transaction have been. -/
theorem follows_erase {unseen : Std.TreeMap TxnId (List LockRecord)} {txn a b : TxnId} :
    Follows (unseen.erase txn) a b ↔ a ≠ txn ∧ Follows unseen a b := by
  unfold Follows
  by_cases h : a = txn
  · simp [h]
  · simp [Std.TreeMap.getElem?_erase, h, Ne.symm h]

/-- A way to `start` can be cut where it last leaves a transaction: from there on it gets by
without that transaction's records. -/
theorem cut_way {unseen : Std.TreeMap TxnId (List LockRecord)} {txn start b : TxnId}
    {records : List LockRecord} (h : unseen[txn]? = some records)
    (hb : TransGen (Follows unseen) b start) :
    TransGen (Follows (unseen.erase txn)) b start ∨ (∃ r ∈ records, r.txn = start) ∨
      ∃ r ∈ records, TransGen (Follows (unseen.erase txn)) r.txn start := by
  have next : ∀ {c d}, Follows unseen c d → c = txn → ∃ r ∈ records, r.txn = d := by
    rintro c d ⟨rs, hrs, hd⟩ rfl
    rw [h] at hrs
    exact Option.some.inj hrs ▸ hd
  induction hb using TransGen.head_induction_on with
  | @single c hc =>
    by_cases he : c = txn
    · exact .inr (.inl (next hc he))
    · exact .inl (.single (follows_erase.2 ⟨he, hc⟩))
  | @head c d hc _ ih =>
    rcases ih with ih | ih
    · by_cases he : c = txn
      · obtain ⟨r, hr, rfl⟩ := next hc he
        exact .inr (.inr ⟨r, hr, ih⟩)
      · exact .inl (.head (follows_erase.2 ⟨he, hc⟩) ih)
    · exact .inr ih

/-- Where a walk stands. -/
structure Walk where
  /-- The records that have not been followed yet. -/
  unseen : Std.TreeMap TxnId (List LockRecord)
  /-- The transactions from which the walk can go on. -/
  pending : List TxnId

namespace Walk

variable {start : TxnId} {w w' : Walk} {answer : Bool}

/-- A step of a walk that looks for `start`. It is open which pending transaction comes next, and
in which order those that it waits for become pending. -/
inductive Step (start : TxnId) : Walk → Walk → Prop
  /-- There is nothing to follow from the transaction, or nothing any more. -/
  | pass {unseen : Std.TreeMap TxnId (List LockRecord)} {pending rest : List TxnId} {txn : TxnId}
    (pick : pending.Perm (txn :: rest)) (h : unseen[txn]? = none) :
    Step start ⟨unseen, pending⟩ ⟨unseen, rest⟩
  /-- The transaction's records are followed, and `start` has none of them. Who has one becomes
  pending, unless the own records of that one have been followed. -/
  | follow {unseen : Std.TreeMap TxnId (List LockRecord)} {pending rest next : List TxnId}
    {txn : TxnId} {records : List LockRecord} (pick : pending.Perm (txn :: rest))
    (h : unseen[txn]? = some records) (away : ∀ r ∈ records, r.txn ≠ start)
    (old : ∀ t ∈ rest, t ∈ next)
    (new : ∀ r ∈ records, r.txn ∈ next ∨ (unseen.erase txn)[r.txn]? = none)
    (only : ∀ t ∈ next, t ∈ rest ∨ ∃ r ∈ records, r.txn = t) :
    Step start ⟨unseen, pending⟩ ⟨unseen.erase txn, next⟩

/-- Some record to be followed next is one of `start`. -/
def Finds (start : TxnId) (w : Walk) : Prop := ∃ txn ∈ w.pending, Follows w.unseen txn start

/-- The walk can still get to `start`. -/
def Leads (start : TxnId) (w : Walk) : Prop :=
  ∃ txn ∈ w.pending, TransGen (Follows w.unseen) txn start

/-- The walk can end with the answer. -/
inductive Ends (start : TxnId) : Walk → Bool → Prop
  /-- It has found a record of `start`. -/
  | found {w : Walk} (h : w.Finds start) : Ends start w true
  /-- It has nowhere to go on from. -/
  | exhausted {unseen : Std.TreeMap TxnId (List LockRecord)} : Ends start ⟨unseen, []⟩ false
  /-- It ends with the answer after a step. -/
  | step {w w' : Walk} {answer : Bool} (h : Step start w w') (he : Ends start w' answer) :
    Ends start w answer

/-- A step gives up no way to `start`, and opens none. -/
theorem Step.leads_iff (h : Step start w w') : w.Leads start ↔ w'.Leads start := by
  cases h with
  | pass pick h =>
    constructor
    · rintro ⟨a, ha, way⟩
      rcases List.mem_cons.1 (pick.mem_iff.1 ha) with rfl | ha
      · -- nothing leads on from a transaction without records
        obtain ⟨c, ⟨rs, hrs, -⟩, -⟩ := TransGen.head'_iff.1 way
        cases h.symm.trans hrs
      · exact ⟨a, ha, way⟩
    · rintro ⟨a, ha, way⟩
      exact ⟨a, pick.mem_iff.2 (List.mem_cons_of_mem _ ha), way⟩
  | @follow unseen _ rest next txn records pick h away old new only =>
    constructor
    · rintro ⟨a, ha, way⟩
      rcases cut_way h way with hw | ⟨r, hr, hs⟩ | ⟨r, hr, hw⟩
      · rcases List.mem_cons.1 (pick.mem_iff.1 ha) with rfl | ha
        · -- the way would have to leave `txn` without its records
          obtain ⟨c, hc, -⟩ := TransGen.head'_iff.1 hw
          exact absurd rfl (follows_erase.1 hc).1
        · exact ⟨a, old a ha, hw⟩
      · exact absurd hs (away r hr)
      · rcases new r hr with hn | hn
        · exact ⟨r.txn, hn, hw⟩
        · obtain ⟨c, ⟨rs, hrs, -⟩, -⟩ := TransGen.head'_iff.1 hw
          cases hn.symm.trans hrs
    · rintro ⟨a, ha, way⟩
      have lift : TransGen (Follows unseen) a start :=
        TransGen.mono (fun _ _ hf => (follows_erase.1 hf).2) a start way
      rcases only a ha with ha | ⟨r, hr, rfl⟩
      · exact ⟨a, pick.mem_iff.2 (List.mem_cons_of_mem _ ha), lift⟩
      · exact ⟨txn, pick.mem_iff.2 (List.mem_cons_self ..), .head ⟨records, h, r, hr, rfl⟩ lift⟩

/-- However a walk goes, its answer is whether it could get to `start`. -/
theorem Ends.eq_true_iff (h : w.Ends start answer) : answer = true ↔ w.Leads start := by
  induction h with
  | found h =>
    obtain ⟨a, ha, hf⟩ := h
    exact ⟨fun _ => ⟨a, ha, .single hf⟩, fun _ => rfl⟩
  | exhausted =>
    constructor
    · intro h
      cases h
    · rintro ⟨a, ha, -⟩
      cases ha
  | step h _ ih => exact ih.trans h.leads_iff.symm

end Walk

/-- What `reaches` answers is an end of a walk. -/
theorem ends_reaches (start : TxnId) (unseen : Std.TreeMap TxnId (List LockRecord))
    (stack : List TxnId) : Walk.Ends start ⟨unseen, stack⟩ (reaches start unseen stack) := by
  fun_induction reaches start unseen stack with
  | case1 unseen => exact .exhausted
  | case2 unseen txn stack h ih => exact .step (.pass (.refl _) h) ih
  | case3 unseen txn stack records h ih =>
    rw [List.map_attach_eq_pmap, List.pmap_eq_map] at ih
    cases hany : records.any (·.txn = start) with
    | true =>
      obtain ⟨r, hr, hs⟩ := List.any_eq_true.1 hany
      exact .found ⟨txn, List.mem_cons_self .., records, h, r, hr, of_decide_eq_true hs⟩
    | false =>
      have away : ∀ r ∈ records, r.txn ≠ start := by simpa using hany
      refine .step (.follow (.refl _) h away (fun t ht => ?_) (fun r hr => ?_) fun t ht => ?_) ih
      · exact List.mem_append_right _ ht
      · exact .inl (List.mem_append_left _ (List.mem_map_of_mem hr))
      · exact (List.mem_append.1 ht).symm.imp_right List.mem_map.1

/-- The walk gets back to `start` exactly if the unseen records lead there from the stack. -/
theorem reaches_iff {start : TxnId} {unseen : Std.TreeMap TxnId (List LockRecord)}
    {stack : List TxnId} :
    reaches start unseen stack = true ↔ ∃ a ∈ stack, TransGen (Follows unseen) a start :=
  (ends_reaches start unseen stack).eq_true_iff

/-- The walk from a transaction finds a circle exactly if the transaction is on one. -/
theorem hasCycleFrom_iff {g : WaitGraph} {txn : TxnId} :
    g.hasCycleFrom txn = true ↔ TransGen g.Edge txn txn := by
  unfold hasCycleFrom
  rw [reaches_iff, follows_edges]
  simp

/-! ## Graphs without circles -/

theorem acyclic_empty : empty.Acyclic := by
  intro txn h
  obtain ⟨c, ⟨r, hr, -⟩, -⟩ := TransGen.head'_iff.1 h
  simp at hr

/-- A graph with fewer edges has no more circles. -/
theorem Acyclic.mono {g g' : WaitGraph} (h : g.Acyclic) (hsub : ∀ a b, g'.Edge a b → g.Edge a b) :
    g'.Acyclic := fun txn way => h txn (TransGen.mono hsub txn txn way)

theorem Acyclic.clearWaiting {g : WaitGraph} (h : g.Acyclic) (txn : TxnId) :
    (g.clearWaiting txn).Acyclic := by
  refine h.mono ?_
  rintro a b ⟨r, hr, rfl⟩
  rw [waitingOn_clearWaiting] at hr
  split at hr
  · cases hr
  · exact ⟨r, hr, rfl⟩

theorem Acyclic.dropRecords {g : WaitGraph} (h : g.Acyclic) (drop : LockRecord → Bool) :
    (g.dropRecords drop).Acyclic := by
  refine h.mono ?_
  rintro a b ⟨r, hr, rfl⟩
  rw [waitingOn_dropRecords] at hr
  exact ⟨r, (List.mem_filter.1 hr).1, rfl⟩

/-- If the walk from a transaction that begins to wait finds no circle, then there is none: a new
circle would have to pass through that transaction. -/
theorem Acyclic.setWaiting {g : WaitGraph} (h : g.Acyclic) {txn : TxnId}
    {blockers : List LockRecord} (hc : (g.setWaiting txn blockers).hasCycleFrom txn = false) :
    (g.setWaiting txn blockers).Acyclic := by
  have hno : ¬ TransGen (g.setWaiting txn blockers).Edge txn txn := by
    rw [← hasCycleFrom_iff, hc]
    exact Bool.false_ne_true
  have old : ∀ {a b}, a ≠ txn → (g.setWaiting txn blockers).Edge a b → g.Edge a b := by
    rintro a b ha ⟨r, hr, rfl⟩
    rw [waitingOn_setWaiting, if_neg ha] at hr
    exact ⟨r, hr, rfl⟩
  -- a way in the new graph meets `txn` or is a way in the old one
  have split : ∀ {a b}, TransGen (g.setWaiting txn blockers).Edge a b →
      TransGen g.Edge a b ∨
        (a = txn ∨ TransGen (g.setWaiting txn blockers).Edge a txn) ∧
          TransGen (g.setWaiting txn blockers).Edge txn b := by
    intro a b way
    induction way using TransGen.head_induction_on with
    | @single c hc =>
      by_cases he : c = txn
      · exact .inr ⟨.inl he, .single (he ▸ hc)⟩
      · exact .inl (.single (old he hc))
    | @head c d hc way ih =>
      by_cases he : c = txn
      · exact .inr ⟨.inl he, .head (he ▸ hc) way⟩
      · rcases ih with ih | ⟨rfl | hd, hb⟩
        · exact .inl (.head (old he hc) ih)
        · exact .inr ⟨.inr (.single hc), hb⟩
        · exact .inr ⟨.inr (.head hc hd), hb⟩
  intro t way
  rcases split way with way | ⟨rfl | ht, hb⟩
  · exact h t way
  · exact hno hb
  · exact hno (hb.trans ht)

end RowStore.WaitGraph
