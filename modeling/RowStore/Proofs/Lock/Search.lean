import RowStore.Proofs.Lock.Cycle

/-!
# The search for circles

The waits-for graph starts empty and is changed in four ways. Whatever they have made of it, nobody
waits for themselves, and who is in the graph waits for somebody: that is `WaitGraph.Tidy`.
`WaitGraph.FindsCircles` says in addition what the search of such a graph finds out. It decides
whether a transaction is on a circle, and this does not hang on the order in which it follows the
records: every walk comes to an end, because a step either follows the records of one more
transaction or leaves one behind for good, and the end that it comes to is that of the search.
-/

namespace RowStore.WaitGraph

open Relation (TransGen)

/-! ## Walks end -/

/-- A step follows the records of one more transaction, or has one fewer to go on from. -/
theorem Walk.Step.lt {start : TxnId} {w w' : Walk} (h : Step start w w') :
    Prod.Lex (· < ·) (· < ·) (w'.unseen.size, w'.pending.length)
      (w.unseen.size, w.pending.length) := by
  cases h with
  | pass pick _ =>
    apply Prod.Lex.right
    rw [pick.length_eq, List.length_cons]
    exact Nat.lt_succ_self _
  | follow _ h _ _ _ _ => exact Prod.Lex.left _ _ (size_erase_lt h)

/-- No walk goes on for ever. -/
theorem Walk.wellFounded_step (start : TxnId) :
    WellFounded fun w' w => Walk.Step start w w' := by
  refine Subrelation.wf (fun h => ?_)
    (InvImage.wf (fun w : Walk => (w.unseen.size, w.pending.length))
      (Prod.lex Nat.lt_wfRel Nat.lt_wfRel).wf)
  exact Walk.Step.lt h

/-! ## Changes -/

/-- A change of the waits-for graph. -/
inductive Change
  /-- A transaction begins to wait behind records, and stops waiting behind any others. -/
  | wait (waiter : TxnId) (blockers : List LockRecord)
  /-- A transaction stops waiting. -/
  | clear (waiter : TxnId)
  /-- A transaction is forgotten. -/
  | purge (txn : TxnId)
  /-- A lock of a transaction is gone. -/
  | remove (holder : TxnId) (page : PageId)

/-- The graph after a change. -/
def change (g : WaitGraph) : Change → WaitGraph
  | .wait waiter blockers => g.setWaiting waiter blockers
  | .clear waiter => g.clearWaiting waiter
  | .purge txn => g.purge txn
  | .remove holder page => g.removeHolder holder page

/-- The graph after a series of changes. -/
def changeAll (g : WaitGraph) (changes : List Change) : WaitGraph := changes.foldl change g

/-- Who is in the graph waits behind some record, and behind none of their own. -/
def Tidy (g : WaitGraph) : Prop :=
  ∀ ⦃txn : TxnId⦄ ⦃records : List LockRecord⦄, g.edges[txn]? = some records →
    records ≠ [] ∧ ∀ r ∈ records, r.txn ≠ txn

namespace Tidy

variable {g : WaitGraph} {txn : TxnId}

theorem empty : WaitGraph.empty.Tidy := by
  intro txn records h
  simp [WaitGraph.empty] at h

theorem clearWaiting (h : g.Tidy) (waiter : TxnId) : (g.clearWaiting waiter).Tidy := by
  intro txn records hr
  simp only [WaitGraph.clearWaiting, Std.TreeMap.getElem?_erase] at hr
  split at hr
  · cases hr
  · exact h hr

theorem setWaiting (h : g.Tidy) (waiter : TxnId) (blockers : List LockRecord) :
    (g.setWaiting waiter blockers).Tidy := by
  intro txn records hr
  unfold WaitGraph.setWaiting at hr
  split at hr
  · exact h.clearWaiting waiter hr
  · next hne =>
    rw [Std.TreeMap.getElem?_insert] at hr
    split at hr
    · next he =>
      cases hr
      refine ⟨hne, fun r hmem => ?_⟩
      have hf := List.mem_filter.1 (List.mem_eraseDups.1 hmem)
      rw [← Std.LawfulEqOrd.eq_of_compare he]
      exact of_decide_eq_true hf.2
    · exact h hr

theorem dropRecords (h : g.Tidy) (drop : LockRecord → Bool) : (g.dropRecords drop).Tidy := by
  intro txn records hr
  simp only [WaitGraph.dropRecords, Std.TreeMap.getElem?_filterMap] at hr
  cases ho : g.edges[txn]? with
  | none =>
    rw [ho] at hr
    cases hr
  | some old =>
    simp only [ho, Option.pbind_some] at hr
    split at hr
    · cases hr
    · next hne =>
      cases hr
      exact ⟨hne, fun r hmem => (h ho).2 r (List.mem_filter.1 hmem).1⟩

/-- Every change keeps the graph tidy. -/
theorem change (h : g.Tidy) (c : Change) : (g.change c).Tidy := by
  cases c with
  | wait waiter blockers => exact h.setWaiting waiter blockers
  | clear waiter => exact h.clearWaiting waiter
  | purge txn => exact (h.clearWaiting txn).dropRecords _
  | remove holder page => exact h.dropRecords _

theorem changeAll (h : g.Tidy) (changes : List Change) : (g.changeAll changes).Tidy := by
  induction changes generalizing g with
  | nil => exact h
  | cons c cs ih => exact ih (h.change c)

/-- Nobody waits for themselves. -/
theorem not_edge_self (h : g.Tidy) (txn : TxnId) : ¬ g.Edge txn txn := by
  rw [← follows_edges]
  rintro ⟨records, hr, r, hmem, he⟩
  exact (h hr).2 r hmem he

/-- Who is in the graph waits for somebody. -/
theorem isWaiting_iff (h : g.Tidy) : g.isWaiting txn = true ↔ ∃ other, g.Edge txn other := by
  rw [← follows_edges, isWaiting, Std.TreeMap.contains_eq_isSome_getElem?, Option.isSome_iff_exists]
  constructor
  · rintro ⟨records, hr⟩
    obtain ⟨r, hmem⟩ := List.exists_mem_of_ne_nil records (h hr).1
    exact ⟨r.txn, records, hr, r, hmem, rfl⟩
  · rintro ⟨other, records, hr, -⟩
    exact ⟨records, hr⟩

end Tidy

/-! ## What the search finds out -/

/-- The search tells of every transaction whether it waits, over others, behind itself. -/
structure FindsCircles (g : WaitGraph) : Prop where
  /-- It finds a circle just if there is a way from the transaction back to it. -/
  found_iff : ∀ {txn}, g.hasCycleFrom txn = true ↔ TransGen g.Edge txn txn
  /-- No walk from the transaction goes on for ever. -/
  terminates : ∀ txn, Acc (fun w' w => Walk.Step txn w w') ⟨g.edges, [txn]⟩
  /-- The walks end with the answer of the search, and with no other. -/
  ends_iff : ∀ {txn answer}, Walk.Ends txn ⟨g.edges, [txn]⟩ answer ↔ answer = g.hasCycleFrom txn
  /-- Nobody waits for themselves. -/
  not_self : ∀ txn, ¬ g.Edge txn txn
  /-- Who is in the graph waits for somebody. -/
  waits_iff : ∀ {txn}, g.isWaiting txn = true ↔ ∃ other, g.Edge txn other

/-- A walk from a transaction ends with the answer of the search. -/
theorem ends_iff {g : WaitGraph} {txn : TxnId} {answer : Bool} :
    Walk.Ends txn ⟨g.edges, [txn]⟩ answer ↔ answer = g.hasCycleFrom txn := by
  have hsearch : Walk.Ends txn ⟨g.edges, [txn]⟩ (g.hasCycleFrom txn) := ends_reaches ..
  constructor
  · intro h
    exact Bool.eq_iff_iff.2 (h.eq_true_iff.trans hsearch.eq_true_iff.symm)
  · rintro rfl
    exact hsearch

/-- However the graph has come about, the search of it decides who is on a circle. -/
theorem findsCircles (changes : List Change) : (empty.changeAll changes).FindsCircles :=
  have h := Tidy.empty.changeAll changes
  { found_iff := hasCycleFrom_iff
    terminates := fun txn => (Walk.wellFounded_step txn).apply _
    ends_iff := ends_iff
    not_self := h.not_edge_self
    waits_iff := h.isWaiting_iff }

/-- A circle of others does not count. -/
example : (empty.changeAll [.wait 1 [⟨2, .exclusive, ⟨1, 0⟩⟩], .wait 2 [⟨3, .exclusive, ⟨1, 1⟩⟩],
    .wait 3 [⟨2, .exclusive, ⟨1, 0⟩⟩]]).hasCycleFrom 1 = false := by cbv

end RowStore.WaitGraph
