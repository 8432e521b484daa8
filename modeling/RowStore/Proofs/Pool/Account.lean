import RowStore.Proofs.Log.History
import RowStore.Proofs.Pool.Completion
import RowStore.Proofs.Pool.Trace

/-!
# What a commit puts into the log

If the log does not fail, a commit puts one record into it for each page that the transaction has
changed, and nothing else. In an engine the cached pages of which are in step with the stored ones,
such a record goes from the bytes that are stored of the page to those that transactions see of it.
-/

namespace RowStore

open UpdateRecord

/-- The bytes of a page as its table's file has them. -/
def Backing.image (b : Backing) (page : PageId) : Option Bytes := (b.stored page).map (·.data)

/-- The bytes of a page as transactions see them. -/
def Engine.shown (e : Engine) (page : PageId) : Option Bytes := (e.seen page).map (·.data)

namespace Engine

variable {e e' : Engine} {txn x : TxnId} {page : PageId} {p q : Page} {r : UpdateRecord}
  {pages : List PageId}

theorem page_of_pending? (h : e.pending? page = some r) : r.page = page := by
  obtain ⟨q, txn, -, -, rfl⟩ := pending?_eq_some_iff.1 h
  rfl

/-- Of the pending changes of some pages, a page has at most its own. -/
theorem ofPage_filterMap_pending? (hn : pages.Nodup) (page : PageId) :
    ofPage page (pages.filterMap e.pending?) =
      if page ∈ pages then (e.pending? page).toList else [] := by
  induction pages with
  | nil => rfl
  | cons first pages ih =>
    obtain ⟨hfirst, hrest⟩ := List.nodup_cons.1 hn
    by_cases hp : page = first
    · subst hp
      rw [if_pos List.mem_cons_self]
      rw [if_neg hfirst] at ih
      cases hr : e.pending? page with
      | none => rw [List.filterMap_cons_none hr, ih hrest]; rfl
      | some r =>
        rw [List.filterMap_cons_some hr, ofPage_cons_self (page_of_pending? hr), ih hrest]
        rfl
    · have hmem : page ∈ first :: pages ↔ page ∈ pages := by simp [hp]
      simp only [hmem]
      cases hr : e.pending? first with
      | none => rw [List.filterMap_cons_none hr, ih hrest]
      | some r =>
        have hne : r.page ≠ page := fun h => hp (h.symm.trans (page_of_pending? hr))
        rw [List.filterMap_cons_some hr, ofPage_cons_of_ne hne, ih hrest]

/-- Of the pending changes of some pages, no two are of the same page. -/
theorem nodup_page_filterMap_pending? (hn : pages.Nodup) :
    ((pages.filterMap e.pending?).map (·.page)).Nodup := by
  rw [List.map_filterMap]
  refine hn.filterMap fun page pg b hb hb' => ?_
  obtain ⟨r, hr, rfl⟩ := Option.map_eq_some_iff.1 hb
  obtain ⟨r', hr', he⟩ := Option.map_eq_some_iff.1 hb'
  rw [← page_of_pending? hr, ← page_of_pending? hr', he]

namespace Coherent

/-- A change that is pending goes from the stored bytes to those that transactions see, and who has
made it holds the page for itself alone. -/
theorem of_pending? (h : e.Coherent) (hr : e.pending? page = some r) :
    e.locks.modeOf r.txn page = .exclusive ∧ e.image page = some r.before ∧
      e.shown page = some r.after ∧ r.after.length = r.before.length := by
  obtain ⟨q, txn, hq, hd, rfl⟩ := pending?_eq_some_iff.1 hr
  obtain ⟨p, hp, hv⟩ := h.version hq
  refine ⟨h.owner hq hd, ?_, ?_, ?_⟩
  · rw [Backing.image, hp, hv.before]
    rfl
  · rw [shown, seen_of_cached hq]
    rfl
  · rw [hv.before]
    exact hv.size

/-- Of a page without a pending change, transactions see what is stored. -/
theorem seen_of_pending?_eq_none (h : e.Coherent) (hr : e.pending? page = none) :
    e.seen page = e.stored page :=
  h.seen_of_clean fun hq => pending?_eq_none_iff.1 hr hq

/-- If the log does not fail, a commit settles the pages that the transaction holds for itself alone
and gives all locks back. The log has one new record for each of these pages that has been
changed. -/
theorem commit_eq_ok (h : e.Coherent) (hr : e.journal.Reliable) (txn : TxnId) :
    ∃ e', e.commit txn = (.ok (), e'.releaseAll txn) ∧ e.Settles (e.held txn) e' ∧
      e'.journal.records = e.journal.records ++ (e.held txn).filterMap e.pending? := by
  obtain ⟨events, hund, htr⟩ := traces_commit e txn
  rcases h.commit_cases txn with ⟨e', hc, hs⟩ | ⟨err, e', done, -, -, -, hnot⟩
  · rw [hc] at hund htr
    exact ⟨e', hc, hs, hund.records.trans (congrArg _ htr.records)⟩
  · exact absurd hr hnot

end Coherent

end Engine

end RowStore
