import Mathlib.Logic.Function.Basic
import RowStore.Log.Journal

/-!
# Histories of pages

The records of a page form a *chain* if each of them goes on where the one before has left the page.
A log is a full *history* if the records of every page form a chain from the bytes that the page had
at first, or from zeros if it has come up since, to those that it has now.

From such a log either state can be had from the other: redoing all records in order turns the first
bytes of the pages into the present ones, and undoing them from the last to the first turns the
present bytes into the first.
-/

namespace RowStore

open UpdateRecord

variable {records more : List UpdateRecord} {page : PageId} {first last : Bytes} {r : UpdateRecord}
  {f g : PageId → Option Bytes}

namespace UpdateRecord

/-- The records lead from one image of a page to another. -/
inductive Chain : Bytes → List UpdateRecord → Bytes → Prop
  /-- Without records the image stays the same. -/
  | nil {image : Bytes} : Chain image [] image
  /-- A record takes its image before to its image after. -/
  | cons {r : UpdateRecord} {records : List UpdateRecord} {last : Bytes}
    (h : Chain r.after records last) : Chain r.before (r :: records) last

theorem Chain.eq_of_nil (h : Chain first [] last) : first = last := by
  cases h
  rfl

theorem Chain.concat (h : Chain first records last) (hr : r.before = last) :
    Chain first (records ++ [r]) r.after := by
  induction h with
  | nil => exact hr ▸ .cons .nil
  | cons _ ih => exact .cons (ih hr)

/-- The records of a page, in order. -/
def ofPage (page : PageId) (records : List UpdateRecord) : List UpdateRecord :=
  records.filter (·.page = page)

@[simp] theorem ofPage_nil (page : PageId) : ofPage page [] = [] := rfl

theorem ofPage_append (page : PageId) (records more : List UpdateRecord) :
    ofPage page (records ++ more) = ofPage page records ++ ofPage page more :=
  List.filter_append ..

theorem ofPage_cons_self (h : r.page = page) :
    ofPage page (r :: records) = r :: ofPage page records :=
  List.filter_cons_of_pos (by simpa using h)

theorem ofPage_cons_of_ne (h : r.page ≠ page) : ofPage page (r :: records) = ofPage page records :=
  List.filter_cons_of_neg (by simpa using h)

/-! ## Going over the records -/

/-- The bytes of the pages after the records, in order, have been made to hold. -/
def redo (records : List UpdateRecord) (f : PageId → Option Bytes) : PageId → Option Bytes :=
  records.foldl (fun f r => Function.update f r.page (some r.after)) f

/-- The bytes of the pages after the records, from the last to the first, have been taken back. -/
def undo (records : List UpdateRecord) (f : PageId → Option Bytes) : PageId → Option Bytes :=
  records.foldr (fun r f => Function.update f r.page (some r.before)) f

theorem redo_of_ofPage_eq_nil (h : ofPage page records = []) : redo records f page = f page := by
  induction records generalizing f with
  | nil => rfl
  | cons r records ih =>
    have hr : r.page ≠ page := by
      intro hr
      rw [ofPage_cons_self hr] at h
      cases h
    rw [ofPage_cons_of_ne hr] at h
    exact (ih h).trans (Function.update_of_ne (Ne.symm hr) ..)

theorem undo_of_ofPage_eq_nil (h : ofPage page records = []) : undo records f page = f page := by
  induction records with
  | nil => rfl
  | cons r records ih =>
    have hr : r.page ≠ page := by
      intro hr
      rw [ofPage_cons_self hr] at h
      cases h
    rw [ofPage_cons_of_ne hr] at h
    exact (Function.update_of_ne (Ne.symm hr) ..).trans (ih h)

/-- Redoing the records of a chain leads to its last image. -/
theorem redo_of_chain (h : Chain first (ofPage page records) last) (hf : f page = some first) :
    redo records f page = some last := by
  induction records generalizing f first with
  | nil =>
    cases h
    exact hf
  | cons r records ih =>
    by_cases hr : r.page = page
    · rw [ofPage_cons_self hr] at h
      cases h with
      | cons h =>
        refine ih h ?_
        rw [← hr]
        exact Function.update_self ..
    · rw [ofPage_cons_of_ne hr] at h
      exact ih h ((Function.update_of_ne (Ne.symm hr) ..).trans hf)

/-- Of a page that has records, it does not matter what it was like before they are redone. -/
theorem redo_congr (h : ofPage page records ≠ []) : redo records f page = redo records g page := by
  induction records generalizing f g with
  | nil => exact absurd rfl h
  | cons r records ih =>
    by_cases hn : ofPage page records = []
    · have hr : r.page = page := by
        by_contra hr
        exact h ((ofPage_cons_of_ne hr).trans hn)
      subst hr
      exact (redo_of_ofPage_eq_nil hn).trans
        ((Function.update_self ..).trans
          ((redo_of_ofPage_eq_nil hn).trans (Function.update_self ..)).symm)
    · exact ih hn

/-- Undoing the records of a chain leads to its first image. -/
theorem undo_of_chain (h : Chain first (ofPage page records) last) (hf : f page = some last) :
    undo records f page = some first := by
  induction records generalizing first with
  | nil =>
    cases h
    exact hf
  | cons r records ih =>
    by_cases hr : r.page = page
    · rw [ofPage_cons_self hr] at h
      cases h with
      | cons h =>
        rw [← hr]
        exact Function.update_self ..
    · rw [ofPage_cons_of_ne hr] at h
      exact (Function.update_of_ne (Ne.symm hr) ..).trans (ih h)

end UpdateRecord

/-! ## Histories -/

/-- The records tell how the pages have come from their first bytes `f` to their present bytes
`g`. A page that has come up since was zeros at first. -/
structure History (f g : PageId → Option Bytes) (records : List UpdateRecord) : Prop where
  /-- The records of a page lead from its first bytes to the present ones. -/
  chain : ∀ {page data}, g page = some data →
    Chain ((f page).getD (Bytes.zeros data.length)) (ofPage page records) data
  /-- There is nothing to tell of a page that there is not. -/
  absent : ∀ {page}, g page = none → f page = none ∧ ofPage page records = []

/-- The first bytes of the pages, with zeros for those that have come up since. -/
def origin (f g : PageId → Option Bytes) (page : PageId) : Option Bytes :=
  (f page).or ((g page).map fun data => Bytes.zeros data.length)

namespace History

theorem refl (f : PageId → Option Bytes) : History f f [] where
  chain hf := by
    rw [hf]
    exact .nil
  absent hf := ⟨hf, rfl⟩

/-- The records of an earlier history and those that have come since tell how the pages have come to
their present bytes, if each page has at most one new record, and changes with this record only, or
comes up with zeros. -/
theorem append {h : PageId → Option Bytes} (hist : History f g records)
    (hnew : ∀ page,
      ofPage page more = [] ∧
        (h page = g page ∨ g page = none ∧ ∃ n, h page = some (Bytes.zeros n)) ∨
      ∃ r, ofPage page more = [r] ∧ g page = some r.before ∧ h page = some r.after ∧
        r.after.length = r.before.length) : History f h (records ++ more) where
  chain {page data} hdata := by
    rw [ofPage_append]
    rcases hnew page with ⟨hm, hsame | ⟨hg, n, hn⟩⟩ | ⟨r, hm, hg, hh, hlen⟩
    · rw [hm, List.append_nil]
      exact hist.chain (hsame ▸ hdata)
    · obtain ⟨hf, hnone⟩ := hist.absent hg
      cases hn.symm.trans hdata
      rw [hf, hnone, hm, Bytes.length_zeros]
      exact .nil
    · cases hh.symm.trans hdata
      rw [hm, hlen]
      exact (hist.chain hg).concat rfl
  absent {page} hnone := by
    rw [ofPage_append]
    rcases hnew page with ⟨hm, hsame | ⟨-, n, hn⟩⟩ | ⟨r, -, -, hh, -⟩
    · rw [hm, List.append_nil]
      exact hist.absent (hsame ▸ hnone)
    · cases hn.symm.trans hnone
    · cases hh.symm.trans hnone

theorem origin_eq_some {data : Bytes} (hg : g page = some data) :
    origin f g page = some ((f page).getD (Bytes.zeros data.length)) := by
  rw [origin, hg]
  cases f page <;> rfl

/-- Redoing all records gives the present bytes. -/
theorem redo_eq (h : History f g records) : redo records (origin f g) = g := by
  funext page
  cases hg : g page with
  | none =>
    obtain ⟨hf, hnone⟩ := h.absent hg
    rw [redo_of_ofPage_eq_nil hnone, origin, hf, hg]
    rfl
  | some data => exact redo_of_chain (h.chain hg) (origin_eq_some hg)

/-- Undoing all records gives the first bytes. -/
theorem undo_eq (h : History f g records) : undo records g = origin f g := by
  funext page
  cases hg : g page with
  | none =>
    obtain ⟨hf, hnone⟩ := h.absent hg
    rw [undo_of_ofPage_eq_nil hnone, origin, hf, hg]
    rfl
  | some data => rw [origin_eq_some hg, undo_of_chain (h.chain hg) hg]

/-- If the pages that have come up since are left out at first, redoing all records brings them up
again, unless they are zeros still. -/
theorem redo_first (h : History f g records) (page : PageId) :
    redo records f page = g page ∨ f page = none ∧ redo records f page = none ∧
      ∃ n, g page = some (Bytes.zeros n) := by
  by_cases hnone : ofPage page records = []
  · rw [redo_of_ofPage_eq_nil hnone]
    cases hg : g page with
    | none => exact .inl (h.absent hg).1
    | some data =>
      have hc := h.chain hg
      rw [hnone] at hc
      have hdata := hc.eq_of_nil
      cases hf : f page with
      | none =>
        rw [hf] at hdata
        exact .inr ⟨rfl, rfl, _, congrArg some hdata.symm⟩
      | some first =>
        rw [hf] at hdata
        exact .inl (congrArg some hdata)
  · left
    rw [redo_congr (g := origin f g) hnone, h.redo_eq]

end History

end RowStore
