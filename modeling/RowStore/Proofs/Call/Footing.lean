import RowStore.Proofs.Call.Passage
import RowStore.Proofs.Pool.Capacity

/-!
# The locks of an insertion on its way

An insertion gives a full page back just if its transaction had no lock on it before. It decides so
by what it has noted when it was about to try the page, and between the note and the decision it may
have had to wait. `Insertion.Footing` compares the locks of the transaction, wherever the insertion
has got to, with those that it had at first: the pages passed are held for sole use if they were
held at all, the page in question is as noted, and all other pages are as they were.

A page that is appended must not be one of those passed. It is not, because the insertion appends a
page when it has found the last of those counted full, this page is stored, and an appended page
comes after all that are stored.
-/

namespace RowStore

open Engine

namespace Insertion

variable {e e' e₀ e₁ : Engine} {i j : Insertion} {q : Page} {first m : Nat} {page : PageId}
  {held : PageId → LockMode} {result : Outcome ⊕ Call} {reply : Reply} {c : Call}

/-! ## Where an insertion stands -/

/-- How a page is held once it has been found full, given how it was held before. -/
def afterProbe (mode : LockMode) : LockMode := if mode = .free then .free else .exclusive

/-- The page is one of those that an insertion into a table of `n` pages has passed when it has got
to the page of number `m`. -/
def Passed (id : TableId) (n m : Nat) (page : PageId) : Prop :=
  page.table = id ∧ page.number < m ∧ page.number < n

/-- How the transaction of an insertion holds pages, given how it held them at first. -/
structure Footing (held : PageId → LockMode) (i : Insertion) (e : Engine) : Prop where
  /-- What is noted of the page in question is so. -/
  noted : i.heldBefore = held i.page
  /-- The pages passed are held if they were, and then for sole use. -/
  passed : ∀ {page}, Passed i.table.id i.count i.number page →
    e.locks.modeOf i.txn page = afterProbe (held page)
  /-- The other pages are held as they were. -/
  others : ∀ {page}, page ≠ i.page → ¬ Passed i.table.id i.count i.number page →
    e.locks.modeOf i.txn page = held page
  /-- Unless the page in question has been appended, it is one of those counted. -/
  lt : i.grown = false → i.number < i.count

theorem not_passed_page (i : Insertion) : ¬ Passed i.table.id i.count i.number i.page :=
  fun h => Nat.lt_irrefl _ h.2.1

/-- A page that has just been locked and read is held for sole use, and the others as before. -/
theorem Reads.modeOf_eq (h : i.Reads e e₁ q) (page : PageId) : e₁.locks.modeOf i.txn page =
    if page = i.page then .exclusive else e.locks.modeOf i.txn page := by
  split
  · next hp => rw [hp, h.exclusive]
  · next hp =>
    obtain ⟨locks, hj, hl⟩ := h.loads
    rw [hl.stays.locks]
    exact hj.modeOf_eq fun hx => hp hx.2

/-- A page that has been found full is given back unless it was held before. -/
theorem Reads.modeOf_leave (h : i.Reads e e₁ q) (page : PageId) :
    (i.leave e₁).locks.modeOf i.txn page =
      if page = i.page then afterProbe i.heldBefore else e.locks.modeOf i.txn page := by
  have hr := h.modeOf_eq page
  unfold leave afterProbe
  split
  · rw [Engine.release, LockTable.modeOf_release, hr]
    by_cases hp : page = i.page
    · rw [if_pos ⟨rfl, hp⟩, if_pos hp]
    · rw [if_neg fun hx => hp hx.2, if_neg hp, if_neg hp]
  · exact hr

namespace Footing

/-- How the page in question is held does not matter. -/
theorem congr (h : Footing held i e) (hl : ∀ {page}, page ≠ i.page →
      e'.locks.modeOf i.txn page = e.locks.modeOf i.txn page) : Footing held i e' where
  noted := h.noted
  passed hp := by
    rw [hl, h.passed hp]
    rintro rfl
    exact i.not_passed_page hp
  others hne hp := (hl hne).trans (h.others hne hp)
  lt := h.lt

/-- After a page has been found full, the insertion stands at another one, with no more than this
page passed in between. -/
theorem trying (h : Footing held i e) (hr : i.Reads e e₁ q) (hg : i.grown = false)
    (hm : i.number < m) (hcount : ∀ k < m, k < i.count → k ≤ i.number) {grown : Bool}
    (hlt : grown = false → m < i.count) (hl : e'.locks = (i.leave e₁).locks) :
    Footing held (i.trying e' m grown) e' := by
  have hpassed : ∀ {page}, Passed i.table.id i.count m page ↔
      page = i.page ∨ Passed i.table.id i.count i.number page := by
    rintro ⟨id, k⟩
    constructor
    · rintro ⟨rfl, hk, hn⟩
      rcases (hcount k hk hn).lt_or_eq with hk | rfl
      · exact .inr ⟨rfl, hk, hn⟩
      · exact .inl rfl
    · rintro (hp | ⟨rfl, hk, hn⟩)
      · rw [hp]
        exact ⟨rfl, hm, h.lt hg⟩
      · exact ⟨rfl, Nat.lt_trans hk hm, hn⟩
  have hmode := fun page => (congrArg (·.modeOf i.txn page) hl).trans (hr.modeOf_leave page)
  have hmode_of_ne : ∀ {page}, page ≠ i.page →
      e'.locks.modeOf i.txn page = e.locks.modeOf i.txn page := fun hne =>
    (hmode _).trans (if_neg hne)
  refine ⟨?_, fun {page} hp => ?_, fun {page} _ hp => ?_, hlt⟩
  · have hne : (⟨i.table.id, m⟩ : PageId) ≠ i.page := fun hx =>
      Nat.ne_of_gt hm (congrArg PageId.number hx)
    exact (hmode_of_ne hne).trans (h.others hne fun hx => Nat.lt_asymm hm hx.2.1)
  · rcases hpassed.1 hp with rfl | hp
    · exact ((hmode _).trans (if_pos rfl)).trans (congrArg afterProbe h.noted)
    · refine (hmode_of_ne ?_).trans (h.passed hp)
      rintro rfl
      exact i.not_passed_page hp
  · have hboth := mt hpassed.2 hp
    rw [not_or] at hboth
    exact (hmode_of_ne hboth.1).trans (h.others hboth.1 hboth.2)

/-- An insertion starts from the locks that its transaction has. -/
theorem begins (h : i.Begins e (.inr j) e') : Footing (e.locks.modeOf j.txn) j e' := by
  cases h with
  | first _ _ hn =>
    exact ⟨rfl, fun hp => absurd hp.2.1 (Nat.not_lt_zero _), fun _ _ => rfl, fun _ => hn⟩
  | append _ hc ha =>
    have hnumber := ha.number_eq hc
    cases ha with
    | grown =>
      exact ⟨rfl, fun hp => absurd (hnumber ▸ hp.2.1) (Nat.not_lt_zero _), fun _ _ => rfl, nofun⟩

/-- Every leg that does not end the insertion takes it to where it stands as before. -/
theorem leg (h : Footing held i e) (hp : Passing e₀ first i e) (hc : e₀.Coherent)
    (ht : e₀.catalog.table i.table.id = .ok i.table) (hl : i.Leg e (.inr j) e') :
    Footing held j e' := by
  cases hl with
  | next hr hf hg hn =>
    exact h.trying hr hg (Nat.lt_succ_self _) (fun k hk _ => Nat.lt_succ_iff.1 hk) (fun _ => hn) rfl
  | append hr hf hg hn ha =>
    have hu := hp.toUnderway.rereads hr.rereads
    have hleft := hu.rereads (i.rereads_leave _)
    cases ha with
    | @grown m disk hgrow _ =>
      rw [hleft.disk_eq hg] at hgrow
      obtain ⟨p, hst, -⟩ := hu.stored_of_cached hc ht hr.cached
      rw [hu.stored_eq_of_not_grown hg] at hst
      have hlt : i.number < m :=
        hc.toWellFormed.number_lt ht hst (Disk.pageCount_of_grow hgrow)
      have hcount : ∀ k < m, k < i.count → k ≤ i.number := fun k _ hk =>
        Nat.lt_succ_iff.1 (Nat.lt_of_lt_of_le hk hn)
      exact h.trying hr hg hlt hcount nofun rfl

end Footing

/-! ## Along the way -/

/-- Marked pages stay, and no page becomes marked. -/
theorem Underway.marked?_eq (h : Underway e₀ i e) (page : PageId) :
    e.cache.marked? page = e₀.cache.marked? page := by
  ext q
  rw [Cache.marked?_eq_some_iff, Cache.marked?_eq_some_iff]
  constructor
  · rintro ⟨hq, hd⟩
    rcases h.cached hq with hq | hp | hp
    · exact ⟨hq, hd⟩
    · exact absurd (clean_of_load hp) hd
    · exact absurd (clean_of_load hp) hd
  · rintro ⟨hq, hd⟩
    exact ⟨h.marked hq hd, hd⟩

theorem Passing.of_locks (h : Passing e₀ first i e) (locks : LockTable) :
    Passing e₀ first i { e with locks } :=
  ⟨h.toUnderway.rereads (.of_locks e locks), h.full, h.lt⟩

/-- An insertion passes pages, with its footing known, up to where it stops. -/
theorem Way.stops_at (hw : i.Way e result e') (hp : Passing e₀ first i e) (hf : Footing held i e)
    (hc : e₀.Coherent) (ht : e₀.catalog.table i.table.id = .ok i.table) :
    ∃ j e₁, (Passing e₀ first j e₁ ∧ Footing held j e₁ ∧ i.Follows j ∧ j.count = i.count) ∧
      j.Stops e₁ result e' := by
  refine hw.stops (p := fun j e₁ =>
    Passing e₀ first j e₁ ∧ Footing held j e₁ ∧ i.Follows j ∧ j.count = i.count) ?_
    ⟨hp, hf, .refl i, rfl⟩
  rintro j k e₁ e₂ ⟨hp, hf, hfol, hcount⟩ hl
  have htj : e₀.catalog.table j.table.id = .ok j.table := hfol.table.symm ▸ ht
  exact ⟨hp.leg hc htj hl, hf.leg hp hc htj hl, hfol.trans hl.follows, hl.count_eq.trans hcount⟩

/-- Where an insertion that has to wait has got to. -/
theorem Way.waits (hw : i.Way e (.inr c) e') (hp : Passing e₀ first i e) (hf : Footing held i e)
    (hc : e₀.Coherent) (ht : e₀.catalog.table i.table.id = .ok i.table) :
    ∃ j, c = .insert j ∧ i.Follows j ∧ j.count = i.count ∧ Passing e₀ first j e' ∧
      Footing held j e' := by
  generalize hr : (Sum.inr c : Outcome ⊕ Call) = result at hw
  obtain ⟨j, e₁, ⟨hp, hf, hfol, hcount⟩, hstop⟩ := hw.stops_at hp hf hc ht
  cases hstop with
  | ended => cases hr
  | @blocked locks hj =>
    cases hr
    refine ⟨j, rfl, hfol, hcount, hp.of_locks locks, hf.congr fun {page} hne => ?_⟩
    exact hj.modeOf_eq fun hx => hne hx.2

/-- What an insertion that has ended with success has come to. -/
structure Arrives (held : PageId → LockMode) (txn : TxnId) (t : Table) (row : Row) (n first : Nat)
    (page : PageId) (e₀ e' : Engine) : Prop where
  /-- The page is one of the table. -/
  table : page.table = t.id
  /-- It is held for sole use. -/
  exclusive : e'.locks.modeOf txn page = .exclusive
  /-- It has the row. -/
  row : ∃ slot, rowsOf e'.seen ⟨page, slot⟩ = some row.encode
  /-- The pages that have been passed were full. -/
  full : ∀ k, first ≤ k → k < page.number → k < n →
    ∃ p, e₀.seen ⟨t.id, k⟩ = some p ∧ p.Full
  /-- They are held if they were, and then for sole use. -/
  passed : ∀ {pg}, Passed t.id n page.number pg → e'.locks.modeOf txn pg = afterProbe (held pg)
  /-- The other pages are held as they were. -/
  others : ∀ {pg}, pg ≠ page → ¬ Passed t.id n page.number pg → e'.locks.modeOf txn pg = held pg
  /-- Transactions see the other pages as they were. -/
  seen : ∀ {pg p}, pg ≠ page → e₀.seen pg = some p → e'.seen pg = some p
  /-- They are marked as they were. -/
  marked : ∀ {pg}, pg ≠ page → e'.cache.marked? pg = e₀.cache.marked? pg

theorem Passing.arrives (hp : Passing e₀ first i e) (hf : Footing held i e) (hc : e₀.Coherent)
    (ht : e₀.catalog.table i.table.id = .ok i.table) (hl : i.Leg e (.inl (.ok reply)) e') :
    Arrives held i.txn i.table i.row i.count first i.page e₀ e' := by
  have hkeyed := hp.toUnderway.keyed fun _ _ hq => hc.id_eq hq
  obtain ⟨e₁, q, q', ⟨page, slot⟩, c, hr, hi, rfl, hpage⟩ := hl.eq_stored hkeyed
  have hu := hp.toUnderway.rereads hr.rereads
  obtain ⟨-, hplace, -, hslot⟩ := Page.slot?_of_insert hi
  have hid : q.id = i.page := hr.keyed hkeyed hr.cached
  obtain rfl : page = i.page := hplace.trans hid
  have hseen := seen_of_page? hpage
  have hmode_of_ne : ∀ {pg}, pg ≠ i.page →
      e₁.locks.modeOf i.txn pg = e.locks.modeOf i.txn pg := fun hne =>
    (hr.modeOf_eq _).trans (if_neg hne)
  exact
    { table := rfl
      exclusive := hr.exclusive
      row := by
        refine ⟨slot, ?_⟩
        rw [rowsOf, hseen, Function.update_self, Option.bind_some, Page.slot?_asStored, hslot,
          Function.update_self]
      full := hp.full
      passed := fun {pg} hpg => by
        refine (hmode_of_ne ?_).trans (hf.passed hpg)
        rintro rfl
        exact i.not_passed_page hpg
      others := fun {pg} hne hpg => (hmode_of_ne hne).trans (hf.others hne hpg)
      seen := fun {pg p} hne hpg => by
        rw [hseen, Function.update_of_ne hne]
        exact (hu.grows_seen hc ht).eq_some hpg
      marked := fun {pg} hne => by
        rw [← hu.marked?_eq pg, Cache.marked?, Cache.marked?, hpage, if_neg hne] }

/-- Where an insertion that ends with success has got to. -/
theorem Way.arrives (hw : i.Way e (.inl (.ok reply)) e') (hp : Passing e₀ first i e)
    (hf : Footing held i e) (hc : e₀.Coherent) (ht : e₀.catalog.table i.table.id = .ok i.table) :
    ∃ page, Arrives held i.txn i.table i.row i.count first page e₀ e' := by
  generalize hr : (Sum.inl (Except.ok reply) : Outcome ⊕ Call) = result at hw
  obtain ⟨j, e₁, ⟨hp, hf, hfol, hcount⟩, hstop⟩ := hw.stops_at hp hf hc ht
  cases hstop with
  | blocked => cases hr
  | ended hl =>
    cases hr
    have ha := hp.arrives hf hc (hfol.table.symm ▸ ht) hl
    rw [hfol.txn, hfol.table, hfol.row, hcount] at ha
    exact ⟨j.page, ha⟩

/-- An insertion that ends with success before it has had to wait. -/
theorem Trip.arrives (h : i.Trip e (.inl (.ok reply)) e') (hg : i.grown = false) (hi : i.count = 0)
    (hc : e.Coherent) (ht : e.catalog.table i.table.id = .ok i.table) :
    ∃ n page, e.disk.pageCount i.table = .ok n ∧
      Arrives (e.locks.modeOf i.txn) i.txn i.table i.row n 0 page e e' := by
  generalize hr : (Sum.inl (Except.ok reply) : Outcome ⊕ Call) = result at h
  cases h with
  | ended hb =>
    cases hr
    cases hb with
    | append _ _ ha => cases ha
  | @way j _ _ _ hb hw =>
    subst hr
    have hfol := hb.follows
    obtain ⟨page, ha⟩ := hw.arrives (.begins hg hb) (.begins hb) hc (hfol.table.symm ▸ ht)
    rw [hfol.txn, hfol.table, hfol.row] at ha
    exact ⟨j.count, page, hb.count_eq hi, ha⟩

/-- An insertion that has to wait for the first time. -/
theorem Trip.waits (h : i.Trip e (.inr c) e') (hg : i.grown = false) (hi : i.count = 0)
    (hc : e.Coherent) (ht : e.catalog.table i.table.id = .ok i.table) :
    ∃ j, c = .insert j ∧ i.Follows j ∧ e.disk.pageCount i.table = .ok j.count ∧
      Passing e 0 j e' ∧ Footing (e.locks.modeOf i.txn) j e' := by
  cases h with
  | way hb hw =>
    have hfol := hb.follows
    obtain ⟨k, rfl, hfol', hcount, hp, hf⟩ :=
      hw.waits (.begins hg hb) (.begins hb) hc (hfol.table.symm ▸ ht)
    rw [hfol.txn] at hf
    exact ⟨k, rfl, hfol.trans hfol', hcount ▸ hb.count_eq hi, hp, hf⟩

end Insertion

end RowStore
