import RowStore.Proofs.Call.Underway

/-!
# Pages that insertions pass

In a coherent engine transactions see the same pages as long as an insertion is under way: which
clean pages are cached makes no difference to them. So the pages that it has passed can be told by
how they were seen when it set out. `Insertion.Passing` says that these were full, all of them from
the one that it tried first, and every leg that does not end the insertion keeps it.
-/

namespace RowStore

open Engine

namespace Engine

variable {e e' : Engine} {page pg : PageId} {p q : Page} {c : Cache}

theorem seen_congr (hb : e'.catalog = e.catalog) (hd : e'.disk = e.disk)
    (hc : ∀ page, e'.cache.page? page = e.cache.page? page) : e'.seen = e.seen := by
  funext page
  rw [seen, seen, hc, Backing.stored, Backing.stored, hb, hd]

/-- If one page has another cached copy then transactions see this page otherwise. -/
theorem seen_of_page? (h : ∀ pg, c.page? pg = if pg = page then some q else e.cache.page? pg) :
    seen { e with cache := c } = Function.update e.seen page (some q.asStored) := by
  funext pg
  rw [Function.update_apply, seen, h]
  split
  · rfl
  · rfl

theorem stored_of_load (h : e.load page = .ok p) : e.stored page = some p :=
  congrArg Except.toOption h

end Engine

namespace Disk

variable {d d' : Disk} {t : Table} {f : PageFile} {number : Nat}

theorem pageCount_eq (hf : d.file? t.file = some f) : d.pageCount t = .ok f.pageCount := by
  rw [pageCount, find_eq_ok.2 hf]
  rfl

/-- The page that a table grows by comes after those that are counted. -/
theorem pageCount_of_grow (h : d.grow t = .ok (number, d')) : d.pageCount t = .ok number := by
  obtain ⟨f, hf, h⟩ := bind_eq_ok.1 h
  cases h
  exact pageCount_eq (find_eq_ok.1 hf)

end Disk

/-- A page that a table has stored is one of those that are counted. -/
theorem Backing.WellFormed.number_lt {b : Backing} {page : PageId} {p : Page} {t : Table} {n : Nat}
    (h : b.WellFormed) (ht : b.catalog.table page.table = .ok t) (hp : b.stored page = some p)
    (hn : b.disk.pageCount t = .ok n) : page.number < n := by
  obtain ⟨u, f, data, hu, hf, hd, -⟩ := h.eq_of_stored hp
  obtain rfl : u = t := Except.ok.inj (hu.symm.trans ht)
  rw [← Except.ok.inj ((Disk.pageCount_eq hf).symm.trans hn)]
  exact (PageFile.page?_eq_some_iff.1 hd).1

namespace Insertion

variable {e e' e₀ e₁ : Engine} {i j : Insertion} {q : Page} {first n : Nat}

/-! ## The pages as transactions see them -/

namespace Underway

/-- The files have the pages that they had, and at most one page without rows more. -/
theorem withDisk (h : Underway e₀ i e) (hc : e₀.Coherent)
    (ht : e₀.catalog.table i.table.id = .ok i.table) : Coherent { e₀ with disk := e.disk } ∧
      Grows e₀.stored (Engine.toBacking { e₀ with disk := e.disk }).stored ∧
      Grows e₀.seen (seen { e₀ with disk := e.disk }) := by
  rcases h.disk with hd | ⟨-, hg, hn⟩
  · rw [hd]
    exact ⟨hc, .refl _, .refl _⟩
  · obtain ⟨hw, hst⟩ := hc.toWellFormed.grow ht hg hn
    obtain ⟨hc', hse⟩ := hc.withDisk hw hst
    exact ⟨hc', hst, hse⟩

theorem stored_eq (h : Underway e₀ i e) :
    e.stored = (Engine.toBacking { e₀ with disk := e.disk }).stored := by
  funext page
  rw [Backing.stored, Backing.stored, h.catalog]

/-- As long as the table has not grown the stored pages are the same. -/
theorem stored_eq_of_not_grown (h : Underway e₀ i e) (hg : i.grown = false) :
    e.stored = e₀.stored := by
  rw [h.stored_eq, h.disk_eq hg]

/-- Apart from the disk only clean pages are different. -/
theorem recaches (h : Underway e₀ i e) (hc : e₀.Coherent)
    (ht : e₀.catalog.table i.table.id = .ok i.table) :
    Recaches { e₀ with disk := e.disk } e.cache where
  changed := h.marked
  known {page q} hq := by
    obtain ⟨-, hst, -⟩ := h.withDisk hc ht
    rcases h.cached hq with hq | hp | hp
    · exact .inl hq
    · exact .inr (hst.eq_some (stored_of_load hp))
    · exact .inr (h.stored_eq ▸ stored_of_load hp)

theorem seen_eq (h : Underway e₀ i e) (hc : e₀.Coherent)
    (ht : e₀.catalog.table i.table.id = .ok i.table) :
    e.seen = seen { e₀ with disk := e.disk } := by
  obtain ⟨hc', -, -⟩ := h.withDisk hc ht
  rw [← hc'.seen_recache (h.recaches hc ht)]
  exact seen_congr h.catalog rfl fun _ => rfl

/-- Transactions see the same pages, and at most one page without rows more. -/
theorem grows_seen (h : Underway e₀ i e) (hc : e₀.Coherent)
    (ht : e₀.catalog.table i.table.id = .ok i.table) : Grows e₀.seen e.seen := by
  rw [h.seen_eq hc ht]
  exact (h.withDisk hc ht).2.2

theorem grows_stored (h : Underway e₀ i e) (hc : e₀.Coherent)
    (ht : e₀.catalog.table i.table.id = .ok i.table) : Grows e₀.stored e.stored := by
  rw [h.stored_eq]
  exact (h.withDisk hc ht).2.1

/-- A cached page is stored. -/
theorem stored_of_cached (h : Underway e₀ i e) (hc : e₀.Coherent)
    (ht : e₀.catalog.table i.table.id = .ok i.table) {page : PageId}
    (hq : e.cache.page? page = some q) : ∃ p, e.stored page = some p ∧ q.VersionOf p := by
  obtain ⟨hc', -, -⟩ := h.withDisk hc ht
  rw [h.stored_eq]
  exact (hc'.recache (h.recaches hc ht)).version hq

/-- The page that has been read was there at first, unless the table has grown by it, and
transactions saw it then as it has been read. -/
theorem seen_of_reads (h : Underway e₀ i e) (hc : e₀.Coherent)
    (ht : e₀.catalog.table i.table.id = .ok i.table) (hg : i.grown = false)
    (hr : i.Reads e e₁ q) : e₀.seen i.page = some q.asStored := by
  have hu := h.rereads hr.rereads
  have hs := hu.seen_eq hc ht
  rw [hu.disk_eq hg] at hs
  exact (congrFun hs i.page).symm.trans (seen_of_cached hr.cached)

end Underway

/-! ## Passing pages -/

/-- An insertion under way that has found all pages full that it has tried before, from the first
one on. -/
structure Passing (e₀ : Engine) (first : Nat) (i : Insertion) (e : Engine) : Prop
    extends Underway e₀ i e where
  /-- The pages before were full. -/
  full : ∀ k, first ≤ k → k < i.number → k < i.count →
    ∃ p, e₀.seen ⟨i.table.id, k⟩ = some p ∧ p.Full
  /-- The page that is about to be tried is one of the table's, or has been appended. -/
  lt : i.grown = false → i.number < i.count

theorem Appends.count_eq (h : i.Appends e (.inr j) e') : j.count = i.count := by
  cases h
  rfl

theorem Leg.count_eq (h : i.Leg e (.inr j) e') : j.count = i.count := by
  cases h with
  | next => rfl
  | append _ _ _ _ ha => exact ha.count_eq

theorem Appends.grown_eq (h : i.Appends e (.inr j) e') : j.grown = true := by
  cases h
  rfl

/-- The appended page comes after those that are counted. -/
theorem Appends.number_eq (h : i.Appends e (.inr j) e') (hc : e.disk.pageCount i.table = .ok n) :
    j.number = n := by
  cases h with
  | grown hg _ => exact Except.ok.inj ((Disk.pageCount_of_grow hg).symm.trans hc)

/-- A page that has just been appended, and is about to be tried. -/
theorem Underway.grow_of_appends (h : Underway e₀ i e) (hg : i.grown = false)
    (ha : i.Appends e (.inr j) e') :
    e₀.disk.grow j.table = .ok (j.number, e'.disk) ∧ j.number + 1 < pageLimit := by
  cases ha with
  | grown hd hn => exact ⟨h.disk_eq hg ▸ hd, hn⟩

/-- An insertion counts the pages that there are when it sets out. -/
theorem Begins.count_eq (h : i.Begins e (.inr j) e') (hi : i.count = 0) :
    e.disk.pageCount i.table = .ok j.count := by
  cases h with
  | first _ hc _ => exact hc
  | append _ hc ha =>
    rw [ha.count_eq, hi]
    exact hc

namespace Passing

theorem begins (hg : i.grown = false) (h : i.Begins e (.inr j) e') : Passing e 0 j e' where
  toUnderway := .begins hg h
  full k _ hk hc := by
    cases h with
    | first => exact absurd hk (Nat.not_lt_zero k)
    | append _ hn ha =>
      rw [ha.number_eq hn] at hk
      exact absurd hk (Nat.not_lt_zero k)
  lt hj := by
    cases h with
    | first _ _ hn => exact hn
    | append _ _ ha => cases ha.grown_eq.symm.trans hj

/-- An insertion that is about to try a page has passed none since. -/
theorem refl (e : Engine) (h : i.grown = false → i.number < i.count) : Passing e i.number i e where
  toUnderway := .refl e i
  full _ hk hn := absurd hk (Nat.not_le.2 hn)
  lt := h

/-- A full page has been passed. -/
theorem full_succ (h : Passing e₀ first i e) (hc : e₀.Coherent)
    (ht : e₀.catalog.table i.table.id = .ok i.table) (hg : i.grown = false)
    (hr : i.Reads e e₁ q) (hf : q.Full) (k : Nat) (hfirst : first ≤ k) (hk : k < i.number + 1)
    (hn : k < i.count) : ∃ p, e₀.seen ⟨i.table.id, k⟩ = some p ∧ p.Full := by
  rcases Nat.lt_succ_iff_lt_or_eq.1 hk with hk | rfl
  · exact h.full k hfirst hk hn
  · exact ⟨_, h.seen_of_reads hc ht hg hr, (Page.full_congr rfl rfl).2 hf⟩

theorem leg (h : Passing e₀ first i e) (hc : e₀.Coherent)
    (ht : e₀.catalog.table i.table.id = .ok i.table) (hl : i.Leg e (.inr j) e') :
    Passing e₀ first j e' := by
  have hu := h.toUnderway.leg hl
  cases hl with
  | next hr hf hg hn => exact ⟨hu, h.full_succ hc ht hg hr hf, fun _ => hn⟩
  | append hr hf hg hn ha =>
    refine ⟨hu, fun k hfirst _ hk => ?_, fun hj => nomatch ha.grown_eq.symm.trans hj⟩
    rw [ha.count_eq] at hk
    rw [ha.follows.table]
    exact h.full_succ hc ht hg hr hf k hfirst (Nat.lt_of_lt_of_le hk hn) hk

end Passing

end Insertion

end RowStore
