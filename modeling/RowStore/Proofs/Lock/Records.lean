import Mathlib.Data.List.Nodup
import RowStore.Lock.Table

/-!
# Locks that stand side by side

The records on a page are *compatible* if there is one for sole use and no other, or if all of them
are shares of different transactions. A table is *sound* if that is so on every page. In a sound
table the mode in which a transaction holds a page says which record it has there, and each change
of the table has one lemma on what it does to the modes.
-/

namespace RowStore

/-- Locks that may be held on a page at the same time: one for sole use, or shares of different
transactions. -/
def Compatible (records : List LockRecord) : Prop :=
  (∃ r, records = [r] ∧ r.mode = .exclusive) ∨
    (∀ r ∈ records, r.mode = .shared) ∧ (records.map (·.txn)).Nodup

namespace Compatible

variable {records : List LockRecord} {r s : LockRecord}

theorem nil : Compatible [] := .inr ⟨by simp, List.nodup_nil⟩

theorem singleton (h : r.mode ≠ .free) : Compatible [r] := by
  cases hm : r.mode with
  | free => exact absurd hm h
  | shared => exact .inr ⟨by simpa using hm, by simp⟩
  | exclusive => exact .inl ⟨r, rfl, hm⟩

theorem filter (h : Compatible records) (p : LockRecord → Bool) :
    Compatible (records.filter p) := by
  rcases h with ⟨r, rfl, hm⟩ | ⟨hs, hn⟩
  · by_cases hp : p r
    · exact .inl ⟨r, by simp [hp], hm⟩
    · simpa [hp] using nil
  · refine .inr ⟨fun r hr => hs r (List.mem_filter.1 hr).1, ?_⟩
    exact hn.sublist (List.filter_sublist.map _)

theorem mode_ne_free (h : Compatible records) (hr : r ∈ records) : r.mode ≠ .free := by
  rcases h with ⟨s, rfl, hm⟩ | ⟨hs, -⟩
  · rw [List.mem_singleton.1 hr, hm]
    decide
  · rw [hs r hr]
    decide

/-- A transaction has one record at most. -/
theorem eq_of_txn_eq (h : Compatible records) (hr : r ∈ records) (hs : s ∈ records)
    (he : r.txn = s.txn) : r = s := by
  rcases h with ⟨x, rfl, -⟩ | ⟨-, hn⟩
  · rw [List.mem_singleton.1 hr, List.mem_singleton.1 hs]
  · exact List.inj_on_of_nodup_map hn hr hs he

/-- Sole use is sole. -/
theorem eq_singleton (h : Compatible records) (hr : r ∈ records) (hm : r.mode = .exclusive) :
    records = [r] := by
  rcases h with ⟨x, rfl, -⟩ | ⟨hs, -⟩
  · rw [List.mem_singleton.1 hr]
  · rw [hs r hr] at hm
    cases hm

/-- A share joins shares of others. -/
theorem cons (h : Compatible records) (hr : r.mode = .shared)
    (hs : ∀ s ∈ records, s.mode ≠ .exclusive) (ht : ∀ s ∈ records, s.txn ≠ r.txn) :
    Compatible (r :: records) := by
  rcases h with ⟨x, rfl, hm⟩ | ⟨hsh, hn⟩
  · exact absurd hm (hs x (List.mem_singleton_self x))
  · refine .inr ⟨List.forall_mem_cons.2 ⟨hr, hsh⟩, List.nodup_cons.2 ⟨?_, hn⟩⟩
    intro hm
    obtain ⟨s, hs, he⟩ := List.mem_map.1 hm
    exact ht s hs he

end Compatible

namespace LockTable

/-- On every page stand records of that page, and they are compatible. -/
structure Sound (t : LockTable) : Prop where
  /-- A record stands on its own page. -/
  page_eq : ∀ {page r}, r ∈ t.holders page → r.page = page
  /-- The records of a page are compatible. -/
  compatible : ∀ page, Compatible (t.holders page)

variable {t u : LockTable} {txn x : TxnId} {page p : PageId} {mode : LockMode}

/-! ## Modes -/

theorem modeOf_eq_exclusive_iff :
    t.modeOf txn page = .exclusive ↔ ⟨txn, .exclusive, page⟩ ∈ t.holders page := by
  unfold modeOf
  split
  · next h => exact ⟨fun _ => h, fun _ => rfl⟩
  · next h => split <;> simp [h]

/-- Tables in which a transaction has the same records on a page agree on its mode. -/
theorem modeOf_congr
    (h : ∀ m, (⟨txn, m, page⟩ : LockRecord) ∈ t.holders page ↔ ⟨txn, m, page⟩ ∈ u.holders page) :
    t.modeOf txn page = u.modeOf txn page := by
  simp only [modeOf, h]

theorem modeOf_eq_free (h : ∀ r ∈ t.holders page, r.txn ≠ txn) : t.modeOf txn page = .free := by
  unfold modeOf
  rw [if_neg fun hm => h _ hm rfl, if_neg fun hm => h _ hm rfl]

/-- Tables with the same holders allow the same. -/
theorem admits_congr (h : t.holders page = u.holders page) :
    t.admits txn page mode = u.admits txn page mode := by
  cases mode <;> simp [admits, h]

namespace Sound

theorem modeOf_of_mem (h : t.Sound) {r : LockRecord} (hr : r ∈ t.holders page) :
    t.modeOf r.txn page = r.mode := by
  have hp := h.page_eq hr
  have only : ∀ {m}, (⟨r.txn, m, page⟩ : LockRecord) ∈ t.holders page → m = r.mode := fun hm =>
    congrArg LockRecord.mode ((h.compatible page).eq_of_txn_eq hm hr rfl)
  have hr' : (⟨r.txn, r.mode, page⟩ : LockRecord) ∈ t.holders page := by
    rw [← hp] at hr ⊢
    exact hr
  unfold modeOf
  split
  · next hx => exact only hx
  · next hx =>
    split
    · next hs => exact only hs
    · next hs =>
      cases hm : r.mode with
      | free => exact absurd hm ((h.compatible page).mode_ne_free hr)
      | shared => exact absurd (hm ▸ hr') hs
      | exclusive => exact absurd (hm ▸ hr') hx

theorem modeOf_eq_free_iff (h : t.Sound) :
    t.modeOf txn page = .free ↔ ∀ r ∈ t.holders page, r.txn ≠ txn := by
  refine ⟨?_, modeOf_eq_free⟩
  rintro hf r hr rfl
  rw [h.modeOf_of_mem hr] at hf
  exact (h.compatible page).mode_ne_free hr hf

/-- Who holds a page for itself alone has the only record on it. -/
theorem holders_of_exclusive (h : t.Sound) (hx : t.modeOf txn page = .exclusive) :
    t.holders page = [⟨txn, .exclusive, page⟩] :=
  (h.compatible page).eq_singleton (modeOf_eq_exclusive_iff.1 hx) rfl

/-- Beside sole use nobody holds the page. -/
theorem modeOf_eq_free_of_ne (h : t.Sound) (hx : t.modeOf txn page = .exclusive) (hne : x ≠ txn) :
    t.modeOf x page = .free := by
  apply modeOf_eq_free
  rw [h.holders_of_exclusive hx]
  intro r hr he
  rw [List.mem_singleton.1 hr] at he
  exact hne he.symm

/-- At most one transaction holds a page for itself alone. -/
theorem eq_of_exclusive (h : t.Sound) (hx : t.modeOf txn page = .exclusive)
    (hy : t.modeOf x page = .exclusive) : x = txn := by
  by_contra hne
  rw [h.modeOf_eq_free_of_ne hx hne] at hy
  cases hy

/-- Sole use is only granted on a page that nobody holds. -/
theorem holders_eq_nil (h : t.Sound) (ha : t.admits txn page .exclusive = true) :
    t.holders page = [] := by
  refine List.eq_nil_iff_forall_not_mem.2 fun r hr => ?_
  exact (h.compatible page).mode_ne_free hr (by simpa using List.all_eq_true.1 ha r hr)

/-- If a request is not allowed, every holder is in its way. -/
theorem exclusive_of_not_admits (h : t.Sound) (ha : t.admits txn page mode = false)
    {r : LockRecord} (hr : r ∈ t.holders page) : mode = .exclusive ∨ r.mode = .exclusive := by
  cases mode with
  | free => cases ha
  | shared =>
    obtain ⟨s, hs, hm⟩ := List.all_eq_false.1 ha
    have hx : s.mode = .exclusive := by
      by_contra hx
      simp [hx] at hm
    rw [(h.compatible page).eq_singleton hs hx, List.mem_singleton] at hr
    exact .inr (hr ▸ hx)
  | exclusive => exact .inl rfl

end Sound

/-! ## Changes -/

theorem Sound.empty : LockTable.empty.Sound where
  page_eq hr := by simp at hr
  compatible _ := by simpa using Compatible.nil

theorem Sound.congr (h : t.Sound) (he : ∀ p, u.holders p = t.holders p) : u.Sound where
  page_eq hr := h.page_eq (he _ ▸ hr)
  compatible p := he p ▸ h.compatible p

theorem Sound.drop (h : t.Sound) (txn : TxnId) (page : PageId) : (t.drop txn page).Sound where
  page_eq {p r} hr := by
    rw [holders_drop] at hr
    split at hr
    · next hp => exact hp ▸ h.page_eq (List.mem_filter.1 hr).1
    · exact h.page_eq hr
  compatible p := by
    rw [holders_drop]
    split
    · exact (h.compatible page).filter _
    · exact h.compatible p

theorem Sound.releaseAll (h : t.Sound) (txn : TxnId) : (t.releaseAll txn).Sound where
  page_eq hr := by
    rw [holders_releaseAll] at hr
    exact h.page_eq (List.mem_filter.1 hr).1
  compatible p := by
    rw [holders_releaseAll]
    exact (h.compatible p).filter _

/-- A lock that the holders allow may be granted to a transaction that has none on the page. -/
theorem Sound.grant (h : t.Sound) (hf : ∀ r ∈ t.holders page, r.txn ≠ txn) (hm : mode ≠ .free)
    (ha : t.admits txn page mode = true) : (t.grant txn page mode).Sound where
  page_eq {p r} hr := by
    rw [holders_grant] at hr
    split at hr
    · next hp =>
      rcases List.mem_cons.1 hr with rfl | hr
      · exact hp.symm
      · exact hp ▸ h.page_eq hr
    · exact h.page_eq hr
  compatible p := by
    rw [holders_grant]
    split
    · cases mode with
      | free => exact absurd rfl hm
      | shared =>
        refine (h.compatible page).cons rfl (fun r hr => ?_) hf
        have := List.all_eq_true.1 ha r hr
        simpa [hf r hr] using this
      | exclusive =>
        rw [h.holders_eq_nil ha]
        exact .singleton (by simp)
    · exact h.compatible p

theorem modeOf_drop (t : LockTable) (txn x : TxnId) (page p : PageId) :
    (t.drop txn page).modeOf x p =
      if x = txn ∧ p = page then .free else t.modeOf x p := by
  split
  · next h =>
    obtain ⟨rfl, rfl⟩ := h
    apply modeOf_eq_free
    intro r hr
    rw [holders_drop, if_pos rfl] at hr
    simpa using (List.mem_filter.1 hr).2
  · next h =>
    apply modeOf_congr
    intro m
    rw [holders_drop]
    split
    · next hp =>
      subst hp
      simp [show x ≠ txn from fun hx => h ⟨hx, rfl⟩]
    · rfl

theorem modeOf_releaseAll (t : LockTable) (txn x : TxnId) (p : PageId) :
    (t.releaseAll txn).modeOf x p = if x = txn then .free else t.modeOf x p := by
  split
  · next h =>
    apply modeOf_eq_free
    intro r hr
    rw [holders_releaseAll] at hr
    simpa [h] using (List.mem_filter.1 hr).2
  · next h =>
    apply modeOf_congr
    intro m
    simp [h]

theorem modeOf_grant (hf : ∀ r ∈ t.holders page, r.txn ≠ txn) (hm : mode ≠ .free) :
    (t.grant txn page mode).modeOf x p =
      if x = txn ∧ p = page then mode else t.modeOf x p := by
  split
  · next h =>
    obtain ⟨rfl, rfl⟩ := h
    have none : ∀ m, (⟨x, m, p⟩ : LockRecord) ∉ t.holders p := fun m hr => hf _ hr rfl
    cases mode with
    | free => exact absurd rfl hm
    | shared => simp [modeOf, none]
    | exclusive => simp [modeOf]
  · next h =>
    apply modeOf_congr
    intro m
    rw [holders_grant]
    split
    · next hp =>
      subst hp
      simp [show x ≠ txn from fun hx => h ⟨hx, rfl⟩]
    · rfl

@[simp] theorem modeOf_touch (t : LockTable) (page p : PageId) (txn : TxnId) :
    (t.touch page).modeOf txn p = t.modeOf txn p := by
  simp [modeOf]

end LockTable

end RowStore
