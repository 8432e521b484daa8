import Mathlib.Data.Option.Basic
import RowStore.Pool.Cache

/-!
# What the cache does to its pages

`Cache.page?` is the view of the cache that leaves out the numbers of the frames. Here is what each
change of the cache does to it. The point about eviction is that a page that has been changed never
leaves: only a clean page is eligible.
-/

namespace RowStore.Cache

variable {c c' : Cache} {page p : PageId} {q : Page} {h : Handle} {f : Frame}

/-! ## Single changes -/

@[simp] theorem page?_empty (capacity : Nat) (choices : Nat → Nat) (page : PageId) :
    (empty capacity choices).page? page = none := by
  simp [page?]

@[simp] theorem page?_update (c : Cache) (page p : PageId) (change : Page → Page) :
    (c.update page change).page? p = if p = page then (c.page? p).map change else c.page? p := by
  rw [page?, frame?_update]
  split
  · rw [page?, Option.map_map, Option.map_map]
    rfl
  · rfl

@[simp] theorem page?_discard (c : Cache) (page p : PageId) :
    (c.discard page).page? p = if p = page then none else c.page? p := by
  rw [page?, frame?_discard]
  split <;> rfl

/-- Nothing is cached after a page has left that was not cached before. -/
theorem page?_of_discard (h : (c.discard page).page? p = some q) : c.page? p = some q := by
  rw [page?_discard] at h
  split at h
  · cases h
  · exact h

/-- A page that is cached after one has been changed is that one, or was cached before. -/
theorem page?_update_eq_some {change : Page → Page}
    (h : (c.update page change).page? p = some q) :
    (p = page ∧ ∃ q₀, c.page? page = some q₀ ∧ q = change q₀) ∨ c.page? p = some q := by
  rw [page?_update] at h
  split at h
  · next hp =>
    obtain ⟨q₀, hq, rfl⟩ := Option.map_eq_some_iff.1 h
    exact .inl ⟨hp, q₀, hp ▸ hq, rfl⟩
  · exact .inr h

@[simp] theorem page?_enter (c : Cache) (q : Page) (p : PageId) :
    (c.enter q).page? p = if p = q.id then some q else c.page? p := by
  rw [page?, frame?_enter]
  split <;> rfl

@[simp] theorem page?_keep (c : Cache) (h : Handle) (p : PageId) :
    (c.keep h).page? p = c.page? p := rfl

@[simp] theorem page?_letGo (c : Cache) (h : Handle) (p : PageId) :
    (c.letGo h).page? p = c.page? p := rfl

theorem page?_eq_some_iff : c.page? page = some q ↔ ∃ f, c.frame? page = some f ∧ f.page = q :=
  Option.map_eq_some_iff

theorem page?_eq_none_iff : c.page? page = none ↔ c.frame? page = none :=
  Option.map_eq_none_iff

/-! ## Eviction -/

theorem mem_clean {x : PageId × Frame} (h : x ∈ c.clean) :
    ∃ q, c.page? x.1 = some q ∧ q.dirtiedBy = none := by
  obtain ⟨hm, hd⟩ := List.mem_filter.1 h
  have hf : c.frame? x.1 = some x.2 := Std.TreeMap.mem_toList_iff_getElem?_eq_some.1 hm
  exact ⟨x.2.page, page?_eq_some_iff.2 ⟨x.2, hf, rfl⟩, by simpa using hd⟩

/-- Only clean pages are eligible. -/
theorem clean_of_mem_eligible (h : page ∈ c.eligible) :
    ∃ q, c.page? page = some q ∧ q.dirtiedBy = none := by
  unfold eligible at h
  split at h
  · obtain ⟨x, hx, rfl⟩ := List.mem_map.1 h
    exact mem_clean hx
  · obtain ⟨x, hx, rfl⟩ := List.mem_map.1 h
    exact mem_clean (List.mem_filter.1 hx).1

/-- An eviction takes one clean page away. -/
theorem evict_eq_ok (h : c.evict = .ok (page, c')) :
    (∃ q, c.page? page = some q ∧ q.dirtiedBy = none) ∧
      c' = { c.discard page with choicesMade := c.choicesMade + 1 } := by
  simp only [evict] at h
  split at h
  · next hl =>
    cases h
    exact ⟨clean_of_mem_eligible (List.get_mem ..), rfl⟩
  · cases h

/-- Room is made by taking at most one clean page away. -/
theorem makeRoom_eq_ok (h : c.makeRoom = .ok c') :
    c' = c ∨ ∃ page q, c.page? page = some q ∧ q.dirtiedBy = none ∧
      c' = { c.discard page with choicesMade := c.choicesMade + 1 } := by
  unfold makeRoom at h
  split at h
  · cases h
    exact .inl rfl
  · obtain ⟨⟨page, c₁⟩, he, h⟩ := bind_eq_ok.1 h
    cases h
    obtain ⟨⟨q, hq, hd⟩, hc⟩ := evict_eq_ok he
    exact .inr ⟨page, q, hq, hd, hc⟩

theorem nextSerial_makeRoom (h : c.makeRoom = .ok c') : c'.nextSerial = c.nextSerial := by
  rcases makeRoom_eq_ok h with rfl | ⟨page, q, -, -, rfl⟩ <;> rfl

theorem add_eq_ok (h : c.add q = .ok c') : ∃ c₁, c.makeRoom = .ok c₁ ∧ c' = c₁.enter q := by
  obtain ⟨c₁, hm, h⟩ := bind_eq_ok.1 h
  cases h
  exact ⟨c₁, hm, rfl⟩

/-! ## Handles -/

theorem read_eq_ok {k : Handle} (h : c.read k = .ok q) : c.page? k.page = some q := by
  unfold read at h
  split at h
  · next f hf =>
    split at h
    · cases h
      exact page?_eq_some_iff.2 ⟨f, hf, rfl⟩
    · cases h
  · cases h

theorem read_of_frame (hf : c.frame? h.page = some f) (hs : f.serial = h.serial) :
    c.read h = .ok f.page := by
  rw [read, hf]
  exact if_pos hs

/-- A handle is good just if it can be read. -/
theorem isValid_iff : c.isValid h = true ↔ ∃ q, c.read h = .ok q := by
  unfold isValid read
  cases hf : c.frame? h.page with
  | none => simp
  | some f => by_cases hs : f.serial = h.serial <;> simp [hs]

/-- A change through a handle acts on the page that the handle reads, marked as changed by the
handle's transaction. -/
theorem write_of_read {α : Type} (ha : h.access = .write) (hq : c.read h = .ok q)
    (change : Page → α × Page) :
    c.write h change = .ok ((change (q.markDirty (some h.txn))).1,
      c.update h.page fun _ => (change (q.markDirty (some h.txn))).2) := by
  simp only [write, ha, if_true, hq, bind, Except.bind, pure, Except.pure]

/-- Nothing is changed through a handle for reading. -/
theorem access_of_write {α : Type} {change : Page → α × Page} {a : α}
    (hw : c.write h change = .ok (a, c')) : h.access = .write := by
  by_contra ha
  simp only [write, ha, if_false] at hw
  cases hw

theorem write_eq_ok {α : Type} {change : Page → α × Page} {a : α}
    (hw : c.write h change = .ok (a, c')) :
    ∃ q, c.read h = .ok q ∧ a = (change (q.markDirty (some h.txn))).1 ∧
      c' = c.update h.page fun _ => (change (q.markDirty (some h.txn))).2 := by
  have ha := access_of_write hw
  cases hq : c.read h with
  | error err =>
    simp only [write, ha, if_true, hq, bind, Except.bind] at hw
    cases hw
  | ok q =>
    rw [write_of_read ha hq] at hw
    cases hw
    exact ⟨q, rfl, rfl, rfl⟩

end RowStore.Cache
