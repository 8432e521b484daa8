import Mathlib.Data.List.Perm.Basic
import RowStore.Proofs.Pool.Move

/-!
# Room in the cache

Which page a cache gives up for a new one is up to its choices. Whether it can give up one is not: a
cache that keeps within its capacity has room for a new page just if there are fewer marked pages
than it can hold.

So two caches of the same capacity that hold the same marked pages have room for the same, whatever
else they hold. `Cache.Twins` are such caches. A cache stays its own twin if a clean page enters it
or leaves it, and twins stay twins if the same is done to a marked page of both.
-/

namespace RowStore.Cache

variable {c c' d d' : Cache} {page pg : PageId} {p q : Page} {change : Page → Page}

/-! ## Marked pages -/

/-- The page, if it is marked. -/
def onlyMarked (p : Option Page) : Option Page := p.filter (·.dirtiedBy.isSome)

theorem onlyMarked_of_marked (h : q.dirtiedBy ≠ none) : onlyMarked (some q) = some q :=
  Option.filter_some_pos (Option.isSome_iff_ne_none.2 h)

theorem onlyMarked_of_clean (h : q.dirtiedBy = none) : onlyMarked (some q) = none := by
  simp [onlyMarked, h]

theorem onlyMarked_map_clean (h : ∀ q, (change q).dirtiedBy = none) (p : Option Page) :
    onlyMarked (p.map change) = none := by
  cases p with
  | none => rfl
  | some q => exact onlyMarked_of_clean (h q)

theorem onlyMarked_map_rebase (p : Option Page) :
    onlyMarked (p.map Page.rebase) = (onlyMarked p).map Page.rebase := by
  cases p with
  | none => rfl
  | some q =>
    by_cases hd : q.dirtiedBy = none
    · rw [onlyMarked_of_clean hd, Option.map_some, onlyMarked_of_clean (q := q.rebase) hd,
        Option.map_none]
    · rw [onlyMarked_of_marked hd, Option.map_some, onlyMarked_of_marked (q := q.rebase) hd]

/-- The cached copy of a page, if it is marked. -/
def marked? (c : Cache) (page : PageId) : Option Page := onlyMarked (c.page? page)

theorem marked?_eq_some_iff :
    c.marked? page = some q ↔ c.page? page = some q ∧ q.dirtiedBy ≠ none := by
  simp only [marked?, onlyMarked, Option.filter_eq_some_iff, Option.isSome_iff_ne_none]

theorem marked?_eq_none_iff :
    c.marked? page = none ↔ ∀ q, c.page? page = some q → q.dirtiedBy = none := by
  simp only [marked?, onlyMarked, Option.filter_eq_none_iff, Option.not_isSome_iff_eq_none]

/-- The pages that are marked. -/
def markedPages (c : Cache) : List PageId := c.pages.filter fun page => (c.marked? page).isSome

theorem mem_pages : page ∈ c.pages ↔ ∃ q, c.page? page = some q := by
  rw [pages, Std.TreeMap.mem_keys, ← Std.TreeMap.isSome_getElem?_iff_mem, Option.isSome_iff_exists]
  constructor
  · rintro ⟨f, hf⟩
    exact ⟨f.page, page?_eq_some_iff.2 ⟨f, hf, rfl⟩⟩
  · rintro ⟨q, hq⟩
    obtain ⟨f, hf, -⟩ := page?_eq_some_iff.1 hq
    exact ⟨f, hf⟩

theorem mem_markedPages : page ∈ c.markedPages ↔ (c.marked? page).isSome := by
  rw [markedPages, List.mem_filter, mem_pages, and_iff_right_iff_imp]
  intro h
  obtain ⟨q, hq⟩ := Option.isSome_iff_exists.1 h
  exact ⟨q, (marked?_eq_some_iff.1 hq).1⟩

/-- Caches with the same marked pages have as many of them. -/
theorem length_markedPages_congr (h : ∀ page, c'.marked? page = c.marked? page) :
    c'.markedPages.length = c.markedPages.length := by
  have hnodup : ∀ c : Cache, c.markedPages.Nodup := fun c =>
    List.Nodup.filter _ Std.TreeMap.nodup_keys
  refine ((List.perm_ext_iff_of_nodup (hnodup c') (hnodup c)).2 fun page => ?_).length_eq
  rw [mem_markedPages, mem_markedPages, h]

/-- Every cached page is clean or marked. -/
theorem size_eq (c : Cache) : c.size = c.clean.length + c.markedPages.length := by
  have hkeys : c.pages = c.frames.toList.map (·.1) := Std.TreeMap.map_fst_toList_eq_keys.symm
  have hmarked : c.markedPages.length =
      (c.frames.toList.filter fun x => !decide (x.2.page.dirtiedBy = none)).length := by
    rw [markedPages, hkeys, List.filter_map, List.length_map]
    refine congrArg List.length (List.filter_congr fun x hx => ?_)
    have hf : c.frame? x.1 = some x.2 := Std.TreeMap.mem_toList_iff_getElem?_eq_some.1 hx
    have hp : c.page? x.1 = some x.2.page := page?_eq_some_iff.2 ⟨x.2, hf, rfl⟩
    cases hd : x.2.page.dirtiedBy with
    | none => simp [marked?, hp, onlyMarked_of_clean hd]
    | some txn => simp [marked?, hp, onlyMarked_of_marked (hd ▸ Option.some_ne_none txn)]
  rw [hmarked, clean, size, ← Std.TreeMap.length_toList]
  exact List.length_eq_length_filter_add _

/-! ## Room -/

/-- The cache keeps within its capacity. -/
def Fits (c : Cache) : Prop := c.size ≤ c.capacity

/-- There is room for one more page, if need be after one has been evicted. -/
def HasRoom (c : Cache) : Prop := c.markedPages.length < c.capacity

instance (c : Cache) : Decidable c.HasRoom :=
  inferInstanceAs (Decidable (c.markedPages.length < c.capacity))

theorem Fits.empty (capacity : Nat) (choices : Nat → Nat) :
    (Cache.empty capacity choices).Fits :=
  Nat.zero_le _

/-- If one of the cached pages is clean there is room. -/
theorem Fits.hasRoom (h : c.Fits) (hq : c.page? page = some q) (hd : q.dirtiedBy = none) :
    c.HasRoom := by
  obtain ⟨f, hf, rfl⟩ := page?_eq_some_iff.1 hq
  have hclean : (page, f) ∈ c.clean :=
    List.mem_filter.2 ⟨Std.TreeMap.mem_toList_iff_getElem?_eq_some.2 hf, by simpa using hd⟩
  have hpos := List.length_pos_of_mem hclean
  have hsize := c.size_eq
  unfold Fits at h
  unfold HasRoom
  omega

theorem eligible_eq_nil_iff : c.eligible = [] ↔ c.clean = [] := by
  unfold eligible
  split
  · exact List.map_eq_nil_iff
  · next hne =>
    constructor
    · intro h
      exact absurd (List.map_eq_nil_iff.1 h) hne
    · intro h
      exact absurd (by rw [h]; rfl) hne

theorem size_discard (hq : c.page? page = some q) : (c.discard page).size + 1 = c.size := by
  obtain ⟨f, hf, -⟩ := page?_eq_some_iff.1 hq
  have hm : page ∈ c.frames :=
    Std.TreeMap.isSome_getElem?_iff_mem.1 (Option.isSome_iff_exists.2 ⟨f, hf⟩)
  have hpos : 0 < c.frames.size := by
    have := Std.TreeMap.isEmpty_eq_false_iff_exists_mem.2 ⟨page, hm⟩
    simp [Std.TreeMap.isEmpty_eq_size_eq_zero] at this
    omega
  change (c.frames.erase page).size + 1 = c.frames.size
  rw [Std.TreeMap.size_erase, if_pos (Std.TreeMap.mem_iff_contains.1 hm)]
  omega

/-- Whether room can be made does not depend on choices. -/
theorem makeRoom_cases (h : c.Fits) :
    (c.HasRoom ∧ ∃ d, c.makeRoom = .ok d ∧ d.size < d.capacity ∧ d.capacity = c.capacity) ∨
      (¬ c.HasRoom ∧ c.makeRoom = .error (.allPagesDirty c.capacity)) := by
  have hsize := c.size_eq
  unfold Fits at h
  unfold HasRoom makeRoom
  split
  · next hlt => exact .inl ⟨by omega, c, rfl, hlt, rfl⟩
  · next hfull =>
    have heq : c.size = c.capacity := by omega
    by_cases hel : 0 < c.eligible.length
    · have hclean : 0 < c.clean.length := by
        refine List.length_pos_of_ne_nil fun hn => ?_
        rw [eligible_eq_nil_iff.2 hn] at hel
        cases hel
      refine .inl ⟨by omega, ?_⟩
      cases hev : c.evict with
      | error err => simp [evict, hel] at hev
      | ok x =>
        obtain ⟨victim, d⟩ := x
        obtain ⟨⟨q, hq, -⟩, rfl⟩ := evict_eq_ok hev
        have hless := size_discard hq
        refine ⟨_, rfl, ?_, rfl⟩
        change (c.discard victim).size < c.capacity
        omega
    · have hnil : c.clean = [] := by
        rw [← eligible_eq_nil_iff]
        exact List.eq_nil_of_length_eq_zero (by omega)
      rw [hnil, List.length_nil] at hsize
      refine .inr ⟨by omega, ?_⟩
      rw [← heq]
      simp [evict, hel, Except.map]

/-! ## Twins -/

/-- Caches of the same capacity, within which they keep, with the same marked pages. -/
structure Twins (c c' : Cache) : Prop where
  /-- They can hold as many pages. -/
  capacity : c'.capacity = c.capacity
  /-- The same pages are marked in them, with the same content. -/
  marked : ∀ page, c'.marked? page = c.marked? page
  /-- The first holds no more pages than it can. -/
  left : c.Fits
  /-- Nor does the second. -/
  right : c'.Fits

namespace Twins

theorem refl (h : c.Fits) : c.Twins c := ⟨rfl, fun _ => rfl, h, h⟩

theorem symm (h : c.Twins c') : c'.Twins c :=
  ⟨h.capacity.symm, fun page => (h.marked page).symm, h.right, h.left⟩

theorem trans (h : c.Twins c') (h' : c'.Twins d) : c.Twins d :=
  ⟨h'.capacity.trans h.capacity, fun page => (h'.marked page).trans (h.marked page), h.left,
    h'.right⟩

theorem hasRoom_iff (h : c.Twins c') : c'.HasRoom ↔ c.HasRoom := by
  rw [HasRoom, HasRoom, length_markedPages_congr h.marked, h.capacity]

end Twins

/-- What handles are kept is no matter. -/
theorem Fits.keep (h : c.Fits) (k : Handle) : c.Twins (c.keep k) := ⟨rfl, fun _ => rfl, h, h⟩

theorem Fits.letGo (h : c.Fits) (k : Handle) : c.Twins (c.letGo k) := ⟨rfl, fun _ => rfl, h, h⟩

/-! ## New pages -/

theorem size_enter_le (c : Cache) (q : Page) : (c.enter q).size ≤ c.size + 1 :=
  Std.TreeMap.size_insert_le

/-- Whether a page can enter is a matter of room. If it can, it is marked then as it was, and no
other page is marked that was not or the other way round. -/
theorem add_cases (h : c.Fits) (q : Page) :
    (c.HasRoom ∧ ∃ d, c.add q = .ok d ∧ d.Fits ∧ d.capacity = c.capacity ∧
      ∀ pg, d.marked? pg = if pg = q.id then onlyMarked (some q) else c.marked? pg) ∨
    (¬ c.HasRoom ∧ c.add q = .error (.allPagesDirty c.capacity)) := by
  rcases makeRoom_cases h with ⟨hroom, d, hm, hlt, hcap⟩ | ⟨hroom, hm⟩
  · refine .inl ⟨hroom, d.enter q, ?_, (d.size_enter_le q).trans hlt, hcap, fun pg => ?_⟩
    · rw [add, hm]
      rfl
    · rw [marked?, page?_enter]
      split
      · rfl
      · rcases Engine.page?_makeRoom hm pg with he | ⟨hn, q₀, hq, hd⟩
        · exact congrArg onlyMarked he
        · rw [hn, marked?, hq, onlyMarked_of_clean hd]
          rfl
  · refine .inr ⟨hroom, ?_⟩
    rw [add, hm]
    rfl

/-- A clean page may enter in the place of one that is not marked. -/
theorem twins_add (h : c.Fits) (hq : q.dirtiedBy = none) (hm : c.marked? q.id = none)
    (hadd : c.add q = .ok d) : c.Twins d := by
  rcases add_cases h q with ⟨-, d', hd, hfits, hcap, hmarked⟩ | ⟨-, hd⟩
  · obtain rfl : d' = d := Except.ok.inj (hd.symm.trans hadd)
    refine ⟨hcap, fun pg => ?_, h, hfits⟩
    rw [hmarked]
    split
    · next hpg => rw [hpg, hm, onlyMarked_of_clean hq]
    · rfl
  · cases hd.symm.trans hadd

/-- Whether a marked page can take the place of the cached copy is a matter of room, unless that
copy is marked too. -/
theorem put_cases (h : c.Fits) (hp : p.dirtiedBy ≠ none) :
    ((c.marked? p.id ≠ none ∨ c.HasRoom) ∧ ∃ d, c.put p = .ok d ∧ d.Fits ∧
      d.capacity = c.capacity ∧ ∀ pg, d.marked? pg = if pg = p.id then some p else c.marked? pg) ∨
    (c.marked? p.id = none ∧ ¬ c.HasRoom ∧ c.put p = .error (.allPagesDirty c.capacity)) := by
  unfold put
  split
  · next hcon =>
    -- The old copy makes way: if it is marked there are no more marked pages than before.
    obtain ⟨f, hf⟩ := Option.isSome_iff_exists.1 hcon
    have hq : c.page? p.id = some f.page := page?_eq_some_iff.2 ⟨f, hf, rfl⟩
    refine .inl ⟨?_, _, rfl, ?_, rfl, fun pg => ?_⟩
    · by_cases hd : f.page.dirtiedBy = none
      · exact .inr (h.hasRoom hq hd)
      · exact .inl fun hn => Option.some_ne_none _ ((marked?_eq_some_iff.2 ⟨hq, hd⟩).symm.trans hn)
    · exact Std.TreeMap.size_modify.le.trans h
    · rw [marked?, page?_update]
      split
      · next hpg => rw [hpg, hq, Option.map_some, onlyMarked_of_marked hp]
      · rfl
  · next hcon =>
    have hn : c.page? p.id = none := page?_eq_none_iff.2 (by simpa [contains] using hcon)
    have hm : c.marked? p.id = none := by rw [marked?, hn]; rfl
    rcases add_cases h p with ⟨hroom, d, hd, hfits, hcap, hmarked⟩ | ⟨hroom, hd⟩
    · rw [onlyMarked_of_marked hp] at hmarked
      exact .inl ⟨.inr hroom, d, hd, hfits, hcap, hmarked⟩
    · exact .inr ⟨hm, hroom, hd⟩

namespace Twins

/-- Twins stay twins if the same marked page takes the place of their copies, if it can. -/
theorem put (h : c.Twins c') (hp : p.dirtiedBy ≠ none) :
    (∃ err, c.put p = .error err ∧ c'.put p = .error err) ∨
      ∃ d d', c.put p = .ok d ∧ c'.put p = .ok d' ∧ d.Twins d' := by
  have hmark := h.marked p.id
  rcases put_cases h.left hp with ⟨hroom, d, hd, hfits, hcap, hmarked⟩ | ⟨hnone, hroom, hd⟩
  · rcases put_cases h.right hp with ⟨-, d', hd', hfits', hcap', hmarked'⟩ | ⟨hnone, hfull, -⟩
    · refine .inr ⟨d, d', hd, hd', ⟨?_, fun pg => ?_, hfits, hfits'⟩⟩
      · rw [hcap, hcap', h.capacity]
      · rw [hmarked, hmarked', h.marked]
    · rw [hmark] at hnone
      rw [h.hasRoom_iff] at hfull
      exact absurd hroom (not_or.2 ⟨not_not.2 hnone, hfull⟩)
  · rcases put_cases h.right hp with ⟨hroom', -⟩ | ⟨-, -, hd'⟩
    · rw [hmark, h.hasRoom_iff] at hroom'
      exact absurd hroom' (not_or.2 ⟨not_not.2 hnone, hroom⟩)
    · exact .inl ⟨_, hd, by rw [hd', h.capacity]⟩

/-- Twins stay twins if a page is changed in both, as long as it is marked in both afterwards, with
the same content, or in neither. -/
theorem update {change' : Page → Page} (h : c.Twins c')
    (hm : onlyMarked ((c'.page? page).map change') = onlyMarked ((c.page? page).map change)) :
    (c.update page change).Twins (c'.update page change') where
  capacity := h.capacity
  marked pg := by
    rw [marked?, marked?, page?_update, page?_update]
    split
    · next hpg => rw [hpg, hm]
    · exact h.marked pg
  left := Std.TreeMap.size_modify.le.trans h.left
  right := Std.TreeMap.size_modify.le.trans h.right

theorem discard (h : c.Twins c') (page : PageId) : (c.discard page).Twins (c'.discard page) where
  capacity := h.capacity
  marked pg := by
    rw [marked?, marked?, page?_discard, page?_discard]
    split
    · rfl
    · exact h.marked pg
  left := Std.TreeMap.size_erase_le.trans h.left
  right := Std.TreeMap.size_erase_le.trans h.right

end Twins

end RowStore.Cache
