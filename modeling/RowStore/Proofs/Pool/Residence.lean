import RowStore.Proofs.Call.Stage
import RowStore.Proofs.Pool.Capacity
import RowStore.Proofs.Pool.WriteBack

/-!
# What enters the cache and what leaves it

Everything that a pool does to its cached pages is one of a few *events*: a page enters a fresh
frame, perhaps in the place of another one; the copy of a page is changed in its frame; a clean page
is evicted; a page is forgotten. `Cache.Meets` says what an event leads to and when it can happen:
a page that makes room for another one is clean, and leaves only if the cache is full. From this
follow, event by event, the bound on the number of cached pages and what becomes of a frame.

What a pool does otherwise comes down to these events. Requests let pages enter and mark those that
they change; writing back changes copies only; the end of a transaction that fails forgets pages.
-/

namespace RowStore

open Relation

/-! ## Events -/

/-- Something that happens to the cached pages. -/
inductive Cache.Event
  /-- A page that was not cached enters, in the place of another one or not. -/
  | entered (p : Page) (victim : Option PageId)
  /-- The copy of a page is changed in its frame, or another copy takes its place there. -/
  | changed (page : PageId) (change : Page → Page)
  /-- A page is evicted for no other one. -/
  | evicted (page : PageId)
  /-- A page is forgotten, whatever its copy is like. -/
  | forgotten (page : PageId)
  /-- Other handles are kept than before. -/
  | handed

namespace Cache

variable {c c' c₁ : Cache} {ev : Event} {events more : List Event} {page : PageId} {f : Frame}
  {p q : Page} {n : Nat}

namespace Event

/-- The page that leaves the cache. -/
def leaver? : Event → Option PageId
  | entered _ victim => victim
  | changed .. => none
  | evicted page => some page
  | forgotten page => some page
  | handed => none

/-- Nothing is forgotten, and what is changed is marked then. -/
def Marks : Event → Prop
  | changed _ change => ∀ q, (change q).dirtiedBy ≠ none
  | forgotten _ => False
  | _ => True

/-- A page enters, or a copy is changed that is marked then, or a handle is kept. -/
def Works (ev : Event) : Prop := ev.Marks ∧ ∀ page, ev ≠ .evicted page

/-- A copy is changed. -/
def Changes (ev : Event) : Prop := ∃ page change, ev = .changed page change

end Event

/-- What one event leads to. -/
inductive Meets (c : Cache) : Event → Cache → Prop
  /-- There is room for a page that enters. -/
  | entered {p : Page} (hn : c.page? p.id = none) (hroom : c.size < c.capacity) :
    Meets c (.entered p none) (c.enter p)
  /-- There is no room, so a clean page has to leave first. -/
  | replaced {p q : Page} {victim : PageId} (hn : c.page? p.id = none)
    (hfull : ¬ c.size < c.capacity) (hq : c.page? victim = some q) (hd : q.dirtiedBy = none) :
    Meets c (.entered p (some victim))
      (enter { c.discard victim with choicesMade := c.choicesMade + 1 } p)
  /-- A copy is changed. -/
  | changed (page : PageId) (change : Page → Page) :
    Meets c (.changed page change) (c.update page change)
  /-- A clean page is evicted. -/
  | evicted {page : PageId} {q : Page} (hq : c.page? page = some q) (hd : q.dirtiedBy = none) :
    Meets c (.evicted page) { c.discard page with choicesMade := c.choicesMade + 1 }
  /-- A page is forgotten. -/
  | forgotten (page : PageId) : Meets c (.forgotten page) (c.discard page)
  /-- Other handles are kept. -/
  | handed (kept : List Handle) : Meets c .handed { c with kept }

/-- What a series of events leads to. -/
inductive Undergoes : Cache → List Event → Cache → Prop
  /-- Nothing happens. -/
  | nil {c : Cache} : Undergoes c [] c
  /-- One event happens, and then the others. -/
  | cons {c c₁ c' : Cache} {ev : Event} {events : List Event} (h : c.Meets ev c₁)
    (h' : Undergoes c₁ events c') : Undergoes c (ev :: events) c'

/-- Every frame has a number that has been given out. -/
def Numbered (c : Cache) : Prop := ∀ ⦃page f⦄, c.frame? page = some f → f.serial < c.nextSerial

theorem frame?_discard_self (c : Cache) (page : PageId) : (c.discard page).frame? page = none := by
  rw [frame?_discard, if_pos rfl]

theorem frame?_discard_of_ne {pg : PageId} (h : pg ≠ page) (hf : c.frame? page = some f) :
    (c.discard pg).frame? page = some f := by
  rw [frame?_discard, if_neg h.symm, hf]

/-- What is cached when a page has been forgotten was cached before. -/
theorem frame?_of_discard {pg : PageId} (h : (c.discard pg).frame? page = some f) :
    c.frame? page = some f := by
  rw [frame?_discard] at h
  split at h
  · cases h
  · exact h

/-- What is cached when a page has entered is this page, in a fresh frame, or was cached before. -/
theorem frame?_of_enter (h : (c.enter p).frame? page = some f) :
    f.serial = c.nextSerial ∨ c.frame? page = some f := by
  rw [frame?_enter] at h
  split at h
  · cases h
    exact .inl rfl
  · exact .inr h

namespace Meets

theorem capacity (h : c.Meets ev c') : c'.capacity = c.capacity := by
  cases h <;> rfl

/-- No event makes the cache hold more than it can. -/
theorem fits (hc : c.Fits) (h : c.Meets ev c') : c'.Fits := by
  cases h with
  | entered hn hroom => exact (c.size_enter_le _).trans hroom
  | replaced hn hfull hq hd =>
    -- the page that enters takes the place of the one that leaves
    have hless := size_discard hq
    refine (size_enter_le _ _).trans ?_
    change (c.discard _).size + 1 ≤ c.capacity
    rw [hless]
    exact hc
  | changed => exact Std.TreeMap.size_modify.le.trans hc
  | evicted | forgotten => exact Std.TreeMap.size_erase_le.trans hc
  | handed => exact hc

/-- Whatever event happens, a page that stays has the frame that it had, and the copy that it had
unless the event is that this copy is changed. -/
theorem frame?_of_ne_leaver (h : c.Meets ev c') (hf : c.frame? page = some f)
    (hl : ev.leaver? ≠ some page) :
    ∃ f', c'.frame? page = some f' ∧ f'.serial = f.serial ∧
      (f'.page = f.page ∨ ∃ change, ev = .changed page change ∧ f'.page = change f.page) := by
  -- what enters was not cached, so it is another page
  have hne : ∀ {p : Page}, c.page? p.id = none → page ≠ p.id := by
    rintro p hn rfl
    cases hf.symm.trans (page?_eq_none_iff.1 hn)
  have hkept : ∀ {pg}, some pg ≠ some page → (c.discard pg).frame? page = some f :=
    fun hpg => frame?_discard_of_ne (fun he => hpg (congrArg some he)) hf
  cases h with
  | entered hn => exact ⟨f, by rw [frame?_enter, if_neg (hne hn), hf], rfl, .inl rfl⟩
  | replaced hn =>
    refine ⟨f, ?_, rfl, .inl rfl⟩
    rw [frame?_enter, if_neg (hne hn)]
    exact hkept hl
  | changed pg change =>
    rw [frame?_update]
    split
    · next hpg => exact ⟨_, congrArg _ hf, rfl, .inr ⟨change, hpg ▸ rfl, rfl⟩⟩
    · exact ⟨f, hf, rfl, .inl rfl⟩
  | evicted | forgotten => exact ⟨f, hkept hl, rfl, .inl rfl⟩
  | handed => exact ⟨f, hf, rfl, .inl rfl⟩

/-- A page that has left is not cached. -/
theorem frame?_leaver (h : c.Meets ev c') (hl : ev.leaver? = some page) :
    c'.frame? page = none := by
  cases h with
  | entered | changed | handed => cases hl
  | @replaced p q victim hn hfull hq =>
    obtain rfl : victim = page := Option.some.inj hl
    have hne : victim ≠ p.id := by
      rintro rfl
      cases hn.symm.trans hq
    rw [frame?_enter, if_neg hne]
    exact frame?_discard_self c victim
  | evicted | forgotten =>
    cases hl
    exact frame?_discard_self c page

/-- A frame is one that was there, or has a number that nobody had. -/
theorem serial_eq (h : c.Meets ev c') (hf : c'.frame? page = some f) :
    (∃ f₀, c.frame? page = some f₀ ∧ f.serial = f₀.serial) ∨
      f.serial = c.nextSerial ∧ c'.nextSerial = c.nextSerial + 1 := by
  cases h with
  | entered =>
    rcases frame?_of_enter hf with hs | hf
    · exact .inr ⟨hs, rfl⟩
    · exact .inl ⟨f, hf, rfl⟩
  | replaced =>
    rcases frame?_of_enter hf with hs | hf
    · exact .inr ⟨hs, rfl⟩
    · exact .inl ⟨f, frame?_of_discard hf, rfl⟩
  | changed =>
    rw [frame?_update] at hf
    split at hf
    · obtain ⟨f₀, hf₀, rfl⟩ := Option.map_eq_some_iff.1 hf
      exact .inl ⟨f₀, hf₀, rfl⟩
    · exact .inl ⟨f, hf, rfl⟩
  | evicted | forgotten => exact .inl ⟨f, frame?_of_discard hf, rfl⟩
  | handed => exact .inl ⟨f, hf, rfl⟩

theorem nextSerial_le (h : c.Meets ev c') : c.nextSerial ≤ c'.nextSerial := by
  cases h with
  | entered | replaced => exact Nat.le_succ _
  | changed | evicted | forgotten | handed => exact Nat.le_refl _

theorem numbered (hc : c.Numbered) (h : c.Meets ev c') : c'.Numbered := by
  intro page f hf
  rcases h.serial_eq hf with ⟨f₀, hf₀, hs⟩ | ⟨hs, hn⟩
  · rw [hs]
    exact Nat.lt_of_lt_of_le (hc hf₀) h.nextSerial_le
  · omega

/-- A number that has been given out and that the page's frame does not have is not given to it
again. -/
theorem lost (h : c.Meets ev c') (hn : n < c.nextSerial)
    (hl : ∀ f, c.frame? page = some f → f.serial ≠ n) :
    n < c'.nextSerial ∧ ∀ f, c'.frame? page = some f → f.serial ≠ n := by
  refine ⟨Nat.lt_of_lt_of_le hn h.nextSerial_le, fun f hf => ?_⟩
  rcases h.serial_eq hf with ⟨f₀, hf₀, hs⟩ | ⟨hs, -⟩
  · rw [hs]
    exact hl f₀ hf₀
  · omega

/-- Unless it is forgotten, only a clean page leaves. -/
theorem clean_of_leaver (h : c.Meets ev c') (hev : ev.Marks) (hl : ev.leaver? = some page) :
    ∃ q, c.page? page = some q ∧ q.dirtiedBy = none := by
  cases h with
  | entered | changed | handed => cases hl
  | replaced _ _ hq hd =>
    cases hl
    exact ⟨_, hq, hd⟩
  | evicted hq hd =>
    cases hl
    exact ⟨_, hq, hd⟩
  | forgotten => exact hev.elim

/-- So a marked page stays in its frame, and marked. -/
theorem marked (h : c.Meets ev c') (hev : ev.Marks) (hf : c.frame? page = some f)
    (hd : f.page.dirtiedBy ≠ none) :
    ∃ f', c'.frame? page = some f' ∧ f'.serial = f.serial ∧ f'.page.dirtiedBy ≠ none := by
  have hl : ev.leaver? ≠ some page := by
    intro hl
    obtain ⟨q, hq, hclean⟩ := h.clean_of_leaver hev hl
    obtain ⟨f₀, hf₀, rfl⟩ := page?_eq_some_iff.1 hq
    cases hf.symm.trans hf₀
    exact hd hclean
  obtain ⟨f', hf', hs, hp | ⟨change, rfl, hp⟩⟩ := h.frame?_of_ne_leaver hf hl
  · exact ⟨f', hf', hs, hp ▸ hd⟩
  · exact ⟨f', hf', hs, hp ▸ hev _⟩

end Meets

namespace Undergoes

theorem append (h : c.Undergoes events c₁) (h' : c₁.Undergoes more c') :
    c.Undergoes (events ++ more) c' := by
  induction h with
  | nil => exact h'
  | cons hm _ ih => exact .cons hm (ih h')

/-- What each of the events keeps holds after all of them. -/
theorem keeps {i : Cache → Prop} (h : c.Undergoes events c')
    (hstep : ∀ {c ev c'}, ev ∈ events → i c → c.Meets ev c' → i c') (hi : i c) : i c' := by
  induction h with
  | nil => exact hi
  | cons hm _ ih => exact ih (fun hev => hstep (.tail _ hev)) (hstep (.head _) hi hm)

theorem capacity (h : c.Undergoes events c') : c'.capacity = c.capacity :=
  h.keeps (i := fun d => d.capacity = c.capacity) (fun _ hi hm => hm.capacity.trans hi) rfl

theorem fits (h : c.Undergoes events c') (hc : c.Fits) : c'.Fits :=
  h.keeps (fun _ hi hm => hm.fits hi) hc

theorem numbered (h : c.Undergoes events c') (hc : c.Numbered) : c'.Numbered :=
  h.keeps (fun _ hi hm => hm.numbered hi) hc

/-- As long as nothing is forgotten, and what is changed is marked, a marked page stays in its
frame. -/
theorem marked (h : c.Undergoes events c') (hev : ∀ ev ∈ events, ev.Marks)
    (hf : c.frame? page = some f) (hd : f.page.dirtiedBy ≠ none) :
    ∃ f', c'.frame? page = some f' ∧ f'.serial = f.serial ∧ f'.page.dirtiedBy ≠ none := by
  refine h.keeps (i := fun d => ∃ f', d.frame? page = some f' ∧ f'.serial = f.serial ∧
    f'.page.dirtiedBy ≠ none) ?_ ⟨f, hf, rfl, hd⟩
  rintro c ev c' hmem ⟨f₁, hf₁, hs₁, hd₁⟩ hm
  obtain ⟨f', hf', hs, hd'⟩ := hm.marked (hev ev hmem) hf₁ hd₁
  exact ⟨f', hf', hs.trans hs₁, hd'⟩

/-- A page that does not leave stays in its frame. -/
theorem frame?_of_not_left (h : c.Undergoes events c')
    (hl : ∀ ev ∈ events, ev.leaver? ≠ some page) (hf : c.frame? page = some f) :
    ∃ f', c'.frame? page = some f' ∧ f'.serial = f.serial := by
  refine h.keeps (i := fun d => ∃ f', d.frame? page = some f' ∧ f'.serial = f.serial) ?_
    ⟨f, hf, rfl⟩
  rintro c ev c' hmem ⟨f₁, hf₁, hs₁⟩ hm
  obtain ⟨f', hf', hs, -⟩ := hm.frame?_of_ne_leaver hf₁ (hl ev hmem)
  exact ⟨f', hf', hs.trans hs₁⟩

/-- A page that has left, and may have come back, is not in the frame that it had. -/
theorem serial_ne_of_left (h : c.Undergoes events c') (hc : c.Numbered)
    (hl : ∃ ev ∈ events, ev.leaver? = some page) (hn : n < c.nextSerial) :
    ∀ f, c'.frame? page = some f → f.serial ≠ n := by
  induction h with
  | nil =>
    obtain ⟨ev, hev, -⟩ := hl
    cases hev
  | @cons c c₁ c' ev events hm h ih =>
    by_cases hev : ev.leaver? = some page
    · -- from here on the number is lost
      have hlost : n < c₁.nextSerial ∧ ∀ f, c₁.frame? page = some f → f.serial ≠ n := by
        refine ⟨Nat.lt_of_lt_of_le hn hm.nextSerial_le, fun f hf => ?_⟩
        cases hf.symm.trans (hm.frame?_leaver hev)
      exact (h.keeps (i := fun d => n < d.nextSerial ∧ ∀ f, d.frame? page = some f → f.serial ≠ n)
        (fun _ hi hm => hm.lost hi.1 hi.2) hlost).2
    · refine ih (hm.numbered hc) ?_ (Nat.lt_of_lt_of_le hn hm.nextSerial_le)
      obtain ⟨ev', hmem, hev'⟩ := hl
      rcases List.mem_cons.1 hmem with rfl | hmem
      · exact absurd hev' hev
      · exact ⟨ev', hmem, hev'⟩

end Undergoes

/-- A series of events of one kind. -/
def Goes (kind : Event → Prop) (c c' : Cache) : Prop :=
  ∃ events, c.Undergoes events c' ∧ ∀ ev ∈ events, kind ev

namespace Goes

variable {kind kind' : Event → Prop}

theorem refl (kind : Event → Prop) (c : Cache) : c.Goes kind c := ⟨[], .nil, nofun⟩

theorem single (h : c.Meets ev c') (hk : kind ev) : c.Goes kind c' :=
  ⟨[ev], .cons h .nil, fun ev' hev => by rwa [List.mem_singleton.1 hev]⟩

theorem trans (h : c.Goes kind c₁) (h' : c₁.Goes kind c') : c.Goes kind c' := by
  obtain ⟨events, hund, hk⟩ := h
  obtain ⟨more, hund', hk'⟩ := h'
  exact ⟨events ++ more, hund.append hund', fun ev hev =>
    (List.mem_append.1 hev).elim (hk ev) (hk' ev)⟩

end Goes

/-! ## Room -/

/-- All cached pages are marked. -/
def AllMarked (c : Cache) : Prop := ∀ ⦃page q⦄, c.page? page = some q → q.dirtiedBy ≠ none

theorem clean_eq_nil_iff : c.clean = [] ↔ c.AllMarked := by
  constructor
  · intro h page q hq hd
    obtain ⟨f, hf, rfl⟩ := page?_eq_some_iff.1 hq
    have hclean : (page, f) ∈ c.clean :=
      List.mem_filter.2 ⟨Std.TreeMap.mem_toList_iff_getElem?_eq_some.2 hf, by simpa using hd⟩
    rw [h] at hclean
    cases hclean
  · intro h
    refine List.eq_nil_iff_forall_not_mem.2 fun x hx => ?_
    obtain ⟨q, hq, hd⟩ := mem_clean hx
    exact h hq hd

/-- There is something to evict just if not all cached pages are marked. -/
theorem evict_cases (c : Cache) :
    (c.AllMarked ∧ c.evict = .error (.allPagesDirty c.size)) ∨
      (¬ c.AllMarked ∧ ∃ page c', c.evict = .ok (page, c')) := by
  rw [← clean_eq_nil_iff, ← eligible_eq_nil_iff]
  unfold evict
  by_cases hl : 0 < c.eligible.length
  · exact .inr ⟨List.ne_nil_of_length_pos hl, by simp [hl]⟩
  · exact .inl ⟨List.eq_nil_of_length_eq_zero (by omega), by simp [hl]⟩

theorem evict_meets (h : c.evict = .ok (page, c')) : c.Meets (.evicted page) c' := by
  obtain ⟨⟨q, hq, hd⟩, rfl⟩ := evict_eq_ok h
  exact .evicted hq hd

/-- A page that is not cached can enter unless the cache is full and all of it is marked. -/
theorem add_iff (hn : c.page? p.id = none) :
    (¬ c.size < c.capacity ∧ c.AllMarked ∧ c.add p = .error (.allPagesDirty c.size)) ∨
      ((c.size < c.capacity ∨ ¬ c.AllMarked) ∧
        ∃ victim c', c.add p = .ok c' ∧ c.Meets (.entered p victim) c') := by
  unfold add makeRoom
  by_cases hroom : c.size < c.capacity
  · rw [if_pos hroom]
    exact .inr ⟨.inl hroom, none, _, rfl, .entered hn hroom⟩
  · rw [if_neg hroom]
    rcases c.evict_cases with ⟨hall, he⟩ | ⟨hall, victim, c', he⟩
    · rw [he]
      exact .inl ⟨hroom, hall, rfl⟩
    · obtain ⟨⟨q, hq, hd⟩, rfl⟩ := evict_eq_ok he
      rw [he]
      exact .inr ⟨.inr hall, some victim, _, rfl, .replaced hn hroom hq hd⟩

theorem add_meets (hn : c.page? p.id = none) (h : c.add p = .ok c') :
    ∃ victim, c.Meets (.entered p victim) c' := by
  rcases add_iff hn with ⟨-, -, he⟩ | ⟨-, victim, d, hd, hm⟩
  · cases h.symm.trans he
  · cases h.symm.trans hd
    exact ⟨victim, hm⟩

/-- A copy takes the place of the old one, or the page enters. -/
theorem put_meets (h : c.put p = .ok c') :
    c.Meets (.changed p.id fun _ => p) c' ∨ ∃ victim, c.Meets (.entered p victim) c' := by
  unfold put at h
  split at h
  · cases h
    exact .inl (.changed ..)
  · next hcon =>
    exact .inr (add_meets (page?_eq_none_iff.2 (by simpa [contains] using hcon)) h)

end Cache

namespace Engine

variable {e e' : Engine} {txn : TxnId} {page : PageId} {p : Page} {result : Except Error Unit}

/-! ## Requests -/

/-- A page that has been read from its file has entered. -/
theorem Loads.undergoes (h : e.Loads page e') :
    ∃ events, e.cache.Undergoes events e'.cache ∧ (∀ ev ∈ events, ev.Works) ∧
      events.length ≤ 1 := by
  cases h with
  | cached => exact ⟨[], .nil, nofun, Nat.zero_le _⟩
  | stored hn hp hc =>
    obtain ⟨victim, hm⟩ := Cache.add_meets (by rwa [id_of_load hp]) hc
    refine ⟨[_], .cons hm .nil, ?_, Nat.le_refl _⟩
    rintro ev (_ | ⟨_, ⟨⟩⟩)
    exact ⟨trivial, nofun⟩

/-- What is handed in is marked in the cache. -/
theorem meets_of_install (h : e.install txn p = .ok e') :
    ∃ ev, e.cache.Meets ev e'.cache ∧ ev.Works := by
  obtain ⟨c, hc, -, rfl⟩ := install_eq h
  rcases Cache.put_meets hc with hm | ⟨victim, hm⟩
  · exact ⟨_, hm, fun _ => Option.some_ne_none txn, nofun⟩
  · exact ⟨_, hm, trivial, nofun⟩

theorem Move.goes (h : e.Move txn e') : e.cache.Goes Cache.Event.Works e'.cache := by
  cases h with
  | load hl =>
    obtain ⟨events, hund, hk, -⟩ := hl.undergoes
    exact ⟨events, hund, hk⟩
  | keep k => exact .single (.handed _) ⟨trivial, nofun⟩
  | @write page q q' hx hq he =>
    refine .single (.changed page fun _ => q') ⟨fun _ => ?_, nofun⟩
    rw [he.alike.dirtiedBy]
    exact Option.some_ne_none txn
  | install hi =>
    obtain ⟨ev, hm, hk⟩ := meets_of_install hi
    exact .single hm hk
  | grow => exact .refl _ _

theorem Stages.goes (h : e.Stages txn e') : e.cache.Goes Cache.Event.Works e'.cache :=
  h.keeps (p := fun e' => e.cache.Goes Cache.Event.Works e'.cache)
    (fun hi hs => hs.keeps_of_moves (p := fun e' => e.cache.Goes Cache.Event.Works e'.cache)
      (fun _ hi => hi) (fun hi hm => hi.trans hm.goes) hi) (.refl _ _)

/-! ## Writing back -/

theorem Flushes.goes (h : e.Flushes page result e') :
    e.cache.Goes Cache.Event.Changes e'.cache := by
  cases h with
  | clean | failed => exact .refl _ _
  | written => exact .single (.changed ..) ⟨_, _, rfl⟩

/-- If the write of a page breaks off nothing happens to the cached pages. -/
theorem FlushesUnder.goes {faults : Faults} (h : e.FlushesUnder faults page result e') :
    e.cache.Goes Cache.Event.Changes e'.cache := by
  cases h with
  | whole h => exact h.goes
  | torn => exact .refl _ _

theorem goes_flushEach {andThen : PageId → Engine → Engine} (faults : Faults)
    (hthen : ∀ page (e : Engine), e.cache.Goes Cache.Event.Changes (andThen page e).cache)
    (pages : List PageId) (e : Engine) :
    e.cache.Goes Cache.Event.Changes (flushEach faults andThen pages e).2.cache :=
  flushEach_keeps_under (p := fun e' => e.cache.Goes Cache.Event.Changes e'.cache)
    (fun hi hf => hi.trans hf.goes) (fun page hi => hi.trans (hthen page _)) pages (.refl _ _)

theorem goes_commit (faults : Faults) (e : Engine) (txn : TxnId) :
    e.cache.Goes Cache.Event.Changes (e.commitUnder faults txn).2.cache := by
  obtain ⟨e₁, hg, he | he⟩ := commit_keeps_under
    (p := fun e' => e.cache.Goes Cache.Event.Changes e'.cache) txn
    (fun hi hf => hi.trans hf.goes) (fun page hi => hi.trans (.single (.changed ..) ⟨_, _, rfl⟩))
    (.refl _ _)
  · rw [he]
    exact hg
  · rw [he]
    exact hg

/-! ## Aborts -/

/-- An abort forgets the pages that the transaction holds for itself alone. -/
theorem goes_abort (e : Engine) (txn : TxnId) : e.cache.Goes
    (fun ev => ∃ page, ev = .forgotten page ∧ e.locks.modeOf txn page = .exclusive)
    (e.abort txn).cache := by
  -- nothing that is forgotten changes the locks, so the pages are those of the first engine
  suffices h : ∀ pages e₁, (∀ page ∈ pages, e.locks.modeOf txn page = .exclusive) →
      Cache.Goes (fun ev => ∃ page, ev = .forgotten page ∧ e.locks.modeOf txn page = .exclusive)
        e₁.cache (List.foldl discard e₁ pages).cache from
    h (e.held txn) e fun page hp => mem_held.1 hp
  intro pages
  induction pages with
  | nil => exact fun e₁ _ => .refl _ _
  | cons page pages ih =>
    intro e₁ hp
    have hfirst : Cache.Goes
        (fun ev => ∃ page, ev = .forgotten page ∧ e.locks.modeOf txn page = .exclusive)
        e₁.cache (e₁.discard page).cache :=
      .single (.forgotten page) ⟨page, rfl, hp page (.head _)⟩
    exact hfirst.trans (ih _ fun pg hpg => hp pg (.tail _ hpg))

end Engine

end RowStore
