import RowStore.Proofs.Service.Residence

/-!
# Handles that outlive their pages

A handle is given out for a page that is cached, and remembers the frame that the page is in. As
long as the page stays, it stays in this frame, whatever copies take the place of the old one there;
and when it has left and comes back, it gets a frame that no handle remembers. So a handle acts on
the cached copy of its page until the page leaves the cache for the first time, and never again.

`Service.Passes` tells what has happened to the cached pages from one service to a later one, which
is more than the two of them show: a page may leave and come back within a single action.
-/

namespace RowStore

open Engine

/-! ## Handles and frames -/

namespace Cache

variable {c : Cache} {k : Handle} {q : Page}

/-- A handle reads the page in the frame that it remembers. -/
theorem read_eq_ok_iff :
    c.read k = .ok q ↔ ∃ f, c.frame? k.page = some f ∧ f.serial = k.serial ∧ f.page = q := by
  unfold read
  cases hf : c.frame? k.page with
  | none => simp
  | some f => by_cases hs : f.serial = k.serial <;> simp [hs]

/-- It is stale just if its page is not in this frame. -/
theorem read_eq_stale_iff : c.read k = .error (.staleHandle k.page) ↔
    ∀ f, c.frame? k.page = some f → f.serial ≠ k.serial := by
  unfold read
  cases hf : c.frame? k.page with
  | none => simp
  | some f => by_cases hs : f.serial = k.serial <;> simp [hs]

theorem write_of_stale {α : Type} (ha : k.access = .write)
    (hs : c.read k = .error (.staleHandle k.page)) (change : Page → α × Page) :
    c.write k change = .error (.staleHandle k.page) := by
  simp only [write, ha, if_true, hs, bind, Except.bind]

end Cache

namespace Service

variable {s s' : Service} {a : Action} {page : PageId} {reply : Reply} {k : Handle} {q : Page}
  {events : List Cache.Event}

/-! ## Later services -/

/-- A service that the first one can become: by actions of any kind, and by what is done to the
files, the log and the catalog from outside. -/
inductive Becomes (s : Service) : Service → Prop
  /-- Nothing is done. -/
  | refl : Becomes s s
  /-- An action is performed, and writes of pages may break off. -/
  | performUnder {s' : Service} {a : Action} (h : Becomes s s') (ha : s'.Allows a)
    (faults : Faults) : Becomes s (s'.performUnder faults a).2
  /-- Something is done from outside. -/
  | outside {s' : Service} {backing : Backing} (h : Becomes s s') (hb : backing.Filed) :
    Becomes s { s' with engine := { s'.engine with toBacking := backing } }

/-- What has happened to the cached pages on the way to a later service. -/
inductive Passes (s : Service) : List Cache.Event → Service → Prop
  /-- Nothing is done. -/
  | refl : Passes s [] s
  /-- An action is performed, with events that it is there for. -/
  | performUnder {s' : Service} {a : Action} {faults : Faults} {events more : List Cache.Event}
    (h : Passes s events s') (ha : s'.Allows a)
    (hm : s'.engine.cache.Undergoes more (s'.performUnder faults a).2.engine.cache)
    (hk : ∀ ev ∈ more, s'.Admits a ev) : Passes s (events ++ more) (s'.performUnder faults a).2
  /-- Something is done from outside. -/
  | outside {s' : Service} {backing : Backing} {events : List Cache.Event} (h : Passes s events s')
    (hb : backing.Filed) :
    Passes s events { s' with engine := { s'.engine with toBacking := backing } }

theorem Becomes.perform (h : s.Becomes s') (ha : s'.Allows a) : s.Becomes (s'.perform a).2 := by
  rw [← performUnder_none]
  exact h.performUnder ha .none

theorem Becomes.reached (h : s.Becomes s') (hs : s.Reached) : s'.Reached := by
  induction h with
  | refl => exact hs
  | performUnder _ ha faults ih => exact ih.performUnder ha faults
  | outside _ hb ih => exact ih.outside hb

/-- Whatever is done comes down to events. -/
theorem Becomes.exists_passes (h : s.Becomes s') (hs : s.Reached) :
    ∃ events, s.Passes events s' := by
  induction h with
  | refl => exact ⟨[], .refl⟩
  | performUnder h ha faults ih =>
    obtain ⟨events, hp⟩ := ih
    obtain ⟨more, hm, hk⟩ := goes_performUnder (h.reached hs).orderly ha faults
    exact ⟨events ++ more, hp.performUnder ha hm hk⟩
  | outside _ hb ih =>
    obtain ⟨events, hp⟩ := ih
    exact ⟨events, hp.outside hb⟩

theorem Passes.undergoes (h : s.Passes events s') :
    s.engine.cache.Undergoes events s'.engine.cache := by
  induction h with
  | refl => exact .nil
  | performUnder _ _ hm _ ih => exact ih.append hm
  | outside _ _ ih => exact ih

/-- Every frame of a service that can come about has a number that has been given out. -/
theorem Reached.numbered (h : s.Reached) : s.engine.cache.Numbered := by
  induction h with
  | start hb capacity choices =>
    intro page f hf
    cases (Cache.frame?_empty capacity choices page).symm.trans hf
  | performUnder h ha faults ih =>
    obtain ⟨events, hund, -⟩ := goes_performUnder h.orderly ha faults
    exact hund.numbered ih
  | outside _ _ ih => exact ih

/-! ## What a handle does -/

/-- What a handle does in a service, depending on whether its page has left the cache since it was
given out. -/
structure Observes (s : Service) (k : Handle) (left : Prop) : Prop where
  /-- A read fails just if the page has left. -/
  read : s.engine.cache.read k = .error (.staleHandle k.page) ↔ left
  /-- So does a change through a handle for writing, and then nothing happens. -/
  write : ∀ change, k.access = .write →
    (s.perform (.write k change) = (some (.error (.staleHandle k.page)), s) ↔ left)
  /-- The handle itself tells. -/
  valid : s.engine.cache.isValid k = true ↔ ¬ left
  /-- Otherwise it reads the cached copy of the page, and a change is one of this copy and of no
  other. -/
  acts : ¬ left → ∃ q, s.engine.cache.page? k.page = some q ∧ s.engine.cache.read k = .ok q ∧
    ∀ change, k.access = .write → (s.perform (.write k change)).1 = some (.ok .done) ∧
      ∀ pg, (s.perform (.write k change)).2.engine.cache.page? pg =
        if pg = k.page then some (change (q.markDirty (some k.txn)))
        else s.engine.cache.page? pg

theorem perform_write_of_stale (ha : k.access = .write)
    (hs : s.engine.cache.read k = .error (.staleHandle k.page)) (change : Page → Page) :
    s.perform (.write k change) = (some (.error (.staleHandle k.page)), s) := by
  simp only [Service.perform, Cache.write_of_stale ha hs]

theorem perform_write_of_read (ha : k.access = .write) (hq : s.engine.cache.read k = .ok q)
    (change : Page → Page) :
    s.perform (.write k change) = (some (.ok .done), { s with engine := { s.engine with
      cache := s.engine.cache.update k.page fun _ => change (q.markDirty (some k.txn)) } }) := by
  simp only [Service.perform, Cache.write_of_read ha hq]

/-- A handle does what its frame lets it do. -/
theorem observes_of {left : Prop}
    (hstale : left → s.engine.cache.read k = .error (.staleHandle k.page))
    (hread : ¬ left → ∃ q, s.engine.cache.read k = .ok q) : s.Observes k left := by
  by_cases hl : left
  · have hs := hstale hl
    refine ⟨iff_of_true hs hl, fun change ha => ?_, ?_, fun hn => absurd hl hn⟩
    · exact iff_of_true (perform_write_of_stale ha hs change) hl
    · refine iff_of_false (fun hv => ?_) (not_not.2 hl)
      obtain ⟨q, hq⟩ := Cache.isValid_iff.1 hv
      cases hs.symm.trans hq
  · obtain ⟨q, hq⟩ := hread hl
    have hpage := Cache.read_eq_ok hq
    refine ⟨iff_of_false (fun hs => nomatch hq.symm.trans hs) hl, fun change ha => ?_,
      iff_of_true (Cache.isValid_iff.2 ⟨q, hq⟩) hl, fun _ => ⟨q, hpage, hq, fun change ha => ?_⟩⟩
    · refine iff_of_false (fun hs => ?_) hl
      rw [perform_write_of_read ha hq] at hs
      cases congrArg Prod.fst hs
    · rw [perform_write_of_read ha hq]
      refine ⟨rfl, fun pg => ?_⟩
      change (s.engine.cache.update _ _).page? pg = _
      rw [Cache.page?_update]
      split
      · next hpg =>
        rw [hpg, hpage]
        rfl
      · rfl

/-- A handle that is good stays so until its page leaves the cache, and is not after that. -/
theorem Passes.observes (h : s.Passes events s') (hn : s.engine.cache.Numbered)
    (hq : s.engine.cache.read k = .ok q) :
    s'.Observes k (∃ ev ∈ events, ev.leaver? = some k.page) := by
  obtain ⟨f, hf, hs, -⟩ := Cache.read_eq_ok_iff.1 hq
  refine observes_of (fun hl => ?_) (fun hl => ?_)
  · exact Cache.read_eq_stale_iff.2 (h.undergoes.serial_ne_of_left hn hl (hs ▸ hn hf))
  · have hstay : ∀ ev ∈ events, ev.leaver? ≠ some k.page := fun ev hev he => hl ⟨ev, hev, he⟩
    obtain ⟨f', hf', hs'⟩ := h.undergoes.frame?_of_not_left hstay hf
    exact ⟨f'.page, Cache.read_eq_ok_iff.2 ⟨f', hf', hs'.trans hs, rfl⟩⟩

/-- A request for a page that succeeds gives out a handle that reads the cached copy. -/
theorem handle_of_fetches {e e' : Engine} {txn : TxnId} {access : Access}
    (h : e.Fetches txn page access (.inl (.ok reply)) e') :
    ∃ k q, reply = .handle k q ∧ k.page = page ∧ e'.cache.read k = .ok q := by
  cases h with
  | handed kept hp _ _ _ hk => exact ⟨_, _, rfl, hp, hk⟩

/-- Who gets a handle to a page can use it until the page leaves the cache, and not after that even
if the page comes back. As long as it can be used, what it shows and changes is the cached copy. -/
theorem Reached.handle_observes (h : s.Reached) (ha : s.Allows a) (hp : s.purpose a = .fetch page)
    (ho : (s.perform a).1 = some (.ok reply)) :
    ∃ k q, reply = .handle k q ∧ k.page = page ∧ (s.perform a).2.engine.cache.read k = .ok q ∧
      ∀ {s'}, (s.perform a).2.Becomes s' → (∃ events, (s.perform a).2.Passes events s') ∧
        ∀ {events}, (s.perform a).2.Passes events s' →
          s'.Observes k (∃ ev ∈ events, ev.leaver? = some k.page) := by
  obtain ⟨txn, access, result, hf, hr⟩ := fetches_perform h.orderly ha hp
  have hafter : (s.perform a).2.Reached := h.perform ha
  rw [ho] at hr
  cases result with
  | inr c => cases hr
  | inl outcome =>
    cases hr
    obtain ⟨k, q, rfl, hk, hq⟩ := handle_of_fetches hf
    exact ⟨k, q, rfl, hk, hq, fun hb => ⟨hb.exists_passes hafter,
      fun hpass => hpass.observes hafter.numbered hq⟩⟩

end Service

/-! ## A page that comes back -/

namespace Sample

/-- A transaction asks for a page that it will write to. -/
def asking : Action := .issue (.fetch 1 (wideAt 0) .write false)

/-- The handle that it gets. -/
def firstHandle : Handle := ⟨wideAt 0, 1, .write, 0⟩

/-- The page that it is shown. -/
def firstPage : Page := Page.ofBytes (wideAt 0) table.schema [1, 0, 0, 0, 5, 0, 0, 0, 0]

/-- The service in which it has the handle. -/
def handedOut : Service := ((choosing 0).perform asking).2

/-- The page is forgotten then, and the transaction asks for it again. -/
def broughtBack : Service := handedOut.after [.discard (wideAt 0), asking]

theorem outcome_asking : ((choosing 0).perform asking).1 =
    some (.ok (.handle firstHandle firstPage)) := by cbv

theorem becomes_broughtBack : handedOut.Becomes broughtBack :=
  .perform (.perform .refl trivial) (Service.not_hasBlocked_of_nil (by cbv) 1)

/-- The first handle does not read the page that has come back. -/
theorem handle_observes_broughtBack :
    (choosing 0).Reached ∧ (choosing 0).Allows asking ∧
    (choosing 0).purpose asking = .fetch (wideAt 0) ∧
    ((choosing 0).perform asking).1 = some (.ok (.handle firstHandle firstPage)) ∧
    handedOut.engine.cache.read firstHandle = .ok firstPage ∧
    (∃ events, handedOut.Passes events broughtBack) ∧
    (∀ {events}, handedOut.Passes events broughtBack →
      broughtBack.Observes firstHandle (∃ ev ∈ events, ev.leaver? = some firstHandle.page)) ∧
    broughtBack.engine.cache.read firstHandle = .error (.staleHandle (wideAt 0)) ∧
    broughtBack.engine.cache.page? (wideAt 0) = some firstPage := by
  have hreached : (choosing 0).Reached := .start filed_wide 2 _
  have hallows : (choosing 0).Allows asking := Service.not_hasBlocked_of_nil rfl 1
  obtain ⟨k, q, hr, -, hq, hb⟩ := hreached.handle_observes hallows rfl outcome_asking
  cases hr
  obtain ⟨hpasses, hobserves⟩ := hb becomes_broughtBack
  exact ⟨hreached, hallows, rfl, outcome_asking, hq, hpasses, hobserves, by cbv, by cbv⟩

end Sample

end RowStore
