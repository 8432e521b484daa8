import RowStore.Proofs.Pool.Residence
import RowStore.Proofs.Service.Eviction
import RowStore.Proofs.Service.LogFirst

/-!
# Which pages are cached

A pool never holds more pages than it can, and it never loses a change by making room: a page that
bears a mark leaves the cache only with the transaction that is aborted, or if it is to be
forgotten. `Service.Admits` says which events of the cache an action may have, and
`Service.KeepsHouse` what follows for the action as a whole.

Who asks for a page, or hands a changed copy in, makes at most one other page leave, and that only
if the cache is full. This fails just if all cached pages are marked, so with the lock of a page
that exists a transaction gets the page unless it is not cached and the cache is full of marked
ones. That there may be no room at all, with a cache that holds no pages, is a case of it.
-/

namespace RowStore

open Engine

/-! ## Asking for one page -/

namespace Engine

variable {e e' : Engine} {txn : TxnId} {page : PageId} {access : Access} {keep : Bool}
  {result : Outcome ⊕ Call}

/-- What becomes of a call for a page. -/
inductive Fetches (txn : TxnId) (page : PageId) (access : Access) (e : Engine) :
    Outcome ⊕ Call → Engine → Prop
  /-- It waits. -/
  | waits (locks : LockTable) (c : Call) : Fetches txn page access e (.inr c) { e with locks }
  /-- It fails. -/
  | failed (locks : LockTable) (err : Error) :
    Fetches txn page access e (.inl (.error err)) { e with locks }
  /-- It gets a handle, which reads the cached copy. -/
  | handed {locks : LockTable} {e₁ : Engine} {k : Handle} {q : Page} (kept : List Handle)
    (hp : k.page = page) (ht : k.txn = txn) (ha : k.access = access)
    (hl : Loads page { e with locks } e₁) (hk : e₁.cache.read k = .ok q) :
    Fetches txn page access e (.inl (.ok (.handle k q)))
      { e₁ with cache := { e₁.cache with kept } }

theorem fetches_proceed (e : Engine) (txn : TxnId) (page : PageId) (access : Access) (keep : Bool)
    (locks : LockTable) : ∃ outcome e', (Call.fetch txn page access keep).proceed { e with locks } =
      (.finished outcome, e') ∧ e.Fetches txn page access (.inl outcome) e' := by
  unfold Call.proceed
  dsimp only
  split
  · next err hr => exact ⟨_, _, rfl, .failed locks err⟩
  · next k e₁ hr =>
    obtain ⟨hp, ht, ha, hl⟩ := reach_eq_ok hr
    obtain ⟨q, hk, -⟩ := read_of_reach hr
    rw [hk]
    refine ⟨_, _, rfl, ?_⟩
    cases keep with
    | true => exact .handed (k :: e₁.cache.kept) hp ht ha hl hk
    | false => exact .handed e₁.cache.kept hp ht ha hl hk

theorem Course.fetches (h : e.Course (.fetch txn page access keep) result e') :
    e.Fetches txn page access result e' := by
  cases h with
  | blocked => exact .waits _ _
  | @ended _ _ _ verdict locks outcome _ hv ha =>
    cases verdict with
    | blocked => exact absurd rfl hv
    | deadlock =>
      cases ha
      exact .failed locks _
    | granted =>
      obtain ⟨outcome', e₁, hp, hf⟩ := fetches_proceed e txn page access keep locks
      cases hp.symm.trans ha
      exact hf
  | @next _ _ _ _ _ _ _ _ hw => exact absurd hw (Nat.not_lt_zero _)

/-- At most one page leaves for the page that is asked for, and if the call fails or waits nothing
happens to the cached pages. The log and the files are left alone in any case. -/
theorem Fetches.undergoes (h : e.Fetches txn page access result e') :
    ∃ events, e.cache.Undergoes events e'.cache ∧ (∀ ev ∈ events, ev.Works) ∧
      (events.filterMap Cache.Event.leaver?).length ≤ 1 ∧ e'.toBacking = e.toBacking ∧
      ((∃ reply, result = .inl (.ok reply)) ∨ e'.cache = e.cache) := by
  cases h with
  | waits | failed => exact ⟨[], .nil, nofun, Nat.zero_le _, rfl, .inr rfl⟩
  | @handed locks e₁ k q kept _ _ _ hl =>
    obtain ⟨events, hund, hw, hlen⟩ := hl.undergoes
    refine ⟨events ++ [.handed], hund.append (.cons (.handed kept) .nil), ?_, ?_, ?_, .inl ⟨_, rfl⟩⟩
    · intro ev hev
      rcases List.mem_append.1 hev with hev | hev
      · exact hw ev hev
      · cases List.mem_singleton.1 hev
        exact ⟨trivial, nofun⟩
    · rw [List.filterMap_append, List.filterMap_cons_none rfl, List.filterMap_nil, List.append_nil]
      exact (List.length_filterMap_le ..).trans hlen
    · cases hl <;> rfl

/-- A page that is not cached is read from its file and enters. -/
theorem reach_of_not_cached {p : Page} (txn : TxnId) (access : Access)
    (hn : e.cache.page? page = none) (hl : e.load page = .ok p) :
    e.reach txn page access = (e.cache.add p).map fun cache =>
      (⟨page, txn, access, e.cache.nextSerial⟩, { e with cache }) := by
  unfold reach
  simp only [Cache.page?_eq_none_iff.1 hn, hl, bind, Except.bind]
  cases e.cache.add p <;> rfl

/-- With its lock, who asks for a page that is not cached is given it as its file has it, unless the
cache is full and all of it is marked. -/
theorem proceed_fetch_cases {p : Page} (txn : TxnId) (access : Access) (keep : Bool)
    (hn : e.cache.page? page = none) (hl : e.load page = .ok p) :
    (¬ e.cache.size < e.cache.capacity ∧ e.cache.AllMarked ∧
      (Call.fetch txn page access keep).proceed e =
        (.finished (.error (.allPagesDirty e.cache.size)), e)) ∨
    ((e.cache.size < e.cache.capacity ∨ ¬ e.cache.AllMarked) ∧
      ∃ k, ((Call.fetch txn page access keep).proceed e).1 = .finished (.ok (.handle k p))) := by
  have hreach := reach_of_not_cached txn access hn hl
  unfold Call.proceed
  dsimp only
  rcases Cache.add_iff (p := p) (by rwa [id_of_load hl]) with
    ⟨hfull, hall, hadd⟩ | ⟨hroom, victim, c, hadd, -⟩
  · rw [hadd] at hreach
    exact .inl ⟨hfull, hall, by rw [hreach]; rfl⟩
  · rw [hadd] at hreach
    obtain ⟨q, hread, hq⟩ := read_of_reach hreach
    obtain ⟨c₁, -, rfl⟩ := Cache.add_eq_ok hadd
    obtain rfl : q = p := by
      rw [Cache.page?_enter, if_pos (id_of_load hl).symm] at hq
      exact (Option.some.inj hq).symm
    refine .inr ⟨hroom, ⟨page, txn, access, e.cache.nextSerial⟩, ?_⟩
    rw [hreach]
    dsimp only [Except.map] at hread ⊢
    rw [hread]

end Engine

namespace Service

variable {s s' : Service} {a : Action} {txn : TxnId} {page : PageId} {access : Access} {p : Page}
  {o : Option Outcome}

/-- Whatever becomes of a request for a page, it is the course of a call. -/
theorem fetches_perform (h : s.Orderly) (ha : s.Allows a) (hp : s.purpose a = .fetch page) :
    ∃ txn access result, s.engine.Fetches txn page access result (s.perform a).2.engine ∧
      (s.perform a).1 = result.getLeft? := by
  cases a with
  | issue r =>
    cases r with
    | fetch txn pg access keep =>
      cases hp
      obtain ⟨result, hc, hr, -⟩ := course_issue (r := .fetch txn page access keep) h ha rfl
      exact ⟨txn, access, result, hc.fetches, hr⟩
    | delete txn place | deleteFrom txn table place => cases place <;> cases hp
    | insert | insertInto | scan | take => cases hp
  | turn w =>
    obtain ⟨c, -, hf, -⟩ := h.find?_eq_some ha
    obtain ⟨result, hc, hr, -⟩ := course_turn h ha hf
    rw [purpose, hf] at hp
    cases c with
    | fetch txn pg access keep =>
      cases hp
      exact ⟨txn, access, result, hc.fetches, hr⟩
    | insert | delete | collect | take => cases hp
  | _ => cases hp

/-- A request for a page gets its lock by the action. -/
inductive Grants (s : Service) (txn : TxnId) (page : PageId) (access : Access) : Action → Prop
  /-- It gets it at once. -/
  | issue (keep : Bool) (hv : (s.engine.locks.acquire txn page access.mode).1 = .granted) :
    Grants s txn page access (.issue (.fetch txn page access keep))
  /-- It has waited for it. -/
  | turn {w : Waiter} {keep : Bool}
    (hc : s.blocked.find? (·.txn = w.txn) = some (.fetch txn page access keep))
    (hv : (s.engine.locks.retry w).1 = .granted) : Grants s txn page access (.turn w)

/-- A request that gets the lock at once ends as the call proceeds. -/
theorem perform_issue_of_proceed {keep : Bool} {locks : LockTable} {outcome : Outcome} {e' : Engine}
    (hacq : s.engine.locks.acquire txn page access.mode = (.granted, locks))
    (hp : (Call.fetch txn page access keep).proceed { s.engine with locks } =
      (.finished outcome, e')) :
    s.perform (.issue (.fetch txn page access keep)) = (some outcome, { s with engine := e' }) := by
  have hrun : s.engine.run (p := fun _ => True) (fun _ _ => trivial)
      (.fetch txn page access keep) trivial = (.finished outcome, e') := by
    rw [run, Call.txn, Call.page, Call.mode, Call.access, hacq]
    simp only [Call.answer, decide_true, if_true, hp]
  show s.issue (.fetch txn page access keep) = _
  unfold Service.issue Request.start
  simp only [hrun]

/-- So does one that gets it when it is its turn. -/
theorem perform_turn_of_proceed {w : Waiter} {keep : Bool} {locks : LockTable} {outcome : Outcome}
    {e' : Engine} (hc : s.blocked.find? (·.txn = w.txn) = some (.fetch txn page access keep))
    (hret : s.engine.locks.retry w = (.granted, locks))
    (hp : (Call.fetch txn page access keep).proceed { s.engine with locks } =
      (.finished outcome, e')) :
    s.perform (.turn w) = (some outcome, ⟨e', callsOfOthers s.blocked w.txn⟩) := by
  have hres : resume { s.engine with locks } (.fetch txn page access keep) true =
      (.finished outcome, e') := by
    unfold resume
    simp only [Call.answer, if_true, hp]
  show s.turn w = _
  unfold Service.turn
  simp only [hc, hret, hres, decide_true, reduceCtorEq, if_false]

/-- What becomes of the request is a matter of the cache and the files then. -/
theorem Grants.perform_eq (h : s.Grants txn page access a) :
    ∃ locks keep outcome, (Call.fetch txn page access keep).proceed { s.engine with locks } =
      (.finished outcome, (s.perform a).2.engine) ∧ (s.perform a).1 = some outcome := by
  cases h with
  | issue keep hv =>
    obtain ⟨locks, hacq⟩ : ∃ locks,
        s.engine.locks.acquire txn page access.mode = (.granted, locks) := ⟨_, Prod.ext hv rfl⟩
    obtain ⟨outcome, e', hp, -⟩ := fetches_proceed s.engine txn page access keep locks
    rw [perform_issue_of_proceed hacq hp]
    exact ⟨locks, keep, outcome, hp, rfl⟩
  | @turn w keep hc hv =>
    obtain ⟨locks, hret⟩ : ∃ locks, s.engine.locks.retry w = (.granted, locks) :=
      ⟨_, Prod.ext hv rfl⟩
    obtain ⟨outcome, e', hp, -⟩ := fetches_proceed s.engine txn page access keep locks
    rw [perform_turn_of_proceed hc hret hp]
    exact ⟨locks, keep, outcome, hp, rfl⟩

/-- The action is for one page: to get a handle to it, or to hand in a copy of it. -/
def ForOne (s : Service) (a : Action) : Prop :=
  (∃ page, s.purpose a = .fetch page) ∨ ∃ txn p, a = .install txn p

/-- What may happen to the cached pages when an action is performed. -/
def Admits (s : Service) : Action → Cache.Event → Prop
  | .issue _, ev => ev.Works
  | .turn _, ev => ev.Works
  | .write k _, ev => ∃ change, ev = .changed k.page change
  | .letGo _, ev => ev = .handed
  | .evict, ev => ∃ page, ev = .evicted page
  | .install _ _, ev => ev.Works
  | .flush _, ev => ev.Changes
  | .flushHeld _, ev => ev.Changes
  | .flushAll, ev => ev.Changes
  | .discard page, ev => ev = .forgotten page
  | .release _ _, _ => False
  | .commit _, ev => ev.Changes
  | .abort txn, ev => ∃ page, ev = .forgotten page ∧ s.engine.locks.modeOf txn page = .exclusive

theorem goes_performUnder (h : s.Orderly) (ha : s.Allows a) (faults : Faults) :
    s.engine.cache.Goes (s.Admits a) (s.performUnder faults a).2.engine.cache := by
  cases a with
  | issue r =>
    obtain ⟨txn, -, hs⟩ := serves_perform h ha (.inl ⟨r, rfl⟩)
    exact hs.stages.goes
  | turn w =>
    obtain ⟨txn, -, hs⟩ := serves_perform h ha (.inr ⟨w, rfl⟩)
    exact hs.stages.goes
  | write k change =>
    show s.engine.cache.Goes _ (s.perform (.write k change)).2.engine.cache
    rcases write_cases s k change with ⟨err, he⟩ | ⟨q, -, he⟩
    · rw [he]
      exact .refl _ _
    · rw [he]
      exact .single (.changed k.page fun _ => change (q.markDirty (some k.txn))) ⟨_, rfl⟩
  | letGo k => exact .single (.handed _) rfl
  | evict =>
    show s.engine.cache.Goes _ (s.perform .evict).2.engine.cache
    rcases evict_cases s with he | ⟨page, c, hc, he⟩
    · rw [he]
      exact .refl _ _
    · rw [he]
      exact .single (Cache.evict_meets hc) ⟨page, rfl⟩
  | install txn p =>
    show s.engine.cache.Goes _ (s.perform (.install txn p)).2.engine.cache
    rcases install_cases s txn p with he | ⟨e, hi, he⟩
    · rw [he]
      exact .refl _ _
    · rw [he]
      obtain ⟨ev, hm, hw⟩ := meets_of_install hi
      exact .single hm hw
  | flush page => exact (flushesUnder_flushUnder faults s.engine page).goes
  | flushHeld txn => exact goes_flushEach faults (fun _ _ => .refl _ _) _ s.engine
  | flushAll => exact goes_flushEach faults (fun _ _ => .refl _ _) _ s.engine
  | discard page => exact .single (.forgotten page) rfl
  | release txn page => exact .refl _ _
  | commit txn => exact goes_commit faults s.engine txn
  | abort txn => exact goes_abort s.engine txn

/-- The events of an action in the cache, which keep to its capacity and spare what is marked, also
if writes of pages break off. -/
structure KeepsHouse (faults : Faults) (s : Service) (a : Action) (events : List Cache.Event) :
    Prop where
  /-- They make up what happens to the cached pages. -/
  undergoes : s.engine.cache.Undergoes events (s.performUnder faults a).2.engine.cache
  /-- They are what the action is there for. -/
  admits : ∀ ev ∈ events, s.Admits a ev
  /-- The cache can hold as many pages as before. -/
  capacity : (s.performUnder faults a).2.engine.cache.capacity = s.engine.cache.capacity
  /-- At most one page leaves for another one that is asked for or handed in, the log and the files
  are left alone, and the cache is too unless the action succeeds. -/
  one : s.ForOne a → (events.filterMap Cache.Event.leaver?).length ≤ 1 ∧
    (s.performUnder faults a).2.engine.toBacking = s.engine.toBacking ∧
    ((∃ reply, (s.performUnder faults a).1 = some (.ok reply)) ∨
      (s.performUnder faults a).2.engine.cache = s.engine.cache)
  /-- No request changes the log or what the files have, though files may grow. -/
  lengthens : (∃ r, a = .issue r) ∨ (∃ w, a = .turn w) →
    s.engine.toBacking.Lengthens (s.performUnder faults a).2.engine.toBacking
  /-- A marked page stays in its frame, unless it is to be forgotten. -/
  marked : (∀ txn, a ≠ .abort txn) → (∀ page, a ≠ .discard page) →
    ∀ {page f}, s.engine.cache.frame? page = some f → f.page.dirtiedBy ≠ none →
      ∃ f', (s.performUnder faults a).2.engine.cache.frame? page = some f' ∧ f'.serial = f.serial

theorem admits_of_purpose {ev : Cache.Event} (hp : s.purpose a = .fetch page) (hw : ev.Works) :
    s.Admits a ev := by
  cases a with
  | issue | turn => exact hw
  | _ => cases hp

/-- The events of an action that is for one page. -/
theorem undergoes_of_forOne (h : s.Orderly) (ha : s.Allows a) (hone : s.ForOne a) :
    ∃ events, s.engine.cache.Undergoes events (s.perform a).2.engine.cache ∧
      (∀ ev ∈ events, s.Admits a ev) ∧ (events.filterMap Cache.Event.leaver?).length ≤ 1 ∧
      (s.perform a).2.engine.toBacking = s.engine.toBacking ∧
      ((∃ reply, (s.perform a).1 = some (.ok reply)) ∨
        (s.perform a).2.engine.cache = s.engine.cache) := by
  rcases hone with ⟨page, hp⟩ | ⟨txn, p, rfl⟩
  · obtain ⟨txn, access, result, hf, ho⟩ := fetches_perform h ha hp
    obtain ⟨events, hund, hw, hlen, hb, hok⟩ := hf.undergoes
    refine ⟨events, hund, fun ev hev => admits_of_purpose hp (hw ev hev), hlen, hb, ?_⟩
    refine hok.imp_left ?_
    rintro ⟨reply, rfl⟩
    exact ⟨reply, ho⟩
  · cases hi : s.engine.install txn p with
    | error err =>
      have hperform : s.perform (.install txn p) = (some (.error err), s) := by
        simp only [Service.perform, hi]
      rw [hperform]
      exact ⟨[], .nil, List.forall_mem_nil _, Nat.zero_le _, rfl, .inr rfl⟩
    | ok e =>
      have hperform : s.perform (.install txn p) = (some (.ok .done), { s with engine := e }) := by
        simp only [Service.perform, hi]
      rw [hperform]
      obtain ⟨ev, hm, hw⟩ := meets_of_install hi
      obtain ⟨c, -, -, rfl⟩ := install_eq hi
      refine ⟨[ev], .cons hm .nil, ?_, List.length_filterMap_le .., rfl, .inl ⟨_, rfl⟩⟩
      intro ev' hev
      cases List.mem_singleton.1 hev
      exact hw

/-- What an action that is not for forgetting does to the cache leaves marked pages where they
are. -/
theorem marked_of_undergoes {events : List Cache.Event} {c' : Cache}
    (h : s.engine.cache.Undergoes events c') (hev : ∀ ev ∈ events, s.Admits a ev)
    (hab : ∀ txn, a ≠ .abort txn) (hdis : ∀ page, a ≠ .discard page) {f : Frame}
    (hf : s.engine.cache.frame? page = some f) (hd : f.page.dirtiedBy ≠ none) :
    ∃ f', c'.frame? page = some f' ∧ f'.serial = f.serial := by
  have hmarks : (∀ ev ∈ events, ev.Marks) →
      ∃ f', c'.frame? page = some f' ∧ f'.serial = f.serial := by
    intro hm
    obtain ⟨f', hf', hs, -⟩ := h.marked hm hf hd
    exact ⟨f', hf', hs⟩
  have hchanges : (∀ ev ∈ events, ev.leaver? = none) →
      ∃ f', c'.frame? page = some f' ∧ f'.serial = f.serial :=
    fun hn => h.frame?_of_not_left (fun ev hmem hl => nomatch (hn ev hmem).symm.trans hl) hf
  -- either only clean pages leave in such an action, or none at all
  cases a with
  | issue | turn | install => exact hmarks fun ev hmem => (hev ev hmem).1
  | evict =>
    refine hmarks fun ev hmem => ?_
    obtain ⟨pg, rfl⟩ := hev ev hmem
    trivial
  | write =>
    refine hchanges fun ev hmem => ?_
    obtain ⟨change, rfl⟩ := hev ev hmem
    rfl
  | letGo =>
    refine hchanges fun ev hmem => ?_
    cases hev ev hmem
    rfl
  | flush | flushHeld | flushAll | commit =>
    refine hchanges fun ev hmem => ?_
    obtain ⟨pg, change, rfl⟩ := hev ev hmem
    rfl
  | release => exact hchanges fun ev hmem => (hev ev hmem).elim
  | discard pg => exact absurd rfl (hdis pg)
  | abort txn => exact absurd rfl (hab txn)

/-- An action that is for one page writes none back. -/
theorem ForOne.performUnder_eq (h : s.ForOne a) (faults : Faults) :
    s.performUnder faults a = s.perform a := by
  rcases h with ⟨page, hp⟩ | ⟨txn, p, rfl⟩
  · cases a with
    | issue | turn => rfl
    | _ => cases hp
  · rfl

theorem exists_keepsHouse (h : s.Orderly) (ha : s.Allows a) (faults : Faults) :
    ∃ events, s.KeepsHouse faults a events := by
  have hlengthens : (∃ r, a = .issue r) ∨ (∃ w, a = .turn w) →
      s.engine.toBacking.Lengthens (s.performUnder faults a).2.engine.toBacking := by
    intro hreq
    obtain ⟨txn, -, hs⟩ := serves_perform h ha hreq
    rcases hreq with ⟨r, rfl⟩ | ⟨w, rfl⟩ <;> exact hs.lengthens
  by_cases hone : s.ForOne a
  · obtain ⟨events, hund, hev, hrest⟩ := undergoes_of_forOne h ha hone
    rw [← hone.performUnder_eq faults] at hund hrest
    exact ⟨events, hund, hev, hund.capacity, fun _ => hrest, hlengthens,
      fun hab hdis => marked_of_undergoes hund hev hab hdis⟩
  · obtain ⟨events, hund, hev⟩ := goes_performUnder h ha faults
    exact ⟨events, hund, hev, hund.capacity, fun hone' => absurd hone' hone, hlengthens,
      fun hab hdis => marked_of_undergoes hund hev hab hdis⟩

/-- A pool that can come about holds no more pages than it can. -/
theorem Reached.fits (h : s.Reached) : s.engine.cache.Fits := by
  induction h with
  | start hb capacity choices => exact .empty capacity choices
  | performUnder h ha faults ih =>
    obtain ⟨events, hund, -⟩ := goes_performUnder h.orderly ha faults
    exact hund.fits ih
  | outside _ _ ih => exact ih

/-! ## Room -/

/-- An eviction on request fails just if all cached pages are marked, and then nothing happens. -/
theorem perform_evict (s : Service) :
    (s.engine.cache.AllMarked ∧
      s.perform .evict = (some (.error (.allPagesDirty s.engine.cache.size)), s)) ∨
    (¬ s.engine.cache.AllMarked ∧ (s.perform .evict).1 = some (.ok .done)) := by
  rcases s.engine.cache.evict_cases with ⟨hall, he⟩ | ⟨hall, page, c, he⟩
  · refine .inl ⟨hall, ?_⟩
    have hengine : s.engine.evict = .error (.allPagesDirty s.engine.cache.size) := by
      rw [Engine.evict, he]
      rfl
    simp only [Service.perform, hengine]
  · refine .inr ⟨hall, ?_⟩
    have hengine : s.engine.evict = .ok (page, { s.engine with cache := c }) := by
      rw [Engine.evict, he]
      rfl
    simp only [Service.perform, hengine]

theorem Grants.perform_cases (h : s.Grants txn page access a)
    (hn : s.engine.cache.page? page = none) (hl : s.engine.load page = .ok p) :
    (¬ s.engine.cache.size < s.engine.cache.capacity ∧ s.engine.cache.AllMarked ∧
      (s.perform a).1 = some (.error (.allPagesDirty s.engine.cache.size)) ∧
      (s.perform a).2.engine.cache = s.engine.cache) ∨
    ((s.engine.cache.size < s.engine.cache.capacity ∨ ¬ s.engine.cache.AllMarked) ∧
      ∃ k, (s.perform a).1 = some (.ok (.handle k p))) := by
  obtain ⟨locks, keep, outcome, hp, ho⟩ := h.perform_eq
  rcases proceed_fetch_cases (e := { s.engine with locks }) txn access keep hn hl with
    ⟨hfull, hall, he⟩ | ⟨hroom, k, he⟩
  · obtain ⟨hout, heng⟩ := Prod.mk.inj (hp.symm.trans he)
    cases hout
    exact .inl ⟨hfull, hall, ho, by rw [heng]⟩
  · rw [hp] at he
    cases he
    exact .inr ⟨hroom, k, ho⟩

/-- With its lock, who hands in a copy of a page that is not cached is refused just if the cache is
full and all of it is marked. -/
theorem perform_install_cases (hx : s.engine.locks.modeOf txn p.id = .exclusive)
    (hn : s.engine.cache.page? p.id = none) :
    (¬ s.engine.cache.size < s.engine.cache.capacity ∧ s.engine.cache.AllMarked ∧
      s.perform (.install txn p) = (some (.error (.allPagesDirty s.engine.cache.size)), s)) ∨
    ((s.engine.cache.size < s.engine.cache.capacity ∨ ¬ s.engine.cache.AllMarked) ∧
      (s.perform (.install txn p)).1 = some (.ok .done)) := by
  have hput : s.engine.cache.put (p.markDirty (some txn)) =
      s.engine.cache.add (p.markDirty (some txn)) := by
    have hcon : s.engine.cache.contains p.id = false := by
      simp [Cache.contains, Cache.page?_eq_none_iff.1 hn]
    exact if_neg (by simpa [Page.markDirty] using hcon)
  have hinstall : s.engine.install txn p = (s.engine.cache.add (p.markDirty (some txn))).map
      fun cache => { s.engine with cache } := by
    rw [Engine.install, if_pos hx, hput]
    cases s.engine.cache.add (p.markDirty (some txn)) <;> rfl
  rcases Cache.add_iff (p := p.markDirty (some txn)) hn with
    ⟨hfull, hall, hadd⟩ | ⟨hroom, victim, c, hadd, -⟩
  · rw [hadd] at hinstall
    exact .inl ⟨hfull, hall, by simp only [Service.perform, hinstall, Except.map]⟩
  · rw [hadd] at hinstall
    exact .inr ⟨hroom, by simp only [Service.perform, hinstall, Except.map]⟩

/-- The cache is full, and no cached page is clean. -/
def Crowded (s : Service) : Prop :=
  s.engine.cache.size = s.engine.cache.capacity ∧ s.engine.cache.AllMarked

/-- What is so of the cached pages of a pool, whatever comes next. -/
structure WellHoused (s : Service) : Prop where
  /-- There are no more than the cache can hold. -/
  fits : s.engine.cache.size ≤ s.engine.cache.capacity
  /-- Every action spares what is marked, and makes room for what it asks for only. -/
  keeps : ∀ {a}, s.Allows a → ∀ faults, ∃ events, s.KeepsHouse faults a events
  /-- An eviction fails just if no cached page is clean, and then nothing happens. -/
  evict : ((∃ err, (s.perform .evict).1 = some (.error err)) ↔ s.engine.cache.AllMarked) ∧
    (s.engine.cache.AllMarked →
      s.perform .evict = (some (.error (.allPagesDirty s.engine.cache.size)), s))
  /-- With its lock, a page that exists and is not cached is had just if the cache is not full or
  some page is clean. -/
  fetch : ∀ {txn page access a p}, s.Grants txn page access a →
    s.engine.cache.page? page = none → s.engine.load page = .ok p →
    (s.Crowded → (s.perform a).1 = some (.error (.allPagesDirty s.engine.cache.size)) ∧
      (s.perform a).2.engine.cache = s.engine.cache) ∧
    (¬ s.Crowded → ∃ k, (s.perform a).1 = some (.ok (.handle k p)))
  /-- It is the same for a copy that is handed in. -/
  install : ∀ {txn p}, s.engine.locks.modeOf txn p.id = .exclusive →
    s.engine.cache.page? p.id = none →
    (s.Crowded →
      s.perform (.install txn p) = (some (.error (.allPagesDirty s.engine.cache.size)), s)) ∧
    (¬ s.Crowded → (s.perform (.install txn p)).1 = some (.ok .done))

theorem crowded_iff (h : s.engine.cache.Fits) :
    s.Crowded ↔ ¬ s.engine.cache.size < s.engine.cache.capacity ∧ s.engine.cache.AllMarked := by
  unfold Cache.Fits at h
  exact and_congr_left fun _ => ⟨fun he => by omega, fun hn => by omega⟩

/-- Whatever has been asked of a pool, it holds no more pages than it can, loses no change by making
room, and refuses room just if there is none. -/
theorem Reached.wellHoused (h : s.Reached) : s.WellHoused where
  fits := h.fits
  keeps ha faults := exists_keepsHouse h.orderly ha faults
  evict := by
    rcases s.perform_evict with ⟨hall, he⟩ | ⟨hall, he⟩
    · exact ⟨⟨fun _ => hall, fun _ => ⟨_, by rw [he]⟩⟩, fun _ => he⟩
    · refine ⟨⟨?_, fun hall' => absurd hall' hall⟩, fun hall' => absurd hall' hall⟩
      rintro ⟨err, herr⟩
      cases he.symm.trans herr
  fetch hg hn hl := by
    rw [crowded_iff h.fits]
    rcases hg.perform_cases hn hl with ⟨hfull, hall, ho, hc⟩ | ⟨hroom, hk⟩
    · exact ⟨fun _ => ⟨ho, hc⟩, fun hnot => absurd ⟨hfull, hall⟩ hnot⟩
    · exact ⟨fun ⟨hfull, hall⟩ => absurd hroom (not_or.2 ⟨hfull, not_not.2 hall⟩), fun _ => hk⟩
  install hx hn := by
    rw [crowded_iff h.fits]
    rcases perform_install_cases hx hn with ⟨hfull, hall, ho⟩ | ⟨hroom, ho⟩
    · exact ⟨fun _ => ho, fun hnot => absurd ⟨hfull, hall⟩ hnot⟩
    · exact ⟨fun ⟨hfull, hall⟩ => absurd hroom (not_or.2 ⟨hfull, not_not.2 hall⟩), fun _ => ho⟩

end Service

/-! ## A cache full of changes -/

namespace Sample

/-- A transaction changes two of the three pages. -/
def filling : List Action :=
  [.issue (.insert 2 table.id ⟨[.int 8], none⟩), .issue (.delete 2 (some ⟨wideAt 1, 0⟩))]

/-- The cache can hold no more than these. -/
def filled : Service := (choosing 0).after filling

theorem filed_wide : wide.Filed :=
  (Backing.filed_empty .empty .plain).add ⟨table.file, 9, _, 0⟩ table.schema _

theorem runs_filling : (choosing 0).Runs Service.Allows filling :=
  ⟨Service.not_hasBlocked_of_nil rfl 2, Service.not_hasBlocked_of_nil (by cbv) 2, trivial⟩

theorem reached_filled : filled.Reached :=
  (Service.Reached.start filed_wide 2 _).after runs_filling

/-- So there is no room for the third page, although nobody holds it. -/
theorem wellHoused_filled : filled.Reached ∧ filled.WellHoused ∧
    filled.Grants 3 (wideAt 2) .read (.issue (.fetch 3 (wideAt 2) .read false)) ∧
    filled.engine.cache.page? (wideAt 2) = none ∧
    (filled.engine.load (wideAt 2)).isOk = true ∧
    (filled.perform (.issue (.fetch 3 (wideAt 2) .read false))).1 =
      some (.error (.allPagesDirty 2)) ∧
    (filled.perform .evict).1 = some (.error (.allPagesDirty 2)) :=
  ⟨reached_filled, reached_filled.wellHoused, .issue false (by cbv), by cbv, by cbv, by cbv, by cbv⟩

end Sample

end RowStore
