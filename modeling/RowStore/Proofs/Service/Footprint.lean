import RowStore.Proofs.Call.Footing
import RowStore.Proofs.Service.Insertion
import RowStore.Proofs.Service.Repeatable

/-!
# The locks that an insertion leaves behind

An insertion may have to wait, for one page after the other, and others may do what they like
meanwhile. If it succeeds in the end then its transaction holds the page with the row for itself
alone. Of the pages that were found full it holds those that it held before, and now for itself
alone too, and it holds all other pages as before. `Service.Footprint` says this, and that whenever
it was the transaction's turn only the page with the row was changed, and no page that the
transaction held for itself alone was ever given back.

The transactions that act in between have no bearing on it: none of them touches the locks of
another, or the call that another waits with. So what the insertion knows of its footing when it has
to wait is still so when it gets its turn.
-/

namespace RowStore

open Engine

/-- The action is a request of the transaction, or a turn of one. -/
def Action.IsCallOf (txn : TxnId) : Action → Prop
  | issue r => r.txn = txn
  | turn w => w.txn = txn
  | _ => False

theorem Action.IsCallOf.actor {txn : TxnId} {a : Action} (h : a.IsCallOf txn) :
    a.actor = some txn := by
  cases a with
  | issue | turn => exact congrArg some h
  | _ => exact h.elim

namespace Service

variable {s : Service} {a : Action} {as : List Action} {txn : TxnId} {id : TableId} {row : Row}
  {page : PageId} {reply : Reply} {held : PageId → LockMode} {t : Table} {n first : Nat}
  {i : Insertion}

/-! ## Runs in which a request succeeds -/

/-- Some action of the run is of this kind. -/
inductive Sometime (p : Service → Action → Prop) : Service → List Action → Prop
  /-- The first one is. -/
  | now {s : Service} {a : Action} {as : List Action} (h : p s a) : Sometime p s (a :: as)
  /-- A later one is. -/
  | later {s : Service} {a : Action} {as : List Action} (h : Sometime p (s.perform a).2 as) :
    Sometime p s (a :: as)

/-- The transaction does nothing but go on with a call, up to the last action, with which the call
succeeds. -/
inductive Carries (txn : TxnId) (reply : Reply) : Service → List Action → Prop
  /-- The call succeeds. -/
  | succeeds {s : Service} {a : Action} (ha : a.IsCallOf txn)
    (ho : (s.perform a).1 = some (.ok reply)) : Carries txn reply s [a]
  /-- The call has to wait. -/
  | waits {s : Service} {a : Action} {as : List Action} (ha : a.IsCallOf txn)
    (ho : (s.perform a).1 = none) (h : Carries txn reply (s.perform a).2 as) :
    Carries txn reply s (a :: as)
  /-- Somebody else acts. -/
  | other {s : Service} {a : Action} {as : List Action} (ha : a.actor ≠ some txn)
    (h : Carries txn reply (s.perform a).2 as) : Carries txn reply s (a :: as)

/-- It is the transaction's turn, and the page is full. -/
structure FindsFull (txn : TxnId) (page : PageId) (s : Service) (a : Action) : Prop where
  /-- It is the transaction's turn. -/
  call : a.IsCallOf txn
  /-- The page is full. -/
  full : ∃ p, s.engine.seen page = some p ∧ p.Full

/-- Transactions see all pages but one as they were, and they are marked as they were. -/
structure ChangesOnly (page : PageId) (s : Service) (a : Action) : Prop where
  /-- Transactions see them as they were. -/
  seen : ∀ {pg p}, pg ≠ page → s.engine.seen pg = some p → (s.perform a).2.engine.seen pg = some p
  /-- They are marked as they were. -/
  marked : ∀ {pg}, pg ≠ page →
    (s.perform a).2.engine.cache.marked? pg = s.engine.cache.marked? pg

/-- The transaction goes on holding what it holds for itself alone, which is all that it has
changed. -/
structure KeepsSole (txn : TxnId) (s : Service) (a : Action) : Prop where
  /-- What it holds for itself alone it goes on holding so. -/
  held : ∀ {pg}, s.engine.locks.modeOf txn pg = .exclusive →
    (s.perform a).2.engine.locks.modeOf txn pg = .exclusive
  /-- What it has changed it holds for itself alone. -/
  changed : ∀ {pg q}, s.engine.cache.page? pg = some q → q.dirtiedBy = some txn →
    s.engine.locks.modeOf txn pg = .exclusive

/-- What the run has led to for a transaction that has inserted a row on it into a page, given how
it held pages before. -/
structure Footprint (held : PageId → LockMode) (txn : TxnId) (t : Table) (row : Row) (n first : Nat)
    (page : PageId) (s : Service) (as : List Action) : Prop where
  /-- The page is one of the table. -/
  table : page.table = t.id
  /-- The transaction holds it for itself alone. -/
  exclusive : (s.after as).engine.locks.modeOf txn page = .exclusive
  /-- It has the row. -/
  row : ∃ slot, rowsOf (s.after as).engine.seen ⟨page, slot⟩ = some row.encode
  /-- The pages before were full when the transaction tried them. -/
  full : ∀ k, first ≤ k → k < page.number → k < n → s.Sometime (FindsFull txn ⟨t.id, k⟩) as
  /-- They are held if they were, and then for the transaction alone. -/
  passed : ∀ {pg}, Insertion.Passed t.id n page.number pg →
    (s.after as).engine.locks.modeOf txn pg = Insertion.afterProbe (held pg)
  /-- The other pages are held as they were. -/
  others : ∀ {pg}, pg ≠ page → ¬ Insertion.Passed t.id n page.number pg →
    (s.after as).engine.locks.modeOf txn pg = held pg
  /-- At the transaction's turns no other page is changed. -/
  changes : s.Runs (fun s a => a.IsCallOf txn → s.ChangesOnly page a) as
  /-- No page that the transaction holds for itself alone is given back. -/
  keeps : s.Runs (KeepsSole txn) as

/-! ## Actions of others -/

/-- The actions of others have no bearing on the locks of a transaction. -/
theorem Orderly.modeOf_perform_of_ne (h : s.Orderly) (ha : s.PermitsWrites a)
    (hx : a.actor ≠ some txn) (page : PageId) :
    (s.perform a).2.engine.locks.modeOf txn page = s.engine.locks.modeOf txn page := by
  have hallows := ha.allows
  have hends : ∀ {x}, a.actor = some x →
      (s.perform a).2.engine.locks = s.engine.locks.releaseAll x →
      (s.perform a).2.engine.locks.modeOf txn page = s.engine.locks.modeOf txn page := by
    rintro x hact hl
    rw [hl, LockTable.modeOf_releaseAll, if_neg]
    rintro rfl
    exact hx hact
  rcases ha with ⟨hper, -⟩ | ⟨k, change, rfl, -⟩
  · cases a with
    | issue r =>
      obtain ⟨x, hact, hs⟩ := serves_perform h hallows (.inl ⟨r, rfl⟩)
      exact hs.stages.spares.modeOf_eq fun hxt => hx (hxt ▸ hact)
    | turn w =>
      obtain ⟨x, hact, hs⟩ := serves_perform h hallows (.inr ⟨w, rfl⟩)
      exact hs.stages.spares.modeOf_eq fun hxt => hx (hxt ▸ hact)
    | letGo k => rfl
    | evict => rcases evict_cases s with he | ⟨pg, c, -, he⟩ <;> rw [he]
    | commit x =>
      rcases locks_commit .none s.engine x with hl | hl
      · exact congrArg (·.modeOf txn page) hl
      · exact hends rfl hl
    | abort x => exact hends rfl (locks_abort s.engine x)
    | write | install | flush | flushHeld | flushAll | discard | release => exact hper.elim
  · rcases write_cases s k change with ⟨err, he⟩ | ⟨q, -, he⟩ <;> rw [he]

/-- Nor do they have any on the call that it waits with. -/
theorem Orderly.blocked_perform_of_ne (h : s.Orderly) (ha : s.Allows a) (hx : a.actor ≠ some txn)
    {c : Call} (hc : c ∈ s.blocked) (ht : c.txn = txn) : c ∈ (s.perform a).2.blocked := by
  by_cases hcall : (∃ r, a = .issue r) ∨ ∃ w, a = .turn w
  · obtain ⟨x, hact, hs⟩ := serves_perform h ha hcall
    cases hs with
    | ended _ _ _ hb => exact hb ▸ hc
    | course _ _ _ _ hb =>
      refine (hb c).2 (.inl ⟨hc, ?_⟩)
      rintro rfl
      exact hx (ht ▸ hact)
  · rwa [s.blocked_perform hcall]

/-! ## Actions of the transaction -/

/-- Going on with a call takes nobody's sole use of a page away. -/
theorem Moves.exclusive {task : Purpose} {o : Option Outcome} {s' : Service} {x : TxnId}
    (h : s.Moves txn task o s') (ho : o ≠ some (.error .overflow))
    (hx : s.engine.locks.modeOf x page = .exclusive) :
    s'.engine.locks.modeOf x page = .exclusive := by
  obtain ⟨⟨result, hp, hres, -⟩, -⟩ := h
  cases hp with
  | done _ _ _ _ _ _ he => exact he.exclusive hx
  | looked _ _ _ _ hq => exact hq.exclusive hx
  | failed _ _ hq => exact hq.exclusive hx
  | overflown => exact absurd hres ho
  | waits _ _ _ _ hq => exact hq.exclusive hx

/-- A transaction that only goes on with calls keeps the pages that it holds for itself alone. -/
theorem Sound.keepsSole (h : s.Sound) (ho : s.Orderly) (ha : s.PermitsWrites a)
    (hx : a.IsCallOf txn ∨ a.actor ≠ some txn) : s.KeepsSole txn a where
  held {pg} hpg := by
    rcases hx with hx | hx
    · have hcall : (∃ r, a = .issue r) ∨ ∃ w, a = .turn w := by
        cases a with
        | issue r => exact .inl ⟨r, rfl⟩
        | turn w => exact .inr ⟨w, rfl⟩
        | _ => exact hx.elim
      rcases ha with ha | ⟨k, change, rfl, -⟩
      · obtain ⟨x, -, hm⟩ := moves_perform h ha hcall
        exact hm.exclusive ha.2 hpg
      · exact hx.elim
    · rw [ho.modeOf_perform_of_ne ha hx]
      exact hpg
  changed hq hd := h.engine.owner hq hd

/-- A transaction with a waiting call that goes on with a call takes a turn. -/
theorem PermitsWrites.turn_of_hasBlocked (ha : s.PermitsWrites a) (hc : a.IsCallOf txn)
    (hb : s.HasBlocked txn) : ∃ w ∈ s.engine.locks.waiting, a = .turn w ∧ w.txn = txn := by
  have hallows := ha.allows
  cases a with
  | issue r =>
    obtain rfl : r.txn = txn := hc
    exact absurd hb hallows
  | turn w => exact ⟨w, hallows, rfl, hc⟩
  | _ => exact hc.elim

/-- The transaction goes on with its insertion. -/
theorem Orderly.way_of_blocked (h : s.Orderly) (ha : s.PermitsWrites a) (hc : a.IsCallOf txn)
    (hi : Call.insert i ∈ s.blocked) (hx : i.txn = txn) :
    ∃ result, i.Way s.engine result (s.perform a).2.engine ∧
      (s.perform a).1 = result.getLeft? ∧ ∀ d, result = .inr d → d ∈ (s.perform a).2.blocked := by
  obtain ⟨w, hw, rfl, hwx⟩ := ha.turn_of_hasBlocked hc ⟨_, hi, hx⟩
  have hf : s.blocked.find? (·.txn = w.txn) = some (.insert i) := by
    rw [hwx, ← hx]
    exact find?_txn h.nodup hi
  obtain ⟨result, hway, ho, hb⟩ := way_turn h hw hf
  exact ⟨result, hway, ho, fun d hd => (hb d).2 (.inr hd)⟩

/-! ## Runs -/

theorem footprint_singleton (ha : a.IsCallOf txn) (hk : s.KeepsSole txn a)
    (h : Insertion.Arrives held txn t row n first page s.engine (s.perform a).2.engine) :
    s.Footprint held txn t row n first page [a] where
  table := h.table
  exclusive := h.exclusive
  row := h.row
  full k hfirst hpage hn := .now ⟨ha, h.full k hfirst hpage hn⟩
  passed := h.passed
  others := h.others
  changes := ⟨fun _ => ⟨h.seen, h.marked⟩, trivial⟩
  keeps := ⟨hk, trivial⟩

theorem Footprint.cons {next : Nat} (h : (s.perform a).2.Footprint held txn t row n next page as)
    (hfull : ∀ k, first ≤ k → k < next → k < n → s.FindsFull txn ⟨t.id, k⟩ a)
    (hc : a.IsCallOf txn → s.ChangesOnly page a) (hk : s.KeepsSole txn a) :
    s.Footprint held txn t row n first page (a :: as) where
  table := h.table
  exclusive := h.exclusive
  row := h.row
  full k hfirst hpage hn := by
    by_cases hnext : k < next
    · exact .now (hfull k hfirst hnext hn)
    · exact .later (h.full k (Nat.not_lt.1 hnext) hpage hn)
  passed := h.passed
  others := h.others
  changes := ⟨hc, h.changes⟩
  keeps := ⟨hk, h.keeps⟩

/-- What the transaction has come to when its insertion has to wait. -/
theorem changesOnly_of_passing {e : Engine} (hs : s.Sound)
    (ht : s.engine.catalog.table i.table.id = .ok i.table) (he : (s.perform a).2.engine = e)
    (hp : Insertion.Passing s.engine first i e) (page : PageId) : s.ChangesOnly page a where
  seen _ hq := by
    rw [he]
    exact (hp.grows_seen hs.engine.toCoherent ht).eq_some hq
  marked _ := by
    rw [he]
    exact hp.marked?_eq _

/-- An insertion that waits, and succeeds in the end, leaves its footprint. -/
theorem Carries.footprint_of_blocked (h : Carries txn reply s as) (hs : s.Sound) (ho : s.Orderly)
    (hr : s.Runs PermitsWrites as) (hi : Call.insert i ∈ s.blocked) (hx : i.txn = txn)
    (hf : Insertion.Footing held i s.engine) :
    ∃ page, s.Footprint held txn i.table i.row i.count i.number page as := by
  induction h generalizing i with
  | @succeeds s a ha hok =>
    obtain ⟨result, hway, hres, -⟩ := ho.way_of_blocked hr.1 ha hi hx
    obtain rfl := Sum.getLeft?_eq_some_iff.1 (hres.symm.trans hok)
    obtain ⟨page, harr⟩ :=
      hway.arrives (.refl s.engine hf.lt) hf hs.engine.toCoherent (hs.known hi)
    rw [hx] at harr
    exact ⟨page, footprint_singleton ha (hs.keepsSole ho hr.1 (.inl ha)) harr⟩
  | @waits s a as ha hnone _ ih =>
    obtain ⟨result, hway, hres, hblocked⟩ := ho.way_of_blocked hr.1 ha hi hx
    obtain ⟨c, rfl⟩ := Sum.isRight_iff.1 (Sum.getLeft?_eq_none_iff.1 (hres.symm.trans hnone))
    have ht := hs.known hi
    obtain ⟨j, rfl, hfol, hcount, hp, hfj⟩ :=
      hway.waits (.refl s.engine hf.lt) hf hs.engine.toCoherent ht
    obtain ⟨page, hfoot⟩ := ih (hs.perform hr.1) (ho.perform hr.1.allows) hr.2
      (hblocked _ rfl) (hfol.txn.trans hx) hfj
    rw [hfol.table, hfol.row, hcount] at hfoot
    have htj : s.engine.catalog.table j.table.id = .ok j.table := hfol.table.symm ▸ ht
    refine ⟨page, hfoot.cons (fun k hfirst hk hn => ⟨ha, ?_⟩)
      (fun _ => changesOnly_of_passing hs htj rfl hp page) (hs.keepsSole ho hr.1 (.inl ha))⟩
    rw [← hfol.table]
    exact hp.full k hfirst hk (hcount.symm ▸ hn)
  | @other s a as ha _ ih =>
    have hmode := ho.modeOf_perform_of_ne hr.1 ha
    obtain ⟨page, hfoot⟩ := ih (hs.perform hr.1) (ho.perform hr.1.allows) hr.2
      (ho.blocked_perform_of_ne hr.1.allows ha hi hx) hx
      (hf.congr fun {page} _ => by rw [hx, hmode])
    exact ⟨page, hfoot.cons (fun k hfirst hk _ => absurd hfirst (Nat.not_le.2 hk))
      (fun hc => absurd hc.actor ha) (hs.keepsSole ho hr.1 (.inr ha))⟩

/-- In a run that starts with an empty pool, a request to insert a row leaves its footprint, if it
succeeds after it has waited for as many locks as it may be, and its transaction has done nothing
else meanwhile. -/
theorem Runs.footprint {backing : Backing} (hb : backing.WellFormed) {capacity : Nat}
    {choices : Nat → Nat} {before : List Action}
    (h : (start backing capacity choices).Runs PermitsWrites before)
    (hs : (start backing capacity choices).after before = s)
    (hr : s.Runs PermitsWrites (.issue (.insert txn id row) :: as))
    (hc : Carries txn reply s (.issue (.insert txn id row) :: as)) :
    ∃ t n page, s.engine.catalog.table id = .ok t ∧ s.engine.disk.pageCount t = .ok n ∧
      s.Footprint (s.engine.locks.modeOf txn) txn t row n 0 page
        (.issue (.insert txn id row) :: as) := by
  have hsound : s.Sound := hs ▸ (Sound.start hb capacity choices).after h
  have horderly : s.Orderly := hs ▸ (Orderly.start backing capacity choices).after h
  have hcall : (Action.issue (.insert txn id row)).IsCallOf txn := rfl
  have hkeeps := hsound.keepsSole horderly hr.1 (.inl hcall)
  have hcoherent := hsound.engine.toCoherent
  have hissue : s.perform (.issue (.insert txn id row)) = s.issue (.insert txn id row) := rfl
  cases ht : s.engine.catalog.table id with
  | error err =>
    have hfail : s.issue (.insert txn id row) = _ := issue_insert_of_error ht
    cases hc with
    | succeeds _ ho =>
      rw [hissue, hfail] at ho
      cases ho
    | waits _ ho =>
      rw [hissue, hfail] at ho
      cases ho
    | other ha => exact absurd rfl ha
  | ok t =>
    have hid : t.id = id := (hsound.engine.table_id ht).1
    have ht' : s.engine.catalog.table t.id = .ok t := hid.symm ▸ ht
    obtain ⟨result, htrip, hres, hblocked⟩ := trip_issue horderly hr.1.allows (start_insert ht)
    rw [← hissue] at htrip hres hblocked
    cases hc with
    | succeeds _ ho =>
      obtain rfl := Sum.getLeft?_eq_some_iff.1 (hres.symm.trans ho)
      obtain ⟨n, page, hn, harr⟩ := htrip.arrives rfl rfl hcoherent ht'
      exact ⟨t, n, page, rfl, hn, footprint_singleton hcall hkeeps harr⟩
    | waits _ ho hc =>
      obtain ⟨c, rfl⟩ := Sum.isRight_iff.1 (Sum.getLeft?_eq_none_iff.1 (hres.symm.trans ho))
      obtain ⟨j, rfl, hfol, hn, hp, hf⟩ := htrip.waits rfl rfl hcoherent ht'
      obtain ⟨page, hfoot⟩ := hc.footprint_of_blocked (hsound.perform hr.1)
        (horderly.perform hr.1.allows) hr.2 ((hblocked _).2 (.inr rfl)) hfol.txn hf
      have htable : j.table = t := hfol.table
      have hrow : j.row = row := hfol.row
      rw [htable, hrow] at hfoot
      refine ⟨t, j.count, page, rfl, hn, hfoot.cons (fun k hfirst hk hcount => ⟨hcall, ?_⟩)
        (fun _ => changesOnly_of_passing hsound (htable.symm ▸ ht') rfl hp page) hkeeps⟩
      rw [← htable]
      exact hp.full k hfirst hk hcount
    | other ha => exact absurd rfl ha

end Service

namespace Sample

/-- The first transaction shares the second page, and the second one shares the first page. -/
def sharing : List Action :=
  [.issue (.fetch 1 ⟨table.id, 1⟩ .read false), .issue (.fetch 2 page .read false)]

/-- The service after that. The pool has room for one page. -/
def shared : Service := (Service.start crowded 1 id).after sharing

/-- The first transaction inserts a row, and has to wait until the second one has ended. -/
def waiting : List Action :=
  [.issue (.insert 1 table.id ⟨[.int 1], none⟩), .commit 2, .turn ⟨1, page, .exclusive, true⟩]

theorem runs_sharing : (Service.start crowded 1 id).Runs Service.PermitsWrites sharing :=
  ⟨.inl ⟨⟨trivial, of_decide_eq_true (by cbv)⟩, of_decide_eq_true (by cbv)⟩,
    .inl ⟨⟨trivial, of_decide_eq_true (by cbv)⟩, of_decide_eq_true (by cbv)⟩, trivial⟩

theorem runs_waiting : shared.Runs Service.PermitsWrites waiting :=
  ⟨.inl ⟨⟨trivial, of_decide_eq_true (by cbv)⟩, of_decide_eq_true (by cbv)⟩,
    .inl ⟨of_decide_eq_true (by cbv), of_decide_eq_true (by cbv)⟩,
    .inl ⟨of_decide_eq_true (by cbv), of_decide_eq_true (by cbv)⟩, trivial⟩

theorem carries_waiting : Service.Carries 1 .done shared waiting :=
  .waits rfl (by cbv) (.other nofun (.succeeds rfl (by cbv)))

/-- The first page, which the transaction had no lock on, is given back. The second, which it
shared, it holds for itself alone. -/
theorem footprint_waiting : crowded.WellFormed ∧
    (Service.start crowded 1 id).Runs Service.PermitsWrites sharing ∧
    shared.Runs Service.PermitsWrites waiting ∧ Service.Carries 1 .done shared waiting ∧
    (∃ t n page, shared.engine.catalog.table table.id = .ok t ∧
      shared.engine.disk.pageCount t = .ok n ∧
      shared.Footprint (shared.engine.locks.modeOf 1) 1 t ⟨[.int 1], none⟩ n 0 page waiting) ∧
    [0, 1, 2].map (fun n => (shared.after waiting).engine.locks.modeOf 1 ⟨table.id, n⟩) =
      [.free, .exclusive, .exclusive] :=
  ⟨wellFormed_crowded, runs_sharing, runs_waiting, carries_waiting,
    Service.Runs.footprint wellFormed_crowded runs_sharing rfl runs_waiting carries_waiting, by cbv⟩

end Sample

end RowStore
