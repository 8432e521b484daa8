import RowStore.Proofs.Call.Stage
import RowStore.Proofs.Pool.WriteBack
import RowStore.Proofs.Service.Sound

/-!
# Services of any kind

Of the many ways in which a service can be used, some leave its cached pages out of step with the
files: a transaction may give a page back that it has changed, write through a handle that it got
for an earlier lock, or put another page in the frame of the handle. `Service.Allows` leaves all of
this open. It only says that a transaction asks for one thing at a time.

What holds even then is that the locks stand side by side, and that the waiting calls are those of
the requests that wait for locks: such a service is *orderly*. And whatever is asked,
`Service.Serves` ties it to the course of a call.

For other properties `Engine.Outlasts` says what they have to outlast to be kept by every action.
One of them is that the cached copies are those of the pages that they are cached as, which is
`Engine.Keyed`: it is kept by everything but a change through a handle that is out for something
else.
-/

namespace RowStore

open Engine

/-- A request gets to its first lock by at most letting a table grow. -/
theorem Request.start_cases (r : Request) (e : Engine) :
    e.Moves r.txn (r.start e).2 ∧
      ∀ d, (r.start e).1.result = .inr d → d.txn = r.txn ∧ d.Fresh (r.start e).2 := by
  cases r with
  | fetch txn page access keep =>
    refine ⟨.refl, fun d hd => ?_⟩
    cases hd
    exact ⟨rfl, trivial⟩
  | insert txn id row =>
    unfold start
    dsimp only
    split
    · exact ⟨.refl, nofun⟩
    · next table _ => exact Insertion.start_cases ⟨txn, table, row, 0, 0, .free, false, true⟩ e
  | delete txn place =>
    cases place with
    | none => exact ⟨.refl, nofun⟩
    | some place =>
      unfold start
      dsimp only
      split
      · exact ⟨.refl, nofun⟩
      · refine ⟨.refl, fun d hd => ?_⟩
        cases hd
        exact ⟨rfl, trivial⟩
  | insertInto txn table row =>
    exact Insertion.start_cases ⟨txn, table, row, 0, 0, .free, false, false⟩ e
  | deleteFrom txn table place =>
    cases place with
    | none => exact ⟨.refl, nofun⟩
    | some place =>
      unfold start
      dsimp only
      split
      · exact ⟨.refl, nofun⟩
      · refine ⟨.refl, fun d hd => ?_⟩
        cases hd
        exact ⟨rfl, trivial⟩
  | scan txn table =>
    unfold start
    dsimp only
    split
    · exact ⟨.refl, nofun⟩
    · next c hc =>
      refine ⟨.refl, fun d hd => ?_⟩
      rcases c.result_serveAll (p := fun _ => True) [] fun _ => trivial with ⟨rs, hs⟩ | hs
      · cases hs.symm.trans hd
      · cases hs.symm.trans hd
        exact ⟨txn_openCursor hc, trivial⟩
  | take c count =>
    refine ⟨.refl, fun d hd => ?_⟩
    rcases c.result_serve (p := fun _ => True) count [] fun _ _ _ _ _ _ _ => trivial with
      ⟨xs, c', hs⟩ | ⟨rest, more, items, hs, ht⟩
    · cases hs.symm.trans hd
    · cases hs.symm.trans hd
      exact ⟨ht, trivial⟩

/-! ## Properties that outlast -/

namespace Engine

/-- The property of engines outlasts new locks, single moves and writing back, the loss of cached
copies, and changes of them that leave them copies of the same pages. -/
structure Outlasts (faults : Faults) (p : Engine → Prop) : Prop where
  /-- Locks do not matter. -/
  locks : ∀ {e : Engine} (locks : LockTable), p e → p { e with locks }
  /-- Copies may change and get lost. -/
  cache : ∀ {e : Engine} {c : Cache}, p e →
    (∀ {pg q}, c.page? pg = some q → ∃ p, e.cache.page? pg = some p ∧ q.id = p.id) →
    p { e with cache := c }
  /-- A move does no harm. -/
  move : ∀ {e e' : Engine} {txn : TxnId}, p e → e.Move txn e' → p e'
  /-- Nor does writing back a page. -/
  flush : ∀ {e e' : Engine} {page : PageId} {result : Except Error Unit}, p e →
    e.FlushesUnder faults page result e' → p e'

namespace Outlasts

variable {p : Engine → Prop} {faults : Faults} {e e' : Engine} {c : Cache} {txn : TxnId}

theorem lose (hp : Outlasts faults p) (hi : p e)
    (hc : ∀ {pg q}, c.page? pg = some q → e.cache.page? pg = some q) : p { e with cache := c } :=
  hp.cache hi fun hq => ⟨_, hc hq, rfl⟩

theorem stages (hp : Outlasts faults p) (hi : p e) (h : e.Stages txn e') : p e' :=
  h.keeps (fun hi hs => hs.keeps_of_moves hp.locks hp.move hi) hi

theorem commit (hp : Outlasts faults p) (txn : TxnId) (hi : p e) :
    p (e.commitUnder faults txn).2 := by
  have hrebase : ∀ {e : Engine} page, p e → p (rebase page e) := by
    intro e page hi
    refine hp.cache hi fun {pg q} hq => ?_
    obtain ⟨r, hr, hid, -⟩ := page?_rebase hq
    exact ⟨r, hr, hid⟩
  obtain ⟨e₁, hi, hc | hc⟩ := commit_keeps_under txn hp.flush hrebase hi
  · rw [hc]
    exact hi
  · rw [hc]
    exact hp.locks _ hi

theorem abort (hp : Outlasts faults p) (txn : TxnId) (hi : p e) : p (e.abort txn) := by
  obtain ⟨c, hc, hpages⟩ := abort_eq e txn
  rw [hc]
  refine hp.locks _ (hp.lose hi fun {pg q} hq => ?_)
  rw [hpages] at hq
  split at hq
  · cases hq
  · exact hq

end Outlasts

end Engine

namespace Service

variable {s s' : Service} {txn x : TxnId} {page : PageId} {o : Option Outcome} {r : Request}
  {w : Waiter} {c d : Call} {a : Action} {e : Engine}

/-- A transaction asks for one thing at a time, and requests that take turns wait. -/
def Allows (s : Service) : Action → Prop
  | .issue r => ¬ s.HasBlocked r.txn
  | .turn w => w ∈ s.engine.locks.waiting
  | _ => True

theorem not_hasBlocked_of_nil (h : s.blocked = []) (txn : TxnId) : ¬ s.HasBlocked txn := by
  rintro ⟨c, hc, -⟩
  rw [h] at hc
  cases hc

/-- The locks stand side by side, and the waiting calls are those of the requests that wait for
locks. -/
structure Orderly (s : Service) : Prop where
  /-- The locks stand side by side. -/
  safe : s.engine.locks.Safe
  /-- A request waits just if there is a waiting call that made it. -/
  waits : ∀ {txn page mode}, s.engine.locks.Waits txn page mode ↔
    ∃ c ∈ s.blocked, c.txn = txn ∧ c.page = page ∧ c.mode = mode
  /-- A transaction has at most one waiting call. -/
  nodup : (s.blocked.map Call.txn).Nodup

namespace Orderly

theorem start (backing : Backing) (capacity : Nat) (choices : Nat → Nat) :
    (start backing capacity choices).Orderly where
  safe := .empty
  waits := by
    intro txn page mode
    constructor
    · intro hw
      exact absurd hw LockTable.not_waits_empty
    · rintro ⟨c, hc, -⟩
      cases hc
  nodup := List.nodup_nil

theorem isBlocked_iff (h : s.Orderly) : s.engine.locks.IsBlocked txn ↔ s.HasBlocked txn :=
  isBlocked_iff_of_waits h.waits

/-- A change of the engine that leaves the waiting requests alone, and the locks side by side, keeps
the service orderly. -/
theorem withEngine (h : s.Orderly) (hs : e.locks.Safe)
    (hw : ∀ {txn p m}, e.locks.Waits txn p m ↔ s.engine.locks.Waits txn p m) :
    Orderly { s with engine := e } :=
  ⟨hs, hw.trans h.waits, h.nodup⟩

theorem of_locks (h : s.Orderly) (hl : e.locks = s.engine.locks) :
    Orderly { s with engine := e } :=
  h.withEngine (hl ▸ h.safe) (by rw [hl])

/-- A waiting request that takes a turn has a waiting call. -/
theorem find?_eq_some (h : s.Orderly) (hw : w ∈ s.engine.locks.waiting) :
    ∃ c ∈ s.blocked, s.blocked.find? (·.txn = w.txn) = some c ∧ c.txn = w.txn ∧
      c.page = w.page ∧ c.mode = w.mode := by
  obtain ⟨c, hc, ht, hp, hm⟩ := h.waits.1 (LockTable.waits_of_mem hw)
  exact ⟨c, hc, ht ▸ find?_txn h.nodup hc, ht, hp, hm⟩

end Orderly

/-! ## Requests -/

/-- What becomes of a service while the engine deals with a request of the transaction. -/
inductive Serves (s : Service) (txn : TxnId) (o : Option Outcome) (s' : Service) : Prop
  /-- The request ends before it needs a lock. -/
  | ended {outcome : Outcome} (ho : o = some outcome) (hm : s.engine.Moves txn s'.engine)
    (hi : ¬ s.HasBlocked txn) (hb : s'.blocked = s.blocked)
  /-- The engine goes on with a call, to its end or to a lock that it has to wait for. -/
  | course {e : Engine} {c : Call} {result : Outcome ⊕ Call} (hm : s.engine.Moves txn e)
    (hx : c.txn = txn) (hc : e.Course c result s'.engine) (ho : o = result.getLeft?)
    (hb : ∀ d, d ∈ s'.blocked ↔ d ∈ s.blocked ∧ d.txn ≠ txn ∨ result = .inr d)
    (hn : (s'.blocked.map Call.txn).Nodup)

/-- A request that has come to its first lock is gone on with. -/
theorem course_issue (h : s.Orderly) (hi : ¬ s.HasBlocked r.txn) {hc : True}
    (hr : r.start s.engine = (.waits c hc, e)) :
    ∃ result, e.Course c result (s.issue r).2.engine ∧ (s.issue r).1 = result.getLeft? ∧
      (∀ d, d ∈ (s.issue r).2.blocked ↔ d ∈ s.blocked ∧ d.txn ≠ r.txn ∨ result = .inr d) ∧
      ((s.issue r).2.blocked.map Call.txn).Nodup := by
  have hfree : ∀ d ∈ s.blocked, d.txn ≠ r.txn := fun d hd ht => hi ⟨d, hd, ht⟩
  obtain ⟨hm, hs⟩ := r.start_cases s.engine
  rw [hr] at hm hs
  obtain ⟨hx, hf⟩ := hs c rfl
  have hl : e.locks = s.engine.locks := hm.stays.locks
  have hcourse := course_run (p := fun _ => True) (fun _ _ => trivial) c trivial (e := e)
    (hl ▸ h.safe) (by rw [hl, h.isBlocked_iff, hx]; exact hi) hf
  unfold issue
  simp only [hr]
  generalize e.run (p := fun _ => True) _ c trivial = ran at hcourse
  obtain ⟨step, e₁⟩ := ran
  cases step with
  | finished outcome =>
    exact ⟨.inl outcome, hcourse, rfl, fun d => by simpa using hfree d, h.nodup⟩
  | waits next _ =>
    refine ⟨.inr next, hcourse, rfl, fun d => ?_, nodup_append_of_not_mem h.nodup ?_⟩
    · rw [List.mem_append, List.mem_singleton, Sum.inr.injEq, eq_comm (a := d)]
      exact or_congr_left ⟨fun hd => ⟨hd, hfree d hd⟩, fun hd => hd.1⟩
    · rw [hcourse.txn_eq, hx]
      exact hfree

/-- A waiting call that takes a turn is gone on with. -/
theorem course_turn (h : s.Orderly) (hw : w ∈ s.engine.locks.waiting)
    (hf : s.blocked.find? (·.txn = w.txn) = some c) :
    ∃ result, s.engine.Course c result (s.turn w).2.engine ∧ (s.turn w).1 = result.getLeft? ∧
      (∀ d, d ∈ (s.turn w).2.blocked ↔ d ∈ s.blocked ∧ d.txn ≠ w.txn ∨ result = .inr d) ∧
      ((s.turn w).2.blocked.map Call.txn).Nodup := by
  obtain ⟨c', hc, hf', ht, hp, hm⟩ := h.find?_eq_some hw
  obtain rfl : c' = c := Option.some.inj (hf'.symm.trans hf)
  have hj := judges_retry h.safe hw ht hp hm
  unfold turn
  rw [hf]
  generalize s.engine.locks.retry w = retried at hj
  obtain ⟨verdict, locks⟩ := retried
  dsimp only at hj ⊢
  by_cases hv : verdict = .blocked
  · subst hv
    rw [if_pos rfl]
    refine ⟨.inr c', .blocked hj, rfl, fun d => ?_, h.nodup⟩
    rw [Sum.inr.injEq]
    constructor
    · intro hd
      by_cases hdt : d.txn = w.txn
      · exact .inr (List.inj_on_of_nodup_map h.nodup hc hd (ht.trans hdt.symm))
      · exact .inl ⟨hd, hdt⟩
    · rintro (⟨hd, -⟩ | rfl)
      · exact hd
      · exact hc
  · rw [if_neg hv]
    have hcourse := course_resume hj hv
    generalize resume { s.engine with locks } c' (verdict = .granted) = resumed at hcourse
    obtain ⟨step, e₁⟩ := resumed
    cases step with
    | finished outcome =>
      refine ⟨.inl outcome, hcourse, rfl, fun d => ?_, nodup_callsOfOthers h.nodup⟩
      simpa using mem_callsOfOthers
    | waits next _ =>
      refine ⟨.inr next, hcourse, rfl, fun d => ?_,
        nodup_append_of_not_mem (nodup_callsOfOthers h.nodup) fun d hd => ?_⟩
      · rw [List.mem_append, List.mem_singleton, mem_callsOfOthers, Sum.inr.injEq,
          eq_comm (a := d)]
      · rw [hcourse.txn_eq, ht]
        exact (mem_callsOfOthers.1 hd).2

/-- A request is dealt with, at once and at each turn. -/
theorem serves_perform (h : s.Orderly) (ha : s.Allows a)
    (hc : (∃ r, a = .issue r) ∨ ∃ w, a = .turn w) :
    ∃ txn, a.actor = some txn ∧ s.Serves txn (s.perform a).1 (s.perform a).2 := by
  rcases hc with ⟨r, rfl⟩ | ⟨w, rfl⟩
  · refine ⟨r.txn, rfl, ?_⟩
    obtain ⟨hm, hs⟩ := r.start_cases s.engine
    cases hr : r.start s.engine with
    | mk step e =>
      rw [hr] at hm hs
      cases step with
      | finished outcome =>
        have hp : s.perform (.issue r) = (some outcome, { s with engine := e }) := by
          simp only [perform, issue, hr]
        rw [hp]
        exact .ended rfl hm ha rfl
      | waits c hc =>
        obtain ⟨result, hcourse, ho, hb, hn⟩ := course_issue h ha hr
        exact .course hm (hs c rfl).1 hcourse ho hb hn
  · refine ⟨w.txn, rfl, ?_⟩
    obtain ⟨c, -, hf, ht, -⟩ := h.find?_eq_some ha
    obtain ⟨result, hcourse, ho, hb, hn⟩ := course_turn h ha hf
    exact .course .refl ht hcourse ho hb hn

/-- Whatever becomes of a request, the engine goes through stages. -/
theorem Serves.stages (h : s.Serves txn o s') : s.engine.Stages txn s'.engine := by
  cases h with
  | ended _ hm => exact hm.stages
  | course hm hx hc => exact hm.stages.trans (hx ▸ hc.stages)

theorem Serves.orderly (h : s.Serves txn o s') (hs : s.Orderly) : s'.Orderly := by
  have hsafe := h.stages.safe hs.safe
  have hspares := h.stages.spares
  cases h with
  | ended _ hm hi hb =>
    refine ⟨hsafe, fun {x p m} => ?_, hb ▸ hs.nodup⟩
    rw [hb, hm.stays.locks]
    exact hs.waits
  | course hm hx hc _ hb hn =>
    refine ⟨hsafe, fun {x p m} => ?_, hn⟩
    by_cases hxt : x = txn
    · subst hxt
      rw [← hx, hc.waits]
      constructor
      · rintro ⟨d, rfl, rfl, rfl⟩
        exact ⟨d, (hb d).2 (.inr rfl), hc.txn_eq, rfl, rfl⟩
      · rintro ⟨d, hd, ht, rfl, rfl⟩
        rcases (hb d).1 hd with ⟨-, hne⟩ | hd
        · exact absurd (ht.trans hx) hne
        · exact ⟨d, hd, rfl, rfl⟩
    · rw [hspares.waits hxt, hs.waits]
      constructor
      · rintro ⟨d, hd, rfl, hpm⟩
        exact ⟨d, (hb d).2 (.inl ⟨hd, hxt⟩), rfl, hpm⟩
      · rintro ⟨d, hd, rfl, hpm⟩
        rcases (hb d).1 hd with ⟨hd, -⟩ | rfl
        · exact ⟨d, hd, rfl, hpm⟩
        · exact absurd (hc.txn_eq.trans hx) hxt

/-! ## Other actions -/

/-- An eviction, if it succeeds, takes one clean page from the cache. -/
theorem evict_cases (s : Service) : (s.perform .evict).2 = s ∨
    ∃ page c, s.engine.cache.evict = .ok (page, c) ∧
      (s.perform .evict).2 = { s with engine := { s.engine with cache := c } } := by
  unfold perform
  cases he : s.engine.evict with
  | error err => exact .inl rfl
  | ok y =>
    obtain ⟨page, e⟩ := y
    obtain ⟨⟨victim, c⟩, hv, hc⟩ := bind_eq_ok.1 he
    cases hc
    exact .inr ⟨_, c, hv, rfl⟩

/-- Making a copy of a page the cached one is a move, if it succeeds. -/
theorem install_cases (s : Service) (txn : TxnId) (p : Page) :
    (s.perform (.install txn p)).2 = s ∨
      ∃ e, s.engine.install txn p = .ok e ∧
        (s.perform (.install txn p)).2 = { s with engine := e } := by
  unfold perform
  cases hi : s.engine.install txn p with
  | error err =>
    simp only [hi]
    exact .inl trivial
  | ok e =>
    simp only [hi]
    exact .inr ⟨e, rfl, rfl⟩

/-- What is neither a request nor a turn leaves the waiting calls as they are. -/
theorem blocked_perform (s : Service) (h : ¬ ((∃ r, a = .issue r) ∨ ∃ w, a = .turn w)) :
    (s.perform a).2.blocked = s.blocked := by
  cases a with
  | issue r => exact absurd (.inl ⟨r, rfl⟩) h
  | turn w => exact absurd (.inr ⟨w, rfl⟩) h
  | write k change => rcases write_cases s k change with ⟨err, he⟩ | ⟨q, -, he⟩ <;> rw [he]
  | evict => rcases evict_cases s with he | ⟨page, c, -, he⟩ <;> rw [he]
  | install txn p => rcases install_cases s txn p with he | ⟨e, -, he⟩ <;> rw [he]
  | letGo | flush | flushHeld | flushAll | discard | release | commit | abort => rfl

theorem Orderly.performUnder (h : s.Orderly) (ha : s.Allows a) (faults : Faults) :
    (s.performUnder faults a).2.Orderly := by
  cases a with
  | issue r =>
    obtain ⟨txn, -, hs⟩ := serves_perform h ha (.inl ⟨r, rfl⟩)
    exact hs.orderly h
  | turn w =>
    obtain ⟨txn, -, hs⟩ := serves_perform h ha (.inr ⟨w, rfl⟩)
    exact hs.orderly h
  | write k change =>
    show (s.perform (.write k change)).2.Orderly
    rcases write_cases s k change with ⟨err, he⟩ | ⟨q, -, he⟩
    · rw [he]
      exact h
    · rw [he]
      exact h.of_locks rfl
  | letGo k => exact h.of_locks rfl
  | evict =>
    show (s.perform .evict).2.Orderly
    rcases evict_cases s with he | ⟨page, c, -, he⟩
    · rw [he]
      exact h
    · rw [he]
      exact h.of_locks rfl
  | install txn p =>
    show (s.perform (.install txn p)).2.Orderly
    rcases install_cases s txn p with he | ⟨e, hi, he⟩
    · rw [he]
      exact h
    · rw [he]
      exact h.of_locks (Move.install hi).stays.locks
  | flush page => exact h.of_locks (flushesUnder_flushUnder faults s.engine page).locks
  | flushHeld txn => exact h.of_locks (locks_flushEach faults (fun _ _ => rfl) _ s.engine)
  | flushAll => exact h.of_locks (locks_flushEach faults (fun _ _ => rfl) _ s.engine)
  | discard page => exact h.of_locks rfl
  | release txn page =>
    exact h.withEngine (e := s.engine.release txn page) (h.safe.release txn page)
      LockTable.waits_release
  | commit txn =>
    rcases locks_commit faults s.engine txn with hl | hl
    · exact h.of_locks hl
    · refine h.withEngine (e := (s.engine.commitUnder faults txn).2) ?_ ?_
      · rw [hl]
        exact h.safe.releaseAll txn
      · rw [hl]
        exact LockTable.waits_releaseAll
  | abort txn =>
    have hl := locks_abort s.engine txn
    refine h.withEngine (e := s.engine.abort txn) ?_ ?_
    · rw [hl]
      exact h.safe.releaseAll txn
    · rw [hl]
      exact LockTable.waits_releaseAll

theorem Orderly.perform (h : s.Orderly) (ha : s.Allows a) : (s.perform a).2.Orderly := by
  rw [← performUnder_none]
  exact h.performUnder ha .none

/-! ## What every action keeps -/

variable {p : Engine → Prop} {faults : Faults}

/-- A property that outlasts is kept by every action, if it is kept by the change through a handle
that the action may be. What that puts in a frame may be a copy of another page. -/
theorem performUnder_keeps (hp : Outlasts faults p) (h : s.Orderly) (ha : s.Allows a)
    (hwrite : ∀ {k : Handle} {change : Page → Page} {q : Page}, a = .write k change →
      s.engine.cache.page? k.page = some q → p { s.engine with
        cache := s.engine.cache.update k.page fun _ => change (q.markDirty (some k.txn)) })
    (hi : p s.engine) : p (s.performUnder faults a).2.engine := by
  cases a with
  | issue r =>
    obtain ⟨txn, -, hs⟩ := serves_perform h ha (.inl ⟨r, rfl⟩)
    exact hp.stages hi hs.stages
  | turn w =>
    obtain ⟨txn, -, hs⟩ := serves_perform h ha (.inr ⟨w, rfl⟩)
    exact hp.stages hi hs.stages
  | write k change =>
    show p (s.perform (.write k change)).2.engine
    rcases write_cases s k change with ⟨err, he⟩ | ⟨q, hq, he⟩
    · rw [he]
      exact hi
    · rw [he]
      exact hwrite rfl hq
  | letGo k => exact hp.lose hi fun hq => hq
  | evict =>
    show p (s.perform .evict).2.engine
    rcases evict_cases s with he | ⟨page, c, hev, he⟩
    · rw [he]
      exact hi
    · rw [he]
      obtain ⟨-, rfl⟩ := Cache.evict_eq_ok hev
      exact hp.lose hi Cache.page?_of_discard
  | install txn r =>
    show p (s.perform (.install txn r)).2.engine
    rcases install_cases s txn r with he | ⟨e, hins, he⟩
    · rw [he]
      exact hi
    · rw [he]
      exact hp.move hi (.install hins)
  | flush page => exact hp.flush hi (flushesUnder_flushUnder faults s.engine page)
  | flushHeld txn => exact flushEach_keeps_under hp.flush (fun _ hi => hi) _ hi
  | flushAll => exact flushEach_keeps_under hp.flush (fun _ hi => hi) _ hi
  | discard page => exact hp.lose hi Cache.page?_of_discard
  | release txn page => exact hp.locks _ hi
  | commit txn => exact hp.commit txn hi
  | abort txn => exact hp.abort txn hi

/-- As long as no write breaks off, this holds of a property that does not depend on the cache. -/
theorem perform_keeps (h : s.Orderly) (ha : s.Allows a)
    (hlocks : ∀ {e : Engine} locks, p e → p { e with locks })
    (hcache : ∀ {e : Engine} (c : Cache), p e → p { e with cache := c })
    (hmove : ∀ {e e' : Engine} {txn}, p e → e.Move txn e' → p e')
    (hflush : ∀ {e e' : Engine} {page result}, p e → e.Flushes page result e' → p e')
    (hi : p s.engine) : p (s.perform a).2.engine := by
  have hp : Outlasts .none p :=
    ⟨hlocks, fun hi _ => hcache _ hi, hmove, fun hi hf => hflush hi hf.whole_of_none⟩
  rw [← performUnder_none]
  exact performUnder_keeps hp h ha (fun _ _ => hcache _ hi) hi

/-- As long as changes through handles leave pages the ones that they are, every cached copy stays
one of the page that it is cached as. -/
theorem keyed_perform (h : s.Orderly) (hk : s.engine.Keyed) (ha : s.Allows a)
    (hn : a.KeepsNames) : (s.perform a).2.engine.Keyed := by
  have hp : Outlasts .none Engine.Keyed := by
    refine ⟨fun _ hk => hk, fun hk hc pg q hq => ?_, fun hk hm => hm.keyed hk,
      fun hk hf => hf.whole_of_none.keyed hk⟩
    obtain ⟨p, hp, hid⟩ := hc hq
    exact hid.trans (hk hp)
  rw [← performUnder_none]
  refine performUnder_keeps hp h ha ?_ hk
  rintro k change q rfl hq pg r hr
  rcases Cache.page?_update_eq_some hr with ⟨rfl, -, -, rfl⟩ | hr
  · have hid : (change (q.markDirty (some k.txn))).id = q.id := hn _
    exact hid.trans (hk hq)
  · exact hk hr

end Service

end RowStore
