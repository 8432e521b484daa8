import RowStore.Proofs.Service.Action

/-!
# What holds all along a run of a service

A service is *sound* if its engine is, and if the requests that wait for locks are those of its
waiting calls. Every permitted action keeps a service sound. For the actions that may make a
transaction wait this comes from `Service.Moves`, which ties what the engine makes of the call to
what becomes of the list of waiting calls.
-/

namespace RowStore

open Engine

namespace Service

variable {s s' : Service} {txn x : TxnId} {task : Purpose} {o : Option Outcome} {r : Request}
  {w : Waiter} {c : Call}

/-- The engine is sound, and the waiting calls are those of the requests that wait for locks. -/
structure Sound (s : Service) : Prop where
  /-- The engine is sound. -/
  engine : s.engine.Sound
  /-- A request waits just if there is a waiting call that made it. -/
  waits : ∀ {txn page mode}, s.engine.locks.Waits txn page mode ↔
    ∃ c ∈ s.blocked, c.txn = txn ∧ c.page = page ∧ c.mode = mode
  /-- A transaction has at most one waiting call. -/
  nodup : (s.blocked.map Call.txn).Nodup
  /-- Waiting calls are of tables of the catalog. -/
  known : ∀ {c}, c ∈ s.blocked → c.Known s.engine.catalog

/-- Of a transaction that has one waiting call only, that one is found. -/
theorem find?_txn {calls : List Call} (h : (calls.map Call.txn).Nodup) (hc : c ∈ calls) :
    calls.find? (·.txn = c.txn) = some c := by
  cases hf : calls.find? (·.txn = c.txn) with
  | none => simpa using List.find?_eq_none.1 hf c hc
  | some d =>
    have hd := List.mem_of_find?_eq_some hf
    have ht : d.txn = c.txn := by simpa using List.find?_some hf
    rw [List.inj_on_of_nodup_map h hd hc ht]

/-- If the waiting calls are those of the waiting requests, the same transactions have either. -/
theorem isBlocked_iff_of_waits (h : ∀ {page mode}, s.engine.locks.Waits txn page mode ↔
    ∃ c ∈ s.blocked, c.txn = txn ∧ c.page = page ∧ c.mode = mode) :
    s.engine.locks.IsBlocked txn ↔ s.HasBlocked txn := by
  constructor
  · rintro ⟨page, mode, hw⟩
    obtain ⟨c, hc, ht, -⟩ := h.1 hw
    exact ⟨c, hc, ht⟩
  · rintro ⟨c, hc, ht⟩
    exact ⟨c.page, c.mode, h.2 ⟨c, hc, ht, rfl, rfl⟩⟩

namespace Sound

theorem start {backing : Backing} (hb : backing.WellFormed) (capacity : Nat)
    (choices : Nat → Nat) : (start backing capacity choices).Sound where
  engine :=
    { hb with
      version := fun hq => by simp [Service.start] at hq
      owner := fun hq => by simp [Service.start] at hq
      consistent := .empty }
  waits {txn page mode} := by
    constructor
    · intro hw
      exact absurd hw LockTable.not_waits_empty
    · rintro ⟨c, hc, -⟩
      cases hc
  nodup := List.nodup_nil
  known hc := nomatch hc

theorem isBlocked_iff (h : s.Sound) : s.engine.locks.IsBlocked txn ↔ s.HasBlocked txn :=
  isBlocked_iff_of_waits h.waits

theorem eq_of_txn_eq (h : s.Sound) {c d : Call} (hc : c ∈ s.blocked) (hd : d ∈ s.blocked)
    (ht : c.txn = d.txn) : c = d :=
  List.inj_on_of_nodup_map h.nodup hc hd ht

/-- A change of the engine that leaves the waiting requests alone keeps the service sound. -/
theorem withEngine (h : s.Sound) {engine : Engine} (he : engine.Sound)
    (hc : engine.catalog = s.engine.catalog)
    (hw : ∀ {txn p m}, engine.locks.Waits txn p m ↔ s.engine.locks.Waits txn p m) :
    Sound { s with engine } where
  engine := he
  waits := hw.trans h.waits
  nodup := h.nodup
  known hm := hc ▸ h.known hm

end Sound

/-! ## Calls -/

/-- What becomes of a service while the engine goes on with a call of the transaction. -/
structure Moves (s : Service) (txn : TxnId) (task : Purpose) (o : Option Outcome) (s' : Service) :
    Prop where
  /-- The engine has come to the end of the call, or to a lock to wait for. -/
  progress : ∃ result, s.engine.Progress txn task Blocked result s'.engine ∧
    o = result.getLeft? ∧
    ∀ c, c ∈ s'.blocked ↔ c ∈ s.blocked ∧ c.txn ≠ txn ∨ result = .inr c
  /-- A transaction has at most one waiting call. -/
  nodup : (s'.blocked.map Call.txn).Nodup

/-- A transaction that has no waiting call and no waiting request any more leaves the service
sound. -/
theorem Sound.ended (h : s.Sound) (he : s'.engine.Sound) (hi : ¬ s'.engine.locks.IsBlocked txn)
    (hev : s.engine.Evolves txn s'.engine) (hn : (s'.blocked.map Call.txn).Nodup)
    (hb : ∀ c, c ∈ s'.blocked ↔ c ∈ s.blocked ∧ c.txn ≠ txn) : s'.Sound where
  engine := he
  waits {x p m} := by
    by_cases hx : x = txn
    · subst hx
      constructor
      · intro hw
        exact absurd hw.isBlocked hi
      · rintro ⟨c, hc, ht, -⟩
        exact absurd ht ((hb c).1 hc).2
    · rw [hev.waits hx, h.waits]
      constructor
      · rintro ⟨c, hc, rfl, h⟩
        exact ⟨c, (hb c).2 ⟨hc, hx⟩, rfl, h⟩
      · rintro ⟨c, hc, h⟩
        exact ⟨c, ((hb c).1 hc).1, h⟩
  nodup := hn
  known {c} hc := by
    rw [hev.catalog]
    exact h.known ((hb c).1 hc).1

/-- A transaction the waiting call of which made its waiting request leaves the service sound. -/
theorem Sound.suspended {next : Call} (h : s.Sound) (he : s'.engine.Sound) (hx : next.txn = txn)
    (hp : Blocked next s'.engine) (hev : s.engine.Evolves txn s'.engine)
    (hn : (s'.blocked.map Call.txn).Nodup)
    (hb : ∀ c, c ∈ s'.blocked ↔ c ∈ s.blocked ∧ c.txn ≠ txn ∨ next = c) : s'.Sound where
  engine := he
  waits {x p m} := by
    by_cases hxt : x = txn
    · subst hxt
      constructor
      · intro hw
        obtain ⟨rfl, rfl⟩ := he.consistent.unique hw (hx ▸ hp.2)
        exact ⟨next, (hb next).2 (.inr rfl), hx, rfl, rfl⟩
      · rintro ⟨c, hc, hct, rfl, rfl⟩
        rcases (hb c).1 hc with ⟨-, hne⟩ | rfl
        · exact absurd hct hne
        · exact hct ▸ hp.2
    · rw [hev.waits hxt, h.waits]
      constructor
      · rintro ⟨c, hc, rfl, h⟩
        exact ⟨c, (hb c).2 (.inl ⟨hc, hxt⟩), rfl, h⟩
      · rintro ⟨c, hc, rfl, h⟩
        rcases (hb c).1 hc with ⟨hc, -⟩ | rfl
        · exact ⟨c, hc, rfl, h⟩
        · exact absurd hx hxt
  nodup := hn
  known {c} hc := by
    rcases (hb c).1 hc with ⟨hc, -⟩ | rfl
    · rw [hev.catalog]
      exact h.known hc
    · exact hp.1

/-- Going on with a call keeps the service sound. -/
theorem Moves.sound (h : s.Moves txn task o s') (hs : s.Sound)
    (ho : o ≠ some (.error .overflow)) : s'.Sound := by
  obtain ⟨⟨result, hp, hres, hmem⟩, hn⟩ := h
  cases hp with
  | done he hi hr place content ht hed =>
    exact hs.ended he hi hed.toEvolves hn fun c => by simp [hmem]
  | looked he hi hr ht hq => exact hs.ended he hi hq.toEvolves hn fun c => by simp [hmem]
  | failed he hi hq => exact hs.ended he hi hq.toEvolves hn fun c => by simp [hmem]
  | overflown => exact absurd hres ho
  | waits he hx ht hp hq => exact hs.suspended he hx hp hq.toEvolves hn fun c => by simp [hmem]

theorem mem_callsOfOthers {calls : List Call} :
    c ∈ callsOfOthers calls txn ↔ c ∈ calls ∧ c.txn ≠ txn := by
  simp [callsOfOthers]

theorem nodup_callsOfOthers {calls : List Call} (h : (calls.map Call.txn).Nodup) :
    ((callsOfOthers calls txn).map Call.txn).Nodup :=
  h.sublist (List.filter_sublist.map _)

theorem nodup_append_of_not_mem {calls : List Call} (h : (calls.map Call.txn).Nodup)
    (hc : ∀ d ∈ calls, d.txn ≠ c.txn) : ((calls ++ [c]).map Call.txn).Nodup := by
  rw [List.map_append, List.map_cons, List.map_nil]
  refine h.append (List.nodup_singleton _) fun x hx hx' => ?_
  obtain ⟨d, hd, rfl⟩ := List.mem_map.1 hx
  exact hc d hd (List.mem_singleton.1 hx')

/-- A request is taken to its end, or to a lock to wait for. -/
theorem moves_issue (h : s.Sound) (hi : ¬ s.HasBlocked r.txn) (hr : r.Known s.engine.catalog) :
    s.Moves r.txn r.purpose (s.issue r).1 (s.issue r).2 := by
  have hidle : ¬ s.engine.locks.IsBlocked r.txn := mt h.isBlocked_iff.1 hi
  have hfree : ∀ d ∈ s.blocked, d.txn ≠ r.txn := fun d hd ht => hi ⟨d, hd, ht⟩
  have hsame : ∀ d, d ∈ s.blocked ↔ d ∈ s.blocked ∧ d.txn ≠ r.txn := fun d =>
    ⟨fun hd => ⟨hd, hfree d hd⟩, fun hd => hd.1⟩
  have hstart := Request.progress_start h.engine hidle hr
  unfold issue
  generalize r.start s.engine = started at hstart
  obtain ⟨step, e₁⟩ := started
  cases step with
  | finished outcome =>
    exact ⟨⟨.inl outcome, hstart.ended, rfl, fun d => by simpa using hfree d⟩, h.nodup⟩
  | waits c _ =>
    cases hstart with
    | waits h₁ hx ht hready hq =>
      have hrun := progress_run (p := fun _ => True) (fun _ _ => trivial) c trivial h₁ hready
      rw [hx, ht] at hrun
      dsimp only
      generalize e₁.run (p := fun _ => True) _ c trivial = ran at hrun
      obtain ⟨step, e₂⟩ := ran
      have hprog := hq.progress hrun
      cases step with
      | finished outcome =>
        exact ⟨⟨.inl outcome, hprog, rfl, fun d => by simpa using hfree d⟩, h.nodup⟩
      | waits next _ =>
        have hnext : next.txn = r.txn := by
          cases hprog with
          | waits _ hx => exact hx
        refine ⟨⟨.inr next, hprog, rfl, fun d => ?_⟩, nodup_append_of_not_mem h.nodup ?_⟩
        · rw [List.mem_append, List.mem_singleton, ← hsame, Sum.inr.injEq, eq_comm (a := d)]
        · rwa [hnext]

/-- A waiting request that takes a turn has a waiting call. -/
theorem find?_eq_some (h : s.Sound) (hw : w ∈ s.engine.locks.waiting) :
    ∃ c ∈ s.blocked, s.blocked.find? (·.txn = w.txn) = some c ∧ c.txn = w.txn ∧
      c.page = w.page ∧ c.mode = w.mode := by
  obtain ⟨c, hc, ht, hp, hm⟩ := h.waits.1 (LockTable.waits_of_mem hw)
  exact ⟨c, hc, ht ▸ find?_txn h.nodup hc, ht, hp, hm⟩

/-- A call that waits knows what is so. -/
theorem sane_of_blocked (h : s.Sound) (hc : c ∈ s.blocked) : c.Sane s.engine := by
  cases c with
  | insert i =>
    refine ⟨h.known hc, fun _ hx => ?_⟩
    have hw : s.engine.locks.Waits i.txn i.page .exclusive :=
      h.waits.2 ⟨_, hc, rfl, rfl, rfl⟩
    have hf : s.engine.locks.modeOf i.txn i.page = .free :=
      LockTable.modeOf_eq_free (h.engine.consistent.apart hw)
    cases hf.symm.trans hx
  | _ => trivial

/-- A turn takes a waiting call to its end, or to a lock to wait for. -/
theorem moves_turn (h : s.Sound) (hw : w ∈ s.engine.locks.waiting)
    (hf : s.blocked.find? (·.txn = w.txn) = some c) :
    s.Moves w.txn c.purpose (s.turn w).1 (s.turn w).2 := by
  obtain ⟨d, hc, hf', ht, hp, hm⟩ := find?_eq_some h hw
  obtain rfl : d = c := Option.some.inj (hf'.symm.trans hf)
  have hd := LockTable.Decides.of_retry h.engine.consistent hw
  have hl := h.engine.consistent.retry hw
  rw [← ht, ← hp, ← hm] at hd
  have hothers : ∀ x, x ∈ callsOfOthers s.blocked w.txn ↔ x ∈ s.blocked ∧ x.txn ≠ w.txn :=
    fun x => mem_callsOfOthers
  unfold turn
  rw [hf]
  generalize s.engine.locks.retry w = retried at hd hl
  obtain ⟨verdict, locks⟩ := retried
  dsimp only at hd hl ⊢
  by_cases hv : verdict = .blocked
  · rw [if_pos hv]
    have hwaits : Blocked d { s.engine with locks } :=
      ⟨h.known hc, hd.waits_self.2 ⟨hv, rfl, rfl⟩⟩
    refine ⟨⟨.inr d, .waits (h.engine.decide hd hl) ht rfl hwaits (ht ▸ .of_decides hd), rfl,
      fun x => ?_⟩, h.nodup⟩
    rw [Sum.inr.injEq]
    constructor
    · intro hx
      by_cases hxt : x.txn = w.txn
      · exact .inr (h.eq_of_txn_eq hc hx (ht.trans hxt.symm))
      · exact .inl ⟨hx, hxt⟩
    · rintro (⟨hx, -⟩ | rfl)
      · exact hx
      · exact hc
  · rw [if_neg hv]
    have hres := progress_resume h.engine hd hl hv (sane_of_blocked h hc)
    rw [ht] at hres
    generalize resume { s.engine with locks } d (verdict = .granted) = resumed at hres
    obtain ⟨step, e₁⟩ := resumed
    cases step with
    | finished outcome =>
      exact ⟨⟨.inl outcome, hres, rfl, fun x => by simpa using hothers x⟩,
        nodup_callsOfOthers h.nodup⟩
    | waits next _ =>
      have hnext : next.txn = w.txn := by
        cases hres with
        | waits _ hx => exact hx
      refine ⟨⟨.inr next, hres, rfl, fun x => ?_⟩,
        nodup_append_of_not_mem (nodup_callsOfOthers h.nodup) fun x hx => ?_⟩
      · rw [List.mem_append, List.mem_singleton, hothers, Sum.inr.injEq, eq_comm (a := x)]
      · rw [hnext]
        exact ((hothers x).1 hx).2

/-- A permitted action that may make a transaction wait goes on with a call of it. -/
theorem moves_perform (h : s.Sound) {a : Action} (ha : s.Permits a)
    (hc : (∃ r, a = .issue r) ∨ ∃ w, a = .turn w) :
    ∃ txn, a.actor = some txn ∧ s.Moves txn (s.purpose a) (s.perform a).1 (s.perform a).2 := by
  rcases hc with ⟨r, rfl⟩ | ⟨w, rfl⟩
  · exact ⟨r.txn, rfl, moves_issue h ha.1.2 ha.1.1⟩
  · obtain ⟨c, -, hf, -⟩ := find?_eq_some h ha.1
    have hp : s.purpose (.turn w) = c.purpose := by
      rw [purpose, hf]
      rfl
    exact ⟨w.txn, rfl, hp ▸ moves_turn h ha.1 hf⟩

/-! ## Other actions -/

/-- Evictions and letting go of handles are a matter of which pages are cached. -/
theorem recaches_perform {a : Action} (ha : a = .evict ∨ ∃ k, a = .letGo k) :
    ∃ c, (s.perform a).2 = { s with engine := { s.engine with cache := c } } ∧
      s.engine.Recaches c := by
  rcases ha with rfl | ⟨k, rfl⟩
  · cases he : s.engine.evict with
    | error err =>
      simp only [perform, he]
      exact ⟨s.engine.cache, rfl, .of_page? fun _ => rfl⟩
    | ok x =>
      obtain ⟨page, e⟩ := x
      obtain ⟨c, rfl, hc⟩ := Coherent.recaches_evict he
      simp only [perform, he]
      exact ⟨c, rfl, hc⟩
  · exact ⟨s.engine.cache.letGo k, rfl, .of_page? fun _ => rfl⟩

theorem Sound.recache (h : s.Sound) {a : Action} (ha : a = .evict ∨ ∃ k, a = .letGo k) :
    (s.perform a).2.Sound := by
  obtain ⟨c, hc, hr⟩ := recaches_perform (s := s) ha
  rw [hc]
  exact h.withEngine (h.engine.recache hr) rfl Iff.rfl

/-- A write through a handle fails, or changes the page that is cached. -/
theorem write_cases (s : Service) (k : Handle) (change : Page → Page) :
    (∃ err, s.perform (.write k change) = (some (.error err), s)) ∨
      ∃ q, s.engine.cache.page? k.page = some q ∧
        s.perform (.write k change) = (some (.ok .done), { s with
          engine := { s.engine with
            cache := s.engine.cache.update k.page fun _ =>
              change (q.markDirty (some k.txn)) } }) := by
  cases hw : s.engine.cache.write k fun p => ((), change p) with
  | error err =>
    left
    refine ⟨err, ?_⟩
    simp only [perform, hw]
  | ok x =>
    obtain ⟨_, c⟩ := x
    obtain ⟨q, hq, -, rfl⟩ := Cache.write_eq_ok hw
    right
    refine ⟨q, Cache.read_eq_ok hq, ?_⟩
    simp only [perform, hw]

theorem perform_commit (s : Service) (txn : TxnId) :
    (s.perform (.commit txn)).2 = { s with engine := (s.engine.commit txn).2 } := rfl

theorem outcome_commit (s : Service) (txn : TxnId) : (s.perform (.commit txn)).1 =
    some ((s.engine.commit txn).1.map fun _ => .done) := rfl

theorem perform_abort (s : Service) (txn : TxnId) :
    (s.perform (.abort txn)).2 = { s with engine := s.engine.abort txn } := rfl

/-- A commit keeps the locks in step with each other, and lets the others wait. -/
theorem Sound.commit (h : s.Sound) (hi : ¬ s.HasBlocked txn) :
    (s.perform (.commit txn)).2.Sound := by
  have hidle : ¬ s.engine.locks.IsBlocked txn := mt h.isBlocked_iff.1 hi
  have hc := h.engine.toCoherent.commit txn
  rw [perform_commit]
  rcases h.engine.toCoherent.commit_cases txn with ⟨e, he, hs⟩ | ⟨err, e, done, he, -, hs, -⟩
  · rw [he] at hc ⊢
    have hl : (e.releaseAll txn).locks = s.engine.locks.releaseAll txn := by
      rw [← hs.locks]
      rfl
    refine h.withEngine ⟨hc, ?_⟩ hs.catalog ?_
    · rw [hl]
      exact h.engine.consistent.releaseAll hidle
    · rw [hl]
      exact LockTable.waits_releaseAll
  · rw [he] at hc ⊢
    refine h.withEngine ⟨hc, ?_⟩ hs.catalog ?_
    · rw [hs.locks]
      exact h.engine.consistent
    · rw [hs.locks]

theorem Sound.abort (h : s.Sound) (hi : ¬ s.HasBlocked txn) :
    (s.perform (.abort txn)).2.Sound := by
  have hidle : ¬ s.engine.locks.IsBlocked txn := mt h.isBlocked_iff.1 hi
  have hb := toBacking_abort s.engine txn
  rw [perform_abort]
  refine h.withEngine ⟨h.engine.toCoherent.abort txn, ?_⟩ (by rw [hb]) ?_
  · rw [locks_abort]
    exact h.engine.consistent.releaseAll hidle
  · rw [locks_abort]
    exact LockTable.waits_releaseAll

/-- Every permitted action keeps a service sound. -/
theorem Sound.perform {a : Action} (h : s.Sound) (ha : s.PermitsWrites a) :
    (s.perform a).2.Sound := by
  rcases ha with ⟨ha, ho⟩ | ⟨k, change, rfl, hedit, hx⟩
  · cases a with
    | issue r =>
      obtain ⟨txn, -, hm⟩ := moves_perform h ⟨ha, ho⟩ (.inl ⟨r, rfl⟩)
      exact hm.sound h ho
    | turn w =>
      obtain ⟨txn, -, hm⟩ := moves_perform h ⟨ha, ho⟩ (.inr ⟨w, rfl⟩)
      exact hm.sound h ho
    | letGo k => exact h.recache (.inr ⟨k, rfl⟩)
    | evict => exact h.recache (.inl rfl)
    | commit txn => exact h.commit ha
    | abort txn => exact h.abort ha
    | write | install | flush | flushHeld | flushAll | discard | release => exact ha.elim
  · rcases write_cases s k change with ⟨err, he⟩ | ⟨q, hq, he⟩
    · rw [he]
      exact h
    · rw [he]
      have ha := (hedit (q.markDirty (some k.txn))).alike
      exact h.withEngine ⟨h.engine.toCoherent.update hq hx ha, h.engine.consistent⟩ rfl Iff.rfl

/-- Every run keeps a service sound. -/
theorem Sound.after {as : List Action} (h : s.Sound) (hr : s.Runs PermitsWrites as) :
    (s.after as).Sound :=
  hr.keeps (fun hs ha => hs.perform ha) h

end Service

end RowStore
