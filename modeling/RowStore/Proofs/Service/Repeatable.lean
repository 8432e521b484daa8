import RowStore.Proofs.Service.Coherence
import RowStore.Proofs.Service.Orderly

/-!
# Repeatable reads

While a transaction keeps hold of a page, nobody else gets to change it: others only change, and
commit, what they hold for themselves alone. So what the transaction is shown of the page is what it
was shown before, apart from its own changes. `Service.Runs.repeatable` says so of every run in
which the transaction goes on and keeps hold of the page.

What it takes to keep hold is the point. A transaction that shares a page and wants it for itself
alone gives its share up first. If it gets the page at once it has never been without a lock on it.
But if it has to wait, or is refused, others can take their turn, and what it has read before may be
out of date when it gets the page. `Service.Retains` excludes this, the end of the transaction, and
nothing else.
-/

namespace RowStore

open Engine

namespace Service

variable {s : Service} {a : Action} {as : List Action} {txn x : TxnId} {page : PageId} {p q : Page}

/-! ## Keeping hold -/

/-- The action is permitted, it is not the end of the transaction, and it does not make the
transaction lose its hold of the page, by waiting for its sole use or by being refused it. -/
structure Retains (txn : TxnId) (page : PageId) (s : Service) (a : Action) : Prop where
  /-- The action is permitted. -/
  permitted : s.PermitsWrites a
  /-- The transaction does not commit. -/
  not_commit : a ≠ .commit txn
  /-- It does not abort. -/
  not_abort : a ≠ .abort txn
  /-- It is not refused the sole use of the page. -/
  not_refused : (s.perform a).1 ≠ some (.error (.deadlock txn page .exclusive))
  /-- It does not wait for the sole use of the page. -/
  not_waits : ¬ (s.perform a).2.engine.locks.Waits txn page .exclusive

theorem PermitsWrites.allows (h : s.PermitsWrites a) : s.Allows a := by
  rcases h with ⟨h, -⟩ | ⟨k, change, rfl, -⟩
  · cases a with
    | issue r => exact h.2
    | turn w => exact h
    | write => exact h.elim
    | _ => trivial
  · trivial

theorem Orderly.after (h : s.Orderly) (hr : s.Runs PermitsWrites as) : (s.after as).Orderly :=
  hr.keeps (fun h ha => h.perform (PermitsWrites.allows ha)) h

/-- A request of a transaction that holds the page lets it keep hold, and so does one of another
transaction. -/
theorem Serves.keeps_hold {o : Option Outcome} {s' : Service} (h : s.Serves x o s')
    (hm : s.engine.locks.modeOf txn page ≠ .free)
    (hr : o ≠ some (.error (.deadlock txn page .exclusive)))
    (hw : ¬ s'.engine.locks.Waits txn page .exclusive) :
    s'.engine.locks.modeOf txn page ≠ .free := by
  by_cases hx : txn = x
  · subst hx
    cases h with
    | ended _ hmoves =>
      rw [hmoves.stays.locks]
      exact hm
    | course hmoves hx hc ho =>
      rw [← hmoves.stays.locks] at hm
      subst hx
      rcases hc.keeps_hold hm with hk | ⟨d, rfl, hpage, hmode⟩ | rfl
      · exact hk
      · exact absurd (hc.waits.2 ⟨d, rfl, hpage, hmode⟩) hw
      · exact absurd ho hr
  · rw [h.stages.spares.modeOf_eq hx]
    exact hm

/-- Who keeps hold of a page holds it after each action. -/
theorem Orderly.keeps_hold (h : s.Orderly) (ha : s.Retains txn page a)
    (hm : s.engine.locks.modeOf txn page ≠ .free) :
    (s.perform a).2.engine.locks.modeOf txn page ≠ .free := by
  have hallows := ha.permitted.allows
  have hlocks : (s.perform a).2.engine.locks = s.engine.locks →
      (s.perform a).2.engine.locks.modeOf txn page ≠ .free := fun hl => hl ▸ hm
  have hends : ∀ {x}, txn ≠ x → (s.perform a).2.engine.locks = s.engine.locks.releaseAll x →
      (s.perform a).2.engine.locks.modeOf txn page ≠ .free := by
    intro x hx hl
    rw [hl, LockTable.modeOf_releaseAll, if_neg hx]
    exact hm
  rcases ha.permitted with ⟨hper, -⟩ | ⟨k, change, rfl, -⟩
  · cases a with
    | issue r =>
      obtain ⟨x, -, hs⟩ := serves_perform h hallows (.inl ⟨r, rfl⟩)
      exact hs.keeps_hold hm ha.not_refused ha.not_waits
    | turn w =>
      obtain ⟨x, -, hs⟩ := serves_perform h hallows (.inr ⟨w, rfl⟩)
      exact hs.keeps_hold hm ha.not_refused ha.not_waits
    | letGo k => exact hlocks rfl
    | evict =>
      refine hlocks ?_
      rcases evict_cases s with he | ⟨pg, c, -, he⟩ <;> rw [he]
    | commit x =>
      rcases locks_commit .none s.engine x with hl | hl
      · exact hlocks hl
      · exact hends (fun hx => ha.not_commit (hx ▸ rfl)) hl
    | abort x => exact hends (fun hx => ha.not_abort (hx ▸ rfl)) (locks_abort s.engine x)
    | write | install | flush | flushHeld | flushAll | discard | release => exact hper.elim
  · refine hlocks ?_
    rcases write_cases s k change with ⟨err, he⟩ | ⟨q, -, he⟩ <;> rw [he]

/-! ## What a transaction makes of a page -/

/-- The action is one of the transaction that succeeds and makes the page `q` of the page `p`. -/
inductive Alters (s : Service) (txn : TxnId) (page : PageId) (a : Action) (p : Page) : Page → Prop
  /-- It puts a row into an empty slot of the page, or takes one out. -/
  | turned {slot : Nat} {content : Option Bytes} {reply : Reply} {q : Page}
    (ht : a.actor = some txn) (ho : (s.perform a).1 = some (.ok reply))
    (hf : (s.purpose a).Fits (rowsOf s.engine.seen) ⟨page, slot⟩ content)
    (hq : q.slot? = Function.update p.slot? slot content) : Alters s txn page a p q
  /-- It changes the page through a handle. -/
  | written {k : Handle} {change : Page → Page} {r : Page} (ha : a = .write k change)
    (ht : k.txn = txn) (hk : k.page = page) (ho : (s.perform a).1 = some (.ok .done))
    (hr : r.asStored = p) :
    Alters s txn page a p (change (r.markDirty (some txn))).asStored

/-- From action to action the page stays the same or is altered by the transaction, so that `p`
becomes `q` in the end. -/
inductive Rewrites (txn : TxnId) (page : PageId) : Service → List Action → Page → Page → Prop
  /-- Nothing happens. -/
  | nil {s : Service} {p : Page} : Rewrites txn page s [] p p
  /-- The page stays the same. -/
  | same {s : Service} {a : Action} {as : List Action} {p q : Page}
    (h : Rewrites txn page (s.perform a).2 as p q) : Rewrites txn page s (a :: as) p q
  /-- The transaction alters the page. -/
  | own {s : Service} {a : Action} {as : List Action} {p r q : Page} (ha : s.Alters txn page a p r)
    (h : Rewrites txn page (s.perform a).2 as r q) : Rewrites txn page s (a :: as) p q

/-- A request of the transaction changes nothing of the page, or what it was made to change. -/
theorem Moves.alters (h : s.Moves txn (s.purpose a) (s.perform a).1 (s.perform a).2)
    (hact : a.actor = some txn) (ho : (s.perform a).1 ≠ some (.error .overflow))
    (hp : s.engine.seen page = some p) :
    ∃ q, (s.perform a).2.engine.seen page = some q ∧ (q = p ∨ s.Alters txn page a p q) := by
  obtain ⟨⟨result, hprog, hres, -⟩, -⟩ := h
  have hquiet : s.engine.Quiet txn (s.perform a).2.engine →
      ∃ q, (s.perform a).2.engine.seen page = some q ∧ (q = p ∨ s.Alters txn page a p q) :=
    fun hq => ⟨p, hq.seen.eq_some hp, .inl rfl⟩
  cases hprog with
  | done _ _ _ place content hfits hedit =>
    obtain ⟨f, r, q, hf, hr, hslot, hseen⟩ := hedit.seen
    by_cases hpage : page = place.page
    · subst hpage
      obtain rfl : r = p := Option.some.inj (hr.symm.trans (hf.eq_some hp))
      refine ⟨q, ?_, .inr (.turned hact hres hfits hslot)⟩
      rw [hseen, Function.update_self]
    · refine ⟨p, ?_, .inl rfl⟩
      rw [hseen, Function.update_of_ne hpage]
      exact hf.eq_some hp
  | looked _ _ _ _ hq => exact hquiet hq
  | failed _ _ hq => exact hquiet hq
  | overflown => exact absurd hres ho
  | waits _ _ _ _ hq => exact hquiet hq

/-- While a transaction keeps hold of a page, only the transaction itself alters it. -/
theorem Sound.alters (h : s.Sound) (ho : s.Orderly) (ha : s.Retains txn page a)
    (hm : s.engine.locks.modeOf txn page ≠ .free) (hp : s.engine.seen page = some p) :
    ∃ q, (s.perform a).2.engine.seen page = some q ∧ (q = p ∨ s.Alters txn page a p q) := by
  rcases h.seen_perform ha.permitted page with hg | ⟨x, hact, hx⟩
  · exact ⟨p, hg.eq_some hp, .inl rfl⟩
  have hxt : txn = x := by
    by_contra hne
    rcases hx with hx | hx
    · exact hm (ho.safe.modeOf_eq_free_of_ne hx hne)
    · exact ho.keeps_hold ha hm
        ((ho.perform ha.permitted.allows).safe.modeOf_eq_free_of_ne hx hne)
  subst hxt
  rcases ha.permitted with hper | ⟨k, change, rfl, -⟩
  · cases a with
    | issue r =>
      obtain ⟨x, hx, hmoves⟩ := moves_perform h hper (.inl ⟨r, rfl⟩)
      obtain rfl : txn = x := Option.some.inj (hact.symm.trans hx)
      exact hmoves.alters hact hper.2 hp
    | turn w =>
      obtain ⟨x, hx, hmoves⟩ := moves_perform h hper (.inr ⟨w, rfl⟩)
      obtain rfl : txn = x := Option.some.inj (hact.symm.trans hx)
      exact hmoves.alters hact hper.2 hp
    | commit x =>
      cases hact
      exact absurd rfl ha.not_commit
    | abort x =>
      cases hact
      exact absurd rfl ha.not_abort
    | letGo | evict => cases hact
    | write | install | flush | flushHeld | flushAll | discard | release => exact hper.1.elim
  · obtain rfl : k.txn = txn := Option.some.inj hact
    rcases write_cases s k change with ⟨err, he⟩ | ⟨r, hr, he⟩
    · rw [he]
      exact ⟨p, hp, .inl rfl⟩
    · by_cases hpage : page = k.page
      · subst hpage
        obtain rfl : r.asStored = p := Option.some.inj ((seen_of_cached hr).symm.trans hp)
        refine ⟨_, ?_, .inr (.written rfl rfl rfl (by rw [he]) rfl)⟩
        rw [he]
        exact (congrFun (Coherent.seen_update hr) _).trans (Function.update_self ..)
      · refine ⟨p, ?_, .inl rfl⟩
        rw [he]
        exact (congrFun (Coherent.seen_update hr) _).trans
          ((Function.update_of_ne hpage ..).trans hp)

/-- While a transaction keeps hold of a page, its file keeps the page as it is. -/
theorem Sound.stored_of_retains (h : s.Sound) (ho : s.Orderly) (ha : s.Retains txn page a)
    (hm : s.engine.locks.modeOf txn page ≠ .free) (hp : s.engine.stored page = some p) :
    (s.perform a).2.engine.stored page = some p := by
  rcases h.stored_perform ha.permitted page with hg | ⟨x, rfl, hx, -⟩
  · exact hg.eq_some hp
  · refine absurd (ho.safe.modeOf_eq_free_of_ne hx ?_) hm
    rintro rfl
    exact ha.not_commit rfl

/-! ## Runs -/

/-- What a run leaves of a page that the transaction keeps hold of: the transaction holds it, the
file has it as it was, and what is seen of it is what the transaction has made of it. -/
theorem Sound.rewrites (h : s.Sound) (ho : s.Orderly) (hr : s.Runs (Retains txn page) as)
    (hm : s.engine.locks.modeOf txn page ≠ .free) (hp : s.engine.seen page = some p)
    {r : Page} (hst : s.engine.stored page = some r) :
    (s.after as).Sound ∧ (s.after as).engine.locks.modeOf txn page ≠ .free ∧
      (s.after as).engine.stored page = some r ∧
        ∃ q, (s.after as).engine.seen page = some q ∧ Rewrites txn page s as p q := by
  induction as generalizing s p with
  | nil => exact ⟨h, hm, hst, p, hp, .nil⟩
  | cons a as ih =>
    obtain ⟨ha, hr⟩ := hr
    obtain ⟨q, hq, hpq⟩ := h.alters ho ha hm hp
    obtain ⟨hs, hm, hst, q', hq', hrew⟩ := ih (h.perform ha.permitted)
      (ho.perform ha.permitted.allows) hr (ho.keeps_hold ha hm) hq
      (h.stored_of_retains ho ha hm hst)
    refine ⟨hs, hm, hst, q', hq', ?_⟩
    rcases hpq with rfl | hpq
    · exact .same hrew
    · exact .own hpq hrew

/-- The run that follows has left the transaction with the page that it has been shown, apart from
its own changes. -/
structure Repeats (s : Service) (txn : TxnId) (page : PageId) (as : List Action) (reply : Reply) :
    Prop where
  /-- The transaction holds the page. -/
  held : (s.after as).engine.locks.modeOf txn page ≠ .free
  /-- The file has the page as it was. -/
  stored : (s.after as).engine.stored page = s.engine.stored page
  /-- What it is shown when it asks again is what it was shown before, altered by nobody else. -/
  shown : ∃ k q p, reply = .handle k q ∧ k.page = page ∧ Rewrites txn page s as q.asStored p ∧
    ∀ {a reply'}, (s.after as).PermitsWrites a → (s.after as).purpose a = .fetch page →
      ((s.after as).perform a).1 = some (.ok reply') →
        ∃ k' q', reply' = .handle k' q' ∧ k'.page = page ∧ q'.asStored = p

/-- Reads are repeatable: in a run that starts with an empty pool, a transaction that has been shown
a page, and goes on and keeps hold of it, is shown the same page whenever it asks for it again, as
the transaction itself has left it. -/
theorem Runs.repeatable {backing : Backing} (hb : backing.WellFormed) {capacity : Nat}
    {choices : Nat → Nat} {before : List Action} {reply : Reply}
    (h : (start backing capacity choices).Runs PermitsWrites before)
    (hs : (start backing capacity choices).after before = s)
    (ha : s.PermitsWrites a) (hact : a.actor = some txn) (hp : s.purpose a = .fetch page)
    (ho : (s.perform a).1 = some (.ok reply))
    (hr : (s.perform a).2.Runs (Retains txn page) as) :
    (s.perform a).2.Repeats txn page as reply := by
  have hsound : s.Sound := hs ▸ (Sound.start hb capacity choices).after h
  have horderly : s.Orderly :=
    hs ▸ h.keeps (fun ho ha => ho.perform (PermitsWrites.allows ha))
      (.start backing capacity choices)
  have hsound' := hsound.perform ha
  obtain ⟨k, q, rfl, hk, hpage, hq, hm, -⟩ := hsound.fetch_answers ha hp ho
  obtain rfl : k.txn = txn := Option.some.inj (hk.symm.trans hact)
  have hseen := seen_of_cached hq
  obtain ⟨r, hst, -⟩ := hsound'.engine.version hq
  obtain ⟨hlast, hm', hst', p, hp', hrew⟩ :=
    hsound'.rewrites (horderly.perform ha.allows) hr hm hseen hst
  refine ⟨hm', hst'.trans hst.symm, k, q, p, rfl, hpage, hrew, fun {b reply'} hb hpb hob => ?_⟩
  obtain ⟨k', q', hr', -, hk', hq', -, hgrows⟩ := hlast.fetch_answers hb hpb hob
  exact ⟨k', q', hr', hk', Option.some.inj ((seen_of_cached hq').symm.trans (hgrows.eq_some hp'))⟩

end Service

namespace Sample

/-- The page as it is at first, shown to the transaction that reads it first. -/
def asFound : Reply :=
  .handle ⟨page, 1, .read, 0⟩ (.ofBytes page table.schema [1, 0, 0, 0, 5, 0, 0, 0, 0])

/-- Another transaction wants to delete the row and has to wait. The first one deletes it. -/
def deleting : List Action :=
  [.issue (.delete 2 (some ⟨page, 0⟩)), .issue (.delete 1 (some ⟨page, 0⟩))]

/-- The service after the page has been read. -/
def reading : Service :=
  ((Service.start backing 2 id).perform (.issue (.fetch 1 page .read false))).2

theorem permits_reading :
    (Service.start backing 2 id).PermitsWrites (.issue (.fetch 1 page .read false)) :=
  .inl ⟨⟨trivial, of_decide_eq_true (by cbv)⟩, of_decide_eq_true (by cbv)⟩

theorem not_waits {t : LockTable} {txn : TxnId} {pg : PageId} {mode : LockMode}
    (h : t.waiting.all (·.txn ≠ txn) = true) : ¬ t.Waits txn pg mode := by
  rintro ⟨w, hw, ht, -⟩
  simpa [ht] using List.all_eq_true.1 h w hw

theorem runs_deleting : reading.Runs (Service.Retains 1 page) deleting := by
  refine ⟨⟨.inl ⟨⟨trivial, of_decide_eq_true (by cbv)⟩, of_decide_eq_true (by cbv)⟩, nofun, nofun,
      ?_, not_waits (by cbv)⟩,
    ⟨.inl ⟨⟨trivial, of_decide_eq_true (by cbv)⟩, of_decide_eq_true (by cbv)⟩, nofun, nofun, ?_,
      not_waits (by cbv)⟩, trivial⟩
  · have ho : (reading.perform (.issue (.delete 2 (some ⟨page, 0⟩)))).1 = none := by cbv
    rw [ho]
    rintro ⟨⟩
  · have ho : ((reading.perform (.issue (.delete 2 (some ⟨page, 0⟩)))).2.perform
        (.issue (.delete 1 (some ⟨page, 0⟩)))).1 = some (.ok .done) := by cbv
    rw [ho]
    rintro ⟨⟩

/-- The page has been read once. The transaction that has read it deletes the row while another one
waits for the page. When it asks for the page again it sees what it has done, and nothing else. -/
theorem repeats_deleting :
    backing.WellFormed ∧ (Service.start backing 2 id).Runs Service.PermitsWrites [] ∧
      (Service.start backing 2 id).PermitsWrites (.issue (.fetch 1 page .read false)) ∧
      ((Service.start backing 2 id).perform (.issue (.fetch 1 page .read false))).1 =
        some (.ok asFound) ∧
      reading.Runs (Service.Retains 1 page) deleting ∧
      reading.Repeats 1 page deleting asFound ∧
      (((reading.after deleting).engine.cache.page? page).map (·.slot? 0)) = some none := by
  have hnone : (Service.start backing 2 id).Runs Service.PermitsWrites [] := trivial
  have hread : ((Service.start backing 2 id).perform (.issue (.fetch 1 page .read false))).1 =
      some (.ok asFound) := by cbv
  exact ⟨wellFormed_backing, hnone, permits_reading, hread, runs_deleting,
    Service.Runs.repeatable wellFormed_backing hnone rfl permits_reading rfl rfl hread
      runs_deleting,
    by cbv⟩

/-- Two transactions share the page. The first one wants it for itself alone, and waits. The second
one gets it first, deletes the row and commits. -/
def overtaking : List Action :=
  [.issue (.fetch 1 page .read false), .issue (.fetch 2 page .read false),
    .issue (.fetch 1 page .write false), .issue (.delete 2 (some ⟨page, 0⟩)), .commit 2]

theorem runs_overtaking : (Service.start backing 2 id).Runs Service.Permits overtaking :=
  ⟨⟨⟨trivial, of_decide_eq_true (by cbv)⟩, of_decide_eq_true (by cbv)⟩,
    ⟨⟨trivial, of_decide_eq_true (by cbv)⟩, of_decide_eq_true (by cbv)⟩,
    ⟨⟨trivial, of_decide_eq_true (by cbv)⟩, of_decide_eq_true (by cbv)⟩,
    ⟨⟨trivial, of_decide_eq_true (by cbv)⟩, of_decide_eq_true (by cbv)⟩,
    ⟨of_decide_eq_true (by cbv), of_decide_eq_true (by cbv)⟩, trivial⟩

/-- The first transaction has been shown the row, has changed nothing, and has not been refused
anything. But when its request is granted at last the page that it is shown lacks the row. -/
theorem overtaken_while_waiting :
    backing.WellFormed ∧ (Service.start backing 2 id).Runs Service.Permits overtaking ∧
      ((Service.start backing 2 id).perform (.issue (.fetch 1 page .read false))).1 =
        some (.ok asFound) ∧
      (((Service.start backing 2 id).after (overtaking.take 2)).perform
        (.issue (.fetch 1 page .write false))).1 = none ∧
      ((Service.start backing 2 id).after overtaking).Permits
        (.turn ⟨1, page, .exclusive, true⟩) ∧
      (((Service.start backing 2 id).after overtaking).perform
        (.turn ⟨1, page, .exclusive, true⟩)).1 = some (.ok (.handle ⟨page, 1, .write, 0⟩
          (.ofBytes page table.schema [0, 0, 0, 0, 5, 0, 0, 0, 0]))) :=
  ⟨wellFormed_backing, runs_overtaking, by cbv, by cbv,
    ⟨of_decide_eq_true (by cbv), of_decide_eq_true (by cbv)⟩, by cbv⟩

end Sample

end RowStore
