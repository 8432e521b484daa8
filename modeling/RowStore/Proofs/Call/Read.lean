import RowStore.Proofs.Call.Stage

/-!
# Calls that read

A call that only reads asks for shared locks, and such a lock is never bought with another one: its
transaction loses hold of no page, even if it has to wait or is refused. Apart from the locks the
call only brings pages into the cache, which transactions do not see. So its transaction keeps what
it holds, and sees it as before, which is `Engine.Keeps`.
-/

namespace RowStore

open Engine

variable {e e' e₁ : Engine} {locks : LockTable} {txn : TxnId} {page : PageId} {p : Page}
  {verdict : Verdict} {c d : Call} {r : Request} {result : Outcome ⊕ Call}
  {cache : Cache}

namespace Engine

/-- What the transaction holds it goes on holding and seeing, and no page is lost. -/
structure Keeps (txn : TxnId) (e e' : Engine) : Prop where
  /-- It goes on holding what it holds. -/
  held : ∀ {page}, e.locks.modeOf txn page ≠ .free → e'.locks.modeOf txn page ≠ .free
  /-- It goes on seeing what it holds. -/
  seen : ∀ {page p}, e.locks.modeOf txn page ≠ .free → e.seen page = some p →
    e'.seen page = some p
  /-- No page is lost. -/
  present : ∀ {page p}, e.seen page = some p → ∃ q, e'.seen page = some q

theorem Keeps.of_seen (hl : ∀ {page}, e.locks.modeOf txn page ≠ .free →
      e'.locks.modeOf txn page ≠ .free) (hs : e'.seen = e.seen) : e.Keeps txn e' :=
  ⟨hl, fun _ hp => hs ▸ hp, fun hp => ⟨_, hs ▸ hp⟩⟩

theorem Keeps.refl (txn : TxnId) (e : Engine) : e.Keeps txn e := .of_seen (fun hm => hm) rfl

theorem Keeps.trans (h : e.Keeps txn e₁) (h' : e₁.Keeps txn e') : e.Keeps txn e' where
  held hm := h'.held (h.held hm)
  seen hm hp := h'.seen (h.held hm) (h.seen hm hp)
  present hp := by
    obtain ⟨q, hq⟩ := h.present hp
    exact h'.present hq

theorem Coherent.keeps_recache (h : e.Coherent) (hc : e.Recaches cache) :
    e.Keeps txn { e with cache } :=
  .of_seen (fun hm => hm) (h.seen_recache hc)

/-- Who asks to read a page loses hold of none. -/
theorem Judges.keeps_of_read (hj : e.Judges c verdict locks) (hr : c.access = .read) :
    e.Keeps c.txn { e with locks } := by
  refine .of_seen (fun {page} hm => ?_) rfl
  by_cases hp : page = c.page
  · subst hp
    have hmode : c.mode = .shared := congrArg Access.mode hr
    cases verdict with
    | granted => exact hj.modeOf_ne_free (hmode ▸ nofun)
    | blocked | deadlock => exact nomatch hmode.symm.trans (hj.mode_eq_exclusive nofun hm)
  · change locks.modeOf c.txn page ≠ .free
    rwa [hj.modeOf_eq fun h => hp h.2]

theorem Judges.coherent (hj : e.Judges c verdict locks) (h : e.Coherent) :
    Coherent { e with locks } :=
  h.withLocks fun hq hd => hj.exclusive_of (h.owner hq hd)

end Engine

/-- A request that changes nothing. -/
def Request.IsRead : Request → Prop
  | fetch _ _ access _ => access = .read
  | scan .. => True
  | take .. => True
  | _ => False

/-- A request that changes nothing gets to a call that reads, and does nothing before. -/
theorem Request.start_of_read (h : r.IsRead) (e : Engine) : (r.start e).2 = e ∧
    ∀ d, (r.start e).1.result = .inr d → d.access = .read := by
  cases r with
  | fetch txn page access keep =>
    refine ⟨rfl, fun d hd => ?_⟩
    cases hd
    exact h
  | scan txn table =>
    unfold start
    dsimp only
    split
    · exact ⟨rfl, nofun⟩
    · next c _ =>
      refine ⟨rfl, fun d hd => ?_⟩
      rcases c.result_serveAll (p := fun _ => True) [] fun _ => trivial with ⟨rs, hs⟩ | hs
      · cases hs.symm.trans hd
      · cases hs.symm.trans hd
        rfl
  | take c count =>
    refine ⟨rfl, fun d hd => ?_⟩
    rcases c.result_serve (p := fun _ => True) count [] fun _ _ _ _ _ _ _ => trivial with
      ⟨xs, c', hs⟩ | ⟨rest, more, items, hs, -⟩
    · cases hs.symm.trans hd
    · cases hs.symm.trans hd
      rfl
  | insert | delete | insertInto | deleteFrom => exact h.elim

namespace Call

/-- A call that goes on after a failure is one that reads. -/
theorem access_of_refuse {err : Error} (hd : (c.refuse err).result = .inr d) :
    d.access = .read := by
  cases c with
  | take c more given =>
    rw [refuse] at hd
    rcases c.result_serve more (.error err :: given) _ with
      ⟨xs, c', hs⟩ | ⟨rest, more', items, hs, -⟩
    · cases hs.symm.trans hd
    · cases hs.symm.trans hd
      rfl
  | fetch | insert | delete | collect => cases hd

/-- With its lock, a call that reads only brings its page into the cache, and goes on reading. -/
theorem proceed_of_read (h : e.Coherent) (hr : c.access = .read) :
    ∃ cache, (c.proceed e).2 = { e with cache } ∧ e.Recaches cache ∧
      ∀ d, (c.proceed e).1.result = .inr d → d.access = .read := by
  cases c with
  | fetch txn page access keep =>
    cases hreach : e.reach txn page access with
    | error err =>
      simp only [proceed, hreach]
      refine ⟨e.cache, rfl, .of_page? fun _ => rfl, ?_⟩
      rintro d ⟨⟩
    | ok x =>
      obtain ⟨k, e'⟩ := x
      obtain ⟨-, -, -, cache, q, rfl, hc, -, -⟩ := h.reach_eq_ok hreach
      simp only [proceed, hreach]
      cases keep with
      | false =>
        refine ⟨cache, rfl, hc, ?_⟩
        rintro d ⟨⟩
      | true =>
        refine ⟨cache.keep k, rfl, ⟨hc.changed, hc.known⟩, ?_⟩
        rintro d ⟨⟩
  | collect c seen =>
    obtain ⟨r, cache, hn, hc⟩ := nextRows_eq h c
    cases r with
    | error err =>
      simp only [proceed, hn]
      refine ⟨cache, rfl, hc, ?_⟩
      rintro d ⟨⟩
    | ok rows =>
      simp only [proceed, hn]
      refine ⟨cache, rfl, hc, fun d hd => ?_⟩
      rcases Cursor.result_serveAll { c with next := c.next + 1 } (rows.reverse ++ seen) _ with
        ⟨rs, hs⟩ | hs
      · cases hs.symm.trans hd
      · cases hs.symm.trans hd
        rfl
  | take c more given =>
    obtain ⟨r, cache, hn, hc⟩ := nextRows_eq h c
    cases r with
    | error err =>
      simp only [proceed, hn]
      exact ⟨cache, rfl, hc, fun d hd => access_of_refuse hd⟩
    | ok rows =>
      simp only [proceed, hn]
      refine ⟨cache, rfl, hc, fun d hd => ?_⟩
      rcases Cursor.result_serve { c with next := c.next + 1, buffered := rows } (more + 1) given _
        with ⟨xs, c', hs⟩ | ⟨rest, more', items, hs, -⟩
      · cases hs.symm.trans hd
      · cases hs.symm.trans hd
        rfl
  | insert | delete => cases hr

/-- Whatever the verdict on its lock, a call that reads at most brings its page into the cache. -/
theorem answer_of_read (h : e.Coherent) (hr : c.access = .read) (granted : Bool) :
    ∃ cache, (c.answer granted e).2 = { e with cache } ∧ e.Recaches cache ∧
      ∀ d, (c.answer granted e).1.result = .inr d → d.access = .read := by
  cases granted with
  | false => exact ⟨e.cache, rfl, .of_page? fun _ => rfl, fun d hd => access_of_refuse hd⟩
  | true => exact proceed_of_read h hr

end Call

namespace Engine

/-- A call that reads leaves its transaction what it holds. -/
theorem Course.keeps_of_read (h : e.Course c result e') (hc : e.Coherent)
    (hr : c.access = .read) : e.Keeps c.txn e' := by
  induction h with
  | blocked hj => exact hj.keeps_of_read hr
  | ended hj _ ha =>
    obtain ⟨cache, he, hcache, -⟩ := Call.answer_of_read (hj.coherent hc) hr _
    rw [ha] at he
    subst he
    exact (hj.keeps_of_read hr).trans ((hj.coherent hc).keeps_recache hcache)
  | next hj _ ha hx _ ih =>
    obtain ⟨cache, he, hcache, hread⟩ := Call.answer_of_read (hj.coherent hc) hr _
    rw [ha] at he hread
    subst he
    have hk := (hj.keeps_of_read hr).trans ((hj.coherent hc).keeps_recache hcache)
    exact hk.trans (hx ▸ ih ((hj.coherent hc).recache hcache) (hread _ rfl))

end Engine

end RowStore
