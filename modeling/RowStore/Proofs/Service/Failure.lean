import RowStore.Proofs.Service.Orderly

/-!
# Commits that fail

A commit writes back the pages that its transaction holds for itself alone, one after the other, and
stops at the first that cannot be written: because the log fails, or the catalog no longer has the
table, or the file does not take the page, or breaks off in the middle of it. What has been written
by then stays written. The commit keeps all locks, and the abort that is to follow forgets the pages
and gives the locks back, but takes nothing back from the disk.

So a commit that fails is a commit of the first few pages. `Engine.WroteBack` says what writing back
some pages amounts to, on the disk and in the cache, `Engine.BreaksOff` what the failing page does,
and `Service.Reached.cut_short` puts it together: of the pages held, those before the failing one
have their changes on the disk, every other whole page of every file is as it was, but for the first
bytes of the failing page, and who reads one of the pages next is shown what the disk has.

This holds for every service that can come about, however its transactions have used it and whatever
has been done to the files, the log and the catalog from outside. Even the frame of one page may
hold a copy of another one then, and several pages may belong in one place of the files, so what is
left there is told by `Engine.Leaves`: of several pages it is the last.
-/

namespace RowStore

open Engine

/-! ## Pages that have been written back -/

namespace Engine

variable {e e' e₁ e₂ : Engine} {txn : TxnId} {page pg : PageId} {p q : Page} {err : Error}
  {done pages : List PageId} {faults : Faults} {name : String} {n : Nat} {data new : Bytes}

/-- What is in a place of the files once these pages have been written back one after the other. -/
inductive Leaves (e : Engine) (name : String) (n : Nat) : List PageId → Bytes → Prop
  /-- None of them gets there, and the disk has had these bytes all along. -/
  | kept {pages : List PageId} {data : Bytes} (hw : e.disk.window? name n = some data)
    (hn : ∀ page ∈ pages, ∀ new, ¬ e.Lands page name n new) : Leaves e name n pages data
  /-- Of those that get there, this is the last. -/
  | landed {first later : List PageId} {page : PageId} {data : Bytes}
    (hl : e.Lands page name n data) (hn : ∀ pg ∈ later, ∀ new, ¬ e.Lands pg name n new) :
    Leaves e name n (first ++ page :: later) data

/-- Once a page has been written back, the others leave what they leave together with it. -/
theorem Leaves.tail (hl : e.Leaves name n (page :: pages) data)
    (hlands : ∀ {pg new}, pg ∈ pages → (e₁.Lands pg name n new ↔ e.Lands pg name n new))
    (hself : e.Lands page name n data → e₁.disk.window? name n = some data)
    (hother : (∀ new, ¬ e.Lands page name n new) → e.disk.window? name n = some data →
      e₁.disk.window? name n = some data) : e₁.Leaves name n pages data := by
  have hnone : (∀ pg ∈ pages, ∀ new, ¬ e.Lands pg name n new) →
      ∀ pg ∈ pages, ∀ new, ¬ e₁.Lands pg name n new :=
    fun hno pg hpg new hl => hno pg hpg new ((hlands hpg).1 hl)
  generalize hall : page :: pages = all at hl
  cases hl with
  | kept hw hno =>
    subst hall
    exact .kept (hother (hno page (.head _)) hw) (hnone fun pg hpg => hno pg (.tail _ hpg))
  | @landed first later pg data hl hno =>
    cases first with
    | nil =>
      cases hall
      exact .kept (hself hl) (hnone hno)
    | cons _ first =>
      cases hall
      have hpg : pg ∈ first ++ pg :: later := List.mem_append_right _ (.head _)
      refine .landed ((hlands hpg).2 hl) fun x hx new hlx => ?_
      exact hno x hx new ((hlands (List.mem_append_right _ (.tail _ hx))).1 hlx)

/-- If all copies are of their own pages, then no other page gets to the place of one. -/
theorem Lands.leaves (hf : e.Filed) (hk : e.Keyed) (hn : pages.Nodup) (hp : page ∈ pages)
    (hl : e.Lands page name n data) : e.Leaves name n pages data := by
  obtain ⟨first, later, rfl⟩ := List.append_of_mem hp
  refine .landed hl fun pg hpg new hl' => ?_
  obtain rfl := hf.eq_of_places (hl.places hk) (hl'.places hk)
  exact (List.nodup_cons.1 (List.nodup_append.1 hn).2.1).1 hpg

/-- These pages have been written back as far as they were changed, and nothing else has happened
that the disk, the cache or the locks would tell. -/
structure WroteBack (done : List PageId) (e e' : Engine) : Prop where
  /-- The tables are the same. -/
  catalog : e'.catalog = e.catalog
  /-- The locks are the same. -/
  locks : e'.locks = e.locks
  /-- Tables and files go by their names. -/
  filed : e'.Filed
  /-- The other pages are cached as they were. -/
  cached : ∀ {page}, page ∉ done → e'.cache.page? page = e.cache.page? page
  /-- Those that were changed have got to the files. -/
  landed : ∀ {page q}, page ∈ done → e.cache.page? page = some q → q.dirtiedBy ≠ none →
    ∃ name n, e.Lands page name n q.data
  /-- The disk has what they have left, and all else as it was. -/
  left : ∀ {name n data}, e.Leaves name n done data → e'.disk.window? name n = some data

theorem wroteBack_nil (hf : e.Filed) : WroteBack [] e e where
  catalog := rfl
  locks := rfl
  filed := hf
  cached _ := rfl
  landed hp := absurd hp List.not_mem_nil
  left hl := by
    generalize hnil : [] = pages at hl
    cases hl with
    | kept hw => exact hw
    | landed => simp at hnil

/-- The page has failed to be written back, with this error. -/
structure BreaksOff (faults : Faults) (page : PageId) (err : Error) (e e' : Engine) : Prop where
  /-- The locks are the same. -/
  locks : e'.locks = e.locks
  /-- All pages are cached as they were. -/
  cache : e'.cache = e.cache
  /-- The page was a changed one. -/
  changed : ∃ q txn, e.cache.page? page = some q ∧ q.dirtiedBy = some txn
  /-- All other whole pages of the files are as they were. -/
  kept : ∀ {name n data}, (∀ new, ¬ e.Lands page name n new) →
    e.disk.window? name n = some data → e'.disk.window? name n = some data
  /-- In its own place it may have left its first bytes, if the error is that of a write that has
  broken off. -/
  torn : ∀ {name n old new}, e.Lands page name n new → e.disk.window? name n = some old →
    ∃ k, e'.disk.window? name n = some (new.take k ++ old.drop k) ∧
      (k = 0 ∨ faults page = some ⟨k, err⟩)

/-! ### Pages that have been written back up to one that has failed -/

namespace WroteBack

theorem lands_iff (hw : WroteBack done e e₁) (hn : page ∉ done) :
    e₁.Lands page name n new ↔ e.Lands page name n new :=
  Lands.congr (hw.cached hn) hw.catalog

theorem changed (hw : WroteBack done e e₁) (hb : BreaksOff faults page err e₁ e')
    (hn : page ∉ done) : ∃ q x, e.cache.page? page = some q ∧ q.dirtiedBy = some x := by
  obtain ⟨q, x, hq, hd⟩ := hb.changed
  exact ⟨q, x, (hw.cached hn).symm.trans hq, hd⟩

theorem cached_end (hw : WroteBack done e e₁) (hb : BreaksOff faults page err e₁ e')
    (hp : pg ∉ done) : e'.cache.page? pg = e.cache.page? pg := by
  rw [hb.cache]
  exact hw.cached hp

/-- Away from the place of the page that has failed, the disk has what the others have left. -/
theorem left_end (hw : WroteBack done e e₁) (hb : BreaksOff faults page err e₁ e')
    (hn : page ∉ done) (hl : e.Leaves name n done data) (hno : ∀ new, ¬ e.Lands page name n new) :
    e'.disk.window? name n = some data :=
  hb.kept (fun new hl' => hno new ((hw.lands_iff hn).1 hl')) (hw.left hl)

/-- In its place the first bytes may be those of the page that has failed. -/
theorem torn_end (hw : WroteBack done e e₁) (hb : BreaksOff faults page err e₁ e')
    (hn : page ∉ done) (hl : e.Leaves name n done data) (hl' : e.Lands page name n new) :
    ∃ k, e'.disk.window? name n = some (new.take k ++ data.drop k) ∧
      (k = 0 ∨ faults page = some ⟨k, err⟩) :=
  hb.torn ((hw.lands_iff hn).2 hl') (hw.left hl)

end WroteBack

theorem lands_of_changed {t : Table} (hq : e.cache.page? page = some q)
    (hd : q.dirtiedBy = some txn) (ht : e.catalog.table page.table = .ok t) :
    e.Lands page t.file q.id.number q.data := ⟨q, txn, t, hq, hd, ht, rfl, rfl, rfl⟩

namespace Flushes

/-- The disk has the bytes of the page if it was changed, and all else as it was. -/
theorem durable (hf : e.Filed) (h : e.Flushes page (.ok ()) e') : e'.Filed ∧
    (∀ {q}, e.cache.page? page = some q → q.dirtiedBy ≠ none →
      ∃ name n, e.Lands page name n q.data) ∧
    (∀ {name n data}, e.Lands page name n data → e'.disk.window? name n = some data) ∧
    ∀ {name n data}, (∀ new, ¬ e.Lands page name n new) →
      e.disk.window? name n = some data → e'.disk.window? name n = some data := by
  cases h with
  | clean hu =>
    refine ⟨hf, fun hq hd => absurd (hu hq) hd, fun hl => ?_, fun _ hw => hw⟩
    obtain ⟨q, txn, t, hq, hd, -⟩ := hl
    cases (hu hq).symm.trans hd
  | @written q txn t disk journal hq hd ht hw =>
    obtain ⟨hfiled, hself, hother⟩ := hf.writePage hw
    have hl := lands_of_changed hq hd ht
    refine ⟨hfiled.of_eq rfl rfl rfl, fun {r} hr _ => ?_, fun hl' => ?_, fun hn => hother ?_⟩
    · obtain rfl : q = r := Option.some.inj (hq.symm.trans hr)
      exact ⟨_, _, hl⟩
    · obtain ⟨rfl, rfl, rfl⟩ := hl.unique hl'
      exact hself
    · rintro ⟨rfl, rfl⟩
      exact hn _ hl

/-- To write a page back, to take its bytes for durable and to have written back other pages then is
to have written back all of them. -/
theorem wroteBack (hf : e.Filed) (h : e.Flushes page (.ok ()) e₁) (hn : page ∉ pages)
    (h' : WroteBack pages (rebase page e₁) e') : WroteBack (page :: pages) e e' := by
  obtain ⟨-, hlanded, hself, hother⟩ := h.durable hf
  have hcached : ∀ {pg}, pg ≠ page → (rebase page e₁).cache.page? pg = e.cache.page? pg :=
    fun hne => (h.page?_rebase_ok _).trans (if_neg hne)
  have hlands : ∀ {pg name n data}, pg ∈ pages →
      ((rebase page e₁).Lands pg name n data ↔ e.Lands pg name n data) :=
    fun hpg => Lands.congr (hcached fun he => hn (he ▸ hpg)) h.catalog
  exact
    { catalog := h'.catalog.trans h.catalog
      locks := h'.locks.trans h.locks
      filed := h'.filed
      cached := fun hp => by
        rw [List.mem_cons, not_or] at hp
        exact (h'.cached hp.2).trans (hcached hp.1)
      landed := fun {pg q} hp hq hd => by
        rcases List.mem_cons.1 hp with rfl | hp
        · exact hlanded hq hd
        · have hne : pg ≠ page := fun he => hn (he ▸ hp)
          obtain ⟨name, n, hl⟩ := h'.landed hp ((hcached hne).trans hq) hd
          exact ⟨name, n, (hlands hp).1 hl⟩
      left := fun hl => h'.left (hl.tail hlands hself hother) }

end Flushes

theorem FlushesUnder.breaksOff (hf : e.Filed) (h : e.FlushesUnder faults page (.error err) e') :
    BreaksOff faults page err e e' := by
  cases h with
  | whole h =>
    cases h with
    | failed journal hq hd => exact ⟨rfl, rfl, ⟨_, _, hq, hd⟩, fun _ hw => hw, fun _ hw =>
        ⟨0, hw, .inl rfl⟩⟩
  | @torn q txn t disk fault journal hq hd ht hw hfault =>
    obtain ⟨-, hself, hother⟩ := hf.tearPage hw fault.bytes
    have hl := lands_of_changed hq hd ht
    refine ⟨rfl, rfl, ⟨q, txn, hq, hd⟩, fun hn => hother ?_, fun hl' hold => ?_⟩
    · rintro ⟨rfl, rfl⟩
      exact hn _ hl
    · obtain ⟨rfl, rfl, rfl⟩ := hl.unique hl'
      exact ⟨fault.bytes, hself hold, .inr hfault⟩

/-- Writing back many pages up to the first failure is to have written back those before the failing
one. -/
theorem flushEach_eq_error (hf : e.Filed) (hn : pages.Nodup)
    (h : flushEach faults rebase pages e = (.error err, e')) :
    ∃ done bad rest e₁, pages = done ++ bad :: rest ∧ WroteBack done e e₁ ∧
      BreaksOff faults bad err e₁ e' := by
  induction pages generalizing e with
  | nil => cases h
  | cons page pages ih =>
    obtain ⟨hpage, hn⟩ := List.nodup_cons.1 hn
    have hflush := flushesUnder_flushUnder faults e page
    unfold flushEach at h
    generalize e.flushUnder faults page = flushed at h hflush
    obtain ⟨result, e₁⟩ := flushed
    cases result with
    | error err₁ =>
      cases h
      exact ⟨[], page, pages, e, rfl, wroteBack_nil hf, hflush.breaksOff hf⟩
    | ok u =>
      have hw := hflush.whole_of_ok
      obtain ⟨done, bad, rest, e₂, rfl, hd, hbad⟩ := ih (e := rebase page e₁) (hw.durable hf).1 hn h
      have hdone : page ∉ done := fun hp => hpage (List.mem_append_left _ hp)
      exact ⟨page :: done, bad, rest, e₂, rfl, hw.wroteBack hf hdone hd, hbad⟩

theorem commit_eq_error (hf : e.Filed) (h : e.commitUnder faults txn = (.error err, e')) :
    ∃ done bad rest e₁, e.held txn = done ++ bad :: rest ∧ WroteBack done e e₁ ∧
      BreaksOff faults bad err e₁ e' := by
  unfold commitUnder at h
  cases hfl : flushEach faults rebase (e.held txn) e with
  | mk result e₁ =>
    rw [hfl] at h
    cases result with
    | ok u => cases h
    | error err₁ =>
      cases h
      exact flushEach_eq_error hf (nodup_held e txn) hfl

/-- That tables and files go by their names has nothing to do with how pages are used. -/
theorem outlasts_filed (faults : Faults) : Outlasts faults fun e => e.Filed where
  locks _ hf := hf
  cache hf _ := hf
  move hf hm := by
    cases hm with
    | load hl => exact hf.of_eq hl.stays.catalog hl.disk hl.stays.host
    | keep | write => exact hf
    | install hi =>
      obtain ⟨c, -, -, rfl⟩ := install_eq hi
      exact hf
    | grow hg =>
      obtain ⟨f, -, hg⟩ := bind_eq_ok.1 hg
      cases hg
      exact hf.put _
  flush hf hfl := by
    cases hfl with
    | whole hfl =>
      cases hfl with
      | clean => exact hf
      | failed => exact hf.of_eq rfl rfl rfl
      | written _ _ _ _ hw => exact (hf.writePage hw).1.of_eq rfl rfl rfl
    | torn _ _ _ _ hw _ => exact (hf.tearPage hw _).1.of_eq rfl rfl rfl

end Engine

/-! ## Services that can come about -/

namespace Service

variable {s : Service} {a : Action} {txn : TxnId} {page : PageId} {reply : Reply} {err : Error}

/-- A service that can come about: from an empty pool, by actions of any kind and by what is done to
the files, the log and the catalog from outside. -/
inductive Reached : Service → Prop
  /-- It starts with an empty pool. -/
  | start {backing : Backing} (hb : backing.Filed) (capacity : Nat) (choices : Nat → Nat) :
    Reached (start backing capacity choices)
  /-- An action is performed, and writes of pages may break off. -/
  | performUnder {s : Service} {a : Action} (h : Reached s) (ha : s.Allows a) (faults : Faults) :
    Reached (s.performUnder faults a).2
  /-- Something is done from outside. -/
  | outside {s : Service} {backing : Backing} (h : Reached s) (hb : backing.Filed) :
    Reached { s with engine := { s.engine with toBacking := backing } }

namespace Reached

theorem perform (h : s.Reached) (ha : s.Allows a) : (s.perform a).2.Reached := by
  rw [← performUnder_none]
  exact h.performUnder ha .none

theorem orderly (h : s.Reached) : s.Orderly := by
  induction h with
  | start hb capacity choices => exact .start _ capacity choices
  | performUnder _ ha faults ih => exact ih.performUnder ha faults
  | outside _ _ ih => exact ih.of_locks rfl

theorem filed (h : s.Reached) : s.engine.Filed := by
  induction h with
  | start hb => exact hb
  | performUnder h ha faults ih =>
    exact performUnder_keeps (outlasts_filed faults) h.orderly ha (fun _ _ => ih) ih
  | outside _ hb => exact hb

theorem after {as : List Action} (h : s.Reached) (hr : s.Runs Allows as) : (s.after as).Reached :=
  hr.keeps (fun h ha => h.perform ha) h

end Reached

/-! ## Pages that nobody has read yet -/

/-- A page that was not cached is shown as its file has it. -/
theorem course_fetch {e e' : Engine} {access : Access} {keep : Bool}
    (hn : e.cache.page? page = none)
    (h : e.Course (.fetch txn page access keep) (.inl (.ok reply)) e') :
    ∃ k q, reply = .handle k q ∧ k.page = page ∧ e.load page = .ok q := by
  cases h with
  | @ended _ _ _ verdict locks _ hj hv ha =>
    cases verdict with
    | blocked => exact absurd rfl hv
    | deadlock => cases ha
    | granted =>
      change Call.proceed (.fetch txn page access keep) { e with locks } = _ at ha
      unfold Call.proceed at ha
      dsimp only at ha
      split at ha
      · cases ha
      · next k e₁ hr =>
        obtain ⟨hk, -, -, hl⟩ := reach_eq_ok hr
        obtain ⟨q, hread, hq⟩ := read_of_reach hr
        rw [hread] at ha
        cases ha
        refine ⟨k, q, rfl, hk, ?_⟩
        rcases hl.page?_eq_some hq with hq | ⟨-, hp⟩
        · cases hn.symm.trans hq
        · exact hp
  | @next _ _ _ _ _ _ _ _ hw => exact absurd hw (Nat.not_lt_zero _)

/-- A successful request for a page is the course of a call. -/
theorem course_of_purpose (h : s.Orderly) (ha : s.Allows a) (hp : s.purpose a = .fetch page)
    (ho : (s.perform a).1 = some (.ok reply)) : ∃ txn access keep,
      s.engine.Course (.fetch txn page access keep) (.inl (.ok reply)) (s.perform a).2.engine := by
  have hended : ∀ {result : Outcome ⊕ Call}, (s.perform a).1 = result.getLeft? →
      result = .inl (.ok reply) := by
    intro result hr
    cases result with
    | inl outcome => exact congrArg Sum.inl (Option.some.inj (hr.symm.trans ho))
    | inr c => cases hr.symm.trans ho
  cases a with
  | issue r =>
    cases r with
    | fetch txn pg access keep =>
      cases hp
      obtain ⟨result, hc, hr, -⟩ :=
        course_issue (r := .fetch txn page access keep) h ha rfl
      exact ⟨txn, access, keep, hended hr ▸ hc⟩
    | delete txn place | deleteFrom txn table place => cases place <;> cases hp
    | insert | insertInto | scan | take => cases hp
  | turn w =>
    obtain ⟨c, -, hf, -⟩ := h.find?_eq_some ha
    obtain ⟨result, hc, hr, -⟩ := course_turn h ha hf
    rw [purpose, hf] at hp
    cases c with
    | fetch txn pg access keep =>
      cases hp
      exact ⟨txn, access, keep, hended hr ▸ hc⟩
    | insert | delete | collect | take => cases hp
  | _ => cases hp

/-- Whoever asks for a page that is not cached, with success, is shown what the disk has of it. -/
theorem Reached.fetched (h : s.Reached) (ha : s.Allows a) (hp : s.purpose a = .fetch page)
    (hn : s.engine.cache.page? page = none) (ho : (s.perform a).1 = some (.ok reply)) :
    ∃ k q t, reply = .handle k q ∧ k.page = page ∧ s.engine.catalog.table page.table = .ok t ∧
      s.engine.disk.window? t.file page.number = some q.data := by
  obtain ⟨txn, access, keep, hc⟩ := course_of_purpose h.orderly ha hp ho
  obtain ⟨k, q, hr, hk, hl⟩ := course_fetch hn hc
  obtain ⟨t, f, data, ht, hf, hread, rfl⟩ := load_eq_ok hl
  refine ⟨k, _, t, hr, hk, ht, ?_⟩
  rw [Disk.window?, hf]
  exact PageFile.window?_of_read hread

/-! ## The end of a transaction whose commit fails -/

/-- What a transaction leaves behind that has held some pages for itself alone, has tried to commit
but come only up to the page `bad`, where this error came up, and has aborted. -/
structure CutShort (faults : Faults) (s s' : Service) (txn : TxnId) (done : List PageId)
    (bad : PageId) (err : Error) : Prop where
  /-- The page that has failed was a changed one. -/
  changed : ∃ q x, s.engine.cache.page? bad = some q ∧ q.dirtiedBy = some x
  /-- The changed pages before it have got to the files. -/
  landed : ∀ {page q}, page ∈ done → s.engine.cache.page? page = some q → q.dirtiedBy ≠ none →
    ∃ name n, s.engine.Lands page name n q.data
  /-- The disk has what they have left there, and all other whole pages of all files as they were,
  but for the place of the page that has failed. -/
  left : ∀ {name n data}, s.engine.Leaves name n done data →
    (∀ new, ¬ s.engine.Lands bad name n new) → s'.engine.disk.window? name n = some data
  /-- In this place the first bytes may be those of the page, if the error is that of its write,
  which has broken off. -/
  torn : ∀ {name n old new}, s.engine.Leaves name n done old → s.engine.Lands bad name n new →
    ∃ k, s'.engine.disk.window? name n = some (new.take k ++ old.drop k) ∧
      (k = 0 ∨ faults bad = some ⟨k, err⟩)
  /-- If all copies are of their own pages, then the disk has what the cache had of the changed
  pages before the failing one. -/
  durable : s.engine.Keyed → ∀ {page q}, page ∈ done → s.engine.cache.page? page = some q →
    q.dirtiedBy ≠ none → ∃ t, s.engine.catalog.table page.table = .ok t ∧
      s'.engine.disk.window? t.file page.number = some q.data
  /-- The pages that were held are not cached any more. -/
  forgotten : ∀ {page}, s.engine.locks.modeOf txn page = .exclusive →
    s'.engine.cache.page? page = none
  /-- The others are cached as they were. -/
  cached : ∀ {page}, s.engine.locks.modeOf txn page ≠ .exclusive →
    s'.engine.cache.page? page = s.engine.cache.page? page
  /-- The transaction has no locks any more. -/
  locks : s'.engine.locks = s.engine.locks.releaseAll txn
  /-- As long as nobody has read such a page again, the next one who does is shown what the disk
  has. -/
  read : ∀ {as a page reply}, s.engine.locks.modeOf txn page = .exclusive → s'.Runs Allows as →
    (s'.after as).engine.cache.page? page = none → (s'.after as).Allows a →
    (s'.after as).purpose a = .fetch page → ((s'.after as).perform a).1 = some (.ok reply) →
    ∃ k q t, reply = .handle k q ∧ k.page = page ∧
      (s'.after as).engine.catalog.table page.table = .ok t ∧
      (s'.after as).engine.disk.window? t.file page.number = some q.data

/-- If all copies are of their own pages, then what writing back pages leaves is in their places. -/
theorem durable_of_left {e : Engine} {q : Page} {done rest : List PageId} {bad : PageId}
    {disk : Disk} (hf : e.Filed) (hk : e.Keyed) (hn : (done ++ bad :: rest).Nodup)
    (hlanded : ∃ name n, e.Lands page name n q.data)
    (hleft : ∀ {name n data}, e.Leaves name n done data → (∀ new, ¬ e.Lands bad name n new) →
      disk.window? name n = some data) (hp : page ∈ done) :
    ∃ t, e.catalog.table page.table = .ok t ∧
      disk.window? t.file page.number = some q.data := by
  obtain ⟨name, n, hl⟩ := hlanded
  obtain ⟨t, ht, rfl, rfl⟩ := hl.places hk
  obtain ⟨hdone, -, hne⟩ := List.nodup_append.1 hn
  refine ⟨t, ht, hleft (hl.leaves hf hk hdone hp) fun new hl' => ?_⟩
  exact hne _ hp bad (.head _) (hf.eq_of_places (hl.places hk) (hl'.places hk))

/-- A commit that fails keeps all locks, and with the abort that follows it amounts to a commit of
the pages before the one that has failed. -/
theorem Reached.cut_short (h : s.Reached) {faults : Faults}
    (hc : (s.performUnder faults (.commit txn)).1 = some (.error err)) :
    (s.performUnder faults (.commit txn)).2.engine.locks = s.engine.locks ∧
      ∃ done bad rest, s.engine.held txn = done ++ bad :: rest ∧
        (done ++ bad :: rest).Nodup ∧
        s.CutShort faults ((s.performUnder faults (.commit txn)).2.perform (.abort txn)).2 txn done
          bad err := by
  have hlast : ((s.performUnder faults (.commit txn)).2.perform (.abort txn)).2.Reached :=
    (h.performUnder (a := .commit txn) trivial faults).perform (a := .abort txn) trivial
  have hperform : s.performUnder faults (.commit txn) =
      s.finish (s.engine.commitUnder faults txn) := rfl
  rw [hperform] at hc hlast ⊢
  cases hcommit : s.engine.commitUnder faults txn with
  | mk result e =>
    rw [hcommit] at hc hlast
    cases result with
    | ok u => cases hc
    | error err₁ =>
      obtain rfl : err₁ = err := Except.error.inj (Option.some.inj hc)
      obtain ⟨done, bad, rest, e₁, hheld, hw, hbad⟩ := commit_eq_error h.filed hcommit
      have hdone : ∀ {page}, page ∈ done → s.engine.locks.modeOf txn page = .exclusive :=
        fun hp => mem_held.1 (hheld ▸ List.mem_append_left _ hp)
      have hnodup := nodup_held s.engine txn
      rw [hheld] at hnodup
      have hnot : bad ∉ done := fun hb => (List.nodup_append.1 hnodup).2.2 _ hb _ (.head _) rfl
      have hlocks : e.locks = s.engine.locks := hbad.locks.trans hw.locks
      have hleft : ∀ {name n data}, s.engine.Leaves name n done data →
          (∀ new, ¬ s.engine.Lands bad name n new) → e.disk.window? name n = some data :=
        fun hl hno => hw.left_end hbad hnot hl hno
      obtain ⟨c, hc, hp⟩ := abort_eq e txn
      rw [hlocks] at hp
      show e.locks = s.engine.locks ∧ _
      change (Service.perform { s with engine := e } (.abort txn)).2.Reached at hlast
      rw [perform_abort, hc] at hlast
      refine ⟨hlocks, done, bad, rest, hheld, hnodup, ?_⟩
      show CutShort faults s { s with engine := e.abort txn } txn done bad err₁
      rw [hc]
      exact
        { changed := hw.changed hbad hnot
          landed := hw.landed
          left := hleft
          torn := fun hl hl' => by
            obtain ⟨k, hdisk, hk⟩ := hw.torn_end hbad hnot hl hl'
            exact ⟨k, hdisk, hk⟩
          durable := fun hk {page q} hpage hq hd =>
            durable_of_left h.filed hk hnodup (hw.landed hpage hq hd) hleft hpage
          forgotten := fun hx => (hp _).trans (if_pos hx)
          cached := fun {page} hx => by
            have hcached := hw.cached_end hbad fun hd => hx (hdone hd)
            exact (hp page).trans ((if_neg hx).trans hcached)
          locks := congrArg (·.releaseAll txn) hlocks
          read := fun hx hr hn ha hpu ho => (hlast.after hr).fetched ha hpu hn ho }

end Service

namespace Sample

theorem filed_backing : backing.Filed :=
  (Backing.filed_empty .empty .plain).add ⟨table.file, 9, _, 0⟩ table.schema _

/-- The database with a log that takes so many records and no more. -/
def short (records : Nat) : Backing := { backing with
  journal := { Journal.empty with
    appendFault := fun n => if n < records then none else some "log full" } }

theorem filed_short (records : Nat) : (short records).Filed := filed_backing.of_eq rfl rfl rfl

/-- A transaction inserts two rows. The second one does not fit into the page of the first, so the
transaction holds two changed pages then. -/
def growing : List Action :=
  [.issue (.insert 1 table.id ⟨[.int 7], none⟩), .issue (.insert 1 table.id ⟨[.int 8], none⟩)]

/-- The transaction gives the page of the first row back before it inserts the second one. -/
def leaving : List Action :=
  [.issue (.insert 1 table.id ⟨[.int 7], none⟩), .release 1 page,
    .issue (.insert 1 table.id ⟨[.int 8], none⟩)]

/-- The log will take the changes of so many pages. -/
def grown (records : Nat) : Service := (Service.start (short records) 2 id).after growing

/-- The log will take nothing. -/
def left : Service := (Service.start (short 0) 2 id).after leaving

/-- The service after the transaction has tried to commit and has aborted. -/
def cut (s : Service) : Service := ((s.perform (.commit 1)).2.perform (.abort 1)).2

theorem runs_growing (records : Nat) :
    (Service.start (short records) 2 id).Runs Service.Allows growing :=
  ⟨Service.not_hasBlocked_of_nil rfl 1, Service.not_hasBlocked_of_nil (by cbv) 1, trivial⟩

theorem runs_leaving : (Service.start (short 0) 2 id).Runs Service.Allows leaving :=
  ⟨Service.not_hasBlocked_of_nil rfl 1, trivial, Service.not_hasBlocked_of_nil (by cbv) 1, trivial⟩

theorem reached_grown (records : Nat) : (grown records).Reached :=
  (Service.Reached.start (filed_short records) 2 id).after (runs_growing records)

theorem reached_left : left.Reached :=
  (Service.Reached.start (filed_short 0) 2 id).after runs_leaving

/-- The write of the second page breaks off when three of its bytes are in the file. -/
def breaking : Faults := fun page => if page.number = 1 then some ⟨3, .fileTooLong⟩ else none

/-- The commit of this transaction fails at the second page. The first row is on the disk then, and
of the second page the first three bytes. -/
theorem cut_short_grown :
    ((grown 2).performUnder breaking (.commit 1)).1 = some (.error .fileTooLong) ∧
      (((grown 2).performUnder breaking (.commit 1)).2.engine.locks = (grown 2).engine.locks ∧
        ∃ done bad rest, (grown 2).engine.held 1 = done ++ bad :: rest ∧
          (done ++ bad :: rest).Nodup ∧ (grown 2).CutShort breaking
            (((grown 2).performUnder breaking (.commit 1)).2.perform (.abort 1)).2 1 done bad
              .fileTooLong) ∧
      (((grown 2).performUnder breaking (.commit 1)).2.perform
        (.abort 1)).2.engine.disk.window? table.file 0 = some [3, 0, 0, 0, 5, 0, 0, 0, 7] ∧
      (((grown 2).performUnder breaking (.commit 1)).2.perform
        (.abort 1)).2.engine.disk.window? table.file 1 = some [1, 0, 0, 0, 0, 0, 0, 0, 0] := by
  have hfail : ((grown 2).performUnder breaking (.commit 1)).1 = some (.error .fileTooLong) := by
    cbv
  exact ⟨hfail, (reached_grown 2).cut_short hfail, by cbv, by cbv⟩

/-- So the first row is on the disk although the transaction has aborted, and the next transaction
reads it. It also reads the row of a page that was given back before the commit has failed: that one
is not on the disk, but has stayed in the cache. -/
theorem kept_in_part :
    ((grown 1).Reached ∧ ((grown 1).perform (.commit 1)).1 = some (.error (.logFailed "log full")) ∧
      (grown 1).engine.disk.window? table.file 0 = some [1, 0, 0, 0, 5, 0, 0, 0, 0] ∧
      (cut (grown 1)).engine.disk.window? table.file 0 = some [3, 0, 0, 0, 5, 0, 0, 0, 7] ∧
      ∃ k q, ((cut (grown 1)).perform (.issue (.fetch 2 page .read false))).1 =
        some (.ok (.handle k q)) ∧ q.data = [3, 0, 0, 0, 5, 0, 0, 0, 7]) ∧
    left.Reached ∧ (left.perform (.commit 1)).1 = some (.error (.logFailed "log full")) ∧
      left.engine.disk.window? table.file 0 = some [1, 0, 0, 0, 5, 0, 0, 0, 0] ∧
      (cut left).engine.disk.window? table.file 0 = some [1, 0, 0, 0, 5, 0, 0, 0, 0] ∧
      ∃ k q, ((cut left).perform (.issue (.fetch 2 page .read false))).1 =
        some (.ok (.handle k q)) ∧ q.data = [3, 0, 0, 0, 5, 0, 0, 0, 7] :=
  ⟨⟨reached_grown 1, by cbv, by cbv, by cbv, _, _, by cbv, rfl⟩,
    reached_left, by cbv, by cbv, by cbv, _, _, by cbv, rfl⟩

end Sample

end RowStore
