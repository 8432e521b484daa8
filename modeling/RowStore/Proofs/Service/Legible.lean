import RowStore.Proofs.Page.Rows
import RowStore.Proofs.Service.Insertion
import RowStore.Proofs.Service.Repeatable

/-!
# Pages whose slots decode

What a file has need not decode, as this program may never have written it. But a page all of whose
occupied slots decode stays such a page, whatever is done: rows are only put into pages of their
types, so what is stored of them decodes. There are two versions of a page to look after, since a
transaction that aborts brings back what is stored. `Engine.Legible` is about both, and
`Service.Sound.legible_perform` says that every permitted action keeps it.
-/

namespace RowStore

open Engine

namespace Engine

variable {e e' : Engine} {page : PageId} {p q : Page} {t : Table}

/-- All occupied slots of a page decode, in the page as transactions see it and as it is stored. -/
def Legible (e : Engine) (page : PageId) : Prop :=
  ∀ ⦃p⦄, e.seen page = some p ∨ e.stored page = some p → p.Legible

namespace Coherent

/-- Of one table transactions see rows of the same types. -/
theorem schema_eq (h : e.Coherent) {pg : PageId} (hp : e.seen page = some p)
    (hq : e.seen pg = some q) (ht : pg.table = page.table) : q.schema = p.schema := by
  obtain ⟨-, t, htp, hsp⟩ := h.of_seen hp
  obtain ⟨-, u, htq, hsq⟩ := h.of_seen hq
  rw [ht] at htq
  obtain rfl : u = t := Except.ok.inj (htq.symm.trans htp)
  exact hsq.trans hsp.symm

end Coherent

/-- A page that comes up has no rows, so it is legible like the others. -/
theorem legible_of_grows {f g : PageId → Option Page} (h : GrowsAt f g page)
    (hf : ∀ ⦃p⦄, f page = some p → p.Legible) (hp : g page = some p) : p.Legible := by
  rcases h with hg | ⟨-, schema, size, hg⟩
  · exact hf (hg.symm.trans hp)
  · obtain rfl := Option.some.inj (hg.symm.trans hp)
    exact Page.legible_of_empty fun slot => Page.slot?_empty ..

/-- What is stored is that of a row, and there is a page of the table that has rows of its types. -/
def Suits (e : Engine) (table : TableId) (bytes : Bytes) : Prop :=
  ∃ (page : PageId) (p : Page) (row : Row), page.table = table ∧ e.seen page = some p ∧
    row.types = p.schema.types ∧ row.encode = bytes

/-- What a call has changed is legible if what it has put there suits the table. -/
theorem Edits.legible {txn : TxnId} {place : RowId} {content : Option Bytes}
    (h : e.Edits txn place content e') (hc : e.Coherent) (hc' : e'.Coherent)
    (hs : ∀ bytes, content = some bytes → e'.Suits place.page.table bytes)
    (hl : ∀ ⦃p⦄, e.seen page = some p → p.Legible) (hp : e'.seen page = some p) : p.Legible := by
  obtain ⟨f, r, q, hf, hr, hslot, hseen⟩ := h.seen
  by_cases hpage : page = place.page
  · subst hpage
    obtain rfl : q = p := by
      rw [hseen, Function.update_self] at hp
      exact Option.some.inj hp
    have hrow : ∀ bytes, content = some bytes →
        ∃ row : Row, row.types = q.schema.types ∧ row.encode = bytes := by
      intro bytes hbytes
      obtain ⟨pg, p, row, ht, hpg, htypes, hrow⟩ := hs bytes hbytes
      exact ⟨row, htypes.trans (congrArg Schema.types (hc'.schema_eq hp hpg ht)), hrow⟩
    rcases hf place.page with hg | ⟨-, schema, size, hg⟩
    · -- the page was there, and had rows of the same types
      have hr' : e.seen place.page = some r := hg.symm.trans hr
      have hschema : q.schema = r.schema := by
        obtain ⟨-, t, ht, hrt⟩ := hc.of_seen hr'
        obtain ⟨-, u, hu, hqu⟩ := hc'.of_seen hp
        rw [h.catalog] at hu
        obtain rfl : u = t := Except.ok.inj (hu.symm.trans ht)
        exact hqu.trans hrt.symm
      exact (hl hr').update hschema hslot (hschema ▸ hrow)
    · -- the page is new, and the row in it is the only one
      obtain rfl := Option.some.inj (hg.symm.trans hr)
      have hempty : (Page.empty place.page schema size).slot? =
          (Page.empty place.page q.schema size).slot? :=
        funext fun slot => (Page.slot?_empty ..).trans (Page.slot?_empty ..).symm
      exact (Page.legible_of_empty fun slot => Page.slot?_empty ..).update
        (p := Page.empty place.page q.schema size) rfl (hempty ▸ hslot) hrow
  · rw [hseen, Function.update_of_ne hpage] at hp
    exact legible_of_grows (hf page) hl hp

end Engine

namespace Insertion

variable {e e' : Engine} {i : Insertion} {reply : Reply}

/-- An insertion that succeeds has put its row into a page of its types. -/
theorem Way.suits (h : i.Way e (.inl (.ok reply)) e') (hk : e.Keyed) :
    e'.Suits i.table.id i.row.encode := by
  obtain ⟨j, e₁, ⟨hu, hf⟩, hstop⟩ := h.stops
    (p := fun j e₁ => Underway e j e₁ ∧ i.Follows j)
    (fun ⟨hu, hf⟩ hl => ⟨hu.leg hl, hf.trans hl.follows⟩) ⟨.refl e i, .refl i⟩
  cases hstop with
  | ended hl =>
    obtain ⟨e₂, q, q', place, c, -, hi, rfl, hpage⟩ := hl.eq_stored (hu.keyed hk)
    have hcached : c.page? j.page = some q' := (hpage _).trans (if_pos rfl)
    have hschema : q'.schema = q.schema := (Page.slot?_of_insert hi).1.schema
    refine ⟨j.page, q'.asStored, i.row, congrArg Table.id hf.table,
      seen_of_cached (e := { e₂ with cache := c }) hcached, ?_, rfl⟩
    change i.row.types = q'.schema.types
    rw [hschema, ← hf.row]
    exact (Page.firstVacancy_of_insert hi).1

theorem Trip.suits (h : i.Trip e (.inl (.ok reply)) e') (hg : i.grown = false) (hk : e.Keyed) :
    e'.Suits i.table.id i.row.encode := by
  cases h with
  | ended hb =>
    cases hb with
    | append _ _ ha => cases ha
  | way hb hw =>
    have hf := hb.follows
    have hs := hw.suits ((Underway.begins hg hb).keyed hk)
    rwa [hf.table, hf.row] at hs

end Insertion

namespace Service

variable {s s' : Service} {a : Action} {as : List Action} {txn : TxnId} {task : Purpose}
  {o : Option Outcome} {page : PageId} {p : Page} {reply : Reply} {table : TableId} {bytes : Bytes}

/-- A request to store something that succeeds has put it where it suits. -/
theorem Sound.suits_perform (h : s.Sound) (ho : s.Orderly) (ha : s.Permits a)
    (hp : s.purpose a = .store table bytes) (hok : (s.perform a).1 = some (.ok reply)) :
    (s.perform a).2.engine.Suits table bytes := by
  have hk : s.engine.Keyed := fun _ _ hq => h.engine.toCoherent.id_eq hq
  cases a with
  | issue r =>
    change (s.issue r).1 = some (.ok reply) at hok
    cases r with
    | insert txn id row =>
      cases hp
      cases ht : s.engine.catalog.table table with
      | error err =>
        rw [issue_insert_of_error ht] at hok
        cases hok
      | ok t =>
        obtain ⟨result, htrip, hres, -⟩ := trip_issue ho ha.1.2 (start_insert ht)
        obtain rfl := Sum.getLeft?_eq_some_iff.1 (hres.symm.trans hok)
        have hid : t.id = table := (h.engine.table_id ht).1
        exact hid ▸ htrip.suits rfl hk
    | insertInto txn t row =>
      cases hp
      obtain ⟨result, htrip, hres, -⟩ := trip_issue (i := .of txn t row false) ho ha.1.2 rfl
      obtain rfl := Sum.getLeft?_eq_some_iff.1 (hres.symm.trans hok)
      exact htrip.suits rfl hk
    | delete txn place =>
      cases place <;> cases hp
    | deleteFrom txn t place =>
      cases place <;> cases hp
    | fetch | scan | take => cases hp
  | turn w =>
    change (s.turn w).1 = some (.ok reply) at hok
    obtain ⟨c, -, hf, -⟩ := find?_eq_some h ha.1
    have hpc : c.purpose = .store table bytes := by
      rw [← hp, purpose, hf]
      rfl
    cases c with
    | insert i =>
      cases hpc
      obtain ⟨result, hway, hres, -⟩ := way_turn ho ha.1 hf
      obtain rfl := Sum.getLeft?_eq_some_iff.1 (hres.symm.trans hok)
      exact hway.suits hk
    | fetch | delete | collect | take => cases hpc
  | _ => cases hp

/-- A call puts nothing into a page that does not decode there. -/
theorem Moves.legible (h : s.Moves txn task o s') (hs : s.Sound)
    (ho : o ≠ some (.error .overflow))
    (hsuits : ∀ {table bytes reply}, task = .store table bytes → o = some (.ok reply) →
      s'.engine.Suits table bytes)
    (hl : ∀ ⦃p⦄, s.engine.seen page = some p → p.Legible) (hp : s'.engine.seen page = some p) :
    p.Legible := by
  have hs' : s'.Sound := h.sound hs ho
  obtain ⟨⟨result, hprog, hres, -⟩, -⟩ := h
  have hquiet : s.engine.Quiet txn s'.engine → p.Legible := fun hq =>
    legible_of_grows (hq.seen page) hl hp
  cases hprog with
  | done _ _ _ place content hfits hedit =>
    refine hedit.legible hs.engine.toCoherent hs'.engine.toCoherent ?_ hl hp
    rintro bytes rfl
    cases task with
    | store table stored =>
      obtain ⟨ht, -, hb⟩ := hfits
      cases hb
      exact ht ▸ hsuits rfl hres
    | remove r =>
      obtain ⟨-, -, hb⟩ := hfits
      cases hb
    | fetch | look => exact hfits.elim
  | looked _ _ _ _ hq => exact hquiet hq
  | failed _ _ hq => exact hquiet hq
  | overflown => exact absurd hres ho
  | waits _ _ _ _ hq => exact hquiet hq

/-- Every permitted action leaves a page legible. -/
theorem Sound.legible_perform (h : s.Sound) (ho : s.Orderly) (ha : s.PermitsWrites a)
    (hl : s.engine.Legible page) : (s.perform a).2.engine.Legible page := by
  have hseen : ∀ ⦃p⦄, s.engine.seen page = some p → p.Legible := fun p hp => hl (.inl hp)
  have hstored : ∀ ⦃p⦄, s.engine.stored page = some p → p.Legible := fun p hp => hl (.inr hp)
  rintro p (hp | hp)
  · have hgrows : GrowsAt s.engine.seen (s.perform a).2.engine.seen page → p.Legible :=
      fun hg => legible_of_grows hg hseen hp
    rcases ha with ha | ⟨k, change, rfl, hedit, -⟩
    · have hcall : (∃ r, a = .issue r) ∨ (∃ w, a = .turn w) → p.Legible := by
        intro hcall
        obtain ⟨txn, -, hm⟩ := moves_perform h ha hcall
        exact hm.legible h ha.2 (fun hpr hok => h.suits_perform ho ha hpr hok) hseen hp
      cases a with
      | issue r => exact hcall (.inl ⟨r, rfl⟩)
      | turn w => exact hcall (.inr ⟨w, rfl⟩)
      | abort txn =>
        rw [perform_abort] at hp
        change (s.engine.abort txn).seen page = some p at hp
        rw [seen_abort] at hp
        split at hp
        · exact hstored hp
        · exact hseen hp
      | commit txn => exact hgrows (.inl (congrFun (h.engine.toCoherent.seen_commit txn) page))
      | letGo | evict =>
        refine hgrows ((h.seen_perform (.inl ha) page).resolve_right ?_)
        rintro ⟨txn, ⟨⟩, -⟩
      | write | install | flush | flushHeld | flushAll | discard | release => exact ha.1.elim
    · rcases write_cases s k change with ⟨err, he⟩ | ⟨q, hq, he⟩
      · rw [he] at hp
        exact hseen hp
      · rw [he] at hp
        have hp := (congrFun (Coherent.seen_update hq) page).symm.trans hp
        rw [Function.update_apply] at hp
        split at hp
        · next hpage =>
          obtain rfl := Option.some.inj hp
          have hq' : q.asStored.Legible := hseen (hpage ▸ seen_of_cached hq)
          have hmarked : (q.markDirty (some k.txn)).Legible := hq'
          have hchange := hmarked.edited (hedit (q.markDirty (some k.txn)))
          exact hchange
        · exact hseen hp
  · rcases h.stored_perform ha page with hg | ⟨txn, -, -, hg⟩
    · exact legible_of_grows hg hstored hp
    · exact hseen (hg.symm.trans hp)

/-- Every run leaves a page legible. -/
theorem Sound.legible_after (h : s.Sound) (ho : s.Orderly) (hr : s.Runs PermitsWrites as)
    (hl : s.engine.Legible page) : (s.after as).engine.Legible page := by
  induction as generalizing s with
  | nil => exact hl
  | cons a as ih =>
    obtain ⟨ha, hr⟩ := hr
    exact ih (h.perform ha) (ho.perform ha.allows) hr (h.legible_perform ho ha hl)

end Service

end RowStore
