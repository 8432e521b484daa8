import RowStore.Proofs.Page.Vacancy
import RowStore.Proofs.Pool.Coherent

/-!
# Attempts to change a page

A page is changed in two steps: it is brought into the cache, and then the change is made to the
cached copy. Either can fail. If the first does, nothing has happened; but the second marks the copy
before it is known whether the page lets itself be changed, so a change that is refused leaves its
mark behind. `Engine.Inserts` and `Engine.Deletes` list all that can come of an attempt, with the
copy that it has found, for any engine whatsoever.
-/

namespace RowStore

/-- Two steps in a row fail just if the first does, or the second after it. -/
theorem bind_eq_error {α β : Type} {x : Except Error α} {f : α → Except Error β} {err : Error} :
    x >>= f = .error err ↔ x = .error err ∨ ∃ a, x = .ok a ∧ f a = .error err := by
  cases x with
  | error err' =>
    constructor
    · intro h
      exact .inl (Except.error.inj h ▸ rfl)
    · intro h
      exact Except.error.inj (h.resolve_right nofun) ▸ rfl
  | ok a =>
    constructor
    · intro h
      exact .inr ⟨a, rfl, h⟩
    · rintro (h | ⟨b, hb, h⟩)
      · cases h
      · exact Except.ok.inj hb ▸ h

namespace Engine

variable {e e' e₁ : Engine} {txn : TxnId} {page pg : PageId} {p q r : Page} {access : Access}
  {row : Row} {place : RowId} {err : Error} {c : Cache}

/-! ## Bringing a page into the cache -/

/-- A page enters the cache unless all pages in it are changed ones. -/
theorem add_eq_error (h : c.add q = .error err) : ∃ n, err = .allPagesDirty n := by
  rcases bind_eq_error.1 h with h | ⟨_, -, h⟩
  · unfold Cache.makeRoom at h
    split at h
    · cases h
    · unfold Cache.evict at h
      dsimp only at h
      split at h
      · cases h
      · cases h
        exact ⟨_, rfl⟩
  · cases h

/-- Why a page cannot be brought into the cache. -/
structure Unread (e : Engine) (page : PageId) (err : Error) : Prop where
  /-- It is not there. -/
  absent : e.cache.page? page = none
  /-- It cannot be read from its file, or no other page can make way for it. -/
  reason : e.load page = .error err ∨ (∃ p, e.load page = .ok p) ∧ ∃ n, err = .allPagesDirty n

theorem reach_eq_error (h : e.reach txn page access = .error err) : e.Unread page err := by
  unfold reach at h
  split at h
  · cases h
  · next hf =>
    refine ⟨Cache.page?_eq_none_iff.2 hf, ?_⟩
    rcases bind_eq_error.1 h with h | ⟨p, hp, h⟩
    · exact .inl h
    · rcases bind_eq_error.1 h with h | ⟨c, -, h⟩
      · exact .inr ⟨⟨p, hp⟩, add_eq_error h⟩
      · cases h

/-- The engine with this copy of a page in the place of the cached one. -/
def recopy (e : Engine) (page : PageId) (q : Page) : Engine :=
  { e with cache := e.cache.update page fun _ => q }

theorem page?_recopy (hq : e.cache.page? page = some q) (pg : PageId) :
    (e.recopy page r).cache.page? pg = if pg = page then some r else e.cache.page? pg := by
  change (e.cache.update page fun _ => r).page? pg = _
  rw [Cache.page?_update]
  split
  · next hpg => rw [hpg, hq, Option.map_some]
  · rfl

/-! ## Insertions -/

/-- What an attempt to insert a row into a page comes to. -/
inductive Inserts (txn : TxnId) (page : PageId) (row : Row) (e : Engine) :
    Except Error (Option Page) → Engine → Prop
  /-- The page is not to be had. -/
  | unread {err : Error} (h : e.Unread page err) : Inserts txn page row e (.error err) e
  /-- The page is full. -/
  | full {e₁ : Engine} {q : Page} (hl : e.Loads page e₁) (hq : e₁.cache.page? page = some q)
    (hf : q.Full) : Inserts txn page row e (.ok none) e₁
  /-- The cached copy has rows of other types. It is marked by now. -/
  | refused {e₁ : Engine} {q : Page} (hl : e.Loads page e₁) (hq : e₁.cache.page? page = some q)
    (ht : row.types ≠ q.schema.types) : Inserts txn page row e (.error .schemaMismatch)
      (e₁.recopy page (q.markDirty (some txn)))
  /-- The row is in the page. -/
  | stored {e₁ : Engine} {q q' : Page} {place : RowId} (hl : e.Loads page e₁)
    (hq : e₁.cache.page? page = some q)
    (hi : (q.markDirty (some txn)).insert row = .ok (place, q')) :
    Inserts txn page row e (.ok (some q')) (e₁.recopy page q')

theorem inserts_tryInsert (e : Engine) (txn : TxnId) (page : PageId) (row : Row) :
    e.Inserts txn page row (e.tryInsert txn page row).1 (e.tryInsert txn page row).2 := by
  cases hr : e.reach txn page .write with
  | error err =>
    simp only [tryInsert, hr]
    exact .unread (reach_eq_error hr)
  | ok x =>
    obtain ⟨k, e₁⟩ := x
    obtain ⟨rfl, rfl, ha, hl⟩ := reach_eq_ok hr
    obtain ⟨q, hread, hq⟩ := read_of_reach hr
    by_cases hfull : q.emptySlots = 0
    · simp only [tryInsert, hr, hread, hfull, if_true]
      exact .full hl hq (Page.emptySlots_eq_zero_iff.1 hfull)
    · have hch := change_of_read (f := (·.insert row)) ha hread
      have hn : ¬ (q.markDirty (some k.txn)).Full := mt Page.emptySlots_eq_zero_iff.2 hfull
      rcases Page.insert_cases hn row with ⟨ht, hi⟩ | ⟨place, q', hi⟩
      · simp only [hi] at hch
        simp only [tryInsert, hr, hread, hfull, if_false, hch, Except.map]
        exact .refused hl hq ht
      · simp only [hi] at hch
        simp only [tryInsert, hr, hread, hfull, if_false, hch, Except.map]
        exact .stored hl hq hi

/-! ## Deletions -/

end Engine

end RowStore
