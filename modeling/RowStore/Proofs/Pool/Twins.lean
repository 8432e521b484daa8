import RowStore.Proofs.Pool.Capacity
import RowStore.Proofs.Pool.Completion

/-!
# Engines that differ in clean pages

Two engines are twins if they have the same files, log and locks, and caches that are twins: they
differ in the clean pages that are cached, in the frames of pages, in the handles that are kept, and
in the choices to come.

What an operation answers is the same for twins, up to the frame of a handle, and it leaves
twins. For most operations that is plain from what they read. The one that matters is
`Engine.reach`, which looks at the cache: `Engine.view` is what it comes to, in terms that twins
agree on. This needs coherence, so that a clean page that is cached in one engine is the one
that the other reads from its file.
-/

namespace RowStore.Engine

open Cache

variable {e e' : Engine} {c c' : Cache} {txn : TxnId} {page : PageId} {access : Access} {p q : Page}
  {n m : Nat}

/-- The engines are the same, but for their caches, and those are twins. -/
inductive Twins (e : Engine) : Engine → Prop
  /-- The second engine has the other cache. -/
  | mk {c : Cache} (h : e.cache.Twins c) : Twins e { e with cache := c }

namespace Twins

theorem of_cache (hb : e'.toBacking = e.toBacking) (hl : e'.locks = e.locks)
    (hc : e.cache.Twins e'.cache) : e.Twins e' := by
  obtain ⟨b, c, l⟩ := e
  obtain ⟨b', c', l'⟩ := e'
  obtain rfl : b' = b := hb
  obtain rfl : l' = l := hl
  exact .mk (e := ⟨b', c, l'⟩) hc

theorem cache (h : e.Twins e') : e.cache.Twins e'.cache := by
  cases h with
  | mk h => exact h

theorem locks (h : e.Twins e') : e'.locks = e.locks := by
  cases h
  rfl

theorem toBacking (h : e.Twins e') : e'.toBacking = e.toBacking := by
  cases h
  rfl

theorem withLocks (h : e.Twins e') (locks : LockTable) :
    Twins { e with locks } { e' with locks } := by
  cases h with
  | mk h => exact .mk h

/-- Two more steps from twins, each of which only matters to the cache, lead to twins. -/
theorem step (h : e.Twins e') (hc : e.cache.Twins c) (hc' : e'.cache.Twins c') :
    Twins { e with cache := c } { e' with cache := c' } := by
  cases h with
  | mk h => exact .mk (e := { e with cache := c }) ((hc.symm.trans h).trans hc')

end Twins

/-- An answer that is the same from two engines, which are twins then. -/
inductive Same {α : Type} : α × Engine → α × Engine → Prop
  /-- This is the answer. -/
  | mk (answer : α) {e e' : Engine} (h : e.Twins e') : Same (answer, e) (answer, e')

/-! ## Looking at pages -/

/-- The page that a request gets to see: the marked copy, or else the stored page if there is room
for it. -/
def view (e : Engine) (page : PageId) : Except Error Page :=
  match e.cache.marked? page with
  | some q => .ok q
  | none => do
    let p ← e.load page
    if e.cache.HasRoom then return p else .error (.allPagesDirty e.cache.capacity)

theorem Twins.view (h : e.Twins e') (page : PageId) : e'.view page = e.view page := by
  cases h with
  | mk h =>
    unfold Engine.view
    simp only [h.marked, h.hasRoom_iff, h.capacity]
    rfl

/-- What there is to see of a page, and what comes of reaching it. -/
inductive Reaches (e : Engine) (txn : TxnId) (page : PageId) (access : Access) :
    Except Error Page → Except Error (Handle × Engine) → Prop
  /-- There is nothing to see, for the same reason. -/
  | failed (err : Error) : Reaches e txn page access (.error err) (.error err)
  /-- The handle reads the page, and the cache has turned into a twin. -/
  | got {q : Page} {n : Nat} {c : Cache} (h : e.cache.Twins c)
    (hq : c.read ⟨page, txn, access, n⟩ = .ok q) :
    Reaches e txn page access (.ok q) (.ok (⟨page, txn, access, n⟩, { e with cache := c }))

theorem load_of_stored (h : e.stored page = some q) : e.load page = .ok q := by
  change (e.load page).toOption = some q at h
  cases hl : e.load page with
  | error err => rw [hl] at h; cases h
  | ok p => rw [hl] at h; exact congrArg Except.ok (Option.some.inj h)

theorem reaches_of_frame {f : Frame} (hf : e.cache.frame? page = some f)
    (hfits : e.cache.Fits) : e.Reaches txn page access (.ok f.page) (e.reach txn page access) := by
  rw [reach, hf]
  exact .got (.refl hfits) (read_of_frame hf rfl)

theorem reaches_reach (hc : e.Coherent) (hfits : e.cache.Fits) (txn : TxnId) (page : PageId)
    (access : Access) : e.Reaches txn page access (e.view page) (e.reach txn page access) := by
  cases hf : e.cache.frame? page with
  | some f =>
    have hq : e.cache.page? page = some f.page := page?_eq_some_iff.2 ⟨f, hf, rfl⟩
    -- A clean copy is the stored page, and as long as one is cached there is room for another.
    have hview : e.view page = .ok f.page := by
      by_cases hd : f.page.dirtiedBy = none
      · have hload : e.load page = .ok f.page := load_of_stored (hc.stored_of_clean hq hd)
        have hm : e.cache.marked? page = none := by rw [marked?, hq, onlyMarked_of_clean hd]
        simp only [view, hm, hload, bind, Except.bind, if_pos (hfits.hasRoom hq hd)]
        rfl
      · simp only [view, marked?_eq_some_iff.2 ⟨hq, hd⟩]
    rw [hview]
    exact reaches_of_frame hf hfits
  | none =>
    have hm : e.cache.marked? page = none := by
      rw [marked?, page?_eq_none_iff.2 hf]
      rfl
    unfold view reach
    rw [hm, hf]
    cases hload : e.load page with
    | error err => exact .failed err
    | ok p =>
      have hid := id_of_load hload
      have hclean := dirtiedBy_of_load hload
      rcases add_cases hfits p with ⟨hroom, d, hadd, -⟩ | ⟨hroom, hadd⟩
      · have hframe : d.frame? page = some ⟨e.cache.nextSerial, p⟩ := by
          obtain ⟨c₁, hmake, rfl⟩ := add_eq_ok hadd
          rw [frame?_enter, if_pos hid.symm, nextSerial_makeRoom hmake]
        simp only [bind, Except.bind, if_pos hroom, hadd, pure, Except.pure]
        have hread : d.read ⟨page, txn, access, e.cache.nextSerial⟩ = .ok p :=
          read_of_frame (h := ⟨page, txn, access, e.cache.nextSerial⟩) hframe rfl
        exact .got (twins_add hfits hclean (hid ▸ hm) hadd) hread
      · simp only [bind, Except.bind, if_neg hroom, hadd]
        exact .failed _

/-- What comes of reaching a page in two engines. -/
inductive ReachSame (txn : TxnId) (page : PageId) (access : Access) :
    Except Error (Handle × Engine) → Except Error (Handle × Engine) → Prop
  /-- It fails for the same reason. -/
  | failed (err : Error) : ReachSame txn page access (.error err) (.error err)
  /-- The handles read the same page, and the engines are twins. -/
  | got {e e' : Engine} {q : Page} {n m : Nat} (h : e.Twins e')
    (hq : e.cache.read ⟨page, txn, access, n⟩ = .ok q)
    (hq' : e'.cache.read ⟨page, txn, access, m⟩ = .ok q) :
    ReachSame txn page access (.ok (⟨page, txn, access, n⟩, e)) (.ok (⟨page, txn, access, m⟩, e'))

theorem Twins.reach (h : e.Twins e') (hc : e.Coherent) (hc' : e'.Coherent) (txn : TxnId)
    (page : PageId) (access : Access) :
    ReachSame txn page access (e.reach txn page access) (e'.reach txn page access) := by
  have hr := reaches_reach hc h.cache.left txn page access
  have hr' := reaches_reach hc' h.cache.right txn page access
  rw [h.view page] at hr'
  generalize e.view page = seen, e.reach txn page access = r, e'.reach txn page access = r'
    at hr hr'
  cases hr with
  | failed err =>
    cases hr'
    exact .failed err
  | got ht hq =>
    cases hr' with
    | got ht' hq' => exact .got (h.step ht ht') hq hq'

/-! ## Changing pages -/

/-- Twins whose handles read the same page stay twins if it is changed through them. -/
theorem Twins.change {α : Type} (h : e.Twins e')
    (hq : e.cache.read ⟨page, txn, .write, n⟩ = .ok q)
    (hq' : e'.cache.read ⟨page, txn, .write, m⟩ = .ok q) (f : Page → Except Error (α × Page)) :
    Same (e.change ⟨page, txn, .write, n⟩ f) (e'.change ⟨page, txn, .write, m⟩ f) := by
  have hcached : e.cache.page? page = some q := read_eq_ok hq
  have hcached' : e'.cache.page? page = some q := read_eq_ok hq'
  have hupdate : ∀ r : Page, Twins { e with cache := e.cache.update page fun _ => r }
      { e' with cache := e'.cache.update page fun _ => r } := by
    intro r
    have hc : Cache.Twins (e.cache.update page fun _ => r) (e'.cache.update page fun _ => r) :=
      h.cache.update (by rw [hcached, hcached'])
    cases h with
    | mk h => exact .mk hc
  rw [change_of_read rfl hq, change_of_read rfl hq']
  cases f (q.markDirty (some txn)) with
  | error err => exact .mk _ (hupdate _)
  | ok x => exact .mk _ (hupdate _)

theorem Twins.install (h : e.Twins e') (txn : TxnId) (p : Page) :
    (∃ err, e.install txn p = .error err ∧ e'.install txn p = .error err) ∨
      ∃ d d', e.install txn p = .ok d ∧ e'.install txn p = .ok d' ∧ d.Twins d' := by
  unfold Engine.install
  rw [h.locks]
  split
  · rcases h.cache.put (p := p.markDirty (some txn)) (Option.some_ne_none txn) with
      ⟨err, hp, hp'⟩ | ⟨c, c', hp, hp', hc⟩
    · rw [hp, hp']
      exact .inl ⟨err, rfl, rfl⟩
    · rw [hp, hp']
      refine .inr ⟨_, _, rfl, rfl, ?_⟩
      cases h with
      | mk h => exact .mk (e := { e with cache := c }) hc
  · exact .inl ⟨_, rfl, rfl⟩

theorem Twins.conclude (h : e.Twins e') (txn : TxnId) (p : Page) (install : Bool) :
    Same (e.conclude txn p install) (e'.conclude txn p install) := by
  unfold Engine.conclude
  cases install with
  | false => exact .mk _ h
  | true =>
    rcases h.install txn p with ⟨err, hi, hi'⟩ | ⟨d, d', hi, hi', hd⟩
    · simp only [hi, hi']
      exact .mk _ h
    · simp only [hi, hi']
      exact .mk _ hd

/-! ## What requests do -/

section Requests

variable (h : e.Twins e') (hc : e.Coherent) (hc' : e'.Coherent)
include h hc hc'

theorem Twins.tryInsert (txn : TxnId) (page : PageId) (row : Row) :
    Same (e.tryInsert txn page row) (e'.tryInsert txn page row) := by
  have hreach := h.reach hc hc' txn page .write
  unfold Engine.tryInsert
  generalize e.reach txn page .write = r, e'.reach txn page .write = r' at hreach
  cases hreach with
  | failed err => exact .mk _ h
  | @got e₁ e₁' q n m ht hq hq' =>
    dsimp only
    rw [hq, hq']
    dsimp only
    split
    · exact .mk _ ht
    · have hchange := ht.change hq hq' (·.insert row)
      generalize e₁.change _ _ = x, e₁'.change _ _ = x' at hchange
      cases hchange with
      | mk result ht => exact .mk _ ht

theorem Twins.tryDelete (txn : TxnId) (place : RowId) :
    Same (e.tryDelete txn place) (e'.tryDelete txn place) := by
  have hreach := h.reach hc hc' txn place.page .write
  unfold Engine.tryDelete
  generalize e.reach txn place.page .write = r, e'.reach txn place.page .write = r' at hreach
  cases hreach with
  | failed err => exact .mk _ h
  | @got e₁ e₁' q n m ht hq hq' =>
    have hchange := ht.change hq hq' fun p => (p.delete (some place)).map ((), ·)
    dsimp only
    generalize e₁.change _ _ = x, e₁'.change _ _ = x' at hchange
    cases hchange with
    | mk result ht => exact .mk _ ht

theorem Twins.nextRows (d : Cursor) : Same (e.nextRows d) (e'.nextRows d) := by
  have hreach := h.reach hc hc' d.txn d.page .read
  unfold Engine.nextRows
  generalize e.reach d.txn d.page .read = r, e'.reach d.txn d.page .read = r' at hreach
  cases hreach with
  | failed err => exact .mk _ h
  | got ht hq hq' =>
    dsimp only
    rw [hq, hq']
    exact .mk _ ht

end Requests

/-! ## The ends of transactions -/

/-- Of a page that is not marked there is nothing to write back. -/
theorem flush_of_marked?_eq_none (hm : e.cache.marked? page = none) :
    e.flushUnder .none page = (.ok (), e) := by
  rw [marked?_eq_none_iff] at hm
  unfold flushUnder
  split
  · rfl
  · next q hq => rw [hm q hq]

section Ends

variable (h : e.Twins e')
include h

/-- Twins write back the same pages with the same success. -/
theorem Twins.flush (page : PageId) :
    Same (e.flushUnder .none page) (e'.flushUnder .none page) := by
  cases h with
  | @mk c' h =>
    have hm' := h.marked page
    cases hm : e.cache.marked? page with
    | none =>
      rw [flush_of_marked?_eq_none hm,
        flush_of_marked?_eq_none (e := { e with cache := c' }) (hm'.trans hm)]
      exact .mk _ (.mk h)
    | some q =>
      obtain ⟨hq, hd⟩ := marked?_eq_some_iff.1 hm
      obtain ⟨hq', -⟩ := marked?_eq_some_iff.1 (hm'.trans hm)
      obtain ⟨txn, hd⟩ := Option.ne_none_iff_exists'.1 hd
      rcases ha : e.journal.append ⟨txn, page, q.before, q.data⟩ with ⟨err | u, j₁⟩
      · simp only [flushUnder, hq, hq', hd, logChange, ha]
        exact .mk _ (.mk h)
      · rcases hf : j₁.force with ⟨err | u, j₂⟩
        · simp only [flushUnder, hq, hq', hd, logChange, ha, hf]
          exact .mk _ (.mk h)
        · simp only [flushUnder, hq, hq', hd, logChange, ha, hf, writeBack, Faults.none]
          cases e.catalog.table page.table with
          | error err => exact .mk _ (.mk h)
          | ok t =>
            dsimp only
            cases e.disk.writePage t q with
            | error err => exact .mk _ (.mk h)
            | ok disk =>
              refine .mk _ (.mk (e := { e with journal := j₂, disk := disk, cache := _ }) ?_)
              have hclean : ∀ p : Option Page, onlyMarked (p.map (·.markDirty none)) = none :=
                onlyMarked_map_clean fun _ => rfl
              exact h.update (by rw [hclean, hclean])

/-- Twins write back many pages up to the same failure. -/
theorem Twins.flushEach {f : PageId → Engine → Engine}
    (hf : ∀ {e e'} page, e.Twins e' → (f page e).Twins (f page e')) (pages : List PageId) :
    Same (Engine.flushEach .none f pages e) (Engine.flushEach .none f pages e') := by
  induction pages generalizing e e' with
  | nil => exact .mk _ h
  | cons page pages ih =>
    have hflush := h.flush page
    unfold Engine.flushEach
    generalize e.flushUnder .none page = x, e'.flushUnder .none page = x' at hflush
    cases hflush with
    | mk result ht =>
      cases result with
      | error err => exact .mk _ ht
      | ok u => exact ih (hf page ht)

theorem Twins.rebase (page : PageId) : (rebase page e).Twins (Engine.rebase page e') := by
  cases h with
  | mk h =>
    refine .mk (e := Engine.rebase page e) (h.update ?_)
    rw [onlyMarked_map_rebase, onlyMarked_map_rebase]
    exact congrArg _ (h.marked page)

theorem Twins.release (txn : TxnId) (page : PageId) :
    (e.release txn page).Twins (e'.release txn page) := by
  cases h with
  | mk h => exact .mk h

theorem Twins.releaseAll (txn : TxnId) : (e.releaseAll txn).Twins (e'.releaseAll txn) := by
  cases h with
  | mk h => exact .mk h

theorem Twins.held (txn : TxnId) : e'.held txn = e.held txn := by
  rw [Engine.held, Engine.held, inOrder, inOrder, h.toBacking, h.locks]

theorem Twins.commit (txn : TxnId) : Same (e.commit txn) (e'.commit txn) := by
  have hflush := h.flushEach (fun page ht => ht.rebase page) (e.held txn)
  unfold Engine.commit commitUnder
  rw [h.held]
  generalize Engine.flushEach .none Engine.rebase (e.held txn) e = x,
    Engine.flushEach .none Engine.rebase (e.held txn) e' = x' at hflush
  cases hflush with
  | mk result ht =>
    cases result with
    | error err => exact .mk _ ht
    | ok u => exact .mk _ (ht.releaseAll txn)

theorem Twins.discardAll (pages : List PageId) :
    (pages.foldl discard e).Twins (pages.foldl discard e') := by
  induction pages generalizing e e' with
  | nil => exact h
  | cons page pages ih =>
    cases h with
    | mk h => exact ih (.mk (e := e.discard page) (h.discard page))

theorem Twins.abort (txn : TxnId) : (e.abort txn).Twins (e'.abort txn) := by
  unfold Engine.abort
  rw [h.held]
  exact (h.discardAll (e.held txn)).releaseAll txn

end Ends

end RowStore.Engine
