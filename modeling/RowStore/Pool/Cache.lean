import RowStore.Page.Basic
import RowStore.PageMap

/-!
# The page cache

A cache keeps a bounded number of pages in frames. A page that enters gets a fresh frame, and a
handle remembers the frame it was given: so a handle is good for as long as its page stays, and not
for a later copy of the same page.

Only a clean page may be evicted, and one that somebody keeps a handle to only if there is no other.
Which of the eligible pages goes is left to a source of choices that is part of the cache.

The view of a cache is `Cache.frame?`, and there is one lemma for what each change does to it.
-/

namespace RowStore

/-- A cached page, with the number of the frame that it occupies. -/
structure Frame where
  /-- The number of the frame; no other page ever had it. -/
  serial : Nat
  /-- The page. -/
  page : Page
deriving DecidableEq

/-- A reference to a cached page, given to a transaction for one kind of access. -/
structure Handle where
  /-- The page referred to. -/
  page : PageId
  /-- The transaction that it was given to. -/
  txn : TxnId
  /-- What the transaction may do with the page. -/
  access : Access
  /-- The frame that the page occupied. -/
  serial : Nat
deriving DecidableEq

/-- The cached pages. -/
structure Cache where
  /-- The most pages that the cache holds. -/
  capacity : Nat
  /-- The pages held. -/
  frames : PageMap Frame
  /-- The number of the next frame. -/
  nextSerial : Nat
  /-- The handles that somebody keeps. -/
  kept : List Handle
  /-- Decides the next choices among eligible pages. -/
  choices : Nat → Nat
  /-- How many choices have been made. -/
  choicesMade : Nat

namespace Cache

/-- The cache without pages. -/
def empty (capacity : Nat) (choices : Nat → Nat) : Cache := ⟨capacity, ∅, 0, [], choices, 0⟩

/-- How many pages are cached. -/
def size (c : Cache) : Nat := c.frames.size

/-- The frame of a page, if the page is cached. -/
def frame? (c : Cache) (page : PageId) : Option Frame := c.frames[page]?

/-- The cached copy of a page. -/
def page? (c : Cache) (page : PageId) : Option Page := (c.frame? page).map (·.page)

/-- Whether a page is cached. -/
def contains (c : Cache) (page : PageId) : Bool := (c.frame? page).isSome

/-- The cached pages, listed by table and number. The order in which they are gone through is up to
the machine. -/
def pages (c : Cache) : List PageId := c.frames.keys

/-- The cache with the copy of a page changed in its frame. -/
def update (c : Cache) (page : PageId) (change : Page → Page) : Cache :=
  { c with frames := c.frames.modify page fun f => { f with page := change f.page } }

/-- The cache without a page. -/
def discard (c : Cache) (page : PageId) : Cache :=
  { c with frames := c.frames.erase page }

/-- The cache with a page in a fresh frame. -/
def enter (c : Cache) (p : Page) : Cache :=
  { c with frames := c.frames.insert p.id ⟨c.nextSerial, p⟩, nextSerial := c.nextSerial + 1 }

@[simp] theorem frame?_empty (capacity : Nat) (choices : Nat → Nat) (page : PageId) :
    (empty capacity choices).frame? page = none := by
  simp [empty, frame?]

@[simp] theorem frame?_update (c : Cache) (page p : PageId) (change : Page → Page) :
    (c.update page change).frame? p =
      if p = page then (c.frame? p).map fun f => { f with page := change f.page }
      else c.frame? p := by
  by_cases h : p = page
  · simp [update, frame?, h]
  · simp [update, frame?, Std.TreeMap.getElem?_modify, h, Ne.symm h]

@[simp] theorem frame?_discard (c : Cache) (page p : PageId) :
    (c.discard page).frame? p = if p = page then none else c.frame? p := by
  by_cases h : p = page
  · simp [discard, frame?, h]
  · simp [discard, frame?, Std.TreeMap.getElem?_erase, h, Ne.symm h]

@[simp] theorem frame?_enter (c : Cache) (p : Page) (page : PageId) :
    (c.enter p).frame? page = if page = p.id then some ⟨c.nextSerial, p⟩ else c.frame? page := by
  by_cases h : page = p.id
  · simp [enter, frame?, h]
  · simp [enter, frame?, Std.TreeMap.getElem?_insert, h, Ne.symm h]

/-! ## Eviction -/

/-- Whether somebody keeps a handle to the frame. -/
def isKept (c : Cache) (f : Frame) : Bool := c.kept.any (·.serial = f.serial)

/-- The clean pages, with their frames. -/
def clean (c : Cache) : List (PageId × Frame) :=
  c.frames.toList.filter (·.2.page.dirtiedBy = none)

/-- The pages that the next eviction chooses from. -/
def eligible (c : Cache) : List PageId :=
  match c.clean.filter (!c.isKept ·.2) with
  | [] => c.clean.map (·.1)
  | unkept => unkept.map (·.1)

/-- The cache without one of the eligible pages, and which one it was. -/
def evict (c : Cache) : Except Error (PageId × Cache) :=
  let pages := c.eligible
  if h : 0 < pages.length then
    let victim := pages.get ⟨c.choices c.choicesMade % pages.length, Nat.mod_lt _ h⟩
    .ok (victim, { c.discard victim with choicesMade := c.choicesMade + 1 })
  else .error (.allPagesDirty c.size)

/-- The cache with room for one more page. -/
def makeRoom (c : Cache) : Except Error Cache :=
  if c.size < c.capacity then .ok c else c.evict.map (·.2)

/-- The cache with a page that it did not hold, in a fresh frame. -/
def add (c : Cache) (p : Page) : Except Error Cache := do
  return (← c.makeRoom).enter p

/-- The cache with this copy of a page, in the frame of the old copy if there is one. -/
def put (c : Cache) (p : Page) : Except Error Cache :=
  if c.contains p.id then .ok (c.update p.id fun _ => p) else c.add p

/-! ## Handles -/

/-- Whether the page has stayed in the frame that the handle remembers. -/
def isValid (c : Cache) (h : Handle) : Bool := (c.frame? h.page).any (·.serial = h.serial)

/-- The page behind a handle. -/
def read (c : Cache) (h : Handle) : Except Error Page :=
  match c.frame? h.page with
  | some f => if f.serial = h.serial then .ok f.page else .error (.staleHandle h.page)
  | none => .error (.staleHandle h.page)

/-- Changes the page behind a handle. The page counts as changed by the handle's transaction,
whatever the change does. -/
def write {α : Type} (c : Cache) (h : Handle) (change : Page → α × Page) :
    Except Error (α × Cache) :=
  if h.access = .write then do
    let (result, p) := change ((← c.read h).markDirty (some h.txn))
    return (result, c.update h.page fun _ => p)
  else .error (.readOnlyHandle h.page)

/-- The cache in which somebody keeps the handle. -/
def keep (c : Cache) (h : Handle) : Cache := { c with kept := h :: c.kept }

/-- The cache in which the handle is kept once less. -/
def letGo (c : Cache) (h : Handle) : Cache := { c with kept := c.kept.erase h }

end Cache

end RowStore
