import Mathlib.Order.MinMax
import RowStore.Proofs.Page.Extent

/-!
# Page files as arrays of pages

A page file does what an array of pages does, `PageFile.serveAll_eq`: whatever has been asked of
it, it gives the answers of the array. The array, `PageArray`, has a page under every number, of
which only the first ones count. At the start these are the bytes of the file, padded with zeros
behind the end. So a part of a page at the end of the file, or a gap that a write has left, is a
page like all others once it counts.
-/

namespace RowStore

/-! ## Padded pages of a byte string -/

namespace Bytes

variable {size n m i : Nat} {b data : Bytes}

theorem getD_slice (start len : Nat) (b : Bytes) (i : Nat) :
    (slice start len b).getD i 0 = if i < len then b.getD (start + i) 0 else 0 := by
  rw [List.getD_eq_getElem?_getD, List.getD_eq_getElem?_getD, getElem?_slice]
  split
  · rfl
  · rfl

theorem getD_resize (len : Nat) (b : Bytes) (i : Nat) :
    (resize len b).getD i 0 = if i < len then b.getD i 0 else 0 := by
  simp only [List.getD_eq_getElem?_getD, resize, zeros, List.getElem?_append, List.length_take,
    List.getElem?_take, List.getElem?_replicate]
  by_cases hlen : i < len <;> by_cases hb : i < b.length
  · rw [if_pos (lt_min hlen hb), if_pos hlen, if_pos hlen]
  · rw [if_neg (by omega), if_pos (by omega), if_pos hlen, List.getElem?_eq_none (by omega)]
    rfl
  · rw [if_neg (by omega), if_neg (by omega), if_neg hlen]
    rfl
  · rw [if_neg (by omega), if_neg (by omega), if_neg hlen]
    rfl

/-- Writing into a byte string only replaces the bytes written, when those behind its end are taken
for zeros. -/
theorem getD_overwrite (start : Nat) (new b : Bytes) (i : Nat) :
    (overwrite start new b).getD i 0 =
      if start ≤ i ∧ i < start + new.length then new.getD (i - start) 0 else b.getD i 0 := by
  by_cases h : start ≤ b.length ∨ i < b.length
  · rw [List.getD_eq_getElem?_getD, getElem?_overwrite h]
    split
    · rw [List.getD_eq_getElem?_getD]
    · rw [List.getD_eq_getElem?_getD]
  · have hr : (resize start b).length = start := length_resize start b
    have hb : b.getD i 0 = 0 := List.getD_eq_default _ _ (by omega)
    rw [overwrite, List.drop_eq_nil_of_le (by omega), List.append_nil, hb]
    by_cases hi : i < start
    · rw [List.getD_append _ _ _ _ (hr.symm ▸ hi), getD_resize, if_pos hi, hb, if_neg (by omega)]
    · rw [List.getD_append_right _ _ _ _ (by omega), hr]
      split
      · rfl
      · exact List.getD_eq_default _ _ (by omega)

/-- The page with the number, with zeros where the bytes end. -/
def page (size n : Nat) (b : Bytes) : Bytes := resize size (slice (n * size) size b)

@[simp] theorem length_page (size n : Nat) (b : Bytes) : (b.page size n).length = size :=
  length_resize ..

theorem getD_page (hi : i < size) (n : Nat) (b : Bytes) :
    (b.page size n).getD i 0 = b.getD (n * size + i) 0 := by
  rw [page, getD_resize, if_pos hi, getD_slice, if_pos hi]

/-- A page that the bytes have whole is not padded. -/
theorem page_eq_slice (h : (n + 1) * size ≤ b.length) :
    b.page size n = slice (n * size) size b := by
  have hl : (slice (n * size) size b).length = size := by
    rw [Nat.succ_mul] at h
    rw [slice, List.length_take, List.length_drop]
    omega
  rw [page, resize, hl, Nat.sub_self, List.take_of_length_le (Nat.le_of_eq hl)]
  exact List.append_nil _

/-- Writing a page replaces it and no other. -/
theorem page_overwrite (hd : data.length = size) (n m : Nat) (b : Bytes) :
    (overwrite (m * size) data b).page size n = if n = m then data else b.page size n := by
  have hl : ((overwrite (m * size) data b).page size n).length =
      (if n = m then data else b.page size n).length := by
    split <;> simp [hd]
  apply List.ext_getElem hl
  intro i hi hi'
  rw [length_page] at hi
  rw [← List.getD_eq_getElem _ 0, ← List.getD_eq_getElem _ 0, getD_page hi, getD_overwrite, hd]
  by_cases h : n = m
  · simp only [if_pos h]
    rw [h, if_pos ⟨Nat.le_add_right .., Nat.add_lt_add_left hi _⟩, Nat.add_sub_cancel_left]
  · have := PageFile.windows_disjoint size h
    simp only [if_neg h]
    rw [if_neg (by omega), getD_page hi]

end Bytes

/-! ## Arrays of pages -/

/-- An array of pages: how many there are, and what each page is, or is going to be if a page
behind it comes up first. -/
@[ext]
structure PageArray where
  /-- The number of pages. -/
  count : Nat
  /-- The bytes of each page. -/
  page : Nat → Bytes

/-- What can be asked of a page file. -/
inductive PageRequest where
  /-- The number of pages. -/
  | count
  /-- The bytes of a page, in a buffer. -/
  | read (number : Nat) (buffer : Bytes)
  /-- Replacing a page. -/
  | write (number : Nat) (data : Bytes)
  /-- Adding a page. -/
  | append (data : Bytes)
  /-- Opening the file again, for pages of the same size. -/
  | reopen

/-- What a page file answers. -/
inductive PageAnswer where
  /-- The number of pages, or of a page. -/
  | number (n : Nat)
  /-- The bytes of a page. -/
  | page (b : Bytes)
  /-- It is done. -/
  | done
deriving DecidableEq

namespace PageRequest

/-- Buffers and appended pages have the size of a page, and what is written has a position. -/
def Fits (size : Nat) : PageRequest → Prop
  | .read _ buffer => buffer.length = size
  | .write number _ => number * size < sizeLimit
  | .append data => data.length = size
  | .count | .reopen => True

instance (size : Nat) : (r : PageRequest) → Decidable (r.Fits size)
  | .read _ buffer => inferInstanceAs (Decidable (buffer.length = size))
  | .write number _ => inferInstanceAs (Decidable (number * size < sizeLimit))
  | .append data => inferInstanceAs (Decidable (data.length = size))
  | .count | .reopen => inferInstanceAs (Decidable True)

/-- The page that is to change, in a file with so many pages. -/
def target? (pages : Nat) : PageRequest → Option Nat
  | .write number _ => some number
  | .append _ => some pages
  | .count | .read .. | .reopen => none

/-- The answers to a sequence of requests, and what there is after them. -/
def serveAll {σ α : Type} (serve : σ → PageRequest → α × σ) : σ → List PageRequest → List α × σ
  | s, [] => ([], s)
  | s, r :: rest =>
    let (answer, s) := serve s r
    let (answers, s) := serveAll serve s rest
    (answer :: answers, s)

theorem serveAll_cons {σ α : Type} (serve : σ → PageRequest → α × σ) (s : σ) (r : PageRequest)
    (rest : List PageRequest) : serveAll serve s (r :: rest) =
      ((serve s r).1 :: (serveAll serve (serve s r).2 rest).1,
        (serveAll serve (serve s r).2 rest).2) := rfl

end PageRequest

namespace PageFile

/-- What a page file answers, and the file after the request. A file for which a request fails is
left alone. -/
def serve (f : PageFile) : PageRequest → Except Error PageAnswer × PageFile
  | .count => (.ok (.number f.pageCount), f)
  | .read n buffer => ((f.readInto n buffer).map .page, f)
  | .write n data => settle (f.write n data)
  | .append data => (.ok (.number (f.append data).1), (f.append data).2)
  | .reopen => settle (open? f.name f.pageSize f.content)
where
  /-- The file that the request has made, if there is one. -/
  settle : Except Error PageFile → Except Error PageAnswer × PageFile
    | .ok f' => (.ok .done, f')
    | .error err => (.error err, f)

end PageFile

namespace PageArray

variable {size n : Nat} {data : Bytes}

/-- The pages of a byte string. -/
def ofBytes (size : Nat) (b : Bytes) : PageArray := ⟨b.length / size, fun n => b.page size n⟩

/-- The array with a page replaced. If it is none of those that count, it becomes the last. -/
def set (a : PageArray) (n : Nat) (data : Bytes) : PageArray :=
  ⟨max a.count (n + 1), Function.update a.page n data⟩

/-- The array with one more page. -/
def push (a : PageArray) (data : Bytes) : PageArray :=
  ⟨a.count + 1, Function.update a.page a.count data⟩

/-- What an array of pages answers, unless it refuses, and the array after the request. -/
def serve (size : Nat) (a : PageArray) : PageRequest → Option PageAnswer × PageArray
  | .count => (some (.number a.count), a)
  | .read n _ => (if n < a.count then some (.page (a.page n)) else none, a)
  | .write n data => if data.length = size then (some .done, a.set n data) else (none, a)
  | .append data => (some (.number a.count), a.push data)
  | .reopen => (some .done, a)

theorem set_count (a : PageArray) (data : Bytes) : a.set a.count data = a.push data := by
  rw [set, push, Nat.max_eq_right (Nat.le_succ _)]

/-- Writing a page into bytes replaces it in their array. -/
theorem ofBytes_overwrite (hs : 0 < size) (hd : data.length = size) (n : Nat) (b : Bytes) :
    ofBytes size (Bytes.overwrite (n * size) data b) = (ofBytes size b).set n data := by
  apply PageArray.ext
  · show (Bytes.overwrite (n * size) data b).length / size = max (b.length / size) (n + 1)
    have hmono : Monotone (· / size) := fun _ _ h => Nat.div_le_div_right h
    have hmax := hmono.map_max (a := b.length) (b := (n + 1) * size)
    rw [Bytes.length_overwrite, hd, ← Nat.succ_mul]
    exact hmax.trans (congrArg (max _) (Nat.mul_div_cancel _ hs))
  · funext m
    show Bytes.page size m (Bytes.overwrite (n * size) data b) =
      Function.update (Bytes.page size · b) n data m
    rw [Bytes.page_overwrite hd, Function.update_apply]

end PageArray

/-! ## One request -/

namespace PageFile

variable {f f' : PageFile} {n : Nat} {data buffer : Bytes} {r : PageRequest}

/-- The pages of a file. -/
def pages (f : PageFile) : PageArray := .ofBytes f.pageSize f.bytes

/-- A file with pages can be opened again as it is. -/
theorem open?_self (hs : 0 < f.pageSize) :
    open? f.name f.pageSize f.content = .ok { f with writes := 0 } :=
  if_neg (Nat.ne_of_gt hs)

theorem serve_reopen (hs : 0 < f.pageSize) :
    f.serve .reopen = (.ok .done, { f with writes := 0 }) :=
  congrArg (serve.settle f) (open?_self hs)

/-- A request leaves the file alone, writes or appends a page, or opens the file again. -/
theorem serve_cases (f : PageFile) (r : PageRequest) :
    (f.serve r).2 = f ∨
      (∃ n data f', r = .write n data ∧ f.write n data = .ok f' ∧ f.serve r = (.ok .done, f')) ∨
      (∃ data, r = .append data) ∨
      r = .reopen ∧ f.serve r = (.ok .done, { f with writes := 0 }) := by
  cases r with
  | count => exact .inl rfl
  | read n buffer => exact .inl rfl
  | append data => exact .inr (.inr (.inl ⟨data, rfl⟩))
  | write n data =>
    show (serve.settle f (f.write n data)).2 = f ∨ _
    cases hw : f.write n data with
    | ok f' => exact .inr (.inl ⟨n, data, f', rfl, hw, congrArg (serve.settle f) hw⟩)
    | error err => exact .inl rfl
  | reopen =>
    by_cases hs : f.pageSize = 0
    · have ho : open? f.name f.pageSize f.content = .error .zeroPageSize := if_pos hs
      exact .inl (congrArg (fun x => (serve.settle f x).2) ho)
    · exact .inr (.inr (.inr ⟨rfl, serve_reopen (Nat.pos_of_ne_zero hs)⟩))

/-- A request makes the file at most longer. -/
theorem extends_serve (f : PageFile) (r : PageRequest) : f.Extends (f.serve r).2 := by
  rcases f.serve_cases r with h | ⟨n, data, f', rfl, hw, h⟩ | ⟨data, rfl⟩ | ⟨rfl, h⟩
  · rw [h]
    exact .refl f
  · rw [h]
    exact extends_write hw
  · exact f.extends_append data
  · rw [h]
    exact ⟨rfl, rfl, Nat.le_refl _⟩

theorem extends_serveAll (f : PageFile) (requests : List PageRequest) :
    f.Extends (PageRequest.serveAll serve f requests).2 := by
  induction requests generalizing f with
  | nil => exact .refl f
  | cons r requests ih => exact (f.extends_serve r).trans (ih _)

/-- The file with a page overwritten has it replaced in its array. -/
theorem pages_overwrite (hs : 0 < f.pageSize) (hd : data.length = f.pageSize) (n : Nat) :
    (f.overwrite (n * f.pageSize) data).pages = f.pages.set n data := by
  show PageArray.ofBytes f.pageSize (f.overwrite (n * f.pageSize) data).bytes = _
  rw [bytes_overwrite]
  exact PageArray.ofBytes_overwrite hs hd n f.bytes

theorem pages_write (hs : 0 < f.pageSize) (h : f.write n data = .ok f') :
    f'.pages = f.pages.set n data := by
  obtain ⟨hd, -, rfl⟩ := write_eq_ok.1 h
  exact pages_overwrite hs hd n

namespace Countable

theorem count_pages (h : f.Countable) : f.pages.count = f.pageCount := by
  rw [h.pageCount_eq, ← length_bytes]
  rfl

/-- The pages that can be read into a buffer are those of the array that count. -/
theorem readInto (h : f.Countable) (hb : buffer.length = f.pageSize) (n : Nat) :
    (f.readInto n buffer).toOption =
      if n < f.pages.count then some (f.pages.page n) else none := by
  rw [h.count_pages]
  split
  · next hn =>
    have hl := stop_le_length hn
    rw [PageFile.readInto]
    simp only [Nat.not_le.2 (Nat.lt_of_le_of_lt hl h.bytes), if_false, Nat.not_lt.2 hl, hb,
      Nat.lt_irrefl, List.drop_eq_nil_of_le (Nat.le_of_eq hb), List.append_nil,
      SparseBytes.slice_eq]
    exact congrArg some (Bytes.page_eq_slice (hl.trans_eq f.length_bytes.symm)).symm
  · next hn =>
    have hl : f.length < (n + 1) * f.pageSize :=
      h.length_lt.trans_le (Nat.mul_le_mul_right _ (Nat.succ_le_succ (Nat.not_lt.1 hn)))
    unfold PageFile.readInto
    dsimp only
    rw [if_pos hl]
    split
    · rfl
    · rfl

/-- A file answers a request as the array of its pages does. -/
theorem serve_pages (hc : (f.serve r).2.Countable) (hr : r.Fits f.pageSize) :
    ((f.serve r).1.toOption, (f.serve r).2.pages) = f.pages.serve f.pageSize r := by
  have h : f.Countable := hc.of_extends (f.extends_serve r)
  cases r with
  | count =>
    show (some (PageAnswer.number f.pageCount), f.pages) = _
    rw [← h.count_pages]
    rfl
  | read n buffer =>
    have hmap : ((f.readInto n buffer).map PageAnswer.page).toOption =
        (f.readInto n buffer).toOption.map .page := by
      cases f.readInto n buffer with
      | ok b => rfl
      | error err => rfl
    show (((f.readInto n buffer).map PageAnswer.page).toOption, f.pages) =
      (if n < f.pages.count then some (PageAnswer.page (f.pages.page n)) else none, f.pages)
    rw [hmap, h.readInto hr n, apply_ite (Option.map PageAnswer.page)]
    rfl
  | write n data =>
    show ((serve.settle f (f.write n data)).1.toOption,
        (serve.settle f (f.write n data)).2.pages) =
      if data.length = f.pageSize then (some .done, f.pages.set n data) else (none, f.pages)
    cases hw : f.write n data with
    | ok f' =>
      rw [if_pos (write_eq_ok.1 hw).1, ← pages_write h.pageSize_pos hw]
      rfl
    | error err =>
      rw [if_neg fun hd => nomatch hw.symm.trans (write_eq_ok.2 ⟨hd, hr, rfl⟩)]
      rfl
  | append data =>
    show (some (PageAnswer.number f.pageCount),
      (f.overwrite (f.pageCount * f.pageSize) data).pages) = _
    rw [pages_overwrite h.pageSize_pos hr, ← h.count_pages, PageArray.set_count]
    rfl
  | reopen =>
    rw [serve_reopen h.pageSize_pos]
    rfl

end Countable

/-- A page that counts is read from the array. -/
theorem Countable.read_pages (h : f.Countable) (hn : n < f.pageCount) :
    f.read n = .ok (f.pages.page n) := by
  have hread := h.readInto (Bytes.length_zeros _) n
  rw [h.count_pages, if_pos hn] at hread
  obtain ⟨b, hb⟩ := h.read hn
  have hbuf : f.readInto n (Bytes.zeros f.pageSize) = .ok b := hb
  rw [hbuf] at hread
  rw [hb, Option.some.inj hread]

/-! ## What the bytes and the tables show of the array -/

/-- A file that has the pages of an array, and what becomes of its bytes. -/
structure IsArray (f : PageFile) (a : PageArray) : Prop where
  /-- The page count is the number of whole pages. -/
  pageCount_eq : f.pageCount = f.length / f.pageSize
  /-- The array has as many pages. -/
  count_eq : a.count = f.pageCount
  /-- A page that counts is in its place. -/
  window? {n : Nat} : n < a.count → f.window? n = some (a.page n)
  /-- A request that fails leaves the bytes alone. -/
  bytes_of_error {r : PageRequest} {err : Error} :
    (f.serve r).1 = .error err → (f.serve r).2.bytes = f.bytes
  /-- A request leaves all whole pages alone but the one that is to change. -/
  window?_serve {r : PageRequest} {n : Nat} {b : Bytes} : r.Fits f.pageSize →
    r.target? f.pageCount ≠ some n → f.window? n = some b → (f.serve r).2.window? n = some b
  /-- An appended page takes the place of what follows the last whole page. -/
  bytes_append {data : Bytes} : data.length = f.pageSize →
    (f.serve (.append data)).2.bytes = f.bytes.take (f.pageCount * f.pageSize) ++ data
  /-- A table of the file has the pages of the array. -/
  pageCount_table {d : Disk} {t : Table} :
    d.file? t.file = some f → d.pageCount t = .ok a.count
  /-- A page of a table of the file is read from the array, if it has it. -/
  readPage {d : Disk} {t : Table} {page : PageId} : d.file? t.file = some f →
    d.readPage t page = if page.table = t.id ∧ page.number < a.count
      then .ok (.ofBytes page t.schema (a.page page.number))
      else .error (.pageOutOfRange page a.count)
  /-- A page of a table of the file is written as a page of the file. -/
  writePage {d : Disk} {t : Table} {p : Page} : d.file? t.file = some f →
    d.writePage t p = (f.serve (.write p.id.number p.data)).1.map fun _ =>
      d.put (f.serve (.write p.id.number p.data)).2
  /-- The file is opened again at every path that leads to it. -/
  openFile {d : Disk} {path : String} : Disk.resolve path = .ok f.name →
    d.file? f.name = some f →
      d.openFile path f.pageSize = .ok (f.name, d.put (f.serve .reopen).2)

theorem bytes_of_serve_eq_error {err : Error} (he : (f.serve r).1 = .error err) :
    (f.serve r).2.bytes = f.bytes := by
  rcases f.serve_cases r with h | ⟨n, data, f', rfl, hw, h⟩ | ⟨data, rfl⟩ | ⟨rfl, h⟩
  · rw [h]
  · rw [h] at he
    cases he
  · cases he
  · rw [h]
    rfl

theorem window?_serve {b : Bytes} (hr : r.Fits f.pageSize) (ht : r.target? f.pageCount ≠ some n)
    (hb : f.window? n = some b) : (f.serve r).2.window? n = some b := by
  rcases f.serve_cases r with h | ⟨m, data, f', rfl, hw, h⟩ | ⟨data, rfl⟩ | ⟨rfl, h⟩
  · rwa [h]
  · have hne : n ≠ m := fun he => ht (congrArg some he.symm)
    rw [h]
    exact (window?_write hw).2.2 hne hb
  · have hne : n ≠ f.pageCount := fun he => ht (congrArg some he.symm)
    exact (window?_append hr).2.2 hne hb
  · rw [h]
    exact hb

namespace Countable

theorem bytes_append (h : f.Countable) (hd : data.length = f.pageSize) :
    (f.append data).2.bytes = f.bytes.take (f.pageCount * f.pageSize) ++ data := by
  have hl := Nat.le_of_lt h.length_lt
  rw [Nat.succ_mul, ← length_bytes] at hl
  have hle := f.pageCount_mul_le
  rw [← length_bytes] at hle
  rw [append, bytes_overwrite, Bytes.overwrite, Bytes.resize, Nat.sub_eq_zero_of_le hle, hd,
    List.drop_eq_nil_of_le hl, List.append_nil]
  exact congrArg (· ++ data) (List.append_nil _)

theorem isArray (h : f.Countable) : f.IsArray f.pages where
  pageCount_eq := h.pageCount_eq
  count_eq := h.count_pages
  window? hn := window?_of_read (h.read_pages (h.count_pages ▸ hn))
  bytes_of_error := bytes_of_serve_eq_error
  window?_serve := PageFile.window?_serve
  bytes_append := h.bytes_append
  pageCount_table hf := by
    rw [Disk.pageCount, Disk.find_eq_ok.2 hf, h.count_pages]
    rfl
  readPage {d t page} hf := by
    rw [h.count_pages, Disk.readPage, Disk.find_eq_ok.2 hf]
    show (if page.table = t.id ∧ page.number < f.pageCount
      then (f.read page.number).map (Page.ofBytes page t.schema)
      else .error (.pageOutOfRange page f.pageCount)) = _
    split
    · next hp =>
      rw [h.read_pages hp.2]
      rfl
    · rfl
  writePage {d t p} hf := by
    rw [Disk.writePage, Disk.find_eq_ok.2 hf]
    show (f.write p.id.number p.data).map d.put =
      (serve.settle f (f.write p.id.number p.data)).1.map fun _ =>
        d.put (serve.settle f (f.write p.id.number p.data)).2
    cases f.write p.id.number p.data with
    | ok f' => rfl
    | error err => rfl
  openFile {d path} hpath hf := by
    rw [Disk.openFile, hpath, serve_reopen h.pageSize_pos]
    show (open? f.name f.pageSize (((d.file? f.name).map (·.content)).getD [])).bind
      (fun f' => .ok (f.name, d.put f')) = _
    rw [hf]
    exact congrArg (Except.bind · _) (open?_self h.pageSize_pos)

end Countable

/-! ## Sequences of requests -/

/-- A file answers a sequence of requests as the array of its pages does, and has the pages of the
array in the end. -/
theorem serveAll_eq (requests : List PageRequest) (hfits : ∀ r ∈ requests, r.Fits f.pageSize)
    (hc : (PageRequest.serveAll serve f requests).2.Countable) :
    ((PageRequest.serveAll serve f requests).1.map Except.toOption,
      (PageRequest.serveAll serve f requests).2.pages) =
        PageRequest.serveAll (PageArray.serve f.pageSize) f.pages requests := by
  induction requests generalizing f with
  | nil => rfl
  | cons r requests ih =>
    rw [PageRequest.serveAll_cons] at hc ⊢
    have hext := (f.serve r).2.extends_serveAll requests
    have hsize : (f.serve r).2.pageSize = f.pageSize := (f.extends_serve r).pageSize
    have hstep := Countable.serve_pages (hc.of_extends hext) (hfits r (List.mem_cons_self ..))
    have hrest := ih (f := (f.serve r).2)
      (fun q hq => hsize.symm ▸ hfits q (List.mem_cons_of_mem _ hq)) hc
    rw [hsize] at hrest
    rw [PageRequest.serveAll_cons, ← hstep, ← hrest]
    rfl

/-- A page file does what an array of pages does, as long as its pages have numbers and its bytes
have positions: it gives the same answers, and in the end it has the pages of the array. -/
theorem serves_as_array (f : PageFile) (requests : List PageRequest)
    (hfits : ∀ r ∈ requests, r.Fits f.pageSize)
    (hc : (PageRequest.serveAll serve f requests).2.Countable) :
    (PageRequest.serveAll serve f requests).1.map Except.toOption =
        (PageRequest.serveAll (PageArray.serve f.pageSize) f.pages requests).1 ∧
      (PageRequest.serveAll serve f requests).2.IsArray
        (PageRequest.serveAll (PageArray.serve f.pageSize) f.pages requests).2 := by
  rw [← serveAll_eq requests hfits hc]
  exact ⟨rfl, hc.isArray⟩

end PageFile

namespace Sample

/-- A file that ends with half a page. -/
def torn : PageFile := ⟨"torn", 4, .ofBytes [1, 2, 3, 4, 5, 6], 0⟩

/-- A page takes the place of the half page, another one leaves a gap, and a page that is too short
is refused. -/
def patching : List PageRequest :=
  [.count, .append [7, 7, 7, 7], .write 3 [8, 8, 8, 8], .write 0 [9], .reopen,
    .read 0 [0, 0, 0, 0], .read 1 [0, 0, 0, 0], .read 2 [0, 0, 0, 0], .read 4 [0, 0, 0, 0]]

end Sample

/-- What the file with half a page answers, and that it is an array of four pages then. -/
theorem PageFile.serves_as_array_torn :
    (∀ r ∈ Sample.patching, r.Fits Sample.torn.pageSize) ∧
      (PageRequest.serveAll serve Sample.torn Sample.patching).2.Countable ∧
      (PageRequest.serveAll serve Sample.torn Sample.patching).1.map Except.toOption =
        [some (.number 1), some (.number 1), some .done, none, some .done,
          some (.page [1, 2, 3, 4]), some (.page [7, 7, 7, 7]), some (.page [0, 0, 0, 0]), none] ∧
      ∃ a, a.count = 4 ∧ (PageRequest.serveAll serve Sample.torn Sample.patching).2.IsArray a := by
  have hfits : ∀ r ∈ Sample.patching, r.Fits Sample.torn.pageSize := by decide
  have hc : (PageRequest.serveAll serve Sample.torn Sample.patching).2.Countable :=
    ⟨by decide, by decide, by decide⟩
  obtain ⟨hanswers, harray⟩ := serves_as_array Sample.torn Sample.patching hfits hc
  refine ⟨hfits, hc, hanswers.trans ?_, _, ?_, harray⟩
  · rfl
  · rfl

end RowStore
