import Mathlib.Logic.Function.Basic
import RowStore.Page.File

/-!
# A page file as an array of pages

`PageFile.page?` reads a page file as an array of pages. Writing a page of the file replaces it and
no other; appending a page adds it behind the others. A file may have more whole pages than page
numbers can count. The pages of the file are those that its page count covers, whatever follows
them.
-/

namespace RowStore.PageFile

variable {f f' : PageFile} {n m : Nat} {b data : Bytes}

/-- The bytes of a page, if it is a page of the file. -/
def page? (f : PageFile) (n : Nat) : Option Bytes :=
  if n < f.pageCount then (f.read n).toOption else none

theorem pageCount_mul_le (f : PageFile) : f.pageCount * f.pageSize ≤ f.length :=
  Nat.le_trans (Nat.mul_le_mul_right _ (Nat.mod_le _ _)) (Nat.div_mul_le_self _ _)

/-- A page of the file ends in the file. -/
theorem stop_le_length (h : n < f.pageCount) : (n + 1) * f.pageSize ≤ f.length :=
  Nat.le_trans (Nat.mul_le_mul_right _ h) f.pageCount_mul_le

/-- The pages of a file are the windows of one page's size that start at multiples of it. -/
theorem page?_eq (f : PageFile) (n : Nat) :
    f.page? n = if n < f.pageCount ∧ (n + 1) * f.pageSize < sizeLimit then
      some (Bytes.slice (n * f.pageSize) f.pageSize f.bytes) else none := by
  unfold page?
  by_cases hn : n < f.pageCount
  · have hl := stop_le_length hn
    by_cases hs : (n + 1) * f.pageSize < sizeLimit
    · have hd : (Bytes.zeros f.pageSize).drop f.pageSize = [] := List.drop_eq_nil_of_le (by simp)
      rw [if_pos hn, if_pos ⟨hn, hs⟩, read, readInto]
      simp only [Nat.not_le.2 hs, if_false, Nat.not_lt.2 hl, Bytes.length_zeros, Nat.lt_irrefl,
        SparseBytes.slice_eq, hd, List.append_nil]
      rfl
    · rw [if_pos hn, if_neg fun h => hs h.2, read, readInto]
      simp only [Nat.not_lt.1 hs, if_true]
      rfl
  · rw [if_neg hn, if_neg fun h => hn h.1]

theorem page?_eq_some_iff : f.page? n = some b ↔
    n < f.pageCount ∧ (n + 1) * f.pageSize < sizeLimit ∧
      b = Bytes.slice (n * f.pageSize) f.pageSize f.bytes := by
  rw [page?_eq]
  constructor
  · intro h
    split at h
    · next hn =>
      cases h
      exact ⟨hn.1, hn.2, rfl⟩
    · cases h
  · rintro ⟨hn, hs, rfl⟩
    exact if_pos ⟨hn, hs⟩

theorem length_of_page? (h : f.page? n = some b) : b.length = f.pageSize := by
  obtain ⟨hn, -, rfl⟩ := page?_eq_some_iff.1 h
  have hl := stop_le_length hn
  rw [Nat.succ_mul] at hl
  rw [Bytes.slice, List.length_take, List.length_drop, length_bytes]
  omega

theorem length_overwrite (f : PageFile) (start : Nat) (data : Bytes) :
    (f.overwrite start data).length = max f.length (start + data.length) := by
  rw [← length_bytes, bytes_overwrite, Bytes.length_overwrite, length_bytes]

/-- A page can be written if its data has the size of a page and its bytes have a position. -/
theorem write_eq_ok : f.write n data = .ok f' ↔
    data.length = f.pageSize ∧ n * f.pageSize < sizeLimit ∧
      f' = { f.overwrite (n * f.pageSize) data with writes := f.writes + 1 } := by
  unfold write
  split
  · next hd => exact ⟨nofun, fun h => absurd h.1 hd⟩
  · next hd =>
    split
    · next hs => exact ⟨nofun, fun h => absurd h.2.1 (Nat.not_lt.2 hs)⟩
    · next hs =>
      rw [Except.ok.injEq]
      exact ⟨fun h => ⟨not_not.1 hd, Nat.not_le.1 hs, h.symm⟩, fun h => h.2.2.symm⟩

/-- Two pages are apart. -/
theorem windows_disjoint (size : Nat) (h : n ≠ m) :
    n * size + size ≤ m * size ∨ m * size + size ≤ n * size := by
  rcases Nat.lt_or_gt_of_ne h with h | h
  · left
    have := Nat.mul_le_mul_right size (Nat.succ_le_of_lt h)
    rwa [Nat.succ_mul] at this
  · right
    have := Nat.mul_le_mul_right size (Nat.succ_le_of_lt h)
    rwa [Nat.succ_mul] at this

/-- The window that is overwritten shows the new bytes. -/
theorem slice_overwrite_self (f : PageFile) (n : Nat) (hd : data.length = f.pageSize) :
    Bytes.slice (n * f.pageSize) f.pageSize (f.overwrite (n * f.pageSize) data).bytes = data := by
  rw [bytes_overwrite, ← hd]
  exact Bytes.slice_overwrite_self ..

/-- The other windows show what they showed, unless they are behind the end and zeros come
up there. -/
theorem slice_overwrite_of_ne (hd : data.length ≤ f.pageSize)
    (hm : m * f.pageSize ≤ f.length ∨ (n + 1) * f.pageSize ≤ f.length) (h : n ≠ m) :
    Bytes.slice (n * f.pageSize) f.pageSize (f.overwrite (m * f.pageSize) data).bytes =
      Bytes.slice (n * f.pageSize) f.pageSize f.bytes := by
  rw [Nat.succ_mul] at hm
  rw [bytes_overwrite, Bytes.slice_overwrite_of_disjoint (by rwa [length_bytes])]
  refine (windows_disjoint f.pageSize h).imp_right (Nat.le_trans ?_)
  exact Nat.add_le_add_left hd _

/-- Writing a page of the file replaces this page only. -/
theorem write_of_page? (h : f.page? m = some b) (hd : data.length = b.length) :
    ∃ f', f.write m data = .ok f' ∧ f'.name = f.name ∧ f'.pageSize = f.pageSize ∧
      f'.page? = Function.update f.page? m (some data) := by
  have hb := length_of_page? h
  rw [hb] at hd
  obtain ⟨hm, hs, -⟩ := page?_eq_some_iff.1 h
  have hl := stop_le_length hm
  rw [Nat.succ_mul] at hl hs
  have hlen : (f.overwrite (m * f.pageSize) data).length = f.length := by
    rw [length_overwrite, hd]
    exact Nat.max_eq_left hl
  have hstart : m * f.pageSize ≤ f.length := Nat.le_trans (Nat.le_add_right _ _) hl
  refine ⟨_, write_eq_ok.2 ⟨hd, by omega, rfl⟩, rfl, rfl, funext fun n => ?_⟩
  generalize hf : { f.overwrite (m * f.pageSize) data with writes := f.writes + 1 } = f'
  have hsize : f'.pageSize = f.pageSize := hf ▸ rfl
  have hbytes : f'.bytes = (f.overwrite (m * f.pageSize) data).bytes := hf ▸ rfl
  have hcount : f'.pageCount = f.pageCount := by
    rw [pageCount, pageCount, hsize, ← hlen, ← hf]
    rfl
  rw [Function.update_apply, page?_eq, hcount, hsize, hbytes]
  by_cases hn : n = m
  · rw [hn, slice_overwrite_self f m hd, if_pos rfl, if_pos]
    exact ⟨hm, by rwa [Nat.succ_mul]⟩
  · rw [if_neg hn, page?_eq, slice_overwrite_of_ne (Nat.le_of_eq hd) (.inl hstart) hn]

/-- A file grows by a page if its page count covers all its whole pages. Else an appended page
replaces one that the count does not cover. -/
theorem pageCount_append (hp : 0 < f.pageSize) (hd : data.length = f.pageSize)
    (hn : f.pageCount + 1 < pageLimit) :
    (f.append data).2.pageCount = f.pageCount ∨ (f.append data).2.pageCount = f.pageCount + 1 := by
  have hlen : (f.append data).2.length =
      max f.length (f.pageCount * f.pageSize + f.pageSize) := by
    rw [append, length_overwrite, hd]
  have hcount : (f.append data).2.pageCount =
      max f.length (f.pageCount * f.pageSize + f.pageSize) / f.pageSize % pageLimit := hlen ▸ rfl
  have hc : f.pageCount ≤ f.length / f.pageSize := Nat.mod_le _ _
  rcases Nat.eq_or_lt_of_le hc with hc | hc
  · right
    have hl := Nat.lt_mul_div_succ f.length hp
    rw [← hc, Nat.mul_comm, Nat.succ_mul] at hl
    rw [hcount, Nat.max_eq_right (Nat.le_of_lt hl), ← Nat.succ_mul, Nat.mul_div_cancel _ hp]
    exact Nat.mod_eq_of_lt hn
  · left
    have hl := Nat.mul_le_mul_right f.pageSize (Nat.succ_le_of_lt hc)
    rw [Nat.succ_mul] at hl
    rw [hcount, Nat.max_eq_left (Nat.le_trans hl (Nat.div_mul_le_self _ _))]
    rfl

/-- Appending a page leaves the pages of the file as they are, and adds at most the new one. -/
theorem page?_append (hp : 0 < f.pageSize) (hd : data.length = f.pageSize)
    (hn : f.pageCount + 1 < pageLimit) (n : Nat) :
    (f.append data).2.page? n = f.page? n ∨
      f.page? n = none ∧ (f.append data).2.page? n = some data := by
  have hsize : (f.append data).2.pageSize = f.pageSize := rfl
  have hbytes : (f.append data).2.bytes = (f.overwrite (f.pageCount * f.pageSize) data).bytes := rfl
  rw [page?_eq, page?_eq, hsize, hbytes]
  by_cases hne : n = f.pageCount
  · rw [hne, if_neg fun h : f.pageCount < f.pageCount ∧ _ => Nat.lt_irrefl _ h.1,
      slice_overwrite_self f f.pageCount hd]
    by_cases hs : f.pageCount < (f.append data).2.pageCount ∧
        (f.pageCount + 1) * f.pageSize < sizeLimit
    · exact .inr ⟨rfl, if_pos hs⟩
    · exact .inl (if_neg hs)
  · left
    have hiff : n < (f.append data).2.pageCount ↔ n < f.pageCount := by
      rcases pageCount_append hp hd hn with hc | hc <;> omega
    simp only [slice_overwrite_of_ne (Nat.le_of_eq hd) (.inl f.pageCount_mul_le) hne, hiff]

end RowStore.PageFile
