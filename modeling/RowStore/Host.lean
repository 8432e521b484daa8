import RowStore.PageMap

/-!
# What is left to the machine

Two things the store does not say itself: which number the table in a file has, and in which order
it goes through a set of pages. They are up to the machine that it runs on. A file's table has the
same number whenever the file is opened. Of the order only this much is certain, that no page is
left out and none is gone through twice.
-/

namespace RowStore

/-- The machine that a store runs on. -/
structure Host where
  /-- The number of the table in the file with a name. -/
  tableId : String → TableId
  /-- The order to go through some pages in. It may be another after each call of the log. -/
  order : (calls : Nat) → (pages : List PageId) → List PageId
  /-- Each of the pages comes once. -/
  order_perm : ∀ calls pages, (order calls pages).Perm pages

/-- A text read as a number, its characters as digits, the least significant first. No digit is
zero. -/
def TableId.ofChars : List Char → Nat
  | [] => 0
  | c :: cs => c.toNat + 1 + 0x110001 * ofChars cs

/-- A file's name read as a number beyond 64 bits, out of reach of who makes up a number. -/
def TableId.ofFile (name : String) : TableId := sizeLimit + ofChars name.toList

theorem TableId.toNat_char_lt (c : Char) : c.toNat < 0x110000 := by
  have := c.valid
  unfold UInt32.isValidChar Nat.isValidChar at this
  simp only [Char.toNat]
  omega

theorem TableId.eq_of_ofChars_eq {cs ds : List Char} (h : ofChars cs = ofChars ds) : cs = ds := by
  induction cs generalizing ds with
  | nil =>
    cases ds with
    | nil => rfl
    | cons d ds =>
      simp only [ofChars] at h
      omega
  | cons c cs ih =>
    cases ds with
    | nil =>
      simp only [ofChars] at h
      omega
    | cons d ds =>
      simp only [ofChars] at h
      have hc := toNat_char_lt c
      have hd := toNat_char_lt d
      obtain ⟨hcd, hrest⟩ : c.toNat = d.toNat ∧ ofChars cs = ofChars ds := by omega
      rw [Char.toNat_inj.1 hcd, ih hrest]

/-- Files with distinct names have distinct numbers. -/
theorem TableId.eq_of_ofFile_eq {name other : String} (h : ofFile name = ofFile other) :
    name = other := String.toList_injective (eq_of_ofChars_eq (Nat.add_left_cancel h))

/-- A machine that numbers tables by the names of their files, and goes through pages as they are
listed. -/
def Host.plain : Host := ⟨TableId.ofFile, fun _ pages => pages, fun _ _ => .refl _⟩

end RowStore
