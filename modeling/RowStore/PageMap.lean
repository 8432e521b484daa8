import RowStore.Id
import Std.Data.TreeMap

/-!
# Maps from pages

Pages are ordered by table and then by number. A page map keeps one entry for each of some pages, in
that order.
-/

namespace RowStore

namespace PageId

instance : Ord PageId := ⟨compareLex (compareOn PageId.table) (compareOn PageId.number)⟩

instance : Std.TransOrd PageId :=
  inferInstanceAs (Std.TransCmp (compareLex (compareOn PageId.table) (compareOn PageId.number)))

instance : Std.LawfulEqOrd PageId where
  eq_of_compare {a b} h := by
    obtain ⟨ht, hn⟩ : compare a.table b.table = .eq ∧ compare a.number b.number = .eq :=
      compareLex_eq_eq.1 h
    cases a
    cases b
    simp_all

end PageId

/-- A map from pages. -/
abbrev PageMap (α : Type) := Std.TreeMap PageId α

end RowStore
