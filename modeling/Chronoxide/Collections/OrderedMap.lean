import Mathlib.Order.Compare
import Mathlib.Tactic.Common
import Chronoxide.Collections.KeepLast

/-! Ordered maps read as lists. Insertions in the order of a list leave the last value of every
key. -/

abbrev OrderedMap (κ ν : Type) [LinearOrder κ] := Std.TreeMap κ ν (compare : κ → κ → Ordering)

namespace OrderedMap
open KeepLast

variable {κ ν : Type} [LinearOrder κ] (m : OrderedMap κ ν) (l : List (κ × ν))

def insertAll : OrderedMap κ ν :=
  l.foldl (fun m e => m.insert e.1 e.2) m

theorem toList_increasing : Increasing Prod.fst m.toList := by
  refine m.ordered_keys_toList.imp fun {a b} hab => ?_
  exact compare_lt_iff_lt.mp hab

theorem last?_toList (k : κ) : last? Prod.fst k m.toList = m[k]?.map (k, ·) := by
  refine Option.ext fun e => ?_
  obtain ⟨k', v⟩ := e
  have hiff := Std.TreeMap.mem_toList_iff_getElem?_eq_some (t := m) (k := k') (v := v)
  constructor
  · intro hlast
    obtain ⟨hmem, rfl⟩ := last?_mem hlast
    rw [hiff.mp hmem]
    rfl
  intro hmap
  obtain ⟨w, hw, heq⟩ := Option.map_eq_some_iff.mp hmap
  cases heq
  exact (m.toList_increasing.mem_iff).mp (hiff.mpr hw)

theorem last?_toList_insert (k k' : κ) (v : ν) : last? Prod.fst k' (m.insert k v).toList =
      if k = k' then some (k, v) else last? Prod.fst k' m.toList := by
  rw [last?_toList, last?_toList, Std.TreeMap.getElem?_insert]
  by_cases hk : k = k'
  · subst hk
    simp
  · rw [if_neg hk, if_neg (by simpa using hk)]

theorem last?_toList_insertAll (k : κ) : last? Prod.fst k (m.insertAll l).toList =
      (last? Prod.fst k l).or (last? Prod.fst k m.toList) := by
  induction l generalizing m with
  | nil => rfl
  | cons e l ih =>
    refine (ih _).trans ?_
    rw [last?_toList_insert]
    by_cases hk : e.1 = k
    · subst hk
      rw [if_pos rfl, last?_cons_self]
      cases last? Prod.fst e.1 l <;> rfl
    · rw [if_neg hk, last?_cons_of_ne hk]

theorem last?_toList_ofList (k : κ) :
    last? Prod.fst k (insertAll {} l).toList = last? Prod.fst k l := by
  rw [last?_toList_insertAll]
  exact Option.or_none

end OrderedMap
