import Mathlib

/-!
# Ordered tables

A table of an embedded key-value store: at most one value for each key, the keys in order.  Committed
tables are compared by what they hold, so a table is an extensional ordered map.
-/

namespace Simb.Lib

/-- A table from keys to values. -/
abbrev Table (κ ν : Type) [Ord κ] := Std.ExtTreeMap κ ν compare

namespace Table

variable {κ ν : Type} [Ord κ] [Std.TransOrd κ] [Std.LawfulEqOrd κ]

/-- The entry with the greatest key. -/
def last (t : Table κ ν) : Option (κ × ν) := t.maxKey?.bind fun k => t[k]?.map (k, ·)

/-- Take out the entry with the least key. -/
def popFirst (t : Table κ ν) : Table κ ν × Option (κ × ν) :=
  match t.minKey? with
  | some k => (t.erase k, t[k]?.map (k, ·))
  | none => (t, none)

theorem getElem?_insert_self (t : Table κ ν) (k : κ) (v : ν) : (t.insert k v)[k]? = some v := by
  rw [Std.ExtTreeMap.getElem?_insert, if_pos Std.ReflOrd.compare_self]

theorem getElem?_insert_of_ne (t : Table κ ν) {k j : κ} (v : ν) (h : j ≠ k) :
    (t.insert k v)[j]? = t[j]? := by
  rw [Std.ExtTreeMap.getElem?_insert, if_neg fun hc => h (Std.LawfulEqOrd.eq_of_compare hc).symm]

theorem getElem?_erase_self (t : Table κ ν) (k : κ) : (t.erase k)[k]? = none := by
  rw [Std.ExtTreeMap.getElem?_erase, if_pos Std.ReflOrd.compare_self]

theorem getElem?_erase_of_ne (t : Table κ ν) {k j : κ} (h : j ≠ k) : (t.erase k)[j]? = t[j]? := by
  rw [Std.ExtTreeMap.getElem?_erase, if_neg fun hc => h (Std.LawfulEqOrd.eq_of_compare hc).symm]

/-- Inserting what is there changes nothing. -/
theorem insert_eq_self {t : Table κ ν} {k : κ} {v : ν} (h : t[k]? = some v) : t.insert k v = t := by
  refine Std.ExtTreeMap.ext_getElem? fun j => ?_
  by_cases hj : j = k
  · subst hj; rw [getElem?_insert_self, h]
  · rw [getElem?_insert_of_ne t v hj]

theorem insert_eq_self_iff {t : Table κ ν} {k : κ} {v : ν} : t.insert k v = t ↔ t[k]? = some v := by
  refine ⟨fun h => ?_, insert_eq_self⟩
  rw [← h, getElem?_insert_self]

theorem last_eq_some [LE κ] [Std.LawfulOrderOrd κ] {t : Table κ ν} {k : κ} {v : ν} (hk : t[k]? = some v)
    (hmax : ∀ j, t[j]?.isSome → j ≤ k) : t.last = some (k, v) := by
  have hkey : t.maxKey? = some k := by
    rw [Std.ExtTreeMap.maxKey?_eq_some_iff_mem_and_forall]
    refine ⟨by rw [Std.ExtTreeMap.mem_iff_isSome_getElem?, hk]; rfl, fun j hj => ?_⟩
    rw [Std.isLE_compare]
    exact hmax j (Std.ExtTreeMap.mem_iff_isSome_getElem?.mp hj)
  simp [last, hkey, hk]

/-- Nothing is taken out exactly if nothing is there. -/
theorem popFirst_of_empty {t : Table κ ν} (h : ∀ k : κ, t[k]? = none) : t.popFirst = (t, none) := by
  have hkey : t.minKey? = none := by
    rw [Std.ExtTreeMap.minKey?_eq_none_iff]
    exact Std.ExtTreeMap.ext_getElem? fun k => by rw [h, Std.ExtTreeMap.getElem?_empty]
  simp [popFirst, hkey]

theorem exists_popFirst {t : Table κ ν} {j : κ} (hj : t[j]? ≠ none) :
    ∃ k v, t[k]? = some v ∧ (∀ i : κ, t[i]? ≠ none → (compare k i).isLE) ∧
      t.popFirst = (t.erase k, some (k, v)) := by
  have hmem : j ∈ t := by
    rw [Std.ExtTreeMap.mem_iff_isSome_getElem?]
    exact Option.isSome_iff_ne_none.mpr hj
  obtain ⟨k, hk⟩ := Option.isSome_iff_exists.mp (Std.ExtTreeMap.isSome_minKey?_of_mem hmem)
  obtain ⟨hkmem, hmin⟩ := Std.ExtTreeMap.minKey?_eq_some_iff_mem_and_forall.mp hk
  rw [Std.ExtTreeMap.mem_iff_isSome_getElem?] at hkmem
  obtain ⟨v, hv⟩ := Option.isSome_iff_exists.mp hkmem
  refine ⟨k, v, hv, fun i hi => ?_, by simp [popFirst, hk, hv]⟩
  refine hmin i ?_
  rw [Std.ExtTreeMap.mem_iff_isSome_getElem?]
  exact Option.isSome_iff_ne_none.mpr hi

end Table

end Simb.Lib
