import DeliveryRules.Proofs.Rule.Variables
import Mathlib.Data.List.Basic

/-!
# A table of variables with an index

The variables of a tree are a list that is searched from the front. Kept with an index of the places
where names stand, the table is not searched at all.

- **Coherence** (`IndexedTable.coherent`): the index has for each name the first place where it
  stands, so what it gives is always a place in the table (`IndexedTable.lt_size`).
- **Lookup** (`IndexedTable.find?_eq`): by the index a name leads to what the search finds.
- **Declarations** (`IndexedTable.insert_eq`, `IndexedTable.table_insertAll`): the same variables
  are taken in, one after the other, and of each it is said whether it was. So the table of every
  tree can be given an index (`IndexedTable.table_of_distinct`).
-/

namespace DeliveryRules

/-- Variables in the order in which they were declared, and the places where names stand. -/
structure IndexedTable where
  entries : Array Variable
  places : Std.HashMap String Nat
  coherent : ∀ name : String, places[name]? = entries.findIdx? (·.name = name)

namespace IndexedTable

def empty : IndexedTable where
  entries := #[]
  places := ∅
  coherent _ := by simp

variable (t : IndexedTable)

theorem lt_size {t : IndexedTable} {name : String} {i : Nat} (h : t.places[name]? = some i) :
    i < t.entries.size := by
  rw [t.coherent, Array.findIdx?_eq_some_iff_getElem] at h
  exact h.1

/-- The variables without the index. -/
def table : VariableTable := t.entries.toList

def find? (name : String) : Option Variable :=
  match h : t.places[name]? with
  | some i =>
    have := lt_size h
    some t.entries[i]
  | none => none

/-- Takes in a variable unless its name is there, and says whether it did. -/
def insert (v : Variable) : Bool × IndexedTable :=
  if hknown : t.places.contains v.name then (false, t)
  else
    (true, {
      entries := t.entries.push v
      places := t.places.insert v.name t.entries.size
      coherent := by
        intro name
        rw [Std.HashMap.getElem?_insert, Array.findIdx?_push, t.coherent]
        by_cases hname : v.name = name
        · subst hname
          have hnew : t.entries.findIdx? (·.name = v.name) = none := by
            rw [← t.coherent]
            exact Std.HashMap.getElem?_eq_none_of_contains_eq_false (Bool.eq_false_iff.mpr hknown)
          simp [hnew]
        · simp [hname] })

/-- Takes in variables one after the other. -/
def insertAll (vs : List Variable) : IndexedTable := vs.foldl (fun t v => (t.insert v).2) t

theorem contains_places (name : String) : t.places.contains name = t.table.knows name := by
  rw [Std.HashMap.contains_eq_isSome_getElem?, t.coherent, Array.findIdx?_isSome, table,
    VariableTable.knows, Array.any_toList]

/-- By the index a name leads to what a search from the front finds. -/
theorem find?_eq (name : String) : t.find? name = t.table.find? name := by
  have hcoherent := t.coherent name
  unfold find?
  split
  · rename_i i hi
    rw [hi, eq_comm, Array.findIdx?_eq_some_iff_getElem] at hcoherent
    obtain ⟨hlt, hname, hearlier⟩ := hcoherent
    symm
    rw [VariableTable.find?, List.find?_eq_some_iff_getElem]
    refine ⟨hname, i, hlt, rfl, fun j hj => ?_⟩
    rw [Bool.not_eq_true']
    exact Bool.eq_false_iff.mpr (hearlier j hj)
  · rename_i hnone
    rw [hnone, eq_comm, Array.findIdx?_eq_none_iff] at hcoherent
    refine (List.find?_eq_none.mpr fun v hv => ?_).symm
    simpa using hcoherent v (Array.mem_toList_iff.mp hv)

/-- A variable is taken in as by `VariableTable.declare`, and it is said whether it was new. -/
theorem insert_eq (v : Variable) :
    (t.insert v).1 = !t.table.knows v.name ∧ (t.insert v).2.table = t.table.declare v := by
  have hcontains := t.contains_places v.name
  unfold insert VariableTable.declare
  split
  · rename_i hknown
    rw [← hcontains, hknown]
    exact ⟨rfl, rfl⟩
  · rename_i hnew
    rw [← hcontains, Bool.eq_false_iff.mpr hnew]
    exact ⟨rfl, Array.toList_push⟩

theorem table_insertAll (vs : List Variable) :
    (t.insertAll vs).table = t.table.declareAll vs := by
  induction vs generalizing t with
  | nil => rfl
  | cons v vs ih =>
    rw [insertAll, List.foldl_cons, ← insertAll, ih, (t.insert_eq v).2]
    rfl

/-- Declarations leave the first of each name, with an index or without. -/
theorem table_insertAll_empty (vs : List Variable) :
    (empty.insertAll vs).table = VariableTable.firsts vs :=
  (empty.table_insertAll vs).trans (VariableTable.declareAll_nil vs)

/-- A table without repeated names, as every tree has one, can be given an index. -/
theorem table_of_distinct {vs : VariableTable} (h : vs.Distinct) :
    (empty.insertAll vs).table = vs :=
  (table_insertAll_empty vs).trans (VariableTable.firsts_of_distinct h)

end IndexedTable

end DeliveryRules
