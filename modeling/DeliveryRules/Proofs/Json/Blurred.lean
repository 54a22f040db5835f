import DeliveryRules.Proofs.Json.Members
import DeliveryRules.Proofs.Pointer.Nearest

/-!
# Values up to their floating point numbers

The text of a floating point number may be read as another one, since reading rounds more than once.
`Json.blurred` forgets which one it was. Two values that are the same when blurred are as deep as
each other (`Json.depth_blurred`), and pointers find the same provenance in them
(`Pointer.nearestProvenance_eq_of_blurred`).
-/

namespace DeliveryRules

namespace Json

/-- The value with `0.0` in the place of every floating point number. -/
def blurred : Json → Json
  | .number (.float _) => .number (.float 0.0)
  | .array items => .array (ofItems items)
  | .object members => .object (ofMembers members)
  | j => j
where
  ofItems : List Json → List Json
    | [] => []
    | j :: js => blurred j :: ofItems js
  ofMembers : List (String × Json) → List (String × Json)
    | [] => []
    | (name, j) :: ms => (name, blurred j) :: ofMembers ms

theorem blurred_array (items : List Json) :
    (array items).blurred = .array (items.map blurred) := by
  rw [blurred]
  congr 1
  induction items with
  | nil => rfl
  | cons j js ih => rw [blurred.ofItems, ih, List.map_cons]

theorem blurred_object (members : Members) :
    (object members).blurred = .object (members.map fun m => (m.1, m.2.blurred)) := by
  rw [blurred]
  congr 1
  induction members with
  | nil => rfl
  | cons m ms ih => rw [blurred.ofMembers, ih, List.map_cons]

@[simp] theorem depth_blurred (j : Json) : j.blurred.depth = j.depth := by
  induction hsize : j.size using Nat.strongRecOn generalizing j with
  | ind size ih =>
    subst hsize
    cases j with
    | number n => cases n <;> rfl
    | array items =>
      rw [blurred_array, depth, depth]
      congr 1
      have hitems : ∀ i ∈ items, i.blurred.depth = i.depth := fun i hi =>
        ih _ (size_lt_of_item hi) i rfl
      clear ih
      induction items with
      | nil => rfl
      | cons i items ih =>
        rw [List.map_cons, depth.ofItems, depth.ofItems, hitems i List.mem_cons_self,
          ih fun i' hi' => hitems i' (List.mem_cons_of_mem _ hi')]
    | object members =>
      rw [blurred_object, depth, depth]
      congr 1
      have hmembers : ∀ m ∈ members, m.2.blurred.depth = m.2.depth := fun m hm =>
        ih _ (size_lt_of_member hm) m.2 rfl
      clear ih
      induction members with
      | nil => rfl
      | cons m members ih =>
        rw [List.map_cons, depth.ofMembers, depth.ofMembers, hmembers m List.mem_cons_self,
          ih fun m' hm' => hmembers m' (List.mem_cons_of_mem _ hm')]
    | _ => rfl

theorem get?_map_blurred (members : Members) (name : String) :
    Members.get? (members.map fun m => (m.1, m.2.blurred)) name =
      (Members.get? members name).map blurred :=
  Members.lookup_map blurred members name

end Json

namespace Pointer

open Json

theorem step?_blurred (j : Json) (token : String) :
    step? j.blurred token = (step? j token).map blurred := by
  cases j with
  | number n => cases n <;> rfl
  | array items =>
    rw [blurred_array, step?_array, step?_array, Option.map_bind]
    simp only [List.getElem?_map]
    rfl
  | object members =>
    rw [blurred_object]
    exact get?_map_blurred members token
  | _ => rfl

theorem recorded?_blurred (j : Json) : recorded? j.blurred = recorded? j := by
  cases j with
  | number n => cases n <;> rfl
  | array items => rw [blurred_array, recorded?_array, recorded?_array]
  | object members =>
    have hstring (k : Json) : k.blurred.asString? = k.asString? := by
      cases k with
      | number n => cases n <;> rfl
      | array items => rw [blurred_array]; rfl
      | object members => rw [blurred_object]; rfl
      | _ => rfl
    rw [blurred_object]
    show ((Members.get? (members.map fun m => (m.1, m.2.blurred)) provenanceName).bind asString?) =
      (Members.get? members provenanceName).bind asString?
    rw [get?_map_blurred]
    cases Members.get? members provenanceName with
    | none => rfl
    | some k => exact hstring k
  | _ => rfl

theorem nearestProvenance_blurred (j : Json) (tokens : List String) :
    nearestProvenance j.blurred tokens = nearestProvenance j tokens := by
  induction tokens generalizing j with
  | nil => rw [nearestProvenance_nil, nearestProvenance_nil, recorded?_blurred]
  | cons token tokens ih =>
    rw [nearestProvenance_cons, nearestProvenance_cons, recorded?_blurred, step?_blurred]
    cases step? j token with
    | none => rfl
    | some k => rw [Option.map_some, Option.bind_some, Option.bind_some, ih]

theorem nearestProvenance_eq_of_blurred {j k : Json} (h : j.blurred = k.blurred)
    (tokens : List String) : nearestProvenance j tokens = nearestProvenance k tokens := by
  rw [← nearestProvenance_blurred j, h, nearestProvenance_blurred]

end Pointer

end DeliveryRules
