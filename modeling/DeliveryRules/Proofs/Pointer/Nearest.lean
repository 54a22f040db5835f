import DeliveryRules.Pointer.Basic

/-!
# The nearest provenance

- `recorded?`: the provenance that a value records itself.
- **One token** (`nearestProvenance_cons`): what is recorded below counts before what a value
  records itself.
- **Ways** (`follow?`, `nearestProvenance_append`): past a value that records a provenance, what
  lies above it no longer matters.
- `tokens_marked`: a number sign before a pointer changes nothing.
-/

namespace DeliveryRules.Pointer

/-- The provenance that a value records itself. -/
def recorded? (j : Json) : Option String := j.memberString? provenanceName

theorem nearestProvenance_nil (j : Json) : nearestProvenance j [] = recorded? j := by
  simp [nearestProvenance, ancestry, recorded?]

theorem nearestProvenance_cons (j : Json) (token : String) (tokens : List String) :
    nearestProvenance j (token :: tokens) =
      ((step? j token).bind (nearestProvenance · tokens)).or (recorded? j) := by
  unfold nearestProvenance
  rw [ancestry]
  cases step? j token with
  | none => simp [recorded?]
  | some k => simp [List.findSome?_append, recorded?]

/-- A value without parts records nothing, and neither does anything in it. -/
theorem nearestProvenance_scalar {j : Json} (hstep : ∀ token, step? j token = none)
    (hown : recorded? j = none) (tokens : List String) : nearestProvenance j tokens = none := by
  cases tokens with
  | nil => rw [nearestProvenance_nil, hown]
  | cons token tokens => rw [nearestProvenance_cons, hstep, hown]; rfl

@[simp] theorem nearestProvenance_string (s : String) (tokens : List String) :
    nearestProvenance (.string s) tokens = none :=
  nearestProvenance_scalar (fun _ => rfl) rfl tokens

@[simp] theorem nearestProvenance_bool (b : Bool) (tokens : List String) :
    nearestProvenance (.bool b) tokens = none :=
  nearestProvenance_scalar (fun _ => rfl) rfl tokens

@[simp] theorem recorded?_array (items : List Json) : recorded? (.array items) = none := rfl

theorem step?_array (items : List Json) (token : String) :
    step? (.array items) token = (index? token).bind fun i => items[i]? := rfl

/-- An array records nothing itself. -/
theorem nearestProvenance_array (items : List Json) (tokens : List String) :
    nearestProvenance (.array items) tokens =
      match tokens with
      | [] => none
      | token :: rest =>
        ((index? token).bind fun i => items[i]?).bind (nearestProvenance · rest) := by
  cases tokens with
  | nil => rfl
  | cons token rest => rw [nearestProvenance_cons, recorded?_array, Option.or_none, step?_array]

/-! ## Ways -/

/-- The part of `j` that all of the tokens lead to, one after the other. -/
def follow? : Json → List String → Option Json
  | j, [] => some j
  | j, t :: ts => (step? j t).bind fun k => follow? k ts

/-- From a part on which a provenance is found, the way that leads there does not matter. -/
theorem nearestProvenance_append {j k : Json} {way rest : List String}
    (h : follow? j way = some k) (hfound : (nearestProvenance k rest).isSome) :
    nearestProvenance j (way ++ rest) = nearestProvenance k rest := by
  induction way generalizing j with
  | nil =>
    cases h
    rfl
  | cons t ts ih =>
    rw [follow?, Option.bind_eq_some_iff] at h
    obtain ⟨l, hl, h⟩ := h
    rw [List.cons_append, nearestProvenance_cons, hl, Option.bind_some, ih h,
      Option.or_of_isSome hfound]

/-! ## Texts of pointers -/

theorem dropWhileEnd_cons {p : Char → Bool} {c : Char} (h : p c = false) (cs : List Char) :
    Text.dropWhileEnd p (c :: cs) = c :: Text.dropWhileEnd p cs := by
  rw [Text.dropWhileEnd]
  split
  · rename_i heq
    simp [h, heq]
  · rename_i heq
    rw [heq]

/-- Some put a number sign before the first slash. -/
theorem tokens_marked (rest : String) : tokens ("#/" ++ rest) = tokens ("/" ++ rest) := by
  have hslash : Text.trim ('/' :: rest.toList) =
      '/' :: Text.dropWhileEnd Text.isBlank rest.toList := by
    rw [Text.trim, List.dropWhile_cons_of_neg (by decide), dropWhileEnd_cons (by decide)]
  have hmark : Text.trim ('#' :: '/' :: rest.toList) =
      '#' :: '/' :: Text.dropWhileEnd Text.isBlank rest.toList := by
    rw [Text.trim, List.dropWhile_cons_of_neg (by decide), dropWhileEnd_cons (by decide),
      dropWhileEnd_cons (by decide)]
  have hparse : parse ('#' :: '/' :: rest.toList) = parse ('/' :: rest.toList) := by
    simp [parse, hslash, hmark, dropLead, Text.afterPrefix?]
  simp only [tokens, String.toList_append]
  exact congrArg (List.map String.ofList) hparse

end DeliveryRules.Pointer
