import DeliveryRules.Proofs.Schema.Timeless
import Mathlib.Logic.Relation

/-!
# Schemas that do not go round in circles

A schema may ask that the value it checks fits another schema, which may ask for a third, by nesting
or by a reference. Where this comes back to where it began, there is no verdict to give. The checks
break off at a bound and find nothing wrong; what is said of a verdict is about the bounded checks.
Here is what makes the bound harmless.

- **Asking** (`Asks`, `AsksInPlace`): a schema asks for another one, for a part of the value or for
  the same value. `Reaches` is any number of such steps.
- **Grounded schemas** (`Grounded`): what they ask for in place goes down fewer than `n` steps.
- `fits_iff_of_grounded`: if all schemas that are reached are grounded within the bound, a larger
  bound gives the same verdict. Timeless schemas are (`grounded_of_timeless`); one that refers to
  itself in place is not, and is taken to accept everything (`fits_of_circle`).
-/

namespace DeliveryRules.Schema

/-! ## Asking -/

section Asking

variable {a b : Scope × Json} {members : Members}

/-- A reference among the members of a schema leads to `b`. -/
def RefersTo (s : Scope) (members : Members) (b : Scope × Json) : Prop :=
  ∃ text, ("$ref", Json.string text) ∈ members ∧ s.lookup text = .ok b

/-- The schema `a` asks that the value it checks fits `b`. -/
def AsksInPlace (a b : Scope × Json) : Prop :=
  ∃ members, a.2 = .object members ∧
    (RefersTo a.1 members b ∨ b.2 ∈ inPlaceSchemas members ∧ b.1 = a.1.nested b.2)

/-- The schema `a` asks that the value it checks, or a part of it, fits `b`. -/
def Asks (a b : Scope × Json) : Prop :=
  ∃ members, a.2 = .object members ∧
    (RefersTo a.1 members b ∨ b.2 ∈ nestedSchemas members ∧ b.1 = a.1.nested b.2)

def Reaches : Scope × Json → Scope × Json → Prop := Relation.ReflTransGen Asks

theorem AsksInPlace.asks (h : AsksInPlace a b) : Asks a b := by
  obtain ⟨members, hschema, h⟩ := h
  exact ⟨members, hschema, h.imp_right (And.imp_left mem_nestedSchemas_of_inPlace)⟩

/-- What a schema asks for in place goes down fewer than `n` steps. -/
inductive Grounded : Nat → Scope × Json → Prop
  | step {n : Nat} {a : Scope × Json} (h : ∀ b, AsksInPlace a b → Grounded n b) :
    Grounded (n + 1) a

end Asking

/-! ## Verdicts -/

section Checks

variable {below below' : Checker} {value : Json} {n k k' fuel fuel' : Nat}
  {root a : Scope × Json} {way way' : List String}

/-- Checks that agree on the parts of a value, for the schemas that `root` reaches. -/
def AgreeOnReached (root : Scope × Json) (value : Json) (below below' : Checker) : Prop :=
  ∀ part : Json, part.depth < value.depth → ∀ b, Reaches root b → ∀ way way',
    (below b.1 b.2 part way).isNone = (below' b.1 b.2 part way').isNone

theorem checkWithin_grounded (hbelow : AgreeOnReached root value below below')
    (ha : Reaches root a) (h : Grounded n a) (hk : n ≤ k) (hk' : n ≤ k') :
    (checkWithin below k a.1 a.2 value way).isNone =
      (checkWithin below' k' a.1 a.2 value way').isNone := by
  induction h generalizing k k' way way' with
  | @step n a _ ih =>
    obtain ⟨k, rfl⟩ := Nat.exists_eq_add_of_le' (Nat.le_trans (Nat.succ_pos n) hk)
    obtain ⟨k', rfl⟩ := Nat.exists_eq_add_of_le' (Nat.le_trans (Nat.succ_pos n) hk')
    obtain ⟨s, schema⟩ := a
    have hnext (b : Scope × Json) (hb : AsksInPlace (s, schema) b) :
        (checkWithin below k b.1 b.2 value way).isNone =
          (checkWithin below' k' b.1 b.2 value way').isNone :=
      ih b hb (ha.tail hb.asks) (Nat.le_of_succ_le_succ hk) (Nat.le_of_succ_le_succ hk')
    cases schema with
    | object members =>
      rw [checkWithin, checkWithin]
      refine findSome?_congr ?_
      rintro ⟨keyword, operand⟩ hcounts
      have hmem := mem_of_mem_conditions hcounts
      simp only
      unfold condition
      split
      · split
        · rename_i t target hlookup
          exact hnext (t, target) ⟨members, rfl, .inl ⟨_, hmem, hlookup⟩⟩
        · rfl
      · exact anyOrKind_congr hmem
          (fun j hj => hnext (s.nested j, j) ⟨members, rfl, .inr ⟨hj, rfl⟩⟩)
          fun part hpart j hj => hbelow part hpart (s.nested j, j)
            (ha.tail ⟨members, rfl, .inr ⟨hj, rfl⟩⟩)
    | bool b => cases b <;> rfl
    | _ => rfl

theorem checkDeep_grounded {depth : Nat} (hroot : ∀ b, Reaches root b → Grounded n b)
    (ha : Reaches root a) (hfuel : n ≤ fuel) (hfuel' : n ≤ fuel') (hvalue : value.depth ≤ depth) :
    (checkDeep fuel depth a.1 a.2 value way).isNone =
      (checkDeep fuel' depth a.1 a.2 value way').isNone := by
  induction depth generalizing value a way way' with
  | zero =>
    have hbelow : AgreeOnReached root value (fun _ _ _ _ => none) fun _ _ _ _ => none :=
      fun _ _ _ _ _ _ => rfl
    exact checkWithin_grounded hbelow ha (hroot a ha) hfuel hfuel'
  | succ depth ih =>
    have hbelow : AgreeOnReached root value (checkDeep fuel depth) (checkDeep fuel' depth) :=
      fun part hpart b hb _ _ =>
        ih hb (Nat.le_of_lt_succ (Nat.lt_of_lt_of_le hpart hvalue))
    exact checkWithin_grounded hbelow ha (hroot a ha) hfuel hfuel'

/-- Where all schemas that are reached are grounded, the verdict is the same for all bounds that are
large enough. -/
theorem fits_iff_of_grounded {s : Scope} {schema : Json}
    (hroot : ∀ b, Reaches (s, schema) b → Grounded n b) (hfuel : n ≤ fuel) (hfuel' : n ≤ fuel') :
    Fits fuel s schema value ↔ Fits fuel' s schema value := by
  have hagree : (check fuel s schema value []).isNone = (check fuel' s schema value []).isNone :=
    checkDeep_grounded (a := (s, schema)) hroot .refl hfuel hfuel' (Nat.le_refl _)
  rw [Fits, Fits, hagree]

/-- The bound that schemas are used with makes no difference to those that are grounded within
it. -/
theorem violation?_eq_none_iff_of_grounded {schema : Schema}
    (hroot : ∀ b, Reaches (Scope.top schema.json schema.draft, schema.json) b →
      Grounded (enough schema.json) b) (hfuel : enough schema.json ≤ fuel) :
    schema.violation? value = none ↔
      Fits fuel (Scope.top schema.json schema.draft) schema.json value := by
  rw [← Option.isNone_iff_eq_none]
  exact fits_iff_of_grounded hroot (Nat.le_refl _) hfuel

end Checks

section Timeless

variable {s : Scope} {d : Draft} {schema : Json} {n : Nat} {b : Scope × Json}

/-- Timeless schemas ask only for schemas that are nested in them, which are timeless again. -/
theorem Timeless.of_asks (h : Timeless s.draft d schema) (hb : Asks (s, schema) b) :
    Timeless b.1.draft (d.nested b.2) b.2 ∧ b.2.size < schema.size := by
  obtain ⟨members, rfl, hasks⟩ := hb
  cases h with
  | plain h => cases h
  | object hnone _ _ hnested =>
    rcases hasks with ⟨text, hmem, -⟩ | ⟨hmem, hscope⟩
    · exact absurd rfl (ne_ref_of_mem hnone hmem)
    · rw [hscope, nested_draft]
      exact ⟨hnested _ hmem, size_lt_of_nested hmem⟩

theorem grounded_of_timeless (h : Timeless s.draft d schema) (hn : schema.size ≤ n) :
    Grounded n (s, schema) := by
  induction n generalizing s d schema with
  | zero => exact absurd hn (Nat.not_le_of_lt (size_pos schema))
  | succ n ih =>
    refine .step fun b hb => ?_
    obtain ⟨htimeless, hlt⟩ := h.of_asks hb.asks
    exact ih htimeless (by omega)

/-- All that a timeless schema reaches is grounded. -/
theorem grounded_of_reaches (h : Timeless s.draft d schema) (hb : Reaches (s, schema) b) :
    Grounded schema.size b := by
  suffices hall : (∃ e, Timeless b.1.draft e b.2) ∧ b.2.size ≤ schema.size by
    obtain ⟨⟨e, htimeless⟩, hsize⟩ := hall
    exact grounded_of_timeless htimeless hsize
  induction hb with
  | refl => exact ⟨⟨d, h⟩, Nat.le_refl _⟩
  | tail _ hasks ih =>
    obtain ⟨⟨e, htimeless⟩, hsize⟩ := ih
    obtain ⟨hnext, hlt⟩ := htimeless.of_asks hasks
    exact ⟨⟨_, hnext⟩, by omega⟩

end Timeless

/-! ### Circles -/

/-- A schema that asks, of every value, that it fits the schema itself. -/
def circle : Json := .object [("$ref", .string "#")]

theorem not_grounded_circle (d : Draft) (n : Nat) : ¬ Grounded n (Scope.top circle d, circle) := by
  induction n with
  | zero => exact nofun
  | succ n ih =>
    rintro ⟨h⟩
    exact ih (h _ ⟨_, rfl, .inl ⟨"#", List.mem_cons_self, rfl⟩⟩)

/-- The checks of a circle find nothing wrong, whatever their bound. -/
theorem fits_of_circle (d : Draft) (fuel : Nat) (value : Json) :
    Fits fuel (Scope.top circle d) circle value := by
  suffices hwithin : ∀ k, FitsWithin fuel k (Scope.top circle d) circle value from
    fits_iff.mpr (hwithin fuel)
  intro k
  induction k with
  | zero => rfl
  | succ k ih =>
    refine fitsWithin_object.mpr fun m hm => ?_
    obtain rfl := List.mem_singleton.mp (mem_of_mem_conditions hm)
    exact ih

end DeliveryRules.Schema
