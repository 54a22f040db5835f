import DeliveryRules.Proofs.Json.Values
import DeliveryRules.Proofs.Pointer.RoundTrip
import DeliveryRules.Schema.Basic

/-!
# Violations are about parts of the value

- **Addressable values** (`Json.Addressable`): every part of the value is where its name or its
  index leads. What is read from a text is addressable, unless the text has more characters than
  there are indices (`Json.addressable_of_read`).
- **Blame** (`Blames`): the tokens of a violation lead to a part of the value that was checked.
- **Checks** (`blames_condition`, `blames_checkDeep`): each condition blames the value or a part of
  it, by the way that its checks of parts are given.
- `Schema.follow?_of_violation?`: a schema rejects a value because of a part that is there.
-/

namespace DeliveryRules

/-! ## Addressable values -/

namespace Json

open Pointer (step?)

/-- No name is there twice, and there are indices for all items. -/
structure Addressable (j : Json) : Prop where
  distinct : j.Throughout Distinct
  countable : j.Throughout (Countable Pointer.maxIndex)

theorem Addressable.step_member {members : Members} (h : Addressable (.object members))
    {m : String × Json} (hm : m ∈ members) :
    step? (.object members) m.1 = some m.2 ∧ Addressable m.2 := by
  obtain ⟨hnodup, hdistinct⟩ := throughout_object.mp h.distinct
  have hcountable := (throughout_object.mp h.countable).2
  exact ⟨(Members.get?_eq_some_iff (hnodup members rfl)).mpr hm, hdistinct m hm, hcountable m hm⟩

theorem Addressable.step_item {items : List Json} (h : Addressable (.array items)) {i : Nat}
    {item : Json} (hi : items[i]? = some item) :
    step? (.array items) (toString i) = some item ∧ Addressable item := by
  obtain ⟨hcount, hcountable⟩ := throughout_array.mp h.countable
  have hdistinct := (throughout_array.mp h.distinct).2
  obtain ⟨hlt, -⟩ := List.getElem?_eq_some_iff.mp hi
  have hle : i ≤ Pointer.maxIndex := Nat.le_trans (Nat.le_of_lt hlt) (hcount items rfl)
  have hmem := List.mem_of_getElem? hi
  refine ⟨?_, hdistinct item hmem, hcountable item hmem⟩
  rw [step?, Pointer.index?_toString hle, Option.bind_some, hi]

theorem addressable_of_read {text : String} {j : Json} (h : read text = .ok j)
    (hsize : text.toList.length ≤ Pointer.maxIndex) : j.Addressable where
  distinct := distinct_of_read h
  countable := (countable_of_read h).mono fun _ hk items heq => Nat.le_trans (hk items heq) hsize

end Json

namespace Schema

open Pointer (step? follow?)

/-! ## Blame -/

/-- The violation, if there is one, is about a part of the value that `way` leads to. -/
def Blames (value : Json) (way : List String) (x : Option Violation) : Prop :=
  ∀ v, x = some v → ∃ rest part, v.tokens = way ++ rest ∧ follow? value rest = some part

section Combinators

variable {value : Json} {way : List String} {x y : Option Violation}

theorem blames_none : Blames value way none := nofun

theorem Blames.or (hx : Blames value way x) (hy : Blames value way y) :
    Blames value way (x.or y) := by
  cases x with
  | none => exact hy
  | some v => exact hx

theorem blames_findSome? {α : Type} {f : α → Option Violation} {as : List α}
    (h : ∀ a ∈ as, Blames value way (f a)) : Blames value way (as.findSome? f) := by
  intro v hv
  obtain ⟨a, ha, hf⟩ := List.exists_of_findSome?_eq_some hv
  exact h a ha v hf

theorem blames_bind {α : Type} {f : α → Option Violation} {a : Option α}
    (h : ∀ b, a = some b → Blames value way (f b)) : Blames value way (a.bind f) := by
  cases a with
  | none => exact blames_none
  | some b => exact h b rfl

/-- Most complaints are about the value itself. -/
theorem blames_complain {c : Complaint}
    (hc : ∀ names, c ≠ .unexpectedMembers names) :
    Blames value way (complain way c) := by
  rintro _ ⟨⟩
  refine ⟨[], value, ?_, rfl⟩
  rw [List.append_nil, Violation.tokens]
  split
  · rename_i names heq
    exact absurd heq (hc _)
  · rfl

theorem blames_ensure {c : Complaint} (holds : Bool)
    (hc : ∀ names, c ≠ .unexpectedMembers names) :
    Blames value way (ensure way holds c) := by
  cases holds with
  | true => exact blames_none
  | false => exact blames_complain hc

/-- What is about a part is about the value. -/
theorem Blames.part {k : Json} {token : String} (h : Blames k (way ++ [token]) x)
    (hstep : step? value token = some k) : Blames value way x := by
  intro v hv
  obtain ⟨rest, part, htokens, hfollow⟩ := h v hv
  refine ⟨token :: rest, part, by simp [htokens], ?_⟩
  rw [follow?, hstep, Option.bind_some, hfollow]

/-- Names of members are checked as texts, where the object is. -/
theorem Blames.name {name : String} (h : Blames (.string name) way x) : Blames value way x := by
  intro v hv
  obtain ⟨rest, part, htokens, hfollow⟩ := h v hv
  cases rest with
  | nil => exact ⟨[], value, htokens, rfl⟩
  | cons token rest => cases hfollow

end Combinators

section Conditions

variable {here below : Json → Json → List String → Option Violation} {d : Draft}
  {siblings : Members} {keyword : String} {operand : Json} {way : List String}

theorem blames_anyCondition {value : Json}
    (h : ∀ schema, Blames value way (here schema value way)) :
    Blames value way (anyCondition here d siblings keyword operand value way) := by
  unfold anyCondition
  split
  · exact blames_ensure _ nofun
  · exact blames_ensure _ nofun
  · exact blames_ensure _ nofun
  · exact blames_findSome? fun schema _ => h schema
  · exact blames_ensure _ nofun
  · simp only
    split
    · exact blames_complain nofun
    · exact blames_none
    · exact blames_complain nofun
  · exact blames_ensure _ nofun
  · simp only
    split
    · exact blames_bind fun branch _ => h branch
    · exact blames_none
  · exact blames_none

theorem blames_ensureLeast {whole : Json} (counted : Counted) (limit value : Json) :
    Blames whole way (ensureLeast way counted limit value) := by
  unfold ensureLeast
  split
  · exact blames_bind fun _ _ => blames_ensure _ nofun
  · exact blames_none

theorem blames_ensureMost {whole : Json} (counted : Counted) (limit value : Json) :
    Blames whole way (ensureMost way counted limit value) := by
  unfold ensureMost
  split
  · exact blames_bind fun _ _ => blames_ensure _ nofun
  · exact blames_none

theorem blames_ensureBound {whole : Json} (bound : Bound) (limit value : Json) :
    Blames whole way (ensureBound way bound limit value) := by
  unfold ensureBound
  split
  · exact blames_ensure _ nofun
  · exact blames_none

theorem blames_ensureMembers {whole : Json} (names : List Json) (value : Json) :
    Blames whole way (ensureMembers way names value) := by
  unfold ensureMembers
  split
  · exact blames_findSome? fun _ _ => blames_ensure _ nofun
  · exact blames_none

/-- The first of the members that should not be there is one of the members. -/
theorem blames_checkMembers {additional : Json} {members : Members}
    (hmembers : (Json.object members).Addressable)
    (hbelow : ∀ m ∈ members, ∀ schema,
      Blames m.2 (way ++ [m.1]) (below schema m.2 (way ++ [m.1]))) :
    Blames (.object members) way (checkMembers below siblings additional members way) := by
  unfold checkMembers
  refine Blames.or (blames_findSome? fun m hm => ?_) ?_
  · have hstep := (hmembers.step_member hm).1
    simp only
    split
    · exact blames_none
    · exact (hbelow m hm _).part hstep
    · exact blames_findSome? fun schema _ => (hbelow m hm schema).part hstep
  · have hnames (names : List String) (h : ∀ name ∈ names, ∃ j, (name, j) ∈ members) :
        Blames (.object members) way (ensure way names.isEmpty (.unexpectedMembers names)) := by
      cases names with
      | nil => exact blames_none
      | cons name names =>
        rintro _ ⟨⟩
        obtain ⟨j, hj⟩ := h name List.mem_cons_self
        refine ⟨[name], j, rfl, ?_⟩
        rw [follow?, (hmembers.step_member hj).1]
        rfl
    split
    · refine hnames _ fun name hname => ?_
      obtain ⟨m, hm, rfl⟩ := List.mem_map.mp hname
      exact ⟨m.2, (List.mem_filter.mp hm).1⟩
    · exact blames_none

theorem blames_memberCondition {object : Members} (hobject : (Json.object object).Addressable)
    (hhere : ∀ schema, Blames (.object object) way (here schema (.object object) way))
    (hbelow : ∀ part : Json, part.depth < (Json.object object).depth → part.Addressable →
      ∀ schema way, Blames part way (below schema part way)) :
    Blames (.object object) way
      (memberCondition here below d siblings keyword operand object way) := by
  have hmember (m : String × Json) (hm : m ∈ object) (schema : Json) (way : List String) :
      Blames m.2 way (below schema m.2 way) :=
    hbelow m.2 (Json.depth_lt_of_member hm) (hobject.step_member hm).2 schema way
  have hdependent (entries : Members) :
      Blames (.object object) way
        (memberCondition.dependent here object way entries (.object object)) := by
    refine blames_findSome? fun (name, need) _ => ?_
    simp only
    split
    · split
      · exact blames_ensureMembers _ _
      · exact hhere _
    · exact blames_none
  unfold memberCondition
  simp only
  split
  · split
    · exact blames_none
    · refine blames_findSome? fun (name, schema) _ => blames_bind fun member hget => ?_
      have hm := Members.mem_of_get? hget
      exact (hmember _ hm _ _).part (hobject.step_member hm).1
  · split
    · exact blames_none
    · refine blames_findSome? fun (pattern, _) _ => blames_findSome? fun (name, member) hm => ?_
      simp only
      split
      · exact (hmember _ hm _ _).part (hobject.step_member hm).1
      · exact blames_none
  · split
    · exact blames_checkMembers hobject fun m hm schema => hmember m hm schema _
    · split
      · exact blames_none
      · exact blames_complain nofun
  · exact blames_checkMembers hobject fun m hm schema => hmember m hm schema _
  · exact blames_ensure _ nofun
  · split
    · exact blames_findSome? fun (name, _) _ =>
        (hbelow (.string name) (Nat.succ_pos _) ⟨nofun, nofun⟩ _ _).name
    · exact blames_none
  · exact blames_ensureMembers _ _
  · exact hdependent _
  · split
    · exact hdependent _
    · exact blames_none
  · split
    · exact hdependent _
    · exact blames_none
  · exact blames_ensureLeast _ _ _
  · exact blames_ensureMost _ _ _
  · exact blames_none

theorem blames_checkItems {check : Json → List String → Option Violation} {items : List Json}
    {start : Nat} (hitems : (Json.array items).Addressable)
    (h : ∀ j ∈ items, ∀ way, Blames j way (check j way)) :
    Blames (.array items) way (checkItems check items start way) := by
  refine blames_findSome? fun (item, i) hm => ?_
  have hi := List.mk_mem_zipIdx_iff_getElem?.mp (List.mem_of_mem_drop hm)
  exact (h item (List.mem_of_getElem? hi) _).part (hitems.step_item hi).1

theorem blames_checkTuple {schemas items : List Json} (hitems : (Json.array items).Addressable)
    (h : ∀ j ∈ items, ∀ schema way, Blames j way (below schema j way)) :
    Blames (.array items) way (checkTuple below schemas items way) := by
  refine blames_findSome? fun ((schema, item), i) hm => ?_
  have hzip := List.mk_mem_zipIdx_iff_getElem?.mp hm
  obtain ⟨-, hi⟩ := List.getElem?_zip_eq_some.mp hzip
  exact (h item (List.mem_of_getElem? hi) schema _).part (hitems.step_item hi).1

theorem blames_itemCondition {items : List Json} (hitems : (Json.array items).Addressable)
    (h : ∀ j ∈ items, ∀ schema way, Blames j way (below schema j way)) :
    Blames (.array items) way (itemCondition below d siblings keyword operand items way) := by
  have hall (schema : Json) (start : Nat) :
      Blames (.array items) way (checkItems (below schema) items start way) :=
    blames_checkItems hitems fun j hj => h j hj schema
  unfold itemCondition
  simp only
  split
  · split
    · exact blames_none
    · exact blames_checkTuple hitems h
  · exact hall _ _
  · split
    · exact blames_checkTuple hitems h
    · exact blames_none
  · split
    · split
      · exact blames_none
      · exact blames_ensure _ nofun
    · split
      · exact blames_none
      · exact hall _ _
    · exact blames_none
  · split
    · exact blames_ensure _ nofun
    · exact blames_none
  · exact blames_ensure _ nofun
  · exact blames_ensureLeast _ _ _
  · exact blames_ensureMost _ _ _
  · exact blames_none

theorem blames_numberCondition {value : Json} :
    Blames value way (numberCondition d siblings keyword operand value way) := by
  unfold numberCondition
  split
  · exact blames_ensureBound _ _ _
  · exact blames_ensureBound _ _ _
  · exact blames_ensureBound _ _ _
  · exact blames_ensureBound _ _ _
  · exact blames_ensure _ nofun
  · exact blames_none

theorem blames_stringCondition {value : Json} {text : String} :
    Blames value way (stringCondition d keyword operand text way) := by
  unfold stringCondition
  split
  · exact blames_ensureLeast _ _ _
  · exact blames_ensureMost _ _ _
  · exact blames_ensure _ nofun
  · exact blames_ensure _ nofun
  · exact blames_none

end Conditions

/-! ## Checks -/

/-- The check blames what it is given. -/
def Checker.BlamesIn (below : Checker) (value : Json) : Prop :=
  ∀ part : Json, part.depth < value.depth → part.Addressable →
    ∀ s schema way, Blames part way (below s schema part way)

section Checks

variable {here below : Checker} {value : Json}

theorem blames_condition (hvalue : value.Addressable) {way : List String}
    (hhere : ∀ s schema, Blames value way (here s schema value way))
    (hbelow : below.BlamesIn value) (s : Scope) (siblings : Members) (keyword : String)
    (operand : Json) :
    Blames value way (condition here below s siblings keyword operand value way) := by
  unfold condition
  split
  · split
    · exact hhere _ _
    · exact blames_none
  · refine Blames.or (blames_anyCondition fun schema => hhere (s.nested schema) schema) ?_
    unfold kindCondition
    split
    · exact blames_memberCondition hvalue (fun schema => hhere (s.nested schema) schema)
        fun part hpart haddressable schema way => hbelow part hpart haddressable _ _ _
    · exact blames_itemCondition hvalue fun j hj schema way => by
        obtain ⟨i, hi⟩ := List.mem_iff_getElem?.mp hj
        exact hbelow j (Json.depth_lt_of_item hj) (hvalue.step_item hi).2 _ _ _
    · exact blames_numberCondition
    · exact blames_stringCondition
    · exact blames_none

theorem blames_checkWithin (hvalue : value.Addressable) (hbelow : below.BlamesIn value) (fuel : Nat)
    (s : Scope) (schema : Json) (way : List String) :
    Blames value way (checkWithin below fuel s schema value way) := by
  induction fuel generalizing s schema with
  | zero => exact blames_none
  | succ fuel ih =>
    unfold checkWithin
    split
    · exact blames_complain nofun
    · exact blames_findSome? fun _ _ => blames_condition hvalue ih hbelow _ _ _ _
    · exact blames_none

end Checks

theorem blames_checkDeep (fuel depth : Nat) {value : Json} (hvalue : value.Addressable) (s : Scope)
    (schema : Json) (way : List String) :
    Blames value way (checkDeep fuel depth s schema value way) := by
  induction depth generalizing value s schema way with
  | zero => exact blames_checkWithin hvalue (fun _ _ _ _ _ _ => blames_none) _ _ _ _
  | succ depth ih => exact blames_checkWithin hvalue (fun _ _ h _ _ _ => ih h _ _ _) _ _ _ _

/-- A schema rejects a value because of a part that is there. -/
theorem follow?_of_violation? {schema : Schema} {value : Json} (hvalue : value.Addressable)
    {v : Violation} (h : schema.violation? value = some v) :
    ∃ part, follow? value v.tokens = some part := by
  obtain ⟨rest, part, htokens, hfollow⟩ := blames_checkDeep _ _ hvalue _ _ _ v h
  rw [List.nil_append] at htokens
  exact ⟨part, htokens ▸ hfollow⟩

end Schema

end DeliveryRules
