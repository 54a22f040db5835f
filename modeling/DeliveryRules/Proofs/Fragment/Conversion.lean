import DeliveryRules.Proofs.Fragment.Grammar
import DeliveryRules.Proofs.Fragment.Placing
import DeliveryRules.Proofs.Json.Values

/-!
# What fits the grammar can be converted

The schema of fragments and the records that fragments are read into were written apart. Here they
meet.

- **What a value says** (`FragmentEntry.saidBy`, `FragmentVariable.saidBy`, `FragmentHead.saidBy`,
  `Json.SaysRule`): by the names of members alone, without an order in which they are read.
- **Records** (`RecordShape.decode_object`): a record is read from an object member by member, so
  what each member adds is all there is to know.
- **Rules** (`FragmentRule.decode_of_isRule`): a rule of the grammar is read without error, and what
  is read is what the value says.
-/

namespace DeliveryRules

/-! ## What a value says -/

namespace Json

/-- The items of an array; no other value has items. -/
def items : Json → List Json
  | .array items => items
  | _ => []

def isTrue : Json → Bool
  | .bool b => b
  | _ => false

/-- The items of the array under a name. -/
def itemsOf (j : Json) (name : String) : List Json := ((j.member? name).map items).getD []

/-- Whether there is a flag under a name and it is set. -/
def flagOf (j : Json) (name : String) : Bool := ((j.member? name).map isTrue).getD false

end Json

/-- The policy of a name. -/
def MatchPolicy.named? (name : String) : Option MatchPolicy :=
  [MatchPolicy.any, .all].find? (·.name = name)

def FragmentEntry.saidBy (j : Json) : FragmentEntry where
  name := (j.memberString? "name").getD ""
  options := (j.member? "options").getD .null

def FragmentVariable.saidBy (j : Json) : FragmentVariable where
  name := (j.memberString? "name").getD ""
  description := j.memberString? "description"
  hidden := j.flagOf "hidden"
  sensitive := j.flagOf "sensitive"

def FragmentHead.saidBy (j : Json) : FragmentHead where
  name := j.memberString? "name"
  comment := j.memberString? "comment"
  policy := (j.memberString? "matchPolicy").bind MatchPolicy.named?
  criteria := (j.itemsOf "criteria").map .saidBy
  behaviors := (j.itemsOf "behaviors").map .saidBy
  declared := (j.itemsOf "variables").map .saidBy

namespace Json

mutual

/-- The object says what the rule and the rules below it say, in the same order. -/
inductive SaysRule : Json → FragmentRule → Prop
  | mk {members : Members} {cs : List FragmentChild}
      (below : List.Forall₂ SaysChild ((object members).itemsOf "children") cs) :
      SaysRule (.object members) (.mk (.saidBy (.object members)) cs)

inductive SaysChild : Json → FragmentChild → Prop
  | mention {text : String} : SaysChild (.string text) (.mention text)
  | rule {j : Json} {r : FragmentRule} (h : SaysRule j r) : SaysChild j (.rule r)

end

end Json

/-! ## Records -/

/-- A new member leads to its value, and changes nothing for other names. -/
theorem Json.member?_snoc {ms : Members} {name : String} (hnew : name ∉ ms.map (·.1)) (value : Json)
    (other : String) : (Json.object (ms ++ [(name, value)])).member? other =
      if other = name then some value else (Json.object ms).member? other := by
  rw [← Members.set_of_notMem hnew]
  exact Members.get?_set ms name value other

namespace RecordShape

variable {α : Type} {s : RecordShape α} {R : Members → α → Prop}

/-- Members are taken one after the other. `R` relates those that were taken to the record. -/
theorem foldlM_put {taken members : Members} (hnodup : ((taken ++ members).map (·.1)).Nodup)
    (hput : ∀ taken name j x, name ∉ taken.map (·.1) → (name, j) ∈ members → R taken x →
      name ∈ s.fields → ∃ y, s.put x name j = .ok y ∧ R (taken ++ [(name, j)]) y)
    (hskip : ∀ taken name j x, name ∉ taken.map (·.1) → R taken x → name ∉ s.fields →
      R (taken ++ [(name, j)]) x) {x : α} (h : R taken x) :
    ∃ y, members.foldlM (fun x m => if s.fields.contains m.1 then s.put x m.1 m.2 else .ok x) x =
      Except.ok y ∧ R (taken ++ members) y := by
  induction members generalizing taken x with
  | nil => exact ⟨x, rfl, by rwa [List.append_nil]⟩
  | cons m members ih =>
    obtain ⟨name, j⟩ := m
    have hnew : name ∉ taken.map (·.1) := by
      rw [List.map_append, List.nodup_append] at hnodup
      exact fun hm => hnodup.2.2 name hm name (by simp) rfl
    have hrest : ((taken ++ [(name, j)] ++ members).map (·.1)).Nodup := by
      rwa [List.append_assoc]
    have hstep : ∃ y, (if s.fields.contains name then s.put x name j else .ok x) = .ok y ∧
        R (taken ++ [(name, j)]) y := by
      by_cases hfield : name ∈ s.fields
      · rw [if_pos (List.contains_iff_mem.mpr hfield)]
        exact hput taken name j x hnew List.mem_cons_self h hfield
      · rw [if_neg (mt List.contains_iff_mem.mp hfield)]
        exact ⟨x, rfl, hskip taken name j x hnew h hfield⟩
    obtain ⟨y, hy, hR⟩ := hstep
    obtain ⟨z, hz, hR⟩ := ih hrest (fun taken name j x hnew hmem =>
      hput taken name j x hnew (List.mem_cons_of_mem _ hmem)) hR
    refine ⟨z, ?_, by rwa [List.append_assoc] at hR⟩
    rw [List.foldlM_cons, hy]
    exact hz

/-- A record is read from an object whose members it can take, if the fields that it needs are
there. -/
theorem decode_object {members : Members} (hnodup : (members.map (·.1)).Nodup) {blank : α}
    (hblank : R [] blank)
    (hput : ∀ taken name j x, name ∉ taken.map (·.1) → (name, j) ∈ members → R taken x →
      name ∈ s.fields → ∃ y, s.put x name j = .ok y ∧ R (taken ++ [(name, j)]) y)
    (hskip : ∀ taken name j x, name ∉ taken.map (·.1) → R taken x → name ∉ s.fields →
      R (taken ++ [(name, j)]) x)
    (hrequired : ∀ name ∈ s.fields.take s.required, Members.has members name) :
    ∃ x, s.decode blank (.object members) = .ok x ∧ R members x := by
  have hnodup' : (([] ++ members : Members).map (·.1)).Nodup := hnodup
  obtain ⟨x, hx, hR⟩ := foldlM_put hnodup' hput hskip hblank
  have hfound : (s.fields.take s.required).find? (!Members.has members ·) = none := by
    refine List.find?_eq_none.mpr fun name hname => ?_
    simp [hrequired name hname]
  refine ⟨x, ?_, hR⟩
  rw [decode, hx]
  simp only [bind, Except.bind, hfound]
  rfl

/-- A record that is nothing but what its members say. -/
theorem decode_saidBy {members : Members} (hnodup : (members.map (·.1)).Nodup) {f : Json → α}
    (hput : ∀ taken name j, name ∉ taken.map (·.1) → (name, j) ∈ members → name ∈ s.fields →
      s.put (f (.object taken)) name j = .ok (f (.object (taken ++ [(name, j)]))))
    (hskip : ∀ taken name j, name ∉ taken.map (·.1) → name ∉ s.fields →
      f (.object (taken ++ [(name, j)])) = f (.object taken))
    (hrequired : ∀ name ∈ s.fields.take s.required, Members.has members name) :
    s.decode (f (.object [])) (.object members) = .ok (f (.object members)) := by
  have hread : ∃ x, s.decode (f (.object [])) (.object members) = .ok x ∧
      x = f (.object members) := by
    refine decode_object (R := fun taken x => x = f (.object taken)) hnodup rfl ?_ ?_ hrequired
    · rintro taken name j _ hnew hmem rfl hfield
      exact ⟨_, hput taken name j hnew hmem hfield, rfl⟩
    · rintro taken name j _ hnew rfl hfield
      exact (hskip taken name j hnew hfield).symm
  obtain ⟨x, hx, rfl⟩ := hread
  exact hx

end RecordShape

/-- A list is read item by item. -/
theorem Decoder.listOf_array {α : Type} {item : Decoder α} {R : Json → α → Prop}
    {items : List Json} (h : ∀ j ∈ items, ∃ a, item j = .ok a ∧ R j a) :
    ∃ as, Decoder.listOf item (.array items) = .ok as ∧ List.Forall₂ R items as := by
  induction items with
  | nil => exact ⟨[], rfl, .nil⟩
  | cons j js ih =>
    rw [List.forall_mem_cons] at h
    obtain ⟨a, ha, hR⟩ := h.1
    obtain ⟨as, has, hrest⟩ := ih h.2
    refine ⟨a :: as, ?_, .cons hR hrest⟩
    rw [Decoder.listOf] at has ⊢
    rw [List.mapM_cons, ha, has]
    rfl

/-- Items of a known form are read one by one. -/
theorem Decoder.listOf_map {α : Type} {item : Decoder α} {f : Json → α} {P : Json → Prop}
    {items : List Json}
    (h : ∀ {j : Json}, P j → j.Throughout Json.Distinct → item j = .ok (f j))
    (hitems : ∀ j ∈ items, P j) (hd : (Json.array items).Throughout Json.Distinct) :
    Decoder.listOf item (.array items) = .ok (items.map f) := by
  have hdistinct := (Json.throughout_array.mp hd).2
  obtain ⟨as, has, hall⟩ := listOf_array (R := fun j a => a = f j) fun j hj =>
    ⟨f j, h (hitems j hj) (hdistinct j hj), rfl⟩
  have heq : items.map f = as := by
    rw [← List.forall₂_eq_eq_eq, List.forall₂_map_left_iff]
    exact hall.imp fun _ _ => Eq.symm
  rw [has, heq]

/-! ## Entries and variables -/

section Reading

variable {c : Catalog} {j : Json}

theorem FragmentEntry.decode_of_isEntry {kind : Capability.Kind} (h : Grammar.IsEntry c kind j)
    (hd : j.Throughout Json.Distinct) : FragmentEntry.decode j = .ok (.saidBy j) := by
  cases h with
  | @object members hmembers hname _ =>
    have hnodup := (Json.throughout_object.mp hd).1 members rfl
    refine RecordShape.decode_saidBy (f := saidBy) hnodup ?_ ?_ (by simpa [shape] using hname)
    · intro taken name value hnew hmem hfield
      cases hmembers _ hmem with
      | provenance => simp [shape] at hfield
      | _ =>
        simp [shape, saidBy, Json.memberString?, Json.member?_snoc hnew, Json.asString?,
          Decoder.string, pure, Except.pure, bind, Except.bind]
    · intro taken name value hnew hfield
      simp only [shape, List.mem_cons, List.not_mem_nil, or_false, not_or] at hfield
      simp [saidBy, Json.memberString?, Json.member?_snoc hnew, Ne.symm hfield.1,
        Ne.symm hfield.2]

theorem FragmentVariable.decode_of_isVariable (h : Grammar.IsVariable j)
    (hd : j.Throughout Json.Distinct) : FragmentVariable.decode j = .ok (.saidBy j) := by
  cases h with
  | @object members hmembers hname =>
    have hnodup := (Json.throughout_object.mp hd).1 members rfl
    refine RecordShape.decode_saidBy (f := saidBy) hnodup ?_ ?_ (by simpa [shape] using hname)
    · intro taken name value hnew hmem hfield
      cases hmembers _ hmem with
      | name _ =>
        simp [shape, saidBy, Json.memberString?, Json.member?_snoc hnew, Json.asString?,
          Json.flagOf, Decoder.string, pure, Except.pure, bind, Except.bind]
      | text hname =>
        simp only [List.mem_cons, List.not_mem_nil, or_false] at hname
        rcases hname with rfl | rfl | rfl <;>
          simp [shape, saidBy, Json.memberString?, Json.member?_snoc hnew, Json.asString?,
            Json.flagOf, Decoder.string, Decoder.optional, Except.map, pure, Except.pure, bind,
            Except.bind] at hfield ⊢
      | flag hname =>
        simp only [List.mem_cons, List.not_mem_nil, or_false] at hname
        rcases hname with rfl | rfl <;>
          simp [shape, saidBy, Json.memberString?, Json.member?_snoc hnew, Json.isTrue,
            Json.flagOf, Decoder.bool, pure, Except.pure, bind, Except.bind]
    · intro taken name value hnew hfield
      simp only [shape, List.mem_cons, List.not_mem_nil, or_false, not_or] at hfield
      simp [saidBy, Json.memberString?, Json.flagOf, Json.member?_snoc hnew, Ne.symm hfield.1,
        Ne.symm hfield.2.1, Ne.symm hfield.2.2.1, Ne.symm hfield.2.2.2]

/-! ## Rules -/

namespace FragmentRule

variable {rule : Decoder FragmentRule} {taken : Members} {name : String}

/-- A member other than the children is taken for what it says of the rule itself. -/
theorem put_head (hd : j.Throughout Json.Distinct) (hnew : name ∉ taken.map (·.1))
    (hmember : Grammar.IsRuleMember c name j) (hfield : name ∈ (shape rule).fields)
    (hname : "children" ≠ name) (cs : List FragmentChild) :
    (shape rule).put (.mk (.saidBy (.object taken)) cs) name j =
      .ok (.mk (.saidBy (.object (taken ++ [(name, j)]))) cs) := by
  have hsaid (j : Json) (hnew : name ∉ taken.map (·.1)) :
      FragmentHead.saidBy (.object (taken ++ [(name, j)])) =
        { name := if "name" = name then j.asString? else (Json.object taken).memberString? "name"
          comment :=
            if "comment" = name then j.asString? else (Json.object taken).memberString? "comment"
          policy := (if "matchPolicy" = name then j.asString?
            else (Json.object taken).memberString? "matchPolicy").bind MatchPolicy.named?
          criteria := (if "criteria" = name then j.items
            else (Json.object taken).itemsOf "criteria").map .saidBy
          behaviors := (if "behaviors" = name then j.items
            else (Json.object taken).itemsOf "behaviors").map .saidBy
          declared := (if "variables" = name then j.items
            else (Json.object taken).itemsOf "variables").map .saidBy } := by
    simp only [FragmentHead.saidBy, Json.memberString?, Json.itemsOf, Json.member?_snoc hnew]
    congr 1 <;> split <;> rfl
  rw [hsaid j hnew]
  cases hmember with
  | @text _ text hmem =>
    simp only [List.mem_cons, List.not_mem_nil, or_false] at hmem
    rcases hmem with rfl | rfl | rfl | rfl
    · simp [shape] at hfield
    · rfl
    · rfl
    · simp [shape] at hfield
  | @matchPolicy text hmem =>
    simp only [List.mem_cons, List.not_mem_nil, or_false] at hmem
    rcases hmem with rfl | rfl <;> rfl
  | criteria hitems =>
    have hread := Decoder.listOf_map FragmentEntry.decode_of_isEntry hitems hd
    simp only [shape]
    rw [hread]
    rfl
  | behaviors hitems =>
    have hread := Decoder.listOf_map FragmentEntry.decode_of_isEntry hitems hd
    simp only [shape]
    rw [hread]
    rfl
  | declarations hitems =>
    have hread := Decoder.listOf_map FragmentVariable.decode_of_isVariable hitems hd
    simp only [shape]
    rw [hread]
    rfl
  | children _ => exact absurd rfl hname

/-- The children of a rule are read one by one. -/
theorem put_children {items : List Json}
    (hitems : ∀ i ∈ items, ∃ child, decodeChild rule i = .ok child ∧ i.SaysChild child)
    (hnew : "children" ∉ taken.map (·.1)) (cs : List FragmentChild) :
    ∃ r, (shape rule).put (.mk (.saidBy (.object taken)) cs) "children" (.array items) = .ok r ∧
      (Json.object (taken ++ [("children", .array items)])).SaysRule r := by
  obtain ⟨cs', hread, hbelow⟩ := Decoder.listOf_array hitems
  have hsame : FragmentHead.saidBy (.object taken) =
      .saidBy (.object (taken ++ [("children", .array items)])) := by
    simp [FragmentHead.saidBy, Json.memberString?, Json.itemsOf, Json.member?_snoc hnew]
  refine ⟨.mk (.saidBy (.object taken)) cs', ?_, ?_⟩
  · simp only [shape]
    rw [hread]
    rfl
  · rw [hsame]
    refine .mk ?_
    rwa [Json.itemsOf, Json.member?_snoc hnew, if_pos rfl]

/-- A child is read, if the rules among the children are. -/
theorem decodeChild_of_isChild (h : Grammar.IsChild c j)
    (hrule : Grammar.IsRule c j → ∃ r, rule j = .ok r ∧ j.SaysRule r) :
    ∃ child, decodeChild rule j = .ok child ∧ j.SaysChild child := by
  cases h with
  | mention _ => exact ⟨_, rfl, .mention⟩
  | rule h =>
    obtain ⟨r, hr, hstated⟩ := hrule h
    refine ⟨.rule r, ?_, .rule hstated⟩
    cases h with
    | object _ =>
      rw [decodeChild, hr]
      nofun

/-- A rule of the grammar is read, if the bound on the depth allows it, and is what the value
says. -/
theorem decodeWithin_of_isRule {fuel : Nat} (hfuel : j.depth < fuel) (h : Grammar.IsRule c j)
    (hd : j.Throughout Json.Distinct) : ∃ r, decodeWithin fuel j = .ok r ∧ j.SaysRule r := by
  induction fuel generalizing j with
  | zero => exact absurd hfuel (Nat.not_lt_zero _)
  | succ fuel ih =>
    cases h with
    | @object members hmembers =>
      obtain ⟨hnodup, hparts⟩ := Json.throughout_object.mp hd
      refine RecordShape.decode_object (R := fun taken r => (Json.object taken).SaysRule r)
        (hnodup members rfl) (.mk .nil) ?_ ?_ nofun
      · rintro taken name value _ hnew hmem ⟨below⟩ hfield
        by_cases hname : "children" = name
        · cases hmembers _ hmem with
          | text hmem =>
            subst hname
            simp at hmem
          | children hitems =>
            refine put_children (fun i hi => decodeChild_of_isChild (hitems i hi) fun hrule => ?_)
              hnew _
            have hitem : i.depth < (Json.array _).depth := Json.depth_lt_of_item hi
            have hmember := Json.depth_lt_of_member hmem
            exact ih (by omega) hrule ((Json.throughout_array.mp (hparts _ hmem)).2 i hi)
          | _ => exact absurd hname (by decide)
        · refine ⟨_, put_head (hparts _ hmem) hnew (hmembers _ hmem) hfield hname _, .mk ?_⟩
          rwa [Json.itemsOf, Json.member?_snoc hnew, if_neg hname]
      · rintro taken name value _ hnew ⟨below⟩ hfield
        simp only [shape, List.mem_cons, List.not_mem_nil, or_false, not_or] at hfield
        have hhead : FragmentHead.saidBy (.object taken) =
            .saidBy (.object (taken ++ [(name, value)])) := by
          simp [FragmentHead.saidBy, Json.memberString?, Json.itemsOf, Json.member?_snoc hnew,
            Ne.symm hfield.1, Ne.symm hfield.2.1, Ne.symm hfield.2.2.1, Ne.symm hfield.2.2.2.1,
            Ne.symm hfield.2.2.2.2.1, Ne.symm hfield.2.2.2.2.2.1]
        rw [hhead]
        refine .mk ?_
        rwa [Json.itemsOf, Json.member?_snoc hnew, if_neg (Ne.symm hfield.2.2.2.2.2.2)]

/-- Whatever fits the grammar of fragments and gives no name twice can be read. -/
theorem decode_of_isRule (h : Grammar.IsRule c j) (hd : j.Throughout Json.Distinct) :
    ∃ r, decode j = .ok r ∧ j.SaysRule r :=
  decodeWithin_of_isRule (Nat.lt_succ_self _) h hd

end FragmentRule

end Reading

end DeliveryRules
