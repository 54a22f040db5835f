import DeliveryRules.Proofs.Compiler.Order
import DeliveryRules.Proofs.Compiler.Provenance

/-!
# Documents tell trees apart

- **Values** (`Capability.toJson_injective`, `Variable.toJson_injective`): a capability and a
  variable are known from their values.
- **Rules** (`Rule.toMembers_eq_iff`): the members of a rule say all of it, but for the comment of a
  rule that came from nowhere: there an empty one is written like none (`Rule.Agrees`).
- **Trees** (`ruleJson_eq_iff`): rule for rule, a document says what its tree is
  (`Sketch.Agrees`), whatever numbers the rules have. So `rules_eq_iff` for whole trees.
- **Members** (`Json.InOrder`): the members of a rule have a fixed order, and no list among them is
  empty (`inOrder_toMembers`).
- `Compiler.compile_faithful`: what a document tells of the tree it was compiled from.
-/

namespace DeliveryRules

/-! ## Values -/

theorem Capability.toJson_injective {c c' : Capability} (h : c.toJson = c'.toJson) : c = c' := by
  obtain ⟨name, options, ⟨provenance⟩⟩ := c
  obtain ⟨name', options', ⟨provenance'⟩⟩ := c'
  simpa [toJson] using h

theorem Variable.toJson_injective {v v' : Variable} (h : v.toJson = v'.toJson) : v = v' := by
  obtain ⟨name, description, hidden, sensitive, ⟨provenance⟩⟩ := v
  obtain ⟨name', description', hidden', sensitive', ⟨provenance'⟩⟩ := v'
  simpa [toJson] using h

theorem MatchPolicy.name_injective {p p' : MatchPolicy} (h : p.name = p'.name) : p = p' := by
  cases p <;> cases p' <;> first | rfl | exact absurd h (by decide)

theorem filled_injective {items items' : List Json} (h : filled items = filled items') :
    items = items' := by
  cases items <;> cases items' <;> simp_all [filled]

/-! ## Rules -/

/-- Rules of which the same is written. An empty comment counts as none where a rule came from
nowhere. -/
structure Rule.Agrees (r r' : Rule) : Prop where
  label_eq : r.label = r'.label
  provenance_eq : r.provenance = r'.provenance
  policy_eq : r.policy = r'.policy
  criteria_eq : r.criteria = r'.criteria
  behaviors_eq : r.behaviors = r'.behaviors
  comment_eq : if r.provenance.isSome then r.comment = r'.comment
    else r.comment.getD "" = r'.comment.getD ""

/-- A remark and the provenance below it say what the comment is. -/
theorem Rule.remark_eq_iff {r r' : Rule} (h : r.provenance = r'.provenance) :
    r.remark = r'.remark ↔
      if r.provenance.isSome then r.comment = r'.comment
      else r.comment.getD "" = r'.comment.getD "" := by
  rw [remark, remark, ← h]
  cases r.provenance with
  | none => cases r.comment <;> cases r'.comment <;> simp
  | some p =>
    rw [if_pos (show (some p).isSome = true from rfl)]
    cases r.comment <;> cases r'.comment
    · simp
    · rw [eq_comm]
      simp
    · simp
    · simp [← String.toList_inj]

theorem Rule.toMembers_eq_iff {r r' : Rule} {declared declared' children children' : List Json} :
    r.toMembers declared children = r'.toMembers declared' children' ↔
      r.Agrees r' ∧ declared = declared' ∧ children = children' := by
  constructor
  · intro h
    have member (token : String) : Members.get? (r.toMembers declared children) token =
        Members.get? (r'.toMembers declared' children') token := by rw [h]
    simp only [get?_toMembers] at member
    have hname : r.label = r'.label := by simpa using member "name"
    have hremark : r.remark = r'.remark := by simpa using member "comment"
    have hprovenance : (r.provenance.map fun p => Json.string p.text) =
        r'.provenance.map fun p => Json.string p.text := member "provenance"
    have hpolicy : (r.policy.map fun p => Json.string p.name) =
        r'.policy.map fun p => Json.string p.name := member "matchPolicy"
    have hsame : r.provenance = r'.provenance := by
      refine Option.map_injective (f := fun p : Provenance => Json.string p.text) ?_ hprovenance
      rintro ⟨text⟩ ⟨text'⟩ htext
      simpa using htext
    have hcapabilities {cs cs' : List Capability}
        (h : filled (cs.map Capability.toJson) = filled (cs'.map Capability.toJson)) : cs = cs' :=
      List.map_injective_iff.mpr (fun _ _ => Capability.toJson_injective) (filled_injective h)
    refine ⟨⟨hname, hsame, ?_, hcapabilities (member "criteria"),
      hcapabilities (member "behaviors"), (remark_eq_iff hsame).mp hremark⟩,
      filled_injective (member "variables"), filled_injective (member "children")⟩
    refine Option.map_injective (f := fun p : MatchPolicy => Json.string p.name) ?_ hpolicy
    intro p p' hp
    exact MatchPolicy.name_injective (by simpa using hp)
  · rintro ⟨⟨hlabel, hprovenance, hpolicy, hcriteria, hbehaviors, hcomment⟩, rfl, rfl⟩
    rw [toMembers, toMembers, hlabel, (remark_eq_iff hprovenance).mpr hcomment, hprovenance,
      hpolicy, hcriteria, hbehaviors]

/-! ## Trees -/

/-- Rule for rule, the same is written of both sketches. -/
inductive Sketch.Agrees : Sketch → Sketch → Prop
  | node {r r' : Rule} {children children' : List Sketch} (rule : r.Agrees r')
      (below : List.Forall₂ Agrees children children') :
      Agrees (.node r children) (.node r' children')

namespace RuleTree

variable {t t' : RuleTree}

theorem WellFormed.variablesAt_child (ht : t.WellFormed) {id k : Nat} (hk : k ∈ t.childrenOf id) :
    t.variablesAt k = [] := by
  have hne : k ≠ rootId := Nat.ne_of_gt (Nat.lt_of_le_of_lt (Nat.zero_le _) (ht.child hk).1)
  rw [variablesAt, if_neg hne]

/-- The document of a rule says what stands below it, and which variables stand with it. -/
theorem ruleJson_eq_iff (ht : t.WellFormed) (ht' : t'.WellFormed) :
    ∀ id < t.size, ∀ id' < t'.size, t.ruleJson id = t'.ruleJson id' ↔
      (t.sketchAt id).Agrees (t'.sketchAt id') ∧ t.variablesAt id = t'.variablesAt id' := by
  refine ht.descending.induction fun id hid ih id' hid' => ?_
  have hvariables : (t.variablesAt id).map Variable.toJson =
      (t'.variablesAt id').map Variable.toJson ↔ t.variablesAt id = t'.variablesAt id' :=
    (List.map_injective_iff.mpr fun _ _ => Variable.toJson_injective).eq_iff
  have hchildren : (t.childrenOf id).map t.ruleJson = (t'.childrenOf id').map t'.ruleJson ↔
      List.Forall₂ Sketch.Agrees ((t.childrenOf id).map t.sketchAt)
        ((t'.childrenOf id').map t'.sketchAt) := by
    have hiff : ∀ k ∈ t.childrenOf id, ∀ k' ∈ t'.childrenOf id',
        t.ruleJson k = t'.ruleJson k' ↔ (t.sketchAt k).Agrees (t'.sketchAt k') := by
      intro k hk k' hk'
      rw [ih k hk k' (ht'.child hk').2, ht.variablesAt_child hk, ht'.variablesAt_child hk']
      exact and_iff_left rfl
    rw [← List.forall₂_eq_eq_eq, List.forall₂_map_left_iff, List.forall₂_map_right_iff,
      List.forall₂_map_left_iff, List.forall₂_map_right_iff, List.forall₂_iff_zip,
      List.forall₂_iff_zip]
    refine and_congr_right fun _ => forall₂_congr fun k k' => forall_congr' fun hmem => ?_
    obtain ⟨hk, hk'⟩ := List.of_mem_zip hmem
    exact hiff k hk k' hk'
  rw [ruleJson_eq ht.descending hid, ruleJson_eq ht'.descending hid', sketchAt_eq ht hid,
    sketchAt_eq ht' hid', Json.object.injEq, Rule.toMembers_eq_iff, hvariables, hchildren]
  constructor
  · rintro ⟨hrule, hdeclared, hbelow⟩
    exact ⟨.node hrule hbelow, hdeclared⟩
  · rintro ⟨hagrees, hdeclared⟩
    cases hagrees with
    | node hrule hbelow => exact ⟨hrule, hdeclared, hbelow⟩

theorem rules_eq_iff (ht : t.WellFormed) (ht' : t'.WellFormed) :
    t.rules = t'.rules ↔
      (t.sketchAt rootId).Agrees (t'.sketchAt rootId) ∧ t.declared = t'.declared :=
  ruleJson_eq_iff ht ht' rootId ht.size_pos rootId ht'.size_pos

/-- One object of the document stands for each rule. -/
theorem Ordered.length_ruleObjects (h : t.Ordered) : t.rules.ruleObjects.length = t.size := by
  rw [h.document, List.length_map, h.once.length_eq, List.length_range]

end RuleTree

/-! ## Members -/

/-- The names of the members of a rule, in their order. -/
def Rule.memberNames : List String :=
  ["name", "comment", "provenance", "criteria", "matchPolicy", "variables", "behaviors", "children"]

/-- An object with the members of a rule in their order, where no list is empty. -/
def Json.InOrder (j : Json) : Prop :=
  ∃ members, j = .object members ∧ ["name", "comment"] <+: members.map (·.1) ∧
    (members.map (·.1)).Sublist Rule.memberNames ∧
    ∀ name ∈ ["criteria", "variables", "behaviors", "children"], ∀ value, (name, value) ∈ members →
      ∃ item items, value = .array (item :: items)

theorem names_unlessEmpty (name : String) (items : List Json) :
    ((unlessEmpty name items).map (·.1)).Sublist [name] := by
  cases items with
  | nil => exact List.nil_sublist _
  | cons item items => exact List.Sublist.refl _

theorem names_optional {α : Type} (name : String) (value : Option α) (f : α → Json) :
    ((value.map fun a => (name, f a)).toList.map (·.1)).Sublist [name] := by
  cases value with
  | none => exact List.nil_sublist _
  | some a => exact List.Sublist.refl _

theorem ne_nil_of_mem_unlessEmpty {name : String} {items : List Json} {m : String × Json}
    (h : m ∈ unlessEmpty name items) : ∃ item items, m.2 = .array (item :: items) := by
  cases items with
  | nil => cases h
  | cons item items => exact ⟨item, items, by rw [eq_of_mem_unlessEmpty h]⟩

theorem Rule.inOrder_toMembers (r : Rule) (declared children : List Json) :
    (Json.object (r.toMembers declared children)).InOrder := by
  refine ⟨_, rfl, ?_, ?_, ?_⟩
  · simp [toMembers, List.append_assoc]
  · simp only [toMembers, List.map_append]
    exact (((((((List.Sublist.refl ["name", "comment"]).append (names_optional _ _ _)).append
      (names_unlessEmpty _ _)).append (names_optional _ _ _)).append
      (names_unlessEmpty _ _)).append (names_unlessEmpty _ _)).append (names_unlessEmpty _ _))
  · intro name hname value hmem
    simp only [toMembers, List.mem_append, List.mem_cons, List.not_mem_nil, or_false,
      Option.mem_toList, Option.map_eq_some_iff] at hmem
    rcases hmem with ((((((h | h) | ⟨p, -, h⟩) | h) | ⟨p, -, h⟩) | h) | h) | h
    · cases h
      exact absurd hname (by decide)
    · cases h
      exact absurd hname (by decide)
    · cases h
      exact absurd hname (by decide)
    · exact ne_nil_of_mem_unlessEmpty h
    · cases h
      exact absurd hname (by decide)
    · exact ne_nil_of_mem_unlessEmpty h
    · exact ne_nil_of_mem_unlessEmpty h
    · exact ne_nil_of_mem_unlessEmpty h

namespace RuleTree

variable {t : RuleTree}

theorem member?_ruleJson (ht : t.WellFormed) {id : Nat} (hid : id < t.size) (name : String) :
    (t.ruleJson id).member? name = Members.get? ((t.ruleAt id).toMembers
      ((t.variablesAt id).map Variable.toJson) ((t.childrenOf id).map t.ruleJson)) name := by
  rw [ruleJson_eq ht.descending hid, Json.member?, Json.asObject?, Option.bind_some]

/-- Only the root has variables, and only the root has no provenance. -/
theorem Ordered.ruleObjects (h : t.Ordered) (ht : t.WellFormed) :
    ∃ root below, t.rules.ruleObjects = root :: below ∧ (∀ j ∈ root :: below, j.InOrder) ∧
      root.member? "provenance" = none ∧
      ∀ j ∈ below, j.member? "variables" = none ∧
        ∃ p, j.member? "provenance" = some (.string p) := by
  have hwalk : t.walk = rootId :: (t.childrenOf rootId).flatMap fun k => (t.outlineAt k).ids := by
    rw [h.walk]
    exact ids_outlineAt ht.descending ht.size_pos
  have hbelow : ∀ k ∈ (t.childrenOf rootId).flatMap fun k => (t.outlineAt k).ids,
      k < t.size ∧ k ≠ rootId := by
    intro k hk
    have hmem : k ∈ t.walk := hwalk ▸ List.mem_cons_of_mem _ hk
    refine ⟨List.mem_range.mp (h.once.mem_iff.mp hmem), ?_⟩
    rintro rfl
    have hnodup := h.once.nodup_iff.mpr List.nodup_range
    rw [hwalk] at hnodup
    exact (List.nodup_cons.mp hnodup).1 hk
  have hroot : rootId < t.size := ht.size_pos
  have hrules := h.document
  rw [hwalk, List.map_cons] at hrules
  refine ⟨_, _, hrules, ?_, ?_, ?_⟩
  · intro j hj
    rw [← List.map_cons (f := t.ruleJson), ← hwalk] at hj
    obtain ⟨k, hk, rfl⟩ := List.mem_map.mp hj
    rw [ruleJson_eq ht.descending (List.mem_range.mp (h.once.mem_iff.mp hk))]
    exact Rule.inOrder_toMembers _ _ _
  · rw [member?_ruleJson ht hroot, get?_toMembers, (ht.origin hroot).mpr rfl]
    rfl
  · intro j hj
    obtain ⟨k, hk, rfl⟩ := List.mem_map.mp hj
    obtain ⟨hlt, hne⟩ := hbelow k hk
    constructor
    · rw [member?_ruleJson ht hlt, get?_toMembers, variablesAt, if_neg hne]
      rfl
    · obtain ⟨p, hp⟩ := Option.ne_none_iff_exists'.mp (mt (ht.origin hlt).mp hne)
      refine ⟨p.text, ?_⟩
      rw [member?_ruleJson ht hlt, get?_toMembers, hp]
      rfl

end RuleTree

namespace Compiler

/-- Two documents have the same rules only if they were compiled from the same tree: the same rules
in the same order and the same variables. In every document, the members of the rules have their
order and their lists have items; only the root has variables, and all others have a provenance. -/
theorem compile_faithful {c c' : Compiler} {script script' : List Step} {t t' : RuleTree}
    {document document' : Document} (h : c.compile script = .ok (t, document))
    (h' : c'.compile script' = .ok (t', document')) :
    (document.rules = document'.rules ↔
      (t.sketchAt RuleTree.rootId).Agrees (t'.sketchAt RuleTree.rootId) ∧
        t.declared = t'.declared) ∧
    (document.rules = document'.rules → t.size = t'.size) ∧
    ∃ root below, document.rules.ruleObjects = root :: below ∧
      (∀ j ∈ root :: below, j.InOrder) ∧ root.member? "provenance" = none ∧
      ∀ j ∈ below, j.member? "variables" = none ∧
        ∃ p, j.member? "provenance" = some (.string p) := by
  obtain ⟨rfl, rfl⟩ := eq_of_compile h
  obtain ⟨rfl, rfl⟩ := eq_of_compile h'
  have ht := c.run_wellFormed script
  have ht' := c'.run_wellFormed script'
  have hordered (c : Compiler) (script : List Step) : (c.run script).tree.Ordered :=
    (c.run_built script _ (List.mem_cons_of_mem _ List.mem_cons_self)).linked.ordered
  refine ⟨RuleTree.rules_eq_iff ht ht', fun heq => ?_, (hordered c script).ruleObjects ht⟩
  rw [← (hordered c script).length_ruleObjects, ← (hordered c' script').length_ruleObjects]
  exact congrArg (fun j => j.ruleObjects.length) heq

/-- A group with a comment and a behavior, said in two ways. -/
def commentedScript (inGroup : Bool) : List Step :=
  [.mk (.group ⟨"rules", 3⟩ "a" (if inGroup then some "b" else none)) false
    ((if inGroup then [] else [.mk (.comment "b") false []]) ++
      [.mk (.behavior ⟨⟨"rules", 4⟩, "caching", .null⟩) false []])]

theorem compile_faithful_commented :
    ∃ t document t' document',
      plainCompiler.compile (commentedScript true) = .ok (t, document) ∧
      plainCompiler.compile (commentedScript false) = .ok (t', document') ∧
      document.rules = document'.rules ∧ t.size = 2 ∧ t'.size = 2 ∧
      (t.sketchAt RuleTree.rootId).Agrees (t'.sketchAt RuleTree.rootId) := by
  have h : plainCompiler.compile (commentedScript true) = .ok (_, _) := rfl
  have h' : plainCompiler.compile (commentedScript false) = .ok (_, _) := rfl
  refine ⟨_, _, _, _, h, h', rfl, rfl, ?_, ((compile_faithful h h').1.mp rfl).1⟩
  rw [← (compile_faithful h h').2.1 rfl]
  rfl

end Compiler

end DeliveryRules
