import DeliveryRules.Proofs.Fragment.Conversion
import DeliveryRules.Proofs.Fragment.Registered
import DeliveryRules.Proofs.Rule.Parts

/-!
# Rules of a document as rules of a fragment

A document is written in the shape in which fragments are read.

- **Defaults** (`Members.merge_merge`): options that lie over defaults already stay as they are when
  they are laid over them again, with their order. So a capability that was granted is granted
  again on its options (`Catalog.use_again`).
- **Heads** (`FragmentHead.saidBy_toMembers`): what the members of a rule say, read as a fragment.
-/

namespace DeliveryRules

/-! ## Defaults -/

namespace Members

theorem set_append {before : Members} {name : String} (h : name ∉ before.map (·.1)) (ms : Members)
    (value : Json) : set (before ++ ms) name value = before ++ set ms name value := by
  induction before with
  | nil => rfl
  | cons m before ih =>
    rw [List.map_cons, List.mem_cons, not_or] at h
    rw [List.cons_append, set, if_neg (Ne.symm h.1), ih h.2]
    rfl

/-- Values for all names of a base take its place. -/
theorem merge_of_names_eq {before base upper : Members}
    (hnames : upper.map (·.1) = base.map (·.1))
    (hnodup : ((before ++ upper).map (·.1)).Nodup) :
    merge (before ++ base) upper = before ++ upper := by
  induction upper generalizing before base with
  | nil =>
    rw [List.map_nil, eq_comm, List.map_eq_nil_iff] at hnames
    rw [hnames]
    rfl
  | cons m upper ih =>
    obtain ⟨name, value⟩ := m
    cases base with
    | nil => cases hnames
    | cons m' base =>
      obtain ⟨name', value'⟩ := m'
      rw [List.map_cons, List.map_cons, List.cons.injEq] at hnames
      obtain ⟨rfl, hnames⟩ := hnames
      have hnew : name ∉ before.map (·.1) := by
        rw [List.map_append, List.nodup_append] at hnodup
        exact fun hm => hnodup.2.2 name hm name (by simp) rfl
      have hset : merge (before ++ (name, value') :: base) ((name, value) :: upper) =
          merge (before ++ [(name, value)] ++ base) upper := by
        rw [merge, List.foldl_cons, set_append hnew, set, if_pos rfl, List.append_assoc]
        rfl
      rw [hset, ih hnames (by rwa [List.append_assoc]), List.append_assoc]
      rfl

/-- The names of a base come first. -/
theorem names_merge (base upper : Members) :
    ∃ added, (merge base upper).map (·.1) = base.map (·.1) ++ added := by
  have hset (ms : Members) (name : String) (value : Json) :
      ∃ added, (set ms name value).map (·.1) = ms.map (·.1) ++ added := by
    induction ms with
    | nil => exact ⟨[name], rfl⟩
    | cons m ms ih =>
      rw [set]
      split
      · exact ⟨[], by simp⟩
      · obtain ⟨added, hadded⟩ := ih
        exact ⟨added, by simp [hadded]⟩
  induction upper generalizing base with
  | nil => exact ⟨[], (List.append_nil _).symm⟩
  | cons m upper ih =>
    obtain ⟨first, hfirst⟩ := hset base m.1 m.2
    obtain ⟨rest, hrest⟩ := ih (set base m.1 m.2)
    refine ⟨first ++ rest, ?_⟩
    rw [← List.append_assoc, ← hfirst, ← hrest]
    rfl

/-- What lies over a base already stays as it is when it is laid over it again. -/
theorem merge_merge {base upper : Members} (h : ((merge base upper).map (·.1)).Nodup) :
    merge base (merge base upper) = merge base upper := by
  obtain ⟨added, hadded⟩ := names_merge base upper
  generalize merge base upper = whole at h hadded
  have hsplit : whole = whole.take base.length ++ whole.drop base.length :=
    (List.take_append_drop _ _).symm
  have hnames : (whole.take base.length).map (·.1) = base.map (·.1) := by
    rw [List.map_take, hadded, List.take_left' (List.length_map _)]
  have hfirst : merge base (whole.take base.length) = whole.take base.length := by
    refine @merge_of_names_eq [] _ _ hnames ?_
    rw [hsplit, List.map_append, List.nodup_append] at h
    exact h.1
  calc merge base whole
      = merge (merge base (whole.take base.length)) (whole.drop base.length) := by
        rw [merge, merge, merge, ← List.foldl_append, ← hsplit]
    _ = whole.take base.length ++ whole.drop base.length := by
        rw [hfirst, merge_of_disjoint (hsplit ▸ h)]
    _ = whole := hsplit.symm

end Members

theorem Descriptor.resolve_eq_ok {d : Descriptor} {given : Json} {options : Members}
    (h : d.resolve given = .ok options) :
    given = .null ∧ options = d.defaults ∨
      ∃ upper, given = .object upper ∧ options = Members.merge d.defaults upper := by
  cases given with
  | null =>
    cases h
    exact .inl ⟨rfl, rfl⟩
  | object upper =>
    cases h
    exact .inr ⟨upper, rfl, rfl⟩
  | _ => cases h

theorem Descriptor.resolve_again {d : Descriptor} {given : Json} {options : Members}
    (h : d.resolve given = .ok options) (hnodup : (options.map (·.1)).Nodup) :
    d.resolve (.object options) = .ok options := by
  have hmerge : ∃ upper, options = Members.merge d.defaults upper := by
    rcases resolve_eq_ok h with ⟨-, rfl⟩ | ⟨upper, -, rfl⟩
    · exact ⟨[], rfl⟩
    · exact ⟨upper, rfl⟩
  obtain ⟨upper, rfl⟩ := hmerge
  rw [resolve, Members.merge_merge hnodup]

/-- A capability that was granted is granted again on the options that it then has. -/
theorem Catalog.use_again {c : Catalog} {kind : Capability.Kind} {name : String} {given : Json}
    {p : Provenance} {u : Use} (h : c.use kind name given p = .ok u)
    (hnodup : (u.1.options.map (·.1)).Nodup) (p' : Provenance) :
    c.use kind name (.object u.1.options) p' = .ok ({ u.1 with provenance := p' }, u.2) := by
  obtain ⟨d, hd, hresolve, hnames, hname, -⟩ := use_eq_ok h
  have hagain := Descriptor.resolve_again hresolve hnodup
  have hmentions : d.mentions u.1.options = .ok u.2 := d.mentions_eq _ ▸ hnames
  simp only [use, require, hd, bind, Except.bind, hagain, hmentions, hname]
  rfl

/-! ## Heads -/

theorem FragmentEntry.saidBy_toJson (use : Capability) :
    saidBy use.toJson = ⟨use.name, .object use.options⟩ := rfl

theorem FragmentVariable.saidBy_toJson (v : Variable) :
    saidBy v.toJson = ⟨v.name, some v.description, v.hidden, v.sensitive⟩ := rfl

theorem items_filled (items : List Json) : ((filled items).map Json.items).getD [] = items := by
  cases items <;> rfl

theorem MatchPolicy.named?_name (p : MatchPolicy) : named? p.name = some p := by
  cases p <;> rfl

/-- A list that is left out where it is empty is read as it was. -/
theorem itemsOf_of_filled {members : Members} {name : String} {items : List Json}
    (h : Members.get? members name = filled items) :
    (Json.object members).itemsOf name = items := by
  rw [Json.itemsOf, Json.member?, Json.asObject?, Option.bind_some, h]
  exact items_filled items

theorem itemsOf_toMembers (r : Rule) (declared children : List Json) :
    (Json.object (r.toMembers declared children)).itemsOf "children" = children :=
  itemsOf_of_filled (by rw [get?_toMembers]; rfl)

/-- The name under which a rule has its uses of a kind. -/
def Capability.Kind.member : Kind → String
  | criteria => "criteria"
  | behavior => "behaviors"

theorem itemsOf_toMembers_uses (r : Rule) (declared children : List Json)
    (kind : Capability.Kind) :
    (Json.object (r.toMembers declared children)).itemsOf kind.member =
      (r.uses kind).map Capability.toJson := by
  cases kind <;> exact itemsOf_of_filled (by rw [get?_toMembers]; rfl)

/-- What the members of a rule say, read as a fragment. -/
theorem FragmentHead.saidBy_toMembers (r : Rule) (declared : List Variable)
    (children : List Json) :
    saidBy (.object (r.toMembers (declared.map Variable.toJson) children)) =
      { name := some r.label
        comment := some r.remark
        policy := r.policy
        criteria := r.criteria.map fun use => ⟨use.name, .object use.options⟩
        behaviors := r.behaviors.map fun use => ⟨use.name, .object use.options⟩
        declared := declared.map fun v =>
          ⟨v.name, some v.description, v.hidden, v.sensitive⟩ } := by
  have hmember (name : String) :
      (Json.object (r.toMembers (declared.map Variable.toJson) children)).member? name =
        Members.get? (r.toMembers (declared.map Variable.toJson) children) name := rfl
  have hpolicy : ((r.policy.bind fun p => some p.name).bind MatchPolicy.named?) = r.policy := by
    cases r.policy with
    | none => rfl
    | some p => exact MatchPolicy.named?_name p
  simp [saidBy, Json.memberString?, Json.itemsOf, hmember, get?_toMembers, items_filled,
    Json.asString?, Option.bind_map, Function.comp_def, hpolicy, FragmentEntry.saidBy_toJson,
    FragmentVariable.saidBy_toJson]

end DeliveryRules
