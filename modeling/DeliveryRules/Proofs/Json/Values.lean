import DeliveryRules.Proofs.Except
import DeliveryRules.Proofs.Pointer.Follow

/-!
# Values that are read from texts

Not every value can be read from a text: no object of one that is gives a name twice, even if the
text does, and no array has more items than the text has characters.

- **Members** (`Members.get?_ofWritten`, `Members.nodup_ofWritten`): of the values written under a
  name the last one counts, and the name is there once.
- **Induction** (`readValue_induction`): what holds of scalars, and is passed on to arrays and
  objects by their parts, holds of all that is read.
- **Everywhere in a value** (`Json.Throughout`): `Json.Distinct` and `Json.Countable` hold
  throughout what is read (`Json.distinct_of_read`, `Json.countable_of_read`).
-/

namespace DeliveryRules

namespace Members

theorem get?_cons (m : String × Json) (ms : Members) (name : String) :
    get? (m :: ms) name = if name = m.1 then some m.2 else get? ms name :=
  lookup_cons m ms name

/-- A name that is set leads to the value, and every other name leads where it led. -/
theorem get?_set (ms : Members) (name : String) (value : Json) (other : String) :
    get? (set ms name value) other = if other = name then some value else get? ms other := by
  induction ms with
  | nil => exact get?_cons (name, value) [] other
  | cons m ms ih =>
    rw [set]
    by_cases hname : m.1 = name
    · rw [if_pos hname, get?_cons, get?_cons, hname]
      split <;> rfl
    · rw [if_neg hname, get?_cons, get?_cons, ih]
      by_cases hother : other = m.1
      · rw [if_pos hother, if_pos hother, if_neg (hother ▸ hname)]
      · rw [if_neg hother, if_neg hother]

/-- Of what is laid on a base, the last under a name counts. -/
theorem get?_merge (base upper : Members) (name : String) :
    get? (merge base upper) name = (upper.reverse.lookup name).or (get? base name) := by
  induction upper generalizing base with
  | nil => rfl
  | cons m upper ih =>
    have hmerge : merge base (m :: upper) = merge (set base m.1 m.2) upper := rfl
    rw [hmerge, ih, get?_set, List.reverse_cons, List.lookup_append, Option.or_assoc, lookup_cons]
    split <;> rfl

theorem get?_ofWritten (written : List (String × Json)) (name : String) :
    get? (ofWritten written) name = written.reverse.lookup name :=
  (get?_merge [] written name).trans (Option.or_none ..)

theorem mem_set {ms : Members} {name : String} {value : Json} {m : String × Json}
    (h : m ∈ set ms name value) : m ∈ ms ∨ m = (name, value) := by
  induction ms with
  | nil => exact .inr (List.mem_singleton.mp h)
  | cons first ms ih =>
    rw [set] at h
    split at h
    · rename_i hname
      rcases List.mem_cons.mp h with rfl | h
      · exact .inr (by rw [hname])
      · exact .inl (List.mem_cons_of_mem _ h)
    · rcases List.mem_cons.mp h with rfl | h
      · exact .inl List.mem_cons_self
      · exact (ih h).imp_left (List.mem_cons_of_mem _)

theorem nodup_set {ms : Members} (h : (ms.map (·.1)).Nodup) (name : String) (value : Json) :
    ((set ms name value).map (·.1)).Nodup := by
  induction ms with
  | nil => simp [set]
  | cons first ms ih =>
    rw [List.map_cons, List.nodup_cons] at h
    rw [set]
    split
    · exact List.nodup_cons.mpr h
    · rename_i hname
      refine List.nodup_cons.mpr ⟨fun hmem => ?_, ih h.2⟩
      obtain ⟨m, hm, heq⟩ := List.mem_map.mp hmem
      rcases mem_set hm with hm | rfl
      · exact h.1 (List.mem_map.mpr ⟨m, hm, heq⟩)
      · exact hname heq.symm

theorem mem_merge {base upper : Members} {m : String × Json} (h : m ∈ merge base upper) :
    m ∈ base ∨ m ∈ upper := by
  induction upper generalizing base with
  | nil => exact .inl h
  | cons first upper ih =>
    rcases ih h with h | h
    · rcases mem_set h with h | rfl
      · exact .inl h
      · exact .inr List.mem_cons_self
    · exact .inr (List.mem_cons_of_mem _ h)

theorem nodup_merge {base : Members} (h : (base.map (·.1)).Nodup) (upper : Members) :
    ((merge base upper).map (·.1)).Nodup := by
  induction upper generalizing base with
  | nil => exact h
  | cons m upper ih => exact ih (nodup_set h m.1 m.2)

theorem nodup_ofWritten (written : List (String × Json)) :
    ((ofWritten written).map (·.1)).Nodup := by
  have hnil : (([] : Members).map (·.1)).Nodup := List.nodup_nil
  exact nodup_merge hnil written

theorem mem_of_mem_ofWritten {written : List (String × Json)} {m : String × Json}
    (h : m ∈ ofWritten written) : m ∈ written :=
  (mem_merge h).resolve_left List.not_mem_nil

end Members

/-! ## Everywhere in a value -/

namespace Json

/-- `P` holds of the value and of every value in it. -/
def Throughout (P : Json → Prop) : Json → Prop
  | .array items => P (.array items) ∧ ofItems items
  | .object members => P (.object members) ∧ ofMembers members
  | j => P j
where
  ofItems : List Json → Prop
    | [] => True
    | j :: js => Throughout P j ∧ ofItems js
  ofMembers : List (String × Json) → Prop
    | [] => True
    | (_, j) :: ms => Throughout P j ∧ ofMembers ms

variable {P : Json → Prop}

theorem throughout_ofItems {items : List Json} :
    Throughout.ofItems P items ↔ ∀ j ∈ items, Throughout P j := by
  induction items with
  | nil => simp [Throughout.ofItems]
  | cons j js ih => rw [Throughout.ofItems, ih, List.forall_mem_cons]

theorem throughout_ofMembers {members : Members} :
    Throughout.ofMembers P members ↔ ∀ m ∈ members, Throughout P m.2 := by
  induction members with
  | nil => simp [Throughout.ofMembers]
  | cons m ms ih => rw [Throughout.ofMembers, ih, List.forall_mem_cons]

theorem throughout_array {items : List Json} :
    Throughout P (.array items) ↔ P (.array items) ∧ ∀ j ∈ items, Throughout P j := by
  rw [Throughout, throughout_ofItems]

theorem throughout_object {members : Members} :
    Throughout P (.object members) ↔
      P (.object members) ∧ ∀ m ∈ members, Throughout P m.2 := by
  rw [Throughout, throughout_ofMembers]

theorem eq_nil_of_items {items : List Json}
    (h : ∀ token, Pointer.step? (.array items) token = none) : items = [] := by
  cases items with
  | nil => rfl
  | cons first rest =>
    have hzero : Pointer.index? "0" = some 0 := by decide
    have hfirst := h "0"
    rw [Pointer.step?, hzero] at hfirst
    cases hfirst

theorem eq_nil_of_members {members : Members}
    (h : ∀ token, Pointer.step? (.object members) token = none) : members = [] := by
  cases members with
  | nil => rfl
  | cons first rest =>
    have hfirst := h first.1
    rw [Pointer.step?, Members.get?_cons, if_pos rfl] at hfirst
    cases hfirst

/-- A value without parts. -/
theorem throughout_of_scalar {j : Json} (hscalar : ∀ token, Pointer.step? j token = none)
    (h : P j) : Throughout P j := by
  cases j with
  | array items =>
    obtain rfl := eq_nil_of_items hscalar
    exact throughout_array.mpr ⟨h, nofun⟩
  | object members =>
    obtain rfl := eq_nil_of_members hscalar
    exact throughout_object.mpr ⟨h, nofun⟩
  | _ => exact h

theorem Throughout.mono {Q : Json → Prop} {j : Json} (h : j.Throughout P) (hPQ : ∀ k, P k → Q k) :
    j.Throughout Q := by
  induction hdepth : j.depth using Nat.strongRecOn generalizing j with
  | ind depth ih =>
    subst hdepth
    cases j with
    | array items =>
      rw [throughout_array] at h ⊢
      exact ⟨hPQ _ h.1, fun i hi => ih _ (depth_lt_of_item hi) (h.2 i hi) rfl⟩
    | object members =>
      rw [throughout_object] at h ⊢
      exact ⟨hPQ _ h.1, fun m hm => ih _ (depth_lt_of_member hm) (h.2 m hm) rfl⟩
    | _ => exact hPQ _ h

/-- No name is there twice. -/
def Distinct (j : Json) : Prop :=
  ∀ members, j = .object members → (members.map (·.1)).Nodup

/-- There are no more than `n` items. -/
def Countable (n : Nat) (j : Json) : Prop :=
  ∀ items, j = .array items → items.length ≤ n

/-! ## Induction on what is read -/

section Parts

variable {β : Type} {part : List Char → β → List Char → Prop} {close : Char}
  (hpart : ∀ ⦃cs x rest⦄, part cs x rest → rest.length < cs.length)

include hpart

/-- Each part takes some of the characters. -/
theorem Listed.parts {cs rest : List Char} {xs : List β} (h : Listed part close cs xs rest) :
    xs.length ≤ cs.length ∧ ∀ x ∈ xs, ∃ ds after, ds.length ≤ cs.length ∧ part ds x after := by
  induction h with
  | done _ => exact ⟨Nat.zero_le _, nofun⟩
  | @more cs next after rest x xs hs hx _ ih =>
    have hnext := length_lt_of_skipGaps hs
    have hafter := hpart hx
    refine ⟨by rw [List.length_cons]; omega, fun y hy => ?_⟩
    rcases List.mem_cons.mp hy with rfl | hy
    · exact ⟨next, after, Nat.le_of_lt hnext, hx⟩
    · obtain ⟨ds, after', hlength, hpart⟩ := ih.2 y hy
      exact ⟨ds, after', by omega, hpart⟩

theorem Enclosed.parts {cs rest : List Char} {xs : List β} (h : Enclosed part close cs xs rest) :
    xs.length ≤ cs.length ∧ ∀ x ∈ xs, ∃ ds after, ds.length ≤ cs.length ∧ part ds x after := by
  cases h with
  | nothing _ => exact ⟨Nat.zero_le _, nofun⟩
  | something _ hx hl =>
    obtain ⟨hlength, hparts⟩ := hl.parts hpart
    have hafter := hpart hx
    refine ⟨by rw [List.length_cons]; omega, fun y hy => ?_⟩
    rcases List.mem_cons.mp hy with rfl | hy
    · exact ⟨cs, _, Nat.le_refl _, hx⟩
    · obtain ⟨ds, after', hlength, hpart⟩ := hparts y hy
      exact ⟨ds, after', by omega, hpart⟩

end Parts

/-- What holds of scalars and is passed on from parts to arrays and objects holds of all that is
read, at any depth. `n` is a bound on the number of characters, and so on that of items. -/
theorem readValue_induction {Q : Nat → Located → Prop} (n : Nat)
    (scalar : ∀ depth start j, (∃ cs rest, readValue depth cs = .ok (.scalar start j, rest)) →
      (∀ token, Pointer.step? j token = none) → Q depth (.scalar start j))
    (array : ∀ depth start items, items.length ≤ n → (∀ l ∈ items, Q depth l) →
      Q (depth + 1) (.array start items))
    (object : ∀ depth start members, (∀ m ∈ members, Q depth m.2) →
      Q (depth + 1) (.object start members))
    {depth : Nat} {cs rest : List Char} {v : Located} (hn : cs.length ≤ n)
    (h : readValue depth cs = .ok (v, rest)) : Q depth v := by
  induction depth generalizing cs rest v with
  | zero =>
    have hv := readValue_valueAt h
    generalize skipGaps cs = start at hv
    cases hv with
    | word _ _ hj => exact scalar _ _ _ ⟨_, _, h⟩ hj
    | string _ => exact scalar _ _ _ ⟨_, _, h⟩ fun _ => rfl
  | succ depth ih =>
    have hv := readValue_valueAt h
    have hstart := skipGaps_length_le cs
    generalize skipGaps cs = start at hv hstart
    cases hv with
    | word _ _ hj => exact scalar _ _ _ ⟨_, _, h⟩ hj
    | string _ => exact scalar _ _ _ ⟨_, _, h⟩ fun _ => rfl
    | array hi =>
      rw [List.length_cons] at hstart
      obtain ⟨hlength, hparts⟩ :=
        hi.parts fun _ _ _ hx => hx.length_lt fun _ _ _ => readValue_length_lt
      refine array _ _ _ (by omega) fun l hl => ?_
      obtain ⟨ds, after, hds, hitem⟩ := hparts l hl
      have hgaps := skipGaps_length_le ds
      exact ih (by omega) hitem
    | object hm =>
      rw [List.length_cons] at hstart
      obtain ⟨-, hparts⟩ :=
        hm.parts fun _ _ _ hx => hx.length_lt fun _ _ _ => readValue_length_lt
      refine object _ _ _ fun m hmem => ?_
      obtain ⟨ds, after, hds, hname, hchars, hcolon, hvalue⟩ := hparts m hmem
      have hquote := length_lt_of_skipGaps hname
      have hclose := hchars.length_lt
      have hvalueLength := length_lt_of_skipGaps hcolon
      exact ih (by omega) hvalue

/-- Names are given once throughout what is read. -/
theorem distinct_of_readValue {depth : Nat} {cs rest : List Char} {v : Located}
    (h : readValue depth cs = .ok (v, rest)) : v.toJson.Throughout Distinct := by
  refine readValue_induction (Q := fun _ l => l.toJson.Throughout Distinct) cs.length ?_ ?_ ?_
    (Nat.le_refl _) h
  · intro _ start j _ hj
    refine throughout_of_scalar hj ?_
    rintro members rfl
    obtain rfl := eq_nil_of_members hj
    exact List.nodup_nil
  · intro _ start items _ ih
    rw [Located.toJson, Located.toJson_ofItems, throughout_array, List.forall_mem_map]
    refine ⟨?_, ih⟩
    rintro _ ⟨⟩
  · intro _ start members ih
    rw [Located.toJson, Located.toJson_ofMembers, throughout_object]
    refine ⟨?_, fun m hm => ?_⟩
    · rintro _ ⟨⟩
      exact Members.nodup_ofWritten _
    · obtain ⟨m, hmem, rfl⟩ := List.mem_map.mp (Members.mem_of_mem_ofWritten hm)
      exact ih m hmem

/-- No array has more items than there are characters. -/
theorem countable_of_readValue {depth : Nat} {cs rest : List Char} {v : Located}
    (h : readValue depth cs = .ok (v, rest)) : v.toJson.Throughout (Countable cs.length) := by
  refine readValue_induction (Q := fun _ l => l.toJson.Throughout (Countable cs.length)) cs.length
    ?_ ?_ ?_ (Nat.le_refl _) h
  · intro _ start j _ hj
    refine throughout_of_scalar hj ?_
    rintro items rfl
    obtain rfl := eq_nil_of_items hj
    exact Nat.zero_le _
  · intro _ start items hlength ih
    rw [Located.toJson, Located.toJson_ofItems, throughout_array, List.forall_mem_map]
    refine ⟨?_, ih⟩
    rintro _ ⟨⟩
    rwa [List.length_map]
  · intro _ start members ih
    rw [Located.toJson, Located.toJson_ofMembers, throughout_object]
    refine ⟨?_, fun m hm => ?_⟩
    · rintro _ ⟨⟩
    · obtain ⟨m, hmem, rfl⟩ := List.mem_map.mp (Members.mem_of_mem_ofWritten hm)
      exact ih m hmem

theorem read_of_readLocated {text : String} {doc : Located} (h : readLocated text = .ok doc) :
    read text = .ok doc.toJson := by
  rw [read, h]
  rfl

/-- What is read of a whole text was read at its start. -/
theorem readValue_of_read {text : String} {j : Json} (h : read text = .ok j) :
    ∃ doc rest, readLocated text = .ok doc ∧ readValue maxDepth text.toList = .ok (doc, rest) ∧
      j = doc.toJson := by
  rw [read] at h
  cases hdoc : readLocated text with
  | error e =>
    rw [hdoc] at h
    cases h
  | ok doc =>
    rw [hdoc] at h
    cases h
    obtain ⟨rest, hrest⟩ := Pointer.readValue_of_readLocated hdoc
    exact ⟨doc, rest, rfl, hrest, rfl⟩

theorem distinct_of_read {text : String} {j : Json} (h : read text = .ok j) :
    j.Throughout Distinct := by
  obtain ⟨doc, rest, -, hdoc, rfl⟩ := readValue_of_read h
  exact distinct_of_readValue hdoc

theorem countable_of_read {text : String} {j : Json} (h : read text = .ok j) :
    j.Throughout (Countable text.toList.length) := by
  obtain ⟨doc, rest, -, hdoc, rfl⟩ := readValue_of_read h
  exact countable_of_readValue hdoc

end Json

end DeliveryRules
