import DeliveryRules.Proofs.Compiler.Growth
import DeliveryRules.Proofs.Rule.Parts
import Mathlib.Data.List.Infix

/-!
# Where a pointer into a compiled document comes from

- `longest?`: what is said of the longest prefix of which anything is said.
- **Parts** (`nearestProvenance_ruleJson`): outside of options the provenance that is found for a
  pointer is that of the last part on its way.
- `partFrom?_children`: every rule but the root is a part.
- `Compiler.compile_nearestProvenance`: both, of every document that is compiled.
-/

namespace DeliveryRules

open Pointer (step? recorded? nearestProvenance index? follow? nearestProvenance_nil
  nearestProvenance_cons)

/-! ## Longest prefixes -/

section Longest

variable {α β : Type}

/-- What `f` gives for the longest of the prefixes for which it gives anything. -/
def longest? (f : List String → Option α) (tokens : List String) : Option α :=
  tokens.inits.reverse.findSome? f

theorem longest?_nil (f : List String → Option α) : longest? f [] = f [] := by
  simp [longest?]

theorem longest?_cons (f : List String → Option α) (t : String) (ts : List String) :
    longest? f (t :: ts) = (longest? (fun way => f (t :: way)) ts).or (f []) := by
  rw [longest?, List.inits_cons, List.reverse_cons, List.findSome?_append, ← List.map_reverse,
    List.findSome?_map]
  simp [longest?, Function.comp_def]

theorem longest?_none {f : List String → Option α} (h : ∀ way, f way = none)
    (tokens : List String) : longest? f tokens = none := by
  simp [longest?, h]

theorem longest?_here (a : α) (tokens : List String) :
    longest? (fun way => if way.isEmpty then some a else none) tokens = some a := by
  cases tokens with
  | nil => rfl
  | cons t ts =>
    rw [longest?_cons, longest?_none fun way => by simp]
    rfl

theorem longest?_bind {f : List String → Option α} {g : α → Option β}
    (h : ∀ way a, f way = some a → (g a).isSome) (tokens : List String) :
    (longest? f tokens).bind g = longest? (fun way => (f way).bind g) tokens := by
  induction tokens generalizing f with
  | nil => rw [longest?_nil, longest?_nil]
  | cons t ts ih =>
    rw [longest?_cons, longest?_cons, ← ih fun way a => h (t :: way) a]
    cases hf : longest? (fun way => f (t :: way)) ts with
    | none => rfl
    | some a =>
      obtain ⟨way, -, hway⟩ := List.exists_of_findSome?_eq_some hf
      rw [Option.some_or, Option.bind_some, Option.or_of_isSome (h _ a hway)]

end Longest

/-! ## Entries and variables -/

/-- What an object records itself is found for the ways into it on which nothing is recorded. -/
theorem nearestProvenance_object {ms : Members} {p : String}
    (hown : Members.get? ms "provenance" = some (.string p)) {rest : List String}
    (hrest : ∀ token j, rest.head? = some token → Members.get? ms token = some j →
      ∀ way, nearestProvenance j way = none) :
    nearestProvenance (.object ms) rest = some p := by
  have hrecorded : recorded? (.object ms) = some p := by
    rw [recorded?, Json.memberString?, Json.member?, Json.asObject?, Option.bind_some,
      Pointer.provenanceName, hown]
    rfl
  cases rest with
  | nil => rw [nearestProvenance_nil, hrecorded]
  | cons token way =>
    rw [nearestProvenance_cons, hrecorded, step?]
    cases hj : Members.get? ms token with
    | none => rfl
    | some j => rw [Option.bind_some, hrest token j rfl hj way, Option.none_or]

theorem nearestProvenance_entry (c : Capability) {rest : List String}
    (h : rest.head? ≠ some "options") :
    nearestProvenance c.toJson rest = some c.provenance.text := by
  refine nearestProvenance_object rfl fun token j htoken hj way => ?_
  have hne : token ≠ "options" := fun he => h (he ▸ htoken)
  simp only [Members.get?, Members.lookup_cons, List.lookup_nil, hne, if_false] at hj
  split at hj
  · cases hj
    exact Pointer.nearestProvenance_string _ way
  · split at hj
    · cases hj
      exact Pointer.nearestProvenance_string _ way
    · cases hj

/-- In its options, what they record themselves counts before the entry. -/
theorem nearestProvenance_options (c : Capability) (inside : List String) :
    nearestProvenance c.toJson ("options" :: inside) =
      some ((nearestProvenance (.object c.options) inside).getD c.provenance.text) := by
  have hstep : step? c.toJson "options" = some (.object c.options) := rfl
  have hrecorded : recorded? c.toJson = some c.provenance.text := rfl
  rw [nearestProvenance_cons, hstep, hrecorded, Option.bind_some]
  cases nearestProvenance (.object c.options) inside <;> rfl

theorem nearestProvenance_declared (v : Variable) (rest : List String) :
    nearestProvenance v.toJson rest = some v.provenance.text := by
  refine nearestProvenance_object rfl fun token j _ hj way => ?_
  simp only [Members.get?, Members.lookup_cons, List.lookup_nil] at hj
  repeat' split at hj
  all_goals cases hj
  all_goals simp

/-! ## Parts -/

namespace RuleTree

variable {t : RuleTree}

/-- What is recorded of the part that tokens lead to. -/
def recordedFrom? (t : RuleTree) (id : RuleId) (way : List String) : Option String :=
  ((t.partFrom? id way).bind t.originOf).map (·.text)

theorem recordedFrom?_nil (ht : t.WellFormed) {id : Nat} (hid : id < t.size) :
    t.recordedFrom? id [] = (t.ruleAt id).provenance.map (·.text) := by
  rw [recordedFrom?, partFrom?]
  by_cases hroot : id = rootId
  · rw [if_pos hroot, (ht.origin hid).mpr hroot]
    rfl
  · rw [if_neg hroot]
    rfl

/-- Past an entry or a variable there are no more parts. -/
theorem recordedFrom?_item {id : RuleId} {name i : String} {p : Part}
    (hp : ((index? i).bind fun i => (t.partsUnder id name)[i]?) = some p)
    (hrule : ∀ k, p ≠ .rule k) (way : List String) :
    t.recordedFrom? id (name :: i :: way) =
      if way.isEmpty then (t.originOf p).map (·.text) else none := by
  cases p with
  | rule k => exact absurd rfl (hrule k)
  | entry c | declared v => cases way <;> simp [recordedFrom?, partFrom?, hp]

/-- The ways on which `partFrom?` finds a part: a way through a list ends there or goes on from a
child. -/
inductive PartAt (t : RuleTree) : RuleId → List String → Part → Prop where
  | rule {id : RuleId} : id ≠ rootId → PartAt t id [] (.rule id)
  | child {id k : RuleId} {name i : String} {way : List String} {p : Part} :
      ((index? i).bind fun i => (t.partsUnder id name)[i]?) = some (.rule k) → PartAt t k way p →
      PartAt t id (name :: i :: way) p
  | item {id : RuleId} {name i : String} {p : Part} :
      ((index? i).bind fun i => (t.partsUnder id name)[i]?) = some p → (∀ k, p ≠ .rule k) →
      PartAt t id [name, i] p

theorem partAt_of_partFrom? : ∀ (way : List String) {id : RuleId} {p : Part},
    t.partFrom? id way = some p → PartAt t id way p
  | [], id, p, h => by
    rw [partFrom?] at h
    split at h
    · cases h
    · rename_i hroot
      cases h
      exact .rule hroot
  | [_], _, _, h => by cases h
  | name :: i :: way, id, p, h => by
    rw [partFrom?] at h
    split at h
    · cases h
    · rename_i k hk
      exact .child hk (partAt_of_partFrom? way h)
    · rename_i q hrule hq
      split at h
      · rename_i hempty
        cases h
        obtain rfl := List.isEmpty_iff.mp hempty
        exact .item hq hrule
      · cases h

theorem lt_of_rule_under (ht : t.WellFormed) {id k : Nat} {name i : String}
    (h : ((index? i).bind fun i => (t.partsUnder id name)[i]?) = some (.rule k)) :
    id < k ∧ k < t.size := by
  obtain ⟨n, -, hn⟩ := Option.bind_eq_some_iff.mp h
  have hmem := List.mem_of_getElem? hn
  unfold partsUnder at hmem
  split at hmem
  all_goals
    simp only [List.mem_map, List.not_mem_nil, reduceCtorEq, and_false, exists_false] at hmem
  obtain ⟨_, hk, heq⟩ := hmem
  cases heq
  exact ht.child hk

/-- From a rule on, and outside of options, the provenance that is found is that of the last part on
the way. -/
theorem nearestProvenance_ruleJson (ht : t.WellFormed) : ∀ (tokens : List String) {id : Nat},
    id < t.size →
    (∀ way c, way ++ ["options"] <+: tokens → t.partFrom? id way ≠ some (.entry c)) →
    nearestProvenance (t.ruleJson id) tokens = longest? (t.recordedFrom? id) tokens
  | [], id, hid, _ => by
    rw [nearestProvenance_nil, recorded?_ruleJson ht hid, longest?_nil, recordedFrom?_nil ht hid]
  | [name], id, hid, _ => by
    rw [nearestProvenance_cons, recorded?_ruleJson ht hid, nearestProvenance_under ht hid,
      longest?_cons, longest?_nil, recordedFrom?_nil ht hid]
    rfl
  | name :: i :: rest, id, hid, houtside => by
    rw [nearestProvenance_cons, recorded?_ruleJson ht hid, nearestProvenance_under ht hid,
      longest?_cons, longest?_cons, recordedFrom?_nil ht hid]
    -- The rule itself is left for the case that there is no part further down.
    congr 1
    rw [show t.recordedFrom? id [name] = none from rfl, Option.or_none]
    dsimp only
    cases hp : (index? i).bind fun i => (t.partsUnder id name)[i]? with
    | none =>
      rw [longest?_none fun way => by simp [recordedFrom?, partFrom?, hp]]
      rfl
    | some part =>
      rw [Option.bind_some]
      cases part with
      | rule k =>
        have hbelow : (fun way => t.recordedFrom? id (name :: i :: way)) = t.recordedFrom? k :=
          funext fun way => by simp [recordedFrom?, partFrom?, hp]
        rw [hbelow]
        refine nearestProvenance_ruleJson ht rest (lt_of_rule_under ht hp).2
          fun way c hway hpart => houtside (name :: i :: way) c (by simpa using hway) ?_
        simpa [partFrom?, hp] using hpart
      | entry c =>
        rw [funext (recordedFrom?_item hp fun _ => nofun)]
        refine (nearestProvenance_entry c fun hhead => ?_).trans (longest?_here _ rest).symm
        obtain ⟨inside, rfl⟩ := List.head?_eq_some_iff.mp hhead
        exact houtside [name, i] c (by simp) (by simp [partFrom?, hp])
      | declared v =>
        rw [funext (recordedFrom?_item hp fun _ => nofun)]
        exact (nearestProvenance_declared v rest).trans (longest?_here _ rest).symm

/-- Parts came from somewhere. -/
theorem PartAt.isSome_originOf (ht : t.WellFormed) {id : Nat} {way : List String} {p : Part}
    (h : PartAt t id way p) (hid : id < t.size) : (t.originOf p).isSome := by
  induction h with
  | rule hroot =>
    rw [originOf, Option.isSome_iff_ne_none, ne_eq, ht.origin hid]
    exact hroot
  | child hk _ ih => exact ih (lt_of_rule_under ht hk).2
  | @item _ _ _ p _ hrule =>
    cases p with
    | rule k => exact absurd rfl (hrule k)
    | entry c | declared v => rfl

theorem PartAt.lt_size (ht : t.WellFormed) {id k : Nat} {way : List String} {p : Part}
    (h : PartAt t id way p) (hid : id < t.size) (hp : p = .rule k) : k < t.size := by
  induction h with
  | rule _ =>
    cases hp
    exact hid
  | child hk _ ih => exact ih (lt_of_rule_under ht hk).2 hp
  | item _ hrule => exact absurd hp (hrule k)

/-- In the document the same way leads to what is written down of the part. -/
theorem PartAt.follow?_eq (ht : t.WellFormed) {id : Nat} {way : List String} {p : Part}
    (h : PartAt t id way p) (hid : id < t.size) :
    follow? (t.ruleJson id) way = some (t.partJson p) := by
  induction h with
  | rule _ => rfl
  | child hk _ ih =>
    rw [follow?_under ht hid hk]
    exact ih (lt_of_rule_under ht hk).2
  | item hp _ => exact follow?_under ht hid hp []

/-- A way to a rule goes on from it. -/
theorem PartAt.partFrom?_append {id k : Nat} {way : List String} {p : Part}
    (h : PartAt t id way p) (hp : p = .rule k) (rest : List String) :
    t.partFrom? id (way ++ rest) = t.partFrom? k rest := by
  induction h with
  | rule _ =>
    cases hp
    rfl
  | child hk _ ih =>
    rw [List.cons_append, List.cons_append, partFrom?, hk]
    exact ih hp
  | item _ hrule => exact absurd hp (hrule k)

/-- Every rule but the root is a part: the indices of the rules above it among the children of
their parents, and its own, lead to it. -/
theorem partFrom?_children (ht : t.WellFormed) {id : Nat} (hroot : id ≠ rootId)
    (hid : id < t.size) :
    ∃ positions : List Nat, ∀ names : List String, names.map index? = positions.map some →
      t.partFrom? rootId (names.flatMap fun i => ["children", i]) = some (.rule id) := by
  -- On the number of the rule: its parent has a smaller one.
  induction id using Nat.strongRecOn with
  | _ id ih =>
    obtain ⟨parent, hmem⟩ := ht.below hroot hid
    have hparent := ht.child hmem
    obtain ⟨n, hn⟩ := List.mem_iff_getElem?.mp hmem
    have hlast {i : String} (hi : index? i = some n) :
        t.partFrom? parent ["children", i] = some (.rule id) := by
      simp [partFrom?, partsUnder, hi, hn, hroot]
    by_cases htop : parent = rootId
    · refine ⟨[n], fun names hnames => ?_⟩
      obtain ⟨i, rest, rfl, hi, hrest⟩ := List.map_eq_cons_iff.mp hnames
      obtain rfl := List.map_eq_nil_iff.mp hrest
      rw [← htop]
      exact hlast hi
    · obtain ⟨positions, hpositions⟩ := ih parent hparent.1 htop (by omega)
      refine ⟨positions ++ [n], fun names hnames => ?_⟩
      rw [List.map_append] at hnames
      obtain ⟨above, own, rfl, habove, hown⟩ := List.map_eq_append_iff.mp hnames
      obtain ⟨i, rest, rfl, hi, hrest⟩ := List.map_eq_cons_iff.mp hown
      obtain rfl := List.map_eq_nil_iff.mp hrest
      rw [List.flatMap_append,
        (partAt_of_partFrom? _ (hpositions above habove)).partFrom?_append rfl]
      exact hlast hi

/-! ## The document -/

/-- Only the rules of a document record anything. -/
theorem nearestProvenance_document_cons (t : RuleTree) (ruleFormat token : String)
    (way : List String) :
    nearestProvenance (t.document ruleFormat).toJson (token :: way) =
      if token = "rules" then nearestProvenance (t.ruleJson rootId) way else none := by
  have hrecorded : recorded? (t.document ruleFormat).toJson = none := rfl
  have hstep : step? (t.document ruleFormat).toJson token =
      if token = "ruleFormat" then some (.string ruleFormat)
      else if token = "rules" then some (t.ruleJson rootId) else none := by
    simp only [step?, Document.toJson, Members.get?, Members.lookup_cons, List.lookup_nil]
    rfl
  rw [nearestProvenance_cons, hrecorded, hstep, Option.or_none]
  by_cases hformat : token = "ruleFormat"
  · simp [hformat]
  · rw [if_neg hformat]
    split <;> rfl

theorem part?_cons (t : RuleTree) (token : String) (way : List String) :
    t.part? (token :: way) = if token = "rules" then t.partFrom? rootId way else none := by
  by_cases h : token = "rules"
  · subst h
    rfl
  · rw [if_neg h, part?]
    rintro rest heq
    cases heq
    exact h rfl

theorem part?_eq_some {way : List String} {p : Part} (h : t.part? way = some p) :
    ∃ below, way = "rules" :: below ∧ PartAt t rootId below p := by
  cases way with
  | nil => cases h
  | cons token below =>
    rw [part?_cons] at h
    split at h
    · rename_i htoken
      exact ⟨below, by rw [htoken], partAt_of_partFrom? below h⟩
    · cases h

/-- Outside of options, the provenance found for a pointer is that of the last part on its way. -/
theorem nearestProvenance_document (ht : t.WellFormed) (ruleFormat : String)
    (tokens : List String)
    (houtside : ∀ way c, way ++ ["options"] <+: tokens → t.part? way ≠ some (.entry c)) :
    nearestProvenance (t.document ruleFormat).toJson tokens =
      ((longest? t.part? tokens).bind t.originOf).map (·.text) := by
  cases tokens with
  | nil => rfl
  | cons token way =>
    rw [nearestProvenance_document_cons, longest?_cons, show t.part? [] = none from rfl,
      Option.or_none]
    by_cases htoken : token = "rules"
    · subst htoken
      have hrules := nearestProvenance_ruleJson ht way (show rootId < t.size from ht.size_pos)
        fun way' c hway hpart => houtside ("rules" :: way') c (by simpa using hway) hpart
      have hlast : ((longest? (t.partFrom? rootId) way).bind t.originOf).map (·.text) =
          longest? (t.recordedFrom? rootId) way := by
        unfold recordedFrom?
        simp only [Option.map_bind]
        refine longest?_bind (fun way p hp => ?_) way
        rw [Function.comp_apply, Option.isSome_map]
        exact (partAt_of_partFrom? way hp).isSome_originOf ht ht.size_pos
      rw [if_pos rfl, hrules]
      exact hlast.symm
    · rw [if_neg htoken, longest?_none fun way => by rw [part?_cons, if_neg htoken]]
      rfl

/-- From a part on, nothing above it is found any more. -/
theorem nearestProvenance_document_append (ht : t.WellFormed) (ruleFormat : String)
    {way rest : List String} {p : Part} (hp : t.part? way = some p)
    (hfound : (nearestProvenance (t.partJson p) rest).isSome) :
    nearestProvenance (t.document ruleFormat).toJson (way ++ rest) =
      nearestProvenance (t.partJson p) rest := by
  obtain ⟨below, rfl, hbelow⟩ := part?_eq_some hp
  rw [List.cons_append, nearestProvenance_document_cons, if_pos rfl]
  exact Pointer.nearestProvenance_append (hbelow.follow?_eq ht ht.size_pos) hfound

/-- A part is found by what leads to it and, unless it is a rule, by what goes on from there. -/
theorem nearestProvenance_part (ht : t.WellFormed) (ruleFormat : String)
    {way rest : List String} {p : Part} (hp : t.part? way = some p)
    (hrule : ∀ id, p = .rule id → rest = [])
    (hentry : ∀ e, p = .entry e → rest.head? ≠ some "options") :
    ∃ origin, t.originOf p = some origin ∧
      nearestProvenance (t.document ruleFormat).toJson (way ++ rest) = some origin.text := by
  obtain ⟨origin, horigin, hown⟩ : ∃ origin, t.originOf p = some origin ∧
      nearestProvenance (t.partJson p) rest = some origin.text := by
    cases p with
    | rule id =>
      obtain rfl := hrule id rfl
      obtain ⟨below, rfl, hbelow⟩ := part?_eq_some hp
      have hid : id < t.size := hbelow.lt_size ht ht.size_pos rfl
      obtain ⟨origin, horigin⟩ :=
        Option.isSome_iff_exists.mp (hbelow.isSome_originOf ht ht.size_pos)
      refine ⟨origin, horigin, ?_⟩
      rw [partJson, nearestProvenance_nil, recorded?_ruleJson ht hid]
      exact congrArg (Option.map (·.text)) horigin
    | entry c => exact ⟨_, rfl, nearestProvenance_entry c (hentry c rfl)⟩
    | declared v => exact ⟨_, rfl, nearestProvenance_declared v rest⟩
  exact ⟨origin, horigin,
    (nearestProvenance_document_append ht ruleFormat hp (by simp [hown])).trans hown⟩

end RuleTree

namespace Compiler

open Pointer (tokens)

theorem eq_of_compile {c : Compiler} {script : List Step} {t : RuleTree} {document : Document}
    (h : c.compile script = .ok (t, document)) :
    t = (c.run script).tree ∧ document = t.document c.ruleFormat := by
  unfold compile at h
  simp only at h
  split at h
  · cases h
  · cases h
    exact ⟨rfl, rfl⟩

/-- In a document that was compiled,
- the provenance found for a pointer whose way does not lead into options is that of the last part
  on this way, and none if there is no part on it;
- a part is found by the tokens that lead to it, and an entry or a variable also by all that go on
  from there, but for those that go into the options of an entry;
- every rule but the root is a part, to which the indices of the children on the way down lead;
- a number sign before the pointer changes nothing. -/
theorem compile_nearestProvenance {c : Compiler} {script : List Step} {t : RuleTree}
    {document : Document} (h : c.compile script = .ok (t, document)) :
    (∀ pointer : String,
      (∀ way e, way ++ ["options"] <+: tokens pointer → t.part? way ≠ some (.entry e)) →
      nearestProvenance document.toJson (tokens pointer) =
        ((longest? t.part? (tokens pointer)).bind t.originOf).map (·.text)) ∧
    (∀ way rest p, t.part? way = some p → (∀ id, p = .rule id → rest = []) →
      (∀ e, p = .entry e → rest.head? ≠ some "options") →
      ∃ origin, t.originOf p = some origin ∧
        nearestProvenance document.toJson (way ++ rest) = some origin.text) ∧
    (∀ id, id ≠ RuleTree.rootId → id < t.size →
      ∃ positions : List Nat, ∀ names : List String, names.map index? = positions.map some →
        t.part? ("rules" :: names.flatMap fun i => ["children", i]) = some (.rule id)) ∧
    ∀ rest, tokens ("#/" ++ rest) = tokens ("/" ++ rest) := by
  obtain ⟨rfl, rfl⟩ := eq_of_compile h
  have ht := c.run_wellFormed script
  exact ⟨fun pointer => RuleTree.nearestProvenance_document ht c.ruleFormat (tokens pointer),
    fun way rest p => RuleTree.nearestProvenance_part ht c.ruleFormat,
    fun id => RuleTree.partFrom?_children ht, Pointer.tokens_marked⟩

/-- A behavior on a rule with a criterion. -/
def cachingScript : List Step :=
  [.mk (.criteria ⟨⟨"rules", 3⟩, "path", .null⟩) false
    [.mk (.behavior ⟨⟨"rules", 4⟩, "caching", .null⟩) false []]]

theorem compile_nearestProvenance_caching :
    ∃ t document, plainCompiler.compile cachingScript = .ok (t, document) ∧
      nearestProvenance document.toJson
        ["rules", "children", "0", "behaviors", "0", "name", "x"] = some "rules:4" := by
  have hcompile : plainCompiler.compile cachingScript = .ok (_, _) := rfl
  have hpart : (plainCompiler.run cachingScript).tree.part?
      ["rules", "children", "0", "behaviors", "0"] = some (.entry _) := rfl
  obtain ⟨origin, horigin, hfound⟩ := (compile_nearestProvenance hcompile).2.1
    _ ["name", "x"] _ hpart (by simp) (by simp)
  have htext : origin.text = "rules:4" := by
    rw [← Option.some.inj horigin]
    decide
  exact ⟨_, _, hcompile, htext ▸ hfound⟩

/-! ## Pointers into options -/

/-- For a pointer into the options of an entry, the nearest provenance that they hold themselves is
found, and that of the entry only if they hold none on the way. So the entry is found just if
nothing else is recorded there. -/
theorem compile_nearestProvenance_options {c : Compiler} {script : List Step} {t : RuleTree}
    {document : Document} (h : c.compile script = .ok (t, document)) {way : List String}
    {e : Capability} (hentry : t.part? way = some (.entry e)) {pointer : String}
    {inside : List String} (hpointer : tokens pointer = way ++ "options" :: inside) :
    nearestProvenance document.toJson (tokens pointer) =
        some ((nearestProvenance (.object e.options) inside).getD e.provenance.text) ∧
      (nearestProvenance document.toJson (tokens pointer) = some e.provenance.text ↔
        ∀ s, nearestProvenance (.object e.options) inside = some s → s = e.provenance.text) := by
  obtain ⟨rfl, rfl⟩ := eq_of_compile h
  have hoptions := nearestProvenance_options e inside
  have hfound : nearestProvenance ((c.run script).tree.document c.ruleFormat).toJson
      (tokens pointer) =
        some ((nearestProvenance (.object e.options) inside).getD e.provenance.text) := by
    rw [hpointer, ← hoptions]
    exact RuleTree.nearestProvenance_document_append (c.run_wellFormed script) c.ruleFormat hentry
      (by rw [RuleTree.partJson, hoptions]; rfl)
  refine ⟨hfound, ?_⟩
  rw [hfound]
  cases nearestProvenance (.object e.options) inside <;> simp

/-- A behavior on the root, with one option. -/
def optionScript (option : String) : List Step :=
  [.mk (.behavior ⟨⟨"rules", 8⟩, "caching", .object [(option, .string "elsewhere")]⟩) false []]

/-- An option called like the member that records a provenance is taken for one. -/
theorem compile_nearestProvenance_options_hidden :
    ∃ t document e, plainCompiler.compile (optionScript "provenance") = .ok (t, document) ∧
      t.part? ["rules", "behaviors", "0"] = some (.entry e) ∧
      e.provenance.text = "rules:8" ∧
      nearestProvenance document.toJson (tokens "/rules/behaviors/0/options") =
        some "elsewhere" :=
  ⟨_, _, _, rfl, rfl, by decide, by decide⟩

theorem compile_nearestProvenance_options_harmless :
    ∃ t document e, plainCompiler.compile (optionScript "origin") = .ok (t, document) ∧
      t.part? ["rules", "behaviors", "0"] = some (.entry e) ∧
      e.provenance.text = "rules:8" ∧
      nearestProvenance document.toJson (tokens "/rules/behaviors/0/options/origin") =
        some "rules:8" := by
  have hcompile : plainCompiler.compile (optionScript "origin") = .ok (_, _) := rfl
  have hpart : (plainCompiler.run (optionScript "origin")).tree.part? ["rules", "behaviors", "0"] =
      some (.entry _) := rfl
  have hpointer : tokens "/rules/behaviors/0/options/origin" =
      ["rules", "behaviors", "0"] ++ "options" :: ["origin"] := by decide
  have h := (compile_nearestProvenance_options hcompile hpart hpointer).1
  exact ⟨_, _, _, hcompile, hpart, by decide, h.trans (by decide)⟩

end Compiler

end DeliveryRules
