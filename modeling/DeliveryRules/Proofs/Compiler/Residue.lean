import DeliveryRules.Proofs.Compiler.Variables
import DeliveryRules.Proofs.Fragment.Includes
import DeliveryRules.Proofs.Rule.Links

/-!
# What a call leaves behind

- **Additions** (`RuleTree.AppendsAt`): rules that were there stay as they are, but for the one that
  is worked on, which may get a behavior and a child, each in the last place. New rules are below
  it, and variables are declared after those that were there.
- **Calls** (`Compiler.perform_appendsAt`): a call that does not name or comment a rule only adds,
  also where it fails.
- **Failures**: what a call did before it failed. A use that is refused did nothing
  (`Compiler.perform_error_of_isUse`), several uses have declared the variables of those before the
  one that is refused (`Compiler.perform_compose_error`), and an import without a rule to place did
  nothing (`Compiler.perform_import_error`).
- `Compiler.perform_residue`: all of this of any call.
-/

namespace DeliveryRules

/-! ## Additions -/

theorem VariableTable.isPrefix_declare (table : VariableTable) (v : Variable) :
    table <+: table.declare v := by
  unfold declare
  split
  · exact List.prefix_rfl
  · exact List.prefix_append _ _

namespace RuleTree

variable {t t₁ t' : RuleTree} {scope : Nat}

namespace Grows

theorem declared_isPrefix (h : t.Grows scope t') : t.declared <+: t'.declared := by
  induction h with
  | refl => exact List.prefix_rfl
  | insert _ _ _ _ ih => exact ih
  | change _ _ _ ih => exact ih
  | declare _ v ih => exact ih.trans (VariableTable.isPrefix_declare _ v)

/-- New rules are below the one that is worked on. -/
theorem below_scope (h : t.Grows scope t') :
    ∀ k : Nat, t.size ≤ k → k < t'.size → t'.Below scope k := by
  induction h with
  | refl =>
    intro k hnew hlt
    omega
  | @insert t' parent r _ place lt _ ih =>
    intro k hnew hlt
    rw [size_insert] at hlt
    by_cases hk : k = t'.size
    · have hparent : t'.Below scope parent := by
        rcases place with rfl | hplace
        · exact .self
        · exact ih parent hplace lt
      refine (hparent.insert parent r).child ?_
      rw [parent?_insert, if_pos hk]
    · exact (ih k hnew (by omega)).insert parent r
  | @change t' id f _ _ _ ih =>
    intro k hnew hlt
    rw [size_change] at hlt
    exact (ih k hnew hlt).change id f
  | declare _ v ih => exact fun k hnew hlt => (ih k hnew hlt).mono fun _ _ h => h

end Grows

/-- What was there stays, and what is new comes after it or below it. -/
structure AppendsAt (t : RuleTree) (scope : Nat) (t' : RuleTree) : Prop where
  size_le : t.size ≤ t'.size
  others : ∀ id : Nat, id < t.size → id ≠ scope → t'.node? id = t.node? id
  /-- The rule itself gets no more than one behavior and one child, which is new. -/
  worked : ∃ n uses children, t.node? scope = some n ∧
    uses.length ≤ 1 ∧ children.length ≤ 1 ∧ (∀ k ∈ children, t.size ≤ k ∧ k < t'.size) ∧
    t'.node? scope = some { n with
      rule := { n.rule with behaviors := n.rule.behaviors ++ uses }
      children := n.children ++ children }
  below : ∀ k : Nat, t.size ≤ k → k < t'.size → t'.Below scope k
  declared : t.declared <+: t'.declared

theorem appendsAt_refl (ht : scope < t.size) : t.AppendsAt scope t where
  size_le := Nat.le_refl _
  others _ _ _ := rfl
  worked := by
    obtain ⟨n, hn⟩ := Option.isSome_iff_exists.mp (isSome_node? ht)
    exact ⟨n, [], [], hn, by simp, by simp, by simp, by simp [hn]⟩
  below k hnew hlt := absurd hlt (Nat.not_lt_of_le hnew)
  declared := List.prefix_rfl

/-- Declarations that were made before add to what is left behind. -/
theorem AppendsAt.of_nodes (hnodes : t₁.nodes = t.nodes) (hdeclared : t.declared <+: t₁.declared)
    (h : t₁.AppendsAt scope t') : t.AppendsAt scope t' := by
  obtain ⟨nodes, declared⟩ := t
  obtain ⟨nodes₁, declared₁⟩ := t₁
  cases hnodes
  exact ⟨h.size_le, h.others, h.worked, h.below, hdeclared.trans h.declared⟩

theorem appendsAt_addBehavior (ht : scope < t.size) (use : Capability) :
    t.AppendsAt scope (t.change scope (Rule.addBehavior use)) where
  size_le := Nat.le_of_eq (size_change t scope _).symm
  others id _ hne := by rw [node?_change, if_neg hne]
  worked := by
    obtain ⟨n, hn⟩ := Option.isSome_iff_exists.mp (isSome_node? ht)
    refine ⟨n, [use], [], hn, by simp, by simp, by simp, ?_⟩
    rw [node?_change, if_pos rfl, hn, Option.map_some, List.append_nil, Rule.addBehavior]
  below k hnew hlt := by
    rw [size_change] at hlt
    omega
  declared := List.prefix_rfl

/-- A rule is put in, and then worked on. -/
theorem appendsAt_insert (ht : scope < t.size) {r : Rule} (hr : r.provenance.isSome)
    (h : (t.insert scope r).Grows t.size t') : t.AppendsAt scope t' := by
  have hgrows : t.Grows scope t' := .of_insert hr ht h
  have hsize := h.size_le
  rw [size_insert] at hsize
  have hold {id : Nat} (hid : id < t.size) : t'.node? id = (t.insert scope r).node? id :=
    h.node?_eq (by rw [size_insert]; omega) (by omega)
  refine ⟨by omega, ?_, ?_, hgrows.below_scope, hgrows.declared_isPrefix⟩
  · intro id hid hne
    rw [hold hid, node?_insert, if_neg (by omega), if_neg hne]
  · obtain ⟨n, hn⟩ := Option.isSome_iff_exists.mp (isSome_node? ht)
    refine ⟨n, [], [t.size], hn, by simp, by simp, by simp; omega, ?_⟩
    rw [hold ht, node?_insert, if_neg (by omega), if_pos rfl, hn, Option.map_some,
      List.append_nil]

end RuleTree

/-! ## Calls -/

/-- Whether a call only adds to the tree. To name or to comment a rule replaces its content. -/
def Call.appends : Call → Bool
  | .name _ | .comment _ => false
  | _ => true

/-- A call that only adds to the tree adds one behavior or one rule. -/
theorem Call.effect_of_appends {c : Catalog} {call : Call} {effect : Effect} (h : call.appends)
    (himport : call.isImport = false) (heffect : call.effect c = .ok effect) :
    (∃ use, effect = .change (Rule.addBehavior use)) ∨
      ∃ r : Rule, r.provenance.isSome ∧ effect = .child r := by
  have hbehavior {e : Entry} (h : (c.entry .behavior e).map
      (fun use => Effect.change (Rule.addBehavior use)) = .ok effect) :
      ∃ use, effect = .change (Rule.addBehavior use) := by
    obtain ⟨use, -, rfl⟩ := map_eq_ok.mp h
    exact ⟨use, rfl⟩
  have hcriterion {e : Entry} (h : (c.entry .criteria e).map
      (fun use => Effect.child { criteria := [use], provenance := some (.ofSite e.site) }) =
        .ok effect) :
      ∃ r : Rule, r.provenance.isSome ∧ effect = .child r := by
    obtain ⟨use, -, rfl⟩ := map_eq_ok.mp h
    exact ⟨_, rfl, rfl⟩
  cases call with
  | name text | comment text => cases h
  | behavior e => exact .inl (hbehavior heffect)
  | criteria e => exact .inr (hcriterion heffect)
  | add kind e =>
    cases kind with
    | criteria => exact .inr (hcriterion heffect)
    | behavior => exact .inl (hbehavior heffect)
  | group site label comment =>
    cases heffect
    exact .inr ⟨_, rfl, rfl⟩
  | compose policy site entries =>
    obtain ⟨uses, -, rfl⟩ := map_eq_ok.mp heffect
    exact .inr ⟨_, rfl, rfl⟩
  | importFile site expression => cases himport

namespace Workshop

variable (w : Workshop)

/-- An import places the rule of a file, or leaves the tree as it is. -/
theorem importFile_grows (directory : Path) (parent : RuleId) (expression : String)
    (t : RuleTree) :
    ((w.importFile directory parent expression).run t).2 = t ∨
      ∃ r : Rule, r.provenance.isSome ∧
        (t.insert parent r).Grows t.size ((w.importFile directory parent expression).run t).2 := by
  cases w.found ⟨[], directory, parent, expression, t⟩ with
  | cycle hmem _ => cases hmem
  | nothing _ e _ _ hrun =>
    left
    exact congrArg Prod.snd (hrun (w.importWithin w.files.count))
  | rule _ s r _ hrun =>
    right
    have hplace := hrun (w.importWithin w.files.count)
    obtain ⟨r', hr', hg⟩ := w.place_grows
      (w.importWithin_growsAt w.files.count [directory.resolve expression]) s r parent []
      (.ofPath (directory.resolve expression)) t
    exact ⟨r', by simp [hr'], (congrArg Prod.snd hplace).symm ▸ hg⟩

end Workshop

namespace Compiler

variable (c : Compiler) {scope : Nat} {t : RuleTree}

theorem carryOut_appendsAt (ht : scope < t.size) {x : Except CompileError Effect}
    (hx : ∀ effect, x = .ok effect → (∃ use, effect = .change (Rule.addBehavior use)) ∨
      ∃ r : Rule, r.provenance.isSome ∧ effect = .child r) :
    t.AppendsAt scope (carryOut scope t x).2 := by
  cases x with
  | error e => exact RuleTree.appendsAt_refl ht
  | ok effect =>
    rcases hx effect rfl with ⟨use, rfl⟩ | ⟨r, hr, rfl⟩
    · exact RuleTree.appendsAt_addBehavior ht use
    · exact RuleTree.appendsAt_insert ht hr .refl

/-- Whatever becomes of it, a call that only adds to the tree leaves all that was there. -/
theorem perform_appendsAt (ht : scope < t.size) {call : Call} (h : call.appends) :
    t.AppendsAt scope ((c.perform scope call).run t).2 := by
  cases himport : call.isImport with
  | false =>
    obtain ⟨t₁, hnodes, hgrows, hrun⟩ := c.perform_run scope himport t
    have hsize : t₁.size = t.size := congrArg List.length hnodes
    rw [hrun]
    exact .of_nodes hnodes hgrows.declared_isPrefix
      (carryOut_appendsAt (hsize ▸ ht) fun _ heffect => Call.effect_of_appends h himport heffect)
  | true =>
    cases call with
    | importFile site expression =>
      have himp := c.importFile_grows (site.directory c.sourceRoot) scope expression t
      have hsame : ((c.perform scope (.importFile site expression)).run t).2 =
          ((c.importFile (site.directory c.sourceRoot) scope expression).run t).2 := by
        rw [perform, run_bind]
        split <;> simp_all
      rw [hsame]
      rcases himp with hunchanged | ⟨r, hr, hg⟩
      · rw [hunchanged]
        exact RuleTree.appendsAt_refl ht
      · exact RuleTree.appendsAt_insert ht hr hg
    | _ => cases himport

/-! ## Failures -/

theorem use_run (kind : Capability.Kind) (entry : Entry) (t : RuleTree) :
    (c.use kind entry).run t =
      match entry.granted c.catalog kind with
      | .ok u => (.ok u.1, t.declareAll (Use.found u))
      | .error e => (.error e, t) := by
  rw [use, Workshop.capability_run, Entry.granted]
  cases hu : c.catalog.use kind entry.name entry.options (.ofSite entry.site) with
  | error e => rfl
  | ok u =>
    obtain ⟨d, -, -, -, -, hp⟩ := Catalog.use_eq_ok hu
    simp only [RuleTree.declareFound_eq, Use.found, hp]

/-- Nothing fails after a capability was granted. So if the whole fails, it was refused, and nothing
was done. -/
theorem use_then_error {f : Capability → Build RuleId}
    (hf : ∀ use t, ∃ id, ((f use).run t).1 = .ok id) {kind : Capability.Kind} {entry : Entry}
    {e : CompileError} (h : ((c.use kind entry >>= f).run t).1 = .error e) :
    ((c.use kind entry >>= f).run t).2 = t := by
  rw [run_bind, use_run] at h ⊢
  cases hu : entry.granted c.catalog kind with
  | error e' => rfl
  | ok u =>
    obtain ⟨id, hid⟩ := hf u.1 (t.declareAll (Use.found u))
    rw [hu] at h
    cases h.symm.trans hid

/-- Of several uses, those before the first that is refused have declared their variables. -/
theorem uses_error {kind : Capability.Kind} {entries : List Entry} {e : CompileError}
    (h : ((entries.mapM (c.use kind)).run t).1 = .error e) :
    ∃ k entry us, entries[k]? = some entry ∧ entry.granted c.catalog kind = .error e ∧
      (entries.take k).mapM (Entry.granted c.catalog kind) = .ok us ∧
      ((entries.mapM (c.use kind)).run t).2 = t.declareAll (us.flatMap Use.found) := by
  induction entries generalizing t with
  | nil => cases h
  | cons first rest ih =>
    rw [List.mapM_cons, run_bind, use_run] at h ⊢
    cases hfirst : first.granted c.catalog kind with
    | error e' =>
      rw [hfirst] at h
      cases h
      exact ⟨0, first, [], rfl, hfirst, rfl, rfl⟩
    | ok u =>
      simp only [hfirst, run_bind] at h ⊢
      cases hrun : (rest.mapM (c.use kind)).run (t.declareAll (Use.found u)) with
      | mk x t' =>
        rw [hrun] at h
        cases x with
        | ok uses => cases h
        | error e' =>
          cases h
          obtain ⟨k, entry, us, hentry, hrefused, hbefore, hleft⟩ := ih (by rw [hrun])
          rw [hrun] at hleft
          refine ⟨k + 1, entry, u :: us, hentry, hrefused, ?_, ?_⟩
          · rw [List.take_succ_cons, List.mapM_cons, hfirst, hbefore]
            rfl
          · rw [List.flatMap_cons, RuleTree.declareAll_append]
            exact hleft

end Compiler

/-- Whether a call is the use of one capability. -/
def Call.isUse : Call → Bool
  | .behavior _ | .criteria _ | .add .. => true
  | _ => false

namespace Compiler

variable (c : Compiler) {scope : Nat} {t : RuleTree}

theorem perform_error_of_isUse {call : Call} (h : call.isUse) {e : CompileError}
    (herror : ((c.perform scope call).run t).1 = .error e) :
    ((c.perform scope call).run t).2 = t := by
  have hbehavior {entry : Entry} (h : ((c.addBehavior scope entry).run t).1 = .error e) :
      ((c.addBehavior scope entry).run t).2 = t :=
    c.use_then_error (fun _ _ => ⟨scope, rfl⟩) h
  have hcriterion {entry : Entry} (h : ((c.addCriterion scope entry).run t).1 = .error e) :
      ((c.addCriterion scope entry).run t).2 = t :=
    c.use_then_error (fun _ t => ⟨t.size, rfl⟩) h
  cases call with
  | behavior entry => exact hbehavior herror
  | criteria entry => exact hcriterion herror
  | add kind entry =>
    cases kind with
    | criteria => exact hcriterion herror
    | behavior => exact hbehavior herror
  | _ => cases h

theorem perform_compose_error {policy : MatchPolicy} {site : Site} {entries : List Entry}
    {e : CompileError}
    (h : ((c.perform scope (.compose policy site entries)).run t).1 = .error e) :
    ∃ k entry us, entries[k]? = some entry ∧ entry.granted c.catalog .criteria = .error e ∧
      (entries.take k).mapM (Entry.granted c.catalog .criteria) = .ok us ∧
      ((c.perform scope (.compose policy site entries)).run t).2 =
        t.declareAll (us.flatMap Use.found) := by
  rw [perform, run_bind] at h ⊢
  cases hrun : (entries.mapM (c.use .criteria)).run t with
  | mk x t' =>
    rw [hrun] at h
    cases x with
    | ok uses => cases h
    | error e' =>
      cases h
      have huses := c.uses_error (congrArg Prod.fst hrun)
      rwa [hrun] at huses

/-- A file without a rule to place is found out before the tree is touched. -/
theorem perform_import_error {site : Site} {expression : String} {path : Path} {e : CompileError}
    (hpath : (site.directory c.sourceRoot).resolve expression = path)
    (h : (∃ failure, c.files.read path = .error failure ∧ e = .unreadable path failure) ∨
      ∃ text, c.files.read path = .ok text ∧ c.load ⟨path, text⟩ = .error e) :
    (c.perform scope (.importFile site expression)).run t = (.error e, t) := by
  subst hpath
  rw [perform, run_bind, Workshop.importFile, Workshop.importWithin_succ,
    Workshop.importStep]
  rcases h with ⟨failure, hread, rfl⟩ | ⟨text, hread, hload⟩
  · simp only [hread]
    rfl
  · simp only [hread, hload]
    rfl

/-- Whatever becomes of it, a call leaves all that was there and adds to it in one place. A use that
fails leaves the tree as it was. Where several uses fail together, the variables of those before the
first that is refused stay declared, and nothing else is left. A file that cannot be read, or holds
no rule that is accepted, leaves the tree as it was. -/
theorem perform_residue (ht : scope < t.size) :
    (∀ call : Call, call.appends → t.AppendsAt scope ((c.perform scope call).run t).2) ∧
    (∀ (call : Call) (e : CompileError), call.isUse →
      ((c.perform scope call).run t).1 = .error e → ((c.perform scope call).run t).2 = t) ∧
    (∀ (policy : MatchPolicy) (site : Site) (entries : List Entry) (e : CompileError),
      ((c.perform scope (.compose policy site entries)).run t).1 = .error e →
        ∃ k entry us, entries[k]? = some entry ∧ entry.granted c.catalog .criteria = .error e ∧
          (entries.take k).mapM (Entry.granted c.catalog .criteria) = .ok us ∧
          ((c.perform scope (.compose policy site entries)).run t).2.nodes = t.nodes ∧
          ((c.perform scope (.compose policy site entries)).run t).2.declared =
            t.declared.declareAll (us.flatMap Use.found)) ∧
    (∀ (site : Site) (expression : String) (path : Path) (e : CompileError),
      (site.directory c.sourceRoot).resolve expression = path →
      ((∃ failure, c.files.read path = .error failure ∧ e = .unreadable path failure) ∨
        ∃ text, c.files.read path = .ok text ∧ c.load ⟨path, text⟩ = .error e) →
      (c.perform scope (.importFile site expression)).run t = (.error e, t)) := by
  refine ⟨?_, ?_, ?_, ?_⟩
  · intro call hcall
    exact c.perform_appendsAt ht hcall
  · intro call e hcall herror
    exact c.perform_error_of_isUse hcall herror
  · intro policy site entries e herror
    obtain ⟨k, entry, us, hentry, hrefused, hbefore, hleft⟩ := c.perform_compose_error herror
    exact ⟨k, entry, us, hentry, hrefused, hbefore, by rw [hleft]; rfl, by rw [hleft]; rfl⟩
  · intro site expression path e hpath herror
    exact c.perform_import_error hpath herror

/-- A compiler with a criterion that names a variable, and no files. -/
def referringCompiler : Compiler :=
  { plainCompiler with
    catalog := {
      criteria := [{ Descriptor.bare "path" with variableHandling := { names := ["to"] } }] } }

/-- The second of these is refused. -/
def refusedEntries : List Entry :=
  [⟨⟨"rules/site", 1⟩, "path", .object [("to", .string "a")]⟩,
    ⟨⟨"rules/site", 2⟩, "unknown", .null⟩]

theorem perform_residue_refused :
    0 < freshTree.size ∧
    ((referringCompiler.perform 0 (.compose .all ⟨"rules/site", 1⟩ refusedEntries)).run
      freshTree).1 = .error (.unknownCapability .criteria "unknown") ∧
    ((referringCompiler.perform 0 (.compose .all ⟨"rules/site", 1⟩ refusedEntries)).run
      freshTree).2.declared.map (·.name) = ["a"] ∧
    freshTree.AppendsAt 0
      ((referringCompiler.perform 0 (.compose .all ⟨"rules/site", 1⟩ refusedEntries)).run
        freshTree).2 ∧
    (∃ k entry us, refusedEntries[k]? = some entry ∧
      entry.granted referringCompiler.catalog .criteria =
        .error (.unknownCapability .criteria "unknown") ∧
      (refusedEntries.take k).mapM (Entry.granted referringCompiler.catalog .criteria) = .ok us ∧
      ((referringCompiler.perform 0 (.compose .all ⟨"rules/site", 1⟩ refusedEntries)).run
        freshTree).2.nodes = freshTree.nodes ∧
      ((referringCompiler.perform 0 (.compose .all ⟨"rules/site", 1⟩ refusedEntries)).run
        freshTree).2.declared = freshTree.declared.declareAll (us.flatMap Use.found)) ∧
    (referringCompiler.perform 0 (.importFile ⟨"rules/site", 3⟩ "part.json")).run freshTree =
      (.error (.unreadable ⟨"rules/part.json"⟩ .noEntry), freshTree) := by
  have hroot : 0 < freshTree.size := Nat.zero_lt_one
  have hrefused : ((referringCompiler.perform 0
      (.compose .all ⟨"rules/site", 1⟩ refusedEntries)).run freshTree).1 =
        .error (.unknownCapability .criteria "unknown") := by rfl
  obtain ⟨happends, -, hcompose, himport⟩ := referringCompiler.perform_residue hroot
  exact ⟨hroot, hrefused, by decide +kernel, happends _ rfl, hcompose _ _ _ _ hrefused,
    himport _ _ _ _ (by rfl) (.inl ⟨_, by rfl, rfl⟩)⟩

end Compiler

end DeliveryRules
