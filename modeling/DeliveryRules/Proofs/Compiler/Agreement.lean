import DeliveryRules.Proofs.Compiler.Residue
import DeliveryRules.Proofs.Fragment.Inlining

/-!
# Fragments and calls that say the same

A rule can be written down in a fragment or built by calls. Where both say the same, they leave the
same.

- **Results** (`Agree`): both computations fail with one error, or they give what is related. What
  goes on from there agrees if it does on what is related (`Agree.bind`).
- **Forms** (`FragmentRule.HasForm`): the rules that calls can build. For each there is a step that
  says it (`FragmentRule.SaidBy`, `exists_saidBy`).
- **Uses** (`uses_agree`): the same uses are granted or refused to both, wherever they are written.
- **The rule itself** (`opening_outcome`, `labels_result`, `behaviors_result`): a call looks up its
  criteria before it puts in the rule, and a fragment after that. Both come to one new rule and the
  same declarations, because declarations do not touch the rules.
- `Compiler.runStep_agrees`: by induction over the rules below, in trees that are alike.
-/

namespace DeliveryRules

/-! ## Results -/

/-- Both fail with the same error, or give what is related. -/
inductive Agree {ε α β : Type} (R : α → β → Prop) : Except ε α → Except ε β → Prop
  | ok {a : α} {b : β} (h : R a b) : Agree R (.ok a) (.ok b)
  | error (e : ε) : Agree R (.error e) (.error e)

namespace Agree

variable {ε α β α' β' : Type} {R : α → β → Prop} {S : α' → β' → Prop}

theorem bind {x : Except ε α} {y : Except ε β} (h : Agree R x y) {f : α → Except ε α'}
    {g : β → Except ε β'} (hfg : ∀ a b, R a b → Agree S (f a) (g b)) :
    Agree S (x.bind f) (y.bind g) := by
  cases h with
  | ok h => exact hfg _ _ h
  | error e => exact .error e

theorem mapM {as : List α} {bs : List β} {f : α → Except ε α'} {g : β → Except ε β'}
    (h : List.Forall₂ (fun a b => Agree S (f a) (g b)) as bs) :
    Agree (List.Forall₂ S) (as.mapM f) (bs.mapM g) := by
  induction h with
  | nil => exact .ok .nil
  | cons hfirst _ ih =>
    rw [List.mapM_cons, List.mapM_cons]
    exact hfirst.bind fun _ _ hab => ih.bind fun _ _ hrest => .ok (.cons hab hrest)

end Agree

/-- The tree that a part of a run leaves, or the error that ended it. -/
def Outcome.result (o : Outcome) : Except CompileError RuleTree :=
  match o.failure with
  | some e => .error e
  | none => .ok o.tree

/-- The tree that a step of a build leaves, or its error. -/
def Build.result (m : Build Unit) (t : RuleTree) : Except CompileError RuleTree :=
  (m.outcome t).map (·.2)

theorem Outcome.result_followedBy (first : Outcome) (next : RuleTree → Outcome) :
    (first.followedBy next).result = first.result.bind fun t => (next t).result := by
  unfold followedBy result
  cases h : first.failure with
  | some e => simp only [h]; rfl
  | none => rfl

theorem Build.result_bind {α : Type} (m : Build α) (f : α → Build Unit) (t : RuleTree) :
    (m >>= f).result t = (m.outcome t).bind fun r => (f r.1).result r.2 := by
  rw [result, outcome_bind]
  cases m.outcome t <;> rfl

theorem Build.result_then (m m' : Build Unit) (t : RuleTree) :
    (m >>= fun _ => m').result t = (m.result t).bind m'.result := by
  rw [result_bind, result]
  cases m.outcome t <;> rfl

namespace Compiler

variable (c : Compiler)

theorem runStep_result (scope : RuleId) (call : Call) (inner : List Step) (t : RuleTree) :
    (c.runStep scope (.mk call false inner) t).result =
      ((c.perform scope call).outcome t).bind fun r => (c.runSteps r.1 inner r.2).result := by
  rw [runStep, Build.outcome]
  cases (c.perform scope call).run t with
  | mk x t' =>
    cases x with
    | error e => rfl
    | ok id => exact Outcome.result_followedBy _ _

theorem runSteps_result_cons (scope : RuleId) (s : Step) (ss : List Step) (t : RuleTree) :
    (c.runSteps scope (s :: ss) t).result =
      (c.runStep scope s t).result.bind fun t' => (c.runSteps scope ss t').result := by
  rw [runSteps, Outcome.result_followedBy]

theorem runSteps_result_append (scope : RuleId) (ss ss' : List Step) (t : RuleTree) :
    (c.runSteps scope (ss ++ ss') t).result =
      (c.runSteps scope ss t).result.bind fun t' => (c.runSteps scope ss' t').result := by
  induction ss generalizing t with
  | nil => rfl
  | cons s ss ih =>
    rw [List.cons_append, runSteps_result_cons, runSteps_result_cons]
    cases (c.runStep scope s t).result with
    | error e => rfl
    | ok t' => exact ih t'

end Compiler

/-! ## Forms -/

/-- A call that nothing goes on with. -/
def Step.alone (call : Call) : Step := .mk call false []

/-- What is used is the same, wherever it is written. -/
structure Entry.Repeats (e : Entry) (f : FragmentEntry) : Prop where
  name_eq : e.name = f.name
  options_eq : e.options = f.options

/-- The call that opens a rule with the criteria and the policy of a head, and the calls that name
the rule. A group has its name already. -/
inductive FragmentHead.OpenedBy (head : FragmentHead) : Call → List Call → Prop
  | group {name : String} {named : List Call} (site : Site) (hname : head.name = some name)
      (criteria : head.criteria = []) (policy : head.policy = none)
      (hnamed : named = [] ∨ named = [.name name]) : OpenedBy head (.group site name none) named
  | criteria {entry : Entry} {e : FragmentEntry} (criteria : head.criteria = [e])
      (repeats : entry.Repeats e) (policy : head.policy = none) :
      OpenedBy head (.criteria entry) (head.name.map Call.name).toList
  | compose {policy : MatchPolicy} {entries : List Entry} (site : Site)
      (hpolicy : head.policy = some policy)
      (repeats : List.Forall₂ Entry.Repeats entries head.criteria) :
      OpenedBy head (.compose policy site entries) (head.name.map Call.name).toList

mutual

/-- The step says what the rule says, without its variables: it opens the rule, names it, comments
it, gives it the behaviors and then the rules below it. -/
inductive FragmentRule.SaidBy : FragmentRule → Step → Prop
  | mk {head : FragmentHead} {children : List FragmentChild} {opening : Call} {named : List Call}
      {behaviors : List Entry} {below : List Step} (declared : head.declared = [])
      (opens : head.OpenedBy opening named)
      (repeats : List.Forall₂ Entry.Repeats behaviors head.behaviors)
      (hbelow : FragmentRule.AllSaidBy children below) :
      SaidBy (.mk head children) (.mk opening false
        ((named ++ (head.comment.map Call.comment).toList ++
          behaviors.map Call.behavior).map Step.alone ++ below))

inductive FragmentRule.AllSaidBy : List FragmentChild → List Step → Prop
  | nil : AllSaidBy [] []
  | cons {r : FragmentRule} {step : Step} {children : List FragmentChild} {steps : List Step}
      (first : FragmentRule.SaidBy r step) (rest : AllSaidBy children steps) :
      AllSaidBy (.rule r :: children) (step :: steps)

end

/-- A head without variables that has a name and neither criteria nor a policy, or one criterion and
no policy, or a policy. -/
def FragmentHead.HasForm (head : FragmentHead) : Prop :=
  head.declared = [] ∧
    (head.name.isSome ∧ head.criteria = [] ∧ head.policy = none ∨
      head.criteria.length = 1 ∧ head.policy = none ∨ head.policy.isSome)

mutual

/-- No rule mentions a fragment, and every one has the form of what a call opens. -/
inductive FragmentRule.HasForm : FragmentRule → Prop
  | mk {head : FragmentHead} {children : List FragmentChild} (form : head.HasForm)
      (below : FragmentRule.AllHaveForm children) : HasForm (.mk head children)

inductive FragmentRule.AllHaveForm : List FragmentChild → Prop
  | nil : AllHaveForm []
  | cons {r : FragmentRule} {children : List FragmentChild} (first : FragmentRule.HasForm r)
      (rest : AllHaveForm children) : AllHaveForm (.rule r :: children)

end

/-- An entry at some place in a source file. -/
def FragmentEntry.usedAt (site : Site) (f : FragmentEntry) : Entry := ⟨site, f.name, f.options⟩

theorem FragmentEntry.repeats_usedAt (site : Site) (fs : List FragmentEntry) :
    List.Forall₂ Entry.Repeats (fs.map (usedAt site)) fs := by
  rw [List.forall₂_map_left_iff]
  exact List.forall₂_same.mpr fun f _ => ⟨rfl, rfl⟩

theorem FragmentHead.exists_openedBy {head : FragmentHead} (site : Site) (h : head.HasForm) :
    ∃ opening named, head.OpenedBy opening named := by
  rcases h.2 with ⟨hname, hcriteria, hpolicy⟩ | ⟨hlength, hpolicy⟩ | hpolicy
  · obtain ⟨name, hname⟩ := Option.isSome_iff_exists.mp hname
    exact ⟨_, _, .group site hname hcriteria hpolicy (.inl rfl)⟩
  · obtain ⟨e, hcriteria⟩ := List.length_eq_one_iff.mp hlength
    have repeats : (e.usedAt site).Repeats e := ⟨rfl, rfl⟩
    exact ⟨_, _, .criteria hcriteria repeats hpolicy⟩
  · obtain ⟨policy, hpolicy⟩ := Option.isSome_iff_exists.mp hpolicy
    exact ⟨_, _, .compose site hpolicy (FragmentEntry.repeats_usedAt site head.criteria)⟩

mutual

/-- Calls can say every rule of such a form. -/
theorem FragmentRule.exists_saidBy (site : Site) : ∀ r : FragmentRule, r.HasForm →
    ∃ step, r.SaidBy step
  | .mk head children, h => by
    cases h with
    | mk form below =>
      obtain ⟨opening, named, opens⟩ := FragmentHead.exists_openedBy site form
      obtain ⟨steps, hsteps⟩ := exists_allSaidBy site children below
      exact ⟨_, .mk form.1 opens (FragmentEntry.repeats_usedAt site head.behaviors) hsteps⟩

theorem FragmentRule.exists_allSaidBy (site : Site) : ∀ children : List FragmentChild,
    AllHaveForm children → ∃ steps, AllSaidBy children steps
  | [], _ => ⟨[], .nil⟩
  | .mention _ :: _, h => by cases h
  | .rule r :: children, h => by
    cases h with
    | cons first rest =>
      obtain ⟨step, hstep⟩ := exists_saidBy site r first
      obtain ⟨steps, hsteps⟩ := exists_allSaidBy site children rest
      exact ⟨step :: steps, .cons hstep hsteps⟩

end

/-! ## Uses -/

theorem Catalog.use_agree (c : Catalog) (kind : Capability.Kind) (name : String) (given : Json)
    (p p' : Provenance) : Agree Use.Alike (c.use kind name given p) (c.use kind name given p') := by
  cases h : c.use kind name given p with
  | ok u =>
    obtain ⟨u', h', halike⟩ := use_alike h p'
    rw [h']
    exact .ok halike
  | error e =>
    -- What is refused does not depend on where it is written.
    have hrefused : c.use kind name given p' = .error e := by
      unfold use at h ⊢
      rcases bind_eq_error.mp h with hd | ⟨d, hd, h⟩
      · exact bind_eq_error.mpr (.inl hd)
      · refine bind_eq_error.mpr (.inr ⟨d, hd, ?_⟩)
        rcases bind_eq_error.mp h with ho | ⟨options, ho, h⟩
        · exact bind_eq_error.mpr (.inl ho)
        · refine bind_eq_error.mpr (.inr ⟨options, ho, ?_⟩)
          rcases bind_eq_error.mp h with hn | ⟨names, -, h⟩
          · exact bind_eq_error.mpr (.inl hn)
          · cases h
    rw [hrefused]
    exact .error e

theorem uses_agree {c : Catalog} {kind : Capability.Kind} {entries : List Entry}
    {fs : List FragmentEntry} (h : List.Forall₂ Entry.Repeats entries fs) (s : Source)
    (way : List String) :
    Agree (List.Forall₂ Use.Alike) (s.uses c kind way fs)
      (entries.mapM (Entry.granted c kind)) := by
  unfold Source.uses
  apply Agree.mapM
  generalize 0 = start
  induction h generalizing start with
  | nil => exact .nil
  | cons hfirst _ ih =>
    rw [List.zipIdx_cons]
    refine .cons ?_ (ih (start + 1))
    rw [Entry.granted, hfirst.name_eq, hfirst.options_eq]
    exact c.use_agree _ _ _ _ _

/-! ## The rule itself -/

namespace FragmentHead

variable (head : FragmentHead)

/-- The rule as the opening call puts it in. -/
def opened (name : Option String) (us : List Use) (site : Site) : Rule where
  name := name
  criteria := us.map (·.1)
  policy := head.policy
  provenance := some (.ofSite site)

/-- The calls give the rule its name, or it has it. -/
def NamedBy (name : Option String) (named : List Call) : Prop :=
  name = head.name ∧ named = [] ∨ ∃ n, head.name = some n ∧ named = [.name n]

theorem namedBy_toList : head.NamedBy none (head.name.map Call.name).toList := by
  unfold NamedBy
  cases h : head.name with
  | none => exact .inl ⟨rfl, rfl⟩
  | some n => exact .inr ⟨n, rfl, rfl⟩

end FragmentHead

namespace Compiler

variable (c : Compiler) {head : FragmentHead}

/-- The opening call looks up the criteria, which declares variables, and puts in the rule. -/
theorem opening_outcome {opening : Call} {named : List Call} (h : head.OpenedBy opening named) :
    ∃ entries name site, List.Forall₂ Entry.Repeats entries head.criteria ∧
      head.NamedBy name named ∧ ∀ (parent : RuleId) (t : RuleTree),
        (c.perform parent opening).outcome t =
          (entries.mapM (Entry.granted c.catalog .criteria)).map fun us =>
            (t.size, (t.insert parent (head.opened name us site)).declareAll
              (us.flatMap Use.found)) := by
  cases h with
  | @group name named site hname criteria policy hnamed =>
    refine ⟨[], some name, site, criteria ▸ .nil, ?_, fun parent t => ?_⟩
    · rcases hnamed with rfl | rfl
      · exact .inl ⟨hname.symm, rfl⟩
      · exact .inr ⟨name, hname, rfl⟩
    · simp only [FragmentHead.opened, policy]
      rfl
  | @criteria entry e criteria repeats policy =>
    refine ⟨[entry], none, entry.site, criteria ▸ .cons repeats .nil, head.namedBy_toList,
      fun parent t => ?_⟩
    rw [perform, addCriterion, Build.outcome_bind, use_outcome, List.mapM_cons, List.mapM_nil]
    cases entry.granted c.catalog .criteria with
    | error e => rfl
    | ok u =>
      simp only [Except.map, Except.bind, bind, pure, Except.pure, List.flatMap_cons,
        List.flatMap_nil, List.append_nil, FragmentHead.opened, policy]
      rfl
  | @compose policy entries site hpolicy repeats =>
    refine ⟨entries, none, site, repeats, head.namedBy_toList, fun parent t => ?_⟩
    rw [perform, Build.outcome_bind, uses_outcome]
    cases entries.mapM (Entry.granted c.catalog .criteria) with
    | error e => rfl
    | ok us =>
      simp only [Except.map, Except.bind, FragmentHead.opened, hpolicy]
      rfl

/-- A call that changes the rule that was just put in puts in the changed rule. -/
theorem runStep_alone_change {call : Call} {f : Rule → Rule} {t : RuleTree} {parent : RuleId}
    {r : Rule} {vs : List Variable}
    (h : ∀ scope t', (c.perform scope call).outcome t' = .ok (scope, t'.change scope f)) :
    (c.runStep t.size (.alone call) ((t.insert parent r).declareAll vs)).result =
      .ok ((t.insert parent (f r)).declareAll vs) := by
  rw [Step.alone, runStep_result, h, ← t.change_insert parent r f]
  rfl

/-- The calls that name and comment a rule give it what the head says. -/
theorem labels_result {name : Option String} {named : List Call} (h : head.NamedBy name named)
    (t : RuleTree) (parent : RuleId) {r : Rule} (hname : r.name = name)
    (hcomment : r.comment = none) (vs : List Variable) :
    (c.runSteps t.size ((named ++ (head.comment.map Call.comment).toList).map Step.alone)
        ((t.insert parent r).declareAll vs)).result =
      .ok ((t.insert parent { r with name := head.name, comment := head.comment }).declareAll
        vs) := by
  have hcommented (r : Rule) (hnone : r.comment = none) :
      (c.runSteps t.size (((head.comment.map Call.comment).toList).map Step.alone)
        ((t.insert parent r).declareAll vs)).result =
      .ok ((t.insert parent { r with comment := head.comment }).declareAll vs) := by
    cases head.comment with
    | none =>
      obtain ⟨_, _, _, _, _, _⟩ := r
      cases hnone
      rfl
    | some text =>
      rw [Option.map_some, Option.toList_some, List.map_singleton, runSteps_result_cons,
        c.runStep_alone_change (f := fun r => { r with comment := some text }) fun _ _ => rfl]
      rfl
  rw [List.map_append, runSteps_result_append]
  rcases h with ⟨hsame, rfl⟩ | ⟨n, hn, rfl⟩
  · have hnamed : r = { r with name := head.name } := by rw [← hsame, ← hname]
    rw [hnamed]
    exact hcommented _ hcomment
  · rw [List.map_singleton, runSteps_result_cons,
      c.runStep_alone_change (f := fun r => { r with name := some n }) fun _ _ => rfl, hn]
    exact hcommented { r with name := some n } hcomment

/-- Behaviors are put on the rule one after the other. -/
theorem behaviors_result (entries : List Entry) (t : RuleTree) (parent : RuleId) (r : Rule)
    (vs : List Variable) :
    (c.runSteps t.size ((entries.map Call.behavior).map Step.alone)
        ((t.insert parent r).declareAll vs)).result =
      (entries.mapM (Entry.granted c.catalog .behavior)).map fun us =>
        (t.insert parent { r with behaviors := r.behaviors ++ us.map (·.1) }).declareAll
          (vs ++ us.flatMap Use.found) := by
  induction entries generalizing r vs with
  | nil =>
    rw [List.mapM_nil]
    simp only [pure, Except.pure, Except.map, List.map_nil, List.flatMap_nil, List.append_nil]
    rfl
  | cons entry entries ih =>
    rw [List.map_cons, List.map_cons, runSteps_result_cons, Step.alone, runStep_result, perform,
      addBehavior, Build.outcome_bind, use_outcome, List.mapM_cons]
    cases entry.granted c.catalog .behavior with
    | error e => rfl
    | ok u =>
      have hchange : (((t.insert parent r).declareAll vs).declareAll (Use.found u)).change t.size
          (Rule.addBehavior u.1) =
          (t.insert parent (Rule.addBehavior u.1 r)).declareAll (vs ++ Use.found u) := by
        rw [← t.change_insert parent r, ← RuleTree.declareAll_append]
        rfl
      have hrest := ih (Rule.addBehavior u.1 r) (vs ++ Use.found u)
      rw [← hchange] at hrest
      refine Eq.trans hrest ?_
      cases entries.mapM (Entry.granted c.catalog .behavior) with
      | error e => rfl
      | ok us =>
        simp [Except.map, bind, Except.bind, pure, Except.pure, Rule.addBehavior]

/-! ## Rules with those below them -/

/-- A rule is placed with its uses, and its children below it. -/
theorem place_mk_result (importer : Workshop.Importer) (s : Source) (head : FragmentHead)
    (children : List FragmentChild) (parent : RuleId) (way : List String) (p : Provenance)
    (t : RuleTree) :
    (c.place importer s (.mk head children) parent way p).result t =
      (s.uses c.catalog .criteria (way ++ ["criteria"]) head.criteria).bind fun cs =>
        (s.uses c.catalog .behavior (way ++ ["behaviors"]) head.behaviors).bind fun bs =>
          (c.placeChildren importer s children t.size (way ++ ["children"]) 0).result
            ((t.insert parent (head.rule p (cs, bs))).declareAll
              (head.declarations s way (cs, bs))) := by
  rw [Workshop.place, Build.result_bind, Workshop.placeHead_outcome, FragmentHead.uses]
  cases s.uses c.catalog .criteria (way ++ ["criteria"]) head.criteria with
  | error e => rfl
  | ok cs => cases s.uses c.catalog .behavior (way ++ ["behaviors"]) head.behaviors <;> rfl

/-- Looked up in either order, the head of a rule comes to the same on both sides, and from there
on what is below it decides. -/
theorem head_agree {head : FragmentHead} {children : List FragmentChild} {opening : Call}
    {named : List Call} {behaviors : List Entry} {below : List Step}
    (declared : head.declared = []) (opens : head.OpenedBy opening named)
    (repeats : List.Forall₂ Entry.Repeats behaviors head.behaviors) (importer : Workshop.Importer)
    (s : Source) (way : List String) (p : Provenance) {parent : RuleId} {t t' : RuleTree}
    (ht : t.Alike t')
    (hbelow : ∀ t₁ t₁' : RuleTree, t₁.Alike t₁' → Agree RuleTree.Alike
      ((c.placeChildren importer s children t.size (way ++ ["children"]) 0).result t₁)
      (c.runSteps t.size below t₁').result) :
    Agree RuleTree.Alike ((c.place importer s (.mk head children) parent way p).result t)
      (c.runStep parent (.mk opening false
        ((named ++ (head.comment.map Call.comment).toList ++
          behaviors.map Call.behavior).map Step.alone ++ below)) t').result := by
  obtain ⟨entries, name, site, hcriteria, hnamed, houtcome⟩ := c.opening_outcome opens
  have hrun : (c.runStep parent (.mk opening false
        ((named ++ (head.comment.map Call.comment).toList ++
          behaviors.map Call.behavior).map Step.alone ++ below)) t').result =
      (entries.mapM (Entry.granted c.catalog .criteria)).bind fun cs =>
        (behaviors.mapM (Entry.granted c.catalog .behavior)).bind fun bs =>
          (c.runSteps t'.size below
            ((t'.insert parent (head.rule (.ofSite site) (cs, bs))).declareAll
              (cs.flatMap Use.found ++ bs.flatMap Use.found))).result := by
    rw [runStep_result, houtcome]
    cases entries.mapM (Entry.granted c.catalog .criteria) with
    | error e => rfl
    | ok cs =>
      simp only [Except.map, Except.bind]
      rw [runSteps_result_append, List.map_append, runSteps_result_append,
        c.labels_result hnamed t' parent rfl rfl, Except.bind, behaviors_result]
      cases behaviors.mapM (Entry.granted c.catalog .behavior) <;> rfl
  rw [place_mk_result, hrun, ← ht.size_eq]
  refine (uses_agree hcriteria s _).bind fun cs cs' hcs => ?_
  refine (uses_agree repeats s _).bind fun bs bs' hbs => ?_
  apply hbelow
  have hrule : (head.rule p (cs, bs)).unplaced = (head.rule (.ofSite site) (cs', bs')).unplaced :=
    FragmentHead.rule_unplaced hcs hbs _ _
  have hfound : List.Forall₂ Variable.Alike (head.declarations s way (cs, bs))
      (head.declarations s way (cs', bs')) := FragmentHead.declarations_alike hcs hbs _ _ _ _
  have hlisted : head.declarations s way (cs', bs') =
      cs'.flatMap Use.found ++ bs'.flatMap Use.found := by
    rw [FragmentHead.declarations, FragmentHead.listed, declared]
    rfl
  rw [hlisted] at hfound
  exact (ht.insert parent hrule).declareAll hfound

mutual

theorem place_agree (importer : Workshop.Importer) (s : Source) :
    ∀ (r : FragmentRule) {step : Step}, r.SaidBy step → ∀ (way : List String) (p : Provenance)
      (parent : RuleId) {t t' : RuleTree}, t.Alike t' →
      Agree RuleTree.Alike ((c.place importer s r parent way p).result t)
        (c.runStep parent step t').result
  | .mk head children, _, h, way, p, parent, t, t', ht => by
    cases h with
    | mk declared opens repeats hbelow =>
      exact c.head_agree declared opens repeats importer s way p ht fun _ _ h =>
        placeChildren_agree importer s children hbelow _ 0 t.size h

theorem placeChildren_agree (importer : Workshop.Importer) (s : Source) :
    ∀ (children : List FragmentChild) {steps : List Step},
      FragmentRule.AllSaidBy children steps → ∀ (way : List String) (count : Nat) (id : RuleId)
        {t t' : RuleTree}, t.Alike t' →
          Agree RuleTree.Alike ((c.placeChildren importer s children id way count).result t)
            (c.runSteps id steps t').result
  | [], _, h, way, count, id, t, t', ht => by
    cases h
    exact .ok ht
  | .mention _ :: _, _, h, _, _, _, _, _, _ => by cases h
  | .rule r :: children, _, h, way, count, id, t, t', ht => by
    cases h with
    | cons first rest =>
      rw [Workshop.placeChildren, Build.result_then, runSteps_result_cons, Workshop.placeChild]
      exact (place_agree importer s r first _ _ id ht).bind fun _ _ h =>
        placeChildren_agree importer s children rest way (count + 1) id h

end

/-- A rule of a fragment that mentions no other, declares no variables and has everywhere the form
of what a call opens can be said by calls. However it is said, and wherever it is put, placing the
rule and making the calls leave trees that are alike, or fail with the same error. -/
theorem runStep_agrees {r : FragmentRule} (h : r.HasForm) :
    (∃ step, r.SaidBy step) ∧
      ∀ step, r.SaidBy step →
        ∀ (importer : Workshop.Importer) (s : Source) (way : List String) (p : Provenance)
          (parent : RuleId) (t : RuleTree),
          Agree RuleTree.Alike ((c.place importer s r parent way p).result t)
            (c.runStep parent step t).result :=
  ⟨r.exists_saidBy ⟨"", 0⟩ h, fun _ hsaid importer s way p parent t =>
    c.place_agree importer s r hsaid way p parent (.refl t)⟩

/-- A group with a comment and a behavior; below it a rule with one criterion, and one that has to
meet any of two. -/
def commentedRule : FragmentRule :=
  .mk { name := some "a", comment := some "b", behaviors := [⟨"caching", .null⟩] }
    [.rule (.mk { name := some "c", criteria := [⟨"path", .null⟩] } []),
      .rule (.mk { policy := some .any, criteria := [⟨"path", .null⟩, ⟨"path", .null⟩] } [])]

def commentedStep : Step :=
  .mk (.group ⟨"rules", 1⟩ "a" none) false
    [.alone (.comment "b"), .alone (.behavior ⟨⟨"rules", 2⟩, "caching", .null⟩),
      .mk (.criteria ⟨⟨"rules", 3⟩, "path", .null⟩) false [.alone (.name "c")],
      .mk (.compose .any ⟨"rules", 4⟩
        [⟨⟨"rules", 4⟩, "path", .null⟩, ⟨⟨"rules", 4⟩, "path", .null⟩]) false []]

theorem runStep_agrees_commented :
    commentedRule.HasForm ∧ commentedRule.SaidBy commentedStep ∧
      ∃ t t' : RuleTree, t.size = 4 ∧
        (plainCompiler.place plainCompiler.importFile ⟨⟨"f"⟩, ""⟩ commentedRule RuleTree.rootId []
          ⟨"f"⟩).result freshTree = .ok t ∧
        (plainCompiler.runStep RuleTree.rootId commentedStep freshTree).result = .ok t' ∧
        t.Alike t' := by
  have form : commentedRule.HasForm := by
    refine .mk ⟨rfl, .inl ⟨rfl, rfl, rfl⟩⟩ (.cons (.mk ⟨rfl, .inr (.inl ⟨rfl, rfl⟩)⟩ .nil)
      (.cons (.mk ⟨rfl, .inr (.inr rfl)⟩ .nil) .nil))
  have said : commentedRule.SaidBy commentedStep := by
    have path (line : Nat) : Entry.Repeats ⟨⟨"rules", line⟩, "path", .null⟩ ⟨"path", .null⟩ :=
      ⟨rfl, rfl⟩
    have caching : List.Forall₂ Entry.Repeats [⟨⟨"rules", 2⟩, "caching", .null⟩]
        [⟨"caching", .null⟩] := .cons ⟨rfl, rfl⟩ .nil
    have opened : FragmentHead.OpenedBy
        { name := some "a", comment := some "b", behaviors := [⟨"caching", .null⟩] }
        (.group ⟨"rules", 1⟩ "a" none) [] := .group _ rfl rfl rfl (.inl rfl)
    have one : FragmentHead.OpenedBy { name := some "c", criteria := [⟨"path", .null⟩] }
        (.criteria ⟨⟨"rules", 3⟩, "path", .null⟩) [.name "c"] := .criteria rfl (path 3) rfl
    have either : FragmentHead.OpenedBy
        { policy := some .any, criteria := [⟨"path", .null⟩, ⟨"path", .null⟩] }
        (.compose .any ⟨"rules", 4⟩
          [⟨⟨"rules", 4⟩, "path", .null⟩, ⟨⟨"rules", 4⟩, "path", .null⟩]) [] :=
      .compose _ rfl (.cons (path 4) (.cons (path 4) .nil))
    have below := FragmentRule.AllSaidBy.cons (.mk rfl one .nil .nil)
      (.cons (.mk rfl either .nil .nil) .nil)
    have said := FragmentRule.SaidBy.mk rfl opened caching below
    exact said
  have agrees := (plainCompiler.runStep_agrees form).2 commentedStep said plainCompiler.importFile
    ⟨⟨"f"⟩, ""⟩ [] ⟨"f"⟩ RuleTree.rootId freshTree
  have hplaced : (plainCompiler.place plainCompiler.importFile ⟨⟨"f"⟩, ""⟩ commentedRule
      RuleTree.rootId [] ⟨"f"⟩).result freshTree = .ok _ := rfl
  have hrun : (plainCompiler.runStep RuleTree.rootId commentedStep freshTree).result = .ok _ := rfl
  rw [hplaced, hrun] at agrees
  cases agrees with
  | ok halike => exact ⟨form, said, _, _, rfl, hplaced, hrun, halike⟩

end Compiler

end DeliveryRules
