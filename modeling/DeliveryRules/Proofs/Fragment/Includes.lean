import DeliveryRules.Proofs.Fragment.Planting
import DeliveryRules.Proofs.Fragment.Refusals

/-!
# Fragments that include one another

- **Chains** (`Workshop.IncludeChain`): the ways from a file along the mentions in files that were
  loaded.
- **No way back** (`IncludeChain.not_mem`): a file with an expansion is not on a chain that returns
  to itself, because what it mentions has a smaller expansion.
- **Every way ends** (`expandsFile_of_chains`): if no chain returns to itself, and what chains lead
  to can be loaded, there is an expansion.
- `Workshop.importFile_outcome`: a file that has an expansion is imported as this is planted.
- `Workshop.importFile_includes`: the import ends, knows at each moment which files it is in, and
  refuses exactly the files that include themselves.
-/

namespace DeliveryRules

namespace Workshop

variable {w : Workshop}

/-! ## Chains -/

/-- A way from the file at `start` along mentions. The files of `chain`, of which the last comes
first, were loaded, and in the last of them `path` is mentioned. -/
inductive IncludeChain (w : Workshop) (start : Path) : List Path → Path → Prop
  | start : IncludeChain w start [] start
  | step {chain : List Path} {path : Path} {s : Source} {r : FragmentRule} {expression : String}
      (h : IncludeChain w start chain path) (holds : w.Holds path s r)
      (hmem : expression ∈ r.mentions) :
      IncludeChain w start (path :: chain) (s.directory.resolve expression)

/-- What a file mentions has a smaller expansion. -/
theorem ExpandsFile.mentions {path : Path} {e : Expansion} (h : w.ExpandsFile path e) {s : Source}
    {r : FragmentRule} (holds : w.Holds path s r) {expression : String}
    (hmem : expression ∈ r.mentions) :
    ∃ e', w.ExpandsFile (s.directory.resolve expression) e' ∧ e'.size < e.size := by
  cases h with
  | mk holds' below =>
    obtain ⟨rfl, rfl⟩ := holds'.unique holds
    obtain ⟨e', hfile, hsize⟩ := below.mentions _ expression hmem
    exact ⟨e', hfile, Nat.lt_succ_of_le hsize⟩

/-- No file of the chain has an expansion as small as `e`. -/
def Inside (w : Workshop) (e : Expansion) (chain : List Path) : Prop :=
  ∀ path ∈ chain, ∀ outer, w.ExpandsFile path outer → e.size < outer.size

theorem Inside.not_mem {e : Expansion} {chain : List Path} (h : w.Inside e chain) {path : Path}
    (hfile : w.ExpandsFile path e) : path ∉ chain :=
  fun hmem => Nat.lt_irrefl _ (h path hmem e hfile)

theorem Inside.cons {e e' : Expansion} {chain : List Path} {path : Path} (h : w.Inside e chain)
    (hfile : w.ExpandsFile path e) (hsize : e'.size < e.size) : w.Inside e' (path :: chain) := by
  intro p hp outer houter
  rcases List.mem_cons.mp hp with rfl | hp
  · rwa [houter.unique hfile]
  · exact Nat.lt_trans hsize (h p hp outer houter)

/-- From a file with an expansion, chains go into ever smaller ones. -/
theorem IncludeChain.inside {start path : Path} {chain : List Path}
    (h : w.IncludeChain start chain path) {e : Expansion} (hstart : w.ExpandsFile start e) :
    ∃ e', w.ExpandsFile path e' ∧ w.Inside e' chain := by
  induction h with
  | start => exact ⟨e, hstart, nofun⟩
  | step _ holds hmem ih =>
    obtain ⟨e', hfile, hinside⟩ := ih
    obtain ⟨e'', hfile', hsize⟩ := hfile.mentions holds hmem
    exact ⟨e'', hfile', hinside.cons hfile hsize⟩

theorem IncludeChain.not_mem {start path : Path} {chain : List Path}
    (h : w.IncludeChain start chain path) {e : Expansion} (hstart : w.ExpandsFile start e) :
    path ∉ chain := by
  obtain ⟨e', hfile, hinside⟩ := h.inside hstart
  exact hinside.not_mem hfile

/-! ## Every way ends -/

mutual

theorem expands_of_mentions {s : Source} : ∀ (c : FragmentChild) (way : List String),
    FragmentRule.isMarkedChild c →
      (∀ expression ∈ FragmentRule.mentionsOf c,
        ∃ e, w.ExpandsFile (s.directory.resolve expression) e) → ∃ e, w.Expands s way c e
  | .mention text, way, hmarked, h => by
    obtain ⟨expression, hmentioned⟩ := Option.isSome_iff_exists.mp hmarked
    obtain ⟨e, hfile⟩ := h expression (by simp [FragmentRule.mentionsOf, hmentioned])
    exact ⟨e, expands_mention.mpr ⟨expression, hmentioned, hfile⟩⟩
  | .rule (.mk head cs), way, hmarked, h => by
    obtain ⟨es, below⟩ := expandsAll_of_mentions cs (way ++ ["children"]) 0 hmarked h
    exact ⟨_, .node (.rule _) below⟩

/-- Where all that is mentioned has an expansion, the children that mention it have. -/
theorem expandsAll_of_mentions {s : Source} : ∀ (cs : List FragmentChild) (way : List String)
    (count : Nat), FragmentRule.allMarked cs →
      (∀ expression ∈ FragmentRule.mentionsIn cs,
        ∃ e, w.ExpandsFile (s.directory.resolve expression) e) →
          ∃ es, w.ExpandsAll s way count cs es
  | [], _, _, _, _ => ⟨[], .nil⟩
  | c :: cs, way, count, hmarked, h => by
    rw [FragmentRule.allMarked, Bool.and_eq_true] at hmarked
    obtain ⟨e, first⟩ := expands_of_mentions c (way ++ [toString count]) hmarked.1
      fun x hx => h x (List.mem_append_left _ hx)
    obtain ⟨es, rest⟩ := expandsAll_of_mentions cs way (count + 1) hmarked.2
      fun x hx => h x (List.mem_append_right _ hx)
    exact ⟨e :: es, .cons first rest⟩

end

/-- The file at the end of a chain is new, and was loaded. -/
def GoesOn (w : Workshop) (chain : List Path) (path : Path) : Prop :=
  path ∉ chain ∧ ∃ s r, w.Holds path s r ∧ r.isMarked

/-- If all chains from a file go on where they lead, then at some point they have nowhere to go. -/
theorem expandsFile_of_chains (hw : w.files.IsFinite) {start : Path}
    (h : ∀ chain path, w.IncludeChain start chain path → w.GoesOn chain path) :
    ∃ e, w.ExpandsFile start e := by
  obtain ⟨known, -, hknown⟩ := hw
  suffices hall : ∀ n chain path, left known chain = n → w.IncludeChain start chain path →
      ∃ e, w.ExpandsFile path e from hall _ [] start rfl .start
  -- On the number of files that are left outside of the chain.
  intro n
  induction n using Nat.strongRecOn with
  | _ n ih =>
    rintro chain path rfl hchain
    obtain ⟨hnew, s, ⟨head, cs⟩, holds, hmarked⟩ := h chain path hchain
    obtain ⟨es, below⟩ := expandsAll_of_mentions cs ["children"] 0 hmarked fun expression hmem =>
      ih _ (left_cons_lt (hknown _ _ holds.read_eq) hnew) _ _ rfl (hchain.step holds hmem)
    exact ⟨_, .mk holds below⟩

/-! ## Imports -/

theorem importWithin_outcome {known : List Path}
    (hknown : ∀ path text, w.files.read path = .ok text → path ∈ known) {fuel : Nat}
    {chain : List Path} (hfuel : left known chain < fuel) {directory : Path} {expression : String}
    {e : Expansion} (hfile : w.ExpandsFile (directory.resolve expression) e)
    (hinside : w.Inside e chain) (parent : RuleId) (t : RuleTree) :
    (w.importWithin fuel chain directory parent expression).outcome t =
      (e.plant w.catalog parent t).map fun t' => ((), t') := by
  induction fuel generalizing chain directory expression e parent t with
  | zero => omega
  | succ fuel ih =>
    have hnew := hinside.not_mem hfile
    rcases w.found ⟨chain, directory, parent, expression, t⟩ with
      ⟨hmem, -⟩ | ⟨-, _, -, hnone, -⟩ | ⟨-, s, r, holds, hrun⟩
    · exact absurd hmem hnew
    · cases hfile with
      | mk holds _ => exact absurd holds (hnone _ _)
    · have houtcome := Build.outcome_congr (hrun (w.importWithin fuel))
      have hleft := left_cons_lt (hknown _ _ holds.read_eq) hnew
      have hplants : Importer.Plants (w.importWithin fuel (directory.resolve expression :: chain)) w
          s r.mentions := by
        intro mentioned hmem e' hfile' id t'
        obtain ⟨e'', hfile'', hsize⟩ := hfile.mentions holds hmem
        obtain rfl := hfile'.unique hfile''
        exact ih (Nat.lt_of_lt_of_le hleft (Nat.le_of_lt_succ hfuel)) hfile'
          (hinside.cons hfile hsize) id t'
      cases hfile with
      | mk holds' below =>
        obtain ⟨rfl, rfl⟩ := holds'.unique holds
        exact houtcome.trans (place_outcome below hplants _ _ _)

/-- A file that has an expansion is imported as its expansion is planted. -/
theorem importFile_outcome (hw : w.files.IsFinite) {directory : Path} {expression : String}
    {e : Expansion} (hfile : w.ExpandsFile (directory.resolve expression) e) (parent : RuleId)
    (t : RuleTree) :
    (w.importFile directory parent expression).outcome t =
      (e.plant w.catalog parent t).map fun t' => ((), t') := by
  obtain ⟨known, hcount, hknown⟩ := hw
  exact importWithin_outcome hknown
    (Nat.lt_succ_of_le (Nat.le_trans (left_le known []) hcount)) hfile nofun parent t

/-! ## Requests under way -/

/-- The requests that are being answered, from the innermost one on: each was asked for while the
next one was being answered. -/
inductive Answering (w : Workshop) (first : Request) : List Request → Prop
  | start : Answering w first [first]
  | ask {q q' : Request} {qs : List Request} (h : Answering w first (q :: qs))
      (asks : w.Asks q q') : Answering w first (q' :: q :: qs)

/-- The files being read are those of the requests being answered. -/
theorem Answering.chain_eq {first q : Request} {qs : List Request}
    (h : w.Answering first (q :: qs)) (hfirst : first.chain = []) :
    q.chain = qs.map Request.path ∧ q.chain.Nodup ∧
      ∀ path ∈ q.chain, ∃ text, w.files.read path = .ok text := by
  generalize hall : q :: qs = all at h
  induction h generalizing q qs with
  | start =>
    cases hall
    rw [hfirst]
    exact ⟨rfl, .nil, nofun⟩
  | ask _ asks ih =>
    cases hall
    obtain ⟨hchain, hnodup, hread⟩ := ih rfl
    rw [asks.chain_eq]
    refine ⟨by rw [hchain]; rfl, List.nodup_cons.mpr ⟨asks.new, hnodup⟩, fun path hpath => ?_⟩
    rcases List.mem_cons.mp hpath with rfl | hpath
    · exact asks.read_eq
    · exact hread path hpath

/-- An import that says that a fragment includes itself has found it among the files being read. -/
theorem Answering.cycle (hw : w.files.IsFinite) {first q : Request} {qs : List Request}
    (h : w.Answering first (q :: qs)) {path : Path}
    (hrun : (q.run w.importInside).1 = .error (.badFragment path .includesItself)) :
    ∃ q' qs', w.Answering first (q' :: qs') ∧ q'.path = path ∧ path ∈ q'.chain := by
  induction q using (asks_wellFounded hw).induction generalizing qs with
  | _ q ih =>
    have hstep : q.run w.importInside = q.run (w.importStep w.importInside) := by
      rw [Request.run, importInside_eq hw, Request.run]
    rw [hstep] at hrun
    rcases w.found q with ⟨hmem, heq⟩ | ⟨-, e, he, -, heq⟩ | ⟨hnew, s, r, holds, heq⟩
    · rw [heq] at hrun
      cases hrun
      exact ⟨q, qs, h, rfl, hmem⟩
    · rw [heq] at hrun
      cases hrun
      cases he
    · rw [heq] at hrun
      obtain ⟨q', hq', hrun'⟩ := place_cycleAt? rfl hrun
      have hasks : w.Asks q q' := ⟨hnew, s, r, holds, hq'⟩
      exact ih q' hasks (h.ask hasks) hrun'

/-- While a request is answered, the rule of its file is placed. -/
theorem Asks.run_eq (hw : w.files.IsFinite) {q q' : Request} (h : w.Asks q q')
    {e : CompileError} (he : (q'.run w.importInside).1 = .error e) :
    q.run w.importInside = q'.run w.importInside := by
  obtain ⟨s, r, holds, hmem⟩ := h.asked
  have hstep : q.run w.importInside = q.run (w.importStep w.importInside) := by
    rw [Request.run, importInside_eq hw, Request.run]
  rw [hstep]
  rcases w.found q with ⟨hcycle, -⟩ | ⟨-, _, -, hnone, -⟩ | ⟨-, s', r', holds', hrun⟩
  · exact absurd hcycle h.new
  · exact absurd holds (hnone s r)
  · obtain ⟨rfl, rfl⟩ := holds.unique holds'
    rw [hrun]
    exact place_stops he r hmem

/-- An import ends with the first request under way that fails, however deep it is. -/
theorem Answering.stops (hw : w.files.IsFinite) {first q : Request} {qs : List Request}
    (h : w.Answering first (q :: qs)) {e : CompileError}
    (he : (q.run w.importInside).1 = .error e) :
    first.run w.importInside = q.run w.importInside := by
  generalize hall : q :: qs = all at h
  induction h generalizing q qs with
  | start =>
    cases hall
    rfl
  | ask _ asks ih =>
    cases hall
    have hrun := asks.run_eq hw he
    exact (ih (hrun ▸ he) rfl).trans hrun

/-- The recursion without a bound on its depth has one solution. -/
theorem importStep_unique (hw : w.files.IsFinite) (f : List Path → Importer) :
    (∀ chain, f chain = w.importStep f chain) ↔ f = w.importInside := by
  constructor
  · intro hf
    suffices h : ∀ q : Request, q.run f = q.run w.importInside by
      funext chain directory parent expression t
      exact h ⟨chain, directory, parent, expression, t⟩
    intro q
    induction q using (asks_wellFounded hw).induction with
    | _ q ih =>
      have hstep : q.run f = q.run (w.importStep f) := by rw [Request.run, hf, Request.run]
      have hstep' : q.run w.importInside = q.run (w.importStep w.importInside) := by
        rw [Request.run, importInside_eq hw, Request.run]
      rw [hstep, hstep']
      rcases w.found q with ⟨-, heq⟩ | ⟨-, e, -, -, heq⟩ | ⟨hnew, s, r, holds, heq⟩
      · rw [heq, heq]
      · rw [heq, heq]
      · rw [heq, heq]
        exact place_congr r fun q' hq' => ih q' ⟨hnew, s, r, holds, hq'⟩
  · rintro rfl
    exact importInside_eq hw

/-! ## The import -/

/-- The import of a file ends: no request leads to requests forever, and so the recursion without a
bound on its depth has this one solution. At each moment the files being read are those of the
requests being answered, none is among them twice, and all are there. That a fragment includes
itself is said only of a file that is being read; and if a chain of includes returns to itself,
there is an error. If none does, and everything on them can be loaded, a copy of each file is put
in for each mention of it, unless a use of a capability is refused. -/
theorem importFile_includes (w : Workshop) (hw : w.files.IsFinite) (directory : Path)
    (parent : RuleId) (expression : String) (t : RuleTree) :
    let first : Request := ⟨[], directory, parent, expression, t⟩
    let result := (w.importFile directory parent expression).run t
    (WellFounded (fun q' q => w.Asks q q') ∧
      w.importFile = w.importInside [] ∧
      ∀ f : List Path → Importer, (∀ chain, f chain = w.importStep f chain) ↔ f = w.importInside) ∧
    (∀ q qs, w.Answering first (q :: qs) →
      q.chain = qs.map Request.path ∧ q.chain.Nodup ∧
        ∀ path ∈ q.chain, ∃ text, w.files.read path = .ok text) ∧
    (∀ path, result.1 = .error (.badFragment path .includesItself) →
      ∃ q qs, w.Answering first (q :: qs) ∧ q.path = path ∧ path ∈ q.chain) ∧
    (∀ chain path, w.IncludeChain first.path chain path → path ∈ chain → result.1 ≠ .ok ()) ∧
    ((∀ chain path, w.IncludeChain first.path chain path → w.GoesOn chain path) →
      t.WellFormed → parent < t.size → ∃ e, w.ExpandsFile first.path e ∧
        match e.sketch w.catalog with
        | .ok sketch => result.1 = .ok () ∧
            result.2.sketchAt parent = (t.sketchAt parent).add sketch
        | .error error => result.1 = .error error) := by
  intro first result
  refine ⟨⟨asks_wellFounded hw, rfl, importStep_unique hw⟩, fun q qs h => h.chain_eq rfl,
    fun path h => Answering.start.cycle hw h, ?_, ?_⟩
  · intro chain path hchain hmem hok
    have houtcome : (w.importFile directory parent expression).outcome t = .ok ((), result.2) :=
      Build.outcome_eq_ok.mpr (Prod.ext hok rfl)
    obtain ⟨e, hfile, -⟩ := importWithin_expands _ _ _ _ _ _ _ houtcome
    exact hchain.not_mem hfile hmem
  · intro hgoes ht hparent
    obtain ⟨e, hfile⟩ := expandsFile_of_chains hw hgoes
    refine ⟨e, hfile, ?_⟩
    have houtcome := importFile_outcome hw hfile parent t
    have hplant := e.plant_sketch ht hparent (c := w.catalog)
    cases hsketch : e.sketch w.catalog with
    | error error =>
      rw [hsketch] at hplant
      rw [hplant] at houtcome
      exact Build.outcome_eq_error.mp houtcome
    | ok sketch =>
      rw [hsketch] at hplant
      obtain ⟨t', hplant, -, hadd⟩ := hplant
      rw [hplant] at houtcome
      have hrun : result = (.ok (), t') := Build.outcome_eq_ok.mp houtcome
      rw [hrun]
      exact ⟨rfl, hadd⟩

/-- Two files that include a third one. -/
def diamond : Workshop where
  catalog := {}
  registry := ⟨[("v1", ⟨.bool true, .d7⟩)]⟩
  files := .ofTexts [
    ("top.json", "\x7b\"children\": [\"#include:left.json\", \"#include:right.json\"]\x7d"),
    ("left.json", "\x7b\"children\": [\"#include:bottom.json\"]\x7d"),
    ("right.json", "\x7b\"children\": [\"#include:./bottom.json\"]\x7d"),
    ("bottom.json", "\x7b\"name\": \"twice\"\x7d")]
  ruleFormat := "v1"
  excerptWidth := 80

/-- What importing a file into an empty tree comes to: whether there is no error, and the names of
the rules. -/
def imported (w : Workshop) (expression : String) : Bool × List (Option String) :=
  let result := (w.importFile ⟨""⟩ RuleTree.rootId expression).run (.ofRoot {})
  (result.1.isOk, result.2.nodes.map (·.rule.name))

/-- The third file is put in twice, and no chain of includes returns to itself. -/
theorem importFile_includes_diamond :
    diamond.files.IsFinite ∧
      diamond.imported "top.json" = (true, [none, none, none, some "twice", none, some "twice"]) ∧
      ∀ chain path, diamond.IncludeChain (Path.resolve ⟨""⟩ "top.json") chain path →
        path ∉ chain := by
  have hfinite : diamond.files.IsFinite := Files.ofTexts_isFinite _
  have himported : diamond.imported "top.json" =
      (true, [none, none, none, some "twice", none, some "twice"]) := by
    set_option maxRecDepth 10000 in decide +kernel
  refine ⟨hfinite, himported, fun chain path hchain hmem => ?_⟩
  have hall := diamond.importFile_includes hfinite ⟨""⟩ RuleTree.rootId "top.json" (.ofRoot {})
  have hok := congrArg Prod.fst himported
  exact hall.2.2.2.1 chain path hchain hmem (eq_ok_of_isOk hok)

end Workshop

end DeliveryRules
