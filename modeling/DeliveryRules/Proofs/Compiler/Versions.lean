import DeliveryRules.Compiler.Script
import DeliveryRules.Proofs.Fragment.Acceptance
import DeliveryRules.Proofs.Fragment.Construction
import DeliveryRules.Proofs.Fragment.Includes
import Mathlib.Data.List.Permutation

/-!
# Which schema a fragment is checked against

A compiler has a schema of its own for the version of its settings, and those of a directory.

* **Directories** (`Registry.find?_foldlM_loadFile`): of the files for a version the last one
  counts, and it comes before what was known. Files with another extension are passed over.
* **Fragments** (`Workshop.verdict`, `Workshop.Answering.verdict`): what becomes of a fragment that
  is checked against a schema, and with it of the import that it is read for.
* **Choice** (`Compiler.Chooses`): the schema for a version, by the files that are listed and the
  settings.
* `Compiler.ofSettings_versions`: when there is a compiler, and that each fragment it reads is
  checked against the schema for its own version, whatever includes it.
-/

namespace DeliveryRules

/-- The text of the file is JSON, and a schema. -/
def Files.HoldsSchema (files : Files) (path : Path) (schema : Schema) : Prop :=
  ∃ text j, files.read path = .ok text ∧ Json.read text = .ok j ∧ Schema.ofJson j = .ok schema

/-- The file is for a version: this is its name, before the extension `json`. -/
def Path.IsFor (path : Path) (version : String) : Prop :=
  path.extension? = some "json" ∧ path.stem? = some version

instance (path : Path) (version : String) : Decidable (path.IsFor version) :=
  inferInstanceAs (Decidable (_ ∧ _))

/-- The last of some files that is for a version. In a directory no two files have one name. -/
def Path.lastFor? (paths : List Path) (version : String) : Option Path :=
  (paths.filter (·.IsFor version)).getLast?

/-- The files that are listed in the directory of schemas, in this order. Where there is no such
directory, none is. -/
def Settings.Lists (s : Settings) (files : Files) (paths : List Path) : Prop :=
  match s.schemaDirectory with
  | some directory => files.list directory = .ok paths
  | none => paths = []

theorem Files.HoldsSchema.unique {files : Files} {path : Path} {schema schema' : Schema}
    (h : files.HoldsSchema path schema) (h' : files.HoldsSchema path schema') :
    schema = schema' := by
  obtain ⟨text, j, htext, hj, hschema⟩ := h
  obtain ⟨text', j', htext', hj', hschema'⟩ := h'
  obtain rfl := Except.ok.inj (htext.symm.trans htext')
  obtain rfl := Except.ok.inj (hj.symm.trans hj')
  exact Except.ok.inj (hschema.symm.trans hschema')

theorem Path.exists_isFor {path : Path} (h : path.extension? = some "json") :
    ∃ version, path.IsFor version := by
  obtain ⟨name, hname, -⟩ := Option.bind_eq_some_iff.mp h
  exact ⟨(splitName name).1, h, by rw [stem?, hname]; rfl⟩

theorem Path.IsFor.unique {path : Path} {version version' : String} (h : path.IsFor version)
    (h' : path.IsFor version') : version = version' :=
  Option.some.inj (h.2.symm.trans h'.2)

section LastFor

variable {paths : List Path} {path : Path} {version : String}

theorem Path.lastFor?_concat_of_isFor (h : path.IsFor version) :
    lastFor? (paths ++ [path]) version = some path := by
  simp [lastFor?, h]

theorem Path.lastFor?_concat_of_not_isFor (h : ¬ path.IsFor version) :
    lastFor? (paths ++ [path]) version = lastFor? paths version := by
  simp [lastFor?, h]

end LastFor

namespace Registry

variable {files : Files} {r r' : Registry} {path : Path} {paths : List Path} {version : String}
  {schema : Schema}

theorem versionOf?_eq_some : versionOf? path = some version ↔ path.IsFor version := by
  rw [versionOf?, Path.IsFor]
  split
  · rename_i h
    exact ⟨fun hstem => ⟨h, hstem⟩, fun h => h.2⟩
  · rename_i h
    exact ⟨nofun, fun h' => absurd h'.1 h⟩

theorem versionOf?_eq_none : versionOf? path = none ↔ path.extension? ≠ some "json" := by
  constructor
  · intro h hextension
    obtain ⟨version, hfor⟩ := Path.exists_isFor hextension
    rw [versionOf?_eq_some.mpr hfor] at h
    cases h
  · intro h
    rw [versionOf?, if_neg h]

theorem find?_insert_of_ne {other : String} (h : other ≠ version) :
    (r.insert version schema).find? other = r.find? other := by
  obtain ⟨entries⟩ := r
  simp only [find?, insert, List.lookup_cons, beq_eq_false_iff_ne.mpr h]
  induction entries with
  | nil => rfl
  | cons entry entries ih =>
    obtain ⟨v, known⟩ := entry
    by_cases hv : v = version
    · have hne : (other == v) = false := beq_eq_false_iff_ne.mpr (hv ▸ h)
      rw [List.filter_cons_of_neg (by simpa using hv), List.lookup_cons, hne, ih]
    · rw [List.filter_cons_of_pos (by simpa using hv), List.lookup_cons, List.lookup_cons, ih]

theorem builtIn_eq_ok_iff {c : Catalog} : builtIn c version = .ok r ↔
    ∃ schema, Schema.ofJson c.ruleSchema = .ok schema ∧ r = empty.insert version schema := by
  rw [builtIn, register, mapError_eq_ok, map_eq_ok]
  simp only [eq_comm]

/-- A file is passed over, or its schema is registered. -/
theorem loadFile_eq_ok : loadFile files r path = .ok r' ↔
    path.extension? ≠ some "json" ∧ r' = r ∨
      ∃ version schema, path.IsFor version ∧ files.HoldsSchema path schema ∧
        r' = r.insert version schema := by
  cases hversion : versionOf? path with
  | none =>
    have hother := versionOf?_eq_none.mp hversion
    rw [loadFile, hversion]
    constructor
    · intro h
      cases h
      exact .inl ⟨hother, rfl⟩
    · rintro (⟨-, rfl⟩ | ⟨_, _, hfor, -⟩)
      · rfl
      · exact absurd hfor.1 hother
  | some version =>
    have hfor := versionOf?_eq_some.mp hversion
    rw [loadFile, hversion]
    constructor
    · intro h
      obtain ⟨text, htext, h⟩ := bind_eq_ok.mp h
      obtain ⟨j, hj, h⟩ := bind_eq_ok.mp h
      obtain ⟨schema, hschema, rfl⟩ := map_eq_ok.mp (mapError_eq_ok.mp h)
      exact .inr ⟨version, schema, hfor,
        ⟨text, j, mapError_eq_ok.mp htext, mapError_eq_ok.mp hj, hschema⟩, rfl⟩
    · rintro (⟨hother, -⟩ | ⟨version', schema, hfor', ⟨text, j, htext, hj, hschema⟩, rfl⟩)
      · exact absurd hfor.1 hother
      · obtain rfl := hfor.unique hfor'
        refine bind_eq_ok.mpr ⟨text, mapError_eq_ok.mpr htext, ?_⟩
        refine bind_eq_ok.mpr ⟨j, mapError_eq_ok.mpr hj, ?_⟩
        exact mapError_eq_ok.mpr (map_eq_ok.mpr ⟨schema, hschema, rfl⟩)

/-- A directory is loaded if all its files with the extension hold schemas. -/
theorem foldlM_loadFile_isOk : (∃ r', paths.foldlM (loadFile files) r = .ok r') ↔
    ∀ path ∈ paths, path.extension? = some "json" → ∃ schema, files.HoldsSchema path schema := by
  constructor
  · rintro ⟨r', h⟩ path hmem hextension
    obtain ⟨a, x, hload⟩ := foldlM_eq_ok h path hmem
    rcases loadFile_eq_ok.mp hload with ⟨hother, -⟩ | ⟨_, schema, -, holds, -⟩
    · exact absurd hextension hother
    · exact ⟨schema, holds⟩
  · intro h
    refine foldlM_isOk (fun path hmem a => ?_) r
    by_cases hextension : path.extension? = some "json"
    · obtain ⟨version, hfor⟩ := Path.exists_isFor hextension
      obtain ⟨schema, holds⟩ := h path hmem hextension
      exact ⟨_, loadFile_eq_ok.mpr (.inr ⟨version, schema, hfor, holds, rfl⟩)⟩
    · exact ⟨a, loadFile_eq_ok.mpr (.inl ⟨hextension, rfl⟩)⟩

/-- Of the files for a version the last one counts, and it comes before what was known. -/
theorem find?_foldlM_loadFile (h : paths.foldlM (loadFile files) r = .ok r') (version : String) :
    match Path.lastFor? paths version with
    | some path => ∃ schema, files.HoldsSchema path schema ∧ r'.find? version = some schema
    | none => r'.find? version = r.find? version := by
  -- From the last file on: it comes before all that were loaded already.
  induction paths using List.reverseRecOn generalizing r' with
  | nil =>
    cases h
    rfl
  | append_singleton paths path ih =>
    rw [List.foldlM_append] at h
    obtain ⟨r₁, hpaths, h⟩ := bind_eq_ok.mp h
    rw [List.foldlM_cons] at h
    obtain ⟨r₂, hpath, h⟩ := bind_eq_ok.mp h
    cases h
    have hbefore := ih hpaths
    by_cases hfor : path.IsFor version
    · rcases loadFile_eq_ok.mp hpath with ⟨hother, -⟩ | ⟨version', schema, hfor', holds, rfl⟩
      · exact absurd hfor.1 hother
      · obtain rfl := hfor.unique hfor'
        rw [Path.lastFor?_concat_of_isFor hfor]
        exact ⟨schema, holds, find?_insert _ _ _⟩
    · have hfind : r'.find? version = r₁.find? version := by
        rcases loadFile_eq_ok.mp hpath with ⟨-, rfl⟩ | ⟨version', schema, hfor', -, rfl⟩
        · rfl
        · exact find?_insert_of_ne fun hversion => hfor (hversion ▸ hfor')
      rw [Path.lastFor?_concat_of_not_isFor hfor, hfind]
      exact hbefore

/-- Only the files with the extension are read. -/
theorem loadFile_congr {other : Files}
    (h : path.extension? = some "json" → other.read path = files.read path) (r : Registry) :
    loadFile other r path = loadFile files r path := by
  cases hversion : versionOf? path with
  | none => rw [loadFile, loadFile, hversion]
  | some version => rw [loadFile, loadFile, h (versionOf?_eq_some.mp hversion).1]

theorem foldlM_loadFile_congr {other : Files}
    (h : ∀ path ∈ paths, path.extension? = some "json" → other.read path = files.read path)
    (r : Registry) : paths.foldlM (loadFile other) r = paths.foldlM (loadFile files) r := by
  induction paths generalizing r with
  | nil => rfl
  | cons path paths ih =>
    rw [List.forall_mem_cons] at h
    rw [List.foldlM_cons, List.foldlM_cons, loadFile_congr h.1]
    exact congrArg _ (funext (ih h.2))

end Registry

/-! ## Fragments -/

namespace Workshop

variable {w : Workshop}

/-- What becomes of a fragment that is checked against a schema, or for which there is none. -/
def verdict (w : Workshop) (s : Source) (document : Json) :
    Option Schema → Except CompileError FragmentRule
  | none => .error (.unknownRuleFormat (w.versionOf document))
  | some schema =>
    match schema.violation? document with
    | some v => .error (s.fault w.excerptWidth v.message v.pointer)
    | none => (FragmentRule.decode document).mapError fun e => s.fault w.excerptWidth e.message ""

/-- A fragment is checked against the schema for its own version. -/
theorem load_eq_verdict {s : Source} {document : Json} (hread : Json.read s.text = .ok document) :
    w.load s = w.verdict s document (w.registry.find? (w.versionOf document)) := by
  rw [load, hread]
  simp only [Except.mapError, bind, Except.bind]
  cases w.registry.find? (w.versionOf document) with
  | none => rfl
  | some schema =>
    simp only [verdict]
    cases schema.violation? document <;> rfl

theorem run_importInside_of_read (hw : w.files.IsFinite) {q : Request} (hnew : q.path ∉ q.chain)
    {text : String} {document : Json} (htext : w.files.read q.path = .ok text)
    (hdocument : Json.read text = .ok document) :
    q.run w.importInside =
      match w.verdict ⟨q.path, text⟩ document (w.registry.find? (w.versionOf document)) with
      | .error e => (.error e, q.tree)
      | .ok r => (w.place (w.importInside (q.path :: q.chain)) ⟨q.path, text⟩ r q.parent []
          (.ofPath q.path)).run q.tree := by
  rw [Request.run, importInside_eq hw, ← load_eq_verdict (s := ⟨q.path, text⟩) hdocument]
  exact run_importStep_of_read hnew htext _

/-- A request that is under way goes by the schema for the version of its file, and the whole import
fails if this is not met. -/
theorem Answering.verdict (hw : w.files.IsFinite) {first q : Request} {qs : List Request}
    (h : w.Answering first (q :: qs)) (hnew : q.path ∉ q.chain) {text : String} {document : Json}
    (htext : w.files.read q.path = .ok text) (hdocument : Json.read text = .ok document)
    {found : Option Schema} (hfound : w.registry.find? (w.versionOf document) = found) :
    match w.verdict ⟨q.path, text⟩ document found with
    | .error e => q.run w.importInside = (.error e, q.tree) ∧
        first.run w.importInside = (.error e, q.tree)
    | .ok r => q.run w.importInside = (w.place (w.importInside (q.path :: q.chain)) ⟨q.path, text⟩ r
        q.parent [] (.ofPath q.path)).run q.tree := by
  have hrun := run_importInside_of_read hw hnew htext hdocument
  rw [hfound] at hrun
  cases hverdict : w.verdict ⟨q.path, text⟩ document found with
  | error e =>
    rw [hverdict] at hrun
    exact ⟨hrun, (h.stops hw (congrArg Prod.fst hrun)).trans hrun⟩
  | ok r =>
    rw [hverdict] at hrun
    exact hrun

end Workshop

/-! ## Compilers -/

namespace Compiler

variable {s : Settings} {c : Catalog} {files : Files} {paths : List Path} {k : Compiler}
  {version : String}

/-- The schema for a version, if there is one: that of a listed file for it, of the last one if
there are several, or else the one made from the catalog, if the version is that of the settings. -/
inductive Chooses (s : Settings) (c : Catalog) (files : Files) (paths : List Path)
    (version : String) : Option Schema → Prop
  | listed {path : Path} {schema : Schema} (hpath : Path.lastFor? paths version = some path)
      (holds : files.HoldsSchema path schema) : Chooses s c files paths version (some schema)
  | builtIn {schema : Schema} (hnone : Path.lastFor? paths version = none)
      (hversion : version = s.ruleFormat) (hschema : Schema.ofJson c.ruleSchema = .ok schema) :
      Chooses s c files paths version (some schema)
  | unknown (hnone : Path.lastFor? paths version = none) (hversion : version ≠ s.ruleFormat) :
      Chooses s c files paths version none

theorem Chooses.unique {found found' : Option Schema} (h : Chooses s c files paths version found)
    (h' : Chooses s c files paths version found') : found = found' := by
  cases h with
  | listed hpath holds =>
    cases h' with
    | listed hpath' holds' =>
      obtain rfl := Option.some.inj (hpath.symm.trans hpath')
      rw [holds.unique holds']
    | builtIn hnone => cases hpath.symm.trans hnone
    | unknown hnone => cases hpath.symm.trans hnone
  | builtIn hnone hversion hschema =>
    cases h' with
    | listed hpath => cases hpath.symm.trans hnone
    | builtIn _ _ hschema' => rw [Except.ok.inj (hschema.symm.trans hschema')]
    | unknown _ hother => exact absurd hversion hother
  | unknown hnone hother =>
    cases h' with
    | listed hpath => cases hpath.symm.trans hnone
    | builtIn _ hversion => exact absurd hversion hother
    | unknown => rfl

/-- A compiler with a registry. -/
def withRegistry (s : Settings) (c : Catalog) (files : Files) (registry : Registry) : Compiler where
  catalog := c
  registry := registry
  files := files
  ruleFormat := s.ruleFormat
  excerptWidth := s.excerptWidth
  sourceRoot := s.sourceRoot

theorem ofSettings_of_lists (h : s.Lists files paths) :
    ofSettings s c files = ((Registry.builtIn c s.ruleFormat).bind fun r =>
      paths.foldlM (Registry.loadFile files) r).map (withRegistry s c files) := by
  rw [ofSettings]
  cases hbuiltIn : Registry.builtIn c s.ruleFormat with
  | error e => rfl
  | ok r =>
    rw [Settings.Lists] at h
    cases hdirectory : s.schemaDirectory with
    | none =>
      rw [hdirectory] at h
      subst h
      rfl
    | some directory =>
      rw [hdirectory] at h
      simp only [Registry.loadDirectory, h, Except.mapError, bind, Except.bind]
      cases paths.foldlM (Registry.loadFile files) r <;> rfl

theorem exists_lists_of_ofSettings (h : ofSettings s c files = .ok k) :
    ∃ paths, s.Lists files paths := by
  simp only [Settings.Lists]
  cases hdirectory : s.schemaDirectory with
  | none => exact ⟨[], rfl⟩
  | some directory =>
    rw [ofSettings, hdirectory] at h
    obtain ⟨r, -, h⟩ := bind_eq_ok.mp h
    obtain ⟨r', hload, -⟩ := bind_eq_ok.mp h
    obtain ⟨paths, hpaths, -⟩ := bind_eq_ok.mp hload
    exact ⟨paths, mapError_eq_ok.mp hpaths⟩

/-- A compiler has loaded the files that are listed, after the schema made from its catalog. -/
theorem ofSettings_eq_ok (h : s.Lists files paths) : ofSettings s c files = .ok k ↔
    ∃ schema registry, Schema.ofJson c.ruleSchema = .ok schema ∧
      paths.foldlM (Registry.loadFile files) (Registry.empty.insert s.ruleFormat schema) =
        .ok registry ∧ withRegistry s c files registry = k := by
  rw [ofSettings_of_lists h, map_eq_ok]
  constructor
  · rintro ⟨registry, hload, rfl⟩
    obtain ⟨r, hbuiltIn, hload⟩ := bind_eq_ok.mp hload
    obtain ⟨schema, hschema, rfl⟩ := Registry.builtIn_eq_ok_iff.mp hbuiltIn
    exact ⟨schema, registry, hschema, hload, rfl⟩
  · rintro ⟨schema, registry, hschema, hload, rfl⟩
    have hbuiltIn : Registry.builtIn c s.ruleFormat =
        .ok (Registry.empty.insert s.ruleFormat schema) :=
      Registry.builtIn_eq_ok_iff.mpr ⟨schema, hschema, rfl⟩
    exact ⟨registry, bind_eq_ok.mpr ⟨_, hbuiltIn, hload⟩, rfl⟩

/-- When there is a compiler. -/
theorem exists_ofSettings : (∃ k, ofSettings s c files = .ok k) ↔
    (∃ schema, Schema.ofJson c.ruleSchema = .ok schema) ∧ ∃ paths, s.Lists files paths ∧
      ∀ path ∈ paths, path.extension? = some "json" → ∃ schema, files.HoldsSchema path schema := by
  constructor
  · rintro ⟨k, hk⟩
    obtain ⟨paths, hpaths⟩ := exists_lists_of_ofSettings hk
    obtain ⟨schema, registry, hschema, hload, -⟩ := (ofSettings_eq_ok hpaths).mp hk
    exact ⟨⟨schema, hschema⟩, paths, hpaths, Registry.foldlM_loadFile_isOk.mp ⟨registry, hload⟩⟩
  · rintro ⟨⟨schema, hschema⟩, paths, hpaths, hall⟩
    obtain ⟨registry, hload⟩ := Registry.foldlM_loadFile_isOk.mpr hall
    exact ⟨_, (ofSettings_eq_ok hpaths).mpr ⟨schema, registry, hschema, hload, rfl⟩⟩

/-- What a compiler finds for a version is what is chosen for it. -/
theorem chooses_find? (hpaths : s.Lists files paths) (hk : ofSettings s c files = .ok k)
    (version : String) : Chooses s c files paths version (k.registry.find? version) := by
  obtain ⟨schema, registry, hschema, hload, rfl⟩ := (ofSettings_eq_ok hpaths).mp hk
  have hfind := Registry.find?_foldlM_loadFile hload version
  cases hpath : Path.lastFor? paths version with
  | some path =>
    rw [hpath] at hfind
    obtain ⟨schema', holds, hfind⟩ := hfind
    exact hfind ▸ .listed hpath holds
  | none =>
    rw [hpath] at hfind
    by_cases hversion : version = s.ruleFormat
    · rw [hversion, Registry.find?_insert] at hfind
      exact hversion ▸ hfind ▸ .builtIn (hversion ▸ hpath) rfl hschema
    · rw [Registry.find?_insert_of_ne hversion] at hfind
      exact hfind ▸ .unknown hpath hversion

/-- Where a store has the same schemas, the same are registered. -/
theorem registry_congr {other : Files} (h : s.Lists files paths) (h' : s.Lists other paths)
    (hread : ∀ path ∈ paths, path.extension? = some "json" → other.read path = files.read path) :
    (ofSettings s c other).map (·.registry) = (ofSettings s c files).map (·.registry) := by
  rw [ofSettings_of_lists h, ofSettings_of_lists h',
    funext (Registry.foldlM_loadFile_congr hread)]
  cases (Registry.builtIn c s.ruleFormat).bind fun r =>
    paths.foldlM (Registry.loadFile files) r <;> rfl

/-- A call fails with the import that it asks for. -/
theorem perform_importFile_of_error {scope : RuleId} {site : Site} {expression : String}
    {tree tree' : RuleTree} {e : CompileError}
    (h : Request.run k.importInside ⟨[], site.directory k.sourceRoot, scope, expression, tree⟩ =
      (.error e, tree')) :
    (k.perform scope (.importFile site expression)).run tree = (.error e, tree') := by
  rw [Request.run] at h
  rw [perform, run_bind, Workshop.importFile, ← Workshop.importInside, h]

/-- There is a compiler if the schema made from the catalog is one, and the directory of schemas can
be listed and each file in it with the extension `json` holds one; other files are not read. Then
one schema at most is chosen for each version. For each request of an import that is under way,
however deep, whose file is read and is JSON, the schema is the one chosen for the version of this
file alone: the whole import fails where the file has no schema or does not fit it, and the rule of
the file is placed otherwise. -/
theorem ofSettings_versions (hfiles : files.IsFinite) :
    ((∃ k, ofSettings s c files = .ok k) ↔
      (∃ schema, Schema.ofJson c.ruleSchema = .ok schema) ∧ ∃ paths, s.Lists files paths ∧
        ∀ path ∈ paths, path.extension? = some "json" →
          ∃ schema, files.HoldsSchema path schema) ∧
    (∀ (other : Files) paths, s.Lists files paths → s.Lists other paths →
      (∀ path ∈ paths, path.extension? = some "json" → other.read path = files.read path) →
        (ofSettings s c other).map (·.registry) = (ofSettings s c files).map (·.registry)) ∧
    ∀ k paths, ofSettings s c files = .ok k → s.Lists files paths →
      (∀ version, ∃! found, Chooses s c files paths version found) ∧
      ∀ scope (site : Site) expression tree q qs text document found,
        k.Answering ⟨[], site.directory s.sourceRoot, scope, expression, tree⟩ (q :: qs) →
        q.path ∉ q.chain → files.read q.path = .ok text → Json.read text = .ok document →
        Chooses s c files paths ((document.memberString? "ruleFormat").getD s.ruleFormat) found →
          match k.verdict ⟨q.path, text⟩ document found with
          | .error e => q.run k.importInside = (.error e, q.tree) ∧
              (k.perform scope (.importFile site expression)).run tree = (.error e, q.tree)
          | .ok r => q.run k.importInside =
              (k.place (k.importInside (q.path :: q.chain)) ⟨q.path, text⟩ r q.parent []
                (.ofPath q.path)).run q.tree := by
  refine ⟨exists_ofSettings, fun other paths h h' hread => registry_congr h h' hread,
    fun k paths hk hpaths => ⟨fun version => ⟨_, chooses_find? hpaths hk version,
      fun found hfound => hfound.unique (chooses_find? hpaths hk version)⟩, ?_⟩⟩
  intro scope site expression tree q qs text document found hunder hnew htext hdocument hfound
  obtain ⟨schema, registry, -, -, rfl⟩ := (ofSettings_eq_ok hpaths).mp hk
  have hverdict := hunder.verdict hfiles hnew htext hdocument
    (hfound.unique (chooses_find? hpaths hk _)).symm
  generalize Workshop.verdict _ _ _ _ = outcome at hverdict ⊢
  cases outcome with
  | error e => exact ⟨hverdict.1, perform_importFile_of_error hverdict.2⟩
  | ok r => exact hverdict

/-- A directory with a schema for the version of the settings, which any document fits. -/
def permissive : Settings := { ruleFormat := "v1", schemaDirectory := some ⟨"schemas"⟩ }

/-- The included fragment is of another version than the one that includes it. -/
def versioned : Files := .ofTexts [
  ("schemas/README.md", "A schema for each version."),
  ("schemas/v1.json", "true"),
  ("top.json", "\x7b\"children\": [\"#include:sub.json\"]\x7d"),
  ("sub.json", "\x7b\"ruleFormat\": \"v9\"\x7d")]

/-- The request of a script. -/
def includingRequest : Request :=
  ⟨[], ⟨"."⟩, RuleTree.rootId, "top.json", freshTree⟩

/-- The request for the fragment that is included. -/
def includedRequest : Request where
  chain := [⟨"top.json"⟩]
  directory := ⟨""⟩
  parent := freshTree.nextId
  expression := "sub.json"
  tree := freshTree.insert RuleTree.rootId { provenance := some (.ofPath ⟨"top.json"⟩) }

theorem versioned_lists :
    permissive.Lists versioned [⟨"schemas/README.md"⟩, ⟨"schemas/v1.json"⟩] := by
  have hsorted : Path.sorted [⟨"schemas/README.md"⟩, ⟨"schemas/v1.json"⟩] =
      [⟨"schemas/README.md"⟩, ⟨"schemas/v1.json"⟩] := by
    rw [Path.sorted, List.mergeSort_of_pairwise] <;> decide +kernel
  exact congrArg Except.ok hsorted

theorem versioned_holdsSchema :
    versioned.HoldsSchema ⟨"schemas/v1.json"⟩ ⟨.bool true, .latest⟩ :=
  ⟨"true", .bool true, rfl, by cbv, rfl⟩

theorem versioned_answering {registry : Registry}
    (hfind : registry.find? "v1" = some ⟨.bool true, .latest⟩) :
    (withRegistry permissive {} versioned registry).Answering includingRequest
      [includedRequest, includingRequest] := by
  have hread : Json.read "\x7b\"children\": [\"#include:sub.json\"]\x7d" =
      .ok (.object [("children", .array [.string "#include:sub.json"])]) := by cbv
  have holds : (withRegistry permissive {} versioned registry).Holds ⟨"top.json"⟩
      ⟨⟨"top.json"⟩, "\x7b\"children\": [\"#include:sub.json\"]\x7d"⟩
      (.mk {} [.mention "#include:sub.json"]) := by
    refine ⟨rfl, rfl, (Workshop.load_eq_verdict (s := ⟨⟨"top.json"⟩, _⟩) hread).trans ?_⟩
    change Workshop.verdict _ _ _ (registry.find? "v1") = _
    rw [hfind]
    rfl
  have hpath : includingRequest.path = ⟨"top.json"⟩ := by decide
  refine .ask .start ⟨List.not_mem_nil, _, _, hpath ▸ holds, ?_⟩
  rw [hpath]
  exact List.mem_cons_self

/-- The fragment for which there is no schema is the included one. -/
theorem ofSettings_versions_included : versioned.IsFinite ∧
    ∃ k, ofSettings permissive {} versioned = .ok k ∧
      ((k.perform RuleTree.rootId (.importFile ⟨"main.rs", 1⟩ "top.json")).run freshTree).1 =
        .error (.unknownRuleFormat "v9") := by
  have hfinite : versioned.IsFinite := Files.ofTexts_isFinite _
  obtain ⟨hexists, -, hversions⟩ := ofSettings_versions (s := permissive) (c := {}) hfinite
  obtain ⟨k, hk⟩ : ∃ k, ofSettings permissive {} versioned = .ok k := by
    obtain ⟨r, hbuiltIn⟩ := Registry.builtIn_eq_ok (c := {}) nofun nofun "v1"
    obtain ⟨schema, hschema, -⟩ := Registry.builtIn_eq_ok_iff.mp hbuiltIn
    refine hexists.mpr ⟨⟨schema, hschema⟩, _, versioned_lists, ?_⟩
    simp only [List.forall_mem_cons]
    exact ⟨fun h => absurd h (by decide), fun _ => ⟨_, versioned_holdsSchema⟩, nofun⟩
  refine ⟨hfinite, k, hk, ?_⟩
  obtain ⟨-, hfragment⟩ := hversions k _ hk versioned_lists
  have hfind := (chooses_find? versioned_lists hk "v1").unique
    (.listed (by decide) versioned_holdsSchema)
  obtain ⟨_, registry, -, -, rfl⟩ := (ofSettings_eq_ok versioned_lists).mp hk
  have htext : versioned.read includedRequest.path = .ok "\x7b\"ruleFormat\": \"v9\"\x7d" :=
    eq_ok_of_toOption (by decide)
  have hread : Json.read "\x7b\"ruleFormat\": \"v9\"\x7d" =
      .ok (.object [("ruleFormat", .string "v9")]) := by cbv
  have hfailed := hfragment RuleTree.rootId ⟨"main.rs", 1⟩ "top.json" freshTree includedRequest
    [includingRequest] _ _ none (versioned_answering hfind) (by decide) htext hread
    (.unknown (by decide) (by decide))
  exact congrArg Prod.fst hfailed.2

end Compiler

end DeliveryRules
