import DeliveryRules.Proofs.Except
import DeliveryRules.Settings.Layers

/-!
# Which layer a setting comes from

The settings that are loaded, by what the layers say as it is written there.

* **Layers** (`Layers`, `Layers.highest`): what the highest layer says that says anything about a
  setting.
* **Paths** (`Layers.placed`): a path of a file is expanded and then seen from the directory of the
  file, and one of the environment is expanded. This is what becomes of the directory of schemas
  and of the catalog.
* `load_layers`: each setting is that of the highest layer. The root of the source files is expanded
  once more after it has been placed, which is seen where that changes it
  (`load_layers_dollar`).
-/

namespace DeliveryRules

/-- What the file of settings in a directory says, as it is written there. -/
def Layer.written (files : Files) (directory : Path) : Except SettingsError Layer :=
  let path := directory.join Settings.fileName
  match files.read path with
  | .error failure => if isMissing failure then .ok {} else .error (.unreadable path failure)
  | .ok text => (ofText text).mapError (.malformed path)

/-- What the environment says, as it is written there. A width that is no number is not said. -/
def Layer.surrounding (e : Environment) : Layer where
  ruleFormat := inEnvironment? e "rule_format"
  schemaDirectory := (inEnvironment? e "schema_dir").map (⟨·⟩)
  catalog := (inEnvironment? e "catalog").map (⟨·⟩)
  sourceRoot := (inEnvironment? e "source_root").map (⟨·⟩)
  excerptWidth := ((inEnvironment? e "excerpt_width").bind integerText?).map Int.toNat

deriving instance DecidableEq for Layer

/-- What the three layers say, each as it is written. -/
structure Layers where
  environment : Layer
  project : Layer
  user : Layer

namespace Layers

/-- These are the layers in the environment, in the directory of the project and in the one of the
user. Where the user has none, no file says anything. -/
structure AreIn (ls : Layers) (files : Files) (e : Environment) (project : Path) : Prop where
  environment : ls.environment = Layer.surrounding e
  project : Layer.written files project = .ok ls.project
  user : match Settings.userDirectory? e with
    | some directory => Layer.written files directory = .ok ls.user
    | none => ls.user = {}

variable {α : Type}

/-- What the highest layer says that says anything. -/
def highest (ls : Layers) (f : Layer → Option α) : Option α :=
  (f ls.environment).or ((f ls.project).or (f ls.user))

/-- The path of the highest layer. Each is expanded once, and those of a file are seen from its
directory. -/
def placed (ls : Layers) (e : Environment) (project : Path) (f : Layer → Option Path) :
    Option Path :=
  ((f ls.environment).map (·.expanded e)).or
    (((f ls.project).map fun p => project.join (p.expanded e)).or
      ((Settings.userDirectory? e).bind fun directory =>
        (f ls.user).map fun p => directory.join (p.expanded e)))

end Layers

namespace Layer

variable {files : Files} {e : Environment} {directory : Path} {l : Layer}

theorem ofFile_eq (files : Files) (e : Environment) (directory : Path) :
    ofFile files e directory (directory.join Settings.fileName) =
      (written files directory).map (anchored e directory) := by
  rw [ofFile, written]
  cases files.read (directory.join Settings.fileName) with
  | error failure =>
    simp only
    split <;> rfl
  | ok text => rfl

theorem ofEnvironment_eq_ok (h : ofEnvironment e = .ok l) :
    l = { surrounding e with
      schemaDirectory := (surrounding e).schemaDirectory.map (·.expanded e)
      catalog := (surrounding e).catalog.map (·.expanded e) } := by
  rw [ofEnvironment] at h
  split at h
  · rename_i n hn
    split at h
    · cases h
      simp only [surrounding, hn, Option.map_map, Option.map_some]
      rfl
    · cases h
  · rename_i hn
    cases h
    simp only [surrounding, hn, Option.map_map, Option.map_none]
    rfl

end Layer

/-- The directory that stands where nothing is said has nothing to expand. -/
theorem expanded_dot (e : Environment) : Path.expanded e ⟨"."⟩ = ⟨"."⟩ := by
  have htext : (⟨"."⟩ : Path).text.toList = ['.'] := rfl
  have hvalue : expandVariables e 1 ['.'] = some ['.'] := rfl
  have hhome : expandHome e ['.'] = ['.'] := by
    unfold expandHome
    split
    · rename_i heq _
      cases heq
    · rfl
  rw [Path.expanded, htext]
  simp only [List.length_singleton, hvalue, hhome]
  rfl

section Merged

variable (ls : Layers) (e : Environment) (project : Path)

/-- What becomes of the layer of the user, which is none where the user has no directory. -/
def Layers.userPlaced : Layer :=
  ((Settings.userDirectory? e).map fun d => ls.user.anchored e d).getD {}

/-- The defaults under all layers, before the root of the source files is expanded. -/
def Layers.merged : Settings :=
  ((({} : Settings).under (ls.userPlaced e)).under (ls.project.anchored e project)).under
    { ls.environment with
      schemaDirectory := ls.environment.schemaDirectory.map (·.expanded e)
      catalog := ls.environment.catalog.map (·.expanded e) }

end Merged

namespace Layers

variable {files : Files} {e : Environment} {project : Path} {s : Settings}

/-- Loading reads the three layers, and lays them over one another from the lowest to the
highest. -/
theorem areIn_of_load (h : Settings.load files e project = .ok s) :
    ∃ ls : Layers, ls.AreIn files e project ∧
      s =
        { ls.merged e project with sourceRoot := (ls.merged e project).sourceRoot.expanded e } := by
  rw [Settings.load] at h
  split at h
  · rename_i directory hdirectory
    obtain ⟨user, huser, h⟩ := bind_eq_ok.mp h
    obtain ⟨own, hown, h⟩ := bind_eq_ok.mp h
    obtain ⟨said, hsaid, h⟩ := bind_eq_ok.mp h
    rw [Layer.ofFile_eq, map_eq_ok] at huser
    rw [Settings.projectFile, Layer.ofFile_eq, map_eq_ok] at hown
    obtain ⟨user, huser, rfl⟩ := huser
    obtain ⟨own, hown, rfl⟩ := hown
    cases h
    refine ⟨⟨Layer.surrounding e, own, user⟩, ⟨rfl, hown, ?_⟩, ?_⟩
    · rw [hdirectory]
      exact huser
    · rw [Layers.merged, Layers.userPlaced, hdirectory, Layer.ofEnvironment_eq_ok hsaid]
      rfl
  · rename_i hdirectory
    obtain ⟨_, huser, h⟩ := bind_eq_ok.mp h
    cases huser
    obtain ⟨own, hown, h⟩ := bind_eq_ok.mp h
    obtain ⟨said, hsaid, h⟩ := bind_eq_ok.mp h
    rw [Settings.projectFile, Layer.ofFile_eq, map_eq_ok] at hown
    obtain ⟨own, hown, rfl⟩ := hown
    cases h
    refine ⟨⟨Layer.surrounding e, own, {}⟩, ⟨rfl, hown, ?_⟩, ?_⟩
    · rw [hdirectory]
    · rw [Layers.merged, Layers.userPlaced, hdirectory, Layer.ofEnvironment_eq_ok hsaid]
      rfl

theorem AreIn.userPlaced_eq {ls : Layers} (h : ls.AreIn files e project) :
    (ls.userPlaced e).ruleFormat = ls.user.ruleFormat ∧
      (ls.userPlaced e).excerptWidth = ls.user.excerptWidth := by
  have huser := h.user
  rw [userPlaced]
  cases hdirectory : Settings.userDirectory? e with
  | some directory => exact ⟨rfl, rfl⟩
  | none =>
    rw [hdirectory] at huser
    rw [show ls.user = {} from huser]
    exact ⟨rfl, rfl⟩

theorem AreIn.ruleFormat_merged {ls : Layers} (h : ls.AreIn files e project) :
    (ls.merged e project).ruleFormat = (ls.highest Layer.ruleFormat).getD defaultRuleFormat := by
  rw [highest, Option.getD_or, Option.getD_or, ← h.userPlaced_eq.1]
  rfl

theorem AreIn.excerptWidth_merged {ls : Layers} (h : ls.AreIn files e project) :
    (ls.merged e project).excerptWidth = (ls.highest Layer.excerptWidth).getD 80 := by
  rw [highest, Option.getD_or, Option.getD_or, ← h.userPlaced_eq.2]
  rfl

theorem paths_merged (ls : Layers) (e : Environment) (project : Path) :
    (ls.merged e project).schemaDirectory = ls.placed e project Layer.schemaDirectory ∧
      (ls.merged e project).catalog = ls.placed e project Layer.catalog := by
  rw [placed, placed, merged, userPlaced]
  cases Settings.userDirectory? e with
  | some directory => simp [Settings.under, Layer.anchored]
  | none => simp [Settings.under, Layer.anchored]

/-- The root of the source files is the one of the environment as it is written there, or else it
is placed like the other paths. -/
theorem sourceRoot_merged (ls : Layers) (e : Environment) (project : Path) :
    (ls.merged e project).sourceRoot =
      (ls.environment.sourceRoot.or (ls.placed e project Layer.sourceRoot)).getD ⟨"."⟩ := by
  rw [placed, merged, userPlaced]
  cases henvironment : ls.environment.sourceRoot with
  | some p => simp [Settings.under, henvironment]
  | none =>
    cases Settings.userDirectory? e with
    | some directory => simp [Settings.under, Layer.anchored, henvironment]
    | none => simp [Settings.under, Layer.anchored, henvironment]

/-- A path that is expanded twice is the one of a file. -/
theorem expanded_sourceRoot_merged (ls : Layers) (e : Environment) (project : Path) :
    (ls.merged e project).sourceRoot.expanded e =
      (if ls.environment.sourceRoot.isSome then ls.placed e project Layer.sourceRoot
        else (ls.placed e project Layer.sourceRoot).map (·.expanded e)).getD ⟨"."⟩ := by
  rw [sourceRoot_merged]
  cases henvironment : ls.environment.sourceRoot with
  | some p => simp [placed, henvironment]
  | none =>
    cases ls.placed e project Layer.sourceRoot with
    | some p => rfl
    | none => exact expanded_dot e

end Layers

/-! ## Loading -/

namespace Settings

variable {files : Files} {e : Environment} {project : Path} {s : Settings}

/-- Each setting is what the highest layer says that says anything, and what the other layers and
settings are does not matter. The three paths are placed alike, but for the root of the source
files: one of a file is expanded again after it has been placed. -/
theorem load_layers (h : load files e project = .ok s) :
    ∃ ls : Layers, ls.AreIn files e project ∧
      s.ruleFormat = (ls.highest Layer.ruleFormat).getD defaultRuleFormat ∧
      s.excerptWidth = (ls.highest Layer.excerptWidth).getD 80 ∧
      s.schemaDirectory = ls.placed e project Layer.schemaDirectory ∧
      s.catalog = ls.placed e project Layer.catalog ∧
      s.sourceRoot = (if ls.environment.sourceRoot.isSome then
          ls.placed e project Layer.sourceRoot
        else (ls.placed e project Layer.sourceRoot).map (·.expanded e)).getD ⟨"."⟩ ∧
      (s.sourceRoot = (ls.placed e project Layer.sourceRoot).getD ⟨"."⟩ ↔
        ls.environment.sourceRoot.isSome ∨
          ∀ p, ls.placed e project Layer.sourceRoot = some p → p.expanded e = p) := by
  obtain ⟨ls, hls, rfl⟩ := Layers.areIn_of_load h
  obtain ⟨hschemas, hcatalog⟩ := ls.paths_merged e project
  have hroot := ls.expanded_sourceRoot_merged e project
  refine ⟨ls, hls, hls.ruleFormat_merged, hls.excerptWidth_merged, hschemas, hcatalog, hroot, ?_⟩
  simp only [hroot]
  cases ls.environment.sourceRoot.isSome with
  | true => simp
  | false =>
    cases ls.placed e project Layer.sourceRoot with
    | none => simp
    | some p => simp

/-- A store with the files of a project and of the user. A dollar sign that is written twice stands
for itself. -/
def dollarFiles : Files :=
  .ofTexts [
    ("/work/rulecraft.toml", "source_root = \"src/$$HOME\"\ncatalog = \"src/$$HOME\"\n"),
    ("/home/.config/rulecraft/rulecraft.toml", "catalog = \"mine\"\nschema_dir = \"~/old\"\n")]

/-- A width that is no number is as good as none. -/
def dollarEnvironment : Environment := [("HOME", "/home"), ("RULECRAFT__EXCERPT_WIDTH", "wide")]

def dollarSettings : Settings where
  schemaDirectory := some ⟨"/home/old"⟩
  catalog := some ⟨"/work/src/$HOME"⟩
  sourceRoot := ⟨"/work/src//home"⟩

theorem load_dollar : load dollarFiles dollarEnvironment ⟨"/work"⟩ = .ok dollarSettings :=
  eq_ok_of_toOption (by decide +kernel)

theorem load_layers_width :
    load dollarFiles dollarEnvironment ⟨"/work"⟩ = .ok dollarSettings ∧
      ∃ ls : Layers, ls.AreIn dollarFiles dollarEnvironment ⟨"/work"⟩ ∧
        (ls.highest Layer.excerptWidth).getD 80 = 80 ∧
        ls.placed dollarEnvironment ⟨"/work"⟩ Layer.schemaDirectory = some ⟨"/home/old"⟩ := by
  obtain ⟨ls, hls, -, hwidth, hschemas, -⟩ := load_layers load_dollar
  exact ⟨load_dollar, ls, hls, hwidth.symm, hschemas.symm⟩

/-- What the layers of this store say, each as it is written. -/
def dollarLayers : Layers where
  environment := Layer.surrounding dollarEnvironment
  project := { sourceRoot := some ⟨"src/$$HOME"⟩, catalog := some ⟨"src/$$HOME"⟩ }
  user := { catalog := some ⟨"mine"⟩, schemaDirectory := some ⟨"~/old"⟩ }

/-- The catalog and the root of the source files are written alike in the same file, and they are
not placed alike. -/
theorem load_layers_dollar :
    load dollarFiles dollarEnvironment ⟨"/work"⟩ = .ok dollarSettings ∧
      dollarLayers.AreIn dollarFiles dollarEnvironment ⟨"/work"⟩ ∧
      dollarLayers.placed dollarEnvironment ⟨"/work"⟩ Layer.catalog = some ⟨"/work/src/$HOME"⟩ ∧
      dollarSettings.catalog = some ⟨"/work/src/$HOME"⟩ ∧
      dollarLayers.placed dollarEnvironment ⟨"/work"⟩ Layer.sourceRoot = some ⟨"/work/src/$HOME"⟩ ∧
      dollarSettings.sourceRoot ≠ ⟨"/work/src/$HOME"⟩ := by
  have hproject : Layer.written dollarFiles ⟨"/work"⟩ = .ok dollarLayers.project :=
    eq_ok_of_toOption (by decide +kernel)
  have huser : Layer.written dollarFiles ⟨"/home/.config/rulecraft"⟩ = .ok dollarLayers.user :=
    eq_ok_of_toOption (by decide +kernel)
  have hdirectory : userDirectory? dollarEnvironment = some ⟨"/home/.config/rulecraft"⟩ := by
    decide +kernel
  refine ⟨load_dollar, ⟨rfl, hproject, ?_⟩, by decide +kernel, rfl, by decide +kernel, by decide⟩
  rw [hdirectory]
  exact huser

end Settings

end DeliveryRules
