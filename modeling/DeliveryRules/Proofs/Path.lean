import DeliveryRules.Path
import DeliveryRules.Proofs.Text.Cut
import Mathlib.Data.List.Basic

/-!
# Where a resolved path leads

A path is read piece by piece, from left to right: `.` stays, a name goes down, and `..` takes back
the last name that is left, or ascends above the start where none is. Above the root is nothing.

* **Reading** (`Path.location`): the place that a path leads to, and `location_join` for an
  expression that is seen from a directory.
* **Folding** (`foldl_descend`): the steps that are kept are the names of that place behind at most
  one `..`, because a second `..` takes back the first, and because the root is no step.
* **Writing** (`names_ofSteps`): the steps come back from the path that is written from them.
* `resolve_location`: what the resolved path of an expression has of its meaning. `overshoot`, the
  number of `..` without a name to take back, decides whether it is all of it.
-/

namespace DeliveryRules

/-! ## Reading -/

/-- A place that is named without asking a file system: `ascents` steps above the start, and from
there down along `names`, of which the innermost comes first. -/
structure Location where
  fromRoot : Bool
  ascents : Nat
  names : List String
deriving DecidableEq, Repr

namespace Location

def start (fromRoot : Bool) : Location := ⟨fromRoot, 0, []⟩

def ascend (l : Location) : Location :=
  match l.names with
  | _ :: above => { l with names := above }
  | [] => if l.fromRoot then l else { l with ascents := l.ascents + 1 }

/-- The place that one piece of a path leads to. -/
def go (l : Location) (piece : String) : Location :=
  if Path.isIdle piece then l
  else if piece = ".." then l.ascend
  else { l with names := piece :: l.names }

/-- The same names below the root. -/
def grounded (l : Location) : Location := ⟨true, 0, l.names⟩

end Location

namespace Path

open Location Text

def location (p : Path) : Location := p.pieces.foldl go (start p.isAbsolute)

/-- Where the pieces of a path lead from a place with enough above it. -/
def reading (p : Path) : Location := p.pieces.foldl go (start false)

/-- The number of `..` in a path that have no name to take back. -/
def overshoot (p : Path) : Nat := p.reading.ascents

theorem go_of_isIdle {piece : String} (h : isIdle piece = true) (l : Location) :
    l.go piece = l := by
  rw [go, if_pos h]

theorem foldl_go_filter (pieces : List String) (l : Location) :
    (pieces.filter (!isIdle ·)).foldl go l = pieces.foldl go l := by
  induction pieces generalizing l with
  | nil => rfl
  | cons piece pieces ih =>
    by_cases hidle : isIdle piece = true
    · rw [List.filter_cons_of_neg (by simp [hidle]), List.foldl_cons, go_of_isIdle hidle, ih]
    · rw [List.filter_cons_of_pos (by simp [hidle]), List.foldl_cons, List.foldl_cons, ih]

theorem reading_eq (p : Path) : p.reading = p.names.foldl go (start false) :=
  (foldl_go_filter p.pieces (start false)).symm

theorem fromRoot_ascend (l : Location) : l.ascend.fromRoot = l.fromRoot := by
  rw [ascend]
  split
  · rfl
  · split <;> rfl

theorem fromRoot_go (l : Location) (piece : String) : (l.go piece).fromRoot = l.fromRoot := by
  rw [go]
  split
  · rfl
  · split
    · exact fromRoot_ascend l
    · rfl

theorem fromRoot_foldl_go (pieces : List String) (l : Location) :
    (pieces.foldl go l).fromRoot = l.fromRoot := by
  induction pieces generalizing l with
  | nil => rfl
  | cons piece pieces ih => rw [List.foldl_cons, ih, fromRoot_go]

theorem grounded_go (l : Location) (piece : String) :
    l.grounded.go piece = (l.go piece).grounded := by
  obtain ⟨fromRoot, ascents, names⟩ := l
  rw [go, go]
  by_cases hidle : isIdle piece = true
  · rw [if_pos hidle, if_pos hidle]
  · rw [if_neg hidle, if_neg hidle]
    by_cases hup : piece = ".."
    · rw [if_pos hup, if_pos hup]
      cases names <;> cases fromRoot <;> rfl
    · rw [if_neg hup, if_neg hup]
      rfl

/-- Below the root a path leads to the names it has anywhere: what it ascends too far is lost. -/
theorem location_eq (p : Path) :
    p.location = if p.isAbsolute then p.reading.grounded else p.reading := by
  have grounded_foldl (pieces : List String) (l : Location) :
      pieces.foldl go l.grounded = (pieces.foldl go l).grounded := by
    induction pieces generalizing l with
    | nil => rfl
    | cons piece pieces ih => rw [List.foldl_cons, List.foldl_cons, grounded_go, ih]
  rw [location, reading]
  cases p.isAbsolute with
  | true => exact grounded_foldl p.pieces (start false)
  | false => rfl

/-- The names that are left are names of the path, and none of them is `..`. -/
theorem mem_names_foldl_go {pieces : List String} {l : Location} {name : String}
    (h : name ∈ (pieces.foldl go l).names) :
    name ∈ l.names ∨ name ∈ pieces ∧ name ≠ ".." := by
  induction pieces generalizing l with
  | nil => exact .inl h
  | cons piece pieces ih =>
    rcases ih h with hgo | ⟨hmem, hne⟩
    · rw [go] at hgo
      split at hgo
      · exact .inl hgo
      · split at hgo
        · left
          rw [ascend] at hgo
          split at hgo
          · rename_i _ above heq
            rw [heq]
            exact List.mem_cons_of_mem _ hgo
          · split at hgo <;> exact hgo
        · rename_i hup
          rcases List.mem_cons.mp hgo with rfl | hmem
          · exact .inr ⟨List.mem_cons_self, hup⟩
          · exact .inl hmem
    · exact .inr ⟨List.mem_cons_of_mem _ hmem, hne⟩

/-! ## Folding -/

/-- The steps that are kept for a place, of which the innermost comes first. -/
def keptSteps (l : Location) : List String := l.names ++ List.replicate (l.ascents % 2) ".."

theorem descend_keptSteps {l : Location} (hl : l.fromRoot = false) {name : String}
    (hname : isIdle name = false) : descend (keptSteps l) name = keptSteps (l.go name) := by
  obtain ⟨fromRoot, ascents, names⟩ := l
  rw [descend.eq_def, go, hname, if_neg Bool.false_ne_true]
  by_cases hup : name = ".."
  · rw [if_pos hup, if_pos hup]
    cases names with
    | cons n above => rfl
    | nil =>
      subst hl
      simp only [keptSteps, ascend, List.nil_append, Bool.false_eq_true, if_false]
      -- a second `..` takes back the first
      rcases Nat.mod_two_eq_zero_or_one ascents with heven | hodd
      · have hnext : (ascents + 1) % 2 = 1 := by omega
        rw [heven, hnext]
        rfl
      · have hnext : (ascents + 1) % 2 = 0 := by omega
        rw [hodd, hnext]
        rfl
  · rw [if_neg hup, if_neg hup]
    rfl

theorem foldl_descend {names : List String} (h : ∀ name ∈ names, isIdle name = false)
    {l : Location} (hl : l.fromRoot = false) :
    names.foldl descend (keptSteps l) = keptSteps (names.foldl go l) := by
  induction names generalizing l with
  | nil => rfl
  | cons name names ih =>
    rw [List.foldl_cons, List.foldl_cons, descend_keptSteps hl (h name List.mem_cons_self)]
    exact ih (fun n hn => h n (List.mem_cons_of_mem _ hn)) ((fromRoot_go l name).trans hl)

theorem isIdle_of_mem_names {p : Path} {name : String} (h : name ∈ p.names) :
    isIdle name = false := by
  simpa using (List.mem_filter.mp h).2

/-- The steps of a folded path, outermost first. -/
def steps (p : Path) : List String :=
  List.replicate (p.overshoot % 2) ".." ++ p.reading.names.reverse

/-- A path of given steps. -/
def ofSteps (absolute : Bool) (steps : List String) : Path :=
  ⟨(if absolute then "/" else "") ++ String.intercalate "/" steps⟩

theorem normal_eq (p : Path) : p.normal = ofSteps p.isAbsolute p.steps := by
  have hfold : p.names.foldl descend [] = keptSteps p.reading := by
    rw [reading_eq]
    exact foldl_descend (l := start false) (fun name => isIdle_of_mem_names) rfl
  have hsteps : (p.names.foldl descend []).reverse = p.steps := by
    rw [hfold, keptSteps, List.reverse_append, List.reverse_replicate, steps, overshoot]
  rw [← hsteps]
  rfl

/-! ## Writing -/

/-- A piece of a path that leads somewhere. -/
structure IsStep (s : String) : Prop where
  noSlash : separator ∉ s.toList
  notIdle : isIdle s = false

theorem IsStep.of_mem_names {p : Path} {name : String} (h : name ∈ p.names) : IsStep name := by
  refine ⟨?_, isIdle_of_mem_names h⟩
  obtain ⟨piece, hpiece, rfl⟩ := List.mem_map.mp (List.mem_filter.mp h).1
  rw [String.toList_ofList]
  exact notMem_of_mem_cut hpiece

theorem IsStep.up : IsStep ".." := ⟨by decide, by decide⟩

theorem IsStep.ne_empty {s : String} (h : IsStep s) : s ≠ "" := by
  rintro rfl
  exact absurd h.notIdle (by decide)

theorem isStep_of_mem_names_reading {p : Path} {name : String} (h : name ∈ p.reading.names) :
    IsStep name ∧ name ≠ ".." := by
  rw [reading_eq] at h
  rcases mem_names_foldl_go h with hstart | ⟨hmem, hne⟩
  · exact absurd hstart List.not_mem_nil
  · exact ⟨.of_mem_names hmem, hne⟩

theorem isStep_of_mem_steps {p : Path} {s : String} (h : s ∈ p.steps) : IsStep s := by
  rcases List.mem_append.mp h with hup | hname
  · rw [List.eq_of_mem_replicate hup]
    exact .up
  · exact (isStep_of_mem_names_reading (List.mem_reverse.mp hname)).1

theorem cut_intercalate {ss : List String} (h : ∀ s ∈ ss, IsStep s) :
    (cut separator (String.intercalate "/" ss).toList).map String.ofList =
      if ss = [] then [""] else ss := by
  by_cases hss : ss = []
  · subst hss
    rw [if_pos rfl, String.intercalate_nil]
    rfl
  · have hslash : ∀ l ∈ ss.map String.toList, separator ∉ l := by
      intro l hl
      obtain ⟨s, hs, rfl⟩ := List.mem_map.mp hl
      exact (h s hs).noSlash
    rw [if_neg hss, cut_eq_splitOn, String.toList_intercalate]
    show (List.splitOn separator ([separator].intercalate _)).map String.ofList = ss
    rw [List.splitOn_intercalate separator hslash (by simpa using hss), List.map_map]
    exact (List.map_congr_left fun s _ => String.ofList_toList).trans ss.map_id

theorem pieces_ofSteps (absolute : Bool) {ss : List String} (h : ∀ s ∈ ss, IsStep s) :
    (ofSteps absolute ss).pieces =
      (if absolute then [""] else []) ++ if ss = [] then [""] else ss := by
  rw [← cut_intercalate h, pieces, ofSteps]
  cases absolute with
  | false => simp
  | true =>
    show (cut separator ("/" ++ String.intercalate "/" ss).toList).map String.ofList = _
    rw [String.toList_append]
    show (cut separator (separator :: (String.intercalate "/" ss).toList)).map _ = _
    rw [cut, if_pos rfl]
    rfl

theorem names_ofSteps (absolute : Bool) {ss : List String} (h : ∀ s ∈ ss, IsStep s) :
    (ofSteps absolute ss).names = ss := by
  have hempty : isIdle "" = true := by decide
  have hkept : ss.filter (!isIdle ·) = ss :=
    List.filter_eq_self.mpr fun s hs => by rw [(h s hs).notIdle]; rfl
  rw [names, pieces_ofSteps absolute h, List.filter_append]
  have hlead : (if absolute then [""] else []).filter (!isIdle ·) = [] := by
    cases absolute <;> simp [hempty]
  rw [hlead, List.nil_append]
  split
  · rename_i hss
    simp [hss, hempty]
  · exact hkept

theorem isAbsolute_ofSteps (absolute : Bool) {ss : List String} (h : ∀ s ∈ ss, IsStep s) :
    (ofSteps absolute ss).isAbsolute = absolute := by
  rw [isAbsolute, ofSteps]
  cases absolute with
  | true =>
    rw [if_pos rfl, String.toList_append]
    rfl
  | false =>
    rw [if_neg Bool.false_ne_true, String.empty_append, decide_eq_false_iff_not]
    intro hhead
    cases ss with
    | nil => exact absurd hhead (by rw [String.intercalate_nil]; decide)
    | cons s ss =>
      have hs := h s List.mem_cons_self
      have hchars : s.toList ≠ [] := fun hnil => hs.ne_empty (String.toList_eq_nil_iff.mp hnil)
      obtain ⟨c, cs, hc⟩ := List.exists_cons_of_ne_nil hchars
      have hfirst : (String.intercalate "/" (s :: ss)).toList.head? = some c := by
        rw [String.toList_intercalate, List.map_cons, hc, List.intercalate_cons_cons_left]
        rfl
      have hcslash : c = separator := Option.some.inj (hfirst.symm.trans hhead)
      exact hs.noSlash (by rw [hc, hcslash]; exact List.mem_cons_self)

theorem isAbsolute_normal (p : Path) : p.normal.isAbsolute = p.isAbsolute := by
  rw [normal_eq, isAbsolute_ofSteps _ fun _ => isStep_of_mem_steps]

theorem names_normal (p : Path) : p.normal.names = p.steps := by
  rw [normal_eq, names_ofSteps _ fun _ => isStep_of_mem_steps]

theorem foldl_go_names {names : List String} (h : ∀ name ∈ names, IsStep name ∧ name ≠ "..")
    (l : Location) : names.foldl go l = { l with names := names.reverse ++ l.names } := by
  induction names generalizing l with
  | nil => rfl
  | cons name names ih =>
    obtain ⟨hstep, hne⟩ := h name List.mem_cons_self
    have hgo : l.go name = { l with names := name :: l.names } := by
      rw [go, hstep.notIdle, if_neg Bool.false_ne_true, if_neg hne]
    rw [List.foldl_cons, hgo, ih fun n hn => h n (List.mem_cons_of_mem _ hn)]
    simp

/-- The folded path is read as the path itself, but for pairs of `..` at its start. -/
theorem reading_normal (p : Path) :
    p.normal.reading = ⟨false, p.overshoot % 2, p.reading.names⟩ := by
  have hups (k : Nat) (l : Location) (hl : l.fromRoot = false) (hnames : l.names = []) :
      (List.replicate k "..").foldl go l = { l with ascents := l.ascents + k } := by
    induction k generalizing l with
    | zero => rfl
    | succ k ih =>
      obtain ⟨fromRoot, ascents, names⟩ := l
      subst hl hnames
      rw [List.replicate_succ, List.foldl_cons]
      refine (ih ⟨false, ascents + 1, []⟩ rfl rfl).trans ?_
      simp only [Location.mk.injEq, true_and, and_true]
      omega
  rw [reading_eq, names_normal, steps, List.foldl_append, hups _ (start false) rfl rfl,
    foldl_go_names fun _ h => isStep_of_mem_names_reading (List.mem_reverse.mp h)]
  simp [start]

/-! ## Joining -/

theorem pieces_append_slash (before after : List Char) :
    pieces ⟨.ofList (before ++ separator :: after)⟩ =
      pieces ⟨.ofList before⟩ ++ pieces ⟨.ofList after⟩ := by
  simp only [pieces, String.toList_ofList, cut_eq_splitOn]
  rw [List.splitOn_append_cons_self, List.map_append]

theorem isAbsolute_append {base : String} (hne : base.toList ≠ []) (more : List Char) :
    isAbsolute ⟨.ofList (base.toList ++ more)⟩ = isAbsolute ⟨base⟩ := by
  rw [isAbsolute, isAbsolute, String.toList_ofList, List.head?_append_of_ne_nil _ hne]

/-- The pieces of `text` come behind those of the directory. -/
theorem location_append {base text : String} {joined : Path} (before : List Char)
    (hlocation : location ⟨base⟩ = (pieces ⟨.ofList before⟩).foldl go (start (isAbsolute ⟨base⟩)))
    (htext : joined.text = .ofList (before ++ separator :: text.toList))
    (habsolute : joined.isAbsolute = isAbsolute ⟨base⟩) :
    joined.location = (pieces ⟨text⟩).foldl go (location ⟨base⟩) := by
  obtain ⟨_⟩ := joined
  subst htext
  rw [location, habsolute, hlocation, ← List.foldl_append, pieces_append_slash,
    String.ofList_toList]

/-- An absolute expression leads where it says. Any other leads on from where the directory
does. -/
theorem location_join (base p : Path) :
    (base.join p).location =
      if p.isAbsolute then p.location else p.pieces.foldl go base.location := by
  by_cases habs : p.isAbsolute = true
  · rw [join, habs, Bool.true_or, if_pos rfl, if_pos rfl]
  rw [if_neg habs, join]
  rw [Bool.not_eq_true] at habs
  rw [habs, Bool.false_or]
  obtain ⟨base⟩ := base
  obtain ⟨text⟩ := p
  by_cases hempty : base.isEmpty = true
  · have hbase : base = "" := String.isEmpty_iff.mp hempty
    have hstay : location ⟨""⟩ = start false := by decide
    rw [if_pos hempty, hbase, hstay, location, habs]
  rw [if_neg hempty]
  have hne : base.toList ≠ [] := fun hnil =>
    hempty (String.isEmpty_iff.mpr (String.toList_eq_nil_iff.mp hnil))
  by_cases hlast : base.toList.getLast? = some separator
  · rw [if_pos hlast]
    obtain ⟨before, hbefore⟩ := List.getLast?_eq_some_iff.mp hlast
    have hbase : base = .ofList (before ++ [separator]) := by
      rw [← hbefore, String.ofList_toList]
    refine location_append before ?_ ?_ ?_
    · have hpieces : pieces ⟨base⟩ = pieces ⟨.ofList before⟩ ++ [""] := by
        rw [hbase, pieces_append_slash]
        rfl
      rw [location, hpieces, List.foldl_append]
      have hidle : isIdle "" = true := by decide
      exact go_of_isIdle hidle _
    · rw [← String.ofList_toList (s := base ++ text), String.toList_append, hbefore,
        List.append_assoc]
      rfl
    · rw [← isAbsolute_append hne text.toList, ← String.toList_append, String.ofList_toList]
  · rw [if_neg hlast]
    refine location_append base.toList ?_ ?_ ?_
    · rw [String.ofList_toList]
      rfl
    · rw [← String.ofList_toList (s := base ++ "/" ++ text), String.toList_append,
        String.toList_append, List.append_assoc]
      rfl
    · rw [← isAbsolute_append hne ("/" ++ text).toList, ← String.toList_append,
        String.ofList_toList, String.append_assoc]

/-! ## Resolving -/

/-- A path without detours: no `.`, and `..` only at the start of a relative path. -/
structure Canonical (p : Path) : Prop where
  noDot : "." ∉ p.pieces
  upsFirst : ∃ k names, p.names = List.replicate k ".." ++ names ∧ ".." ∉ names ∧
    (p.isAbsolute = true → k = 0)

theorem noDot_normal (p : Path) : "." ∉ p.normal.pieces := by
  have hidle : isIdle "." = true := by decide
  rw [normal_eq, pieces_ofSteps _ fun _ => isStep_of_mem_steps]
  intro h
  rcases List.mem_append.mp h with hlead | hmem
  · split at hlead
    · exact absurd hlead (by decide)
    · exact absurd hlead List.not_mem_nil
  · split at hmem
    · exact absurd hmem (by decide)
    · exact absurd ((isStep_of_mem_steps hmem).notIdle.symm.trans hidle) Bool.false_ne_true

theorem up_notMem_names_reading (p : Path) : ".." ∉ p.reading.names.reverse := fun h =>
  (isStep_of_mem_names_reading (List.mem_reverse.mp h)).2 rfl

theorem canonical_normal_iff (p : Path) :
    p.normal.Canonical ↔ (p.isAbsolute = true → p.overshoot % 2 = 0) := by
  constructor
  · rintro ⟨-, k, names, hnames, hup, hk⟩ habs
    rw [isAbsolute_normal] at hk
    rw [hk habs, List.replicate_zero, List.nil_append, names_normal, steps] at hnames
    rcases Nat.mod_two_eq_zero_or_one p.overshoot with heven | hodd
    · exact heven
    · rw [hodd] at hnames
      have hmem : ".." ∈ List.replicate 1 ".." := by simp
      exact absurd (hnames ▸ List.mem_append_left _ hmem) hup
  · intro heven
    exact ⟨p.noDot_normal, _, _, p.names_normal, p.up_notMem_names_reading,
      fun habs => heven (p.isAbsolute_normal ▸ habs)⟩

theorem location_normal_iff (p : Path) :
    p.normal.location = p.location ↔ (p.isAbsolute = false → p.overshoot ≤ 1) := by
  rw [location_eq, location_eq, isAbsolute_normal, reading_normal]
  cases p.isAbsolute with
  | true => exact ⟨nofun, fun _ => rfl⟩
  | false =>
    have hroot : p.reading.fromRoot = false := fromRoot_foldl_go p.pieces (start false)
    rw [if_neg Bool.false_ne_true, if_neg Bool.false_ne_true]
    constructor
    · intro h _
      have hascents : p.overshoot % 2 = p.overshoot := congrArg Location.ascents h
      omega
    · intro h
      have hascents : p.overshoot % 2 = p.reading.ascents := Nat.mod_eq_of_lt (by
        have := h rfl
        omega)
      rw [hascents, ← hroot]

theorem normal_eq_iff {p q : Path} (h : p.location = q.location) :
    p.normal = q.normal ↔ (p.isAbsolute = true → p.overshoot % 2 = q.overshoot % 2) := by
  have habs : p.isAbsolute = q.isAbsolute := by
    have hroot := congrArg Location.fromRoot h
    rwa [location, location, fromRoot_foldl_go, fromRoot_foldl_go] at hroot
  have hnames : p.reading.names = q.reading.names := by
    have hnames := congrArg Location.names h
    rw [location_eq, location_eq, ← habs] at hnames
    cases hp : p.isAbsolute with
    | true => rwa [hp] at hnames
    | false => rwa [hp] at hnames
  constructor
  · intro heq _
    have hsteps := congrArg (List.length ∘ names) heq
    simp only [Function.comp_apply, names_normal, steps, hnames, List.length_append,
      List.length_replicate] at hsteps
    omega
  · intro hparity
    have hkept : p.overshoot % 2 = q.overshoot % 2 := by
      cases hp : p.isAbsolute with
      | true => exact hparity hp
      | false =>
        rw [location_eq, location_eq, ← habs, hp] at h
        exact congrArg (·.ascents % 2) h
    rw [normal_eq, normal_eq, habs, steps, steps, hkept, hnames]

/-- What the resolved path of an expression says. It never has a `.`. It leads where the expression
leads from the directory, unless a relative path ascends more than one step above its start; and
it has its `..` where they belong, unless an absolute path ascends an odd number of times above the
root. So paths that lead to one place are one path if they are relative, and else exactly if they
ascend above the root equally often up to an even number. -/
theorem resolve_location (origin : Path) (expression : String) :
    let p := origin.join ⟨expression⟩
    let r := origin.resolve expression
    p.location = (if isAbsolute ⟨expression⟩ then location ⟨expression⟩
      else (pieces ⟨expression⟩).foldl Location.go origin.location) ∧
    "." ∉ r.pieces ∧
    (r.location = p.location ↔ (p.isAbsolute = false → p.overshoot ≤ 1)) ∧
    (r.Canonical ↔ (p.isAbsolute = true → p.overshoot % 2 = 0)) ∧
    ∀ (origin' : Path) (expression' : String),
      let p' := origin'.join ⟨expression'⟩
      p.location = p'.location →
        (r = origin'.resolve expression' ↔
          (p.isAbsolute = true → p.overshoot % 2 = p'.overshoot % 2)) :=
  ⟨location_join origin ⟨expression⟩, noDot_normal _, location_normal_iff _,
    canonical_normal_iff _, fun _ _ => normal_eq_iff⟩

/-- Two `..` above the start of a relative path take back each other, and one above the root is
kept, so that one place has two paths. -/
theorem resolve_twoUps :
    resolve ⟨"rules"⟩ "../../../x.json" = ⟨"x.json"⟩ ∧
    (resolve ⟨"rules"⟩ "../../../x.json").location ≠
      (join ⟨"rules"⟩ ⟨"../../../x.json"⟩).location ∧
    resolve ⟨"/rules"⟩ "../../x.json" = ⟨"/../x.json"⟩ ∧
    ¬ (resolve ⟨"/rules"⟩ "../../x.json").Canonical ∧
    (join ⟨"/rules"⟩ ⟨"../../x.json"⟩).location = (join ⟨"/rules"⟩ ⟨"../x.json"⟩).location ∧
    resolve ⟨"/rules"⟩ "../../x.json" ≠ resolve ⟨"/rules"⟩ "../x.json" := by
  refine ⟨by decide +kernel, by decide +kernel, by decide +kernel, ?_, by decide +kernel,
    by decide +kernel⟩
  rw [resolve, canonical_normal_iff]
  decide +kernel

end Path

end DeliveryRules
