import DeliveryRules.Proofs.Fragment.Expansion

/-!
# What an import asks for

- **One level** (`Workshop.importStep`): the import of one file, given what imports those that are
  mentioned in it. Where there are finitely many files, the import is a solution of the recursion
  that this is a step of (`importInside_eq`): the bound on its depth is never met.
- **Requests** (`Workshop.requests`): what is asked for while a rule is placed, in order. Placing
  depends on nothing else of what imports (`place_congr`), and ends where one of them fails
  (`place_stops`).
- **Termination** (`asks_wellFounded`): a request cannot lead to requests forever, because each
  reads one more file.
-/

namespace DeliveryRules

/-! ## Finitely many files -/

namespace Files

/-- Only some paths lead to a text, and no more than the store says. -/
def IsFinite (f : Files) : Prop :=
  ∃ known : List Path, known.length ≤ f.count ∧ ∀ path text, f.read path = .ok text → path ∈ known

theorem mem_of_read_ofTexts {texts : List (String × String)} {path : Path} {text : String}
    (h : (ofTexts texts).read path = .ok text) : (path.text, text) ∈ texts := by
  simp only [ofTexts] at h
  split at h
  · rename_i found hlookup
    cases h
    obtain ⟨before, after, rfl, -⟩ := List.lookup_eq_some_iff.mp hlookup
    simp
  · cases h

theorem ofTexts_isFinite (texts : List (String × String)) : (ofTexts texts).IsFinite :=
  ⟨texts.map fun t => ⟨t.1⟩, by simp [ofTexts], fun _ _ h =>
    List.mem_map.mpr ⟨_, mem_of_read_ofTexts h, rfl⟩⟩

end Files

/-- The number of known files that are not being read. -/
def left (known chain : List Path) : Nat := (known.filter (· ∉ chain)).length

theorem left_le (known chain : List Path) : left known chain ≤ known.length :=
  List.length_filter_le ..

theorem left_cons_lt {known chain : List Path} {path : Path} (hknown : path ∈ known)
    (hnew : path ∉ chain) : left known (path :: chain) < left known chain := by
  have hfilter : known.filter (· ∉ path :: chain) =
      (known.filter (· ∉ chain)).filter (· ≠ path) := by
    rw [List.filter_filter]
    refine List.filter_congr fun p _ => ?_
    simp only [List.mem_cons, not_or, Bool.decide_and]
  rw [left, hfilter]
  exact List.length_filter_lt_length_iff_exists.mpr
    ⟨path, List.mem_filter.mpr ⟨hknown, by simpa using hnew⟩, by simp⟩

/-! ## One level -/

/-- The path of the fragment that is said to include itself. -/
def CompileError.cycleAt? : CompileError → Option Path
  | .badFragment path .includesItself => some path
  | _ => none

/-- No error of it says that a fragment includes itself. -/
def NoCycle {α : Type} (x : Except CompileError α) : Prop :=
  ∀ e, x = .error e → e.cycleAt? = none

/-- A request to the import of fragments, with the files that are being read, from the innermost one
on. -/
structure Request where
  chain : List Path
  directory : Path
  parent : RuleId
  expression : String
  tree : RuleTree

namespace Request

def path (q : Request) : Path := q.directory.resolve q.expression

/-- What becomes of a request. -/
def run (f : List Path → Workshop.Importer) (q : Request) : Except CompileError Unit × RuleTree :=
  (f q.chain q.directory q.parent q.expression).run q.tree

end Request

namespace Workshop

variable {w : Workshop}

/-- The import of one file. `nested` imports the fragments that are mentioned in it. -/
def importStep (w : Workshop) (nested : List Path → Importer) (chain : List Path) : Importer :=
  fun directory parent expression => do
    let path := directory.resolve expression
    if chain.contains path then throw (.badFragment path .includesItself)
    match w.files.read path with
    | .error failure => throw (.unreadable path failure)
    | .ok text =>
      let s : Source := ⟨path, text⟩
      match w.load s with
      | .error e => throw e
      | .ok rule => w.place (nested (path :: chain)) s rule parent [] (.ofPath path)

/-- The import inside some files that are being read. -/
def importInside (w : Workshop) (chain : List Path) : Importer :=
  w.importWithin (w.files.count + 1) chain

theorem importWithin_succ (fuel : Nat) (chain : List Path) :
    w.importWithin (fuel + 1) chain = w.importStep (w.importWithin fuel) chain := rfl

/-- What an import does first: it finds its path among those being read, or finds no rule there, or
goes on to place the rule of the file. -/
inductive Found (w : Workshop) (q : Request) : Prop
  | cycle (hmem : q.path ∈ q.chain)
      (hrun : ∀ nested, q.run (w.importStep nested) =
        (.error (.badFragment q.path .includesItself), q.tree))
  | nothing (hnew : q.path ∉ q.chain) (e : CompileError) (he : e.cycleAt? = none)
      (hnone : ∀ s r, ¬ w.Holds q.path s r)
      (hrun : ∀ nested, q.run (w.importStep nested) = (.error e, q.tree))
  | rule (hnew : q.path ∉ q.chain) (s : Source) (r : FragmentRule) (holds : w.Holds q.path s r)
      (hrun : ∀ nested, q.run (w.importStep nested) =
        (w.place (nested (q.path :: q.chain)) s r q.parent [] (.ofPath q.path)).run q.tree)

theorem load_noCycle (w : Workshop) (s : Source) : NoCycle (w.load s) := by
  intro e h
  unfold load at h
  cases hread : Json.read s.text with
  | error error =>
    simp only [hread, Except.mapError, bind, Except.bind, Except.error.injEq] at h
    subst h
    rfl
  | ok document =>
    simp only [hread, Except.mapError, bind, Except.bind] at h
    split at h
    · cases h
      rfl
    · split at h
      · cases h
        rfl
      · split at h
        · cases h
          rfl
        · cases h

/-- A file that is not being read already is loaded, and its rule is placed. -/
theorem run_importStep_of_read {q : Request} (hnew : q.path ∉ q.chain) {text : String}
    (hread : w.files.read q.path = .ok text) (nested : List Path → Importer) :
    q.run (w.importStep nested) =
      match w.load ⟨q.path, text⟩ with
      | .error e => (.error e, q.tree)
      | .ok r => (w.place (nested (q.path :: q.chain)) ⟨q.path, text⟩ r q.parent []
          (.ofPath q.path)).run q.tree := by
  have hcontains : ¬ q.chain.contains (q.directory.resolve q.expression) := fun h =>
    hnew (List.contains_iff_mem.mp h)
  simp only [Request.path] at hread ⊢
  rw [Request.run, importStep, if_neg hcontains]
  simp only [hread]
  cases w.load ⟨q.directory.resolve q.expression, text⟩ <;> rfl

theorem found (w : Workshop) (q : Request) : w.Found q := by
  by_cases hmem : q.path ∈ q.chain
  · refine .cycle hmem fun nested => ?_
    have hcontains : q.chain.contains (q.directory.resolve q.expression) :=
      List.contains_iff_mem.mpr hmem
    rw [Request.run, importStep, if_pos hcontains]
    rfl
  · cases hread : w.files.read q.path with
    | error failure =>
      refine .nothing hmem (.unreadable q.path failure) rfl ?_ fun nested => ?_
      · intro s r holds
        cases hread.symm.trans holds.read_eq
      · have hcontains : ¬ q.chain.contains (q.directory.resolve q.expression) := fun h =>
          hmem (List.contains_iff_mem.mp h)
        simp only [Request.path] at hread
        rw [Request.run, importStep, if_neg hcontains]
        simp only [hread]
        rfl
    | ok text =>
      cases hload : w.load ⟨q.path, text⟩ with
      | error e =>
        refine .nothing hmem e (w.load_noCycle _ e hload) ?_ fun nested => ?_
        · intro s r holds
          have hs : s = ⟨q.path, text⟩ := by
            obtain ⟨path, text'⟩ := s
            obtain rfl : path = q.path := holds.path_eq
            rw [Except.ok.inj (hread.symm.trans holds.read_eq)]
          cases hload.symm.trans (hs ▸ holds.load_eq)
        · rw [run_importStep_of_read hmem hread, hload]
      | ok r =>
        refine .rule hmem ⟨q.path, text⟩ r ⟨rfl, hread, hload⟩ fun nested => ?_
        rw [run_importStep_of_read hmem hread, hload]

/-! ## Requests -/

section Requests

variable (w : Workshop) (f : List Path → Importer) (chain : List Path) (s : Source)

mutual

/-- What is asked for while a rule is placed. `f` imports what is mentioned; with an error of it
placing ends. -/
def requests : FragmentRule → RuleId → List String → Provenance → RuleTree → List Request
  | .mk head cs, parent, way, p, t =>
    match (w.placeHead s head parent way p).run t with
    | (.ok id, t') => requestsOfAll cs id (way ++ ["children"]) 0 t'
    | (.error _, _) => []

def requestsOfAll : List FragmentChild → RuleId → List String → Nat → RuleTree → List Request
  | [], _, _, _, _ => []
  | c :: cs, id, way, count, t =>
    requestsOf c id (way ++ [toString count]) t ++
      match (w.placeChild (f chain) s c id (way ++ [toString count])).run t with
      | (.ok _, t') => requestsOfAll cs id way (count + 1) t'
      | (.error _, _) => []

def requestsOf : FragmentChild → RuleId → List String → RuleTree → List Request
  | .mention text, id, _, t =>
    match mentioned? text with
    | some expression => [⟨chain, s.directory, id, expression, t⟩]
    | none => []
  | .rule r, id, way, t => requests r id way (s.provenanceAt way) t

end

end Requests

section Placing

variable {f g : List Path → Importer} {chain : List Path} {s : Source}

mutual

/-- Placing a rule depends on what becomes of its requests, and on nothing else of the import. -/
theorem place_congr : ∀ (r : FragmentRule) {parent : RuleId} {way : List String} {p : Provenance}
    {t : RuleTree}, (∀ q ∈ w.requests f chain s r parent way p t, q.run g = q.run f) →
      (w.place (g chain) s r parent way p).run t = (w.place (f chain) s r parent way p).run t
  | .mk head cs, parent, way, p, t, h => by
    rw [requests] at h
    rw [place, place, run_bind, run_bind]
    split
    · rename_i id t' heq
      rw [heq] at h
      exact placeChildren_congr cs h
    · rfl

theorem placeChildren_congr : ∀ (cs : List FragmentChild) {id : RuleId} {way : List String}
    {count : Nat} {t : RuleTree},
    (∀ q ∈ w.requestsOfAll f chain s cs id way count t, q.run g = q.run f) →
      (w.placeChildren (g chain) s cs id way count).run t =
        (w.placeChildren (f chain) s cs id way count).run t
  | [], _, _, _, _, _ => rfl
  | c :: cs, id, way, count, t, h => by
    rw [requestsOfAll] at h
    rw [placeChildren, placeChildren, run_bind, run_bind,
      placeChild_congr c fun q hq => h q (List.mem_append_left _ hq)]
    split
    · rename_i t' heq
      rw [heq] at h
      exact placeChildren_congr cs fun q hq => h q (List.mem_append_right _ hq)
    · rfl

theorem placeChild_congr : ∀ (c : FragmentChild) {id : RuleId} {way : List String} {t : RuleTree},
    (∀ q ∈ w.requestsOf f chain s c id way t, q.run g = q.run f) →
      (w.placeChild (g chain) s c id way).run t = (w.placeChild (f chain) s c id way).run t
  | .mention text, id, way, t, h => by
    rw [requestsOf] at h
    rw [placeChild, placeChild]
    split
    · rename_i expression hmentioned
      rw [hmentioned] at h
      exact h _ (List.mem_singleton_self _)
    · rfl
  | .rule r, id, way, t, h => by
    rw [placeChild, placeChild]
    exact place_congr r h

end

mutual

/-- What is asked for is mentioned in the rule, and seen from its file. -/
theorem mem_requests : ∀ (r : FragmentRule) {parent : RuleId} {way : List String} {p : Provenance}
    {t : RuleTree} {q : Request}, q ∈ w.requests f chain s r parent way p t →
      q.chain = chain ∧ q.directory = s.directory ∧ q.expression ∈ r.mentions
  | .mk head cs, parent, way, p, t, q, h => by
    rw [requests] at h
    split at h
    · exact mem_requestsOfAll cs h
    · cases h

theorem mem_requestsOfAll : ∀ (cs : List FragmentChild) {id : RuleId} {way : List String}
    {count : Nat} {t : RuleTree} {q : Request},
    q ∈ w.requestsOfAll f chain s cs id way count t →
      q.chain = chain ∧ q.directory = s.directory ∧ q.expression ∈ FragmentRule.mentionsIn cs
  | [], _, _, _, _, _, h => by cases h
  | c :: cs, id, way, count, t, q, h => by
    rw [requestsOfAll] at h
    rw [FragmentRule.mentionsIn]
    rcases List.mem_append.mp h with h | h
    · obtain ⟨hchain, hdirectory, hmem⟩ := mem_requestsOf c h
      exact ⟨hchain, hdirectory, List.mem_append_left _ hmem⟩
    · split at h
      · obtain ⟨hchain, hdirectory, hmem⟩ := mem_requestsOfAll cs h
        exact ⟨hchain, hdirectory, List.mem_append_right _ hmem⟩
      · cases h

theorem mem_requestsOf : ∀ (c : FragmentChild) {id : RuleId} {way : List String} {t : RuleTree}
    {q : Request}, q ∈ w.requestsOf f chain s c id way t →
      q.chain = chain ∧ q.directory = s.directory ∧ q.expression ∈ FragmentRule.mentionsOf c
  | .mention text, id, way, t, q, h => by
    rw [requestsOf] at h
    rw [FragmentRule.mentionsOf]
    split at h
    · rename_i expression hmentioned
      obtain rfl := List.mem_singleton.mp h
      exact ⟨rfl, rfl, by simp [hmentioned]⟩
    · cases h
  | .rule r, id, way, t, q, h => by
    rw [requestsOf] at h
    exact mem_requests r h

end

mutual

/-- Placing ends with the first request that fails, as this one does. -/
theorem place_stops {e : CompileError} {q : Request} (he : (q.run f).1 = .error e) :
    ∀ (r : FragmentRule) {parent : RuleId} {way : List String} {p : Provenance} {t : RuleTree},
      q ∈ w.requests f chain s r parent way p t →
        (w.place (f chain) s r parent way p).run t = q.run f
  | .mk head cs, parent, way, p, t, h => by
    rw [requests] at h
    rw [place, run_bind]
    split at h
    · rename_i id t' heq
      rw [heq]
      exact placeChildren_stops he cs h
    · cases h

theorem placeChildren_stops {e : CompileError} {q : Request} (he : (q.run f).1 = .error e) :
    ∀ (cs : List FragmentChild) {id : RuleId} {way : List String} {count : Nat} {t : RuleTree},
      q ∈ w.requestsOfAll f chain s cs id way count t →
        (w.placeChildren (f chain) s cs id way count).run t = q.run f
  | [], _, _, _, _, h => by cases h
  | c :: cs, id, way, count, t, h => by
    rw [requestsOfAll] at h
    rw [placeChildren, run_bind]
    rcases List.mem_append.mp h with h | h
    · rw [placeChild_stops he c h]
      rw [show q.run f = (.error e, (q.run f).2) from Prod.ext he rfl]
    · split at h
      · rename_i t' heq
        rw [heq]
        exact placeChildren_stops he cs h
      · cases h

theorem placeChild_stops {e : CompileError} {q : Request} (he : (q.run f).1 = .error e) :
    ∀ (c : FragmentChild) {id : RuleId} {way : List String} {t : RuleTree},
      q ∈ w.requestsOf f chain s c id way t →
        (w.placeChild (f chain) s c id way).run t = q.run f
  | .mention text, id, way, t, h => by
    rw [requestsOf] at h
    rw [placeChild]
    cases hmentioned : mentioned? text with
    | some expression =>
      rw [hmentioned] at h
      rw [List.mem_singleton.mp h]
      rfl
    | none =>
      rw [hmentioned] at h
      cases h
  | .rule r, id, way, t, h => by
    rw [requestsOf] at h
    rw [placeChild]
    exact place_stops he r h

end

end Placing

/-! ## Termination -/

/-- While `q` is answered, `q'` is asked for. -/
structure Asks (w : Workshop) (q q' : Request) : Prop where
  new : q.path ∉ q.chain
  asked : ∃ s r, w.Holds q.path s r ∧
    q' ∈ w.requests w.importInside (q.path :: q.chain) s r q.parent [] (.ofPath q.path) q.tree

theorem Asks.chain_eq {q q' : Request} (h : w.Asks q q') : q'.chain = q.path :: q.chain := by
  obtain ⟨s, r, -, hmem⟩ := h.asked
  exact (mem_requests r hmem).1

theorem Asks.read_eq {q q' : Request} (h : w.Asks q q') :
    ∃ text, w.files.read q.path = .ok text := by
  obtain ⟨s, r, holds, -⟩ := h.asked
  exact ⟨s.text, holds.read_eq⟩

/-- Each request reads one more file. -/
theorem asks_wellFounded (hw : w.files.IsFinite) : WellFounded fun q' q => w.Asks q q' := by
  obtain ⟨known, -, hknown⟩ := hw
  refine Subrelation.wf (fun {q' q} h => ?_) (measure fun q => left known q.chain).wf
  obtain ⟨text, hread⟩ := h.read_eq
  change left known q'.chain < left known q.chain
  rw [h.chain_eq]
  exact left_cons_lt (hknown _ _ hread) h.new

/-- Two bounds on the depth of an import make no difference, if there are fewer files left than
either allows. -/
theorem importWithin_congr {known : List Path}
    (hknown : ∀ path text, w.files.read path = .ok text → path ∈ known) {fuel fuel' : Nat}
    {chain : List Path} (h : left known chain < fuel) (h' : left known chain < fuel') :
    w.importWithin fuel chain = w.importWithin fuel' chain := by
  induction fuel generalizing fuel' chain with
  | zero => omega
  | succ fuel ih =>
    obtain ⟨fuel', rfl⟩ : ∃ n, fuel' = n + 1 := ⟨fuel' - 1, by omega⟩
    rw [importWithin_succ, importWithin_succ]
    funext directory parent expression t
    rcases w.found ⟨chain, directory, parent, expression, t⟩ with
      ⟨-, hrun⟩ | ⟨-, e, -, -, hrun⟩ | ⟨hnew, s, r, holds, hrun⟩
    · exact (hrun _).trans (hrun _).symm
    · exact (hrun _).trans (hrun _).symm
    · have hleft := left_cons_lt (hknown _ _ holds.read_eq) hnew
      refine (hrun _).trans (Eq.trans ?_ (hrun _).symm)
      rw [ih (Nat.lt_of_lt_of_le hleft (Nat.le_of_lt_succ h))
        (Nat.lt_of_lt_of_le hleft (Nat.le_of_lt_succ h'))]

/-- The bound on the depth is never met. -/
theorem importInside_eq (hw : w.files.IsFinite) (chain : List Path) :
    w.importInside chain = w.importStep w.importInside chain := by
  obtain ⟨known, hcount, hknown⟩ := hw
  have hle (chain : List Path) : left known chain ≤ w.files.count :=
    Nat.le_trans (left_le known chain) hcount
  have hlt := Nat.lt_succ_of_le (hle chain)
  have hmore :
      w.importWithin (w.files.count + 1) chain = w.importWithin (w.files.count + 2) chain :=
    importWithin_congr hknown hlt (Nat.lt_succ_of_lt hlt)
  exact hmore.trans (importWithin_succ _ chain)

end Workshop

end DeliveryRules
