import DeliveryRules.Proofs.Fragment.Growth

/-!
# Imports with a stack of files

`Workshop.importWithin` is given the files that are being read. They can as well be kept on a stack:
a file is pushed before its rule is placed and popped once this is done. An error goes through to
the end, and what is on the stack by then stays there.

- **Builds with a stack** (`StackBuild`): they change a stack of files along with the tree.
- **Agreement** (`StackBuild.Follows`): the same outcome and the same tree; whatever gives something
  leaves the stack as it was, and whatever fails leaves it as it was or with files on top.
- `Workshop.importStacked_follows`: an import with a stack agrees with one that is given the files.
  An import that starts with none agrees with `Workshop.importFile`.
-/

namespace DeliveryRules

/-- A step that changes a tree and the stack of files that are being read, the innermost one on
top, and may fail. -/
abbrev StackBuild := ExceptT CompileError (StateM (RuleTree × List Path))

namespace StackBuild

variable {α β : Type}

/-- A step that leaves the stack alone. -/
def ofBuild (m : Build α) : StackBuild α := fun (t, stack) =>
  let (x, t') := m.run t
  (x, (t', stack))

def underWay : StackBuild (List Path) := do
  return (← get).2

def push (path : Path) : StackBuild Unit := modify fun (t, stack) => (t, path :: stack)

def pop : StackBuild Unit := modify fun (t, stack) => (t, stack.tail)

/-- With these files under way the first build does what the second one does. If it gives something
the stack is as it was, and if it fails there may be more on top of it. -/
def Follows (stack : List Path) (m : StackBuild α) (b : Build α) : Prop :=
  ∀ t, ∃ stack', m.run (t, stack) = ((b.run t).1, (b.run t).2, stack') ∧ stack <:+ stack' ∧
    ∀ a, (b.run t).1 = .ok a → stack' = stack

variable {stack : List Path} {m : StackBuild α} {b : Build α}

theorem follows_ofBuild (b : Build α) : Follows stack (ofBuild b) b :=
  fun _ => ⟨stack, rfl, List.suffix_refl _, fun _ _ => rfl⟩

theorem follows_throw (e : CompileError) : Follows stack (throw e : StackBuild α) (throw e) :=
  fun _ => ⟨stack, rfl, List.suffix_refl _, fun _ _ => rfl⟩

theorem Follows.bind {f : α → StackBuild β} {g : α → Build β} (h : Follows stack m b)
    (hf : ∀ a, Follows stack (f a) (g a)) : Follows stack (m >>= f) (b >>= g) := by
  intro t
  obtain ⟨stack', hrun, hsuffix, hkept⟩ := h t
  rw [run_bind, hrun, run_bind]
  cases hb : b.run t with
  | mk x t' =>
    rw [hb] at hkept
    cases x with
    | ok a =>
      obtain rfl := hkept a rfl
      exact hf a t'
    | error e => exact ⟨stack', rfl, hsuffix, nofun⟩

theorem Follows.underWay_bind {f : List Path → StackBuild α} (h : Follows stack (f stack) b) :
    Follows stack (underWay >>= f) b := h

/-- A file is on the stack only while its rule is placed. -/
theorem Follows.pushed {m : StackBuild Unit} {b : Build Unit} {path : Path}
    (h : Follows (path :: stack) m b) :
    Follows stack (do push path; m; pop) b := by
  intro t
  obtain ⟨stack', hrun, hsuffix, hkept⟩ := h t
  rw [run_bind]
  change ∃ stack', (m >>= fun _ => pop).run (t, path :: stack) = _ ∧ _
  rw [run_bind, hrun]
  cases hb : b.run t with
  | mk x t' =>
    rw [hb] at hkept
    cases x with
    | ok u =>
      obtain rfl := hkept u rfl
      exact ⟨stack, rfl, List.suffix_refl _, fun _ _ => rfl⟩
    | error e => exact ⟨stack', rfl, (List.suffix_cons path stack).trans hsuffix, nofun⟩

end StackBuild

namespace Workshop

open StackBuild

/-- What reads a fragment that is mentioned, with the files under way on the stack. -/
abbrev StackImporter := Path → RuleId → String → StackBuild Unit

mutual

/-- `Workshop.place`, where imports use the stack. -/
def placeStacked (w : Workshop) (importer : StackImporter) (s : Source) :
    FragmentRule → RuleId → List String → Provenance → StackBuild Unit
  | .mk head children, parent, way, provenance => do
    let id ← ofBuild (w.placeHead s head parent way provenance)
    placeChildrenStacked w importer s children id (way ++ ["children"]) 0

def placeChildrenStacked (w : Workshop) (importer : StackImporter) (s : Source) :
    List FragmentChild → RuleId → List String → Nat → StackBuild Unit
  | [], _, _, _ => ofBuild (pure ())
  | child :: rest, id, way, count => do
    placeChildStacked w importer s child id (way ++ [toString count])
    placeChildrenStacked w importer s rest id way (count + 1)

def placeChildStacked (w : Workshop) (importer : StackImporter) (s : Source) :
    FragmentChild → RuleId → List String → StackBuild Unit
  | .mention text, id, way =>
    match mentioned? text with
    | some expression => importer s.directory id expression
    | none =>
      throw (s.fault w.excerptWidth s!"child reference must start with '{includeMark}'"
        (Pointer.text way))
  | .rule r, id, way => placeStacked w importer s r id way (s.provenanceAt way)

end

/-- Reads a fragment and places it. The file is on the stack while its rule is placed. -/
def importStacked (w : Workshop) : Nat → StackImporter
  | 0, directory, _, expression =>
    throw (.badFragment (directory.resolve expression) .includesItself)
  | fuel + 1, directory, parent, expression => do
    let path := directory.resolve expression
    if (← underWay).contains path then throw (.badFragment path .includesItself)
    match w.files.read path with
    | .error failure => throw (.unreadable path failure)
    | .ok text =>
      let s : Source := ⟨path, text⟩
      match w.load s with
      | .error e => throw e
      | .ok rule => do
        push path
        w.placeStacked (w.importStacked fuel) s rule parent [] (.ofPath path)
        pop

variable {stack : List Path}

mutual

theorem placeStacked_follows (w : Workshop) {stacked : StackImporter} {importer : Importer}
    (himp : ∀ directory id expression,
      Follows stack (stacked directory id expression) (importer directory id expression))
    (s : Source) : ∀ (r : FragmentRule) (parent : RuleId) (way : List String) (p : Provenance),
      Follows stack (w.placeStacked stacked s r parent way p) (w.place importer s r parent way p)
  | .mk _ children, _, _, _ =>
    (follows_ofBuild _).bind fun id => placeChildrenStacked_follows w himp s children id _ 0

theorem placeChildrenStacked_follows (w : Workshop) {stacked : StackImporter}
    {importer : Importer} (himp : ∀ directory id expression,
      Follows stack (stacked directory id expression) (importer directory id expression))
    (s : Source) : ∀ (children : List FragmentChild) (id : RuleId) (way : List String)
      (count : Nat), Follows stack (w.placeChildrenStacked stacked s children id way count)
        (w.placeChildren importer s children id way count)
  | [], _, _, _ => follows_ofBuild _
  | child :: rest, id, way, count =>
    (placeChildStacked_follows w himp s child id _).bind fun _ =>
      placeChildrenStacked_follows w himp s rest id way (count + 1)

theorem placeChildStacked_follows (w : Workshop) {stacked : StackImporter} {importer : Importer}
    (himp : ∀ directory id expression,
      Follows stack (stacked directory id expression) (importer directory id expression))
    (s : Source) : ∀ (child : FragmentChild) (id : RuleId) (way : List String),
      Follows stack (w.placeChildStacked stacked s child id way)
        (w.placeChild importer s child id way)
  | .mention text, id, way => by
    rw [placeChildStacked, placeChild]
    cases mentioned? text with
    | some expression => exact himp _ _ _
    | none => exact follows_throw _
  | .rule r, id, way => placeStacked_follows w himp s r id way _

end

/-- An import with the files on a stack does what the import does that is given these files, and
leaves the stack as it was unless it fails. -/
theorem importStacked_follows (w : Workshop) (fuel : Nat) (stack : List Path) (directory : Path)
    (parent : RuleId) (expression : String) :
    Follows stack (w.importStacked fuel directory parent expression)
      (w.importWithin fuel stack directory parent expression) := by
  induction fuel generalizing stack directory parent expression with
  | zero => exact follows_throw _
  | succ fuel ih =>
    rw [importStacked, importWithin]
    refine .underWay_bind ?_
    cases stack.contains (directory.resolve expression) with
    | true => exact follows_throw _
    | false =>
      cases w.files.read (directory.resolve expression) with
      | error failure => exact follows_throw _
      | ok text =>
        simp only
        cases w.load ⟨directory.resolve expression, text⟩ with
        | error e => exact follows_throw _
        | ok rule => exact .pushed (w.placeStacked_follows (ih _) _ rule parent [] _)

/-- An import that starts with nothing on the stack has the outcome and the tree of
`Workshop.importFile`, and nothing is left on the stack unless it fails. -/
theorem importStacked_importFile (w : Workshop) (directory : Path) (parent : RuleId)
    (expression : String) (t : RuleTree) :
    ∃ stack', (w.importStacked (w.files.count + 1) directory parent expression).run (t, []) =
        (((w.importFile directory parent expression).run t).1,
          ((w.importFile directory parent expression).run t).2, stack') ∧
      (((w.importFile directory parent expression).run t).1 = .ok () → stack' = []) := by
  obtain ⟨stack', hrun, -, hkept⟩ :=
    w.importStacked_follows (w.files.count + 1) [] directory parent expression t
  exact ⟨stack', hrun, hkept ()⟩

end Workshop

end DeliveryRules
