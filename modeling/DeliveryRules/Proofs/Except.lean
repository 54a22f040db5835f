import Mathlib.Data.List.Forall2

/-!
# Computations that may fail

What a computation made of others says of these, where it gives something or fails.

- **Sequences** (`bind_eq_ok`, `bind_eq_error`): every step gives something, or one of them fails.
  Over a state (`run_bind`) what was done before a failure stays done.
- **Traversals** (`mapM_eq_ok`, `exists_of_mem_mapM`, `mapM_eq_error`): every item gives something,
  or the error is that of one of them, of the first at fault (`mapM_eq_of_fault`).
- **Folds** (`foldlM_eq_ok`, `foldlM_isOk`, `foldlM_eq_self`): what goes through items one after the
  other goes through each of them. What each keeps is kept (`foldlM_keeps`), and is all that matters
  for what two of them have in common (`foldlM_congr_of_keeps`).
-/

namespace DeliveryRules

variable {ε ε' α β : Type}

/-- For what is evaluated by cases on whether it fails. -/
theorem eq_ok_of_toOption {x : Except ε α} {a : α} (h : x.toOption = some a) : x = .ok a := by
  cases x with
  | error e => cases h
  | ok b =>
    cases h
    rfl

theorem eq_ok_of_isOk {x : Except ε Unit} (h : x.isOk = true) : x = .ok () := by
  cases x with
  | error e => cases h
  | ok _ => rfl

/-! ## Sequences -/

theorem bind_eq_ok {x : Except ε α} {f : α → Except ε β} {b : β} :
    x.bind f = .ok b ↔ ∃ a, x = .ok a ∧ f a = .ok b := by
  cases x with
  | error e => simp [Except.bind]
  | ok a => simp [Except.bind]

theorem bind_eq_error {x : Except ε α} {f : α → Except ε β} {e : ε} :
    x.bind f = .error e ↔ x = .error e ∨ ∃ a, x = .ok a ∧ f a = .error e := by
  cases x with
  | error e => simp [Except.bind]
  | ok a => simp [Except.bind]

theorem map_eq_ok {x : Except ε α} {f : α → β} {b : β} :
    x.map f = .ok b ↔ ∃ a, x = .ok a ∧ f a = b := by
  cases x with
  | error e => simp [Except.map]
  | ok a => simp [Except.map]

theorem mapError_eq_ok {x : Except ε α} {f : ε → ε'} {a : α} :
    x.mapError f = .ok a ↔ x = .ok a := by
  cases x with
  | error e => simp [Except.mapError]
  | ok a => simp [Except.mapError]

/-- A sequence over a state: a step that fails ends it, and the state stays as the step left it. -/
theorem run_bind {σ : Type} (m : ExceptT ε (StateM σ) α) (f : α → ExceptT ε (StateM σ) β) (s : σ) :
    (m >>= f).run s =
      match m.run s with
      | (.ok a, s') => (f a).run s'
      | (.error e, s') => (.error e, s') := by
  change (ExceptT.bind m f).run s = _
  simp only [ExceptT.bind, ExceptT.run, ExceptT.mk, bind, StateT.bind]
  cases m s with
  | mk x s' => cases x <;> rfl

/-! ## Traversals -/

/-- A traversal without an error gives something for each item. -/
theorem mapM_eq_ok {f : α → Except ε β} {as : List α} {bs : List β} :
    as.mapM f = .ok bs ↔ List.Forall₂ (fun a b => f a = .ok b) as bs := by
  induction as generalizing bs with
  | nil => cases bs <;> simp [pure, Except.pure]
  | cons a as ih =>
    rw [List.mapM_cons, List.forall₂_cons_left_iff]
    cases ha : f a with
    | error e => simp [bind, Except.bind]
    | ok b =>
      cases has : as.mapM f with
      | error e => simp [bind, Except.bind, ← ih, has]
      | ok rest =>
        simp [bind, Except.bind, pure, Except.pure, ← ih, has, eq_comm]

/-- What a traversal gives is what it gives for one of the items. -/
theorem exists_of_mem_mapM {f : α → Except ε β} {as : List α} {bs : List β}
    (h : as.mapM f = .ok bs) {b : β} (hb : b ∈ bs) : ∃ a ∈ as, f a = .ok b := by
  rw [mapM_eq_ok] at h
  induction h with
  | nil => cases hb
  | cons hfirst _ ih =>
    rcases List.mem_cons.mp hb with rfl | hb
    · exact ⟨_, List.mem_cons_self, hfirst⟩
    · obtain ⟨a, hmem, ha⟩ := ih hb
      exact ⟨a, List.mem_cons_of_mem _ hmem, ha⟩

/-- The error of a traversal is that of one of the items. -/
theorem mapM_eq_error {f : α → Except ε β} {as : List α} {e : ε}
    (h : as.mapM f = .error e) : ∃ a ∈ as, f a = .error e := by
  induction as with
  | nil => cases h
  | cons a as ih =>
    rw [List.mapM_cons] at h
    rcases bind_eq_error.mp h with ha | ⟨b, -, h⟩
    · exact ⟨a, List.mem_cons_self, ha⟩
    · rcases bind_eq_error.mp h with has | ⟨bs, -, h⟩
      · obtain ⟨a', hmem, ha'⟩ := ih has
        exact ⟨a', List.mem_cons_of_mem _ hmem, ha'⟩
      · cases h

/-- Where each item has a value or a fault, the first fault ends the traversal. -/
theorem mapM_eq_of_fault (fault? : α → Option ε) (value : α → β) {f : α → Except ε β}
    (hf : ∀ a, f a = (fault? a).elim (.ok (value a)) .error) (as : List α) :
    as.mapM f = (as.findSome? fault?).elim (.ok (as.map value)) .error := by
  induction as with
  | nil => rfl
  | cons a as ih =>
    rw [List.mapM_cons, hf, ih, List.findSome?_cons]
    cases fault? a with
    | some e => rfl
    | none => cases as.findSome? fault? <;> rfl

/-! ## Folds -/

/-- What goes through items one after the other goes through each of them. -/
theorem foldlM_eq_ok {f : α → β → Except ε α} {bs : List β} {a x : α}
    (h : bs.foldlM f a = .ok x) : ∀ b ∈ bs, ∃ a' x', f a' b = .ok x' := by
  induction bs generalizing a with
  | nil => exact nofun
  | cons b bs ih =>
    rw [List.foldlM_cons] at h
    obtain ⟨a', hb, h⟩ := bind_eq_ok.mp h
    exact List.forall_mem_cons.mpr ⟨⟨a, a', hb⟩, ih h⟩

/-- What every item keeps is kept by all of them. -/
theorem foldlM_keeps {P : α → Prop} {f : α → β → Except ε α} {bs : List β}
    (hf : ∀ b ∈ bs, ∀ a x, P a → f a b = .ok x → P x) {a x : α} (ha : P a)
    (h : bs.foldlM f a = .ok x) : P x := by
  induction bs generalizing a with
  | nil =>
    cases h
    exact ha
  | cons b bs ih =>
    rw [List.forall_mem_cons] at hf
    rw [List.foldlM_cons] at h
    obtain ⟨a', hb, h⟩ := bind_eq_ok.mp h
    exact ih hf.2 (hf.1 a a' ha hb) h

/-- Two folds that agree on what is kept all along agree on the whole. -/
theorem foldlM_congr_of_keeps {P : α → Prop} {f g : α → β → Except ε α} {bs : List β}
    (hfg : ∀ b ∈ bs, ∀ a, P a → f a b = g a b)
    (hf : ∀ b ∈ bs, ∀ a x, P a → f a b = .ok x → P x) {a : α} (ha : P a) :
    bs.foldlM f a = bs.foldlM g a := by
  induction bs generalizing a with
  | nil => rfl
  | cons b bs ih =>
    rw [List.forall_mem_cons] at hfg hf
    rw [List.foldlM_cons, List.foldlM_cons, ← hfg.1 a ha]
    cases hb : f a b with
    | error e => rfl
    | ok x => exact ih hfg.2 hf.2 (hf.1 a x ha hb)

theorem foldlM_isOk {f : α → β → Except ε α} {bs : List β}
    (h : ∀ b ∈ bs, ∀ a, ∃ x, f a b = .ok x) (a : α) : ∃ x, bs.foldlM f a = .ok x := by
  induction bs generalizing a with
  | nil => exact ⟨a, rfl⟩
  | cons b bs ih =>
    rw [List.forall_mem_cons] at h
    obtain ⟨x, hx⟩ := h.1 a
    rw [List.foldlM_cons, hx]
    exact ih h.2 x

theorem foldlM_eq_self {f : α → β → Except ε α} {bs : List β} {a : α}
    (h : ∀ b ∈ bs, f a b = .ok a) : bs.foldlM f a = .ok a := by
  induction bs with
  | nil => rfl
  | cons b bs ih =>
    rw [List.forall_mem_cons] at h
    rw [List.foldlM_cons, h.1]
    exact ih h.2

end DeliveryRules
