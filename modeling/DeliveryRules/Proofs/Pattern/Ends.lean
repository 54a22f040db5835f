import DeliveryRules.Pattern.Basic

/-!
# Where parts of a text end

- **Ends** (`mem_ends_seq`, `mem_ends_char`, `exists_mem_ends_repeated`): what `Pattern.ends` lists,
  form by form.
- **Texts in patterns** (`literally`): a pattern that asks for the characters of a text, one after
  the other. They are there where the text goes on with them (`mem_ends_literally`,
  `occursIn_literally`).
-/

namespace DeliveryRules.Pattern

variable {text : Array Char} {i j : Nat}

theorem mem_ends_seq {p q : Pattern} :
    j ∈ ends text (.seq p q) i ↔ ∃ k ∈ ends text p i, j ∈ ends text q k := by
  rw [ends, List.mem_eraseDups, List.mem_flatMap]

theorem mem_ends_char {set : CharSet} :
    j ∈ ends text (.char set) i ↔ ∃ c, text[i]? = some c ∧ set.contains c ∧ j = i + 1 := by
  rw [ends]
  cases text[i]? with
  | none => simp
  | some c => by_cases h : set.contains c <;> simp [h]

theorem mem_ends_textStart : j ∈ ends text .textStart i ↔ i = 0 ∧ j = 0 := by
  rw [ends]
  by_cases h : i = 0 <;> simp [h]

theorem mem_ends_empty : j ∈ ends text .empty i ↔ j = i := by
  rw [ends, List.mem_singleton]

theorem mem_afterAtMost {step : Nat → List Nat} {n : Nat} {starts : List Nat} (h : j ∈ starts) :
    j ∈ afterAtMost step n starts := by
  cases n with
  | zero => exact h
  | succ n => exact List.mem_eraseDups.mpr (List.mem_append_left _ h)

theorem afterAtMost_nil (step : Nat → List Nat) (n : Nat) : afterAtMost step n [] = [] := by
  induction n with
  | zero => rfl
  | succ n ih =>
    rw [afterAtMost]
    exact congrArg List.eraseDups ih

/-- What has to occur once and may be repeated occurs somewhere if it occurs once. -/
theorem exists_mem_ends_repeated {p : Pattern} :
    (∃ j, j ∈ ends text (.repeated p ⟨1, none⟩) i) ↔ ∃ j, j ∈ ends text p i := by
  have hstarts (k : Nat) : k ∈ afterExactly (ends text p) 1 [i] ↔ k ∈ ends text p i := by
    simp [afterExactly]
  rw [ends]
  constructor
  · rintro ⟨j, hj⟩
    cases hfirst : afterExactly (ends text p) 1 [i] with
    | nil =>
      simp only [hfirst, afterAtMost_nil, List.not_mem_nil] at hj
    | cons k ks => exact ⟨k, (hstarts k).mp (hfirst ▸ List.mem_cons_self)⟩
  · rintro ⟨j, hj⟩
    exact ⟨j, mem_afterAtMost ((hstarts j).mpr hj)⟩

theorem occursIn_iff {p : Pattern} {s : String} :
    p.occursIn s ↔ ∃ i ≤ s.toList.length, ∃ j, j ∈ ends s.toList.toArray p i := by
  rw [occursIn, List.any_eq_true]
  refine exists_congr fun i => and_congr ?_ ?_
  · rw [List.mem_range, List.size_toArray, Nat.lt_succ_iff]
  · simp [List.eq_nil_iff_forall_not_mem]

/-! ## Texts in patterns -/

/-- The characters of a text, one after the other, and then `rest`. -/
def literally (rest : Pattern) (cs : List Char) : Pattern :=
  cs.foldr (fun c p => .seq (.char (.one c)) p) rest

theorem contains_one {c d : Char} : (CharSet.one c).contains d ↔ d = c := by
  simp only [CharSet.one, CharSet.contains, Bool.and_eq_true, decide_eq_true_eq]
  exact ⟨fun ⟨h, h'⟩ => Char.le_antisymm h' h, fun h => h ▸ ⟨Char.le_refl _, Char.le_refl _⟩⟩

theorem mem_ends_literally {rest : Pattern} {cs : List Char} :
    j ∈ ends text (literally rest cs) i ↔
      cs <+: text.toList.drop i ∧ j ∈ ends text rest (i + cs.length) := by
  induction cs generalizing i with
  | nil => simp [literally]
  | cons c cs ih =>
    rw [literally, List.foldr_cons, ← literally, mem_ends_seq]
    simp only [mem_ends_char, contains_one, ih, List.length_cons]
    constructor
    · rintro ⟨-, ⟨c, hc, rfl, rfl⟩, hcs, hj⟩
      obtain ⟨hi, rfl⟩ := Array.getElem?_eq_some_iff.mp hc
      rw [List.drop_eq_getElem_cons (by simpa using hi), Array.getElem_toList]
      exact ⟨List.cons_prefix_cons.mpr ⟨rfl, hcs⟩, by rwa [Nat.add_assoc, Nat.add_comm 1] at hj⟩
    · rintro ⟨hcs, hj⟩
      have hi : i < text.toList.length := by
        have := hcs.length_le
        rw [List.length_drop, List.length_cons] at this
        omega
      rw [List.drop_eq_getElem_cons hi, Array.getElem_toList, List.cons_prefix_cons] at hcs
      refine ⟨i + 1, ⟨c, ?_, rfl, rfl⟩, hcs.2, by rwa [Nat.add_assoc, Nat.add_comm 1]⟩
      rw [Array.getElem?_eq_getElem (by simpa using hi), hcs.1]

/-- The part at the start of a text that has some characters first. -/
theorem occursIn_literally {rest : Pattern} {cs : List Char} {s : String} :
    (seq .textStart (literally rest cs)).occursIn s ↔
      cs <+: s.toList ∧ ∃ j, j ∈ ends s.toList.toArray rest cs.length := by
  simp only [occursIn_iff, mem_ends_seq, mem_ends_textStart, mem_ends_literally]
  constructor
  · rintro ⟨i, -, j, k, ⟨-, rfl⟩, hcs, hj⟩
    exact ⟨hcs, j, by rwa [Nat.zero_add] at hj⟩
  · rintro ⟨hcs, j, hj⟩
    exact ⟨0, Nat.zero_le _, j, 0, ⟨rfl, rfl⟩, hcs, by rwa [Nat.zero_add]⟩

/-- Something in the line that starts with `text[i]`. -/
theorem exists_mem_ends_inLine :
    (∃ j, j ∈ ends text (.seq (.repeated (.char .anyInLine) ⟨1, none⟩) .empty) i) ↔
      ∃ c, text[i]? = some c ∧ c ≠ '\n' := by
  have hinLine {c : Char} : CharSet.anyInLine.contains c ↔ c ≠ '\n' := by
    rw [CharSet.anyInLine, CharSet.contains, Bool.not_eq_true', ← Bool.not_eq_true, contains_one]
  have hseq : (∃ j, j ∈ ends text (.seq (.repeated (.char .anyInLine) ⟨1, none⟩) .empty) i) ↔
      ∃ j, j ∈ ends text (.repeated (.char .anyInLine) ⟨1, none⟩) i := by
    simp only [mem_ends_seq, mem_ends_empty]
    exact ⟨fun ⟨_, k, hk, _⟩ => ⟨k, hk⟩, fun ⟨k, hk⟩ => ⟨k, k, hk, rfl⟩⟩
  rw [hseq, exists_mem_ends_repeated]
  simp only [mem_ends_char, hinLine]
  exact ⟨fun ⟨_, c, hc, hne, _⟩ => ⟨c, hc, hne⟩, fun ⟨c, hc, hne⟩ => ⟨i + 1, c, hc, hne, rfl⟩⟩

end DeliveryRules.Pattern
