import DeliveryRules.Proofs.Pointer.Nearest
import DeliveryRules.Proofs.Text.Cut

/-!
# From tokens to a text and back

- **Escapes** (`unescape_escape`): a token comes back from its escaped form, whatever tildes and
  slashes there are in it.
- **Pieces** (`cut_render`): a text of tokens falls apart into these tokens, because no escaped
  token has a slash.
- **Ends** (`parse_render`): blanks at the end of a text do not count, so the last token comes back
  without those at its end; and nothing comes back of a single empty token.
- `tokens_text_iff`: these are the only tokens that are not told.
- `tokens_text`: a number sign before the text makes no difference.
- **Indices** (`index?_toString`): an index comes back from its digits.
-/

namespace DeliveryRules.Pointer

open Text

/-! ## Escapes -/

theorem replacePair_cons {a b c : Char} (h : c ≠ a) (into cs : List Char) :
    replacePair a b into (c :: cs) = c :: replacePair a b into cs := by
  cases cs with
  | nil => rfl
  | cons d ds => rw [replacePair, if_neg fun hpair => h hpair.1]

theorem replacePair_pair (a b : Char) (into cs : List Char) :
    replacePair a b into (a :: b :: cs) = into ++ replacePair a b into cs := by
  rw [replacePair, if_pos ⟨rfl, rfl⟩]

theorem replacePair_other {a b d : Char} (h : d ≠ b) (into cs : List Char) :
    replacePair a b into (a :: d :: cs) = a :: replacePair a b into (d :: cs) := by
  rw [replacePair, if_neg fun hpair => h hpair.2]

/-- A character as it stands in an escaped token. -/
def escaped (c : Char) : List Char :=
  if c = '~' then ['~', '0'] else if c = '/' then ['~', '1'] else [c]

theorem escape_cons (c : Char) (cs : List Char) : escape (c :: cs) = escaped c ++ escape cs := by
  rw [escaped, escape, escape, replaceChar, replaceChar, replaceChar, replaceChar,
    List.flatMap_cons, List.flatMap_append]
  congr 1
  by_cases htilde : c = '~'
  · subst htilde
    rfl
  · by_cases hslash : c = '/'
    · subst hslash
      rfl
    · simp [htilde, hslash]

/-- The slashes come back first. -/
theorem replacePair_escape (token : List Char) :
    replacePair '~' '1' ['/'] (escape token) = replaceChar '~' ['~', '0'] token := by
  induction token with
  | nil => rfl
  | cons c cs ih =>
    rw [escape_cons, escaped, replaceChar, List.flatMap_cons, ← replaceChar]
    by_cases htilde : c = '~'
    · rw [if_pos htilde, if_pos htilde]
      simp only [List.cons_append, List.nil_append]
      rw [replacePair_other (by decide), replacePair_cons (by decide), ih]
    · rw [if_neg htilde, if_neg htilde]
      by_cases hslash : c = '/'
      · rw [if_pos hslash, hslash]
        simp only [List.cons_append, List.nil_append]
        rw [replacePair_pair, ih]
        rfl
      · rw [if_neg hslash]
        simp only [List.cons_append, List.nil_append]
        rw [replacePair_cons htilde, ih]

theorem unescape_escape (token : List Char) : unescape (escape token) = token := by
  rw [unescape, replacePair_escape]
  induction token with
  | nil => rfl
  | cons c cs ih =>
    rw [replaceChar, List.flatMap_cons, ← replaceChar]
    by_cases htilde : c = '~'
    · rw [if_pos htilde, htilde]
      simp only [List.cons_append, List.nil_append]
      rw [replacePair_pair, ih]
      rfl
    · rw [if_neg htilde]
      simp only [List.cons_append, List.nil_append]
      rw [replacePair_cons htilde, ih]

/-! ## Pieces -/

theorem slash_notMem_escape (token : List Char) : '/' ∉ escape token := by
  induction token with
  | nil => exact List.not_mem_nil
  | cons c cs ih =>
    rw [escape_cons, List.mem_append, not_or, escaped]
    refine ⟨?_, ih⟩
    by_cases htilde : c = '~'
    · rw [if_pos htilde]
      decide
    · rw [if_neg htilde]
      by_cases hslash : c = '/'
      · rw [if_pos hslash]
        decide
      · rw [if_neg hslash, List.mem_singleton]
        exact Ne.symm hslash

/-- The pieces of a text of tokens, behind its first slash. -/
theorem cut_render (token : List Char) (ts : List (List Char)) :
    cut '/' (escape token ++ render ts) = (token :: ts).map escape := by
  induction ts generalizing token with
  | nil =>
    rw [render, List.flatMap_nil, List.append_nil]
    exact cut_of_notMem (slash_notMem_escape token)
  | cons t ts ih =>
    rw [render, List.flatMap_cons, ← render, List.cons_append,
      cut_append_cons (slash_notMem_escape token), ih]
    rfl

/-! ## Ends -/

theorem escape_eq_nil_iff {token : List Char} : escape token = [] ↔ token = [] := by
  cases token with
  | nil => exact ⟨fun _ => rfl, fun _ => rfl⟩
  | cons c cs =>
    have hne : escaped c ≠ [] := by
      rw [escaped]
      split
      · nofun
      · split <;> nofun
    rw [escape_cons, List.append_eq_nil_iff]
    exact ⟨fun h => absurd h.1 hne, nofun⟩

theorem dropWhileEnd_cons_eq (p : Char → Bool) (c : Char) (cs : List Char) :
    dropWhileEnd p (c :: cs) =
      if dropWhileEnd p cs = [] ∧ p c then [] else c :: dropWhileEnd p cs := by
  rw [dropWhileEnd]
  cases dropWhileEnd p cs with
  | nil => simp
  | cons d ds => rfl

theorem dropWhileEnd_append_cons {p : Char → Bool} {c : Char} (h : p c = false)
    (before after : List Char) :
    dropWhileEnd p (before ++ c :: after) = before ++ c :: dropWhileEnd p after := by
  induction before with
  | nil => exact dropWhileEnd_cons h after
  | cons d ds ih =>
    rw [List.cons_append, dropWhileEnd_cons_eq, ih, if_neg fun hnil => by simp at hnil]
    rfl

/-- A blank stands for itself, and no escape ends in one. -/
theorem escaped_cases (c : Char) :
    escaped c = [c] ∨ isBlank c = false ∧ ∃ d, escaped c = ['~', d] ∧ isBlank d = false := by
  rw [escaped]
  by_cases htilde : c = '~'
  · rw [if_pos htilde, htilde]
    exact .inr ⟨by decide, '0', rfl, by decide⟩
  · by_cases hslash : c = '/'
    · rw [if_neg htilde, if_pos hslash, hslash]
      exact .inr ⟨by decide, '1', rfl, by decide⟩
    · rw [if_neg htilde, if_neg hslash]
      exact .inl rfl

theorem dropWhileEnd_escape (token : List Char) :
    dropWhileEnd isBlank (escape token) = escape (dropWhileEnd isBlank token) := by
  induction token with
  | nil => rfl
  | cons c cs ih =>
    rw [escape_cons]
    rcases escaped_cases c with hplain | ⟨hc, d, hd, hblank⟩
    · rw [hplain, List.singleton_append, dropWhileEnd_cons_eq, dropWhileEnd_cons_eq, ih]
      simp only [escape_eq_nil_iff]
      split
      · rfl
      · rw [escape_cons, hplain]
        rfl
    · rw [hd, dropWhileEnd_cons hc, escape_cons, hd, ← ih]
      exact dropWhileEnd_append_cons hblank ['~'] _

/-- What becomes of tokens that are written as a text: the last one loses the blanks at its end, and
if nothing is left of a single token, there is no token. -/
theorem parse_render (before : List (List Char)) (last : List Char) :
    parse (render (before ++ [last])) =
      if before = [] ∧ dropWhileEnd isBlank last = [] then []
      else before ++ [dropWhileEnd isBlank last] := by
  have hrender (last : List Char) :
      render (before ++ [last]) = render before ++ '/' :: escape last := by
    rw [render, List.flatMap_append, ← render, List.flatMap_singleton]
  have htrim : trim (render (before ++ [last])) =
      render (before ++ [dropWhileEnd isBlank last]) := by
    have hstart : (render before ++ '/' :: escape last).dropWhile isBlank =
        render before ++ '/' :: escape last := by
      cases before with
      | nil => exact List.dropWhile_cons_of_neg (by decide)
      | cons t ts => exact List.dropWhile_cons_of_neg (by decide)
    rw [hrender, trim, hstart, dropWhileEnd_append_cons (by decide), dropWhileEnd_escape, hrender]
  obtain ⟨first, rest, hsplit⟩ : ∃ first rest,
      before ++ [dropWhileEnd isBlank last] = first :: rest := by
    cases before with
    | nil => exact ⟨_, _, rfl⟩
    | cons t ts => exact ⟨_, _, rfl⟩
  have hdrop : dropLead '/' (dropLead '#' (render (first :: rest))) =
      escape first ++ render rest := rfl
  have hnil : escape first ++ render rest = [] ↔
      before = [] ∧ dropWhileEnd isBlank last = [] := by
    rw [List.append_eq_nil_iff, escape_eq_nil_iff]
    constructor
    · rintro ⟨rfl, hrest⟩
      cases rest with
      | cons t ts => cases hrest
      | nil =>
        cases before with
        | nil => exact ⟨rfl, List.head_eq_of_cons_eq hsplit⟩
        | cons t ts => simp at hsplit
    · rintro ⟨rfl, hlast⟩
      rw [hlast, List.nil_append, List.cons.injEq] at hsplit
      obtain ⟨rfl, rfl⟩ := hsplit
      exact ⟨rfl, rfl⟩
  rw [parse, htrim, hsplit, hdrop]
  split
  · rename_i heq
    rw [if_pos (hnil.mp heq)]
  · rename_i hne
    have hfalse : ¬ (before = [] ∧ dropWhileEnd isBlank last = []) := mt hnil.mpr hne
    rw [if_neg hfalse, cut_render, List.map_map]
    simp [Function.comp_def, unescape_escape]

/-- Tokens that are told by their text: there is not just one that is empty, and the last one does
not end in a blank. -/
def IsTold (tokens : List String) : Prop :=
  tokens ≠ [""] ∧ ∀ last ∈ tokens.getLast?, ∀ c ∈ last.toList.getLast?, isBlank c = false

theorem dropWhileEnd_eq_self_iff {p : Char → Bool} {cs : List Char} :
    dropWhileEnd p cs = cs ↔ ∀ c ∈ cs.getLast?, p c = false := by
  induction cs with
  | nil => exact ⟨fun _ => nofun, fun _ => rfl⟩
  | cons c cs ih =>
    rw [dropWhileEnd_cons_eq]
    cases cs with
    | nil => simp [dropWhileEnd]
    | cons d ds =>
      rw [List.getLast?_cons_cons, ← ih]
      constructor
      · intro h
        split at h
        · cases h
        · exact (List.cons.inj h).2
      · intro h
        rw [h, if_neg (fun hnil => List.cons_ne_nil _ _ hnil.1)]

theorem tokens_text_iff (ts : List String) : tokens (text ts) = ts ↔ IsTold ts := by
  rcases List.eq_nil_or_concat ts with rfl | ⟨before, last, rfl⟩
  · simp [IsTold, text, render, tokens, parse, trim, dropWhileEnd, dropLead, afterPrefix?]
  · have hparse := parse_render (before.map String.toList) last.toList
    have hchars : (before.concat last).map String.toList =
        before.map String.toList ++ [last.toList] := by simp
    have hback (before : List String) : (before.map String.toList).map String.ofList = before := by
      simp [Function.comp_def]
    rw [tokens, text, String.toList_ofList, hchars, hparse, List.concat_eq_append, IsTold,
      List.getLast?_concat]
    simp only [Option.mem_some_iff, forall_eq', ← dropWhileEnd_eq_self_iff, List.map_eq_nil_iff]
    by_cases hnothing : before = [] ∧ dropWhileEnd isBlank last.toList = []
    · rw [if_pos hnothing]
      constructor
      · intro h
        simp at h
      · rintro ⟨hne, hlast⟩
        rw [hnothing.2, eq_comm, String.toList_eq_nil_iff] at hlast
        exact absurd (by rw [hnothing.1, hlast]; rfl) hne
    · have hsame : (before.map String.toList ++ [dropWhileEnd isBlank last.toList]).map
          String.ofList = before ++ [last] ↔
          dropWhileEnd isBlank last.toList = last.toList := by
        rw [List.map_append, hback, List.append_cancel_left_eq, List.map_singleton,
          List.singleton_inj, ← String.toList_inj, String.toList_ofList]
      rw [if_neg hnothing, hsame, iff_and_self]
      intro hlast hempty
      refine hnothing ?_
      cases before with
      | nil =>
        obtain rfl := List.singleton_inj.mp hempty
        exact ⟨rfl, rfl⟩
      | cons t ts => simp at hempty

instance (tokens : List String) : Decidable (IsTold tokens) :=
  decidable_of_iff _ (tokens_text_iff tokens)

/-- A number sign before the text of tokens changes nothing, also where there is no token. -/
theorem tokens_marked_text (ts : List String) : tokens ("#" ++ text ts) = tokens (text ts) := by
  cases ts with
  | nil => rfl
  | cons t ts =>
    have htext : text (t :: ts) = "/" ++
        String.ofList (escape t.toList ++ render (ts.map String.toList)) := by
      rw [← String.toList_inj, String.toList_append]
      simp [text, render]
    have hmarked (rest : String) : "#" ++ ("/" ++ rest) = "#/" ++ rest := by
      rw [← String.append_assoc]
      rfl
    rw [htext, hmarked]
    exact tokens_marked _

/-- Tokens come back from their text if and only if they are told by it: there is not just one that
is empty, and the last one does not end in a blank. A number sign before the text makes no
difference. -/
theorem tokens_text (ts : List String) :
    (tokens (text ts) = ts ↔ IsTold ts) ∧ tokens ("#" ++ text ts) = tokens (text ts) := by
  constructor
  · exact tokens_text_iff ts
  · exact tokens_marked_text ts

/-! ## Indices -/

theorem index?_toString {i : Nat} (h : i ≤ maxIndex) : index? (toString i) = some i := by
  have hchars : (toString i).toList = Nat.toDigits 10 i := Nat.toList_repr
  have hdigit : ∀ c ∈ Nat.toDigits 10 i, c.isDigit = true := fun c hc =>
    Nat.isDigit_of_mem_toDigits (by decide) (by decide) hc
  have hlead : dropLead '+' (Nat.toDigits 10 i) = Nat.toDigits 10 i := by
    cases hcs : Nat.toDigits 10 i with
    | nil => rfl
    | cons c cs =>
      have hc : c ≠ '+' := by
        rintro rfl
        exact absurd (hdigit '+' (hcs ▸ List.mem_cons_self)) (by decide)
      rw [dropLead, Text.afterPrefix?, if_neg (Ne.symm hc)]
      rfl
  have hvalue : (Nat.toDigits 10 i).foldl (fun n c => 10 * n + (c.toNat - '0'.toNat)) 0 = i :=
    Nat.ofDigitChars_toDigits (by decide) (by decide)
  have hshape : ((Nat.toDigits 10 i).isEmpty || !(Nat.toDigits 10 i).all Char.isDigit) = false := by
    rw [List.all_eq_true.mpr hdigit, List.isEmpty_eq_false_iff.mpr Nat.toDigits_ne_nil]
    rfl
  rw [index?, hchars, hlead]
  simp only [hshape, hvalue, Bool.false_eq_true, if_false, if_pos h]

end DeliveryRules.Pointer
