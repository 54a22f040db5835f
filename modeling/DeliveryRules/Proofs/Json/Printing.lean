import DeliveryRules.Proofs.Json.Blurred
import DeliveryRules.Proofs.Json.Numbers
import DeliveryRules.Proofs.Json.Values
import Mathlib.Data.List.TakeWhile
import Mathlib.Tactic.IntervalCases

/-!
# Values come back from their text

The reader takes back what the printer wrote, whatever follows it, as far as it reads that deep.
Floating point numbers may come back as other ones, so this is said of values that are blurred.

- **Strings** (`readString_escaped`): what is escaped is read as it was.
- **Sequences** (`readItems_text`, `readMembers_text`): parts that are read one by one are read as
  the items of an array and as the members of an object. The parts of a pretty text stand on lines
  of their own (`prettyChars_array`, `prettyChars_object`).
- **Values** (`Json.Legible`): numbers are in their range, and no object has a name twice. The
  pretty text of such a value is read as the value (`itemText_pretty`).
- **What is read** (`depth_of_readValue`, `legible_of_read`): it is no deeper than may be read, and
  it can be written down again.
- **Whole texts** (`read_pretty`, `depth_of_read_pretty`): a value comes back from its text if and
  only if it is not nested too deep.
-/

namespace DeliveryRules.Json

/-! ## Strings -/

theorem length_lt_append {ds : List Char} (h : ds ≠ []) (rest : List Char) :
    rest.length < (ds ++ rest).length := by
  have hpos := List.length_pos_of_ne_nil h
  rw [List.length_append]
  omega

theorem readChars_escape {c : Char} (es : List Char) {rest : List Char}
    (hshorter : rest.length < (es ++ rest).length)
    (h : readEscape (es ++ rest) = .ok (c, ⟨rest, hshorter⟩)) :
    readChars ('\\' :: es ++ rest) = (readChars rest).map fun r => (c :: r.1, r.2) := by
  rw [List.cons_append, readChars]
  simp only [h]
  cases readChars rest <;> rfl

theorem readChars_plain {c : Char} (hquote : c ≠ '"') (hbackslash : c ≠ '\\')
    (hcontrol : 0x20 ≤ c.toNat) (rest : List Char) :
    readChars (c :: rest) = (readChars rest).map fun r => (c :: r.1, r.2) := by
  rw [readChars, if_neg hquote, if_neg hbackslash, if_neg (Nat.not_lt.mpr hcontrol)]
  cases readChars rest <;> rfl

/-- A character below U+0020 comes back from its escape. -/
theorem readEscape_control {c : Char} (h : c.toNat < 0x20) (rest : List Char) :
    ∃ es hshorter, escaped c = '\\' :: es ∧
      readEscape (es ++ rest) = .ok (c, ⟨rest, hshorter⟩) := by
  obtain ⟨n, hn, rfl⟩ : ∃ n, n < 0x20 ∧ c = Char.ofNat n :=
    ⟨c.toNat, h, (Char.ofNat_toNat c).symm⟩
  clear h
  interval_cases n <;> exact ⟨_, length_lt_append (List.cons_ne_nil _ _) rest, rfl, rfl⟩

theorem readChars_escaped (cs rest : List Char) :
    readChars (cs.flatMap escaped ++ '"' :: rest) = .ok (cs, rest) := by
  induction cs with
  | nil =>
    rw [List.flatMap_nil, List.nil_append, readChars]
    rfl
  | cons c cs ih =>
    rw [List.flatMap_cons, List.append_assoc]
    generalize cs.flatMap escaped ++ '"' :: rest = after at ih
    by_cases hquote : c = '"'
    · subst hquote
      exact (readChars_escape ['"'] (length_lt_append (List.cons_ne_nil _ _) _) rfl).trans
        (by rw [ih]; rfl)
    by_cases hback : c = '\\'
    · subst hback
      exact (readChars_escape ['\\'] (length_lt_append (List.cons_ne_nil _ _) _) rfl).trans
        (by rw [ih]; rfl)
    by_cases hcontrol : c.toNat < 0x20
    · obtain ⟨es, hshorter, hescaped, hread⟩ := readEscape_control hcontrol after
      rw [hescaped, readChars_escape es hshorter hread, ih]
      rfl
    · have hescaped : escaped c = [c] := by
        simp only [escaped, hquote, hback, hcontrol, if_false]
      rw [hescaped, List.singleton_append, readChars_plain hquote hback (Nat.not_lt.mp hcontrol),
        ih]
      rfl

theorem quoted_toList (s : String) :
    (quoted s).toList = '"' :: (s.toList.flatMap escaped ++ ['"']) := String.toList_ofList

theorem readString_escaped (s : String) (rest : List Char) :
    readString (s.toList.flatMap escaped ++ '"' :: rest) = .ok (s, rest) := by
  rw [readString, readChars_escaped]
  show Except.ok (String.ofList s.toList, rest) = _
  rw [String.ofList_toList]

/-! ## Arrays and objects -/

section Sequences

variable {α β γ : Type} {item : List Char → Except Stop (Followed α)}

/-- The line break and the spaces before what stands on a line of its own. -/
def pad (level : Nat) : List Char := '\n' :: List.replicate (2 * level) ' '

theorem skipGaps_pad {c : Char} (hc : isGap c = false) (level : Nat) (cs : List Char) :
    skipGaps (pad level ++ c :: cs) = c :: cs := by
  have hpad : ∀ d ∈ pad level, isGap d = true := by
    intro d hd
    rcases List.mem_cons.mp hd with rfl | hd
    · rfl
    · rw [List.eq_of_mem_replicate hd]
      rfl
  rw [skipGaps, List.dropWhile_append_of_pos hpad]
  exact skipGaps_cons_of_not hc

/-- The text of the parts after the first. -/
def listed (level : Nat) (parts : List (List Char)) : List Char :=
  parts.flatMap fun part => ',' :: (pad level ++ part)

theorem listed_cons (level : Nat) (part : List Char) (parts : List (List Char)) :
    listed level (part :: parts) = ',' :: (pad level ++ (part ++ listed level parts)) := by
  simp only [listed, List.flatMap_cons, List.cons_append, List.append_assoc]

/-- There are no more parts than characters. -/
theorem length_lt_listed (level : Nat) (parts : List (List Char)) (rest : List Char) :
    parts.length < (listed level parts ++ rest).length + 1 := by
  induction parts with
  | nil => exact Nat.succ_pos _
  | cons part parts ih =>
    rw [listed, List.flatMap_cons, ← listed]
    simp only [List.length_append, List.length_cons] at ih ⊢
    omega

/-- What comes after a part ends a number. -/
theorem endsNumber_listed (close : Char) (level level' : Nat) (parts : List (List Char))
    (rest : List Char) :
    endsNumber (listed level parts ++ (pad level' ++ close :: rest)) = true := by
  cases parts with
  | nil => rfl
  | cons part parts => rfl

/-- Whatever follows `part`, it is read as something in which `f` sees `y`. -/
def ItemText (item : List Char → Except Stop (Followed α)) (f : α → γ) (part : List Char)
    (y : γ) : Prop :=
  (∃ c cs, part = c :: cs ∧ isGap c = false ∧ c ≠ ']') ∧
    ∀ rest, endsNumber rest = true → ∃ x, item (part ++ rest) = .ok (x, rest) ∧ f x = y

theorem moreItems_more {fuel : Nat} {cs next after middle rest : List Char} {c : Char} {x : α}
    {xs : List α} (hcomma : skipGaps cs = ',' :: next) (hnext : skipGaps next = c :: after)
    (hc : c ≠ ']') (hitem : item (c :: after) = .ok (x, middle))
    (hmore : moreItems item fuel middle = .ok (xs, rest)) :
    moreItems item (fuel + 1) cs = .ok (x :: xs, rest) := by
  rw [moreItems, hcomma]
  simp only [hnext]
  split
  next h => cases h
  next h =>
    cases h
    exact absurd rfl hc
  next => exact bind_eq_ok.mpr ⟨_, hitem, bind_eq_ok.mpr ⟨_, hmore, rfl⟩⟩

variable {f : α → γ} {g : β → γ} {text : β → List Char}

theorem moreItems_text {bs : List β} (h : ∀ b ∈ bs, ItemText item f (text b) (g b))
    (level level' : Nat) (rest : List Char) {fuel : Nat} (hfuel : bs.length < fuel) :
    ∃ xs, moreItems item fuel (listed level (bs.map text) ++ (pad level' ++ ']' :: rest)) =
      .ok (xs, rest) ∧ xs.map f = bs.map g := by
  obtain ⟨fuel, rfl⟩ := Nat.exists_eq_succ_of_ne_zero (Nat.ne_zero_of_lt hfuel)
  induction bs generalizing fuel with
  | nil =>
    have hgaps : skipGaps (listed level ([].map text) ++ (pad level' ++ ']' :: rest)) =
        ']' :: rest := skipGaps_pad rfl level' rest
    refine ⟨[], ?_, rfl⟩
    rw [moreItems, hgaps]
    rfl
  | cons b bs ih =>
    obtain ⟨⟨c, cs, htext, hgap, hclose⟩, hread⟩ := h b List.mem_cons_self
    obtain ⟨fuel, rfl⟩ := Nat.exists_eq_succ_of_ne_zero
      (Nat.ne_zero_of_lt (Nat.lt_of_succ_lt_succ hfuel))
    obtain ⟨x, hx, hfx⟩ :=
      hread _ (endsNumber_listed ']' level level' (bs.map text) rest)
    obtain ⟨xs, hxs, hmap⟩ := ih (fun b' hb' => h b' (List.mem_cons_of_mem _ hb')) fuel
      (Nat.lt_of_succ_lt_succ hfuel)
    have hlisted : listed level ((b :: bs).map text) ++ (pad level' ++ ']' :: rest) =
        ',' :: (pad level ++
          c :: (cs ++ (listed level (bs.map text) ++ (pad level' ++ ']' :: rest)))) := by
      simp only [listed, List.map_cons, List.flatMap_cons, htext, List.cons_append,
        List.append_assoc]
    rw [htext] at hx
    refine ⟨x :: xs, ?_, by rw [List.map_cons, hfx, hmap, List.map_cons]⟩
    rw [hlisted]
    exact moreItems_more (skipGaps_cons_of_not rfl) (skipGaps_pad hgap level _) hclose hx hxs

theorem readItems_text {b : β} {bs : List β}
    (h : ∀ b' ∈ b :: bs, ItemText item f (text b') (g b')) (level level' : Nat)
    (rest : List Char) :
    ∃ xs, readItems item (pad level ++
        (text b ++ (listed level (bs.map text) ++ (pad level' ++ ']' :: rest)))) =
      .ok (xs, rest) ∧ xs.map f = (b :: bs).map g := by
  obtain ⟨⟨c, cs, htext, hgap, hclose⟩, hread⟩ := h b List.mem_cons_self
  obtain ⟨x, hx, hfx⟩ := hread _ (endsNumber_listed ']' level level' (bs.map text) rest)
  obtain ⟨xs, hxs, hmap⟩ := moreItems_text (fun b' hb' => h b' (List.mem_cons_of_mem _ hb'))
    level level' rest (List.length_map text ▸
      length_lt_listed level (bs.map text) (pad level' ++ ']' :: rest))
  refine ⟨x :: xs, ?_, by rw [List.map_cons, hfx, hmap, List.map_cons]⟩
  rw [htext] at hx ⊢
  rw [List.cons_append, readItems, skipGaps_pad hgap]
  split
  next h => cases h
  next h =>
    cases h
    exact absurd rfl hclose
  next => exact bind_eq_ok.mpr ⟨_, hx, bind_eq_ok.mpr ⟨_, hxs, rfl⟩⟩

/-- The text of a member under `name`, whatever follows. -/
def MemberText (item : List Char → Except Stop (Followed α)) (f : α → γ) (part : List Char)
    (y : String × γ) : Prop :=
  ∃ inner, part = '"' :: inner ∧ ∀ rest, endsNumber rest = true →
    ∃ m, readMember item (inner ++ rest) = .ok (m, rest) ∧ (m.1, f m.2) = y

theorem moreMembers_text {g : β → String × γ} {bs : List β}
    (h : ∀ b ∈ bs, MemberText item f (text b) (g b)) (level level' : Nat) (rest : List Char)
    {fuel : Nat} (hfuel : bs.length < fuel) :
    ∃ ms, moreMembers item fuel
        (listed level (bs.map text) ++ (pad level' ++ '\x7d' :: rest)) = .ok (ms, rest) ∧
      (ms.map fun m => (m.1, f m.2)) = bs.map g := by
  obtain ⟨fuel, rfl⟩ := Nat.exists_eq_succ_of_ne_zero (Nat.ne_zero_of_lt hfuel)
  induction bs generalizing fuel with
  | nil =>
    have hgaps : skipGaps (listed level ([].map text) ++ (pad level' ++ '\x7d' :: rest)) =
        '\x7d' :: rest := skipGaps_pad rfl level' rest
    refine ⟨[], ?_, rfl⟩
    rw [moreMembers, hgaps]
    rfl
  | cons b bs ih =>
    obtain ⟨inner, htext, hread⟩ := h b List.mem_cons_self
    obtain ⟨fuel, rfl⟩ := Nat.exists_eq_succ_of_ne_zero
      (Nat.ne_zero_of_lt (Nat.lt_of_succ_lt_succ hfuel))
    obtain ⟨m, hm, hfm⟩ :=
      hread _ (endsNumber_listed '\x7d' level level' (bs.map text) rest)
    obtain ⟨ms, hms, hmap⟩ := ih (fun b' hb' => h b' (List.mem_cons_of_mem _ hb')) fuel
      (Nat.lt_of_succ_lt_succ hfuel)
    have hlisted : listed level ((b :: bs).map text) ++ (pad level' ++ '\x7d' :: rest) =
        ',' :: (pad level ++
          '"' :: (inner ++ (listed level (bs.map text) ++ (pad level' ++ '\x7d' :: rest)))) := by
      simp only [listed, List.map_cons, List.flatMap_cons, htext, List.cons_append,
        List.append_assoc]
    have hquote := skipGaps_pad (rfl : isGap '"' = false) level
      (inner ++ (listed level (bs.map text) ++ (pad level' ++ '\x7d' :: rest)))
    refine ⟨m :: ms, ?_, by rw [List.map_cons, hfm, hmap, List.map_cons]⟩
    rw [hlisted, moreMembers, skipGaps_cons_of_not rfl]
    simp only [hquote]
    exact bind_eq_ok.mpr ⟨_, hm, bind_eq_ok.mpr ⟨_, hms, rfl⟩⟩

theorem readMembers_text {g : β → String × γ} {b : β} {bs : List β}
    (h : ∀ b' ∈ b :: bs, MemberText item f (text b') (g b')) (level level' : Nat)
    (rest : List Char) :
    ∃ ms, readMembers item (pad level ++
        (text b ++ (listed level (bs.map text) ++ (pad level' ++ '\x7d' :: rest)))) =
      .ok (ms, rest) ∧ (ms.map fun m => (m.1, f m.2)) = (b :: bs).map g := by
  obtain ⟨inner, htext, hread⟩ := h b List.mem_cons_self
  obtain ⟨m, hm, hfm⟩ := hread _ (endsNumber_listed '\x7d' level level' (bs.map text) rest)
  obtain ⟨ms, hms, hmap⟩ := moreMembers_text (fun b' hb' => h b' (List.mem_cons_of_mem _ hb'))
    level level' rest (List.length_map text ▸
      length_lt_listed level (bs.map text) (pad level' ++ '\x7d' :: rest))
  refine ⟨m :: ms, ?_, by rw [List.map_cons, hfm, hmap, List.map_cons]⟩
  rw [htext, List.cons_append, readMembers, skipGaps_pad rfl]
  exact bind_eq_ok.mpr ⟨_, hm, bind_eq_ok.mpr ⟨_, hms, rfl⟩⟩

theorem memberText_of_value {part : List Char} {y : γ} (name : String)
    (h : ∀ rest, endsNumber rest = true →
      ∃ x, item (' ' :: (part ++ rest)) = .ok (x, rest) ∧ f x = y) :
    MemberText item f ((quoted name).toList ++ (':' :: ' ' :: part)) (name, y) := by
  refine ⟨name.toList.flatMap escaped ++ '"' :: ':' :: ' ' :: part, ?_, fun rest hrest => ?_⟩
  · rw [quoted_toList]
    simp only [List.cons_append, List.append_assoc, List.nil_append]
  · obtain ⟨x, hx, hfx⟩ := h rest hrest
    refine ⟨(name, x), ?_, by rw [hfx]⟩
    rw [List.append_assoc]
    refine bind_eq_ok.mpr ⟨_, readString_escaped name _, ?_⟩
    exact bind_eq_ok.mpr ⟨_, hx, rfl⟩

end Sequences

/-! ## Texts -/

def prettyChars (level : Nat) (j : Json) : List Char := (prettyAt level j).toList

def memberChars (level : Nat) (m : String × Json) : List Char :=
  (quoted m.1).toList ++ (':' :: ' ' :: prettyChars level m.2)

def lineBreak (level : Nat) : String := "\n" ++ String.ofList (List.replicate (2 * level) ' ')

@[simp] theorem lineBreak_toList (level : Nat) : (lineBreak level).toList = pad level := by
  have hspaces : (String.ofList (List.replicate (2 * level) ' ')).toList =
      List.replicate (2 * level) ' ' := String.toList_ofList
  rw [lineBreak, String.toList_append, hspaces]
  rfl

theorem prettyChars_null (level : Nat) : prettyChars level .null = ['n', 'u', 'l', 'l'] := by
  change "null".toList = _
  rfl

theorem prettyChars_true (level : Nat) : prettyChars level (.bool true) = ['t', 'r', 'u', 'e'] := by
  change "true".toList = _
  rfl

theorem prettyChars_false (level : Nat) :
    prettyChars level (.bool false) = ['f', 'a', 'l', 's', 'e'] := by
  change "false".toList = _
  rfl

theorem prettyChars_number (level : Nat) (n : Number) :
    prettyChars level (.number n) = n.text.toList := rfl

theorem prettyChars_string (level : Nat) (s : String) :
    prettyChars level (.string s) = '"' :: (s.toList.flatMap escaped ++ ['"']) :=
  quoted_toList s

theorem prettyChars_array_nil (level : Nat) : prettyChars level (.array []) = ['[', ']'] := by
  change "[]".toList = _
  rfl

theorem prettyChars_object_nil (level : Nat) :
    prettyChars level (.object []) = ['\x7b', '\x7d'] := by
  change "\x7b\x7d".toList = _
  rfl

theorem prettyAt_ofItems (level : Nat) (j : Json) (js : List Json) :
    (prettyAt.ofItems level (j :: js)).toList =
      pad (level + 1) ++
        (prettyChars (level + 1) j ++ listed (level + 1) (js.map (prettyChars (level + 1)))) := by
  induction js generalizing j with
  | nil =>
    have htext : prettyAt.ofItems level [j] = lineBreak (level + 1) ++ prettyAt (level + 1) j :=
      rfl
    rw [htext, String.toList_append, lineBreak_toList]
    simp only [listed, List.map_nil, List.flatMap_nil, List.append_nil, prettyChars]
  | cons k js ih =>
    have htext : prettyAt.ofItems level (j :: k :: js) =
        lineBreak (level + 1) ++ prettyAt (level + 1) j ++ "," ++
          prettyAt.ofItems level (k :: js) := rfl
    simp only [htext, String.toList_append, lineBreak_toList, ih, List.map_cons, listed_cons,
      List.append_assoc, prettyChars]
    rfl

theorem prettyAt_ofMembers (level : Nat) (m : String × Json) (ms : Members) :
    (prettyAt.ofMembers level (m :: ms)).toList =
      pad (level + 1) ++
        (memberChars (level + 1) m ++ listed (level + 1) (ms.map (memberChars (level + 1)))) := by
  have hcolon : ": ".toList = [':', ' '] := rfl
  induction ms generalizing m with
  | nil =>
    have htext : prettyAt.ofMembers level [m] =
        lineBreak (level + 1) ++ quoted m.1 ++ ": " ++ prettyAt (level + 1) m.2 := rfl
    simp only [htext, String.toList_append, lineBreak_toList, hcolon, listed, List.map_nil,
      List.flatMap_nil, List.append_nil, List.append_assoc, memberChars, prettyChars,
      List.cons_append, List.nil_append]
  | cons n ms ih =>
    have htext : prettyAt.ofMembers level (m :: n :: ms) =
        lineBreak (level + 1) ++ quoted m.1 ++ ": " ++ prettyAt (level + 1) m.2 ++ "," ++
          prettyAt.ofMembers level (n :: ms) := rfl
    simp only [htext, String.toList_append, lineBreak_toList, hcolon, ih, List.map_cons,
      listed_cons, List.append_assoc, memberChars, prettyChars, List.cons_append, List.nil_append]
    rfl

theorem prettyChars_array (level : Nat) (j : Json) (js : List Json) :
    prettyChars level (.array (j :: js)) =
      '[' :: (pad (level + 1) ++ (prettyChars (level + 1) j ++
        (listed (level + 1) (js.map (prettyChars (level + 1))) ++ (pad level ++ [']'])))) := by
  have htext : prettyAt level (.array (j :: js)) =
      "[" ++ prettyAt.ofItems level (j :: js) ++ lineBreak level ++ "]" := rfl
  simp only [prettyChars, htext, String.toList_append, prettyAt_ofItems, lineBreak_toList,
    List.append_assoc]
  rfl

theorem prettyChars_object (level : Nat) (m : String × Json) (ms : Members) :
    prettyChars level (.object (m :: ms)) =
      '\x7b' :: (pad (level + 1) ++ (memberChars (level + 1) m ++
        (listed (level + 1) (ms.map (memberChars (level + 1))) ++ (pad level ++ ['\x7d'])))) := by
  have htext : prettyAt level (.object (m :: ms)) =
      "\x7b" ++ prettyAt.ofMembers level (m :: ms) ++ lineBreak level ++ "\x7d" := rfl
  simp only [prettyChars, htext, String.toList_append, prettyAt_ofMembers, lineBreak_toList,
    List.append_assoc]
  rfl

/-! ## Values -/

/-- A number is in its range, and an object has no name twice. -/
def Proper (j : Json) : Prop := (∀ n, j = .number n → Fits n) ∧ Distinct j

/-- What can be written down and read again: all values in it are proper. -/
def Legible (j : Json) : Prop := j.Throughout Proper

theorem legible_array {items : List Json} : (array items).Legible ↔ ∀ i ∈ items, i.Legible := by
  rw [Legible, throughout_array, and_iff_right]
  · rfl
  · exact ⟨nofun, nofun⟩

theorem legible_object {members : Members} :
    (object members).Legible ↔
      (members.map (·.1)).Nodup ∧ ∀ m ∈ members, m.2.Legible := by
  rw [Legible, throughout_object]
  refine and_congr_left' ⟨fun h => h.2 members rfl, fun h => ⟨nofun, ?_⟩⟩
  rintro _ ⟨⟩
  exact h

theorem legible_null : null.Legible := ⟨nofun, nofun⟩

theorem legible_bool (b : Bool) : (bool b).Legible := ⟨nofun, nofun⟩

theorem legible_string (s : String) : (string s).Legible := ⟨nofun, nofun⟩

/-- What is left of a value once its places and its floating point numbers are forgotten. -/
def seen (v : Located) : Json := v.toJson.blurred

theorem ne_of_isDigit {c d : Char} (h : c.isDigit = true) (hd : d.isDigit = false) : c ≠ d := by
  rintro rfl
  rw [h] at hd
  cases hd

theorem isGap_of_isDigit {c : Char} (h : c.isDigit = true) : isGap c = false := by
  simp only [isGap, ne_of_isDigit h (show ' '.isDigit = false from rfl),
    ne_of_isDigit h (show '\t'.isDigit = false from rfl),
    ne_of_isDigit h (show '\n'.isDigit = false from rfl),
    ne_of_isDigit h (show '\r'.isDigit = false from rfl), decide_false, Bool.or_self]

theorem itemText_unsigned (depth : Nat) {negative : Bool} {cs : List Char} {y : Json}
    (h : ∀ rest, endsNumber rest = true →
      ∃ n, readNumber negative (cs ++ rest) = .ok (n, rest) ∧ (Json.number n).blurred = y) :
    ItemText (readValue depth) seen (unsigned negative cs) y := by
  obtain ⟨n, hn, -⟩ := h [] rfl
  obtain ⟨c, cs', hcs, hc, -⟩ := readNumber_word hn
  rw [List.append_nil] at hcs
  subst hcs
  cases negative with
  | true =>
    refine ⟨⟨'-', _, rfl, rfl, by decide⟩, fun rest hrest => ?_⟩
    obtain ⟨n, hn, hy⟩ := h rest hrest
    refine ⟨.scalar ('-' :: (c :: cs' ++ rest)) (.number n), ?_, hy⟩
    rw [readValue.eq_def]
    exact bind_eq_ok.mpr ⟨_, hn, rfl⟩
  | false =>
    refine ⟨⟨c, cs', rfl, isGap_of_isDigit hc, ne_of_isDigit hc rfl⟩, fun rest hrest => ?_⟩
    obtain ⟨n, hn, hy⟩ := h rest hrest
    have hstart : skipGaps (c :: cs' ++ rest) = c :: (cs' ++ rest) :=
      skipGaps_cons_of_not (isGap_of_isDigit hc)
    refine ⟨.scalar (c :: (cs' ++ rest)) (.number n), ?_, hy⟩
    rw [List.cons_append] at hn
    simp only [unsigned, Bool.false_eq_true, if_false]
    rw [readValue.eq_def]
    simp only [hstart]
    split
    case h_9 heq =>
      obtain ⟨rfl, rfl⟩ := List.cons.inj heq
      rw [if_pos hc]
      exact bind_eq_ok.mpr ⟨_, hn, rfl⟩
    all_goals
      rename_i heq
      cases heq
    all_goals exact absurd hc (by decide)

theorem itemText_number (depth : Nat) {n : Number} (h : Fits n) :
    ItemText (readValue depth) seen n.text.toList (Json.number n).blurred := by
  cases n with
  | int i =>
    rw [text_int]
    exact itemText_unsigned depth fun rest hrest => ⟨_, readNumber_int h hrest, rfl⟩
  | float x =>
    obtain ⟨negative, cs, htext, hread⟩ := readNumber_float h
    rw [htext]
    refine itemText_unsigned depth fun rest hrest => ?_
    obtain ⟨y, hy⟩ := hread hrest
    exact ⟨_, hy, rfl⟩

theorem readLiteral_append (ls rest : List Char) : readLiteral ls (ls ++ rest) = .ok rest := by
  induction ls with
  | nil => rfl
  | cons l ls ih => rw [List.cons_append, readLiteral, if_pos rfl, ih]

theorem itemText_scalar {depth : Nat} {c : Char} {cs : List Char} {j : Json}
    (hgap : isGap c = false) (hc : c ≠ ']')
    (h : ∀ rest, readValue depth (c :: (cs ++ rest)) =
      .ok (.scalar (c :: (cs ++ rest)) j, rest)) :
    ItemText (readValue depth) seen (c :: cs) j.blurred :=
  ⟨⟨c, cs, rfl, hgap, hc⟩, fun rest _ => ⟨_, h rest, rfl⟩⟩

theorem itemText_array {depth : Nat} {cs : List Char} {ys : List Json}
    (h : ∀ rest, ∃ xs, readItems (readValue depth) (cs ++ rest) = .ok (xs, rest) ∧
      xs.map seen = ys) :
    ItemText (readValue (depth + 1)) seen ('[' :: cs) (.array ys) := by
  refine ⟨⟨'[', cs, rfl, rfl, by decide⟩, fun rest _ => ?_⟩
  obtain ⟨xs, hxs, hmap⟩ := h rest
  refine ⟨.array ('[' :: (cs ++ rest)) xs, ?_, ?_⟩
  · rw [readValue.eq_def]
    exact bind_eq_ok.mpr ⟨_, hxs, rfl⟩
  · rw [seen, Located.toJson, Located.toJson_ofItems, blurred_array, List.map_map, ← hmap]
    rfl

theorem itemText_object {depth : Nat} {cs : List Char} {ys : Members}
    (hnames : (ys.map (·.1)).Nodup)
    (h : ∀ rest, ∃ ms, readMembers (readValue depth) (cs ++ rest) = .ok (ms, rest) ∧
      (ms.map fun m => (m.1, seen m.2)) = ys) :
    ItemText (readValue (depth + 1)) seen ('\x7b' :: cs) (.object ys) := by
  refine ⟨⟨'\x7b', cs, rfl, rfl, by decide⟩, fun rest _ => ?_⟩
  obtain ⟨ms, hms, hmap⟩ := h rest
  refine ⟨.object ('\x7b' :: (cs ++ rest)) ms, ?_, ?_⟩
  · rw [readValue.eq_def]
    exact bind_eq_ok.mpr ⟨_, hms, rfl⟩
  · have hread : ((ms.map fun m => (m.1, m.2.toJson)).map (·.1)).Nodup := by
      rw [← hmap] at hnames
      rw [List.map_map] at hnames ⊢
      exact hnames
    rw [seen, Located.toJson, Located.toJson_ofMembers, Members.ofWritten_eq_self hread,
      blurred_object, List.map_map, ← hmap]
    rfl

theorem itemText_word {depth : Nat} {c : Char} {ls : List Char} {j : Json}
    (hgap : isGap c = false) (hc : c ≠ ']')
    (h : ∀ rest, readValue depth (c :: (ls ++ rest)) =
      (do return (.scalar (c :: (ls ++ rest)) j, ← readLiteral ls (ls ++ rest)))) :
    ItemText (readValue depth) seen (c :: ls) j.blurred :=
  itemText_scalar hgap hc fun rest =>
    (h rest).trans (bind_eq_ok.mpr ⟨_, readLiteral_append ls rest, rfl⟩)

/-- Values without parts. -/
theorem itemText_flat (depth : Nat) {j : Json} (hj : j.Legible) (hflat : j.depth = 0)
    (level : Nat) : ItemText (readValue depth) seen (prettyChars level j) j.blurred := by
  cases j with
  | null =>
    rw [prettyChars_null]
    refine itemText_word rfl (by decide) fun rest => ?_
    rw [readValue.eq_def]
    rfl
  | bool b =>
    cases b with
    | true =>
      rw [prettyChars_true]
      refine itemText_word rfl (by decide) fun rest => ?_
      rw [readValue.eq_def]
      rfl
    | false =>
      rw [prettyChars_false]
      refine itemText_word rfl (by decide) fun rest => ?_
      rw [readValue.eq_def]
      rfl
  | number n =>
    rw [prettyChars_number]
    exact itemText_number depth (hj.1 n rfl)
  | string s =>
    rw [prettyChars_string]
    refine itemText_scalar rfl (by decide) fun rest => ?_
    rw [readValue.eq_def]
    refine bind_eq_ok.mpr ⟨(s, rest), ?_, rfl⟩
    rw [List.append_assoc]
    exact readString_escaped s rest
  | array items => exact absurd hflat (Nat.succ_ne_zero _)
  | object members => exact absurd hflat (Nat.succ_ne_zero _)

theorem itemText_items {depth level : Nat} {items : List Json}
    (h : ∀ i ∈ items,
      ItemText (readValue depth) seen (prettyChars (level + 1) i) i.blurred) :
    ItemText (readValue (depth + 1)) seen (prettyChars level (.array items))
      (Json.array items).blurred := by
  rw [blurred_array]
  cases items with
  | nil =>
    rw [prettyChars_array_nil]
    exact itemText_array fun rest => ⟨[], rfl, rfl⟩
  | cons i items =>
    rw [prettyChars_array]
    refine itemText_array fun rest => ?_
    simp only [List.append_assoc]
    exact readItems_text h (level + 1) level rest

theorem memberText_pretty {depth level : Nat} {m : String × Json}
    (h : ItemText (readValue depth) seen (prettyChars level m.2) m.2.blurred) :
    MemberText (readValue depth) seen (memberChars level m) (m.1, m.2.blurred) := by
  refine memberText_of_value m.1 fun rest hrest => ?_
  obtain ⟨v, hv, hseen⟩ := h.2 rest hrest
  have hgap : skipGaps (' ' :: (prettyChars level m.2 ++ rest)) =
      skipGaps (prettyChars level m.2 ++ rest) := rfl
  refine ⟨v, ?_, hseen⟩
  rw [← readValue_skipGaps, hgap, readValue_skipGaps, hv]

theorem itemText_members {depth level : Nat} {members : Members}
    (hnames : (members.map (·.1)).Nodup)
    (h : ∀ m ∈ members,
      ItemText (readValue depth) seen (prettyChars (level + 1) m.2) m.2.blurred) :
    ItemText (readValue (depth + 1)) seen (prettyChars level (.object members))
      (Json.object members).blurred := by
  have hblurred : ((members.map fun m => (m.1, m.2.blurred)).map (·.1)).Nodup := by
    rwa [List.map_map]
  rw [blurred_object]
  cases members with
  | nil =>
    rw [prettyChars_object_nil]
    exact itemText_object List.nodup_nil fun rest => ⟨[], rfl, rfl⟩
  | cons m members =>
    rw [prettyChars_object]
    refine itemText_object hblurred fun rest => ?_
    simp only [List.append_assoc]
    exact readMembers_text (fun m hm => memberText_pretty (h m hm)) (level + 1) level rest

/-- The pretty text of a value is read as this value, where it is not nested too deep. -/
theorem itemText_pretty {depth : Nat} {j : Json} (hj : j.Legible)
    (hdepth : j.depth ≤ depth) (level : Nat) :
    ItemText (readValue depth) seen (prettyChars level j) j.blurred := by
  induction depth generalizing j level with
  | zero => exact itemText_flat 0 hj (Nat.le_zero.mp hdepth) level
  | succ depth ih =>
    cases j with
    | array items =>
      refine itemText_items fun i hi => ih (legible_array.mp hj i hi) ?_ _
      exact Nat.le_of_lt_succ (Nat.lt_of_lt_of_le (depth_lt_of_item hi) hdepth)
    | object members =>
      obtain ⟨hnames, hmembers⟩ := legible_object.mp hj
      refine itemText_members hnames fun m hm => ih (hmembers m hm) ?_ _
      exact Nat.le_of_lt_succ (Nat.lt_of_lt_of_le (depth_lt_of_member hm) hdepth)
    | _ => exact itemText_flat _ hj rfl level

/-! ## What is read -/

/-- What is read without parts is a number in its range, or no number, and has no parts. -/
theorem scalar_of_readValue {depth : Nat} {cs rest start : List Char} {j : Json}
    (h : readValue depth cs = .ok (.scalar start j, rest)) :
    (∀ n, j = .number n → Fits n) ∧ j.depth = 0 := by
  have hplain {k : Json} {r : Except Stop (List Char)} (hk : k.depth = 0)
      (hnumber : ∀ n, k ≠ .number n)
      (h : (do return (.scalar (skipGaps cs) k, ← r)) = Except.ok (Located.scalar start j, rest)) :
      (∀ n, j = .number n → Fits n) ∧ j.depth = 0 := by
    obtain ⟨r, -, hp⟩ := bind_eq_ok.mp h
    cases hp
    exact ⟨fun n hn => absurd hn (hnumber n), hk⟩
  rw [readValue.eq_def] at h
  simp only at h
  split at h
  · cases h
  · exact hplain (k := .null) rfl (fun _ => Json.noConfusion) h
  · exact hplain (k := .bool true) rfl (fun _ => Json.noConfusion) h
  · exact hplain (k := .bool false) rfl (fun _ => Json.noConfusion) h
  · obtain ⟨⟨s, rest'⟩, -, hp⟩ := bind_eq_ok.mp h
    cases hp
    exact ⟨fun _ => Json.noConfusion, rfl⟩
  · obtain ⟨⟨n, rest'⟩, hn, hp⟩ := bind_eq_ok.mp h
    cases hp
    exact ⟨fun n' hn' => by cases hn'; exact readNumber_fits hn, rfl⟩
  · split at h
    · cases h
    · obtain ⟨_, -, hp⟩ := bind_eq_ok.mp h
      cases hp
  · split at h
    · cases h
    · obtain ⟨_, -, hp⟩ := bind_eq_ok.mp h
      cases hp
  · split at h
    · obtain ⟨⟨n, rest'⟩, hn, hp⟩ := bind_eq_ok.mp h
      cases hp
      exact ⟨fun n' hn' => by cases hn'; exact readNumber_fits hn, rfl⟩
    · cases h

theorem depth_array_le {items : List Json} {n : Nat} (h : ∀ i ∈ items, i.depth ≤ n) :
    (array items).depth ≤ n + 1 := by
  rw [depth, Nat.succ_le_succ_iff]
  induction items with
  | nil => exact Nat.zero_le n
  | cons i items ih =>
    rw [depth.ofItems]
    rw [List.forall_mem_cons] at h
    exact Nat.max_le.mpr ⟨h.1, ih h.2⟩

theorem depth_object_le {members : Members} {n : Nat} (h : ∀ m ∈ members, m.2.depth ≤ n) :
    (object members).depth ≤ n + 1 := by
  rw [depth, Nat.succ_le_succ_iff]
  induction members with
  | nil => exact Nat.zero_le n
  | cons m members ih =>
    rw [depth.ofMembers]
    rw [List.forall_mem_cons] at h
    exact Nat.max_le.mpr ⟨h.1, ih h.2⟩

/-- What is read is not nested deeper than may be read. -/
theorem depth_of_readValue {depth : Nat} {cs rest : List Char} {v : Located}
    (h : readValue depth cs = .ok (v, rest)) : v.toJson.depth ≤ depth := by
  refine readValue_induction (Q := fun depth l => l.toJson.depth ≤ depth) cs.length ?_ ?_ ?_
    (Nat.le_refl _) h
  · intro depth start j ⟨_, _, hj⟩ _
    exact Nat.le_trans (Nat.le_of_eq (scalar_of_readValue hj).2) (Nat.zero_le depth)
  · intro depth start items _ ih
    rw [Located.toJson, Located.toJson_ofItems]
    exact depth_array_le (List.forall_mem_map.mpr ih)
  · intro depth start members ih
    rw [Located.toJson, Located.toJson_ofMembers]
    refine depth_object_le fun m hm => ?_
    obtain ⟨m, hmem, rfl⟩ := List.mem_map.mp (Members.mem_of_mem_ofWritten hm)
    exact ih m hmem

/-- Whatever is read can be written. -/
theorem legible_of_read {text : String} {j : Json} (h : read text = .ok j) :
    j.Legible := by
  obtain ⟨doc, rest, -, hdoc, rfl⟩ := readValue_of_read h
  refine readValue_induction (Q := fun _ l => l.toJson.Legible) text.toList.length
    ?_ ?_ ?_ (Nat.le_refl _) hdoc
  · intro depth start j ⟨_, _, hread⟩ hj
    obtain ⟨hfits, hflat⟩ := scalar_of_readValue hread
    refine throughout_of_scalar hj ⟨hfits, ?_⟩
    rintro members rfl
    exact absurd hflat (Nat.succ_ne_zero _)
  · intro _ start items _ ih
    rw [Located.toJson, Located.toJson_ofItems, legible_array, List.forall_mem_map]
    exact ih
  · intro _ start members ih
    rw [Located.toJson, Located.toJson_ofMembers, legible_object]
    refine ⟨Members.nodup_ofWritten _, fun m hm => ?_⟩
    obtain ⟨m, hmem, rfl⟩ := List.mem_map.mp (Members.mem_of_mem_ofWritten hm)
    exact ih m hmem

/-! ## Whole texts -/

section Whole

variable {j : Json} {ending : String}

theorem endsNumber_of_gaps {rest : List Char} (h : ∀ c ∈ rest, isGap c) :
    endsNumber rest = true := by
  cases rest with
  | nil => rfl
  | cons c rest =>
    have hc := h c List.mem_cons_self
    simp only [isGap, Bool.or_eq_true, decide_eq_true_eq] at hc
    rcases hc with ((rfl | rfl) | rfl) | rfl <;> rfl

/-- The pretty text of a value and gaps after it, where there is room enough. -/
theorem readValue_pretty (hj : j.Legible) {depth : Nat} (hdepth : j.depth ≤ depth)
    (hending : ∀ c ∈ ending.toList, isGap c) :
    ∃ v, readValue depth (j.pretty ++ ending).toList = .ok (v, ending.toList) ∧
      v.toJson.blurred = j.blurred := by
  rw [String.toList_append]
  exact (itemText_pretty hj hdepth 0).2 _ (endsNumber_of_gaps hending)

/-- A value that is not nested too deep comes back from its pretty text. -/
theorem read_pretty (hj : j.Legible) (hdepth : j.depth ≤ maxDepth)
    (hending : ∀ c ∈ ending.toList, isGap c) :
    ∃ k, read (j.pretty ++ ending) = .ok k ∧ k.blurred = j.blurred := by
  obtain ⟨v, hv, hseen⟩ := readValue_pretty hj hdepth hending
  have hgaps : skipGaps ending.toList = [] := List.dropWhile_eq_nil_iff.mpr hending
  have hwhole : readWhole maxDepth (j.pretty ++ ending).toList = .ok v :=
    bind_eq_ok.mpr ⟨(v, ending.toList), hv, by simp only [hgaps]; rfl⟩
  refine ⟨v.toJson, read_of_readLocated ?_, hseen⟩
  rw [readLocated, hwhole]
  rfl

/-- A pretty text is refused if the value is nested too deep. -/
theorem depth_of_read_pretty {k : Json} (hj : j.Legible)
    (hending : ∀ c ∈ ending.toList, isGap c) (h : read (j.pretty ++ ending) = .ok k) :
    j.depth ≤ maxDepth := by
  obtain ⟨doc, rest, -, hdoc, -⟩ := readValue_of_read h
  -- With room enough the text is read as `j`, and room makes no difference where there was enough.
  obtain ⟨v, hv, hseen⟩ := readValue_pretty hj (Nat.le_max_left j.depth maxDepth) hending
  obtain rfl : doc = v := by
    have hsame := (readValue_mono hdoc (Nat.le_max_right j.depth maxDepth)).symm.trans hv
    cases hsame
    rfl
  have hdeep := depth_of_readValue hdoc
  rwa [← depth_blurred, hseen, depth_blurred] at hdeep

end Whole

end DeliveryRules.Json
