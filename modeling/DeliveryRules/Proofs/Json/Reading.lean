import DeliveryRules.Json.Reader
import DeliveryRules.Pointer.Basic
import DeliveryRules.Proofs.Except

/-!
# What the reader of JSON texts accepts

The reader is a program over the characters to come; here is what a text looks like from which it
took something. A proof about read texts uses these shapes and never unfolds the reader.

* `Word`: a run of letters, digits, signs and points, as in a literal or a number
  (`readLiteral_word`, `readNumber_word`).
* `Listed`, `Enclosed`: the parts of an array or object up to its closing character
  (`readItems_enclosed`, `readMembers_enclosed`).
* `ValueAt`: the four shapes of a value (`readValue_valueAt`).
* `readValue_length_lt`: reading takes at least one character.
* `readValue_mono`: more room for nesting changes nothing in what is read.
-/

namespace DeliveryRules.Json

/-! ## Steps that may stop -/

@[simp] theorem stopAt_ne_ok {α : Type} {fault : Fault} {cs : List Char} {a : α} :
    stopAt fault cs ≠ .ok a := by
  simp [stopAt]

@[simp] theorem stopAtEnd_ne_ok {α : Type} {fault : Fault} {a : α} :
    (stopAtEnd fault : Except Stop α) ≠ .ok a := by
  simp [stopAtEnd]

/-! ## Gaps -/

theorem skipGaps_suffix (cs : List Char) : skipGaps cs <:+ cs := List.dropWhile_suffix _

theorem skipGaps_length_le (cs : List Char) : (skipGaps cs).length ≤ cs.length :=
  (skipGaps_suffix cs).length_le

theorem skipGaps_cons_of_not {c : Char} {cs : List Char} (h : isGap c = false) :
    skipGaps (c :: cs) = c :: cs := by
  simp [skipGaps, h]

/-- What comes after the gaps is no gap. -/
theorem isGap_of_skipGaps {c : Char} {cs rest : List Char} (h : skipGaps cs = c :: rest) :
    isGap c = false := by
  have := List.head?_dropWhile_not isGap cs
  rw [show cs.dropWhile isGap = c :: rest from h] at this
  simpa using this

@[simp] theorem skipGaps_skipGaps (cs : List Char) : skipGaps (skipGaps cs) = skipGaps cs := by
  cases h : skipGaps cs with
  | nil => rfl
  | cons c rest => exact skipGaps_cons_of_not (isGap_of_skipGaps h)

theorem length_lt_of_skipGaps {c : Char} {cs rest : List Char} (h : skipGaps cs = c :: rest) :
    rest.length < cs.length := by
  have := skipGaps_length_le cs
  rw [h, List.length_cons] at this
  omega

/-! ## Words -/

/-- The characters of literals and numbers. -/
def isWordChar (c : Char) : Bool :=
  c.isAlphanum || c = '+' || c = '-' || c = '.'

/-- `rest` follows a run of word characters. -/
inductive Word : List Char → List Char → Prop where
  | done {cs : List Char} : Word cs cs
  | more {c : Char} {cs rest : List Char} : isWordChar c = true → Word cs rest →
      Word (c :: cs) rest

theorem Word.trans {cs mid rest : List Char} (h : Word cs mid) (h' : Word mid rest) :
    Word cs rest := by
  induction h with
  | done => exact h'
  | more hc _ ih => exact .more hc (ih h')

theorem Word.length_le {cs rest : List Char} (h : Word cs rest) : rest.length ≤ cs.length := by
  induction h with
  | done => exact Nat.le_refl _
  | more _ _ ih => exact Nat.le_succ_of_le ih

theorem isWordChar_of_isDigit {c : Char} (h : c.isDigit = true) : isWordChar c = true := by
  simp [isWordChar, Char.isAlphanum, h]

theorem word_dropWhile_isDigit (cs : List Char) : Word cs (cs.dropWhile Char.isDigit) := by
  induction cs with
  | nil => exact .done
  | cons c cs ih =>
    by_cases h : c.isDigit = true
    · rw [List.dropWhile_cons_of_pos h]
      exact .more (isWordChar_of_isDigit h) ih
    · rw [List.dropWhile_cons_of_neg h]
      exact .done

theorem readLiteral_word {ls cs rest : List Char} (hl : ls.all isWordChar)
    (h : readLiteral ls cs = .ok rest) : Word cs rest := by
  induction ls generalizing cs with
  | nil => cases h; exact .done
  | cons l ls ih =>
    cases cs with
    | nil => simp [readLiteral] at h
    | cons c cs =>
      simp only [readLiteral] at h
      split at h
      · rename_i hc
        subst hc
        rw [List.all_cons, Bool.and_eq_true] at hl
        exact .more hl.1 (ih hl.2 h)
      · simp at h

theorem gather_word (limit significand count : Nat) (cs : List Char) :
    Word cs (gather limit significand count cs).2 := by
  induction cs generalizing significand count with
  | nil => exact .done
  | cons c cs ih =>
    simp only [gather]
    split
    · rename_i h
      simp only [Bool.and_eq_true] at h
      exact .more (isWordChar_of_isDigit h.1) (ih _ _)
    · exact .done

theorem floatOf_rest {negative : Bool} {parts : Parts} {cs rest : List Char} {n : Number}
    (h : floatOf negative parts cs = .ok (n, rest)) : rest = cs := by
  simp only [floatOf] at h
  split at h
  · cases h; rfl
  · cases h

theorem exponentSign_word (cs : List Char) : Word cs (exponentSign cs).2 := by
  unfold exponentSign
  split
  · exact .more (by decide) .done
  · exact .more (by decide) .done
  · exact .done

theorem readExponentDigits_word {negative down : Bool} {parts : Parts} {cs rest : List Char}
    {n : Number} (h : readExponentDigits negative parts down cs = .ok (n, rest)) :
    Word cs rest := by
  have hg := gather_word maxExponent 0 0 cs
  unfold readExponentDigits at h
  split at h
  · simp at h
  · simp only at h
    split at h
    · split at h
      · split at h
        · cases h
        · simp only [Except.ok.injEq, Prod.mk.injEq] at h
          rw [← h.2]
          exact hg.trans (word_dropWhile_isDigit _)
      · rw [floatOf_rest h]
        exact hg
    · simp at h

theorem readExponent_word {negative : Bool} {parts : Parts} {cs rest : List Char} {n : Number}
    (h : readExponent negative parts cs = .ok (n, rest)) : Word cs rest :=
  (exponentSign_word cs).trans (readExponentDigits_word h)

theorem readFraction_word {negative : Bool} {parts : Parts} {cs rest : List Char} {n : Number}
    (h : readFraction negative parts cs = .ok (n, rest)) : Word cs rest := by
  have hg := gather_word maxSignificand parts.significand 0 cs
  have hd := hg.trans (word_dropWhile_isDigit _)
  unfold readFraction at h
  simp only at h
  split at h
  · split at h <;> simp at h
  · split at h
    · rename_i r hr
      rw [hr] at hd
      exact hd.trans (.more (by decide) (readExponent_word h))
    · rename_i r hr
      rw [hr] at hd
      exact hd.trans (.more (by decide) (readExponent_word h))
    · rw [floatOf_rest h]
      exact hd

theorem readTail_word {negative : Bool} {parts : Parts} {whole n : Number}
    {cs rest : List Char} (h : readTail negative parts whole cs = .ok (n, rest)) :
    Word cs rest := by
  unfold readTail at h
  split at h
  · exact .more (by decide) (readFraction_word h)
  · exact .more (by decide) (readExponent_word h)
  · exact .more (by decide) (readExponent_word h)
  · cases h; exact .done

theorem digitValue_le {c : Char} (h : c.isDigit = true) : digitValue c ≤ 9 := by
  simp only [Char.isDigit, Bool.and_eq_true, decide_eq_true_eq, ge_iff_le,
    UInt32.le_iff_toNat_le] at h
  have : c.toNat = c.val.toNat := rfl
  have : '9'.val.toNat = 57 := rfl
  have : '0'.toNat = 48 := rfl
  simp only [digitValue]
  omega

/-- A first digit is always gathered. -/
theorem gather_cons {c : Char} {cs : List Char} (h : c.isDigit = true) :
    gather maxSignificand 0 0 (c :: cs) = gather maxSignificand (digitValue c) 1 cs := by
  have hle : digitValue c ≤ maxSignificand :=
    Nat.le_trans (digitValue_le h) (by decide)
  simp [gather, h, hle]

/-- A number is a word of at least one character. -/
theorem readNumber_word {negative : Bool} {cs rest : List Char} {n : Number}
    (h : readNumber negative cs = .ok (n, rest)) :
    ∃ c r, cs = c :: r ∧ c.isDigit = true ∧ Word r rest := by
  unfold readNumber at h
  split at h
  · simp at h
  · split at h
    · simp at h
    · exact ⟨_, _, rfl, by decide, readTail_word h⟩
  · rename_i c r hne
    split at h
    · rename_i hc
      refine ⟨c, r, rfl, hc, ?_⟩
      rw [gather_cons hc] at h
      have hg := gather_word maxSignificand (digitValue c) 1 r
      have hd := hg.trans (word_dropWhile_isDigit _)
      simp only at h
      split at h
      · split at h
        · rename_i r' hr
          rw [hr] at hd
          exact hd.trans (.more (by decide) (readFraction_word h))
        · rename_i r' hr
          rw [hr] at hd
          exact hd.trans (.more (by decide) (readExponent_word h))
        · rename_i r' hr
          rw [hr] at hd
          exact hd.trans (.more (by decide) (readExponent_word h))
        · rw [floatOf_rest h]
          exact hd
      · exact hg.trans (readTail_word h)
    · simp at h

/-! ## Strings -/

/-- `cs` spells the characters `ds`, up to a closing quote that `after` follows. -/
inductive Spelled : List Char → List Char → List Char → Prop where
  | close {after : List Char} : Spelled ('"' :: after) [] after
  | escape {rest ds after : List Char} {d : Char} {r : Shorter rest} :
      readEscape rest = .ok (d, r) → Spelled r.1 ds after → Spelled ('\\' :: rest) (d :: ds) after
  | plain {c : Char} {rest ds after : List Char} : c ≠ '"' → c ≠ '\\' → Spelled rest ds after →
      Spelled (c :: rest) (c :: ds) after

theorem readChars_spelled {cs ds after : List Char} (h : readChars cs = .ok (ds, after)) :
    Spelled cs ds after := by
  fun_induction readChars cs generalizing ds after with
  | case1 => simp at h
  | case2 => cases h; exact .close
  | case3 => cases h
  | case4 => cases h
  | case5 rest d rest' hlt he ds' after' hr _ ih => cases h; exact .escape he (ih hr)
  | case6 => simp at h
  | case7 => cases h
  | case8 c rest hq hb _ ds' after' hr ih => cases h; exact .plain hq hb (ih hr)

theorem Spelled.length_lt {cs ds after : List Char} (h : Spelled cs ds after) :
    after.length < cs.length := by
  induction h with
  | close => exact Nat.lt_succ_self _
  | @escape _ _ _ _ r _ _ ih =>
    have := r.2
    simp only [List.length_cons]
    omega
  | plain _ _ _ ih => exact Nat.lt_succ_of_lt ih

theorem readString_spelled {cs rest : List Char} {s : String}
    (h : readString cs = .ok (s, rest)) :
    ∃ chars, Spelled cs chars rest ∧ s = String.ofList chars := by
  obtain ⟨⟨chars, rest'⟩, hc, hp⟩ := bind_eq_ok.mp h
  cases hp
  exact ⟨chars, readChars_spelled hc, rfl⟩

/-! ## Arrays and objects -/

section Sequences

variable {α β : Type}

/-- The parts from `cs` on, a comma before each, up to `close`, which `rest` follows. What one part
looks like is `part`. -/
inductive Listed (part : List Char → β → List Char → Prop) (close : Char) :
    List Char → List β → List Char → Prop where
  | done {cs rest : List Char} : skipGaps cs = close :: rest → Listed part close cs [] rest
  | more {cs next after rest : List Char} {x : β} {xs : List β} : skipGaps cs = ',' :: next →
      part next x after → Listed part close after xs rest → Listed part close cs (x :: xs) rest

/-- The parts from `cs` on up to `close`, which `rest` follows. No comma stands before the first. -/
inductive Enclosed (part : List Char → β → List Char → Prop) (close : Char) :
    List Char → List β → List Char → Prop where
  | nothing {cs rest : List Char} : skipGaps cs = close :: rest → Enclosed part close cs [] rest
  | something {cs after rest : List Char} {x : β} {xs : List β} :
      (∀ r, skipGaps cs ≠ close :: r) → part cs x after → Listed part close after xs rest →
      Enclosed part close cs (x :: xs) rest

/-- An item of an array. -/
def ItemAt (item : List Char → Except Stop (Followed α)) (cs : List Char) (x : α)
    (rest : List Char) : Prop :=
  item (skipGaps cs) = .ok (x, rest)

/-- A member of an object: a name in quotes, a colon, a value. -/
inductive MemberAt (item : List Char → Except Stop (Followed α)) :
    List Char → String × α → List Char → Prop where
  | mk {cs inner chars after value rest : List Char} {x : α} : skipGaps cs = '"' :: inner →
      Spelled inner chars after → skipGaps after = ':' :: value → item value = .ok (x, rest) →
      MemberAt item cs (String.ofList chars, x) rest

variable {item : List Char → Except Stop (Followed α)}

theorem moreItems_listed {fuel : Nat} {cs rest : List Char} {xs : List α}
    (h : moreItems item fuel cs = .ok (xs, rest)) : Listed (ItemAt item) ']' cs xs rest := by
  induction fuel generalizing cs xs rest with
  | zero => simp [moreItems] at h
  | succ fuel ih =>
    unfold moreItems at h
    split at h
    · simp at h
    · rename_i hs
      cases h
      exact .done hs
    · rename_i next hs
      split at h
      · simp at h
      · simp at h
      · obtain ⟨⟨x, after⟩, hx, h⟩ := bind_eq_ok.mp h
        obtain ⟨⟨xs', rest'⟩, hm, h⟩ := bind_eq_ok.mp h
        cases h
        exact .more hs hx (ih hm)
    · simp at h

theorem readItems_enclosed {cs rest : List Char} {xs : List α}
    (h : readItems item cs = .ok (xs, rest)) : Enclosed (ItemAt item) ']' cs xs rest := by
  unfold readItems at h
  split at h
  · simp at h
  · rename_i hs
    cases h
    exact .nothing hs
  · rename_i hne
    obtain ⟨⟨x, after⟩, hx, h⟩ := bind_eq_ok.mp h
    obtain ⟨⟨xs', rest'⟩, hm, h⟩ := bind_eq_ok.mp h
    cases h
    exact .something hne hx (moreItems_listed hm)

theorem readMember_memberAt {cs inner rest : List Char} {m : String × α}
    (hs : skipGaps cs = '"' :: inner) (h : readMember item inner = .ok (m, rest)) :
    MemberAt item cs m rest := by
  obtain ⟨⟨name, after⟩, hn, h⟩ := bind_eq_ok.mp h
  obtain ⟨chars, hc, rfl⟩ := readString_spelled hn
  simp only at h
  split at h
  · simp at h
  · rename_i value hv
    obtain ⟨⟨x, rest'⟩, hx, h⟩ := bind_eq_ok.mp h
    cases h
    exact .mk hs hc hv hx
  · simp at h

theorem moreMembers_listed {fuel : Nat} {cs rest : List Char} {ms : List (String × α)}
    (h : moreMembers item fuel cs = .ok (ms, rest)) :
    Listed (MemberAt item) '\x7d' cs ms rest := by
  induction fuel generalizing cs ms rest with
  | zero => simp [moreMembers] at h
  | succ fuel ih =>
    unfold moreMembers at h
    split at h
    · simp at h
    · rename_i hs
      cases h
      exact .done hs
    · rename_i next hs
      split at h
      · simp at h
      · rename_i inner hi
        obtain ⟨⟨m, after⟩, hx, h⟩ := bind_eq_ok.mp h
        obtain ⟨⟨ms', rest'⟩, hm, h⟩ := bind_eq_ok.mp h
        cases h
        exact .more hs (readMember_memberAt hi hx) (ih hm)
      · simp at h
      · simp at h
    · simp at h

theorem readMembers_enclosed {cs rest : List Char} {ms : List (String × α)}
    (h : readMembers item cs = .ok (ms, rest)) :
    Enclosed (MemberAt item) '\x7d' cs ms rest := by
  unfold readMembers at h
  split at h
  · simp at h
  · rename_i hs
    cases h
    exact .nothing hs
  · rename_i inner hi
    obtain ⟨⟨m, after⟩, hx, h⟩ := bind_eq_ok.mp h
    obtain ⟨⟨ms', rest'⟩, hm, h⟩ := bind_eq_ok.mp h
    cases h
    exact .something (by simp [hi]) (readMember_memberAt hi hx) (moreMembers_listed hm)
  · simp at h

section Parts

variable {part : List Char → β → List Char → Prop} {close : Char}

theorem Listed.part_of_mem {cs rest : List Char} {x : β} {xs : List β}
    (h : Listed part close cs xs rest) (hx : x ∈ xs) : ∃ ds after, part ds x after := by
  induction h with
  | done _ => cases hx
  | more _ hy _ ih =>
    rcases List.mem_cons.mp hx with rfl | hx
    · exact ⟨_, _, hy⟩
    · exact ih hx

theorem Enclosed.part_of_mem {cs rest : List Char} {x : β} {xs : List β}
    (h : Enclosed part close cs xs rest) (hx : x ∈ xs) : ∃ ds after, part ds x after := by
  cases h with
  | nothing _ => cases hx
  | something _ hy hl =>
    rcases List.mem_cons.mp hx with rfl | hx
    · exact ⟨_, _, hy⟩
    · exact hl.part_of_mem hx

end Parts

section Length

variable {part : List Char → β → List Char → Prop} {close : Char}
  (hpart : ∀ ⦃cs x rest⦄, part cs x rest → rest.length < cs.length)

include hpart

theorem Listed.length_lt {cs rest : List Char} {xs : List β} (h : Listed part close cs xs rest) :
    rest.length < cs.length := by
  induction h with
  | done hs => exact length_lt_of_skipGaps hs
  | more hs hx _ ih =>
    have h1 := length_lt_of_skipGaps hs
    have h2 := hpart hx
    omega

theorem Enclosed.length_lt {cs rest : List Char} {xs : List β}
    (h : Enclosed part close cs xs rest) : rest.length < cs.length := by
  cases h with
  | nothing hs => exact length_lt_of_skipGaps hs
  | something _ hx hl => exact Nat.lt_trans (hl.length_lt hpart) (hpart hx)

end Length

section Item

variable (hitem : ∀ ⦃cs x rest⦄, item cs = .ok (x, rest) → rest.length < cs.length)

include hitem

theorem ItemAt.length_lt {cs rest : List Char} {x : α} (h : ItemAt item cs x rest) :
    rest.length < cs.length :=
  Nat.lt_of_lt_of_le (hitem h) (skipGaps_length_le cs)

theorem MemberAt.length_lt {cs rest : List Char} {m : String × α} (h : MemberAt item cs m rest) :
    rest.length < cs.length := by
  obtain ⟨hq, hc, hv, hx⟩ := h
  have h1 := length_lt_of_skipGaps hq
  have h2 := hc.length_lt
  have h3 := length_lt_of_skipGaps hv
  have h4 := hitem hx
  omega

end Item

section Mono

variable {item' : List Char → Except Stop (Followed α)}
  (hmono : ∀ ⦃cs r⦄, item cs = .ok r → item' cs = .ok r)

include hmono

theorem moreItems_mono {fuel : Nat} {cs : List Char} {r : Followed (List α)}
    (h : moreItems item fuel cs = .ok r) : moreItems item' fuel cs = .ok r := by
  induction fuel generalizing cs r with
  | zero => simp [moreItems] at h
  | succ fuel ih =>
    unfold moreItems at h ⊢
    split at h
    · simp at h
    · exact h
    · split at h
      · simp at h
      · simp at h
      · obtain ⟨⟨x, after⟩, hx, h⟩ := bind_eq_ok.mp h
        obtain ⟨⟨xs, rest⟩, hm, h⟩ := bind_eq_ok.mp h
        rw [hmono hx]
        simpa [bind, Except.bind, ih hm] using h
    · simp at h

theorem readItems_mono {cs : List Char} {r : Followed (List α)}
    (h : readItems item cs = .ok r) : readItems item' cs = .ok r := by
  unfold readItems at h ⊢
  split at h
  · simp at h
  · exact h
  · obtain ⟨⟨x, after⟩, hx, h⟩ := bind_eq_ok.mp h
    obtain ⟨⟨xs, rest⟩, hm, h⟩ := bind_eq_ok.mp h
    rw [hmono hx]
    simpa [bind, Except.bind, moreItems_mono hmono hm] using h

theorem readMember_mono {cs : List Char} {r : Followed (String × α)}
    (h : readMember item cs = .ok r) : readMember item' cs = .ok r := by
  obtain ⟨⟨name, after⟩, hn, h⟩ := bind_eq_ok.mp h
  unfold readMember
  rw [hn]
  simp only [bind, Except.bind] at h ⊢
  split at h
  · simp at h
  · split at h
    · cases h
    · rename_i hx
      rw [hmono hx]
      exact h
  · simp at h

theorem moreMembers_mono {fuel : Nat} {cs : List Char} {r : Followed (List (String × α))}
    (h : moreMembers item fuel cs = .ok r) : moreMembers item' fuel cs = .ok r := by
  induction fuel generalizing cs r with
  | zero => simp [moreMembers] at h
  | succ fuel ih =>
    unfold moreMembers at h ⊢
    split at h
    · simp at h
    · exact h
    · split at h
      · simp at h
      · obtain ⟨⟨m, after⟩, hx, h⟩ := bind_eq_ok.mp h
        obtain ⟨⟨ms, rest⟩, hm, h⟩ := bind_eq_ok.mp h
        rw [readMember_mono hmono hx]
        simpa [bind, Except.bind, ih hm] using h
      · simp at h
      · simp at h
    · simp at h

theorem readMembers_mono {cs : List Char} {r : Followed (List (String × α))}
    (h : readMembers item cs = .ok r) : readMembers item' cs = .ok r := by
  unfold readMembers at h ⊢
  split at h
  · simp at h
  · exact h
  · obtain ⟨⟨m, after⟩, hx, h⟩ := bind_eq_ok.mp h
    obtain ⟨⟨ms, rest⟩, hm, h⟩ := bind_eq_ok.mp h
    rw [readMember_mono hmono hx]
    simpa [bind, Except.bind, moreMembers_mono hmono hm] using h
  · simp at h

end Mono

end Sequences

/-! ## Values -/

/-- The shapes of a value that starts right here, in which arrays and objects enclose one another up
to `depth` deep. -/
inductive ValueAt : Nat → List Char → Located → List Char → Prop where
  | word {depth : Nat} {c : Char} {cs rest : List Char} {j : Json} : isWordChar c = true →
      Word cs rest → (∀ token, Pointer.step? j token = none) →
      ValueAt depth (c :: cs) (.scalar (c :: cs) j) rest
  | string {depth : Nat} {cs chars rest : List Char} : Spelled cs chars rest →
      ValueAt depth ('"' :: cs) (.scalar ('"' :: cs) (.string (String.ofList chars))) rest
  | array {depth : Nat} {cs rest : List Char} {items : List Located} :
      Enclosed (ItemAt (readValue depth)) ']' cs items rest →
      ValueAt (depth + 1) ('[' :: cs) (.array ('[' :: cs) items) rest
  | object {depth : Nat} {cs rest : List Char} {members : List (String × Located)} :
      Enclosed (MemberAt (readValue depth)) '\x7d' cs members rest →
      ValueAt (depth + 1) ('\x7b' :: cs) (.object ('\x7b' :: cs) members) rest

theorem ValueAt.start_eq {depth : Nat} {cs rest : List Char} {v : Located}
    (h : ValueAt depth cs v rest) : v.start = cs := by
  cases h <;> rfl

theorem ValueAt.literal {depth : Nat} {c : Char} {ls start cs rest : List Char} {j : Json}
    {v : Located} (hs : start = c :: cs) (hw : (c :: ls).all isWordChar)
    (hj : ∀ token, Pointer.step? j token = none)
    (h : (do return (.scalar start j, ← readLiteral ls cs)) = Except.ok (v, rest)) :
    ValueAt depth start v rest := by
  rw [List.all_cons, Bool.and_eq_true] at hw
  obtain ⟨r, hl, hp⟩ := bind_eq_ok.mp h
  cases hp
  rw [hs]
  exact .word hw.1 (readLiteral_word hw.2 hl) hj

/-- Whatever the reader takes for a value has one of the shapes. -/
theorem readValue_valueAt {depth : Nat} {cs rest : List Char} {v : Located}
    (h : readValue depth cs = .ok (v, rest)) : ValueAt depth (skipGaps cs) v rest := by
  unfold readValue at h
  simp only at h
  split at h
  · simp at h
  · rename_i r hs
    exact .literal hs (by decide) (fun _ => rfl) h
  · rename_i r hs
    exact .literal hs (by decide) (fun _ => rfl) h
  · rename_i r hs
    exact .literal hs (by decide) (fun _ => rfl) h
  · rename_i r hs
    obtain ⟨⟨text, rest'⟩, ht, hp⟩ := bind_eq_ok.mp h
    obtain ⟨chars, hc, rfl⟩ := readString_spelled ht
    cases hp
    rw [hs]
    exact .string hc
  · rename_i r hs
    obtain ⟨⟨n, rest'⟩, hn, hp⟩ := bind_eq_ok.mp h
    obtain ⟨c, r', rfl, hc, hw⟩ := readNumber_word hn
    cases hp
    rw [hs]
    exact .word (by decide) (.more (isWordChar_of_isDigit hc) hw) fun _ => rfl
  · rename_i r hs
    split at h
    · simp at h
    · obtain ⟨⟨items, rest'⟩, hi, hp⟩ := bind_eq_ok.mp h
      cases hp
      rw [hs]
      exact .array (readItems_enclosed hi)
  · rename_i r hs
    split at h
    · simp at h
    · obtain ⟨⟨members, rest'⟩, hi, hp⟩ := bind_eq_ok.mp h
      cases hp
      rw [hs]
      exact .object (readMembers_enclosed hi)
  · split at h
    · obtain ⟨⟨n, rest'⟩, hn, hp⟩ := bind_eq_ok.mp h
      obtain ⟨c', r', he, hc, hw⟩ := readNumber_word hn
      cases hp
      rw [he]
      exact .word (isWordChar_of_isDigit hc) hw fun _ => rfl
    · simp at h

theorem readValue_length_lt {depth : Nat} {cs rest : List Char} {v : Located}
    (h : readValue depth cs = .ok (v, rest)) : rest.length < cs.length := by
  have hle := skipGaps_length_le cs
  have hv := readValue_valueAt h
  suffices rest.length < (skipGaps cs).length by omega
  clear hle h
  generalize skipGaps cs = cs at hv
  -- On the depth: the parts of an array or object are values of a smaller one.
  induction depth generalizing cs rest v with
  | zero =>
    cases hv with
    | word _ hw _ => exact Nat.lt_succ_of_le hw.length_le
    | string hc => exact Nat.lt_succ_of_lt hc.length_lt
  | succ depth ih =>
    have hitem : ∀ ⦃cs x rest⦄, readValue depth cs = .ok (x, rest) →
        rest.length < cs.length := fun _ _ _ hx =>
      Nat.lt_of_lt_of_le (ih _ (readValue_valueAt hx)) (skipGaps_length_le _)
    cases hv with
    | word _ hw _ => exact Nat.lt_succ_of_le hw.length_le
    | string hc => exact Nat.lt_succ_of_lt hc.length_lt
    | array hi => exact Nat.lt_succ_of_lt (hi.length_lt fun _ _ _ => ItemAt.length_lt hitem)
    | object hm => exact Nat.lt_succ_of_lt (hm.length_lt fun _ _ _ => MemberAt.length_lt hitem)

/-- More room for nesting changes nothing in what is read. -/
theorem readValue_mono {depth depth' : Nat} {cs : List Char} {r : Followed Located}
    (h : readValue depth cs = .ok r) (hle : depth ≤ depth') : readValue depth' cs = .ok r := by
  induction depth generalizing cs r depth' with
  | zero =>
    unfold readValue at h ⊢
    simp only at h ⊢
    split at h
    case h_7 | h_8 => simp at h
    all_goals exact h
  | succ depth ih =>
    obtain ⟨room, rfl⟩ : ∃ room, depth' = room + 1 := ⟨depth' - 1, by omega⟩
    have hmono : ∀ ⦃cs r⦄, readValue depth cs = .ok r → readValue room cs = .ok r := fun _ _ h =>
      ih h (by omega)
    unfold readValue at h ⊢
    simp only at h ⊢
    split at h
    case h_7 =>
      obtain ⟨⟨items, rest⟩, hi, hp⟩ := bind_eq_ok.mp h
      rw [readItems_mono hmono hi]
      exact hp
    case h_8 =>
      obtain ⟨⟨members, rest⟩, hm, hp⟩ := bind_eq_ok.mp h
      rw [readMembers_mono hmono hm]
      exact hp
    all_goals exact h

/-- A value may have gaps before it. -/
theorem readValue_skipGaps (depth : Nat) (cs : List Char) :
    readValue depth (skipGaps cs) = readValue depth cs := by
  unfold readValue
  simp only [skipGaps_skipGaps]

end DeliveryRules.Json
