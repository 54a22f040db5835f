import DeliveryRules.Proofs.Json.Members
import DeliveryRules.Proofs.Pointer.Scanner
import DeliveryRules.Proofs.Text.Lines

/-!
# Pointers into written documents

The other side of `Pointer.locate`: a pointer is followed through the tree of a document as it was
written, in which an object lists all its members and every part knows where it starts.

- `Located.step?`, `Located.follow?`: the part that one token, or all of some tokens, lead to.
- `Located.LeadsTo`: the part that as many tokens as possible lead to.
- `Located.NoRepeats`: no object gives a name twice.
- `enter?_readValue`: the scanner enters the part that a token leads to.
- `walk_leadsTo`: the scanner walks along the tokens as far as they lead in the tree.
-/

namespace DeliveryRules

namespace Located

/-- The part of a value that a token leads to: of the members of an object the first under this
name. -/
def step? : Located → String → Option Located
  | .object _ members, token => members.lookup token
  | .array _ items, token => (Pointer.index? token).bind fun i => items[i]?
  | .scalar .., _ => none

/-- The part of a value that all of the tokens lead to, one after the other. -/
def follow? : Located → List String → Option Located
  | l, [] => some l
  | l, t :: ts => (l.step? t).bind fun k => k.follow? ts

/-- The first `count` of the tokens lead to `place`, and no more of them lead anywhere. -/
structure LeadsTo (l : Located) (tokens : List String) (count : Nat) (place : Located) :
    Prop where
  count_le : count ≤ tokens.length
  follow_take : l.follow? (tokens.take count) = some place
  longest : ∀ n, count < n → n ≤ tokens.length → l.follow? (tokens.take n) = none

theorem LeadsTo.nil (l : Located) : l.LeadsTo [] 0 l :=
  ⟨Nat.le_refl _, rfl, fun _ h h' => absurd h' (by simp; omega)⟩

theorem LeadsTo.stuck {l : Located} {t : String} (h : l.step? t = none) (ts : List String) :
    l.LeadsTo (t :: ts) 0 l := by
  refine ⟨Nat.zero_le _, rfl, fun n hn _ => ?_⟩
  obtain ⟨n, rfl⟩ : ∃ k, n = k + 1 := ⟨n - 1, by omega⟩
  simp [follow?, h]

theorem LeadsTo.cons {l k place : Located} {t : String} {ts : List String} {count : Nat}
    (h : l.step? t = some k) (hk : k.LeadsTo ts count place) :
    l.LeadsTo (t :: ts) (count + 1) place := by
  refine ⟨Nat.succ_le_succ hk.count_le, ?_, fun n hn hn' => ?_⟩
  · simp [follow?, h, hk.follow_take]
  · obtain ⟨n, rfl⟩ : ∃ k, n = k + 1 := ⟨n - 1, by omega⟩
    simpa [follow?, h] using hk.longest n (by omega) (by simpa using hn')

/-- Where a pointer leads is determined. -/
theorem LeadsTo.unique {l place place' : Located} {tokens : List String} {count count' : Nat}
    (h : l.LeadsTo tokens count place) (h' : l.LeadsTo tokens count' place') :
    count = count' ∧ place = place' := by
  have hcount : count = count' := by
    rcases Nat.lt_trichotomy count count' with hlt | heq | hlt
    · have := h.longest count' hlt h'.count_le
      simp [h'.follow_take] at this
    · exact heq
    · have := h'.longest count hlt h.count_le
      simp [h.follow_take] at this
  subst hcount
  exact ⟨rfl, by simpa [h.follow_take] using h'.follow_take⟩

/-- All of the tokens lead somewhere if none is left over. -/
theorem LeadsTo.isSome_iff {l place : Located} {tokens : List String} {count : Nat}
    (h : l.LeadsTo tokens count place) :
    (l.follow? tokens).isSome ↔ count = tokens.length := by
  constructor
  · intro hs
    refine Nat.le_antisymm h.count_le (Nat.not_lt.mp fun hlt => ?_)
    have := h.longest tokens.length hlt (Nat.le_refl _)
    simp [List.take_length] at this
    simp [this] at hs
  · rintro rfl
    have := h.follow_take
    rw [List.take_length] at this
    simp [this]

/-- No object gives a name twice. -/
def NoRepeats : Located → Prop
  | .scalar .. => True
  | .array _ items => ofItems items
  | .object _ members => (members.map (·.1)).Nodup ∧ ofMembers members
where
  ofItems : List Located → Prop
    | [] => True
    | l :: ls => NoRepeats l ∧ ofItems ls
  ofMembers : List (String × Located) → Prop
    | [] => True
    | (_, l) :: ms => NoRepeats l ∧ ofMembers ms

theorem noRepeats_ofItems {items : List Located} :
    NoRepeats.ofItems items ↔ ∀ l ∈ items, l.NoRepeats := by
  induction items with
  | nil => simp [NoRepeats.ofItems]
  | cons l ls ih => simp [NoRepeats.ofItems, ih]

theorem noRepeats_ofMembers {members : List (String × Located)} :
    NoRepeats.ofMembers members ↔ ∀ m ∈ members, m.2.NoRepeats := by
  induction members with
  | nil => simp [NoRepeats.ofMembers]
  | cons m ms ih => simp [NoRepeats.ofMembers, ih]

/-- A part of a value is one of its items or members. -/
theorem step?_eq_some {l k : Located} {token : String} (h : l.step? token = some k) :
    (∃ s items, l = .array s items ∧ k ∈ items) ∨
      ∃ s members, l = .object s members ∧ (token, k) ∈ members := by
  cases l with
  | scalar _ _ => cases h
  | array s items =>
    obtain ⟨i, -, hi⟩ := Option.bind_eq_some_iff.mp h
    exact .inl ⟨s, items, rfl, List.mem_of_getElem? hi⟩
  | object s members =>
    obtain ⟨before, after, rfl, -⟩ := List.lookup_eq_some_iff.mp h
    exact .inr ⟨s, _, rfl, by simp⟩

theorem NoRepeats.step? {l k : Located} {token : String} (hl : l.NoRepeats)
    (h : l.step? token = some k) : k.NoRepeats := by
  rcases step?_eq_some h with ⟨s, items, rfl, hk⟩ | ⟨s, members, rfl, hk⟩
  · exact noRepeats_ofItems.mp hl k hk
  · exact noRepeats_ofMembers.mp hl.2 _ hk

end Located

namespace Pointer

open Json (skipGaps readValue)

/-! ## One token -/

/-- The start of a value is where reading it began, behind the gaps. -/
theorem start_readValue {depth : Nat} {cs rest : List Char} {v : Located}
    (h : readValue depth cs = .ok (v, rest)) : v.start = skipGaps cs :=
  (Json.readValue_valueAt h).start_eq

/-- One member: it is the one under the name, or the search goes on behind it. -/
theorem memberStart?_memberAt {depth : Nat} (token : String) {cs after : List Char}
    {m : String × Located} (hm : Json.MemberAt (readValue depth) cs m after) (he : Ends after)
    (fuel : Nat) :
    memberStart? token.toList (fuel + 1) cs =
      if token = m.1 then some m.2.start
      else (after? ',' after).bind (memberStart? token.toList fuel) := by
  obtain ⟨hq, hc, hv, hx⟩ := hm
  rename_i chars _ value _
  have hname : chars = token.toList ↔ token = String.ofList chars := by
    rw [← String.toList_inj, String.toList_ofList]
    exact eq_comm
  by_cases ht : token = String.ofList chars
  · simp [memberStart?, hq, literal?_spelled hc, after?_eq_some.mpr hv, ht, start_readValue hx]
  · simp [memberStart?, hq, literal?_spelled hc, after?_eq_some.mpr hv, hname, ht,
      skipValue_readValue hx he]

theorem memberStart?_listed {depth : Nat} (token : String) {cs after rest : List Char}
    {m : String × Located} {ms : List (String × Located)}
    (hm : Json.MemberAt (readValue depth) cs m after)
    (h : Json.Listed (Json.MemberAt (readValue depth)) '\x7d' after ms rest) {fuel : Nat}
    (hf : cs.length < fuel) :
    memberStart? token.toList fuel cs = ((m :: ms).lookup token).map Located.start := by
  induction h generalizing cs m fuel with
  | @done after rest hs =>
    obtain ⟨fuel, rfl⟩ : ∃ k, fuel = k + 1 := ⟨fuel - 1, by omega⟩
    have hno : after? ',' after = none :=
      after?_eq_none.mpr fun r hr => by rw [hs] at hr; cases hr
    rw [memberStart?_memberAt token hm (ends_of_skipGaps hs (by decide))]
    by_cases ht : token = m.1
    · simp [Members.lookup_cons, ht]
    · simp [Members.lookup_cons, ht, hno]
  | @more after next after' rest m' ms hs hm' hl ih =>
    obtain ⟨fuel, rfl⟩ : ∃ k, fuel = k + 1 := ⟨fuel - 1, by omega⟩
    rw [memberStart?_memberAt token hm (ends_of_skipGaps hs (by decide))]
    by_cases ht : token = m.1
    · simp [Members.lookup_cons, ht]
    · have h1 := Json.length_lt_of_skipGaps hs
      have h2 := hm.length_lt fun _ _ _ => Json.readValue_length_lt
      rw [if_neg ht, after?_eq_some.mpr hs, Option.bind_some,
        ih hm' (show next.length < fuel by omega)]
      simp [Members.lookup_cons, ht]

/-- One item: it is the one at index zero, or the count goes on behind it. -/
theorem itemStart?_itemAt {depth : Nat} {cs after : List Char} {x : Located}
    (hx : Json.ItemAt (readValue depth) cs x after) (he : Ends after) (index : Nat) :
    itemStart? index cs =
      match index with
      | 0 => some x.start
      | index + 1 => (after? ',' after).bind (itemStart? index) := by
  have hr : readValue depth cs = .ok (x, after) := by
    rw [← Json.readValue_skipGaps]
    exact hx
  cases index with
  | zero => simp [itemStart?, start_readValue hr]
  | succ index => simp [itemStart?, skipValue_readValue hr he]

theorem itemStart?_listed {depth : Nat} {cs after rest : List Char} {x : Located}
    {xs : List Located} (hx : Json.ItemAt (readValue depth) cs x after)
    (h : Json.Listed (Json.ItemAt (readValue depth)) ']' after xs rest) (index : Nat) :
    itemStart? index cs = (x :: xs)[index]?.map Located.start := by
  induction h generalizing cs x index with
  | @done after rest hs =>
    have hno : after? ',' after = none :=
      after?_eq_none.mpr fun r hr => by rw [hs] at hr; cases hr
    rw [itemStart?_itemAt hx (ends_of_skipGaps hs (by decide))]
    cases index with
    | zero => simp
    | succ index => simp [hno]
  | more hs hy hl ih =>
    rw [itemStart?_itemAt hx (ends_of_skipGaps hs (by decide))]
    cases index with
    | zero => simp
    | succ index => simp [after?_eq_some.mpr hs, ih hy]

/-- From the start of a value that was read, the scanner enters the part that a token leads to. -/
theorem enter?_readValue {depth : Nat} {cs rest : List Char} {v : Located}
    (h : readValue depth cs = .ok (v, rest)) (token : String) :
    enter? token v.start = (v.step? token).map Located.start := by
  have hv := Json.readValue_valueAt h
  rw [hv.start_eq]
  unfold enter?
  rw [Json.skipGaps_skipGaps]
  generalize skipGaps cs = start at hv
  cases hv with
  | word hc _ _ =>
    split
    case h_3 => rfl
    all_goals
      rename_i heq
      cases heq
      exact absurd hc Bool.false_ne_true
  | string _ => rfl
  | array hi =>
    cases hi with
    | nothing hs => cases hx : index? token <;> simp [Located.step?, hx, after?_eq_some.mpr hs]
    | something hne hx hl =>
      cases hindex : index? token <;>
        simp [Located.step?, after?_eq_none.mpr hne, itemStart?_listed hx hl, hindex]
  | object hm =>
    cases hm with
    | nothing hs => simp [Located.step?, after?_eq_some.mpr hs]
    | something hne hx hl =>
      simp [Located.step?, after?_eq_none.mpr hne,
        memberStart?_listed token hx hl (Nat.lt_succ_self _)]

/-- A part of a value that was read was read itself. -/
theorem readValue_step {depth : Nat} {cs rest : List Char} {v k : Located} {token : String}
    (h : readValue depth cs = .ok (v, rest)) (hs : v.step? token = some k) :
    ∃ ds after, readValue depth ds = .ok (k, after) := by
  have hv := Json.readValue_valueAt h
  generalize skipGaps cs = start at hv
  cases hv with
  | word _ _ _ => cases hs
  | string _ => cases hs
  | array hi =>
    rcases Located.step?_eq_some hs with ⟨_, _, he, hk⟩ | ⟨_, _, he, -⟩ <;> cases he
    obtain ⟨ds, after, hx⟩ := hi.part_of_mem hk
    exact ⟨_, after, Json.readValue_mono hx (Nat.le_succ _)⟩
  | object hm =>
    rcases Located.step?_eq_some hs with ⟨_, _, he, -⟩ | ⟨_, _, he, hk⟩ <;> cases he
    obtain ⟨ds, after, hx⟩ := hm.part_of_mem hk
    obtain ⟨-, -, -, hr⟩ := hx
    exact ⟨_, after, Json.readValue_mono hr (Nat.le_succ _)⟩

/-! ## All tokens -/

/-- The scanner walks along the tokens as far as they lead in the tree. -/
theorem walk_leadsTo {depth : Nat} {cs rest : List Char} {v : Located}
    (h : readValue depth cs = .ok (v, rest)) (tokens : List String) :
    ∃ count place, v.LeadsTo tokens count place ∧
      walk v.start tokens = (place.start, (v.follow? tokens).isSome) ∧
      ∃ ds after, readValue depth ds = .ok (place, after) := by
  induction tokens generalizing cs rest v with
  | nil => exact ⟨0, v, .nil v, rfl, cs, rest, h⟩
  | cons t ts ih =>
    have he := enter?_readValue h t
    cases hs : v.step? t with
    | none =>
      refine ⟨0, v, .stuck hs ts, ?_, cs, rest, h⟩
      rw [hs] at he
      simp [walk, he, Located.follow?, hs]
    | some k =>
      obtain ⟨ds, after, hk⟩ := readValue_step h hs
      obtain ⟨count, place, hl, hw, hp⟩ := ih hk
      refine ⟨count + 1, place, hl.cons hs, ?_, hp⟩
      rw [hs] at he
      simp [walk, he, hw, Located.follow?, hs]

/-! ## The value that was written -/

/-- In a document without repeated names a token leads to the same part before and after the places
are forgotten. -/
theorem step?_toJson {depth : Nat} {cs rest : List Char} {v : Located}
    (h : readValue depth cs = .ok (v, rest)) (hv : v.NoRepeats) (token : String) :
    step? v.toJson token = (v.step? token).map Located.toJson := by
  have hshape := Json.readValue_valueAt h
  generalize skipGaps cs = start at hshape
  cases hshape with
  | word _ _ hj => exact hj token
  | string _ => rfl
  | array _ =>
    rw [Located.toJson, Located.toJson_ofItems]
    simp only [step?, Located.step?]
    cases index? token with
    | none => rfl
    | some i => exact List.getElem?_map
  | @object _ _ _ members hmembers =>
    have hnames : (members.map fun m => (m.1, m.2.toJson)).map (·.1) = members.map (·.1) := by
      simp
    rw [Located.toJson, Located.toJson_ofMembers, Members.ofWritten_eq_self (hnames ▸ hv.1)]
    simp only [step?, Members.get?, Located.step?]
    clear hnames hv h hmembers
    induction members with
    | nil => rfl
    | cons m ms ih =>
      simp only [List.map_cons, Members.lookup_cons]
      split
      · rfl
      · exact ih

theorem ancestry_leadsTo {depth : Nat} {cs rest : List Char} {v : Located}
    (h : readValue depth cs = .ok (v, rest)) (hv : v.NoRepeats) {tokens : List String}
    {count : Nat} {place : Located} (hl : v.LeadsTo tokens count place) :
    (ancestry v.toJson tokens).length = count + 1 ∧
      (ancestry v.toJson tokens).getLast? = some place.toJson := by
  induction tokens generalizing cs rest v count with
  | nil =>
    obtain ⟨rfl, rfl⟩ := hl.unique (.nil v)
    exact ⟨rfl, rfl⟩
  | cons t ts ih =>
    have hstep := step?_toJson h hv t
    cases hs : v.step? t with
    | none =>
      obtain ⟨rfl, rfl⟩ := hl.unique (.stuck hs ts)
      rw [hs] at hstep
      simp [ancestry, hstep]
    | some k =>
      obtain ⟨ds, after, hk⟩ := readValue_step h hs
      obtain ⟨count', place', hk', -⟩ := walk_leadsTo hk ts
      obtain ⟨rfl, rfl⟩ := hl.unique (hk'.cons hs)
      obtain ⟨hlen, hlast⟩ := ih hk (hv.step? hs) hk'
      rw [hs] at hstep
      refine ⟨by simp [ancestry, hstep, hlen], ?_⟩
      simp only [ancestry, hstep, Option.map_some, List.getLast?_cons, hlast]
      rfl

/-! ## A pointer into a text -/

/-- What was read of a whole text is a value at its start, with only gaps after it. -/
theorem whole_of_readLocated {text : String} {doc : Located}
    (h : Json.readLocated text = .ok doc) :
    ∃ rest, readValue Json.maxDepth text.toList = .ok (doc, rest) ∧ skipGaps rest = [] := by
  unfold Json.readLocated at h
  cases hw : Json.readWhole Json.maxDepth text.toList with
  | error e => rw [hw] at h; cases h
  | ok whole =>
    rw [hw] at h
    cases h
    obtain ⟨⟨v, rest⟩, hv, hrest⟩ := bind_eq_ok.mp hw
    refine ⟨rest, ?_⟩
    simp only at hrest
    split at hrest
    · rename_i hgaps
      cases hrest
      exact ⟨hv, hgaps⟩
    · cases hrest

theorem readValue_of_readLocated {text : String} {doc : Located}
    (h : Json.readLocated text = .ok doc) :
    ∃ rest, readValue Json.maxDepth text.toList = .ok (doc, rest) := by
  obtain ⟨rest, hrest, -⟩ := whole_of_readLocated h
  exact ⟨rest, hrest⟩

/-- The position that is found ends the longest suffix walked to, so what stands before it gives
both numbers. -/
theorem locate_eq {text : String} {tokens : List String} {before after : List Char} {exact : Bool}
    (htext : text.toList = before ++ after)
    (hw : walk (skipGaps text.toList) tokens = (after, exact)) :
    locate text tokens =
      ⟨(String.ofList before).utf8ByteSize, before.count '\n' + 1, exact⟩ := by
  have hoffset : Text.byteCount text.toList - Text.byteCount after = Text.byteCount before := by
    rw [htext, Text.byteCount_append, Nat.add_sub_cancel_right]
  simp only [locate, hw, hoffset, Text.utf8ByteSize_ofList]
  rw [htext, Text.lineAt_append]

/-- The place that is found in a text for a pointer is that of the part which as many of its tokens
as possible lead to. Where no object of the text gives a name twice, these are the parts of the
document that is read from it. -/
theorem locate_leadsTo {text : String} {doc : Located} (hdoc : Json.readLocated text = .ok doc)
    (pointer : String) :
    ∃ count place before,
      doc.LeadsTo (tokens pointer) count place ∧
      text.toList = before ++ place.start ∧
      locate text (tokens pointer) =
        ⟨(String.ofList before).utf8ByteSize, before.count '\n' + 1,
          (doc.follow? (tokens pointer)).isSome⟩ ∧
      (∃ rest, readValue Json.maxDepth place.start = .ok (place, rest)) ∧
      (doc.NoRepeats →
        ((locate text (tokens pointer)).exact = true ↔
          (ancestry doc.toJson (tokens pointer)).length = (tokens pointer).length + 1) ∧
        (ancestry doc.toJson (tokens pointer)).getLast? = some place.toJson) := by
  obtain ⟨rest, hr⟩ := readValue_of_readLocated hdoc
  obtain ⟨count, place, hl, hw, ds, after, hp⟩ := walk_leadsTo hr (tokens pointer)
  have hw' : walk (skipGaps text.toList) (tokens pointer) =
      (place.start, (doc.follow? (tokens pointer)).isSome) := by
    rw [← start_readValue hr, hw]
  obtain ⟨before, hbefore⟩ : place.start <:+ text.toList := by
    have := walk_suffix (skipGaps text.toList) (tokens pointer)
    rw [hw'] at this
    exact this.trans (Json.skipGaps_suffix _)
  have hlocate := locate_eq hbefore.symm hw'
  refine ⟨count, place, before, hl, hbefore.symm, hlocate, ⟨after, ?_⟩, fun hv => ?_⟩
  · rw [start_readValue hp, Json.readValue_skipGaps, hp]
  · obtain ⟨hlen, hlast⟩ := ancestry_leadsTo hr hv hl
    refine ⟨?_, hlast⟩
    rw [hlocate, hl.isSome_iff, hlen]
    omega

/-- A text in which a name is written with an escape and a string holds a bracket and a quote. -/
def nestedText : String :=
  "\x7b\"a\\u002f\" :[1, \x7b\"b\":\n\"]\\\"\"\x7d], \"c\":[] \x7d"

theorem locate_leadsTo_nested :
    ∃ doc count place before,
      Json.readLocated nestedText = .ok doc ∧
      doc.LeadsTo (tokens "/a~1/1/b/x") count place ∧
      nestedText.toList = before ++ place.start ∧
      locate nestedText (tokens "/a~1/1/b/x") =
        ⟨(String.ofList before).utf8ByteSize, before.count '\n' + 1, false⟩ := by
  have hread : (Json.readLocated nestedText).toOption.isSome := by decide +kernel
  have hexact : (locate nestedText (tokens "/a~1/1/b/x")).exact = false := by decide +kernel
  cases hdoc : Json.readLocated nestedText with
  | error e => simp [hdoc, Except.toOption] at hread
  | ok doc =>
    obtain ⟨count, place, before, hl, hbefore, hlocate, -⟩ :=
      locate_leadsTo hdoc "/a~1/1/b/x"
    rw [hlocate] at hexact
    exact ⟨doc, count, place, before, rfl, hl, hbefore, by rw [hlocate, ← hexact]⟩

end Pointer

end DeliveryRules
