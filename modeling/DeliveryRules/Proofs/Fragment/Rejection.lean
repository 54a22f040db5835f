import DeliveryRules.Compiler.Setup
import DeliveryRules.Proofs.Pointer.Place
import DeliveryRules.Proofs.Schema.Blame

/-!
# Where a rejected fragment is at fault

The error of a fragment that its schema rejects names a line. On the way there the tokens of the
violation are written as a text, read back from it, and followed through the text of the fragment.

- `Workshop.load_rejected`: the violation is about a value of the document, and its line is reported
  if the tokens are told by their text (`Pointer.IsTold`) and the names among them lead to the
  same part whether the first or the last member under a name counts.
- `Workshop.load_rejected_blank`: a name that ends in a blank is not told, and the error is reported
  for the document as a whole.
-/

namespace DeliveryRules.Workshop

variable {w : Workshop} {s : Source} {doc : Located} {schema : Schema} {v : Schema.Violation}

theorem load_of_violation? {document : Json} (hread : Json.read s.text = .ok document)
    (hfind : w.registry.find? (w.versionOf document) = some schema)
    (hv : schema.violation? document = some v) :
    w.load s = .error (s.fault w.excerptWidth v.message v.pointer) := by
  rw [load, hread]
  simp only [Except.mapError, bind, Except.bind, hfind, hv]
  rfl

/-- The violation of a rejected document, which is no longer than texts in memory are, is about a
value of this document. Where its tokens are told by their text and lead to the same part whichever
member under a name counts, the reported line is the one on which this value starts. -/
theorem load_rejected (hread : Json.readLocated s.text = .ok doc)
    (hsize : s.text.toList.length ≤ Pointer.maxIndex)
    (hfind : w.registry.find? (w.versionOf doc.toJson) = some schema)
    (hv : schema.violation? doc.toJson = some v) :
    ∃ position place, position = Pointer.locate s.text (Pointer.tokens v.pointer) ∧
      w.load s = .error (.badFragment s.path (.invalid v.message v.pointer position.line
        (String.ofList (Text.excerpt s.text.toList position.line w.excerptWidth)))) ∧
      doc.reach? v.tokens = some place ∧
      Pointer.follow? doc.toJson v.tokens = some place.toJson ∧
      (Pointer.IsTold v.tokens → doc.follow? v.tokens = doc.reach? v.tokens →
        ∃ before, s.text.toList = before ++ place.start ∧
          position = ⟨(String.ofList before).utf8ByteSize, before.count '\n' + 1, true⟩) := by
  have hdocument := Json.read_of_readLocated hread
  obtain ⟨rest, hvalue⟩ := Pointer.readValue_of_readLocated hread
  obtain ⟨part, hpart⟩ :=
    Schema.follow?_of_violation? (Json.addressable_of_read hdocument hsize) hv
  obtain ⟨place, hplace, rfl⟩ : ∃ place, doc.reach? v.tokens = some place ∧
      place.toJson = part := by
    rw [Located.follow?_toJson hvalue] at hpart
    exact Option.map_eq_some_iff.mp hpart
  refine ⟨_, place, rfl, load_of_violation? hdocument hfind hv, hplace, hpart,
    fun htold hfirst => ?_⟩
  obtain ⟨before, hbefore, hlocate, -⟩ := Pointer.locate_follow? hread (hfirst.trans hplace)
  have htokens : Pointer.tokens v.pointer = v.tokens := (Pointer.tokens_text_iff v.tokens).mpr htold
  exact ⟨before, hbefore, by rw [htokens, hlocate]⟩

/-! ## Two names -/

/-- A fragment with a member in its third line that no fragment has. -/
def withMember (name : String) : String :=
  "\x7b\n\"name\": \"x\",\n\"" ++ name ++ "\": \"y\"\n\x7d"

/-- A text is rejected by the schema made from an empty catalog. -/
structure Rejects (text : String) (r : Registry) (schema : Schema) (doc : Located)
    (v : Schema.Violation) : Prop where
  built : Registry.builtIn {} defaultRuleFormat = .ok r
  found : r.find? defaultRuleFormat = some schema
  read : Json.readLocated text = .ok doc
  unnamed : doc.toJson.memberString? "ruleFormat" = none
  rejected : schema.violation? doc.toJson = some v

/-- Evaluates what a text is rejected for. -/
def violationIn? (text : String) : Option (Located × Schema.Violation) :=
  (Registry.builtIn {} defaultRuleFormat).toOption.bind fun r =>
    (r.find? defaultRuleFormat).bind fun schema =>
      (Json.readLocated text).toOption.bind fun doc =>
        if doc.toJson.memberString? "ruleFormat" = none then
          (schema.violation? doc.toJson).map fun v => (doc, v)
        else none

theorem rejects_of_violationIn? {text : String} {doc : Located} {v : Schema.Violation}
    (h : violationIn? text = some (doc, v)) : ∃ r schema, Rejects text r schema doc v := by
  obtain ⟨r, hr, h⟩ := Option.bind_eq_some_iff.mp h
  obtain ⟨schema, hschema, h⟩ := Option.bind_eq_some_iff.mp h
  obtain ⟨doc', hdoc, h⟩ := Option.bind_eq_some_iff.mp h
  obtain ⟨hunnamed, h⟩ := Option.ite_none_right_eq_some.mp h
  obtain ⟨v', hv, heq⟩ := Option.map_eq_some_iff.mp h
  cases heq
  exact ⟨r, schema, eq_ok_of_toOption hr, hschema, eq_ok_of_toOption hdoc, hunnamed, hv⟩

/-- A workshop with an empty catalog. -/
def bare (r : Registry) : Workshop := ⟨{}, r, .ofTexts [], defaultRuleFormat, 80⟩

theorem Rejects.find? {text : String} {r : Registry} (h : Rejects text r schema doc v) :
    (bare r).registry.find? ((bare r).versionOf doc.toJson) = some schema := by
  rw [versionOf, h.unnamed]
  exact h.found

set_option maxRecDepth 20000 in
theorem load_rejected_comments :
    ∃ r schema doc v position place before,
      Rejects (withMember "comments") r schema doc v ∧
      position = Pointer.locate (withMember "comments") (Pointer.tokens v.pointer) ∧
      doc.reach? v.tokens = some place ∧
      (withMember "comments").toList = before ++ place.start ∧
      position = ⟨(String.ofList before).utf8ByteSize, before.count '\n' + 1, true⟩ := by
  have hok : (violationIn? (withMember "comments")).any
      (fun p => decide (Pointer.IsTold p.2.tokens ∧ p.1.NoRepeats)) = true := by decide +kernel
  obtain ⟨⟨doc, v⟩, hv, hp⟩ := (Option.any_eq_true _ _).mp hok
  obtain ⟨htold, hrepeats⟩ := of_decide_eq_true hp
  obtain ⟨r, schema, hrejects⟩ := rejects_of_violationIn? hv
  obtain ⟨position, place, hposition, -, hplace, -, hlocate⟩ :=
    load_rejected (w := bare r) (s := ⟨⟨"a.json"⟩, withMember "comments"⟩) hrejects.read
      (by decide +kernel) hrejects.find? hrejects.rejected
  obtain ⟨before, hbefore, heq⟩ := hlocate htold (Located.reach?_eq_follow? hrepeats _).symm
  exact ⟨r, schema, doc, v, position, place, before, hrejects, hposition, hplace, hbefore, heq⟩

set_option maxRecDepth 20000 in
/-- A name that ends in a blank is not told: the error is reported in the first line, where the
document starts, and not in the third. -/
theorem load_rejected_blank :
    ∃ r schema doc v place before fault,
      Rejects (withMember "comment ") r schema doc v ∧ v.tokens = ["comment "] ∧
      doc.reach? v.tokens = some place ∧
      (withMember "comment ").toList = before ++ place.start ∧ before.count '\n' + 1 = 3 ∧
      (bare r).load ⟨⟨"a.json"⟩, withMember "comment "⟩ = .error (.badFragment ⟨"a.json"⟩ fault) ∧
      fault.line? = some 1 := by
  have hok : (violationIn? (withMember "comment ")).any (fun p =>
      p.2.tokens = ["comment "] ∧
      (Pointer.locate (withMember "comment ") (Pointer.tokens p.2.pointer)).line = 1 ∧
      (p.1.reach? p.2.tokens).any fun place =>
        let before := (withMember "comment ").toList.take
          ((withMember "comment ").toList.length - place.start.length)
        (withMember "comment ").toList = before ++ place.start ∧ before.count '\n' + 1 = 3) =
      true := by decide +kernel
  obtain ⟨⟨doc, v⟩, hv, hp⟩ := (Option.any_eq_true _ _).mp hok
  obtain ⟨htokens, hline, hp⟩ := of_decide_eq_true hp
  obtain ⟨place, hplace, hp⟩ := (Option.any_eq_true _ _).mp hp
  obtain ⟨hbefore, hcount⟩ := of_decide_eq_true hp
  obtain ⟨r, schema, hrejects⟩ := rejects_of_violationIn? hv
  exact ⟨r, schema, doc, v, place, _, _, hrejects, htokens, hplace, hbefore, hcount,
    load_of_violation? (s := ⟨⟨"a.json"⟩, _⟩) (Json.read_of_readLocated hrejects.read)
      hrejects.find? hrejects.rejected, congrArg some hline⟩

end DeliveryRules.Workshop
