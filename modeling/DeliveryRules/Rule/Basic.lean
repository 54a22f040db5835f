import DeliveryRules.Capability.Basic

/-!
# Rules

A rule applies its behaviors where its criteria hold. With several criteria a match policy says
whether any or all of them have to hold.
-/

namespace DeliveryRules

inductive MatchPolicy where
  | any
  | all
deriving DecidableEq, Repr

namespace MatchPolicy

def name : MatchPolicy → String
  | any => "any"
  | all => "all"

def decode : Decoder MatchPolicy :=
  Decoder.variant [(any.name, any), (all.name, all)]

end MatchPolicy

structure Rule where
  name : Option String := none
  comment : Option String := none
  criteria : List Capability := []
  behaviors : List Capability := []
  policy : Option MatchPolicy := none
  /-- Where the rule came from. Only the root of a tree came from nowhere. -/
  provenance : Option Provenance := none

/-- The name of a rule without a name or provenance. -/
def rootName : String := "default"

namespace Rule

/-- What a rule is called: its name, else its provenance. -/
def label (r : Rule) : String :=
  (r.name.or (r.provenance.map (·.text))).getD rootName

/-- The comment with the provenance below it. -/
def remark (r : Rule) : String :=
  match r.comment, r.provenance with
  | some c, some p => c ++ "\n" ++ p.text
  | some c, none => c
  | none, some p => p.text
  | none, none => ""

def addBehavior (c : Capability) (r : Rule) : Rule := { r with behaviors := r.behaviors ++ [c] }

def addCriterion (c : Capability) (r : Rule) : Rule := { r with criteria := r.criteria ++ [c] }

end Rule

end DeliveryRules
