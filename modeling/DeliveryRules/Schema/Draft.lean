import DeliveryRules.Json.Basic

/-!
# Drafts of the schema language

A schema names its draft with `$schema`; one that does not is read by the rules of the draft in
which it is nested, and on its own by those of `Draft.latest`.
-/

namespace DeliveryRules.Schema

inductive Draft where
  | d4
  | d6
  | d7
  | d201909
  | d202012
deriving DecidableEq, Repr

namespace Draft

def latest : Draft := .d202012

/-- Drafts in the order in which they appeared. -/
def age : Draft → Nat
  | .d4 => 0
  | .d6 => 1
  | .d7 => 2
  | .d201909 => 3
  | .d202012 => 4

def since (d first : Draft) : Bool := first.age ≤ d.age

def uri : Draft → String
  | .d4 => "http://json-schema.org/draft-04/schema"
  | .d6 => "http://json-schema.org/draft-06/schema"
  | .d7 => "http://json-schema.org/draft-07/schema"
  | .d201909 => "https://json-schema.org/draft/2019-09/schema"
  | .d202012 => "https://json-schema.org/draft/2020-12/schema"

def all : List Draft := [.d202012, .d201909, .d7, .d6, .d4]

/-- A schema's name without the marks at its end that say that it is a whole. -/
def bare (uri : String) : String :=
  String.ofList (uri.toList.reverse.dropWhile (· = '#')).reverse

def ofUri? (uri : String) : Option Draft := all.find? (·.uri = bare uri)

/-- The draft that a schema names, if it names any; the error is a name that is not known. -/
def named (schema : Json) : Except String (Option Draft) :=
  match schema.memberString? "$schema" with
  | none => .ok none
  | some uri =>
    match ofUri? uri with
    | some d => .ok (some d)
    | none => .error (bare uri)

/-- The draft of a schema that is nested in one of draft `d`. -/
def nested (d : Draft) (schema : Json) : Draft :=
  match named schema with
  | .ok none => d
  | .ok (some e) => e
  | .error _ => latest

/-- In earlier drafts a reference stands alone: what is beside it does not count. -/
def referenceStandsAlone (d : Draft) : Bool := !d.since .d201909

/-- Earlier drafts take a format as a condition, later ones as a remark. -/
def checksFormat (d : Draft) : Bool := !d.since .d201909

/-- The name of the member that gives a schema a name of its own. -/
def idName : Draft → String
  | .d4 => "id"
  | _ => "$id"

end Draft

end DeliveryRules.Schema
