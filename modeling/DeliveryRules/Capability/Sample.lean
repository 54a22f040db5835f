import DeliveryRules.Capability.Catalog

/-!
# A sample catalog

A small catalog in which every way of handling variables occurs.
-/

namespace DeliveryRules.Catalog

namespace Sample

private def text : Json := .object [("type", .string "string")]

private def flag : Json := .object [("type", .string "boolean")]

private def texts : Json := .object [("type", .string "array"), ("items", text)]

private def oneOf (names : List String) : Json := .object [("enum", .strings names)]

private def matchOperator : Json := oneOf ["MATCHES_ONE_OF", "DOES_NOT_MATCH_ONE_OF"]

private def options (properties : Members) : Json :=
  .object [("type", .string "object"), ("properties", .object properties)]

def path : Descriptor where
  name := "path"
  optionSchema := options
    [("values", texts), ("matchOperator", matchOperator), ("matchCaseSensitive", flag)]
  defaults := [("matchOperator", .string "MATCHES_ONE_OF"), ("matchCaseSensitive", .bool false)]
  variableHandling := {}

def hostname : Descriptor where
  name := "hostname"
  optionSchema := options [("values", texts), ("matchOperator", matchOperator)]
  defaults := [("matchOperator", .string "MATCHES_ONE_OF")]
  variableHandling := {}

def matchVariable : Descriptor where
  name := "matchVariable"
  optionSchema := options [("variableName", text), ("variableValues", texts)]
  defaults := []
  variableHandling := { names := ["variableName"] }

def caching : Descriptor where
  name := "caching"
  optionSchema := options
    [("behavior", oneOf ["MAX_AGE", "NO_STORE", "BYPASS_CACHE"]), ("ttl", text),
      ("mustRevalidate", flag)]
  defaults := [("behavior", .string "MAX_AGE"), ("mustRevalidate", .bool false)]
  variableHandling := {}

def origin : Descriptor where
  name := "origin"
  optionSchema := options
    [("hostname", text),
      ("forwardHostHeader", oneOf ["REQUEST_HOST_HEADER", "ORIGIN_HOSTNAME"])]
  defaults := [("forwardHostHeader", .string "REQUEST_HOST_HEADER")]
  variableHandling := { inline := ["hostname"] }

def setVariable : Descriptor where
  name := "setVariable"
  optionSchema := options [("variableName", text), ("value", text)]
  defaults := []
  variableHandling := { inline := ["value"], names := ["variableName"] }

def cacheId : Descriptor where
  name := "cacheId"
  optionSchema := options
    [("rule", oneOf ["INCLUDE_VARIABLE", "INCLUDE_HEADERS"]),
      ("variables", .object [("type", .string "array")])]
  defaults := []
  variableHandling := { lists := ["variables"] }

end Sample

def sampleFile : CatalogFile where
  criteria := [Sample.path, Sample.hostname, Sample.matchVariable]
  behaviors := [Sample.caching, Sample.origin, Sample.setVariable, Sample.cacheId]

/-- The sample catalog. Each of its descriptors passes the check of `ofFile`. -/
def sample : Except CompileError Catalog := ofFile sampleFile

end DeliveryRules.Catalog
