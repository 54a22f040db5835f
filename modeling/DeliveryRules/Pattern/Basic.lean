import DeliveryRules.Text.Category

/-!
# Patterns of text

A pattern describes parts of a text. Its meaning is where such parts end: `Pattern.ends text p i`
lists the positions at which a part that starts at `i` may end. Positions count characters.

* `CharSet`: the characters that may stand at one position.
* `Pattern.occursIn`: whether some part of a text is as described.
-/

namespace DeliveryRules

inductive CharSet where
  | span (first last : Char)
  | listed (table : Text.CharTable)
  | either (s t : CharSet)
  | except (s : CharSet)
  /-- A set with the other case of its letters, of those in ASCII. -/
  | anyCase (s : CharSet)
  | none
deriving Repr

namespace CharSet

/-- A letter of ASCII in its other case. -/
def otherCase (c : Char) : Char := if c.isUpper then c.toLower else c.toUpper

def contains (c : Char) : CharSet → Bool
  | .span first last => first ≤ c && c ≤ last
  | .listed table => table.contains c
  | .either s t => s.contains c || t.contains c
  | .except s => !s.contains c
  | .anyCase s => s.contains c || s.contains (otherCase c)
  | .none => false

def one (c : Char) : CharSet := .span c c

def ofChars (cs : List Char) : CharSet :=
  cs.foldr (fun c s => .either (one c) s) .none

def lower : CharSet := .span 'a' 'z'

def upper : CharSet := .span 'A' 'Z'

def anyInLine : CharSet := .except (one '\n')

end CharSet

/-- The sets that have a letter of their own. -/
structure Classes where
  digit : CharSet
  word : CharSet
  blank : CharSet

namespace Classes

/-- Digits and names of ASCII. -/
def narrow : Classes where
  digit := .span '0' '9'
  word := .either (.either .lower .upper) (.either (.span '0' '9') (.one '_'))
  blank :=
    .ofChars [' ', '\t', '\n', '\r', '\x0b', '\x0c', '\u00a0', '\ufeff', '\u2003', '\u2029']

/-- Digits, words and blanks of any script. -/
def wide : Classes where
  digit := .listed Text.digits
  word := .either (.either (.listed Text.letters) (.listed Text.marks))
    (.either (.either (.listed Text.digits) (.listed Text.connectors)) (.span '\u200c' '\u200d'))
  blank :=
    .either (.span '\t' '\r') (.either (.ofChars [' ', '\u0085', '\u00a0', '\u1680', '\u2028',
      '\u2029', '\u202f', '\u205f', '\u3000']) (.span '\u2000' '\u200a'))

end Classes

/-- How often something may be repeated; without `most` as often as one likes. -/
structure Times where
  least : Nat
  most : Option Nat
deriving Repr

inductive Pattern where
  | empty
  | char (set : CharSet)
  | textStart
  | textEnd
  | lineStart
  | lineEnd
  /-- The edge of a word, or with `present` false any other position. -/
  | wordEdge (present : Bool)
  | seq (p q : Pattern)
  | choice (p q : Pattern)
  | repeated (p : Pattern) (times : Times)
  /-- A part described by `p` starts here, or with `present` false does not. -/
  | ahead (present : Bool) (p : Pattern)
  /-- A part described by `p` ends here, or with `present` false does not. -/
  | behind (present : Bool) (p : Pattern)
deriving Repr

namespace Pattern

/-- The positions that are reached by exactly `n` steps from one of `from`. -/
def afterExactly (step : Nat → List Nat) : Nat → List Nat → List Nat
  | 0, starts => starts
  | n + 1, starts => afterExactly step n (starts.flatMap step).eraseDups

/-- The positions that are reached by at most `n` steps. -/
def afterAtMost (step : Nat → List Nat) : Nat → List Nat → List Nat
  | 0, starts => starts
  | n + 1, starts =>
    let further := (starts.flatMap step).eraseDups.filter (!starts.contains ·)
    (starts ++ afterAtMost step n further).eraseDups

def isWordAt (text : Array Char) (i : Nat) : Bool := text[i]?.any Text.isWordChar

def isBreakAt (text : Array Char) (i : Nat) : Bool := text[i]? = some '\n'

def isWordEdge (text : Array Char) (i : Nat) : Bool :=
  (0 < i && isWordAt text (i - 1)) != isWordAt text i

/-- Where the parts of `text` that start at `i` may end. -/
def ends (text : Array Char) : Pattern → Nat → List Nat
  | .empty, i => [i]
  | .char set, i =>
    match text[i]? with
    | some c => if set.contains c then [i + 1] else []
    | none => []
  | .textStart, i => if i = 0 then [i] else []
  | .textEnd, i => if i = text.size then [i] else []
  | .lineStart, i => if i = 0 || isBreakAt text (i - 1) then [i] else []
  | .lineEnd, i => if i = text.size || isBreakAt text i then [i] else []
  | .wordEdge present, i => if isWordEdge text i = present then [i] else []
  | .seq p q, i => ((ends text p i).flatMap (ends text q)).eraseDups
  | .choice p q, i => (ends text p i ++ ends text q i).eraseDups
  | .repeated p times, i =>
    let starts := afterExactly (ends text p) times.least [i]
    let more := match times.most with
      | some most => most - times.least
      | none => text.size + 1
    afterAtMost (ends text p) more starts
  | .ahead present p, i => if (ends text p i).isEmpty = present then [] else [i]
  | .behind present p, i =>
    if (List.range (i + 1)).any (fun k => (ends text p k).contains i) = present then [i] else []

/-- Whether anything depends on what comes before or after. -/
def hasCondition : Pattern → Bool
  | .seq p q => p.hasCondition || q.hasCondition
  | .choice p q => p.hasCondition || q.hasCondition
  | .repeated p _ => p.hasCondition
  | .ahead _ _ => true
  | .behind _ _ => true
  | _ => false

def occursIn (p : Pattern) (text : String) : Bool :=
  let chars := text.toList.toArray
  (List.range (chars.size + 1)).any fun i => !(ends chars p i).isEmpty

end Pattern

end DeliveryRules
