/-!
# Text as characters

Readers and scanners work on the characters still to come, a `List Char`, and a place in a text is
the part of the text from there on. Offsets are counted in UTF-8 bytes.

* `byteCount`: the number of bytes of some characters.
* `isBlank`: the Unicode property White_Space. `trim` removes such characters at both ends.
* `cut`: the pieces between the occurrences of a separator.
-/

namespace DeliveryRules.Text

/-- The number of bytes that `cs` takes in UTF-8. -/
def byteCount : List Char → Nat
  | [] => 0
  | c :: cs => c.utf8Size + byteCount cs

/-- The Unicode property White_Space, which the byte order mark does not have. -/
def isBlank (c : Char) : Bool :=
  let n := c.toNat
  (9 ≤ n && n ≤ 13) || n == 0x20 || n == 0x85 || n == 0xA0 || n == 0x1680 ||
    (0x2000 ≤ n && n ≤ 0x200A) || n == 0x2028 || n == 0x2029 || n == 0x202F || n == 0x205F ||
    n == 0x3000

/-- `cs` without the characters at its end that satisfy `p`. -/
def dropWhileEnd (p : Char → Bool) : List Char → List Char
  | [] => []
  | c :: cs =>
    match dropWhileEnd p cs with
    | [] => if p c then [] else [c]
    | d :: ds => c :: d :: ds

def trim (cs : List Char) : List Char :=
  dropWhileEnd isBlank (cs.dropWhile isBlank)

/-- What follows `lead` in `cs`, if `cs` starts with it. -/
def afterPrefix? : List Char → List Char → Option (List Char)
  | [], cs => some cs
  | _ :: _, [] => none
  | l :: ls, c :: cs => if l = c then afterPrefix? ls cs else none

/-- The pieces of `cs` between the occurrences of `sep`: always one more than there are
separators. -/
def cut (sep : Char) : List Char → List (List Char)
  | [] => [[]]
  | c :: cs =>
    if c = sep then [] :: cut sep cs
    else
      match cut sep cs with
      | [] => [[c]]
      | p :: ps => (c :: p) :: ps

/-- The pieces with `sep` between them. -/
def glue (sep : List Char) : List (List Char) → List Char
  | [] => []
  | [p] => p
  | p :: q :: ps => p ++ sep ++ glue sep (q :: ps)

/-- `cs` with every occurrence of the pair `a`, `b` replaced by `into`, from left to right. -/
def replacePair (a b : Char) (into : List Char) : List Char → List Char
  | [] => []
  | [c] => [c]
  | c :: d :: cs =>
    if c = a ∧ d = b then into ++ replacePair a b into cs
    else c :: replacePair a b into (d :: cs)

/-- Every occurrence of `a` replaced by `into`. -/
def replaceChar (a : Char) (into : List Char) (cs : List Char) : List Char :=
  cs.flatMap fun c => if c = a then into else [c]

end DeliveryRules.Text
