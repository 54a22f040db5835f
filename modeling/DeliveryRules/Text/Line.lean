import DeliveryRules.Text.Basic

/-!
# Lines of a text

Lines are numbered from one and end at a line feed.

* `lineAt text offset`: the line that holds the byte at `offset`; past the end, the last line.
* `excerpt text line width`: the trimmed content of a line, cut to a width in characters.
-/

namespace DeliveryRules.Text

/-- The number of line feeds among the characters that start before byte `offset`. -/
def breaksBefore : List Char → Nat → Nat
  | [], _ => 0
  | _ :: _, 0 => 0
  | c :: cs, offset + 1 =>
    (if c = '\n' then 1 else 0) + breaksBefore cs (offset + 1 - c.utf8Size)

def lineAt (text : List Char) (offset : Nat) : Nat :=
  breaksBefore text offset + 1

/-- The content of a line, empty where the text has no such line. -/
def lineContent (text : List Char) (line : Nat) : List Char :=
  (cut '\n' text)[line - 1]?.getD []

/-- The mark that ends an excerpt which does not show the whole line. -/
def ellipsis : List Char := ['.', '.', '.']

/-- A line that fits `width` is shown whole. Otherwise its start is shown and the ellipsis, which
stays even where `width` has no room for it. -/
def excerpt (text : List Char) (line width : Nat) : List Char :=
  let content := trim (lineContent text line)
  if content.length ≤ width then content
  else content.take (width - ellipsis.length) ++ ellipsis

end DeliveryRules.Text
