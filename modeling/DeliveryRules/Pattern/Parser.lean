import DeliveryRules.Pattern.Basic

/-!
# Reading a pattern

`Pattern.parse?` reads the written form of a pattern: alternatives with `|`, sequences, groups,
repetition with `*`, `+`, `?` and counts in braces, bracketed sets of characters, the anchors `^`,
`$`, `\b` and `\B`, conditions on what comes before or after, and escapes. `\d`, `\w` and `\s` stand
for digits, words and blanks: those of ASCII, or in a pattern with conditions those of any script.

Each reader takes the characters to come and gives back those after what it read.
-/

namespace DeliveryRules.Pattern

/-- How what follows is to be read. Flags in a pattern change it up to the end of their group. -/
structure Mode where
  classes : Classes
  anyCase : Bool := false
  /-- `^` and `$` also hold at the breaks of lines. -/
  lines : Bool := false
  /-- A point also stands for a break of lines. -/
  breaks : Bool := false

namespace Mode

/-- What a set of characters stands for, read without regard to case if that is so. -/
def fold (m : Mode) (s : CharSet) : CharSet := if m.anyCase then .anyCase s else s

/-- Turns a flag on or off. Some flags make no difference to what a pattern describes. -/
def set? (m : Mode) (on : Bool) : Char → Option Mode
  | 'i' => some { m with anyCase := on }
  | 'm' => some { m with lines := on }
  | 's' => some { m with breaks := on }
  | 'U' => some m
  | 'u' => if on then some m else none
  | _ => none

end Mode

private def hexDigitValue? (c : Char) : Option Nat :=
  if c.isDigit then some (c.toNat - '0'.toNat)
  else if 'a' ≤ c && c ≤ 'f' then some (c.toNat - 'a'.toNat + 10)
  else if 'A' ≤ c && c ≤ 'F' then some (c.toNat - 'A'.toNat + 10)
  else none

private def charOfHex? (digits : List Char) : Option Char := do
  if digits.isEmpty then none
  let values ← digits.mapM hexDigitValue?
  let n := values.foldl (fun n d => 16 * n + d) 0
  if h : n.isValidChar then some (Char.ofNatAux n h) else none

/-- A character given by its number: in braces, or with exactly `width` digits. -/
private def hexChar? (width : Nat) (cs : List Char) : Option (Char × List Char) :=
  match cs with
  | '\x7b' :: rest =>
    match rest.span (· ≠ '\x7d') with
    | (digits, _ :: after) => (charOfHex? digits).map (·, after)
    | _ => none
  | _ =>
    if cs.length < width then none
    else (charOfHex? (cs.take width)).map (·, cs.drop width)

/-- The set of characters that a letter after a backslash stands for. -/
private def classOf? (cs : Classes) : Char → Option CharSet
  | 'd' => some cs.digit
  | 'D' => some (.except cs.digit)
  | 'w' => some cs.word
  | 'W' => some (.except cs.word)
  | 's' => some cs.blank
  | 'S' => some (.except cs.blank)
  | _ => none

/-- A character behind a backslash that stands for a single character. -/
private def escapedChar? (cs : List Char) : Option (Char × List Char) :=
  match cs with
  | 'a' :: rest => some ('\x07', rest)
  | 'f' :: rest => some ('\x0c', rest)
  | 't' :: rest => some ('\t', rest)
  | 'n' :: rest => some ('\n', rest)
  | 'r' :: rest => some ('\r', rest)
  | 'v' :: rest => some ('\x0b', rest)
  | 'x' :: rest => hexChar? 2 rest
  | 'u' :: rest => hexChar? 4 rest
  | 'U' :: rest => hexChar? 8 rest
  | 'c' :: c :: rest => if c.isAlpha then some (Char.ofNat (c.toNat % 32), rest) else none
  | c :: rest =>
    if c.toNat < 0x80 && !c.isAlphanum && c ≠ '<' && c ≠ '>' then some (c, rest) else none
  | [] => none

/-- A character of a set, or a whole class of them. -/
private def setItem? (m : Mode) (cs : List Char) : Option ((Char ⊕ CharSet) × List Char) :=
  match cs with
  | '\\' :: rest =>
    match rest with
    | c :: after =>
      match classOf? m.classes c with
      | some set => some (.inr set, after)
      | none => (escapedChar? rest).map fun r => (.inl r.1, r.2)
    | [] => none
  | c :: rest => some (.inl c, rest)
  | [] => none

/-- The items of a set up to its closing bracket. `first` holds before the first item, where a
bracket is a plain character. `fuel` bounds the number of items. -/
private def setItems? (m : Mode) : Nat → Bool → List Char → Option (CharSet × List Char)
  | 0, _, _ => none
  | fuel + 1, first, cs =>
    match cs with
    | [] => none
    | ']' :: rest =>
      if first then do
        let (others, rest) ← setItems? m fuel false rest
        return (.either (m.fold (.one ']')) others, rest)
      else some (.none, rest)
    | '[' :: rest => do
      let (negated, rest) := match rest with
        | '^' :: r => (true, r)
        | r => (false, r)
      let (inner, rest) ← setItems? m fuel true rest
      let (others, rest) ← setItems? m fuel false rest
      return (.either (if negated then .except inner else inner) others, rest)
    | _ => do
      let (item, rest) ← setItem? m cs
      match item with
      | .inr set =>
        let (others, rest) ← setItems? m fuel false rest
        return (.either set others, rest)
      | .inl low =>
        match rest with
        | '-' :: ']' :: _ =>
          let (others, rest) ← setItems? m fuel false rest
          return (.either (m.fold (.one low)) others, rest)
        | '-' :: rest =>
          match ← setItem? m rest with
          | (.inr _, _) => none
          | (.inl high, rest) =>
            if high < low then none
            else
              let (others, rest) ← setItems? m fuel false rest
              return (.either (m.fold (.span low high)) others, rest)
        | rest =>
          let (others, rest) ← setItems? m fuel false rest
          return (.either (m.fold (.one low)) others, rest)

/-- A set, after its opening bracket. -/
private def set? (m : Mode) (cs : List Char) : Option (CharSet × List Char) :=
  match cs with
  | '^' :: rest => (setItems? m (rest.length + 1) true rest).map fun r => (.except r.1, r.2)
  | _ => setItems? m (cs.length + 1) true cs

private def decimal? (cs : List Char) : Option (Nat × List Char) :=
  match cs.span Char.isDigit with
  | ([], _) => none
  | (digits, rest) => some (digits.foldl (fun n c => 10 * n + (c.toNat - '0'.toNat)) 0, rest)

/-- Counts, after their opening brace. -/
private def counts? (cs : List Char) : Option (Times × List Char) := do
  let (least, rest) ← decimal? cs
  match rest with
  | '\x7d' :: rest => some (⟨least, some least⟩, rest)
  | ',' :: '\x7d' :: rest => some (⟨least, none⟩, rest)
  | ',' :: rest =>
    match ← decimal? rest with
    | (most, '\x7d' :: rest) => if least ≤ most then some (⟨least, some most⟩, rest) else none
    | _ => none
  | _ => none

/-- What says how often the part before it may be repeated, if there is such a thing here. The
outer option is `none` for broken counts. -/
private def times? (cs : List Char) : Option (Option (Times × List Char)) :=
  let lazily (rest : List Char) : List Char :=
    match rest with
    | '?' :: r => r
    | r => r
  match cs with
  | '*' :: rest => some (some (⟨0, none⟩, lazily rest))
  | '+' :: rest => some (some (⟨1, none⟩, lazily rest))
  | '?' :: rest => some (some (⟨0, some 1⟩, lazily rest))
  | '\x7b' :: rest => (counts? rest).map fun (times, rest) => some (times, lazily rest)
  | _ => some none

/-- A part with everything that repeats it. -/
private def withTimes? : Nat → Pattern → List Char → Option (Pattern × List Char)
  | 0, _, _ => none
  | fuel + 1, p, cs => do
    match ← times? cs with
    | none => return (p, cs)
    | some (times, rest) => withTimes? fuel (.repeated p times) rest

/-- A character behind a backslash outside of a set. -/
private def escape? (m : Mode) (cs : List Char) : Option (Pattern × List Char) :=
  match cs with
  | [] => none
  | 'b' :: rest => some (.wordEdge true, rest)
  | 'B' :: rest => some (.wordEdge false, rest)
  | 'A' :: rest => some (.textStart, rest)
  | 'z' :: rest => some (.textEnd, rest)
  | c :: rest =>
    match classOf? m.classes c with
    | some set => some (.char set, rest)
    | none => (escapedChar? cs).map fun r => (.char (m.fold (.one r.1)), r.2)

/-- What an opening parenthesis starts: a function of what the group holds. -/
private def groupKind? (cs : List Char) : Option ((Pattern → Pattern) × List Char) :=
  match cs with
  | '?' :: ':' :: rest => some (id, rest)
  | '?' :: '=' :: rest => some (.ahead true, rest)
  | '?' :: '!' :: rest => some (.ahead false, rest)
  | '?' :: '<' :: '=' :: rest => some (.behind true, rest)
  | '?' :: '<' :: '!' :: rest => some (.behind false, rest)
  | '?' :: 'P' :: '<' :: rest => named rest
  | '?' :: '<' :: rest => named rest
  | '?' :: _ => none
  | _ => some (id, cs)
where
  named (cs : List Char) : Option ((Pattern → Pattern) × List Char) :=
    match cs.span fun c => c.isAlphanum || c = '_' with
    | ([], _) => none
    | (c :: _, '>' :: rest) => if c.isDigit then none else some (id, rest)
    | _ => none

/-- Flags behind an opening parenthesis and its question mark, up to the sign that ends them. Those
behind a dash are turned off; `bare` holds as long as none has followed what comes before. -/
private def flags? (on bare : Bool) : Mode → List Char → Option (Mode × List Char)
  | _, [] => none
  | m, ')' :: rest => if bare then none else some (m, ')' :: rest)
  | m, ':' :: rest => if bare then none else some (m, ':' :: rest)
  | m, '-' :: rest => if on then flags? false true m rest else none
  | m, c :: rest => do flags? on false (← m.set? on c) rest

/-- A single part, not repeated. `inner` reads what a group holds. -/
private def part? (inner : Mode → List Char → Option (Pattern × List Char)) (m : Mode)
    (cs : List Char) : Option (Pattern × List Char) :=
  match cs with
  | [] => none
  | '(' :: rest => do
    let (kind, inside, rest) ← match groupKind? rest with
      | some (kind, rest) => some (kind, m, rest)
      | none =>
        match flags? true true m (rest.drop 1) with
        | some (inside, ':' :: rest) => some (id, inside, rest)
        | _ => none
    match ← inner inside rest with
    | (p, ')' :: rest) => some (kind p, rest)
    | _ => none
  | '[' :: rest => (set? m rest).map fun r => (.char r.1, r.2)
  | '\\' :: rest => escape? m rest
  | '^' :: rest => some (if m.lines then .lineStart else .textStart, rest)
  | '$' :: rest => some (if m.lines then .lineEnd else .textEnd, rest)
  | '.' :: rest => some (.char (if m.breaks then .except .none else .anyInLine), rest)
  | c :: rest =>
    if c = '*' || c = '+' || c = '?' || c = '\x7b' then none
    else some (.char (m.fold (.one c)), rest)

/-- The mode that flags set for the rest of their group, if such flags are here. -/
private def modeChange? (m : Mode) (cs : List Char) : Option (Mode × List Char) :=
  match cs with
  | '(' :: '?' :: rest =>
    match flags? true true m rest with
    | some (changed, ')' :: rest) => some (changed, rest)
    | _ => none
  | _ => none

/-- Parts in sequence and their alternatives, up to a closing parenthesis or the end. -/
private def alternatives? : Nat → Mode → List Char → Option (Pattern × List Char)
  | 0, _, _ => none
  | fuel + 1, m, cs =>
    match cs, modeChange? m cs with
    | [], _ => some (.empty, [])
    | ')' :: _, _ => some (.empty, cs)
    | '|' :: rest, _ => do
      let (q, rest) ← alternatives? fuel m rest
      return (.choice .empty q, rest)
    | _, some (changed, rest) => alternatives? fuel changed rest
    | _, none => do
      let (p, rest) ← part? (alternatives? fuel) m cs
      let (p, rest) ← withTimes? (rest.length + 1) p rest
      match ← alternatives? fuel m rest with
      | (.choice q r, rest) => return (.choice (.seq p q) r, rest)
      | (q, rest) => return (.seq p q, rest)

private def parseWith? (classes : Classes) (cs : List Char) : Option Pattern :=
  match alternatives? (cs.length + 1) ⟨classes, false, false, false⟩ cs with
  | some (p, []) => some p
  | _ => none

def parse? (text : String) : Option Pattern := do
  let p ← parseWith? .narrow text.toList
  if p.hasCondition then parseWith? .wide text.toList else some p

end DeliveryRules.Pattern
