import DeliveryRules.Proofs.Text.Cut
import DeliveryRules.Proofs.Text.Lines

/-!
# Excerpts of lines

What is shown of the line around a byte offset.

* `Around`, `OnLine`: what stands on a line, without reference to line numbers.
* **One notion of a line** (`lineContent_lineAt`): the line feeds before the offset lead to the
  piece of the text that the offset is in. `lines` reads a text line by line, where a line may
  also end with a carriage return and a line feed and the last end may be left out; trimmed, this
  is the same (`trim_lines`).
* **Width** (`excerpt_lineAt`): a line that fits is shown whole and any other by its start. From
  width three on the excerpt fits; below that the ellipsis alone is too long
  (`excerpt_lineAt_narrow`).
-/

namespace DeliveryRules.Text

/-- The byte offset is in `content` or at its end, and `content` is all of its line: line feeds or
the ends of the text surround it, and none is in it. -/
structure Around (text : List Char) (offset : Nat) (before content after : List Char) : Prop where
  parts : text = before ++ (content ++ after)
  opens : before = [] ∨ ∃ earlier, before = earlier ++ ['\n']
  unbroken : '\n' ∉ content
  closes : after = [] ∨ ∃ later, after = '\n' :: later
  start : byteCount before ≤ offset
  stop : offset ≤ byteCount before + byteCount content

/-- `content` is what stands on the line of `text` that holds the byte at `offset`. -/
def OnLine (text : List Char) (offset : Nat) (content : List Char) : Prop :=
  ∃ before after, Around text offset before content after

/-! ## Numbers of lines -/

theorem breaksBefore_zero (cs : List Char) : breaksBefore cs 0 = 0 := by
  cases cs <;> rfl

theorem breaksBefore_append_add (cs ds : List Char) (n : Nat) :
    breaksBefore (cs ++ ds) (byteCount cs + n) = cs.count '\n' + breaksBefore ds n := by
  induction cs with
  | nil => simp [byteCount]
  | cons c cs ih =>
    obtain ⟨m, hm⟩ := byteCount_cons_eq c cs
    have hoffset : byteCount (c :: cs) + n = m + n + 1 := by omega
    have hbelow : m + n + 1 - c.utf8Size = byteCount cs + n := by
      rw [← hoffset, byteCount]
      omega
    rw [List.cons_append, hoffset, breaksBefore, hbelow, ih, List.count_cons]
    simp only [beq_iff_eq]
    omega

/-- Up to the first line feed no line ends, also where the offset is inside a character. -/
theorem breaksBefore_unbroken {content : List Char} (h : '\n' ∉ content) {n : Nat}
    (hn : n ≤ byteCount content) (after : List Char) :
    breaksBefore (content ++ after) n = 0 := by
  induction content generalizing n with
  | nil =>
    obtain rfl : n = 0 := Nat.le_zero.mp hn
    exact breaksBefore_zero _
  | cons c cs ih =>
    obtain ⟨hc, hcs⟩ := not_or.mp (mt List.mem_cons.mpr h)
    cases n with
    | zero => rfl
    | succ n =>
      rw [byteCount] at hn
      rw [List.cons_append, breaksBefore, if_neg (Ne.symm hc), ih hcs (by omega)]

theorem length_cut (sep : Char) (cs : List Char) : (cut sep cs).length = cs.count sep + 1 := by
  induction cs with
  | nil => rfl
  | cons c cs ih =>
    rw [cut, List.count_cons]
    by_cases hc : c = sep
    · rw [if_pos hc, List.length_cons, ih, if_pos (beq_iff_eq.mpr hc)]
    · rw [if_neg hc, if_neg (mt beq_iff_eq.mp hc), ← ih]
      cases hpieces : cut sep cs with
      | nil => rw [hpieces] at ih; simp at ih
      | cons piece pieces => rfl

theorem head?_cut_unbroken {content after : List Char} (h : '\n' ∉ content)
    (hafter : after = [] ∨ ∃ later, after = '\n' :: later) :
    (cut '\n' (content ++ after))[0]? = some content := by
  rcases hafter with rfl | ⟨later, rfl⟩
  · rw [List.append_nil, cut_of_notMem h]
    rfl
  · rw [cut_append_cons h]
    rfl

namespace Around

variable {text before content after : List Char} {offset : Nat}

theorem lineAt_eq (h : Around text offset before content after) :
    lineAt text offset = before.count '\n' + 1 := by
  obtain ⟨n, rfl⟩ := Nat.exists_eq_add_of_le h.start
  rw [lineAt, h.parts, breaksBefore_append_add,
    breaksBefore_unbroken h.unbroken (Nat.le_of_add_le_add_left h.stop), Nat.add_zero]

theorem lineContent_eq (h : Around text offset before content after) :
    lineContent text (before.count '\n' + 1) = content := by
  have hhead := head?_cut_unbroken h.unbroken h.closes
  rw [lineContent, h.parts, Nat.add_sub_cancel]
  rcases h.opens with rfl | ⟨earlier, rfl⟩
  · rw [List.nil_append, List.count_nil, hhead, Option.getD_some]
  · -- the pieces before the line are those of the text up to its last line feed
    have hpieces : cut '\n' (earlier ++ ['\n'] ++ (content ++ after)) =
        cut '\n' earlier ++ cut '\n' (content ++ after) := by
      simp only [cut_eq_splitOn, List.append_assoc, List.singleton_append,
        List.splitOn_append_cons_self]
    have hcount : (earlier ++ ['\n']).count '\n' = (cut '\n' earlier).length := by
      rw [length_cut, List.count_append, List.count_singleton_self]
    rw [hpieces, hcount, List.getElem?_append_right (Nat.le_refl _), Nat.sub_self, hhead,
      Option.getD_some]

theorem cons_break (h : Around text offset before content after) :
    Around ('\n' :: text) (offset + 1) ('\n' :: before) content after where
  parts := by rw [h.parts]; rfl
  opens := by
    rcases h.opens with rfl | ⟨earlier, rfl⟩
    · exact .inr ⟨[], rfl⟩
    · exact .inr ⟨'\n' :: earlier, rfl⟩
  unbroken := h.unbroken
  closes := h.closes
  start := by
    have := h.start
    rw [byteCount, show Char.utf8Size '\n' = 1 from rfl]
    omega
  stop := by
    have := h.stop
    rw [byteCount, show Char.utf8Size '\n' = 1 from rfl]
    omega

end Around

/-- The line numbered by the line feeds before the offset is the line around the offset. -/
theorem lineContent_lineAt {text : List Char} {offset : Nat} {content : List Char}
    (h : OnLine text offset content) : lineContent text (lineAt text offset) = content := by
  obtain ⟨before, after, h⟩ := h
  rw [h.lineAt_eq, h.lineContent_eq]

theorem onLine_zero (text : List Char) : ∃ content, OnLine text 0 content := by
  refine ⟨text.takeWhile (· != '\n'), [], text.dropWhile (· != '\n'), ?_, .inl rfl, ?_, ?_,
    Nat.le_refl _, Nat.zero_le _⟩
  · rw [List.takeWhile_append_dropWhile, List.nil_append]
  · intro hmem
    simpa using List.all_eq_true.mp List.all_takeWhile _ hmem
  · cases hrest : text.dropWhile (· != '\n') with
    | nil => exact .inl rfl
    | cons c later =>
      have hc := List.head?_dropWhile_not (· != '\n') text
      rw [hrest, List.head?_cons] at hc
      exact .inr ⟨later, by simpa using hc⟩

/-- There is a line around every offset up to the length of the text. -/
theorem exists_onLine {text : List Char} {offset : Nat} (h : offset ≤ byteCount text) :
    ∃ content, OnLine text offset content := by
  induction text generalizing offset with
  | nil =>
    obtain rfl : offset = 0 := Nat.le_zero.mp h
    exact onLine_zero []
  | cons c cs ih =>
    cases offset with
    | zero => exact onLine_zero (c :: cs)
    | succ n =>
      rw [byteCount] at h
      by_cases hc : c = '\n'
      · subst hc
        rw [show Char.utf8Size '\n' = 1 from rfl] at h
        have hn : n ≤ byteCount cs := by omega
        obtain ⟨content, before, after, haround⟩ := ih hn
        exact ⟨content, '\n' :: before, after, haround.cons_break⟩
      · have hn : n + 1 - c.utf8Size ≤ byteCount cs := by omega
        obtain ⟨content, before, after, haround⟩ := ih hn
        obtain ⟨hparts, hopens, hunbroken, hcloses, hstart, hstop⟩ := haround
        rcases hopens with rfl | ⟨earlier, rfl⟩
        -- the character belongs to the line, or to an earlier one
        · refine ⟨c :: content, [], after, by rw [hparts]; rfl, .inl rfl, ?_, hcloses,
            Nat.zero_le _, ?_⟩
          · rw [List.mem_cons, not_or]
            exact ⟨Ne.symm hc, hunbroken⟩
          · rw [byteCount] at hstop ⊢
            rw [byteCount]
            omega
        · have hpos : 0 < byteCount (earlier ++ ['\n']) := by
            rw [byteCount_append]
            exact Nat.lt_of_lt_of_le Nat.one_pos (Nat.le_add_left _ _)
          refine ⟨content, c :: (earlier ++ ['\n']), after, by rw [hparts]; rfl,
            .inr ⟨c :: earlier, rfl⟩, hunbroken, hcloses, ?_, ?_⟩
          · rw [byteCount]
            omega
          · rw [byteCount]
            omega

/-! ## Lines with either end -/

/-- The lines of a text, each with the line feed that ends it. After the last line feed there is
one more line only where anything follows. -/
def endedLines : List Char → List (List Char)
  | [] => []
  | c :: cs =>
    if c = '\n' then [c] :: endedLines cs
    else (c :: (endedLines cs).headD []) :: (endedLines cs).tail

/-- A line without its end: a line feed, or a carriage return and a line feed. -/
def withoutEnd (line : List Char) : List Char :=
  match line.reverse with
  | '\n' :: '\r' :: cs => cs.reverse
  | '\n' :: cs => cs.reverse
  | _ => line

def lines (text : List Char) : List (List Char) :=
  (endedLines text).map withoutEnd

theorem dropWhileEnd_concat {p : Char → Bool} {c : Char} (h : p c = true) (cs : List Char) :
    dropWhileEnd p (cs ++ [c]) = dropWhileEnd p cs := by
  induction cs with
  | nil => simp [dropWhileEnd, h]
  | cons d ds ih => rw [List.cons_append, dropWhileEnd, dropWhileEnd, ih]

theorem trim_concat {c : Char} (h : isBlank c = true) (cs : List Char) :
    trim (cs ++ [c]) = trim cs := by
  rw [trim, List.dropWhile_append]
  split
  · rename_i hempty
    rw [trim, List.isEmpty_iff.mp hempty, List.dropWhile_cons_of_pos h]
    rfl
  · exact dropWhileEnd_concat h _

theorem trim_withoutEnd (line : List Char) : trim (withoutEnd line) = trim line := by
  rw [withoutEnd]
  split
  · rename_i cs heq
    rw [List.reverse_eq_iff.mp heq, List.reverse_cons, List.reverse_cons,
      trim_concat (by decide), trim_concat (by decide)]
  · rename_i cs _ heq
    rw [List.reverse_eq_iff.mp heq, List.reverse_cons, trim_concat (by decide)]
  · rfl

theorem cut_cons_of_ne {sep c : Char} (h : c ≠ sep) (cs : List Char) :
    cut sep (c :: cs) = (c :: (cut sep cs).headD []) :: (cut sep cs).tail := by
  rw [cut, if_neg h]
  cases cut sep cs <;> rfl

/-- The two ways to read lines differ only in what ends them. -/
theorem getD_endedLines (text : List Char) (i : Nat) :
    (endedLines text)[i]?.getD [] = (cut '\n' text)[i]?.getD [] ∨
      (endedLines text)[i]?.getD [] = (cut '\n' text)[i]?.getD [] ++ ['\n'] := by
  induction text generalizing i with
  | nil => cases i <;> exact .inl rfl
  | cons c cs ih =>
    rw [endedLines]
    by_cases hc : c = '\n'
    · rw [if_pos hc, cut, if_pos hc]
      cases i with
      | zero => exact .inr (by rw [hc]; rfl)
      | succ i => exact ih i
    · rw [if_neg hc, cut_cons_of_ne hc]
      have hi := ih i
      cases i with
      | zero =>
        simp only [← List.head?_eq_getElem?, ← List.headD_eq_head?_getD] at hi
        simpa using hi
      | succ i => simpa using hi

/-- Reading a text line by line, with either end of a line, gives the same trimmed content. -/
theorem trim_lines (text : List Char) (line : Nat) :
    trim ((lines text)[line - 1]?.getD []) = trim (lineContent text line) := by
  have hends : trim ((lines text)[line - 1]?.getD []) =
      trim ((endedLines text)[line - 1]?.getD []) := by
    rw [lines, List.getElem?_map]
    cases (endedLines text)[line - 1]? with
    | none => rfl
    | some l => exact trim_withoutEnd l
  rw [hends, lineContent]
  rcases getD_endedLines text (line - 1) with heq | heq
  · rw [heq]
  · rw [heq, trim_concat (by decide)]

/-! ## Excerpts -/

section Excerpt

variable {text : List Char} {line width : Nat}

theorem excerpt_of_le (h : (trim (lineContent text line)).length ≤ width) :
    excerpt text line width = trim (lineContent text line) :=
  if_pos h

theorem excerpt_of_lt (h : width < (trim (lineContent text line)).length) :
    excerpt text line width = (trim (lineContent text line)).take (width - 3) ++ ellipsis :=
  if_neg (Nat.not_le.mpr h)

theorem length_excerpt_of_lt (h : width < (trim (lineContent text line)).length) :
    (excerpt text line width).length = width - 3 + 3 := by
  rw [excerpt_of_lt h, List.length_append, List.length_take_of_le (by omega)]
  rfl

/-- An excerpt fits its width, unless the width has no room for the ellipsis. -/
theorem length_excerpt_le_iff :
    (excerpt text line width).length ≤ width ↔
      (trim (lineContent text line)).length ≤ width ∨ 3 ≤ width := by
  rcases Nat.lt_or_ge width (trim (lineContent text line)).length with h | h
  · rw [length_excerpt_of_lt h]
    omega
  · rw [excerpt_of_le h]
    exact ⟨.inl, fun _ => h⟩

end Excerpt

/-- Around every offset of a text there is exactly one line, and the excerpt is of that line: its
trimmed content where that fits the width, and otherwise as much of its start as leaves room for
the ellipsis. The excerpt fits a width of three or more, and a smaller one only when it shows the
line whole. -/
theorem excerpt_lineAt {text : List Char} {offset : Nat} (h : offset ≤ byteCount text) :
    ∃ content, (∀ other, OnLine text offset other ↔ other = content) ∧
      trim ((lines text)[lineAt text offset - 1]?.getD []) = trim content ∧
      ∀ width,
        ((trim content).length ≤ width →
          excerpt text (lineAt text offset) width = trim content) ∧
        (width < (trim content).length → ∃ start, start <+: trim content ∧
          start.length = width - 3 ∧
          excerpt text (lineAt text offset) width = start ++ ellipsis) ∧
        ((excerpt text (lineAt text offset) width).length ≤ width ↔
          (trim content).length ≤ width ∨ 3 ≤ width) := by
  obtain ⟨content, honline⟩ := exists_onLine h
  have hcontent := lineContent_lineAt honline
  refine ⟨content, fun other => ⟨fun hother => ?_, ?_⟩, ?_, fun width => ⟨?_, ?_, ?_⟩⟩
  · rw [← lineContent_lineAt hother, hcontent]
  · rintro rfl
    exact honline
  · rw [trim_lines, hcontent]
  · intro hfits
    rw [← hcontent] at hfits ⊢
    exact excerpt_of_le hfits
  · intro hlong
    refine ⟨(trim content).take (width - 3), List.take_prefix _ _,
      List.length_take_of_le (by omega), ?_⟩
    rw [← hcontent] at hlong ⊢
    exact excerpt_of_lt hlong
  · rw [← hcontent]
    exact length_excerpt_le_iff

/-- The offset is at the end of the second line, before its carriage return. -/
theorem excerpt_lineAt_indented :
    16 ≤ byteCount "given:\n  rule: old\r\n".toList ∧
      excerpt "given:\n  rule: old\r\n".toList (lineAt "given:\n  rule: old\r\n".toList 16) 7 =
        "rule...".toList := by
  have h : 16 ≤ byteCount "given:\n  rule: old\r\n".toList := by decide
  obtain ⟨content, honly, -, hwidth⟩ := excerpt_lineAt h
  have hcontent : "  rule: old\r".toList = content :=
    (honly _).mp ⟨"given:\n".toList, "\n".toList, by decide, .inr ⟨"given:".toList, by decide⟩,
      by decide, .inr ⟨[], by decide⟩, by decide, by decide⟩
  subst hcontent
  obtain ⟨start, hprefix, hlength, hexcerpt⟩ := (hwidth 7).2.1 (by decide)
  have hstart : start = "rule".toList := by
    rw [List.prefix_iff_eq_take.mp hprefix, hlength]
    decide
  exact ⟨h, by rw [hexcerpt, hstart]; decide⟩

/-- At width two the ellipsis alone is a character too long. -/
theorem excerpt_lineAt_narrow :
    0 ≤ byteCount "abcd".toList ∧ OnLine "abcd".toList 0 "abcd".toList ∧
      excerpt "abcd".toList (lineAt "abcd".toList 0) 2 = "...".toList ∧
      ¬ (excerpt "abcd".toList (lineAt "abcd".toList 0) 2).length ≤ 2 :=
  ⟨by decide, ⟨[], [], by decide, .inl rfl, by decide, .inl rfl, by decide, by decide⟩,
    by decide, by decide⟩

end DeliveryRules.Text
