import DeliveryRules.Text.Line

/-!
# Offsets and lines

The offset of a place in a text is the number of bytes before it, and the line is known from the
line feeds before it (`lineAt_append`).
-/

namespace DeliveryRules.Text

theorem byteCount_append (cs ds : List Char) :
    byteCount (cs ++ ds) = byteCount cs + byteCount ds := by
  induction cs with
  | nil => simp [byteCount]
  | cons c cs ih => simp [byteCount, ih, Nat.add_assoc]

theorem byteCount_cons_eq (c : Char) (cs : List Char) : ∃ n, byteCount (c :: cs) = n + 1 := by
  have hc := Char.utf8Size_pos c
  exact ⟨c.utf8Size - 1 + byteCount cs, by rw [byteCount]; omega⟩

/-- The bytes that are counted are those of the string. -/
theorem utf8ByteSize_ofList (cs : List Char) :
    (String.ofList cs).utf8ByteSize = byteCount cs := by
  induction cs with
  | nil => rfl
  | cons c cs ih =>
    rw [String.ofList_cons, String.utf8ByteSize_append, String.utf8ByteSize_singleton, ih,
      byteCount]

theorem breaksBefore_append (cs ds : List Char) :
    breaksBefore (cs ++ ds) (byteCount cs) = cs.count '\n' := by
  induction cs with
  | nil => cases ds <;> rfl
  | cons c cs ih =>
    obtain ⟨n, hn⟩ := byteCount_cons_eq c cs
    rw [List.cons_append, hn, breaksBefore, ← hn, byteCount, Nat.add_sub_cancel_left, ih,
      List.count_cons, Nat.add_comm]
    simp

theorem lineAt_append (cs ds : List Char) :
    lineAt (cs ++ ds) (byteCount cs) = cs.count '\n' + 1 := by
  rw [lineAt, breaksBefore_append]

end DeliveryRules.Text
