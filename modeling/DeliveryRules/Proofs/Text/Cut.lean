import DeliveryRules.Text.Basic

/-!
# Pieces of texts

What follows the start of a text is all but that start (`afterPrefix?_eq_some`). Cutting a text is
splitting its characters (`cut_eq_splitOn`), and no piece has the separator in it
(`notMem_of_mem_cut`).
-/

namespace DeliveryRules.Text

theorem afterPrefix?_append (lead cs : List Char) :
    afterPrefix? lead (lead ++ cs) = some cs := by
  induction lead with
  | nil => rfl
  | cons l ls ih => rw [List.cons_append, afterPrefix?, if_pos rfl, ih]

theorem afterPrefix?_eq_some {lead cs rest : List Char} :
    afterPrefix? lead cs = some rest ↔ cs = lead ++ rest := by
  constructor
  · intro h
    induction lead generalizing cs with
    | nil => exact Option.some.inj h
    | cons l ls ih =>
      cases cs with
      | nil => cases h
      | cons c cs =>
        rw [afterPrefix?] at h
        split at h
        · rename_i heq
          rw [heq, ih h, List.cons_append]
        · cases h
  · rintro rfl
    exact afterPrefix?_append lead rest

theorem cut_eq_splitOn (sep : Char) (cs : List Char) : cut sep cs = cs.splitOn sep := by
  induction cs with
  | nil => rfl
  | cons c cs ih =>
    rw [cut, List.splitOn_cons_eq_if_modifyHead, ih]
    by_cases hc : c = sep
    · rw [if_pos hc, if_pos (by simpa using hc)]
    · rw [if_neg hc, if_neg (by simpa using hc)]
      cases hpieces : cs.splitOn sep with
      | nil => exact absurd hpieces (List.splitOn_ne_nil sep cs)
      | cons piece pieces => rfl

theorem notMem_of_mem_cut {sep : Char} {cs piece : List Char} (h : piece ∈ cut sep cs) :
    sep ∉ piece := by
  induction cs generalizing piece with
  | nil => rw [List.mem_singleton.mp h]; exact List.not_mem_nil
  | cons c cs ih =>
    rw [cut] at h
    split at h
    · rcases List.mem_cons.mp h with rfl | hmem
      · exact List.not_mem_nil
      · exact ih hmem
    · rename_i hc
      split at h
      · rw [List.mem_singleton.mp h, List.mem_singleton]
        exact Ne.symm hc
      · rename_i first rest heq
        rw [heq] at ih
        rcases List.mem_cons.mp h with rfl | hmem
        · rw [List.mem_cons, not_or]
          exact ⟨Ne.symm hc, ih List.mem_cons_self⟩
        · exact ih (List.mem_cons_of_mem _ hmem)

theorem cut_of_notMem {sep : Char} {cs : List Char} (h : sep ∉ cs) : cut sep cs = [cs] := by
  rw [cut_eq_splitOn, List.splitOn_eq_singleton h]

theorem cut_append_cons {sep : Char} {cs : List Char} (h : sep ∉ cs) (rest : List Char) :
    cut sep (cs ++ sep :: rest) = cs :: cut sep rest := by
  rw [cut_eq_splitOn, cut_eq_splitOn, List.splitOn_append_cons_self_of_not_mem h]

end DeliveryRules.Text
