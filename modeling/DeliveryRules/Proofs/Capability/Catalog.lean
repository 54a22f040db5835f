import DeliveryRules.Capability.Catalog
import DeliveryRules.Proofs.Except

/-!
# Catalogs that were put together by registering

- **Order** (`Catalog.Ordered`): a descriptor is placed among others in the order of names, so no
  name is there twice.
- **Registered catalogs** (`Catalog.IsRegistered`): all their descriptors passed the check, and of
  each kind they are in order (`IsRegistered.descriptors`).
-/

namespace DeliveryRules

namespace Catalog

/-- Descriptors in the order of their names. -/
def Ordered (ds : List Descriptor) : Prop := ds.Pairwise fun d e => d.name < e.name

theorem mem_place {d e : Descriptor} {ds : List Descriptor} (h : e ∈ place d ds) :
    e = d ∨ e ∈ ds := by
  induction ds with
  | nil => exact .inl (List.mem_singleton.mp h)
  | cons first rest ih =>
    rw [place] at h
    split at h
    · exact List.mem_cons.mp h
    · split at h
      · rcases List.mem_cons.mp h with rfl | h
        · exact .inl rfl
        · exact .inr (List.mem_cons_of_mem _ h)
      · rcases List.mem_cons.mp h with rfl | h
        · exact .inr List.mem_cons_self
        · exact (ih h).imp id (List.mem_cons_of_mem _)

theorem Ordered.place {ds : List Descriptor} (h : Ordered ds) (d : Descriptor) :
    Ordered (place d ds) := by
  induction ds with
  | nil => exact List.pairwise_singleton _ _
  | cons first rest ih =>
    obtain ⟨hfirst, hrest⟩ := List.pairwise_cons.mp h
    rw [Catalog.place]
    split
    · rename_i hlt
      refine List.pairwise_cons.mpr ⟨fun e he => ?_, h⟩
      rcases List.mem_cons.mp he with rfl | he
      · exact hlt
      · exact String.lt_trans hlt (hfirst e he)
    · rename_i hle
      split
      · rename_i heq
        exact List.pairwise_cons.mpr ⟨fun e he => heq ▸ hfirst e he, hrest⟩
      · rename_i hne
        have hlt : first.name < d.name := Std.lt_of_le_of_ne hle (Ne.symm hne)
        refine List.pairwise_cons.mpr ⟨fun e he => ?_, ih hrest⟩
        rcases mem_place he with rfl | he
        · exact hlt
        · exact hfirst e he

/-- In order, a name leads to one descriptor only. -/
theorem Ordered.eq_of_name {ds : List Descriptor} (h : Ordered ds) {d e : Descriptor} (hd : d ∈ ds)
    (he : e ∈ ds) (hname : d.name = e.name) : d = e := by
  induction ds with
  | nil => cases hd
  | cons first rest ih =>
    obtain ⟨hfirst, hrest⟩ := List.pairwise_cons.mp h
    rcases List.mem_cons.mp hd with hd | hd
    · rcases List.mem_cons.mp he with he | he
      · rw [hd, he]
      · exact absurd (hname ▸ hd ▸ hfirst e he) (String.lt_irrefl _)
    · rcases List.mem_cons.mp he with he | he
      · exact absurd (hname ▸ he ▸ hfirst d hd) (String.lt_irrefl _)
      · exact ih hrest hd he

/-- What registering descriptors without an error leads to. -/
inductive IsRegistered : Catalog → Prop
  | empty : IsRegistered {}
  | register {c c' : Catalog} {kind : Capability.Kind} {d : Descriptor} (h : IsRegistered c)
      (hd : c.register kind d = .ok c') : IsRegistered c'

theorem register_eq_ok {c c' : Catalog} {kind : Capability.Kind} {d : Descriptor}
    (h : c.register kind d = .ok c') : d.check = .ok () ∧ c' = c.insert kind d := by
  unfold register at h
  split at h
  · rename_i hcheck
    cases h
    exact ⟨hcheck, rfl⟩
  · cases h

theorem IsRegistered.descriptors {c : Catalog} (h : c.IsRegistered) (kind : Capability.Kind) :
    Ordered (c.descriptors kind) ∧ ∀ d ∈ c.descriptors kind, d.check = .ok () := by
  induction h with
  | empty => cases kind <;> exact ⟨.nil, nofun⟩
  | @register c c' kind' d h hd ih =>
    obtain ⟨hcheck, rfl⟩ := register_eq_ok hd
    obtain ⟨hordered, hchecks⟩ := ih
    have hplaced : Ordered (place d (c.descriptors kind)) ∧
        ∀ e ∈ place d (c.descriptors kind), e.check = .ok () := by
      refine ⟨hordered.place d, fun e he => ?_⟩
      rcases mem_place he with rfl | he
      · exact hcheck
      · exact hchecks e he
    cases kind' <;> cases kind <;> first | exact hplaced | exact ⟨hordered, hchecks⟩

/-- Registering one after the other. -/
theorem IsRegistered.foldlM {kind : Capability.Kind} {ds : List Descriptor} {c c' : Catalog}
    (h : c.IsRegistered) (hc : ds.foldlM (Catalog.register · kind) c = .ok c') :
    c'.IsRegistered := by
  induction ds generalizing c with
  | nil =>
    cases hc
    exact h
  | cons d ds ih =>
    rw [List.foldlM_cons] at hc
    obtain ⟨c'', hd, hc⟩ := bind_eq_ok.mp hc
    exact ih (h.register hd) hc

/-- What is made from a file was registered. -/
theorem isRegistered_ofFile {f : CatalogFile} {c : Catalog} (h : ofFile f = .ok c) :
    c.IsRegistered := by
  obtain ⟨c', hc, h⟩ := bind_eq_ok.mp h
  exact (IsRegistered.empty.foldlM hc).foldlM h

end Catalog

/-- The option schema of a descriptor that passed the check is a schema. -/
theorem Descriptor.schema_of_check {d : Descriptor} (h : d.check = .ok ()) :
    ∃ own, Schema.ofJson d.optionSchema = .ok own := by
  simp only [check, bind] at h
  rcases ite_eq_iff.mp h with ⟨-, h⟩ | ⟨-, h⟩
  · cases h
  · rcases ite_eq_iff.mp h with ⟨-, h⟩ | ⟨-, h⟩
    · cases h
    · obtain ⟨own, hown, -⟩ := bind_eq_ok.mp h
      exact ⟨own, mapError_eq_ok.mp hown⟩

end DeliveryRules
