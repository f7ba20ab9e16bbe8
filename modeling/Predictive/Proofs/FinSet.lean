import Mathlib.Data.List.Sort
import Mathlib.Order.Basic
import Predictive.FinSet

/-! Finite sets are told apart by their elements, and ordered by inclusion. -/
namespace Predictive.FinSet

variable {α : Type} [Ord α] {s t : FinSet α}

theorem isEmpty_eq_false_iff : s.isEmpty = false ↔ ∃ a, a ∈ s := by
  cases hs : s.toList with
  | nil => simp [isEmpty, mem_def, hs]
  | cons a as => exact ⟨fun _ => ⟨a, by simp [mem_def, hs]⟩, fun _ => by simp [isEmpty, hs]⟩

variable [Std.LawfulEqOrd α]

theorem nodup_toList (s : FinSet α) : s.toList.Nodup :=
  s.increasing.imp fun h => ne_of_compare_lt h

variable [Std.TransOrd α]

/-- Sets with the same elements are equal. -/
theorem ext (h : ∀ a, a ∈ s ↔ a ∈ t) : s = t := by
  have : Std.Antisymm fun a b : α => compare a b = .lt := ⟨fun a b hab hba => by
    have := Std.TransCmp.lt_trans hab hba
    simp [Std.ReflCmp.compare_self] at this⟩
  have : Std.Irrefl fun a b : α => compare a b = .lt := ⟨fun a ha => ne_of_compare_lt ha rfl⟩
  exact toList_injective (s.increasing.eq_of_mem_iff t.increasing fun {a} => h a)

instance : PartialOrder (FinSet α) where
  le s t := ∀ a ∈ s, a ∈ t
  le_refl _ _ ha := ha
  le_trans _ _ _ hst htu a ha := htu a (hst a ha)
  le_antisymm _ _ hst hts := ext fun a => ⟨hst a, hts a⟩

theorem le_def : s ≤ t ↔ ∀ a ∈ s, a ∈ t := Iff.rfl

theorem union_le {u : FinSet α} (hs : s ≤ u) (ht : t ≤ u) : s ∪ t ≤ u := fun a ha =>
  (mem_union.1 ha).elim (hs a) (ht a)

theorem union_mono {s' t' : FinSet α} (hs : s ≤ s') (ht : t ≤ t') : s ∪ t ≤ s' ∪ t' := fun a ha =>
  mem_union.2 ((mem_union.1 ha).imp (hs a) (ht a))

theorem inter_le_left : s ∩ t ≤ s := fun _ ha => (mem_inter.1 ha).1

theorem inter_mono {s' t' : FinSet α} (hs : s ≤ s') (ht : t ≤ t') : s ∩ t ≤ s' ∩ t' := fun a ha =>
  mem_inter.2 ((mem_inter.1 ha).imp (hs a) (ht a))

/-- A greater set has more elements. -/
theorem size_lt (h : s < t) : s.size < t.size := by
  have hsub : s.toList.Subperm t.toList := List.subperm_of_subset s.nodup_toList fun a ha => le_def.1 h.le a ha
  refine lt_of_le_of_ne hsub.length_le fun hlen => h.not_ge (le_def.2 fun a ha => ?_)
  exact (hsub.perm_of_length_le hlen.ge).mem_iff.2 ha

end Predictive.FinSet
