import Mathlib.Data.Finset.Card

/-!
Rounds of recomputing sets that only pass items on. In a round each place of `T` gets its own items and those of
the places it depends on, which may have had their turn or not. Once all places depend on what they are computed
on behalf of, a round only adds items, and an item that reaches no new place in one round never does again.
-/
namespace Predictive

variable {γ ι : Type}

/-- In a round the sets `old` become the sets `new`. A place that reads an old set of `T` passes its own set on
to the place that it has read. -/
structure Round (T : γ → Prop) (own : γ → ι → Prop) (deps : γ → γ → Prop) (old new : γ → ι → Prop) : Prop where
  same : ∀ c x, ¬T c → (new c x ↔ old c x)
  order : ∃ rank : γ → Nat, ∀ c, T c →
    (∀ x, new c x ↔ own c x ∨ ∃ d, deps c d ∧ if rank d < rank c then new d x else old d x) ∧
    ∀ d, deps c d → T d → ¬rank d < rank c → ∀ x, new c x → new d x

namespace Round

variable {T : γ → Prop} {own : γ → ι → Prop} {deps : γ → γ → Prop} {old mid new : γ → ι → Prop} {c d : γ} {x : ι}

/-- What a place has got, it has got from itself or from what its sources have at the end of the round. -/
theorem source (h : Round T own deps old new) (hc : T c) (hx : new c x) :
    own c x ∨ ∃ d, deps c d ∧ new d x := by
  obtain ⟨rank, h'⟩ := h.order
  rcases ((h' c hc).1 x).1 hx with hx | ⟨d, hd, hdx⟩
  · exact .inl hx
  · refine .inr ⟨d, hd, ?_⟩
    split at hdx
    · exact hdx
    · by_cases ht : T d
      · exact (h' c hc).2 d hd ht ‹_› x hx
      · exact (h.same d x ht).2 hdx

/-- A round after a round takes nothing away. -/
theorem grows (h₁ : Round T own deps old mid) (h₂ : Round T own deps mid new) (hx : mid c x) : new c x := by
  obtain ⟨rank, h⟩ := h₂.order
  induction hr : rank c using Nat.strong_induction_on generalizing c with
  | _ n ih =>
    by_cases hc : T c
    · refine ((h c hc).1 x).2 ((h₁.source hc hx).imp_right fun ⟨d, hd, hdx⟩ => ⟨d, hd, ?_⟩)
      split
      · rename_i hlt
        exact ih (rank d) (hr ▸ hlt) hdx rfl
      · exact hdx
    · exact (h₂.same c x hc).2 hx

/-- An item that reached no new place in one round reaches none in the next. -/
theorem stalls (h₁ : Round T own deps old mid) (h₂ : Round T own deps mid new)
    (hstall : ∀ c, mid c x → old c x) (hx : new c x) : mid c x := by
  obtain ⟨rank₁, h₁'⟩ := h₁.order
  obtain ⟨rank₂, h₂'⟩ := h₂.order
  induction hr : rank₂ c using Nat.strong_induction_on generalizing c with
  | _ n ih =>
    by_cases hc : T c
    · refine ((h₁' c hc).1 x).2 ((((h₂' c hc).1 x).1 hx).imp_right fun ⟨d, hd, hdx⟩ => ⟨d, hd, ?_⟩)
      have hmid : mid d x := by
        split at hdx
        · rename_i hlt
          exact ih (rank₂ d) (hr ▸ hlt) hdx rfl
        · exact hdx
      split
      · exact hmid
      · exact hstall d hmid
    · exact (h₂.same c x hc).1 hx

end Round

/-- After as many rounds as there are places, and one more, nothing changes. -/
theorem rounds_stall {T : List γ} {own : γ → ι → Prop} {deps : γ → γ → Prop} {v : Nat → γ → ι → Prop} {n : Nat}
    (h : ∀ i < n, Round (· ∈ T) own deps (v i) (v (i + 1))) {i : Nat} (hi : i < n) (hT : T.length < i) (c : γ)
    (x : ι) : v (i + 1) c x ↔ v i c x := by
  classical
  have hgrow : ∀ j, 1 ≤ j → j < n → ∀ c, v j c x → v (j + 1) c x := by
    intro j h1 hj c hc
    obtain ⟨k, rfl⟩ : ∃ k, j = k + 1 := ⟨j - 1, by omega⟩
    exact (h k (by omega)).grows (h (k + 1) hj) hc
  refine ⟨fun hx => ?_, hgrow i (by omega) hi c⟩
  by_contra hno
  -- The item reaches a new place in every round so far, but there are not enough places for that.
  have hback : ∀ m k, k + m < n → ∀ c, v (k + m + 1) c x → ¬v (k + m) c x → ∃ c, v (k + 1) c x ∧ ¬v k c x := by
    intro m k
    induction m with
    | zero => exact fun _ c hc hcn => ⟨c, hc, hcn⟩
    | succ m ih =>
      intro hk c hc hcn
      by_cases hst : ∀ c, v (k + m + 1) c x → v (k + m) c x
      · exact absurd ((h (k + m) (by omega)).stalls (h (k + m + 1) hk) hst hc) hcn
      · simp only [not_forall] at hst
        obtain ⟨d, hd, hdn⟩ := hst
        exact ih (by omega) d hd hdn
  have hspread : ∀ k ≤ i, ∃ c, v (k + 1) c x ∧ ¬v k c x := by
    intro k hk
    obtain ⟨m, rfl⟩ : ∃ m, i = k + m := ⟨i - k, by omega⟩
    exact hback m k hi c hx hno
  have hcard : ∀ k ≤ i, k ≤ (T.toFinset.filter fun c => v (k + 1) c x).card := by
    intro k hk
    induction k with
    | zero => exact Nat.zero_le _
    | succ k ih =>
      refine Nat.lt_of_le_of_lt (ih (by omega)) (Finset.card_lt_card ?_)
      obtain ⟨d, hd, hdn⟩ := hspread (k + 1) hk
      rw [Finset.ssubset_iff_of_subset]
      · refine ⟨d, ?_, fun hm => hdn (Finset.mem_filter.1 hm).2⟩
        rw [Finset.mem_filter, List.mem_toFinset]
        refine ⟨?_, hd⟩
        by_contra hdT
        exact hdn (((h (k + 1) (by omega)).same d x hdT).1 hd)
      · intro c hc
        rw [Finset.mem_filter] at hc ⊢
        exact ⟨hc.1, hgrow (k + 1) (by omega) (by omega) c hc.2⟩
  have hle := hcard i le_rfl
  have hsize := (Finset.card_filter_le T.toFinset fun c => v (i + 1) c x).trans T.toFinset_card_le
  omega

end Predictive
