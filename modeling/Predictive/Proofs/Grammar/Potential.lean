import Mathlib.Data.Finset.Card
import Predictive.Proofs.Grammar.Kept

/-!
Sweeps only add traits to what is known, and there are no more than so many: each of the `n` nodes may be empty,
may match at all, and may start with the kinds of the elements.
-/
namespace Predictive.Grammar.Store

open Solver (Cell Query Family Memos Memo)

variable {V K : Type} [Kind K]
variable {s : Store V K} {m m' : Memos (FactName.Carrier V K)} {T : List (Cell FactName)} {root : Cell FactName}
  {e i j : Nat} {t : Trait K}

/-- The kinds of all elements. -/
def kinds (s : Store V K) : List K :=
  s.nodes.toList.filterMap fun
    | .element k => some k
    | _ => none

/-- Whatever may be known of the nodes. -/
def knowable (s : Store V K) : List (Nat × Trait K) :=
  (List.range s.nodes.size).flatMap fun j => (.nullable :: .productive :: s.kinds.map .startsWith).map (j, ·)

theorem length_knowable : s.knowable.length ≤ s.nodes.size * (s.nodes.size + 2) := by
  have hk : s.kinds.length ≤ s.nodes.size := by
    simpa [kinds] using List.length_filterMap_le _ s.nodes.toList
  have hlen : s.knowable.length = s.nodes.size * (s.kinds.length + 2) := by
    simp [knowable]
  rw [hlen]
  exact Nat.mul_le_mul_left _ (by omega)

theorem mem_kinds_of_has {k : K} (h : Has s.productions i (.startsWith k)) : k ∈ s.kinds := by
  have key : ∀ i t, Has s.productions i t → ∀ k, t = .startsWith k → k ∈ s.kinds := by
    intro i t ht
    refine Has.induct (motive := fun _ t => ∀ k, t = .startsWith k → k ∈ s.kinds) ?_ ht
    rintro i p _ hi hp k rfl
    cases p with
    | success v => exact hp.elim
    | element k' =>
      obtain rfl : k' = k := Eq.symm hp
      refine List.mem_filterMap.2 ⟨.element k', ?_, rfl⟩
      exact Array.mem_toList_iff.2 (Array.mem_of_getElem? (element_of_production hi))
    | disjunction l r => exact hp.elim (fun h => h.2 k rfl) fun h => h.2 k rfl
    | sequence l r => exact hp.elim (fun h => h.2.2 k rfl) fun h => h.2.2 k rfl
    | transform g j => exact hp.2 k rfl
    | deferred j => exact hp.2 k rfl
  exact key i _ h k rfl

/-- The trait is known of the node. -/
def Knows (m : Memos (FactName.Carrier V K)) (j : Nat) (t : Trait K) : Prop :=
  t.In (Family.memo m ⟨j, t.fact⟩).value

open Classical in
/-- How much is known. -/
noncomputable def known (s : Store V K) (m : Memos (FactName.Carrier V K)) : Nat :=
  (s.knowable.toFinset.filter fun x => Knows m x.1 x.2).card

theorem known_le : s.known m ≤ s.nodes.size * (s.nodes.size + 2) := by
  classical
  exact (Finset.card_filter_le _ _).trans ((List.toFinset_card_le _).trans length_knowable)

variable [Value V]

/-- What is ascribed to a node is known of the node it stands for, or fixed. -/
theorem ascribed_of_knows {u : Memos (FactName.Carrier V K)}
    (h : ∀ d : Nat, s.whole.source? ⟨j, t.fact⟩ = some ⟨d, t.fact⟩ → Knows m d t → Knows u d t)
    (ht : Ascribed (s.whole.value m) j t) : Ascribed (s.whole.value u) j t := by
  cases hs : s.whole.source? ⟨j, t.fact⟩ with
  | none => rwa [Ascribed, ← Family.value_of_no_source m _ hs]
  | some d =>
    obtain ⟨d, g⟩ := d
    obtain rfl : g = t.fact := (Family.source?_eq_some hs).1
    rw [Ascribed, Family.value_of_source? hs] at ht ⊢
    exact h d hs ht

/-- A sweep forgets no trait. -/
theorem Kept.knows_of_sweep (h : s.Kept e m) (hs : s.whole.Sweep root m m' T)
    (hT : ∀ c ∈ T, (s.productions c.place).isSome) (ht : Knows m j t) : Knows m' j t := by
  refine hs.induct (P := fun c => ∀ j (t : Trait K), c = ⟨j, t.fact⟩ → Knows m j t → Knows m' j t) ?_ ?_ _ j t rfl ht
  · rintro _ hc j t rfl ht
    rwa [Knows, hc]
  · rintro _ hc u q hu hq hd j t rfl ht
    obtain ⟨p, hp⟩ := Option.isSome_iff_exists.1 (hT _ hc)
    rw [define_of_production hp] at hq
    refine (gives_of_rule hq hd).2 ((h.rising j p t hp ht).mono fun j' _ t' ht' => ?_)
    refine ascribed_of_knows (fun d _ hk => ?_) ht'
    rcases hu ⟨d, t'.fact⟩ with hd | ⟨hd, hknows⟩
    · rwa [Knows, hd]
    · rw [Knows, hd]
      exact hknows d t' rfl hk

theorem Kept.mem_knowable (h : s.Kept e m) (ht : Knows m j t) : (j, t) ∈ s.knowable := by
  have hc : Complete s.productions j := h.known ⟨j, t.fact⟩ fun h0 => by
    rw [Knows, h.fresh _ h0] at ht
    exact Trait.not_in_bottom ht
  obtain ⟨p, hp⟩ := Option.isSome_iff_exists.1 (hc j .refl)
  refine List.mem_flatMap.2 ⟨j, List.mem_range.2 (lt_of_production hp), List.mem_map_of_mem ?_⟩
  cases t with
  | nullable | productive => simp
  | startsWith k =>
    have hk := mem_kinds_of_has (h.sound ⟨j, .first⟩ k ht)
    simpa using hk

theorem Kept.known_mono (h : s.Kept e m) (hs : s.whole.Sweep root m m' T)
    (hT : ∀ c ∈ T, (s.productions c.place).isSome) : s.known m ≤ s.known m' := by
  classical
  refine Finset.card_le_card fun x hx => ?_
  rw [Finset.mem_filter] at hx ⊢
  exact ⟨hx.1, h.knows_of_sweep hs hT hx.2⟩

/-- If nothing more is known after a sweep, no trait has been added. -/
theorem Kept.knows_of_known_eq (h : s.Kept e m) {e' : Nat} (h' : s.Kept e' m') (hs : s.whole.Sweep root m m' T)
    (hT : ∀ c ∈ T, (s.productions c.place).isSome) (heq : s.known m' ≤ s.known m) (ht : Knows m' j t) :
    Knows m j t := by
  classical
  by_contra hn
  have hlt : s.known m < s.known m' := by
    refine Finset.card_lt_card ((Finset.ssubset_iff_of_subset fun x hx => ?_).2 ⟨(j, t), ?_, fun hm => ?_⟩)
    · rw [Finset.mem_filter] at hx ⊢
      exact ⟨hx.1, h.knows_of_sweep hs hT hx.2⟩
    · exact Finset.mem_filter.2 ⟨List.mem_toFinset.2 (h'.mem_knowable ht), ht⟩
    · exact hn (Finset.mem_filter.1 hm).2
  omega

end Predictive.Grammar.Store
