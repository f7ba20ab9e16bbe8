import Predictive.Proofs.Solver.Rising
import Predictive.Solver.Network

/-! Which rules of a network are monotone: all but negation, if they have the cells that they start from. -/
namespace Predictive.Solver

variable {T : Type}

namespace Rule

variable {σ : Nat → Sole → T}

theorem denote_fold {S : Type} (f : S → T → S) (s : S) (deps : List Nat) :
    (Rule.fold f s deps).denote σ = .ok (deps.foldl (fun s d => f s (σ d .value)) s) := by
  induction deps generalizing s with
  | nil => rfl
  | cons d ds ih => exact ih (f s (σ d .value))

/-- A fold is monotone if its steps are. -/
theorem rises_fold [PartialOrder T] {f : T → T → T} {top s : T} (hs : s ≤ top)
    (hle : ∀ a v, a ≤ top → v ≤ top → f a v ≤ top) (hmono : ∀ a b v w, a ≤ b → v ≤ w → f a v ≤ f b w)
    (deps : List Nat) : (Rule.fold f s deps : Rule T).Rises (fun _ => top) top := by
  refine Query.rises_of_denote (fun σ => denote_fold f s deps) (fun σ hσ => ?_) fun σ σ' hσ _ => ?_
  · exact List.foldlRecOn (motive := (· ≤ top)) deps _ hs fun a ha d _ => hle a _ ha (hσ d .value)
  · exact List.foldl_rel (r := (· ≤ ·)) le_rfl fun d _ a b hab => hmono a b _ _ hab (hσ d .value)

end Rule

namespace BoolRule

theorem denote_shortOr (deps : List Nat) (σ : Nat → Sole → Bool) :
    (shortOr.rule deps).denote σ = .ok (deps.any (σ · .value)) := by
  induction deps with
  | nil => rfl
  | cons d ds ih => cases hd : σ d .value <;> simp [rule, hd, ih, Query.denote]

theorem denote_shortAnd (deps : List Nat) (σ : Nat → Sole → Bool) :
    (shortAnd.rule deps).denote σ = .ok (deps.all (σ · .value)) := by
  induction deps with
  | nil => rfl
  | cons d ds ih => cases hd : σ d .value <;> simp [rule, hd, ih, Query.denote]

theorem rises {r : BoolRule} (hr : r ≠ .not) (deps : List Nat) : (r.rule deps).Rises (fun _ => true) true := by
  cases r with
  | or | and =>
    rw [rule]
    refine Rule.rises_fold ?_ ?_ ?_ deps <;> decide
  | shortOr =>
    refine Query.rises_of_denote (denote_shortOr deps) (fun _ _ => Bool.le_true _) fun σ σ' hσ _ => ?_
    rw [Bool.le_iff_imp, List.any_eq_true, List.any_eq_true]
    exact fun ⟨d, hd, hv⟩ => ⟨d, hd, Bool.le_iff_imp.1 (hσ d .value) hv⟩
  | shortAnd =>
    refine Query.rises_of_denote (denote_shortAnd deps) (fun _ _ => Bool.le_true _) fun σ σ' hσ _ => ?_
    rw [Bool.le_iff_imp, List.all_eq_true, List.all_eq_true]
    exact fun h d hd => Bool.le_iff_imp.1 (hσ d .value) (h d hd)
  | not => exact absurd rfl hr

end BoolRule

namespace SetRule

variable {added top : FinSet Int64}

theorem mem_succ {s : FinSet Int64} {a : Int64} :
    a ∈ FinSet.ofList ((s.toList.filter (· < 20)).map (· + 1)) ↔ ∃ b ∈ s, b < 20 ∧ b + 1 = a := by
  rw [FinSet.mem_ofList]
  simp [FinSet.mem_def, and_assoc]

/-- The successors that are added have to be among the numbers of `top`. -/
theorem rises (hadded : added ≤ top) {r : SetRule} {deps : List Nat} (hdeps : r = .union ∨ deps ≠ [])
    (htop : r = .succ → ∀ a ∈ top, a < 20 → a + 1 ∈ top) : (r.rule added deps).Rises (fun _ => top) top := by
  have hunion : ∀ ds, (Rule.fold (· ∪ ·) added ds : Rule (FinSet Int64)).Rises (fun _ => top) top :=
    Rule.rises_fold hadded (fun _ _ => FinSet.union_le) fun _ _ _ _ => FinSet.union_mono
  cases r with
  | union => exact hunion deps
  | inter =>
    obtain ⟨d, ds, rfl⟩ := List.exists_cons_of_ne_nil (hdeps.resolve_left (by simp))
    refine Query.rises_of_denote (fun σ => Rule.denote_fold (· ∩ ·) (σ d .value) ds) (fun σ hσ => ?_) fun σ σ' hσ _ => ?_
    · exact List.foldlRecOn (motive := (· ≤ top)) ds _ (hσ d .value) fun _ hs _ _ => FinSet.inter_le_left.trans hs
    · exact List.foldl_rel (r := (· ≤ ·)) (hσ d .value) fun e _ _ _ hs => FinSet.inter_mono hs (hσ e .value)
  | guarded =>
    obtain ⟨d, ds, rfl⟩ := List.exists_cons_of_ne_nil (hdeps.resolve_left (by simp))
    have hdenote : ∀ σ, (guarded.rule added (d :: ds)).denote σ = if (σ d .value).isEmpty then .ok ∅ else
        (Rule.fold (· ∪ ·) added ds : Rule (FinSet Int64)).denote σ := fun σ => by
      cases he : (σ d .value).isEmpty <;> simp [rule, Rule.withFirst, he, Query.denote]
    refine ⟨fun σ => ?_, fun {σ v} hσ hv => ?_, fun {σ σ' v v'} hσ hσ' hv hv' => ?_⟩
    · rw [hdenote]
      split
      · exact ⟨∅, rfl⟩
      · exact (hunion ds).total σ
    · rw [hdenote] at hv
      split at hv
      · cases hv
        exact RisingFact.bottom_le top
      · exact (hunion ds).le hσ hv
    · rw [hdenote] at hv hv'
      split at hv
      · cases hv
        exact RisingFact.bottom_le v'
      · -- What is not empty stays so when it grows.
        rename_i he
        obtain ⟨a, ha⟩ := FinSet.isEmpty_eq_false_iff.1 (Bool.eq_false_iff.2 he)
        rw [FinSet.isEmpty_eq_false_iff.2 ⟨a, hσ d .value a ha⟩] at hv'
        exact (hunion ds).mono hσ hσ' hv hv'
  | succ =>
    obtain ⟨d, ds, rfl⟩ := List.exists_cons_of_ne_nil (hdeps.resolve_left (by simp))
    refine Query.rises_of_denote (fun _ => rfl) (fun σ hσ => FinSet.union_le hadded fun a ha => ?_) fun σ σ' hσ _ =>
      FinSet.union_mono le_rfl fun a ha => ?_
    · obtain ⟨b, hb, hlt, rfl⟩ := mem_succ.1 ha
      exact htop rfl b (hσ d .value b hb) hlt
    · obtain ⟨b, hb, h⟩ := mem_succ.1 ha
      exact mem_succ.2 ⟨b, hσ d .value b hb, h⟩

end SetRule

namespace Network

variable [PartialOrder T]

/-- The cell holds values up to `top`, or its rule is monotone on them. -/
def Fits (top : T) : Definition (fun _ : Sole => T) RuleError .value → Prop
  | .constant v | .deferred v none => v ≤ top
  | .deferred _ (some _) => True
  | .rule q => q.Rises (fun _ => top) top

theorem monotone_family [Fact T] [RisingFact T] {net : Network T} {top : T} (hcells : ∀ d ∈ net.cells, Fits top d)
    (hacyclic : ∀ p, ¬Relation.TransGen (net.family.Leads .value) p p) : net.family.Monotone fun _ => top := by
  have hfits : ∀ p f, Fits top (net.family.definition p f) := by
    intro p f
    change Fits top (net.cells[p]?.getD _)
    cases hp : net.cells[p]? with
    | none => exact RisingFact.bottom_le top
    | some d => exact hcells d (Array.mem_of_getElem? hp)
  refine ⟨⟨(List.range net.size).map (⟨·, .value⟩), by simp [family], fun ⟨p, .value⟩ hp => ?_⟩,
    fun .value => hacyclic, fun {p f v} h => ?_, fun {p f v} h => ?_, fun {p f q} h => ?_⟩
  · refine List.mem_map_of_mem (List.mem_range.2 (Nat.lt_of_not_le fun hle => hp Fact.bottom ?_))
    simp [family, Array.getElem?_eq_none hle]
  all_goals
    have := hfits p f
    rwa [h] at this

end Network

end Predictive.Solver
