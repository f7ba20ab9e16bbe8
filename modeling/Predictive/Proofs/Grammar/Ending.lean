import Predictive.Proofs.Grammar.Staleness
import Predictive.Proofs.Solver.Ending

/-!
Every reading of a fact ends, though restrictions and conflicts are not monotone in the kinds they are made of: there
is a pass that changes nothing, unless a rule fails before.
-/
namespace Predictive.Grammar

open Store
open Solver (Cell Family)

variable {V K : Type} [Value V] [Kind K] {s s₁ : Store V K} {r : Ref} {i : Nat} {f : FactName} {l : Liveness}
  {held : List Ref} {result : Except (Solver.Failure Fault) Unit} {b : Solver.Book (FactName.Carrier V K)}

/-- If there is a rule to compute for the fact `f` at `i`, the passes end within the bound, and with `result`. -/
def Store.Settles (s : Store V K) (l : Liveness) (i : Nat) (f : FactName) (result : Except (Solver.Failure Fault) Unit)
    (b : Solver.Book (FactName.Carrier V K)) : Prop :=
  ∀ root, (s.family l).source? ⟨i, f⟩ = some root →
    ∃ n ≤ passBound s.nodes.size, (s.family l).Ends root ⟨s.book, 0, []⟩ n result b

/-- Passes that go on for longer would each change something. -/
theorem exists_settles (hm : s.Remembers) (hc : Complete s.productions i) (l : Liveness) (f : FactName) :
    ∃ result b, s.Settles l i f result b := by
  cases hs : (s.family l).source? ⟨i, f⟩ with
  | none => exact ⟨.ok (), s.book, fun root hroot => nomatch hs.symm.trans hroot⟩
  | some root =>
    obtain ⟨q, g⟩ := root
    obtain ⟨rfl, hq, rule, hrule⟩ := Family.source?_eq_some hs
    have hb : Below s.productions i q := below_of_follow (by rwa [(s.family_refines l).resolve] at hq)
    obtain ⟨-, -, hfails⟩ := Family.passes_spec (n := passBound s.nodes.size) (clear_invariant l hc s.book.memos)
      (family_within l hc) (family_bounded s l) hb hrule 0 [] ⟨hm, fun _ h => h, .refl _⟩
    rcases hw : (s.family l).passes ⟨q, g⟩ (passBound s.nodes.size) 0 [] s.book with ⟨result, b⟩
    have hr : result ≠ .error .unfinished := by
      rintro rfl
      rcases hfails .unfinished (by rw [hw]) with ⟨c, _, _, -, -, -, hstuck⟩ | ⟨-, hrestless⟩
      · cases hstuck
      · exact not_restless_of_complete hc l le_rfl (fun m ⟨e, h⟩ => ⟨e, h.1⟩) hrestless
    obtain ⟨n, hn, hends⟩ := Family.ends_of_passes (x := ⟨s.book, 0, []⟩) hw hr
    refine ⟨result.map fun _ => (), b, fun root hroot => ⟨n, hn, ?_⟩⟩
    obtain rfl := Option.some.inj (hs.symm.trans hroot)
    exact hends

/-- A reading that yields a value has come to the end of its passes. -/
theorem Store.Settles.of_get {limit : Nat} {v : f.Carrier V K} {effort : Option (Solver.Effort FactName)}
    (h : s.Settles l i f result b) (hget : ((s.family l).get limit i f s.book).1 = .ok (v, effort)) :
    s.Settles l i f (.ok ()) ((s.family l).get limit i f s.book).2 := by
  intro root hs
  obtain ⟨n, hn, hends⟩ := h root hs
  obtain ⟨n', hends'⟩ := Family.ends_of_get hs hget
  obtain ⟨rfl, -, -⟩ := hends.unique hends'
  exact ⟨n, hn, hends'⟩

end Predictive.Grammar
