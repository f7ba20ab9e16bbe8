import Predictive.FinSet

/-! Facts, cells that hold one fact each, and computations that depend on cells only by reading them. -/
namespace Predictive

/-- Values of a fact: where their approximation starts, and when two of them say the same. -/
class Fact (α : Type) where
  bottom : α
  agrees : α → α → Bool

instance : Fact Bool := ⟨false, (· == ·)⟩

instance {α : Type} [Ord α] [DecidableEq α] : Fact (FinSet α) := ⟨∅, fun s t => s == t⟩

/-- Optional values say the same when both or neither are present. -/
instance {α : Type} : Fact (Option α) := ⟨none, fun a b => a.isSome == b.isSome⟩

namespace Solver

variable {φ : Type}

/-- The fact `fact` about the object at `place`. -/
structure Cell (φ : Type) where
  place : Nat
  fact : φ
  deriving DecidableEq

instance [Ord φ] : Ord (Cell φ) := ⟨compareLex (compareOn Cell.place) (compareOn Cell.fact)⟩

instance [Ord φ] [Std.TransOrd φ] : Std.TransOrd (Cell φ) :=
  inferInstanceAs (Std.TransCmp (compareLex (compareOn Cell.place) (compareOn Cell.fact)))

instance [Ord φ] [Std.LawfulEqOrd φ] : Std.LawfulEqOrd (Cell φ) where
  compare_self := Ordering.then_eq_eq.2
    ⟨Std.LawfulEqOrd.compare_eq_iff_eq (α := Nat).2 rfl, Std.LawfulEqOrd.compare_eq_iff_eq (α := φ).2 rfl⟩
  eq_of_compare {a b} h := by
    obtain ⟨hp, hf⟩ := Ordering.then_eq_eq.1 h
    cases a; cases b
    cases Std.LawfulEqOrd.eq_of_compare (α := Nat) hp
    cases Std.LawfulEqOrd.eq_of_compare (α := φ) hf
    rfl

/-- A computation of an `α` that may read cells, `τ f` being the values of the fact `f`. Which cells it
reads may depend on what it has read. -/
inductive Query (τ : φ → Type) (ε α : Type) : Type where
  | done (a : α)
  | fail (e : ε)
  | read (place : Nat) (fact : φ) (next : τ fact → Query τ ε α)

namespace Query

variable {τ : φ → Type} {ε α β : Type}

protected def bind : Query τ ε α → (α → Query τ ε β) → Query τ ε β
  | done a, k => k a
  | fail e, _ => fail e
  | read p f next, k => read p f fun v => (next v).bind k

instance : Monad (Query τ ε) where
  pure := done
  bind := Query.bind

/-- The value of one cell. -/
def look (place : Nat) (fact : φ) : Query τ ε (τ fact) := read place fact done

end Query
end Solver
end Predictive
