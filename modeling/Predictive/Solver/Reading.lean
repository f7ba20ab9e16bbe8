import Predictive.Solver.Pass

/-! Reading a cell: passes are made until one of them changes nothing; what that pass reached is final. -/
namespace Predictive.Solver

variable {φ : Type} {τ : φ → Type} {ε : Type}

/-- What is remembered from one reading to the next. Passes are numbered throughout, from one. -/
structure Book (τ : φ → Type) [Ord φ] where
  memos : Memos τ := ∅
  epoch : Nat := 0

/-- What it took to settle a rule: passes, rules reached by the last of them, and all runs in order. -/
structure Effort (φ : Type) where
  passes : Nat
  rules : Nat
  runs : List (Run φ)

variable [Ord φ] [Std.TransOrd φ] [Std.LawfulEqOrd φ] [∀ f, Fact (τ f)]

def settle (cells : List (Cell φ)) (m : Memos τ) : Memos τ :=
  cells.foldl (fun m c => m.insert c { Family.memo m c with settled := true }) m

namespace Family

/-- Makes up to `n` more passes from `root`, `made` having been made. A pass runs each rule at most twice on
average, as every run in vain is followed by the first run of another rule. -/
def passes (F : Family τ ε) (root : Cell φ) : Nat → Nat → List (Run φ) → Book τ →
    Except (Failure ε) (Effort φ) × Book τ
  | 0, _, _, b => (.error .unfinished, b)
  | n + 1, made, runs, b =>
    let epoch := b.epoch + 1
    match F.work epoch (made + 1) (2 * F.size) [root] { memos := b.memos, runs } with
    | (.error e, s) => (.error e, ⟨s.memos, epoch⟩)
    | (.ok (), s) =>
      if s.changed then F.passes root n (made + 1) s.runs ⟨s.memos, epoch⟩
      else (.ok ⟨made + 1, s.touched.length, s.runs.reverse⟩, ⟨settle s.touched s.memos, epoch⟩)

/-- The value of the cell of `f` at `p`, with the effort if a rule had to be looked at. At most `limit`
passes are made. -/
def get (F : Family τ ε) (limit p : Nat) (f : φ) (b : Book τ) :
    Except (Failure ε) (τ f × Option (Effort φ)) × Book τ :=
  match F.resolve p f with
  | none => (.error .boundToItself, b)
  | some q =>
    match F.definition q f with
    | .constant v => (.ok (v, none), b)
    | .deferred v _ => (.ok (v, none), b)
    | .rule _ =>
      match F.passes ⟨q, f⟩ limit 0 [] b with
      | (.error e, b) => (.error e, b)
      | (.ok effort, b) => (.ok ((memo b.memos ⟨q, f⟩).value, some effort), b)

end Family
end Predictive.Solver
