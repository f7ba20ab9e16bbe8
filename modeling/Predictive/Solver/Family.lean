import Predictive.Solver.Query
import Std.Data.DTreeMap

/-! Families of cells, what is remembered of them between reads, and the value of a query at such a moment. -/
namespace Predictive.Solver

variable {φ : Type}

/-- How a cell gets its value. A deferred cell has its default until a target is known, and from then on
stands for the cell of the same fact at the target. -/
inductive Definition (τ : φ → Type) (ε : Type) (f : φ) : Type where
  | constant (v : τ f)
  | rule (compute : Query τ ε (τ f))
  | deferred (default : τ f) (target : Option Nat)

/-- The definitions of all cells. No more than `size` of them are rules or deferred. -/
structure Family (τ : φ → Type) (ε : Type) where
  size : Nat
  definition : Nat → (f : φ) → Definition τ ε f

/-- Why a read may fail: a circle of deferred cells, a rule that gave up, or a limit on the work. -/
inductive Failure (ε : Type) where
  | boundToItself
  | rule (e : ε)
  | unfinished

/-- What is known of a rule: its approximation, and how far the pass that reached it last has got. -/
structure Memo (α : Type) where
  value : α
  epoch : Nat := 0
  /-- The rule was run in that pass and waits for rules that it reads. -/
  active : Bool := false
  /-- The rule was computed in that pass. -/
  done : Bool := false
  /-- The value is final. -/
  settled : Bool := false

namespace Memo

variable {α : Type}

/-- A rule that no pass has reached. -/
def fresh [Fact α] : Memo α := { value := Fact.bottom }

/-- Nothing is left to do for the rule in the pass `epoch`. -/
def isFinished (m : Memo α) (epoch : Nat) : Bool := m.settled || (m.epoch == epoch && m.done)

/-- A read in the pass `epoch` may use the value: it is finished, or its rule waits for the reader. -/
def isReady (m : Memo α) (epoch : Nat) : Bool := m.settled || (m.epoch == epoch && (m.done || m.active))

end Memo

/-- The memos of all rules. -/
abbrev Memos (τ : φ → Type) [Ord φ] := Std.DTreeMap (Cell φ) fun c => Memo (τ c.fact)

namespace Family

variable {τ : φ → Type} {ε α : Type}

/-- Follows targets from `p`; none if `n` steps do not reach their end. -/
def follow (F : Family τ ε) (f : φ) : Nat → Nat → Option Nat
  | 0, _ => none
  | n + 1, p =>
    match F.definition p f with
    | .deferred _ (some q) => F.follow f n q
    | _ => some p

/-- The place whose cell of `f` the one at `p` stands for. A chain of more than `size` targets is a circle. -/
def resolve (F : Family τ ε) (p : Nat) (f : φ) : Option Nat := F.follow f (F.size + 1) p

variable [Ord φ] [Std.TransOrd φ] [Std.LawfulEqOrd φ] [∀ f, Fact (τ f)]

def memo (m : Memos τ) (c : Cell φ) : Memo (τ c.fact) := m.getD c Memo.fresh

/-- What a read of the cell of `f` at `p` yields in the pass `epoch`, and the rule that should be computed
before, if it has not been. -/
def view (F : Family τ ε) (m : Memos τ) (epoch p : Nat) (f : φ) :
    Except (Failure ε) (τ f × Option (Cell φ)) :=
  match F.resolve p f with
  | none => .error .boundToItself
  | some q =>
    match F.definition q f with
    | .constant v => .ok (v, none)
    | .deferred v _ => .ok (v, none)
    | .rule _ =>
      let known := memo m ⟨q, f⟩
      .ok (known.value, if known.isReady epoch then none else some ⟨q, f⟩)

/-- The value of a query, and the missing rules it has read, in order. -/
def eval (F : Family τ ε) (m : Memos τ) (epoch : Nat) :
    Query τ ε α → Except (Failure ε) (α × List (Cell φ))
  | .done a => .ok (a, [])
  | .fail e => .error (.rule e)
  | .read p f next =>
    match F.view m epoch p f with
    | .error e => .error e
    | .ok (v, missing) =>
      match F.eval m epoch (next v) with
      | .error e => .error e
      | .ok (a, cells) => .ok (a, missing.toList ++ cells)

end Family
end Predictive.Solver
