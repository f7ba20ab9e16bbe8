import Predictive.Solver.Family

/-! One pass: a rule and everything it reads, each computed once, dependencies first, on an explicit stack. -/
namespace Predictive.Solver

variable {φ : Type} {τ : φ → Type} {ε : Type}

/-- One run of a rule; `first` tells whether it is the first one in its pass. -/
structure Run (φ : Type) where
  cell : Cell φ
  pass : Nat
  first : Bool

/-- The state of a pass. The latest of `touched` and of `runs` comes first. -/
structure Pass (τ : φ → Type) [Ord φ] where
  memos : Memos τ
  changed : Bool := false
  touched : List (Cell φ) := []
  runs : List (Run φ) := []

variable [Ord φ] [Std.TransOrd φ] [Std.LawfulEqOrd φ] [∀ f, Fact (τ f)]

namespace Pass

/-- Marks the rule as reached in the pass `epoch`, the `number`-th of its reading. -/
def start (s : Pass τ) (epoch number : Nat) (c : Cell φ) : Pass τ :=
  let m := Family.memo s.memos c
  let first := m.epoch != epoch
  { s with
    memos := s.memos.insert c { m with epoch, done := false, active := true }
    touched := if first then c :: s.touched else s.touched
    runs := ⟨c, number, first⟩ :: s.runs }

/-- Stores the value computed for the rule. -/
def finish (s : Pass τ) (c : Cell φ) (v : τ c.fact) : Pass τ :=
  let m := Family.memo s.memos c
  { s with
    memos := s.memos.insert c { m with value := v, active := false, done := true }
    changed := s.changed || !Fact.agrees v m.value }

end Pass

namespace Family

/-- Whether `c` needs no computing in the pass `epoch`. -/
def isFinished (F : Family τ ε) (epoch : Nat) (s : Pass τ) (c : Cell φ) : Bool :=
  match F.definition c.place c.fact with
  | .rule _ => (memo s.memos c).isFinished epoch
  | _ => true

/-- Runs the rule of `c` once. The value is kept only if nothing it read was missing. -/
def run (F : Family τ ε) (epoch number : Nat) (c : Cell φ) (s : Pass τ) :
    Except (Failure ε) (List (Cell φ)) × Pass τ :=
  match F.definition c.place c.fact with
  | .rule compute =>
    let s := s.start epoch number c
    match F.eval s.memos epoch compute with
    | .error e => (.error e, s)
    | .ok (v, []) => (.ok [], s.finish c v)
    | .ok (_, missing) => (.ok missing, s)
  | _ => (.ok [], s)

/-- Computes the cells of the stack, top first, in at most `n` runs. A rule that misses others stays below
them until they are computed. -/
def work (F : Family τ ε) (epoch number : Nat) : Nat → List (Cell φ) → Pass τ →
    Except (Failure ε) Unit × Pass τ
  | n, stack, s =>
    match stack.dropWhile (F.isFinished epoch s), n with
    | [], _ => (.ok (), s)
    | _ :: _, 0 => (.error .unfinished, s)
    | c :: rest, n + 1 =>
      match F.run epoch number c s with
      | (.error e, s) => (.error e, s)
      | (.ok [], s) => F.work epoch number n rest s
      | (.ok missing, s) => F.work epoch number n (missing.reverse ++ c :: rest) s

end Family
end Predictive.Solver
