import Predictive.Grammar.Evaluate
import Std.Data.TreeSet

/-! Realization: every deferred node that can be reached gets its target, once and for all. -/
namespace Predictive.Grammar

variable {V K : Type} [Ord K]

namespace Store

/-- The targets that deferred nodes are bound to. -/
def target? (s : Store V K) (i : NodeId) : Option Ref :=
  match s.nodes[i]? with
  | some (.deferred _ target) => target
  | _ => none

def setTarget (s : Store V K) (i : NodeId) (t : Ref) : Store V K :=
  { s with nodes := s.nodes.modify i fun
    | .deferred origin _ => .deferred origin (some t)
    | shape => shape }

/-- Follows targets from `i` to a node that has none. `chain` holds the nodes passed. -/
def resolveFrom (s : Store V K) (l : Liveness) : Nat → Std.TreeSet Nat → NodeId → Except Fault NodeId
  | fuel, chain, i =>
    match s.target? i, fuel with
    | none, _ => .ok i
    | some _, 0 => .error .unfinished
    | some t, fuel + 1 =>
      match s.deref? l t with
      | none => .error .deadReference
      | some j => if i ∈ chain then .error (.unguarded i) else s.resolveFrom l fuel (chain.insert i) j

/-- The node that `i` stands for: the end of its chain of targets. A chain has an end or comes back. -/
def resolve (s : Store V K) (l : Liveness) (i : NodeId) : Except Fault NodeId :=
  s.resolveFrom l (s.nodes.size + 1) ∅ i

/-- An upper bound for the nodes that evaluating all delayed expressions makes. -/
def potential (s : Store V K) : Nat :=
  s.nodes.foldl (fun n shape =>
    match shape with
    | .deferred (.delayed e _) none => n + e.weight
    | _ => n) 0

end Store

/-- A walk over what can be reached from a reference. -/
structure Walk where
  /-- What is in use from the first step to the last. -/
  held : List Ref
  seen : Std.TreeSet Nat := ∅
  /-- How many targets were given. -/
  bound : Nat := 0
  /-- Whether no name has let go of a node yet. As long as none has, what was seen is kept by `held` and the names. -/
  steady : Bool := true
  /-- The nodes that `held` and the names kept when a name last let go of a node. -/
  kept : Store.Liveness

/-- The nodes that are alive with `pending` in use. Holders are counted only for a node that is not known to be
kept. -/
def Walk.liveness (w : Walk) (s : Store V K) (pending : List Ref) : Store.Liveness :=
  let counted := Store.Liveness.ofHolders (.mk fun _ => s.holders (pending ++ w.held))
  ⟨fun i => (w.steady && w.seen.contains i) || w.kept.isAlive i || counted.isAlive i⟩

/-- The target of a deferred node; `pending` is in use meanwhile. -/
def produce (w : Walk) (pending : List Ref) : Origin V K → Work V K (Ref × Walk)
  | .known body => pure (body, w)
  | .delayed e sc => do
    let before := (← get).releases
    let t ← EStateM.adaptExcept
      (fun
        | .badExpression => .badDeferredExpression
        | fault => fault)
      (e.evaluate (pending ++ w.held) sc)
    if (← get).releases = before then return (t, w)
    else return (t, { w with steady := false, kept := ← getLiveness w.held })

def liftExcept {α : Type} : Except Fault α → Work V K α
  | .ok a => pure a
  | .error e => throw e

/-- Gives the deferred node `i` its target, which must be there and not come back to `i` through targets
alone. -/
def bindTarget (w : Walk) (pending : List Ref) (i : NodeId) (origin : Origin V K) :
    Work V K (Ref × Walk) := do
  let pending := .node i :: pending
  let (t, w) ← produce w pending origin
  let s ← get
  if (s.deref? (w.liveness s pending) t).isNone then throw .deadReference
  modify (·.setTarget i t)
  let s ← get
  let _ ← liftExcept (s.resolve (w.liveness s pending) i)
  return (t, { w with bound := w.bound + 1 })

/-- Visits what is pending, first things first. What is pending is in use until its turn comes. -/
def realizeFrom : Nat → List Ref → Walk → Work V K Walk
  | _, [], w => pure w
  | 0, _ :: _, _ => throw .unfinished
  | fuel + 1, r :: pending, w => do
    let s ← get
    match s.deref? (w.liveness s pending) r with
    | none => throw .deadReference
    | some i =>
      if i ∈ w.seen then realizeFrom fuel pending w
      else
        let w := { w with seen := w.seen.insert i }
        match s.nodes[i]? with
        | some (.disjunction a b) | some (.sequence a b) => realizeFrom fuel (a :: b :: pending) w
        | some (.transform _ a) => realizeFrom fuel (a :: pending) w
        | some (.deferred _ (some t)) => realizeFrom fuel (t :: pending) w
        | some (.deferred origin none) =>
          let (t, w) ← bindTarget w pending i origin
          realizeFrom fuel (t :: pending) w
        | _ => realizeFrom fuel pending w

/-- Binds every deferred node that can be reached from `r`. Each node makes at most two others pending. -/
def realize (held : List Ref) (r : Ref) : Work V K Unit := do
  let held := r :: held
  let s ← get
  let fuel := 2 * (s.nodes.size + s.potential) + 1
  let w ← realizeFrom fuel [r] { held, kept := s.liveness held }
  if w.bound ≠ 0 then
    record do return .realized (← deref held r) w.seen.size w.bound

end Predictive.Grammar
