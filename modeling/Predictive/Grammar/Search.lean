import Predictive.Grammar.Realize

/-! Finding a node below another. -/
namespace Predictive.Grammar

variable {V K : Type} [Ord K]

namespace Store

/-- What a node leads to, from left to right. -/
def below (s : Store V K) (i : NodeId) : List Ref :=
  match s.nodes[i]? with
  | some (.disjunction a b) | some (.sequence a b) => [a, b]
  | some (.transform _ a) => [a]
  | some (.deferred _ target) => target.toList
  | _ => []

/-- Visits what is pending, first things first, until the node `id` is met. -/
def searchFrom (s : Store V K) (l : Liveness) (id : NodeId) :
    Nat → List Ref → Std.TreeSet Nat → Except Fault (Option Ref)
  | _, [], _ => .ok none
  | 0, _ :: _, _ => .error .unfinished
  | n + 1, r :: pending, seen =>
    match s.deref? l r with
    | none => .error .deadReference
    | some i =>
      if i = id then .ok (some r)
      else if i ∈ seen then s.searchFrom l id n pending seen
      else s.searchFrom l id n (s.below i ++ pending) (seen.insert i)

/-- A reference to the node `id` from `r` or a node below. Each node makes at most two others pending. -/
def search (s : Store V K) (l : Liveness) (r : Ref) (id : NodeId) : Except Fault (Option Ref) :=
  s.searchFrom l id (2 * s.nodes.size + 1) [r] ∅

end Store

/-- The node `id` as it is reached from `r`, realized first. -/
def subtree (held : List Ref) (r : Ref) (id : NodeId) : Work V K (Option Ref) := do
  realize held r
  let s ← get
  liftExcept (s.search (s.liveness (r :: held)) r id)

end Predictive.Grammar
