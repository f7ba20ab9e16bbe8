import Predictive.Grammar.Realize

/-!
The five facts of every node as cells. Each is computed from facts of the parts; restrictions and conflicts
need the first three as well.
-/
namespace Predictive.Grammar

variable {V K : Type} [Value V] [Kind K]

abbrev NodeQuery (V K : Type) [Ord K] := Solver.Query (FactName.Carrier V K) Fault

/-- The facts of a part. -/
abbrev Part (V K : Type) [Ord K] := (f : FactName) → NodeQuery V K (f.Carrier V K)

namespace Part

def first (p : Part V K) : NodeQuery V K (FinSet K) := p .first

def emptyValue (p : Part V K) : NodeQuery V K (Option V) := p .emptyValue

def productive (p : Part V K) : NodeQuery V K Bool := p .productive

def restrictions (p : Part V K) : NodeQuery V K (FinSet (Restriction K)) := p .restrictions

def conflicts (p : Part V K) : NodeQuery V K (FinSet (Conflict K)) := p .conflicts

end Part

/-- The left alternative gives the empty value if both could; that is a conflict anyway. -/
def disjunctionRule (id : NodeId) (l r : Part V K) : Part V K
  | .first => do return (← l.first) ∪ (← r.first)
  | .emptyValue => do
    match ← l.emptyValue with
    | some v => return some v
    | none => r.emptyValue
  | .productive => do
    if ← l.productive then return true else r.productive
  | .restrictions => do
    let below := (← l.restrictions) ∪ (← r.restrictions)
    let below ← if (← l.emptyValue).isSome then
      pure (FinSet.insert ⟨id, ← r.first⟩ below) else pure below
    if (← r.emptyValue).isSome then return FinSet.insert ⟨id, ← l.first⟩ below else return below
  | .conflicts => do
    let below := (← l.conflicts) ∪ (← r.conflicts)
    let bothEmpty ← if (← l.emptyValue).isSome then pure (← r.emptyValue).isSome else pure false
    let below := if bothEmpty then FinSet.insert (.bothAcceptEmpty id) below else below
    let shared := (← l.first) ∩ (← r.first)
    return if shared.isEmpty then below else FinSet.insert (.firstFirstClash id shared) below

/-- A sequence can start with the left kinds only if its right part can be matched at all. -/
def sequenceRule (id : NodeId) (l r : Part V K) : Part V K
  | .first => do
    let kinds ← if ← r.productive then l.first else pure ∅
    if (← l.emptyValue).isSome then return kinds ∪ (← r.first) else return kinds
  | .emptyValue => do
    match ← l.emptyValue with
    | none => return none
    | some a =>
      match ← r.emptyValue with
      | none => return none
      | some b => return some (prepend a b)
  | .productive => do
    if ← l.productive then r.productive else return false
  | .restrictions => do
    let below ← if (← r.emptyValue).isSome then l.restrictions else pure ∅
    if ← l.productive then return below ∪ (← r.restrictions) else return below
  | .conflicts => do
    let below := (← l.conflicts) ∪ (← r.conflicts)
    let next ← r.first
    let pending ← l.restrictions
    let clashes := pending.toList.filterMap fun e =>
      let kinds := e.disallowed ∩ next
      if kinds.isEmpty then none else some (Conflict.followClash e.origin id kinds)
    return below ∪ FinSet.ofList clashes

/-- Only the empty value is transformed. -/
def transformRule (f : Transformation V) (p : Part V K) : Part V K
  | .emptyValue => do
    match ← p.emptyValue with
    | none => return none
    | some v =>
      match f.apply v with
      | .ok w => return some w
      | .error text => .fail (.failed text)
  | .first => p.first
  | .productive => p.productive
  | .restrictions => p.restrictions
  | .conflicts => p.conflicts

def successFact (v : V) : (f : FactName) → f.Carrier V K
  | .first => ∅
  | .emptyValue => some v
  | .productive => true
  | .restrictions => ∅
  | .conflicts => ∅

def elementFact (k : K) : (f : FactName) → f.Carrier V K
  | .first => FinSet.singleton k
  | .emptyValue => none
  | .productive => true
  | .restrictions => ∅
  | .conflicts => ∅

namespace Store

/-- The facts of the node that `r` leads to. -/
def part (s : Store V K) (l : Liveness) (r : Ref) : Part V K := fun f =>
  match s.deref? l r with
  | some i => .look i f
  | none => .fail .deadReference

/-- How the fact `f` of the node `i` is defined. -/
def definition (s : Store V K) (l : Liveness) (i : NodeId) (f : FactName) :
    Solver.Definition (FactName.Carrier V K) Fault f :=
  match s.nodes[i]? with
  | some (.success v) => .constant (successFact v f)
  | some (.element k) => .constant (elementFact k f)
  | some (.disjunction a b) => .rule (disjunctionRule i (s.part l a) (s.part l b) f)
  | some (.sequence a b) => .rule (sequenceRule i (s.part l a) (s.part l b) f)
  | some (.transform g a) => .rule (transformRule g (s.part l a) f)
  | some (.deferred _ (some t)) => .deferred Fact.bottom (s.nodeOf? t)
  | some (.deferred _ none) | none => .deferred Fact.bottom none

def family (s : Store V K) (l : Liveness) : Solver.Family (FactName.Carrier V K) Fault where
  size := 5 * s.nodes.size
  definition := s.definition l

/-- More passes than the facts of `n` nodes need. -/
def passLimit (n : Nat) : Nat := Nat.pow (n + 4) 12

end Store

def Fault.ofFailure : Solver.Failure Fault → Fault
  | .boundToItself => .boundToItself
  | .rule e => e
  | .unfinished => .unfinished

/-- The settled value of a fact of the node `i`. -/
def settledFact (l : Store.Liveness) (i : NodeId) (f : FactName) : Work V K (f.Carrier V K) := do
  let s ← get
  let (r, book) := (s.family l).get (Store.passLimit s.nodes.size) i f s.book
  set { s with book }
  match r with
  | .error e => throw (Fault.ofFailure e)
  | .ok (v, none) => return v
  | .ok (v, some effort) =>
    record (pure (.settled effort.passes effort.rules))
    return v

/-- The fact `f` of the grammar `r`, realized first. -/
def fact (held : List Ref) (f : FactName) (r : Ref) : Work V K (f.Carrier V K) := do
  realize held r
  let i ← deref held r
  settledFact (← getLiveness (r :: held)) i f

/-- The kinds that can start a non-empty match. -/
def first (held : List Ref) (r : Ref) : Work V K (FinSet K) := fact held .first r

/-- The value of the empty match, if there is one. -/
def emptyValue (held : List Ref) (r : Ref) : Work V K (Option V) := fact held .emptyValue r

/-- Whether anything matches. -/
def isProductive (held : List Ref) (r : Ref) : Work V K Bool := fact held .productive r

def restrictions (held : List Ref) (r : Ref) : Work V K (FinSet (Restriction K)) := fact held .restrictions r

def conflicts (held : List Ref) (r : Ref) : Work V K (FinSet (Conflict K)) := fact held .conflicts r

end Predictive.Grammar
