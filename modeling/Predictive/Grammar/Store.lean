import Predictive.Grammar.Node
import Predictive.Solver.Reading
import Std.Data.TreeMap

/-! All nodes made so far, their names, and what is known about them. -/
namespace Predictive.Grammar

inductive FactName where
  /-- The kinds that can start a non-empty match. -/
  | first
  /-- The value of the empty match, if there is one. -/
  | emptyValue
  /-- Whether anything matches. -/
  | productive
  /-- What must not follow. -/
  | restrictions
  | conflicts
  deriving DecidableEq

namespace FactName

instance : Ord FactName := ⟨compareOn fun f => f.ctorIdx⟩

instance : Std.TransOrd FactName :=
  inferInstanceAs (Std.TransCmp (compareOn fun f : FactName => f.ctorIdx))

instance : Std.LawfulEqOrd FactName where
  compare_self := Std.LawfulEqOrd.compare_eq_iff_eq (α := Nat).2 rfl
  eq_of_compare {a b} h := by
    have := Std.LawfulEqOrd.eq_of_compare (α := Nat) h
    revert this
    cases a <;> cases b <;> decide

/-- The values of a fact about a grammar with results in `V` and kinds in `K`. -/
abbrev Carrier (V K : Type) [Ord K] : FactName → Type
  | first => FinSet K
  | emptyValue => Option V
  | productive => Bool
  | restrictions => FinSet (Restriction K)
  | conflicts => FinSet (Conflict K)

instance (V K : Type) [Ord K] [DecidableEq K] : (f : FactName) → Fact (f.Carrier V K)
  | first => inferInstanceAs (Fact (FinSet K))
  | emptyValue => inferInstanceAs (Fact (Option V))
  | productive => inferInstanceAs (Fact Bool)
  | restrictions => inferInstanceAs (Fact (FinSet (Restriction K)))
  | conflicts => inferInstanceAs (Fact (FinSet (Conflict K)))

end FactName

structure Store (V K : Type) [Ord K] where
  nodes : Array (Shape V K) := #[]
  /-- For each self-reference handed out, the node of its definition once that is complete. -/
  knots : Array (Option NodeId) := #[]
  names : Std.TreeMap String Ref := ∅
  /-- How often a name has let go of a node in favour of something else. -/
  releases : Nat := 0
  book : Solver.Book (FactName.Carrier V K) := {}
  /-- Whether somebody listens. If not, no event is recorded. -/
  listening : Bool := false
  events : Array (Event K) := #[]

/-- Work on a store that may stop at a fault; what was done before stays done. -/
abbrev Work (V K : Type) [Ord K] := EStateM Fault (Store V K)

namespace Store

variable {V K : Type} [Ord K]

/-- The node that a reference names, whether or not it is alive. -/
def nodeOf? (s : Store V K) : Ref → Option NodeId
  | .node i => some i
  | .self k => (s.knots[k]?).join

end Store

variable {V K : Type} [Ord K]

def add (shape : Shape V K) : Work V K Ref :=
  modifyGet fun s => (.node s.nodes.size, { s with nodes := s.nodes.push shape })

/-- Records an event, which is worked out only if somebody listens. -/
def record (event : Work V K (Event K)) : Work V K Unit := do
  if (← get).listening then
    let e ← event
    modify fun s => { s with events := s.events.push e }

/-- A new self-reference. -/
def openKnot : Work V K Nat :=
  modifyGet fun s => (s.knots.size, { s with knots := s.knots.push none })

/-- The recursive definition with the given body, to which the self-reference `knot` now leads. -/
def tieKnot (knot : Nat) (body : Ref) : Work V K Ref :=
  modifyGet fun s =>
    let id := s.nodes.size
    (.node id, { s with
      nodes := s.nodes.push (.deferred (.known body) none)
      knots := s.knots.setIfInBounds knot (some id) })

end Predictive.Grammar
