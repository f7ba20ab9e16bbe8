import Predictive.Event
import Predictive.Transformation

/-! Grammars that can be read with one token of lookahead, as a table of entries that name each other by slot. -/
namespace Predictive

/-- The shape of an entry. Deferred nodes have none: they are the entries they stand for. -/
inductive Form (V K : Type) where
  | success (v : V)
  | element (k : K)
  | disjunction (left right : Slot)
  | sequence (left right : Slot)
  | transform (f : Transformation V) (inner : Slot)

def Form.children {V K : Type} : Form V K → List Slot
  | success _ | element _ => []
  | disjunction l r | sequence l r => [l, r]
  | transform _ i => [i]

/-- A form with the facts about it, and the node it comes from. -/
structure Entry (V K : Type) [Ord K] where
  form : Form V K
  first : FinSet K
  emptyValue : Option V
  productive : Bool
  restrictions : FinSet (Restriction K)
  origin : NodeId

structure ValidGrammar (V K : Type) [Ord K] where
  entries : Array (Entry V K)
  root : Slot

namespace ValidGrammar

variable {V K : Type} [Ord K] (g : ValidGrammar V K)

def size : Nat := g.entries.size

def isEmpty : Bool := g.entries.isEmpty

def entry? (s : Slot) : Option (Entry V K) := g.entries[s]?

end ValidGrammar
end Predictive
