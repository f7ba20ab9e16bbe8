import Predictive.Grammar.Conflict

/-! What the library records about its work. -/
namespace Predictive

/-- Position of a part in a validated grammar. -/
abbrev Slot := Nat

def Slot.text (s : Slot) : String := "@" ++ s.repr

inductive Event (K : Type) where
  | settled (passes rules : Nat)
  | realized (root : NodeId) (reachable bound : Nat)
  | rejected (root : NodeId) (conflicts : Nat)
  | validated (root : NodeId) (parts : Nat)
  | focused (kind : K) (leaf : Slot) (depth : Nat)
  | resuming (part : Slot) (kind : K)
  | consumed (position : Nat) (kind : K) (depth : Nat)

namespace Event

variable {K : Type}

/-- Verdicts and realizations are for everyone, single steps only for those who trace. -/
def isTrace : Event K → Bool
  | realized .. | rejected .. | validated .. => false
  | _ => true

def text [Shown K] : Event K → String
  | settled passes rules => "property settled after " ++ passes.repr ++ " pass(es), " ++ rules.repr ++ " rule(s)"
  | realized root reachable bound =>
    "realized grammar " ++ NodeId.text root ++ ": " ++ reachable.repr ++ " node(s) reachable, " ++
      bound.repr ++ " deferred node(s) bound"
  | rejected root n => "grammar " ++ NodeId.text root ++ " rejected with " ++ n.repr ++ " conflict(s)"
  | validated root n => "grammar " ++ NodeId.text root ++ " validated into " ++ n.repr ++ " node(s)"
  | focused k leaf depth =>
    "focused " ++ shown k ++ " at " ++ Slot.text leaf ++ " (depth " ++ depth.repr ++ ")"
  | resuming part k => "resuming at " ++ Slot.text part ++ " with " ++ shown k
  | consumed position k depth =>
    "token " ++ position.repr ++ " of kind " ++ shown k ++ " at depth " ++ depth.repr

def line [Shown K] (e : Event K) : String := (if e.isTrace then "TRACE " else "DEBUG ") ++ e.text

end Event
end Predictive
