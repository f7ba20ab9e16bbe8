import Predictive.Grammar.Facts
import Predictive.Grammar.Render
import Predictive.Grammar.Search
import Predictive.ValidGrammar

/-! The verdict on a grammar: a table for parsing, or the conflicts that stand against it. -/
namespace Predictive.Grammar

variable {V K : Type} [Value V] [Kind K]

/-- The slots given to nodes so far; `order` has the nodes by slot. -/
structure Layout where
  slots : Std.TreeMap Nat Slot := ∅
  order : Array NodeId := #[]

/-- The slot of a node, a new one after all others if it has none. -/
def Layout.slot (w : Layout) (i : NodeId) : Slot × Layout :=
  match w.slots[i]? with
  | some k => (k, w)
  | none => (w.order.size, ⟨w.slots.insert i w.order.size, w.order.push i⟩)

namespace Store

/-- The slot of the node that `r` stands for. -/
def slot (s : Store V K) (l : Liveness) (r : Ref) (w : Layout) : Except Fault (Slot × Layout) :=
  match s.deref? l r with
  | none => .error .deadReference
  | some i => (s.resolve l i).map w.slot

/-- The form of the node `i`, whose parts get slots from left to right. -/
def form (s : Store V K) (l : Liveness) (i : NodeId) (w : Layout) : Except Fault (Form V K × Layout) :=
  match s.nodes[i]? with
  | some (.success v) => .ok (.success v, w)
  | some (.element k) => .ok (.element k, w)
  | some (.disjunction a b) =>
    (s.slot l a w).bind fun (a, w) => (s.slot l b w).map fun (b, w) => (.disjunction a b, w)
  | some (.sequence a b) =>
    (s.slot l a w).bind fun (a, w) => (s.slot l b w).map fun (b, w) => (.sequence a b, w)
  | some (.transform f a) => (s.slot l a w).map fun (a, w) => (.transform f a, w)
  | some (.deferred ..) | none => .error .unfinished

/-- The forms of the nodes from slot `k` on, each with its node, up to the first node that has none, and why. -/
def layOutFrom (s : Store V K) (l : Liveness) : Nat → Slot → Layout →
    List (NodeId × Form V K) × Except Fault Unit
  | n, k, w =>
    match w.order[k]?, n with
    | none, _ => ([], .ok ())
    | some _, 0 => ([], .error .unfinished)
    | some i, n + 1 =>
      match s.form l i w with
      | .error e => ([], .error e)
      | .ok (form, w) => (s.layOutFrom l n (k + 1) w).map ((i, form) :: ·) id

/-- All nodes below `r` that are not deferred, in the order in which they get their slots: the forms up to
the first node that has none, and why. -/
def layOut (s : Store V K) (l : Liveness) (r : Ref) :
    Except Fault (Slot × List (NodeId × Form V K) × Except Fault Unit) :=
  (s.slot l r {}).map fun (root, w) => (root, s.layOutFrom l s.nodes.size 0 w)

end Store

/-- The form with the settled facts of its node. -/
def entry (l : Store.Liveness) (i : NodeId) (form : Form V K) : Work V K (Entry V K) := do
  let first ← settledFact l i .first
  let emptyValue ← settledFact l i .emptyValue
  let productive ← settledFact l i .productive
  let restrictions ← settledFact l i .restrictions
  return { form, first, emptyValue, productive, restrictions, origin := i }

/-- The table for a realized grammar without conflicts. The facts of a node are settled before the nodes
after it get their forms. -/
def lower (held : List Ref) (r : Ref) : Work V K (ValidGrammar V K) := do
  let s ← get
  let l := s.liveness (r :: held)
  let (root, forms, outcome) ← liftExcept (s.layOut l r)
  let entries ← forms.mapM fun (i, form) => entry l i form
  liftExcept outcome
  return ⟨entries.toArray, root⟩

/-- A grammar that was found not to be LL(1), with its conflicts, of which there is at least one. -/
structure Rejection (K : Type) [Ord K] where
  grammar : Ref
  conflicts : FinSet (Conflict K)

namespace Rejection

def message (e : Rejection K) : String :=
  "grammar is not LL(1): " ++ e.conflicts.size.repr ++ " conflict(s)"

def debugText (e : Rejection K) : String :=
  "ValidationError \x7b conflicts: " ++ shown e.conflicts ++ " \x7d"

def describe (held : List Ref) (e : Rejection K) (c : Conflict K) : Work V K String := do
  let line := "  - " ++ c.message ++ "\n"
  match ← subtree held e.grammar c.disjunction with
  | none => return line
  | some r => return line ++ "      at " ++ (← render (e.grammar :: held) r) ++ "\n"

/-- Each conflict on a line of its own, followed by the disjunction it comes from. -/
def report (held : List Ref) (e : Rejection K) : Work V K String := do
  let lines ← e.conflicts.toList.mapM (e.describe held)
  return e.message ++ "\n" ++ String.join lines

end Rejection

/-- Decides whether one token of lookahead is enough for `r`. -/
def validate (held : List Ref) (r : Ref) : Work V K (Except (Rejection K) (ValidGrammar V K)) := do
  let found ← conflicts held r
  if found.isEmpty then
    let g ← lower held r
    record do return .validated (← deref held r) g.size
    return .ok g
  else
    record do return .rejected (← deref held r) found.size
    return .error ⟨r, found⟩

end Predictive.Grammar
