import Predictive.Grammar.Store

/-!
Which nodes are alive. A node or the facts of a node are kept by whatever holds them: the names, work in
progress, nodes that have them as parts, and the facts that are computed from them. What nothing holds goes,
and then what only it held.
-/
namespace Predictive.Grammar

/-- What can be held: a node, or the facts of a node. -/
inductive Holding where
  | node (id : NodeId)
  | facts (id : NodeId)

def Holding.index : Holding → Nat
  | node i => 2 * i
  | facts i => 2 * i + 1

/-- A self-reference holds nothing. -/
def Ref.held : Ref → List Holding
  | .node i => [.node i]
  | .self _ => []

def Shape.heldByNode {V K : Type} : Shape V K → List Ref
  | .success _ | .element _ => []
  | .disjunction l r | .sequence l r => [l, r]
  | .transform _ r => [r]
  | .deferred (.known body) target => body :: target.toList
  | .deferred (.delayed _ scope) target => scope.refs ++ target.toList

namespace Store

variable {V K : Type} [Ord K]

def heldBy (s : Store V K) : Holding → List Holding
  | .node i =>
    match s.nodes[i]? with
    | some shape => .facts i :: shape.heldByNode.flatMap Ref.held
    | none => []
  | .facts i =>
    match s.nodes[i]? with
    | some (.disjunction l r) | some (.sequence l r) => l.held ++ r.held
    | some (.transform _ r) => r.held
    | some (.deferred _ (some t)) => (s.nodeOf? t).toList.map .facts
    | _ => []

/-- For each holding the number of its holders, by index. -/
abbrev Holders := Array Nat

def countIn (n : Holders) (h : Holding) : Holders := n.modify h.index (· + 1)

/-- Lets go of the holdings of the pending ones, none of which has a holder. -/
def release (s : Store V K) : Nat → List Holding → Holders → Holders
  | 0, _, n => n
  | _, [], n => n
  | fuel + 1, h :: pending, n =>
    let (pending, n) := (s.heldBy h).foldl
      (fun (pending, n) g =>
        let n := n.modify g.index (· - 1)
        (if n[g.index]? = some 0 then g :: pending else pending, n))
      (pending, n)
    s.release fuel pending n

/-- Which nodes are alive. -/
structure Liveness where
  isAlive : NodeId → Bool

/-- The nodes that have a holder; the holders are counted when somebody asks. -/
def Liveness.ofHolders (n : Thunk Holders) : Liveness :=
  ⟨fun i => (n.get[(Holding.node i).index]?).getD 0 != 0⟩

/-- The holders that are left when all that nothing holds has gone, with the names and `held` in use. -/
def holders (s : Store V K) (held : List Ref) : Holders :=
  let all := (List.range s.nodes.size).flatMap fun i => [Holding.node i, .facts i]
  let n := Array.replicate (2 * s.nodes.size) 0
  let n := (s.names.values ++ held).foldl (fun n r => r.held.foldl countIn n) n
  let n := all.foldl (fun n h => (s.heldBy h).foldl countIn n) n
  s.release all.length (all.filter fun h => n[h.index]? = some 0) n

def liveness (s : Store V K) (held : List Ref) : Liveness := .ofHolders (.mk fun _ => s.holders held)

/-- The node that a reference leads to. -/
def deref? (s : Store V K) (l : Liveness) : Ref → Option NodeId
  | .node i => some i
  | .self k => (s.nodeOf? (.self k)).filter l.isAlive

end Store

variable {V K : Type} [Ord K]

def getLiveness (held : List Ref) : Work V K Store.Liveness := do return (← get).liveness held

/-- The node that `r` leads to, with `r` and `held` in use. -/
def deref (held : List Ref) (r : Ref) : Work V K NodeId := do
  match r with
  | .node i => return i
  | .self _ =>
    let s ← get
    match s.deref? (s.liveness (r :: held)) r with
    | some i => return i
    | none => throw .deadReference

end Predictive.Grammar
