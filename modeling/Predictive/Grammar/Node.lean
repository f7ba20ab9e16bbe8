import Predictive.Event
import Predictive.Transformation

/-! Grammar nodes and the expressions that make them. -/
namespace Predictive.Grammar

/-- How a node is referred to. A self-reference names a recursive definition by its knot, does not keep it
alive, and leads nowhere until the definition is complete. -/
inductive Ref where
  | node (id : NodeId)
  | self (knot : Nat)
  deriving DecidableEq

/-- Grammar expressions. Evaluating one makes its nodes, those of the parts before that of the whole. -/
inductive Expr (V K : Type) where
  | success (v : V)
  | element (k : K)
  | disjunction (left right : Expr V K)
  | sequence (left right : Expr V K)
  | transform (f : Transformation V) (inner : Expr V K)
  /-- `inner`, or nothing for `v`. -/
  | optional (inner : Expr V K) (v : V)
  /-- `inner` any number of times, to the right; `v` stands at the end. -/
  | many (inner : Expr V K) (v : V)
  /-- `inner` once, then any number of times. -/
  | many1 (inner : Expr V K) (v : V)
  /-- A definition in whose body `x` is the definition itself. -/
  | recursive (x : String) (body : Expr V K)
  /-- A node whose expression is evaluated when the grammar is realized. -/
  | deferred (e : Expr V K)
  | name (x : String)
  /-- `e`, also known as `x` from then on. -/
  | save (x : String) (e : Expr V K)
  /-- `e`, which must be alive. -/
  | touch (e : Expr V K)
  /-- `start`, then `step` evaluated `n` times with `x` standing for the result before. -/
  | repeated (n : Nat) (x : String) (start step : Expr V K)
  /-- An element whose kind depends on the round of the innermost repetition. -/
  | indexed (kind : Nat → K)
  /-- What cannot be read. -/
  | malformed
  deriving Inhabited

/-- An upper bound for the nodes that come of an expression, now or when its deferred parts are evaluated. -/
def Expr.weight {V K : Type} : Expr V K → Nat
  | success _ | element _ | indexed _ => 1
  | disjunction l r | sequence l r => l.weight + r.weight + 1
  | transform _ e | recursive _ e | deferred e => e.weight + 1
  | optional e _ => e.weight + 2
  | many e _ => e.weight + 4
  | many1 e _ => e.weight + 5
  | name _ | malformed => 0
  | save _ e | touch e => e.weight
  | repeated n _ start step => start.weight + n * step.weight

/-- Where an expression stands: the definitions and repetitions around it, innermost first, and the round of
the innermost repetition. -/
structure Scope where
  locals : List (String × Ref) := []
  round : Nat := 0

def Scope.bind (sc : Scope) (x : String) (r : Ref) : Scope := { sc with locals := (x, r) :: sc.locals }

def Scope.refs (sc : Scope) : List Ref := sc.locals.map Prod.snd

/-- Where the target of a deferred node comes from: a body known from the start, or an expression. -/
inductive Origin (V K : Type) where
  | known (body : Ref)
  | delayed (e : Expr V K) (scope : Scope)

inductive Shape (V K : Type) where
  | success (v : V)
  | element (k : K)
  | disjunction (left right : Ref)
  | sequence (left right : Ref)
  | transform (f : Transformation V) (inner : Ref)
  /-- Stands for its target, once that is known. -/
  | deferred (origin : Origin V K) (target : Option Ref)

/-- The node a deferred node stands for, as far as it is known without evaluating anything. -/
def Origin.definition? {V K : Type} (o : Origin V K) (target : Option Ref) : Option Ref :=
  match target, o with
  | some t, _ => some t
  | none, known body => some body
  | none, delayed .. => none

/-- Why work on a grammar stops. -/
inductive Fault where
  /-- A self-reference was used while its definition was not there. -/
  | deadReference
  /-- A deferred node stands for itself. -/
  | unguarded (id : NodeId)
  | boundToItself
  /-- A transformation gave up. -/
  | failed (text : String)
  | badExpression
  | badDeferredExpression
  | unfinished
  deriving DecidableEq

def Fault.message : Fault → String
  | deadReference =>
    "recursive grammar reference used while its definition is being built or after it was dropped"
  | unguarded id =>
    "unguarded recursion: deferred grammar " ++ NodeId.text id ++ " resolves to itself without consuming input"
  | boundToItself => "deferred property is bound to itself"
  | failed text => text
  | badExpression => "bad-input"
  | badDeferredExpression => "bad-input in deferred"
  | unfinished => "unfinished"

end Predictive.Grammar
