import Predictive.Grammar.Liveness

/-! Evaluating grammar expressions: parts before the whole, left before right. -/
namespace Predictive.Grammar

variable {V K : Type} [Ord K]

/-- Does `step` `n` times from the round `i` on. -/
def rounds (step : Nat → Ref → Work V K Ref) : Nat → Nat → Ref → Work V K Ref
  | 0, _, r => pure r
  | n + 1, i, r => do rounds step n (i + 1) (← step i r)

/-- The reference for a name, from the inside outwards. -/
def lookup (sc : Scope) (x : String) : Work V K Ref := do
  match sc.locals.lookup x with
  | some r => return r
  | none =>
    match (← get).names[x]? with
    | some r => return r
    | none => throw .badExpression

def setName (x : String) (r : Ref) : Work V K Unit :=
  modify fun s =>
    { s with
      names := s.names.insert x r
      releases := s.releases + s.names[x]?.elim 0 fun old => old.held.length }

/-- Any number of `inner`, to the right, with `v` at the end. -/
def addMany (inner : Ref) (v : V) : Work V K Ref := do
  let knot ← openKnot
  let more ← add (.sequence inner (.self knot))
  let done ← add (.success v)
  tieKnot knot (← add (.disjunction more done))

/-- The recursive definition whose body `make` makes. If the body cannot be read, the definition is made all the
same, with itself for a body, and dropped. -/
def defineKnot (knot : Nat) (make : Work V K Ref) : Work V K Ref := do
  tieKnot knot (← tryCatch make fun fault => do
    if fault = .badExpression then
      let _ ← tieKnot knot (.self knot)
    throw fault)

/-- Makes the nodes of an expression. The references of `held` are in use meanwhile. -/
def Expr.evaluate (held : List Ref) (sc : Scope) : Expr V K → Work V K Ref
  | success v => add (.success v)
  | element k => add (.element k)
  | disjunction l r => do
    let a ← l.evaluate held sc
    add (.disjunction a (← r.evaluate (a :: held) sc))
  | sequence l r => do
    let a ← l.evaluate held sc
    add (.sequence a (← r.evaluate (a :: held) sc))
  | transform f e => do add (.transform f (← e.evaluate held sc))
  | optional e v => do
    let a ← e.evaluate held sc
    add (.disjunction a (← add (.success v)))
  | many e v => do addMany (← e.evaluate held sc) v
  | many1 e v => do
    let a ← e.evaluate held sc
    add (.sequence a (← addMany a v))
  | recursive x body => do
    let knot ← openKnot
    defineKnot knot (body.evaluate held (sc.bind x (.self knot)))
  | deferred e => add (.deferred (.delayed e sc) none)
  | name x => lookup sc x
  | save x e => do
    let r ← e.evaluate held sc
    setName x r
    return r
  | touch e => do
    let r ← e.evaluate held sc
    let _ ← deref (sc.refs ++ held) r
    return r
  | repeated n x start step => do
    rounds (fun i r => step.evaluate held { sc.bind x r with round := i }) n 0
      (← start.evaluate held sc)
  | indexed kind => add (.element (kind sc.round))
  | malformed => throw .badExpression

end Predictive.Grammar
