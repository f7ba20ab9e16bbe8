import Predictive.Zipper.Fold
import Predictive.Limits

/-! Parsing token by token within limits. -/
namespace Predictive

/-- Why the tokens were not accepted. -/
inductive ParseError (K : Type) where
  | unexpectedToken (position : Nat) (kind : K)
  | unexpectedEnd (position : Nat)
  | tokenLimitExceeded (limit : Nat)
  | depthLimitExceeded (position limit : Nat)

def ParseError.message {K : Type} [Shown K] : ParseError K → String
  | unexpectedToken p k => "unexpected token " ++ shown k ++ " at position " ++ p.repr
  | unexpectedEnd p => "unexpected end of input at position " ++ p.repr
  | tokenLimitExceeded l => "input exceeds the limit of " ++ l.repr ++ " token(s)"
  | depthLimitExceeded p l => "nesting at position " ++ p.repr ++ " exceeds the depth limit of " ++ l.repr

/-- How a parse can end without a result. -/
inductive Stop (K : Type) where
  | rejected (e : ParseError K)
  | fault (f : ParseFault K)

/-- A parse in progress; `fold` is absent before the first token. -/
structure ParseState (V : Type) where
  limits : Limits
  position : Nat := 0
  fold : Option (Fold V) := none

namespace ParseState

variable {V K : Type} [Value V] [Kind K] (g : ValidGrammar V K)

def lift {α : Type} : Except (ParseFault K) α → Except (Stop K) α
  | .ok a => .ok a
  | .error f => .error (.fault f)

/-- The cursor for a token of the kind `k`, if one can come next. -/
def focus (s : ParseState V) (k : K) : Except (ParseFault K) (Option (Focus V K)) := do
  match s.fold with
  | none => if ← g.accepts k then return some (← g.focus k .top) else return none
  | some d => d.resume g k

/-- Consumes one token. The limit on tokens is tested before the token, the limit on depth after it is found
acceptable. -/
def feed (s : ParseState V) (token : K × V) : Except (Stop K) (ParseState V) := do
  match s.limits.maxTokens with
  | some limit => if limit ≤ s.position then throw (.rejected (.tokenLimitExceeded limit))
  | none => pure ()
  match ← lift (s.focus g token.1) with
  | none => throw (.rejected (.unexpectedToken s.position token.1))
  | some f =>
    match s.limits.maxDepth with
    | some limit => if limit < f.depth then throw (.rejected (.depthLimitExceeded s.position limit))
    | none => pure ()
    let d ← lift (f.advance token)
    return { s with position := s.position + 1, fold := some d }

/-- The result if the input ends here. -/
def finish (s : ParseState V) : Except (Stop K) V := do
  let v ← lift (match s.fold with
    | none => (g.entry g.root).map (·.emptyValue)
    | some d => d.finish g)
  match v with
  | some v => return v
  | none => throw (.rejected (.unexpectedEnd s.position))

/-- Feeds tokens until one is not accepted. -/
def feedAll (s : ParseState V) : List (K × V) → Except (Stop K) (ParseState V)
  | [] => .ok s
  | t :: ts => (s.feed g t).bind fun s => feedAll s ts

/-- What is recorded of `feed`. -/
def feedEvents (s : ParseState V) (k : K) : List (Event K) :=
  if s.limits.maxTokens.any (· ≤ s.position) then []
  else
    let found := match s.fold with
      | none =>
        match s.focus g k with
        | .ok (some f) => [f.event]
        | _ => []
      | some d => d.resumeEvents g k
    match s.focus g k with
    | .ok (some f) =>
      if s.limits.maxDepth.any (· < f.depth) then found else found ++ [.consumed s.position k f.depth]
    | _ => found

/-- What is recorded of feeding tokens until one is not accepted, after `past`. -/
def feedAllEvents (s : ParseState V) (past : Array (Event K)) : List (K × V) → Array (Event K)
  | [] => past
  | t :: ts =>
    let past := past ++ s.feedEvents g t.1
    match s.feed g t with
    | .ok s => feedAllEvents s past ts
    | .error _ => past

end ParseState

namespace ValidGrammar

variable {V K : Type} [Value V] [Kind K] (g : ValidGrammar V K)

def start (limits : Limits) : ParseState V := { limits }

/-- The value of a whole token list. -/
def parse (limits : Limits) (tokens : List (K × V)) : Except (Stop K) V :=
  ((start limits : ParseState V).feedAll g tokens).bind fun s => s.finish g

/-- Tokens of the given kinds, with values made from the kinds, parsed without limits. -/
def parseKinds (kinds : List K) (valueOf : K → V) : Except (Stop K) V :=
  g.parse .unbounded (kinds.map fun k => (k, valueOf k))

end ValidGrammar
end Predictive
