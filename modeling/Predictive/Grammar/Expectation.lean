import Predictive.Grammar.Validate

/-! What one may expect of a grammar, checked one after the other until something else is found. -/
namespace Predictive.Grammar

inductive Expectation (V K : Type) where
  | valid
  | invalid
  | conflictCount (n : Nat)
  | bothAcceptEmpty
  /-- Some disjunction has alternatives that share exactly these kinds. -/
  | firstFirstClash (kinds : List K)
  /-- Some disjunction is followed by exactly these kinds of its own. -/
  | followClash (kinds : List K)
  /-- Exactly these kinds can start a match. -/
  | accepts (kinds : List K)
  | emptyValue (v : V)
  | notNullable
  | productive (b : Bool)

variable {V K : Type} [Value V] [Kind K]

def summarize (found : FinSet (Conflict K)) : String :=
  if found.isEmpty then "none" else "; ".intercalate (found.toList.map Conflict.message)

/-- The complaint that two values differ. -/
def mismatch {α : Type} [Shown α] (left right : α) (message : String) : String :=
  "assertion \x60left == right\x60 failed: " ++ message ++ "\n  left: " ++ shown left ++ "\n right: " ++ shown right

namespace Expectation

/-- The complaint about `r`, whose conflicts are `found`, if it is not as expected. -/
def complaint? [BEq V] (r : Ref) (found : FinSet (Conflict K)) :
    Expectation V K → Work V K (Option String)
  | valid => do
    if found.isEmpty then
      match ← validate [] r with
      | .ok _ => return none
      | .error _ => return some "assertion failed: self.grammar.validate().is_ok()"
    else
      return some ("Expected " ++ (← render [] r) ++ " to be LL(1), found conflicts: " ++ summarize found)
  | invalid => do
    if found.isEmpty then return some ("Expected " ++ (← render [] r) ++ " to have conflicts, found none")
    else return none
  | conflictCount n => do
    if found.size = n then return none
    else return some (mismatch found.size n ("Expected " ++ n.repr ++ " conflict(s), found " ++
      found.size.repr ++ ": " ++ summarize found))
  | bothAcceptEmpty => do
    let isOne
      | .bothAcceptEmpty _ => true
      | _ => false
    if found.toList.any isOne then return none
    else return some ("Expected a both-accept-empty conflict, found: " ++ summarize found)
  | firstFirstClash kinds => do
    let expected := FinSet.ofList kinds
    let isOne
      | .firstFirstClash _ kinds => kinds == expected
      | _ => false
    if found.toList.any isOne then return none
    else return some ("Expected a first/first clash on " ++ shown expected ++ ", found: " ++ summarize found)
  | followClash kinds => do
    let expected := FinSet.ofList kinds
    let isOne
      | .followClash _ _ kinds => kinds == expected
      | _ => false
    if found.toList.any isOne then return none
    else return some ("Expected a follow clash on " ++ shown expected ++ ", found: " ++ summarize found)
  | accepts kinds => do
    let expected := FinSet.ofList kinds
    let actual ← first [] r
    if actual = expected then return none
    else return some (mismatch actual expected ("Expected " ++ (← render [] r) ++ " to accept " ++
      shown expected ++ ", found " ++ shown actual))
  | emptyValue v => do
    let actual ← Grammar.emptyValue [] r
    if actual == some v then return none
    else return some (mismatch actual (some v) ("Unexpected nullable value for " ++ (← render [] r)))
  | notNullable => do
    let actual ← Grammar.emptyValue [] r
    if actual.isNone then return none
    else return some ("Expected " ++ (← render [] r) ++ " not to be nullable, found " ++ shown actual)
  | productive b => do
    let actual ← isProductive [] r
    if actual = b then return none
    else return some (mismatch actual b ("Expected productive = " ++ shown b ++ " for " ++ (← render [] r)))

/-- How many expectations `r` meets, and the first complaint. -/
def checkFrom [BEq V] (r : Ref) (found : FinSet (Conflict K)) :
    Nat → List (Expectation V K) → Work V K (Nat × Option String)
  | met, [] => pure (met, none)
  | met, e :: rest => do
    match ← tryCatch (e.complaint? r found) fun fault => pure (some fault.message) with
    | some text => return (met, some text)
    | none => checkFrom r found (met + 1) rest

/-- The conflicts of `r` are looked for once, before any expectation is checked. -/
def check [BEq V] (r : Ref) (expectations : List (Expectation V K)) : Work V K (Nat × Option String) := do
  match ← tryCatch (Except.ok <$> conflicts [] r) fun fault => pure (Except.error fault) with
  | .error fault => return (0, some fault.message)
  | .ok found => checkFrom r found 0 expectations

end Expectation
end Predictive.Grammar
