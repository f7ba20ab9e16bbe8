import Predictive.Limits
import Predictive.Limits.Token

/-! Limits as JSON: an object with the two limits by name, or an array with the two in order. -/
namespace Predictive

namespace Json

mutual

/-- What follows a value of any kind. -/
def skipValue : Nat → List Token → Option (List Token)
  | _, .null :: ts => some ts
  | _, .truth _ :: ts => some ts
  | _, .number _ :: ts => some ts
  | _, .text _ :: ts => some ts
  | _, .openBracket :: .closeBracket :: ts => some ts
  | n + 1, .openBracket :: ts => skipItems n ts
  | _, .openBrace :: .closeBrace :: ts => some ts
  | n + 1, .openBrace :: ts => skipMembers n ts
  | _, _ => none

/-- What follows the rest of an array, from an item on. -/
def skipItems : Nat → List Token → Option (List Token)
  | 0, _ => none
  | n + 1, ts =>
    match skipValue n ts with
    | some (.comma :: ts) => skipItems n ts
    | some (.closeBracket :: ts) => some ts
    | _ => none

/-- What follows the rest of an object, from a member on. -/
def skipMembers : Nat → List Token → Option (List Token)
  | n + 1, .text _ :: .colon :: ts =>
    match skipValue n ts with
    | some (.comma :: ts) => skipMembers n ts
    | some (.closeBrace :: ts) => some ts
    | _ => none
  | _, _ => none

end

end Json

namespace Limits

open Json (Token)

def readLimit : List Token → Option (Option Nat × List Token)
  | .null :: ts => some (none, ts)
  | .number (some n) :: ts => some (some n, ts)
  | _ => none

/-- The members of an object from one on, given the limits read so far: each limit at most once, other
members passed over. -/
def readMembers : Nat → Option (Option Nat) → Option (Option Nat) → List Token →
    Option (Limits × List Token)
  | n + 1, maxTokens, maxDepth, .text (some name) :: .colon :: ts => do
    let (maxTokens, maxDepth, ts) ←
      if name = "max_tokens" then
        if maxTokens.isSome then none
        else (readLimit ts).map fun (l, ts) => (some l, maxDepth, ts)
      else if name = "max_depth" then
        if maxDepth.isSome then none
        else (readLimit ts).map fun (l, ts) => (maxTokens, some l, ts)
      else (Json.skipValue n ts).map fun ts => (maxTokens, maxDepth, ts)
    match ts with
    | .comma :: ts => readMembers n maxTokens maxDepth ts
    | .closeBrace :: ts => some (⟨maxTokens.getD none, maxDepth.getD none⟩, ts)
    | _ => none
  | _, _, _, _ => none

def readValue (n : Nat) : List Token → Option (Limits × List Token)
  | .openBrace :: .closeBrace :: ts => some ({}, ts)
  | .openBrace :: ts => readMembers n none none ts
  | .openBracket :: .closeBracket :: ts => some ({}, ts)
  | .openBracket :: ts => do
    let (maxTokens, ts) ← readLimit ts
    match ts with
    | .closeBracket :: ts => some ({ maxTokens }, ts)
    | .comma :: ts =>
      let (maxDepth, ts) ← readLimit ts
      match ts with
      | .closeBracket :: ts => some (⟨maxTokens, maxDepth⟩, ts)
      | _ => none
    | _ => none
  | _ => none

def ofJson? (s : String) : Option Limits := do
  let ts ← Json.tokens? s
  match ← readValue ts.length ts with
  | (l, []) => some l
  | _ => none

def limitJson : Option Nat → String
  | none => "null"
  | some n => n.repr

def toJson (l : Limits) : String :=
  "\x7b\"max_tokens\":" ++ limitJson l.maxTokens ++ ",\"max_depth\":" ++ limitJson l.maxDepth ++ "\x7d"

end Limits
end Predictive
