import Predictive.Text.Shown

/-! Limits on what one parse may take, and the forms in which they are written. -/
namespace Predictive

/-- A limit that is absent does not apply. Limits stay below `Limits.bound`. -/
structure Limits where
  maxTokens : Option Nat := none
  maxDepth : Option Nat := none
  deriving DecidableEq

namespace Limits

/-- Limits are 64-bit words. -/
def bound : Nat := UInt64.size

def unbounded : Limits := {}

/-- For input from elsewhere: a million tokens, four thousand levels. -/
def guarded : Limits := { maxTokens := some 1048576, maxDepth := some 4096 }

def preset? : String → Option Limits
  | "unbounded" => some unbounded
  | "guarded" => some guarded
  | _ => none

def withMaxTokens (l : Limits) (n : Nat) : Limits := { l with maxTokens := some n }

def withMaxDepth (l : Limits) (n : Nat) : Limits := { l with maxDepth := some n }

instance : Shown Limits where
  shown l := "ParserConfig \x7b max_tokens: " ++ shown l.maxTokens ++ ", max_depth: " ++
    shown l.maxDepth ++ " \x7d"

end Limits
end Predictive
