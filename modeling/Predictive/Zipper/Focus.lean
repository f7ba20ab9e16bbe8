import Predictive.Zipper.Context
import Predictive.Kind

/-! Finding the element that consumes the next token. -/
namespace Predictive

/-- A cursor on the element at `leaf`, which consumes a token of the kind `kind`. -/
structure Focus (V K : Type) where
  leaf : Slot
  kind : K
  context : Context V

namespace Focus

def depth {V K : Type} (f : Focus V K) : Nat := f.context.depth

def event {V K : Type} (f : Focus V K) : Event K := .focused f.kind f.leaf f.depth

end Focus

namespace ValidGrammar

variable {V K : Type} [Kind K] (g : ValidGrammar V K)

/-- Goes down from `s` in at most `n` steps. A sequence is entered at its left part, unless that may be empty
and does not accept `k`: then its empty value is kept and the right part is entered. -/
def descend (k : K) : Nat → Slot → Context V → Except (ParseFault K) (Focus V K)
  | 0, _, _ => .error .unfinished
  | n + 1, s, c => do
    match (← g.entry s).form with
    | .element e => if e = k then return ⟨s, e, c⟩ else throw (.wrongElement k e)
    | .success _ => throw (.emptyElement k s)
    | .disjunction l r => if ← g.acceptsAt l k then descend k n l c else descend k n r c
    | .sequence l r =>
      let left ← g.entry l
      match left.emptyValue with
      | some v =>
        if left.first.contains k then descend k n l (c.push (.followBy r))
        else descend k n r (c.push (.prepend v))
      | none => descend k n l (c.push (.followBy r))
    | .transform f i => descend k n i (c.push (.apply f))

/-- The element below `s` that consumes `k`, with the way back added to `c`. No slot is met twice on the way. -/
def focusAt (s : Slot) (k : K) (c : Context V) : Except (ParseFault K) (Focus V K) := do
  if ← g.acceptsAt s k then g.descend k g.size s c else throw (.notAccepted k s)

def focus (k : K) (c : Context V) : Except (ParseFault K) (Focus V K) := g.focusAt g.root k c

end ValidGrammar
end Predictive
