import Predictive.ValidGrammar

/-! The way from a point in a parse back to the root. -/
namespace Predictive

inductive Frame (V : Type) where
  /-- Once this is complete, the entry `next` is to be parsed. -/
  | followBy (next : Slot)
  /-- `left` goes in front of what completes here. -/
  | prepend (left : V)
  /-- What completes here passes through `f`. -/
  | apply (f : Transformation V)

/-- The frames passed on the way down. -/
inductive Context (V : Type) where
  | top
  | push (frame : Frame V) (outer : Context V)
with
  /-- The number of frames. -/
  @[computed_field] depth : (V : Type) → Context V → Nat
    | _, .top => 0
    | V, .push _ c => Context.depth V c + 1

namespace Context

variable {V : Type}

def isTop : Context V → Bool
  | top => true
  | push .. => false

def framesOnto (inner : List (Frame V)) : Context V → List (Frame V)
  | top => inner
  | push f c => framesOnto (f :: inner) c

/-- The frames from the outermost to the innermost. -/
def frames (c : Context V) : List (Frame V) := c.framesOnto []

def pushAll (c : Context V) (fs : List (Frame V)) : Context V := fs.foldl (fun c f => c.push f) c

end Context

/-- Misuse of a validated grammar, or a transformation that gave up. -/
inductive ParseFault (K : Type) where
  | notAccepted (kind : K) (slot : Slot)
  | wrongElement (kind expected : K)
  | emptyElement (kind : K) (slot : Slot)
  | wrongToken (kind focused : K)
  | outOfRange (size : Nat) (slot : Slot)
  | failed (text : String)
  | unfinished

namespace ParseFault

variable {K : Type} [Shown K]

def message : ParseFault K → String
  | notAccepted k s => "focus on " ++ shown k ++ " at " ++ Slot.text s ++ " which does not accept it"
  | wrongElement k e => "focus on " ++ shown k ++ " reached an element of kind " ++ shown e
  | emptyElement k s => "focus on " ++ shown k ++ " reached a success node at " ++ Slot.text s
  | wrongToken k f => "token of kind " ++ shown k ++ " fed to a focus on " ++ shown f
  | outOfRange n s => "index out of bounds: the len is " ++ n.repr ++ " but the index is " ++ s.repr
  | failed text => text
  | unfinished => "unfinished"

end ParseFault

namespace ValidGrammar

variable {V K : Type} [Ord K] (g : ValidGrammar V K)

def entry (s : Slot) : Except (ParseFault K) (Entry V K) :=
  match g.entries[s]? with
  | some e => .ok e
  | none => .error (.outOfRange g.size s)

/-- Whether a non-empty match from the slot `s` can start with `k`. -/
def acceptsAt (s : Slot) (k : K) : Except (ParseFault K) Bool := (g.entry s).map (·.first.contains k)

/-- Whether a non-empty parse can start with `k`. -/
def accepts (k : K) : Except (ParseFault K) Bool := g.acceptsAt g.root k

end ValidGrammar
end Predictive
