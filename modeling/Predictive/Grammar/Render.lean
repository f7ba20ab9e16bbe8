import Predictive.Grammar.Liveness

/-!
Grammars as text. A deferred node is written out where it is met first, after `fix` and a name, and is only
named where it is met again; without a known definition it is `<deferred>`.
-/
namespace Predictive.Grammar

/-- What has been written, and the numbers of the deferred nodes met so far. -/
structure Rendering where
  text : String := ""
  names : Std.TreeMap Nat Nat := ∅

namespace Rendering

def write (w : Rendering) (s : String) : Rendering := { w with text := w.text ++ s }

/-- Names the deferred node `i` and opens its definition. -/
def introduce (w : Rendering) (i : NodeId) : Rendering :=
  let n := w.names.size + 1
  { text := w.text ++ "fix r" ++ n.repr ++ ". ", names := w.names.insert i n }

end Rendering

namespace Store

variable {V K : Type} [Ord K] [Shown V] [Shown K]

/-- Writes `r`, going at most `n` levels down. -/
def renderFrom (s : Store V K) (l : Liveness) : Nat → Ref → Rendering → Except Fault Rendering
  | 0, _, _ => .error .unfinished
  | n + 1, r, w =>
    match s.deref? l r with
    | none => .error .deadReference
    | some i =>
      match s.nodes[i]? with
      | none => .error .unfinished
      | some (.success v) => .ok (w.write ("success(" ++ shown v ++ ")"))
      | some (.element k) => .ok (w.write (shown k))
      | some (.disjunction a b) =>
        (s.renderFrom l n a (w.write "(")).bind fun w =>
        (s.renderFrom l n b (w.write " | ")).map (·.write ")")
      | some (.sequence a b) =>
        (s.renderFrom l n a (w.write "(")).bind fun w =>
        (s.renderFrom l n b (w.write " ~ ")).map (·.write ")")
      | some (.transform _ a) => (s.renderFrom l n a (w.write "map(")).map (·.write ")")
      | some (.deferred origin target) =>
        match w.names[i]? with
        | some k => .ok (w.write ("r" ++ k.repr))
        | none =>
          match origin.definition? target with
          | none => .ok (w.write "<deferred>")
          | some body => s.renderFrom l n body (w.introduce i)

/-- Between two definitions opened on the way down the nodes grow older, and each definition is opened once. -/
def render (s : Store V K) (l : Liveness) (r : Ref) : Except Fault String :=
  (s.renderFrom l ((s.nodes.size + 1) * (s.nodes.size + 1)) r {}).map (·.text)

end Store

variable {V K : Type} [Ord K] [Shown V] [Shown K]

def render (held : List Ref) (r : Ref) : Work V K String := do
  let s ← get
  match s.render (s.liveness (r :: held)) r with
  | .ok text => return text
  | .error e => throw e

/-- The form used where a grammar is shown among other things. -/
def debugText (held : List Ref) (r : Ref) : Work V K String :=
  return "Grammar(" ++ (← render held r) ++ ")"

end Predictive.Grammar
