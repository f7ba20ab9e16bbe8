import Predictive.Zipper.Focus
import Predictive.Value

/-! Folding a complete value into its context, and going on from where that stops. -/
namespace Predictive

/-- A parse that waits for what the entry `next` matches; `value` stands for what came before it. -/
structure Suspension (V : Type) where
  value : V
  next : Slot
  context : Context V

inductive Fold (V : Type) where
  /-- The parse is complete. -/
  | done (value : V)
  | suspended (s : Suspension V)

variable {V K : Type}

namespace Transformation

def run (f : Transformation V) (v : V) : Except (ParseFault K) V :=
  match f.apply v with
  | .ok w => .ok w
  | .error text => .error (.failed text)

end Transformation

variable [Value V]

/-- Folds `v` outwards as far as no token is needed. -/
def unwind (v : V) : Context V → Except (ParseFault K) (Fold V)
  | .top => .ok (.done v)
  | .push (.prepend left) c => unwind (prepend left v) c
  | .push (.apply f) c =>
    match f.run v with
    | .ok w => unwind w c
    | .error e => .error e
  | .push (.followBy next) c => .ok (.suspended ⟨v, next, c⟩)

namespace ValidGrammar

section

variable [Ord K] (g : ValidGrammar V K)

/-- With `v` complete under a context, the pending entry that takes `k` and the context it is parsed in.
Pending entries before it are closed with their empty values. -/
def seek (k : K) (v : V) : Context V → Except (ParseFault K) (Option (Slot × Context V))
  | .top => .ok none
  | .push (.prepend left) c => seek k (prepend left v) c
  | .push (.apply f) c =>
    match f.run v with
    | .ok w => seek k w c
    | .error e => .error e
  | .push (.followBy next) c =>
    match g.entry next with
    | .error e => .error e
    | .ok e =>
      if e.first.contains k then .ok (some (next, c.push (.prepend v)))
      else
        match e.emptyValue with
        | none => .ok none
        | some w => seek k (prepend v w) c

/-- With `v` complete under a context, the result if nothing follows: all pending entries are closed with
their empty values, if they have one. -/
def close (v : V) : Context V → Except (ParseFault K) (Option V)
  | .top => .ok (some v)
  | .push (.prepend left) c => close (prepend left v) c
  | .push (.apply f) c =>
    match f.run v with
    | .ok w => close w c
    | .error e => .error e
  | .push (.followBy next) c =>
    match g.entry next with
    | .error e => .error e
    | .ok e =>
      match e.emptyValue with
      | none => .ok none
      | some w => close (prepend v w) c

end

end ValidGrammar

namespace Fold

variable [Kind K] (g : ValidGrammar V K)

def isDone : Fold V → Bool
  | done _ => true
  | suspended _ => false

/-- Where a token of the kind `k` goes on: the pending entry, and the context for it. -/
def seek (k : K) : Fold V → Except (ParseFault K) (Option (Slot × Context V))
  | done _ => .ok none
  | suspended s => g.seek k s.value (s.context.push (.followBy s.next))

/-- The cursor for a token of the kind `k`, if one can come next. Nothing can follow a complete parse. -/
def resume (k : K) (d : Fold V) : Except (ParseFault K) (Option (Focus V K)) := do
  match ← d.seek g k with
  | none => return none
  | some (s, c) => return some (← g.focusAt s k c)

/-- The result if the input ends here. -/
def finish : Fold V → Except (ParseFault K) (Option V)
  | done v => .ok (some v)
  | suspended s => g.close s.value (s.context.push (.followBy s.next))

/-- What is recorded of `resume`. -/
def resumeEvents (k : K) (d : Fold V) : List (Event K) :=
  match d.seek g k with
  | .ok (some (s, c)) =>
    .resuming s k ::
      match g.focusAt s k c with
      | .ok f => [f.event]
      | .error _ => []
  | _ => []

end Fold

namespace Focus

variable [Kind K]

/-- Completes the element with `v`. -/
def fold (f : Focus V K) (v : V) : Except (ParseFault K) (Fold V) := unwind v f.context

/-- Consumes a token, which must be of the focused kind. -/
def advance (f : Focus V K) (token : K × V) : Except (ParseFault K) (Fold V) :=
  if token.1 = f.kind then f.fold token.2 else .error (.wrongToken token.1 f.kind)

end Focus
end Predictive
