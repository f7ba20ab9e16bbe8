import Predictive.Grammar.Expectation
import Predictive.Parser

/-! A session: grammars, validated grammars, parses and cursors under names of their own. -/
namespace Predictive

open Grammar (Expr Store Work Ref Expectation)

structure Session (V K : Type) [Ord K] where
  store : Store V K := {}
  grammars : Std.TreeMap String (ValidGrammar V K) := ∅
  states : Std.TreeMap String (ValidGrammar V K × ParseState V) := ∅
  contexts : Std.TreeMap String (Context V) := ∅
  focuses : Std.TreeMap String (ValidGrammar V K × Focus V K) := ∅
  folds : Std.TreeMap String (ValidGrammar V K × Fold V) := ∅

/-- Why a request of a session is not met. -/
inductive Refusal (K : Type) where
  /-- It names something that is not there. -/
  | unknown
  | grammar (f : Grammar.Fault)
  | parse (s : Stop K)

/-- A request; what it did to the session before it was refused stays done. -/
abbrev Request (V K : Type) [Ord K] := EStateM (Refusal K) (Session V K)

/-- A slot given by its number in the grammar at hand or in another one, the root if absent. -/
inductive Place where
  | root
  | slot (s : Slot)
  | slotOf (grammar : String) (s : Slot)

/-- A frame as a request gives it. -/
inductive FrameSpec (V : Type) where
  | followBy (p : Place)
  | prepend (v : V)
  | apply (f : Transformation V)

/-- A context as a request gives it: frames from the outermost, or the name of one kept. -/
inductive ContextSpec (V : Type) where
  | frames (fs : List (FrameSpec V))
  | named (x : String)

inductive ContextStep (V : Type) where
  | pop
  | push (f : FrameSpec V)

namespace Session

variable {V K : Type} [Value V] [Kind K]

def find {α : Type} (table : Session V K → Std.TreeMap String α) (x : String) : Request V K α := do
  match (table (← get))[x]? with
  | some a => return a
  | none => throw .unknown

/-- Records events after those recorded before, which are worked out only if somebody listens. -/
def record (events : Array (Event K) → Array (Event K)) : Request V K Unit :=
  modify fun s =>
    if s.store.listening then
      let past := s.store.events
      let s := { s with store := { s.store with events := #[] } }
      { s with store := { s.store with events := events past } }
    else s

/-- The events recorded since the last time, which are then forgotten. -/
def takeEvents : Request V K (Array (Event K)) :=
  modifyGet fun s => (s.store.events, { s with store := { s.store with events := #[] } })

def liftParse {α : Type} : Except (ParseFault K) α → Request V K α
  | .ok a => pure a
  | .error f => throw (.parse (.fault f))

def liftStop {α : Type} : Except (Stop K) α → Request V K α
  | .ok a => pure a
  | .error e => throw (.parse e)

/-- Does some work on grammars. -/
def onStore {α : Type} (work : Work V K α) : Request V K α := fun s =>
  let store := s.store
  let s := { s with store := {} }
  match work store with
  | .ok a store => .ok a { s with store }
  | .error .badExpression store => .error .unknown { s with store }
  | .error f store => .error (.grammar f) { s with store }

/-! Grammars. -/

/-- Evaluates an expression and does some work on what it gives. -/
def withGrammar {α : Type} (e : Expr V K) (work : Ref → Work V K α) : Request V K α :=
  onStore do work (← e.evaluate [] {})

/-- Names a grammar, which must be alive. -/
def define (x : String) (e : Expr V K) : Request V K NodeId :=
  withGrammar e fun r => do
    let i ← Grammar.deref [] r
    Grammar.setName x r
    return i

def forget (x : String) : Request V K Bool :=
  modifyGet fun s => (s.store.names.contains x,
    { s with store := { s.store with names := s.store.names.erase x } })

def idOf (e : Expr V K) : Request V K NodeId := withGrammar e (Grammar.deref [])

/-- A part of a grammar, given by an expression for it: its number and text. Only the number of the part
is kept while it is looked for. -/
def subtree (e part : Expr V K) : Request V K (Option (NodeId × String)) :=
  withGrammar e fun r => do
    let id ← Grammar.deref [r] (← part.evaluate [r] {})
    match ← Grammar.subtree [] r id with
    | none => return none
    | some found => return some (← Grammar.deref [r] found, ← Grammar.render [r] found)

/-- All there is to say about a grammar that was rejected. -/
structure Refused (K : Type) [Ord K] where
  message : String
  report : String
  debug : String
  grammar : NodeId
  conflicts : FinSet (Conflict K)

/-- Validates a grammar and keeps the outcome under the name `x`. -/
def validate (x : String) (e : Expr V K) : Request V K (Except (Refused K) (ValidGrammar V K)) := do
  let outcome ← withGrammar e fun r => do
    match ← Grammar.validate [] r with
    | .ok g => return .ok g
    | .error rejection => do
      let report ← rejection.report [r]
      let grammar ← Grammar.deref [] r
      return .error
        { message := rejection.message
          report
          debug := rejection.debugText
          grammar
          conflicts := rejection.conflicts }
  if let .ok g := outcome then
    modify fun s => { s with grammars := s.grammars.insert x g }
  return outcome

/-! Contexts. -/

/-- A slot given from outside must be one of the grammar it is given for. -/
def slot (g : ValidGrammar V K) : Place → Request V K Slot
  | .root => return g.root
  | .slot s => if s < g.size then return s else throw .unknown
  | .slotOf x s => do
    let other ← find grammars x
    if s < other.size then return s else throw .unknown

def frame (g : ValidGrammar V K) : FrameSpec V → Request V K (Frame V)
  | .followBy p => return .followBy (← slot g p)
  | .prepend v => return .prepend v
  | .apply f => return .apply f

def context (g : ValidGrammar V K) : ContextSpec V → Request V K (Context V)
  | .frames fs => return Context.top.pushAll (← fs.mapM (frame g))
  | .named x => find contexts x

def keepContext (x : String) (c : Context V) : Request V K Unit :=
  modify fun s => { s with contexts := s.contexts.insert x c }

/-- Pops and pushes frames; the frames popped are given in order, none where there was no frame. -/
def editContext (g : ValidGrammar V K) : List (ContextStep V) → Context V →
    Request V K (List (Option (Frame V)) × Context V)
  | [], c => return ([], c)
  | .pop :: rest, .top => do
    let (popped, final) ← editContext g rest .top
    return (none :: popped, final)
  | .pop :: rest, .push f c => do
    let (popped, final) ← editContext g rest c
    return (some f :: popped, final)
  | .push f :: rest, c => do editContext g rest (c.push (← frame g f))

/-! Cursors. -/

def keepFocus (x : String) (g : ValidGrammar V K) (f : Focus V K) : Request V K Unit :=
  modify fun s => { s with focuses := s.focuses.insert x (g, f) }

def keepFold (x : String) (g : ValidGrammar V K) (d : Fold V) : Request V K Unit :=
  modify fun s => { s with folds := s.folds.insert x (g, d) }

def focus (g : ValidGrammar V K) (p : Place) (k : K) (c : Context V) : Request V K (Focus V K) := do
  let f ← liftParse (g.focusAt (← slot g p) k c)
  record (·.push f.event)
  return f

def resume (g : ValidGrammar V K) (d : Fold V) (k : K) : Request V K (Option (Focus V K)) := do
  record (· ++ d.resumeEvents g k)
  liftParse (d.resume g k)

/-- A cursor, what came of the token, and the result if the input had ended there. -/
structure Stage (V K : Type) where
  focus : Focus V K
  fold : Fold V
  final : Option V

/-- Moves one cursor over tokens, none where one was not accepted. -/
def drive (g : ValidGrammar V K) : Option (Fold V) → List (K × V) → Request V K (List (Option (Stage V K)))
  | _, [] => return []
  | last, t :: ts => do
    let found ← match last with
      | none =>
        if ← liftParse (g.accepts t.1) then pure (some (← focus g .root t.1 .top)) else pure none
      | some d => resume g d t.1
    match found with
    | none => return [none]
    | some f =>
      let d ← liftParse (f.advance t)
      let final ← liftParse (d.finish g)
      return some ⟨f, d, final⟩ :: (← drive g (some d) ts)

/-! Parses. -/

def feed (g : ValidGrammar V K) (s : ParseState V) (t : K × V) : Request V K (ParseState V) := do
  record (· ++ s.feedEvents g t.1)
  liftStop (s.feed g t)

def parse (g : ValidGrammar V K) (limits : Limits) (ts : List (K × V)) : Request V K V := do
  record fun past => ({ limits } : ParseState V).feedAllEvents g past ts
  liftStop (g.parse limits ts)

/-- The outcome at the end of each initial part of the tokens, up to the first that is not accepted. -/
structure Prefixes (V K : Type) where
  ends : List (Except (ParseError K) V)
  stopped : Option (ParseError K)

def finishHere (g : ValidGrammar V K) (s : ParseState V) : Request V K (Except (ParseError K) V) :=
  match s.finish g with
  | .ok v => return .ok v
  | .error (.rejected e) => return .error e
  | .error (.fault f) => throw (.parse (.fault f))

def prefixes (g : ValidGrammar V K) (s : ParseState V) : List (K × V) → Request V K (Prefixes V K)
  | [] => return ⟨[← finishHere g s], none⟩
  | t :: ts => do
    let here ← finishHere g s
    record (· ++ s.feedEvents g t.1)
    match s.feed g t with
    | .ok s =>
      let rest ← prefixes g s ts
      return ⟨here :: rest.ends, rest.stopped⟩
    | .error (.rejected e) => return ⟨[here], some e⟩
    | .error (.fault f) => throw (.parse (.fault f))

def keepState (x : String) (g : ValidGrammar V K) (s : ParseState V) : Request V K Unit :=
  modify fun t => { t with states := t.states.insert x (g, s) }

end Session
end Predictive
