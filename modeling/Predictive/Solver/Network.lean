import Predictive.Solver.Reading

/-! Cells of one fact, made one by one, bound and read in any order. -/
namespace Predictive.Solver

/-- The one fact that the cells of a network hold. -/
inductive Sole where
  | value
  deriving DecidableEq

instance : Ord Sole := ⟨fun _ _ => .eq⟩

instance : Std.TransOrd Sole where
  eq_swap := rfl
  isLE_trans _ _ := rfl

instance : Std.LawfulEqOrd Sole where
  compare_self := rfl
  eq_of_compare _ := rfl

/-- Why a rule of a network gives up. -/
inductive RuleError where
  /-- It starts from what the first of its cells holds, and has no cells. -/
  | noFirstCell

def RuleError.message : RuleError → String
  | noFirstCell => "index out of bounds: the len is 0 but the index is 0"

/-- A rule of a network: it reads other cells of the network. -/
abbrev Rule (T : Type) := Query (fun _ : Sole => T) RuleError T

structure Network (T : Type) where
  cells : Array (Definition (fun _ : Sole => T) RuleError .value) := #[]
  book : Book (fun _ : Sole => T) := {}

namespace Rule

variable {T : Type}

/-- Reads all of `deps` in order. -/
def fold {S : Type} (f : S → T → S) : S → List Nat → Query (fun _ : Sole => T) RuleError S
  | s, [] => Query.done s
  | s, d :: ds => .read d .value fun v => fold f (f s v) ds

/-- Reads the first of `deps`; the rest is left to `next`. -/
def withFirst (next : T → List Nat → Rule T) : List Nat → Rule T
  | [] => .fail .noFirstCell
  | d :: ds => .read d .value fun v => next v ds

end Rule

/-- The bottom-or-top combinations of truth values. The short forms stop at the value that decides. -/
inductive BoolRule where
  | or | and | shortOr | shortAnd | not

def BoolRule.rule : BoolRule → List Nat → Rule Bool
  | or, deps => Rule.fold (· || ·) false deps
  | and, deps => Rule.fold (· && ·) true deps
  | shortOr, [] => Query.done false
  | shortOr, d :: ds => .read d .value fun v => if v then Query.done true else BoolRule.shortOr.rule ds
  | shortAnd, [] => Query.done true
  | shortAnd, d :: ds => .read d .value fun v => if v then BoolRule.shortAnd.rule ds else Query.done false
  | not, deps => Rule.withFirst (fun v _ => Query.done !v) deps

inductive SetRule where
  /-- What is added, and all that is read. -/
  | union
  /-- What is common to all that is read; there has to be something. -/
  | inter
  /-- Empty if the first cell is; else what is added, and what the other cells hold. -/
  | guarded
  /-- What is added, and the successors of the numbers below 20 in the first cell. -/
  | succ

def SetRule.rule (added : FinSet Int64) : SetRule → List Nat → Rule (FinSet Int64)
  | union, deps => Rule.fold (· ∪ ·) added deps
  | inter, deps => Rule.withFirst (Rule.fold (· ∩ ·)) deps
  | guarded, deps =>
    Rule.withFirst (fun s ds => if s.isEmpty then Query.done ∅ else Rule.fold (· ∪ ·) added ds) deps
  | succ, deps =>
    Rule.withFirst (fun s _ => Query.done (added ∪ FinSet.ofList ((s.toList.filter (· < 20)).map (· + 1)))) deps

inductive TextRule where
  /-- The first text present, reading no further. -/
  | first
  /-- All texts in order, absent from the first absent one on. -/
  | cat
  /-- The text of the first cell, with another at its end. -/
  | appended

def TextRule.catFrom (text : String) : List Nat → Rule (Option String)
  | [] => Query.done (some text)
  | d :: ds => .read d .value fun v =>
    match v with
    | none => Query.done none
    | some s => catFrom (text ++ s) ds

def TextRule.rule (added : String) : TextRule → List Nat → Rule (Option String)
  | first, [] => Query.done none
  | first, d :: ds => .read d .value fun v => if v.isSome then Query.done v else TextRule.first.rule added ds
  | cat, deps => catFrom "" deps
  | appended, deps => Rule.withFirst (fun v _ => Query.done (v.map (· ++ added))) deps

namespace Network

variable {T : Type}

def size (net : Network T) : Nat := net.cells.size

def add (net : Network T) (d : Definition (fun _ : Sole => T) RuleError .value) : Network T :=
  { net with cells := net.cells.push d }

def addConstant (net : Network T) (v : T) : Network T := net.add (.constant v)

def addDeferred (net : Network T) (default : T) : Network T := net.add (.deferred default none)

def addRule (net : Network T) (r : Rule T) : Network T := net.add (.rule r)

/-- Adds `n` rules, each made by `rule` for the cell before it, the first for `from`. -/
def addChain (rule : Nat → Rule T) : Nat → Nat → Network T → Network T
  | 0, _, net => net
  | n + 1, source, net => addChain rule n net.size (net.addRule (rule source))

/-- Cells that are not there hold the bottom. -/
def family [Fact T] (net : Network T) : Family (fun _ : Sole => T) RuleError where
  size := net.size
  definition p _ := net.cells[p]?.getD (.constant Fact.bottom)

/-- Binds the deferred cell `p` to `target`, unless it is bound. None if `p` is not deferred. -/
def bind (net : Network T) (p target : Nat) : Option (Network T) :=
  match net.cells[p]? with
  | some (.deferred _ (some _)) => some net
  | some (.deferred v none) => some { net with cells := net.cells.set! p (.deferred v (some target)) }
  | _ => none

def isUnbound (net : Network T) (p : Nat) : Bool :=
  match net.cells[p]? with
  | some (.deferred _ none) => true
  | _ => false

/-- More passes than any network over a finite range of values needs. -/
def passLimit : Nat := UInt64.size

def get [Fact T] (net : Network T) (p : Nat) :
    Except (Failure RuleError) (T × Option (Effort Sole)) × Network T :=
  let (r, book) := net.family.get passLimit p .value net.book
  (r, { net with book })

/-- What the cell is made of, and whether it can still change. -/
def describe [Fact T] (net : Network T) (p : Nat) : String :=
  let form := match net.cells[p]? with
    | some (.rule _) => if (Family.memo net.book.memos ⟨p, .value⟩).settled then "rule (settled)" else "rule"
    | some (.deferred _ (some _)) => "deferred (bound)"
    | some (.deferred _ none) => "deferred"
    | _ => "constant"
  "InductiveProperty(" ++ form ++ ")"

end Network
end Predictive.Solver
