import Predictive.FinSet

/-! Token kinds: what a grammar is indexed by. -/
namespace Predictive

/-- Kinds are totally ordered, so that sets of them have one form, and are written in messages. -/
class Kind (K : Type) extends Ord K, Shown K where
  [trans : Std.TransOrd K]
  [lawful : Std.LawfulEqOrd K]

attribute [instance] Kind.trans Kind.lawful

instance (priority := low) {K : Type} [Kind K] : DecidableEq K := fun _ _ =>
  decidable_of_iff _ Std.LawfulEqOrd.compare_eq_iff_eq

instance : Kind Char where

/-- Strings are ordered as sequences of code points. -/
instance : Kind String where

instance : Kind Int64 where

/-- A closed vocabulary, ordered as listed. -/
inductive Tag where
  | num | plus | star | opening | closing | comma | atom | c | b | a
  deriving DecidableEq

namespace Tag

def all : List Tag := [num, plus, star, opening, closing, comma, atom, c, b, a]

def name : Tag → String
  | num => "Num"
  | plus => "Plus"
  | star => "Star"
  | opening => "Open"
  | closing => "Close"
  | comma => "Comma"
  | atom => "Atom"
  | c => "C"
  | b => "B"
  | a => "A"

def ofName? (s : String) : Option Tag := all.find? fun t => t.name == s

instance : Ord Tag := ⟨compareOn fun t => t.ctorIdx⟩

instance : Std.TransOrd Tag := inferInstanceAs (Std.TransCmp (compareOn fun t : Tag => t.ctorIdx))

instance : Std.LawfulEqOrd Tag where
  compare_self := Std.LawfulEqOrd.compare_eq_iff_eq (α := Nat).2 rfl
  eq_of_compare {s t} h := by
    have := Std.LawfulEqOrd.eq_of_compare (α := Nat) h
    revert this
    cases s <;> cases t <;> decide

instance : Kind Tag where
  shown := name

end Tag
end Predictive
