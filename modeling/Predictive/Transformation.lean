import Predictive.Value

/-! Functions on parse results, which may give up with a message of their own. -/
namespace Predictive

structure Transformation (V : Type) where
  apply : V → Except String V

/-- Values on which the stock transformations act. -/
class Sample (V : Type) where
  append : V → V → V
  reverse : V → V
  /-- ASCII letters in upper case, wherever the value holds text. -/
  upper : V → V
  sum : V → V
  product : V → V
  /-- The number of characters or items, as a value of the same type. -/
  count : V → V

namespace Transformation

variable {V : Type}

def total (f : V → V) : Transformation V := ⟨fun v => .ok (f v)⟩

def failing (text : String) : Transformation V := ⟨fun _ => .error text⟩

/-- Whether the function gives a value for every argument. -/
def IsTotal (f : Transformation V) : Prop := ∀ v, ∃ w, f.apply v = .ok w

theorem isTotal_total (f : V → V) : (total f).IsTotal := fun v => ⟨f v, rfl⟩

variable [Sample V]

def identity : Transformation V := total id

def reverse : Transformation V := total Sample.reverse

def upper : Transformation V := total Sample.upper

def double : Transformation V := total fun v => Sample.append v v

def sum : Transformation V := total Sample.sum

def product : Transformation V := total Sample.product

def count : Transformation V := total Sample.count

def constant (v : V) : Transformation V := total fun _ => v

def wrap (before after : V) : Transformation V :=
  total fun v => Sample.append (Sample.append before v) after

def boom : Transformation V := failing "boom"

end Transformation

def upperAscii (s : String) : String := s.map Char.toUpper

def countText (s : String) : String := Nat.repr s.length

instance : Sample Unit where
  append _ _ := ()
  reverse := id
  upper := id
  sum := id
  product := id
  count := id

instance : Sample String where
  append := (· ++ ·)
  reverse s := String.ofList s.toList.reverse
  upper := upperAscii
  sum := id
  product := id
  count := countText

instance : Sample Bracketed where
  append a b := ⟨a.text ++ b.text⟩
  reverse b := ⟨String.ofList b.text.toList.reverse⟩
  upper b := ⟨upperAscii b.text⟩
  sum := id
  product := id
  count b := ⟨countText b.text⟩

instance : Sample (List String) where
  append := (· ++ ·)
  reverse := List.reverse
  upper := List.map upperAscii
  sum := id
  product := id
  count xs := [Nat.repr xs.length]

/-- Sums and products wrap around at the ends of the 64-bit range. -/
instance : Sample (List Int64) where
  append := (· ++ ·)
  reverse := List.reverse
  upper := id
  sum xs := [xs.foldl (· + ·) 0]
  product xs := [xs.foldl (· * ·) 1]
  count xs := [Int64.ofNat xs.length]

instance : Sample (Deque Int64) where
  append a b := .ofList (a.items ++ b.items)
  reverse d := .ofList d.items.reverse
  upper := id
  sum d := .ofList (Sample.sum d.items)
  product d := .ofList (Sample.product d.items)
  count d := .ofList (Sample.count d.items)

end Predictive
