import Predictive.Text.Shown

/-! Parse results and how neighbouring ones are put together. -/
namespace Predictive

class Value (V : Type) extends Shown V where
  /-- `prepend left right` stands for `left` followed by `right`. No law is asked of it. -/
  prepend : V → V → V

export Value (prepend)

instance : Value Unit where
  prepend _ _ := ()

instance : Value String where
  prepend left right := left ++ right

instance {α : Type} [Shown α] : Value (List α) where
  prepend left right := left ++ right

/-- A sequence of items to which either end can be added: the items of `front`, then those of `rear` backwards. -/
structure Deque (α : Type) where
  front : List α
  rear : List α
  size : Nat
  size_eq : size = front.length + rear.length

namespace Deque

variable {α : Type}

def ofList (xs : List α) : Deque α := ⟨xs, [], xs.length, rfl⟩

def items (d : Deque α) : List α := d.front ++ d.rear.reverse

@[simp] theorem items_ofList (xs : List α) : (ofList xs).items = xs := by simp [ofList, items]

@[simp] theorem length_items (d : Deque α) : d.items.length = d.size := by simp [items, d.size_eq]

/-- The shorter side is moved onto the longer one. -/
def prepend (left right : Deque α) : Deque α :=
  if left.size > right.size then
    ⟨left.front, right.items.reverse ++ left.rear, left.size + right.size, by
      rw [List.length_append, List.length_reverse, length_items, left.size_eq]; omega⟩
  else
    ⟨left.items ++ right.front, right.rear, left.size + right.size, by
      rw [List.length_append, length_items, right.size_eq]; omega⟩

@[simp] theorem items_prepend (left right : Deque α) :
    (prepend left right).items = left.items ++ right.items := by
  unfold prepend
  split <;> simp [items]

/-- Two sequences are the same if their items are, wherever each of them turns. -/
instance [BEq α] : BEq (Deque α) := ⟨fun d e => d.items == e.items⟩

instance [Shown α] : Value (Deque α) where
  shown d := shown d.items
  prepend := prepend

end Deque

/-- A text that records how it was put together: every `prepend` leaves a pair of brackets. -/
structure Bracketed where
  text : String
  deriving DecidableEq

instance : Value Bracketed where
  shown b := shown b.text
  prepend left right := ⟨"(" ++ left.text ++ " " ++ right.text ++ ")"⟩

end Predictive
