import Predictive.Text.Quoted

/-! How kinds and values are written in messages. -/
namespace Predictive

class Shown (α : Type) where
  shown : α → String

export Shown (shown)

namespace Text

/-- Items between an opening and a closing text, separated by commas. -/
def listed (before : String) (items : List String) (after : String) : String :=
  before ++ ", ".intercalate items ++ after

end Text

instance : Shown Unit := ⟨fun _ => "()"⟩

instance : Shown Bool := ⟨fun b => if b then "true" else "false"⟩

instance : Shown Nat := ⟨fun n => n.repr⟩

instance : Shown Int64 := ⟨fun n => n.toInt.repr⟩

instance : Shown Char := ⟨fun c => Text.quoted '\'' [c]⟩

instance : Shown String := ⟨fun s => Text.quoted '"' s.toList⟩

instance {α : Type} [Shown α] : Shown (List α) := ⟨fun xs => Text.listed "[" (xs.map shown) "]"⟩

instance {α : Type} [Shown α] : Shown (Option α) where
  shown
    | none => "None"
    | some a => "Some(" ++ shown a ++ ")"

end Predictive
