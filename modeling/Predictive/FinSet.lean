import Predictive.Text.Shown

/-! Finite sets as strictly increasing lists: equal sets are equal lists, and sets are ordered as their lists are. -/
namespace Predictive

/-- Adds `x` before the items above it; `rest` adds the items that come after `x`. -/
def mergeHead {α : Type} [Ord α] (x : α) (rest : List α → List α) : List α → List α
  | [] => x :: rest []
  | y :: ys =>
    match compare x y with
    | .lt => x :: rest (y :: ys)
    | .eq => x :: rest ys
    | .gt => y :: mergeHead x rest ys

/-- The union of two increasing lists. -/
def merge {α : Type} [Ord α] : List α → List α → List α
  | [], ys => ys
  | x :: xs, ys => mergeHead x (merge xs) ys

section Merge

variable {α : Type} [Ord α] [Std.LawfulEqOrd α] {x : α} {xs ys : List α}

theorem mem_mergeHead {a : α} {rest : List α → List α}
    (h : ∀ {zs}, a ∈ rest zs ↔ a ∈ xs ∨ a ∈ zs) {zs : List α} :
    a ∈ mergeHead x rest zs ↔ a = x ∨ a ∈ xs ∨ a ∈ zs := by
  induction zs with
  | nil => simp [mergeHead, h]
  | cons y ys ih =>
    cases hc : compare x y with
    | lt => simp [mergeHead, hc, h]
    | eq =>
      obtain rfl : x = y := Std.LawfulEqOrd.eq_of_compare hc
      simp only [mergeHead, hc, List.mem_cons, h]
      grind
    | gt =>
      simp only [mergeHead, hc, List.mem_cons, ih]
      grind

theorem mem_merge {a : α} : a ∈ merge xs ys ↔ a ∈ xs ∨ a ∈ ys := by
  induction xs generalizing ys with
  | nil => simp [merge]
  | cons x xs ih =>
    rw [merge, mem_mergeHead ih, List.mem_cons, or_assoc]

variable [Std.TransOrd α]

theorem pairwise_mergeHead {rest : List α → List α}
    (hmem : ∀ {a zs}, a ∈ rest zs ↔ a ∈ xs ∨ a ∈ zs)
    (hrest : ∀ {zs}, zs.Pairwise (compare · · = .lt) → (rest zs).Pairwise (compare · · = .lt))
    (hx : ∀ a ∈ xs, compare x a = .lt) {zs : List α} (hz : zs.Pairwise (compare · · = .lt)) :
    (mergeHead x rest zs).Pairwise (compare · · = .lt) := by
  induction zs with
  | nil =>
    refine List.pairwise_cons.2 ⟨fun a ha => ?_, hrest List.Pairwise.nil⟩
    rcases hmem.1 ha with ha | ha
    · exact hx a ha
    · cases ha
  | cons y ys ih =>
    obtain ⟨hy, hys⟩ := List.pairwise_cons.1 hz
    cases hc : compare x y with
    | lt =>
      simp only [mergeHead, hc]
      refine List.pairwise_cons.2 ⟨fun a ha => ?_, hrest hz⟩
      rcases hmem.1 ha with ha | ha
      · exact hx a ha
      · rcases List.mem_cons.1 ha with rfl | ha
        · exact hc
        · exact Std.TransCmp.lt_trans hc (hy a ha)
    | eq =>
      have : x = y := Std.LawfulEqOrd.eq_of_compare hc
      simp only [mergeHead, hc]
      refine List.pairwise_cons.2 ⟨fun a ha => ?_, hrest hys⟩
      rcases hmem.1 ha with ha | ha
      · exact hx a ha
      · exact this ▸ hy a ha
    | gt =>
      simp only [mergeHead, hc]
      refine List.pairwise_cons.2 ⟨fun a ha => ?_, ih hys⟩
      have hyx : compare y x = .lt := Std.OrientedCmp.gt_iff_lt.1 hc
      rcases (mem_mergeHead hmem).1 ha with rfl | ha | ha
      · exact hyx
      · exact Std.TransCmp.lt_trans hyx (hx a ha)
      · exact hy a ha

theorem pairwise_merge (hx : xs.Pairwise (compare · · = .lt))
    (hy : ys.Pairwise (compare · · = .lt)) : (merge xs ys).Pairwise (compare · · = .lt) := by
  induction xs generalizing ys with
  | nil => exact hy
  | cons x xs ih =>
    obtain ⟨hx, hxs⟩ := List.pairwise_cons.1 hx
    exact pairwise_mergeHead mem_merge (ih hxs) hx hy

end Merge

/-- `x`, if it is among the items, before those that `rest` finds among the items after `x`. -/
def commonHead {α : Type} [Ord α] (x : α) (rest : List α → List α) : List α → List α
  | [] => []
  | y :: ys =>
    match compare x y with
    | .lt => rest (y :: ys)
    | .eq => x :: rest ys
    | .gt => commonHead x rest ys

/-- What two increasing lists have in common. -/
def common {α : Type} [Ord α] : List α → List α → List α
  | [], _ => []
  | x :: xs, ys => commonHead x (common xs) ys

section Common

variable {α : Type} [Ord α] {x : α} {xs ys : List α}

theorem commonHead_sublist {rest : List α → List α} (hrest : ∀ zs, (rest zs).Sublist xs) :
    (commonHead x rest ys).Sublist (x :: xs) := by
  induction ys with
  | nil => exact List.nil_sublist _
  | cons y ys ih =>
    cases hc : compare x y with
    | lt => simpa only [commonHead, hc] using (hrest _).cons x
    | eq => simpa only [commonHead, hc] using (hrest _).cons_cons x
    | gt => simpa only [commonHead, hc] using ih

theorem common_sublist : (common xs ys).Sublist xs := by
  induction xs generalizing ys with
  | nil => exact List.nil_sublist _
  | cons x xs ih => exact commonHead_sublist fun _ => ih

variable [Std.LawfulEqOrd α]

theorem ne_of_compare_lt {a b : α} (h : compare a b = .lt) : a ≠ b := by
  rintro rfl
  simp [Std.ReflCmp.compare_self] at h

variable [Std.TransOrd α]

theorem mem_commonHead {a : α} {rest : List α → List α} (hx : ∀ b ∈ xs, compare x b = .lt)
    (hrest : ∀ {zs}, zs.Pairwise (compare · · = .lt) → (a ∈ rest zs ↔ a ∈ xs ∧ a ∈ zs))
    (hy : ys.Pairwise (compare · · = .lt)) :
    a ∈ commonHead x rest ys ↔ a ∈ x :: xs ∧ a ∈ ys := by
  induction ys with
  | nil => simp [commonHead]
  | cons y ys ih =>
    obtain ⟨hyx, hys⟩ := List.pairwise_cons.1 hy
    cases hc : compare x y with
    | lt =>
      simp only [commonHead, hc, hrest hy]
      refine and_congr_left fun ha => ⟨List.mem_cons_of_mem x, fun h => ?_⟩
      refine (List.mem_cons.1 h).resolve_left fun hax => ?_
      rcases List.mem_cons.1 ha with hay | hay
      · exact ne_of_compare_lt hc (hax ▸ hay)
      · exact ne_of_compare_lt (Std.TransCmp.lt_trans hc (hyx a hay)) hax.symm
    | eq =>
      obtain rfl : x = y := Std.LawfulEqOrd.eq_of_compare hc
      simp only [commonHead, hc, List.mem_cons, hrest hys]
      grind
    | gt =>
      have hlt : compare y x = .lt := Std.OrientedCmp.gt_iff_lt.1 hc
      simp only [commonHead, hc, ih hys]
      refine and_congr_right fun ha => ⟨List.mem_cons_of_mem y, fun h => ?_⟩
      refine (List.mem_cons.1 h).resolve_left fun hay => ?_
      rcases List.mem_cons.1 ha with hax | hax
      · exact ne_of_compare_lt hlt (hay ▸ hax)
      · exact ne_of_compare_lt (Std.TransCmp.lt_trans hlt (hx a hax)) hay.symm

theorem mem_common {a : α} (hx : xs.Pairwise (compare · · = .lt))
    (hy : ys.Pairwise (compare · · = .lt)) : a ∈ common xs ys ↔ a ∈ xs ∧ a ∈ ys := by
  induction xs generalizing ys with
  | nil => simp [common]
  | cons x xs ih =>
    obtain ⟨hxs, hx⟩ := List.pairwise_cons.1 hx
    exact mem_commonHead hxs (fun hz => ih hx hz) hy

end Common

/-- Whether the first list has no more items than the second. -/
def noLonger {α : Type} : List α → List α → Bool
  | [], _ => true
  | _ :: _, [] => false
  | _ :: xs, _ :: ys => noLonger xs ys

/-- A finite set of `α`. -/
structure FinSet (α : Type) [Ord α] where
  toList : List α
  increasing : toList.Pairwise (compare · · = .lt)

namespace FinSet

variable {α : Type} [Ord α]

theorem toList_injective {s t : FinSet α} (h : s.toList = t.toList) : s = t := by
  cases s; cases t; cases h; rfl

def empty : FinSet α := ⟨[], List.Pairwise.nil⟩

instance : EmptyCollection (FinSet α) := ⟨empty⟩

instance : Inhabited (FinSet α) := ⟨∅⟩

def singleton (a : α) : FinSet α := ⟨[a], List.pairwise_singleton ..⟩

instance : Membership α (FinSet α) := ⟨fun s a => a ∈ s.toList⟩

def isEmpty (s : FinSet α) : Bool := s.toList.isEmpty

def size (s : FinSet α) : Nat := s.toList.length

def contains (s : FinSet α) (a : α) : Bool := s.toList.any fun b => compare a b == .eq

instance [DecidableEq α] : DecidableEq (FinSet α) := fun s t =>
  decidable_of_iff (s.toList = t.toList) ⟨toList_injective, fun h => h ▸ rfl⟩

/-- Sets are compared item by item from the least, a proper initial part first. -/
instance : Ord (FinSet α) := ⟨compareOn toList⟩

instance [Std.TransOrd α] : Std.TransOrd (FinSet α) :=
  inferInstanceAs (Std.TransCmp (compareOn toList))

instance [Std.LawfulEqOrd α] : Std.LawfulEqOrd (FinSet α) where
  compare_self := Std.LawfulEqOrd.compare_eq_iff_eq (α := List α).2 rfl
  eq_of_compare h := toList_injective (Std.LawfulEqOrd.eq_of_compare h)

instance [Shown α] : Shown (FinSet α) := ⟨fun s => Text.listed "\x7b" (s.toList.map shown) "\x7d"⟩

theorem mem_def {s : FinSet α} {a : α} : a ∈ s ↔ a ∈ s.toList := Iff.rfl

@[simp] theorem not_mem_empty {a : α} : a ∉ (∅ : FinSet α) := List.not_mem_nil

@[simp] theorem mem_singleton {a b : α} : a ∈ singleton b ↔ a = b := List.mem_singleton

theorem eq_empty_of_isEmpty {s : FinSet α} (h : s.isEmpty = true) : s = ∅ :=
  toList_injective (List.isEmpty_iff.1 h)

variable [Std.LawfulEqOrd α]

@[simp] theorem contains_iff_mem {s : FinSet α} {a : α} : s.contains a = true ↔ a ∈ s := by
  simp only [contains, List.any_eq_true, beq_iff_eq, Std.LawfulEqOrd.compare_eq_iff_eq, mem_def]
  exact ⟨fun ⟨b, hb, he⟩ => he ▸ hb, fun h => ⟨a, h, rfl⟩⟩

variable [Std.TransOrd α]

/-- The smaller set is looked up in the larger one. -/
def inter (s t : FinSet α) : FinSet α :=
  if noLonger s.toList t.toList then ⟨common s.toList t.toList, s.increasing.sublist common_sublist⟩
  else ⟨common t.toList s.toList, t.increasing.sublist common_sublist⟩

instance : Inter (FinSet α) := ⟨inter⟩

@[simp] theorem mem_inter {s t : FinSet α} {a : α} : a ∈ s ∩ t ↔ a ∈ s ∧ a ∈ t := by
  change a ∈ inter s t ↔ _
  unfold inter
  split
  · exact mem_common s.increasing t.increasing
  · exact (mem_common t.increasing s.increasing).trans and_comm

/-- The smaller set is merged into the larger one. -/
def union (s t : FinSet α) : FinSet α :=
  if noLonger s.toList t.toList then ⟨merge s.toList t.toList, pairwise_merge s.increasing t.increasing⟩
  else ⟨merge t.toList s.toList, pairwise_merge t.increasing s.increasing⟩

instance : Union (FinSet α) := ⟨union⟩

def insert (a : α) (s : FinSet α) : FinSet α := singleton a ∪ s

def ofList (xs : List α) : FinSet α := xs.foldr insert ∅

@[simp] theorem mem_union {s t : FinSet α} {a : α} : a ∈ s ∪ t ↔ a ∈ s ∨ a ∈ t := by
  change a ∈ union s t ↔ _
  unfold union
  split
  · exact mem_merge
  · exact mem_merge.trans or_comm

@[simp] theorem mem_insert {s : FinSet α} {a b : α} : a ∈ insert b s ↔ a = b ∨ a ∈ s := by
  simp [insert]

@[simp] theorem mem_ofList {xs : List α} {a : α} : a ∈ ofList xs ↔ a ∈ xs := by
  induction xs with
  | nil => exact Iff.rfl
  | cons x xs ih => simp only [ofList, List.foldr_cons, mem_insert, List.mem_cons] at ih ⊢; rw [ih]

end FinSet
end Predictive
