import Mathlib.Data.Finset.Card
import Predictive.Grammar.Render
import Predictive.Proofs.Grammar.Realization

/-!
Writing a grammar ends. On the way down the nodes grow older until a deferred one is met, and the definition of each
deferred node is opened only once.
-/
namespace Predictive.Grammar

variable {V K : Type}

/-- What is written for a node: what it is made of, or its definition. -/
def Shape.written : Shape V K → List Ref
  | .deferred origin target => (origin.definition? target).toList
  | shape => shape.parts

theorem Shape.written_subset (shape : Shape V K) : shape.written ⊆ shape.heldByNode := by
  cases shape with
  | success v | element k | disjunction a b | sequence a b | transform f a => exact fun _ hx => hx
  | deferred o target =>
    intro x hx
    cases target with
    | some t =>
      obtain rfl : x = t := by simpa [Shape.written, Origin.definition?] using hx
      cases o <;> simp [Shape.heldByNode]
    | none =>
      cases o with
      | known body => simpa [Shape.written, Origin.definition?, Shape.heldByNode] using hx
      | delayed e scope => cases hx

/-- References that lead to younger nodes come later. A self-reference leads to a deferred node, which has no parts. -/
def Ref.rank : Ref → Nat
  | .node i => i + 1
  | .self _ => 0

namespace Store

variable [Ord K] {s : Store V K} {l : Liveness} {r x : Ref} {i : NodeId} {shape : Shape V K} {w w' : Rendering} {n : Nat}
  {A : Ref → Prop}

/-- Whatever is met in writing `r` is alive and in the set. -/
def Writable (s : Store V K) (l : Liveness) (A : Ref → Prop) : Prop :=
  ∀ r, A r → ∃ i shape, s.deref? l r = some i ∧ s.nodes[i]? = some shape ∧ ∀ x ∈ shape.written, A x

theorem Writable.rank_le (hA : s.Writable l A) (hr : A r) : r.rank ≤ s.nodes.size := by
  cases r with
  | node j =>
    obtain ⟨i, shape, hi, hshape, -⟩ := hA _ hr
    cases hi
    exact (Array.getElem?_eq_some_iff.1 hshape).1
  | self k => exact Nat.zero_le _

theorem Valid.rank_lt (hv : s.Valid) (hr : s.deref? l r = some i) (hi : s.nodes[i]? = some shape)
    (hx : x ∈ shape.parts) : x.rank < r.rank := by
  have hnode : r = .node i := by
    cases r with
    | node j =>
      cases hr
      rfl
    | self k =>
      obtain ⟨o, target, hd⟩ := hv.knots k i (nodeOf?_of_deref? hr)
      cases hi.symm.trans hd
      cases hx
  subst hnode
  cases x with
  | node j => exact Nat.succ_lt_succ (hv.older i shape hi j hx)
  | self k => exact Nat.succ_pos i

/-- The nodes that have got no name yet. -/
def unnamed (s : Store V K) (w : Rendering) : Finset Nat := (Finset.range s.nodes.size).filter (· ∉ w.names)

theorem card_unnamed_le (h : ∀ i ∈ w.names, i ∈ w'.names) : (s.unnamed w').card ≤ (s.unnamed w).card := by
  refine Finset.card_le_card fun i hi => ?_
  simp only [unnamed, Finset.mem_filter] at hi ⊢
  exact ⟨hi.1, fun hw => hi.2 (h i hw)⟩

theorem mem_introduce {j : Nat} : j ∈ (w.introduce i).names ↔ j = i ∨ j ∈ w.names := by
  rw [Rendering.introduce, Std.TreeMap.mem_insert, Std.LawfulEqOrd.compare_eq_iff_eq, eq_comm]

theorem card_unnamed_introduce (hi : i < s.nodes.size) (hw : i ∉ w.names) :
    (s.unnamed (w.introduce i)).card < (s.unnamed w).card := by
  refine Finset.card_lt_card (Finset.ssubset_iff_of_subset (fun j hj => ?_) |>.2 ⟨i, ?_, fun hi' => ?_⟩)
  · simp only [unnamed, Finset.mem_filter, mem_introduce, not_or] at hj ⊢
    exact ⟨hj.1, hj.2.2⟩
  · simp only [unnamed, Finset.mem_filter, Finset.mem_range]
    exact ⟨hi, hw⟩
  · simp only [unnamed, Finset.mem_filter, mem_introduce, true_or, not_true_eq_false, and_false] at hi'

/-- How many levels may be met below `r`: each definition that is opened may lead to the youngest node again. -/
def levels (s : Store V K) (r : Ref) (w : Rendering) : Nat := (s.unnamed w).card * (s.nodes.size + 1) + r.rank + 1

theorem levels_part (hx : x.rank < r.rank) (h : ∀ i ∈ w.names, i ∈ w'.names) (hn : s.levels r w ≤ n + 1) :
    s.levels x w' ≤ n := by
  have hcard : (s.unnamed w').card * (s.nodes.size + 1) ≤ (s.unnamed w).card * (s.nodes.size + 1) :=
    Nat.mul_le_mul_right _ (card_unnamed_le h)
  simp only [levels] at hn ⊢
  omega

theorem levels_introduce (hi : i < s.nodes.size) (hw : i ∉ w.names) (hx : x.rank ≤ s.nodes.size)
    (hn : s.levels r w ≤ n + 1) : s.levels x (w.introduce i) ≤ n := by
  have hcard : ((s.unnamed (w.introduce i)).card + 1) * (s.nodes.size + 1) ≤ (s.unnamed w).card * (s.nodes.size + 1) :=
    Nat.mul_le_mul_right _ (card_unnamed_introduce hi hw)
  rw [Nat.succ_mul] at hcard
  simp only [levels] at hn ⊢
  omega

variable [Shown V] [Shown K]

/-- Writing ends within the levels that may be met, and names stay. -/
theorem exists_renderFrom (hv : s.Valid) (hA : s.Writable l A) (hr : A r) (hn : s.levels r w ≤ n) :
    ∃ w', s.renderFrom l n r w = .ok w' ∧ ∀ i ∈ w.names, i ∈ w'.names := by
  induction n generalizing r w with
  | zero => exact absurd hn (Nat.not_succ_le_zero _)
  | succ n ih =>
    obtain ⟨i, shape, hi, hshape, hwritten⟩ := hA r hr
    have hpart : ∀ x ∈ shape.parts, A x → ∀ w', (∀ j ∈ w.names, j ∈ w'.names) →
        ∃ w'', s.renderFrom l n x w' = .ok w'' ∧ ∀ j ∈ w.names, j ∈ w''.names := by
      intro x hx hAx w' hw'
      obtain ⟨w'', h'', hw''⟩ := ih hAx (levels_part (hv.rank_lt hi hshape hx) hw' hn)
      exact ⟨w'', h'', fun j hj => hw'' j (hw' j hj)⟩
    have hpair : ∀ a ∈ shape.parts, ∀ b ∈ shape.parts, A a → A b → ∀ between,
        ∃ w', ((s.renderFrom l n a (w.write "(")).bind fun w =>
          (s.renderFrom l n b (w.write between)).map (·.write ")")) = .ok w' ∧ ∀ j ∈ w.names, j ∈ w'.names := by
      intro a ha b hb hAa hAb between
      obtain ⟨w₁, h₁, hw₁⟩ := hpart a ha hAa (w.write "(") fun _ hj => hj
      obtain ⟨w₂, h₂, hw₂⟩ := hpart b hb hAb (w₁.write between) hw₁
      refine ⟨w₂.write ")", ?_, hw₂⟩
      rw [h₁, Except.bind, h₂, Except.map]
    cases shape with
    | success v =>
      simp only [renderFrom, hi, hshape]
      exact ⟨_, rfl, fun _ hj => hj⟩
    | element k =>
      simp only [renderFrom, hi, hshape]
      exact ⟨_, rfl, fun _ hj => hj⟩
    | disjunction a b =>
      simp only [renderFrom, hi, hshape]
      exact hpair a List.mem_cons_self b (List.mem_pair.2 (.inr rfl)) (hwritten a List.mem_cons_self)
        (hwritten b (List.mem_pair.2 (.inr rfl))) " | "
    | sequence a b =>
      simp only [renderFrom, hi, hshape]
      exact hpair a List.mem_cons_self b (List.mem_pair.2 (.inr rfl)) (hwritten a List.mem_cons_self)
        (hwritten b (List.mem_pair.2 (.inr rfl))) " ~ "
    | transform f a =>
      obtain ⟨w₁, h₁, hw₁⟩ := hpart a List.mem_cons_self (hwritten a List.mem_cons_self) (w.write "map(")
        fun _ hj => hj
      simp only [renderFrom, hi, hshape, h₁]
      exact ⟨_, rfl, hw₁⟩
    | deferred origin target =>
      simp only [renderFrom, hi, hshape]
      cases hnamed : w.names[i]? with
      | some k => exact ⟨_, rfl, fun _ hj => hj⟩
      | none =>
        cases hbody : origin.definition? target with
        | none => exact ⟨_, rfl, fun _ hj => hj⟩
        | some body =>
          -- the definition may be as young as can be, but one node fewer has no name
          have hAbody : A body := hwritten body (by simp [Shape.written, hbody])
          have hfresh : i ∉ w.names := by simp [Std.TreeMap.mem_iff_isSome_getElem?, hnamed]
          obtain ⟨w₁, h₁, hw₁⟩ := ih hAbody (levels_introduce (Array.getElem?_eq_some_iff.1 hshape).1 hfresh
            (hA.rank_le hAbody) hn)
          exact ⟨w₁, h₁, fun j hj => hw₁ j (mem_introduce.2 (.inr hj))⟩

/-- A grammar below which no self-reference is dead can be written. -/
theorem exists_render (hv : s.Valid) (hA : s.Writable l A) (hr : A r) : ∃ text, s.render l r = .ok text := by
  have hlevels : s.levels r {} ≤ (s.nodes.size + 1) * (s.nodes.size + 1) := by
    have hrank := hA.rank_le hr
    have hcard : (s.unnamed {}).card ≤ s.nodes.size :=
      (Finset.card_filter_le _ _).trans (Nat.le_of_eq (Finset.card_range _))
    have hmul := Nat.mul_le_mul_right (s.nodes.size + 1) hcard
    rw [levels, Nat.succ_mul]
    omega
  obtain ⟨w, hw, -⟩ := exists_renderFrom hv hA hr hlevels
  exact ⟨w.text, by rw [render, hw]; rfl⟩

end Store

variable [Ord K] [Shown V] [Shown K] {s t : Store V K} {r : Ref} {held : List Ref} {text : String}

theorem render_eq_ok_iff : render held r s = .ok text t ↔ s.render (s.liveness (r :: held)) r = .ok text ∧ t = s := by
  simp only [render, get_bind]
  cases s.render (s.liveness (r :: held)) r with
  | error e =>
    constructor
    · intro h
      cases h
    · rintro ⟨h, -⟩
      cases h
  | ok text' =>
    constructor
    · intro h
      cases h
      exact ⟨rfl, rfl⟩
    · rintro ⟨h, rfl⟩
      cases h
      rfl

end Predictive.Grammar
