import Predictive.Proofs.Grammar.Retention

/-!
The search for a node. What is pending and what has been seen is met on the way down, what has been seen leads only to
what is pending or has been seen, and the node has not been seen. So the search ends with the node, or has seen all that
can be met without it, or stops at a dead self-reference.
-/
namespace Predictive.Grammar

open Store

variable {V K : Type} [Kind K] {s s' : Store V K} {l : Liveness} {r x : Ref} {held pending : List Ref} {i id : NodeId}
  {fuel : Nat} {w : Walk}

namespace Store

/-- What a search for `id` from `r` may come to. -/
def Locates (s : Store V K) (l : Liveness) (r : Ref) (id : NodeId) : Except Fault (Option Ref) → Prop
  | .ok (some x) => s.Visits r x ∧ s.deref? l x = some id
  | .ok none => ¬s.Reaches r id
  | .error e => e = .deadReference ∧ ∃ x, s.Visits r x ∧ s.deref? l x = none

/-- A search on the way: it has seen the nodes of `w`, and there is fuel enough for what is pending and for two references
of each node that has not been seen. -/
structure Seeks (s : Store V K) (r : Ref) (id : NodeId) (fuel : Nat) (pending : List Ref) (w : Walk) : Prop where
  visits : ∀ x ∈ pending, s.Visits r x
  root : r ∈ pending ∨ w.Covers s r
  explores : w.Explores s pending
  missed : id ∉ w.seen
  fuel : pending.length + 2 * (w.unseen s).length ≤ fuel

namespace Seeks

theorem reaches (h : s.Seeks r id fuel (x :: pending) w) (hx : s.nodeOf? x = some i) : s.Reaches r i :=
  (h.visits x List.mem_cons_self).reaches hx

/-- A node that has been seen is passed over. -/
theorem skip (h : s.Seeks r id (fuel + 1) (x :: pending) w) (hx : s.nodeOf? x = some i) (hi : i ∈ w.seen) :
    s.Seeks r id fuel pending w where
  visits y hy := h.visits y (List.mem_cons_of_mem _ hy)
  root := by
    rcases h.root with hr | hr
    · rcases List.mem_cons.1 hr with rfl | hr
      · exact .inr ⟨i, hi, hx⟩
      · exact .inl hr
    · exact .inr hr
  explores := h.explores.skip ⟨i, hi, hx⟩
  missed := h.missed
  fuel := by
    have hfuel := h.fuel
    rw [List.length_cons] at hfuel
    omega

/-- A node that is not the one is expanded. -/
theorem expand (h : s.Seeks r id (fuel + 1) (x :: pending) w) (hx : s.nodeOf? x = some i)
    (hp : (s.productions i).isSome) (hne : i ≠ id) (hi : i ∉ w.seen) :
    s.Seeks r id fuel (s.below i ++ pending) { w with seen := w.seen.insert i } := by
  obtain ⟨shape, hshape, hbound⟩ := exists_shape_of_production hp
  have hlt := (Array.getElem?_eq_some_iff.1 hshape).1
  refine ⟨fun y hy => ?_, ?_, ?_, ?_, ?_⟩
  · rcases List.mem_append.1 hy with hy | hy
    · exact .inr ⟨i, h.reaches hx, hy⟩
    · exact h.visits y (List.mem_cons_of_mem _ hy)
  · rcases h.root with hr | hr
    · rcases List.mem_cons.1 hr with rfl | hr
      · exact .inr ⟨i, mem_insert_seen.2 (.inl rfl), hx⟩
      · exact .inl (List.mem_append_right _ hr)
    · exact .inr (hr.grow (.refl s) fun j hj => mem_insert_seen.2 (.inr hj))
  · exact h.explores.visit hx hlt (fun o ho => hbound o (Option.some.inj (hshape.symm.trans ho))) fun _ => mem_insert_seen
  · rintro hid
    rcases mem_insert_seen.1 hid with rfl | hid
    · exact hne rfl
    · exact h.missed hid
  · have hfuel := h.fuel
    have hless := Walk.length_unseen hlt hi
    have htwo := length_below_le (s := s) (n := i)
    rw [List.length_cons] at hfuel
    rw [List.length_append]
    omega

/-- Where nothing is pending, the node is nowhere. -/
theorem not_reaches (h : s.Seeks r id fuel [] w) : ¬s.Reaches r id := by
  intro hid
  have hroot := h.root.resolve_left List.not_mem_nil
  obtain ⟨x, hx, hxid⟩ : ∃ x, s.Visits r x ∧ s.nodeOf? x = some id := by
    cases hid with
    | root hi => exact ⟨r, .inl rfl, hi⟩
    | part hr hx hj => exact ⟨_, .inr ⟨_, hr, hx⟩, hj⟩
  obtain ⟨j, hj, hxj⟩ := h.explores.covers hroot hx
  obtain rfl := Option.some.inj (hxj.symm.trans hxid)
  exact h.missed hj

end Seeks

/-- A search through a grammar that has been realized never runs out of fuel, and misses nothing. -/
theorem locates_searchFrom (hbound : ∀ i, s.Reaches r i → (s.productions i).isSome)
    (h : s.Seeks r id fuel pending w) : s.Locates l r id (s.searchFrom l id fuel pending w.seen) := by
  induction fuel generalizing pending w with
  | zero =>
    obtain rfl : pending = [] := List.length_eq_zero_iff.1 (by have := h.fuel; omega)
    exact h.not_reaches
  | succ fuel ih =>
    cases pending with
    | nil => exact h.not_reaches
    | cons x pending =>
      rw [searchFrom]
      have hx := h.visits x List.mem_cons_self
      cases hderef : s.deref? l x with
      | none => exact ⟨rfl, x, hx, hderef⟩
      | some i =>
        have hi := nodeOf?_of_deref? hderef
        dsimp only
        split
        · rename_i heq
          exact ⟨hx, heq ▸ hderef⟩
        · rename_i hne
          split
          · rename_i hseen
            exact ih (h.skip hi hseen)
          · rename_i hseen
            exact ih (h.expand hi (hbound i (h.reaches hi)) hne hseen)

theorem locates_search (hi : s.Realized r i) : s.Locates l r id (s.search l r id) := by
  refine locates_searchFrom (w := { held := [], kept := l }) (fun j hj => hi.2 j (hi.reaches_iff.1 hj))
    ⟨fun x hx => .inl (List.mem_singleton.1 hx), .inl (List.mem_singleton_self r), fun j hj => absurd hj (by simp),
      by simp, ?_⟩
  have hle := Walk.length_unseen_le { held := [], kept := l } s
  rw [List.length_singleton]
  omega

end Store

/-- After a grammar has been realized the node is found if there is one, and is not if there is none, unless a
self-reference has died meanwhile. -/
theorem subtree_of_realize (hv : s.Valid) (hr : s.HasRef r) (hg : realize held r s = .ok () s')
    (id : NodeId) :
    (∃ x, subtree held r id s = .ok (some x) s' ∧ s'.Visits r x ∧ s'.deref? (s'.liveness (r :: held)) x = some id) ∨
      (subtree held r id s = .ok none s' ∧ ¬s'.Reaches r id) ∨
      (subtree held r id s = .error .deadReference s' ∧ ¬s'.Alive held r) := by
  obtain ⟨-, i, hi⟩ := (realize_evolves hv held hr).of_ok hg
  have hsearch : s'.Locates (s'.liveness (r :: held)) r id _ := locates_search hi
  have hsubtree : subtree held r id s = liftExcept (s'.search (s'.liveness (r :: held)) r id) s' := by
    simp only [subtree, bind, EStateM.bind, hg]
    rfl
  rw [hsubtree]
  cases hfound : s'.search (s'.liveness (r :: held)) r id with
  | error e =>
    rw [hfound] at hsearch
    obtain ⟨rfl, x, hx, hdead⟩ := hsearch
    refine .inr (.inr ⟨rfl, fun halive => ?_⟩)
    have hsome := halive x hx
    rw [hdead] at hsome
    cases hsome
  | ok found =>
    rw [hfound] at hsearch
    cases found with
    | none => exact .inr (.inl ⟨rfl, hsearch⟩)
    | some x => exact .inl ⟨x, rfl, hsearch⟩

end Predictive.Grammar
