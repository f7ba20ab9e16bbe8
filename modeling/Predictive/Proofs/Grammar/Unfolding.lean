import Predictive.Proofs.Grammar.Guarding
import Predictive.Proofs.Grammar.Terms

/-!
What a node unfolds to when each deferred node is replaced by the node it stands for: a tree that may be infinite, known
by what is left of it at each depth. Nodes that one term denotes unfold alike, whatever systems they are nodes of.
-/
namespace Predictive

variable {V K : Type} {G G' : Productions V K} {i i' j n : Nat}

/-- A tree down to some depth. What a transformation does is not told. -/
inductive Unfolding (V K : Type) where
  | cut
  | success (v : V)
  | element (k : K)
  | disjunction (left right : Unfolding V K)
  | sequence (left right : Unfolding V K)
  | transform (inner : Unfolding V K)

/-- What a node with the production `p` unfolds to if its parts unfold as `sub` says. -/
def Production.Spreads (sub : Nat → Unfolding V K → Prop) : Production V K → Unfolding V K → Prop
  | success v, a => a = .success v
  | element k, a => a = .element k
  | disjunction l r, a => ∃ b c, sub l b ∧ sub r c ∧ a = .disjunction b c
  | sequence l r, a => ∃ b c, sub l b ∧ sub r c ∧ a = .sequence b c
  | transform _ j, a => ∃ b, sub j b ∧ a = .transform b
  | deferred _, _ => False

/-- The node `i` unfolds to the given tree down to the depth `n`. Deferred nodes do not count. -/
def Unfolds (G : Productions V K) : Nat → Nat → Unfolding V K → Prop
  | 0, _, a => a = .cut
  | n + 1, i, a => ∃ j p, Resolves G i j ∧ G j = some p ∧ p.Spreads (Unfolds G n) a

/-- To each depth both nodes unfold, each to one tree, and to the same one. -/
def SameUnfolding (G : Productions V K) (i : Nat) (G' : Productions V K) (i' : Nat) : Prop :=
  ∀ n, ∃ a, (∀ b, Unfolds G n i b ↔ b = a) ∧ ∀ b, Unfolds G' n i' b ↔ b = a

variable {a b : Unfolding V K} {p : Production V K} {sub : Nat → Unfolding V K → Prop}

theorem Production.Spreads.unique (h : p.Spreads sub a) (h' : p.Spreads sub b)
    (hsub : ∀ j a b, sub j a → sub j b → a = b) : a = b := by
  cases p with
  | success v | element k => exact h.trans h'.symm
  | disjunction l r | sequence l r =>
    obtain ⟨c, d, hc, hd, rfl⟩ := h
    obtain ⟨c', d', hc', hd', rfl⟩ := h'
    rw [hsub l c c' hc hc', hsub r d d' hd hd']
  | transform f j =>
    obtain ⟨c, hc, rfl⟩ := h
    obtain ⟨c', hc', rfl⟩ := h'
    rw [hsub j c c' hc hc']
  | deferred j => exact h.elim

theorem Unfolds.unique (h : Unfolds G n i a) (h' : Unfolds G n i b) : a = b := by
  induction n generalizing i a b with
  | zero => exact Eq.trans h (Eq.symm h')
  | succ n ih =>
    obtain ⟨j, p, hj, hp, ha⟩ := h
    obtain ⟨j', p', hj', hp', hb⟩ := h'
    obtain rfl := hj.unique hj'
    obtain rfl := Option.some.inj (hp.symm.trans hp')
    exact ha.unique hb fun _ _ _ => ih

theorem Production.exists_spreads (hp : ∀ j, p ≠ .deferred j) (hsub : ∀ j ∈ p.parts, ∃ a, sub j a) :
    ∃ a, p.Spreads sub a := by
  cases p with
  | success v | element k => exact ⟨_, rfl⟩
  | disjunction l r | sequence l r =>
    obtain ⟨b, hb⟩ := hsub l (by simp [Production.parts])
    obtain ⟨c, hc⟩ := hsub r (by simp [Production.parts])
    exact ⟨_, b, c, hb, hc, rfl⟩
  | transform f j =>
    obtain ⟨b, hb⟩ := hsub j (by simp [Production.parts])
    exact ⟨_, b, hb, rfl⟩
  | deferred j => exact absurd rfl (hp j)

/-- A node unfolds to each depth if no chain of targets below it is endless. -/
theorem exists_unfolds (hc : Complete G i) (hends : ∀ j, Below G i j → Ends G j) (n : Nat) : ∃ a, Unfolds G n i a := by
  induction n generalizing i with
  | zero => exact ⟨.cut, rfl⟩
  | succ n ih =>
    obtain ⟨j, hj⟩ := hends i .refl
    have hb := below_of_stands hj.1
    obtain ⟨p, hp⟩ := Option.isSome_iff_exists.1 (hc j hb)
    have hparts : ∀ l ∈ p.parts, ∃ a, Unfolds G n l a := fun l hl =>
      have hbl := hb.trans (Below.part hp hl)
      ih (hc.below hbl) fun m hm => hends m (hbl.trans hm)
    have hsolid : ∀ l, p ≠ .deferred l := by
      rintro l rfl
      exact hj.2 l hp
    obtain ⟨a, ha⟩ := Production.exists_spreads hsolid hparts
    exact ⟨a, j, p, hj, hp, ha⟩

namespace Grammar

/-- The term denotes the node `i` when the number `k + 1` is that of the deferred node at `k` in `order`. -/
inductive Term.Denotes (G : Productions V K) (order : List Nat) : Term V K → Nat → Prop
  | success {i : Nat} {v : V} : G i = some (.success v) → Denotes G order (.success v) i
  | element {i : Nat} {k : K} : G i = some (.element k) → Denotes G order (.element k) i
  | disjunction {i l r : Nat} {t u : Term V K} : G i = some (.disjunction l r) → Denotes G order t l →
      Denotes G order u r → Denotes G order (.disjunction t u) i
  | sequence {i l r : Nat} {t u : Term V K} : G i = some (.sequence l r) → Denotes G order t l →
      Denotes G order u r → Denotes G order (.sequence t u) i
  | transform {i j : Nat} {f : Transformation V} {t : Term V K} : G i = some (.transform f j) →
      Denotes G order t j → Denotes G order (.transform t) i
  | definition {i j k : Nat} {t : Term V K} : Defers G i j → order[k]? = some i → Denotes G order t j →
      Denotes G order (.definition (k + 1) t) i
  | name {i j k : Nat} : Defers G i j → order[k]? = some i → Denotes G order (.name (k + 1)) i

/-- Each name is that of a definition in the term. -/
def Term.Closed (t : Term V K) : Prop := ∀ k, t.Contains (.name k) → ∃ u, t.Contains (.definition k u)

variable {order order' : List Nat} {t u : Term V K}

/-- What is in a term that denotes something denotes something. -/
theorem Term.Denotes.contains (h : t.Denotes G order i) (hu : t.Contains u) : ∃ j, u.Denotes G order j := by
  induction hu with
  | refl => exact ⟨i, h⟩
  | tail _ hu ih =>
    obtain ⟨j, hj⟩ := ih
    cases hj with
    | success | element | name => cases hu
    | disjunction _ hl hr | sequence _ hl hr =>
      rcases List.mem_pair.1 hu with rfl | rfl
      · exact ⟨_, hl⟩
      · exact ⟨_, hr⟩
    | transform _ ht | definition _ _ ht =>
      obtain rfl := List.mem_singleton.1 hu
      exact ⟨_, ht⟩

/-- Some term that is met in `t` denotes both nodes. -/
def Term.Pairs (t : Term V K) (G : Productions V K) (order : List Nat) (G' : Productions V K) (order' : List Nat)
    (i i' : Nat) : Prop :=
  ∃ u, t.Contains u ∧ u.Denotes G order i ∧ u.Denotes G' order' i'

namespace Term.Pairs

/-- If neither is deferred, what the one unfolds to, the other one does. -/
theorem spreads {sub sub' : Nat → Unfolding V K → Prop} (h : t.Pairs G order G' order' i i')
    (hp : G i = some p) (ha : p.Spreads sub a)
    (hsub : ∀ l l' b, t.Pairs G order G' order' l l' → sub l b → sub' l' b) :
    ∃ p', G' i' = some p' ∧ p'.Spreads sub' a := by
  obtain ⟨u, hu, hi, hi'⟩ := h
  cases hi with
  | success hq =>
    cases hp.symm.trans hq
    cases hi' with | success hq' => exact ⟨_, hq', ha⟩
  | element hq =>
    cases hp.symm.trans hq
    cases hi' with | element hq' => exact ⟨_, hq', ha⟩
  | disjunction hq hl hr =>
    cases hp.symm.trans hq
    obtain ⟨b, c, hb, hc, rfl⟩ := ha
    cases hi' with
    | disjunction hq' hl' hr' =>
      exact ⟨_, hq', b, c, hsub _ _ b ⟨_, hu.tail List.mem_cons_self, hl, hl'⟩ hb,
        hsub _ _ c ⟨_, hu.tail (List.mem_pair.2 (.inr rfl)), hr, hr'⟩ hc, rfl⟩
  | sequence hq hl hr =>
    cases hp.symm.trans hq
    obtain ⟨b, c, hb, hc, rfl⟩ := ha
    cases hi' with
    | sequence hq' hl' hr' =>
      exact ⟨_, hq', b, c, hsub _ _ b ⟨_, hu.tail List.mem_cons_self, hl, hl'⟩ hb,
        hsub _ _ c ⟨_, hu.tail (List.mem_pair.2 (.inr rfl)), hr, hr'⟩ hc, rfl⟩
  | transform hq ht =>
    cases hp.symm.trans hq
    obtain ⟨b, hb, rfl⟩ := ha
    cases hi' with
    | transform hq' ht' => exact ⟨_, hq', b, hsub _ _ b ⟨_, hu.tail (List.mem_singleton_self _), ht, ht'⟩ hb, rfl⟩
  | definition hq | name hq =>
    cases hp.symm.trans hq
    exact ha.elim

section Whole

variable {m m' : Nat} (hclosed : t.Closed) (hm : t.Denotes G order m) (hm' : t.Denotes G' order' m')
include hclosed hm hm'

/-- If one is deferred, so is the other one, and the targets are paired again. A name is looked up in the whole term,
since it may be outside of the body of its definition. -/
theorem defers (h : t.Pairs G order G' order' i i') (hd : Defers G i j) :
    ∃ j', Defers G' i' j' ∧ t.Pairs G order G' order' j j' := by
  obtain ⟨u, hu, hi, hi'⟩ := h
  cases hi with
  | definition hj _ ht =>
    cases hd.symm.trans hj
    cases hi' with
    | definition hj' _ ht' => exact ⟨_, hj', _, hu.tail (List.mem_singleton_self _), ht, ht'⟩
  | name hj hk =>
    cases hi' with
    | name hj' hk' =>
      obtain ⟨body, hbody⟩ := hclosed _ hu
      obtain ⟨x, hx⟩ := hm.contains hbody
      obtain ⟨x', hx'⟩ := hm'.contains hbody
      cases hx with
      | definition hx hkx ht =>
        cases hx' with
        | definition hx' hkx' ht' =>
          obtain rfl := Option.some.inj (hkx.symm.trans hk)
          obtain rfl := Option.some.inj (hkx'.symm.trans hk')
          cases hd.symm.trans hx
          exact ⟨_, hx', body, hbody.tail (List.mem_singleton_self _), ht, ht'⟩
  | success hp | element hp | disjunction hp | sequence hp | transform hp => cases hd.symm.trans hp

theorem stands (h : t.Pairs G order G' order' i i') (hs : Stands G i j) :
    ∃ j', Stands G' i' j' ∧ t.Pairs G order G' order' j j' := by
  induction hs with
  | refl => exact ⟨i', .refl, h⟩
  | tail _ hd ih =>
    obtain ⟨l', hl', hl⟩ := ih
    obtain ⟨j', hj', hj⟩ := hl.defers hclosed hm hm' hd
    exact ⟨j', hl'.tail hj', hj⟩

/-- Down to each depth the other node unfolds to what the one does. -/
theorem unfolds (h : t.Pairs G order G' order' i i') (ha : Unfolds G n i a) : Unfolds G' n i' a := by
  induction n generalizing i i' a with
  | zero => exact ha
  | succ n ih =>
    obtain ⟨j, p, hj, hp, ha⟩ := ha
    obtain ⟨j', hj', hpairs⟩ := h.stands hclosed hm hm' hj.1
    have hsub : ∀ l l' b, t.Pairs G order G' order' l l' → Unfolds G n l b → Unfolds G' n l' b := fun _ _ _ => ih
    obtain ⟨p', hp', ha'⟩ := hpairs.spreads hp ha hsub
    refine ⟨j', p', ⟨hj', fun l hl => ?_⟩, hp', ha'⟩
    cases hp'.symm.trans hl
    exact ha'

end Whole

end Term.Pairs

/-- Nodes that one term denotes unfold alike. -/
theorem sameUnfolding_of_denotes (hclosed : t.Closed) (h : t.Denotes G order i) (h' : t.Denotes G' order' i')
    (hc : Complete G i) (hends : ∀ j, Below G i j → Ends G j) : SameUnfolding G i G' i' := by
  intro n
  have hpairs : t.Pairs G order G' order' i i' := ⟨t, .refl, h, h'⟩
  obtain ⟨a, ha⟩ := exists_unfolds hc hends n
  have ha' := hpairs.unfolds hclosed h h' ha
  refine ⟨a, fun b => ⟨fun hb => hb.unique ha, ?_⟩, fun b => ⟨fun hb => hb.unique ha', ?_⟩⟩
  · rintro rfl
    exact ha
  · rintro rfl
    exact ha'

end Grammar

end Predictive
