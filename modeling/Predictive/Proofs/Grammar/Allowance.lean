import Mathlib.Algebra.Order.Ring.Nat
import Predictive.Proofs.Grammar.Realization

/-!
Evaluating an expression binds nothing. It makes no more nodes than the weight of the expression allows, those that
are still to come of its deferred parts included, and it fails only where a name is unknown or a self-reference is dead.
-/
namespace Predictive.Grammar

variable {V K α β : Type} [Ord K]

/-- The nodes that are still to come of a node. -/
def Shape.due : Shape V K → Nat
  | deferred (.delayed e _) none => e.weight
  | _ => 0

/-- What becomes of a node that is bound. -/
def Shape.bindTo (t : Ref) : Shape V K → Shape V K
  | deferred o _ => deferred o (some t)
  | shape => shape

namespace Store

variable {s : Store V K} {i : NodeId} {shape : Shape V K} {o : Origin V K} {t : Ref}

/-- The same nodes are bound, to the same targets. -/
def SameTargets (s s' : Store V K) : Prop := ∀ i, s'.target? i = s.target? i

instance : IsTrans (Store V K) SameTargets := ⟨fun _ _ _ h h' i => (h' i).trans (h i)⟩

/-- The nodes that there are and that are still to come are no more than this. -/
def allowance (s : Store V K) : Nat := s.nodes.size + s.potential

theorem potential_eq (s : Store V K) : s.potential = (s.nodes.toList.map Shape.due).sum := by
  rw [potential, ← Array.foldl_toList, List.sum_eq_foldl, List.foldl_map]
  refine List.rel_foldl (P := Eq) (R := Eq) (fun n n' hn shape shape' hshape => ?_) rfl (List.forall₂_refl _)
  subst hn hshape
  cases shape with
  | deferred o target => cases o <;> cases target <;> rfl
  | success v | element k | disjunction a b | sequence a b | transform f a => rfl

theorem allowance_push (s : Store V K) (shape : Shape V K) :
    ({ s with nodes := s.nodes.push shape } : Store V K).allowance = s.allowance + (shape.due + 1) := by
  simp only [allowance, potential_eq, Array.size_push, Array.toList_push, List.map_append, List.sum_append,
    List.map_cons, List.map_nil, List.sum_cons, List.sum_nil]
  omega

theorem sameTargets_push (hunbound : ∀ o t, shape ≠ .deferred o (some t)) :
    s.SameTargets { s with nodes := s.nodes.push shape } := by
  intro i
  simp only [target?, Array.getElem?_push]
  by_cases hi : i = s.nodes.size
  · subst hi
    simp only [if_true, Array.getElem?_size]
    cases shape with
    | deferred o target =>
      cases target with
      | none => rfl
      | some t => exact absurd rfl (hunbound o t)
    | success v | element k | disjunction a b | sequence a b | transform f a => rfl
  · simp only [if_neg hi]

omit [Ord K] in
theorem sum_modify {f : Shape V K → Shape V K} {xs : List (Shape V K)} {i : Nat} (hi : xs[i]? = some shape) :
    ((xs.modify i f).map Shape.due).sum + shape.due = (xs.map Shape.due).sum + (f shape).due := by
  induction xs generalizing i with
  | nil => cases hi
  | cons x xs ih =>
    cases i with
    | zero =>
      cases hi
      simp only [List.modify_zero_cons, List.map_cons, List.sum_cons]
      omega
    | succ i =>
      have hrest := ih hi
      simp only [List.modify_succ_cons, List.map_cons, List.sum_cons]
      omega

/-- A node that is bound owes no more nodes. -/
theorem allowance_setTarget (hi : s.nodes[i]? = some (.deferred o none)) :
    (s.setTarget i t).allowance + (Shape.deferred o none).due = s.allowance := by
  have hn : (s.setTarget i t).nodes = s.nodes.modify i (Shape.bindTo t) := by
    rw [setTarget]
    congr 1
  rw [← Array.getElem?_toList] at hi
  have hsum := sum_modify (f := Shape.bindTo t) hi
  have hbound : (Shape.bindTo t (Shape.deferred o none)).due = 0 := by cases o <;> rfl
  rw [hbound] at hsum
  simp only [allowance, potential_eq, hn, Array.size_modify, Array.toList_modify]
  omega

end Store

open Store

section

variable {s : Store V K}

theorem add_allowance {shape : Shape V K} (hunbound : ∀ o t, shape ≠ .deferred o (some t)) :
    Leads SameTargets s (add shape) fun _ s' => s'.allowance = s.allowance + (shape.due + 1) :=
  ⟨sameTargets_push hunbound, allowance_push s shape⟩

theorem openKnot_allowance : Leads SameTargets s (openKnot : Work V K Nat) fun _ s' => s'.allowance = s.allowance :=
  ⟨fun _ => rfl, rfl⟩

theorem tieKnot_allowance (knot : Nat) (body : Ref) :
    Leads SameTargets s (tieKnot knot body : Work V K Ref) fun _ s' => s'.allowance = s.allowance + 1 :=
  ⟨sameTargets_push (s := s) (by simp), allowance_push s _⟩

theorem defineKnot_allowance {make : Work V K Ref} {n : Nat} (knot : Nat)
    (h : Leads SameTargets s make fun _ s' => s'.allowance ≤ s.allowance + n) :
    Leads SameTargets s (defineKnot knot make) fun _ s' => s'.allowance ≤ s.allowance + (n + 1) := by
  have htied : ∀ (s₁ : Store V K) (body : Ref), SameTargets s₁ (s₁.tied knot body) ∧
      (s₁.tied knot body).allowance = s₁.allowance + 1 := fun s₁ body => (tieKnot_allowance knot body).of_ok rfl
  rcases defineKnot_cases knot make s with ⟨r, s₁, hm, hd⟩ | ⟨s₁, hm, hd⟩ | ⟨e, s₁, hm, hd⟩
  · obtain ⟨hsame, hle⟩ := h.of_ok hm
    exact .of_eq_ok hd (IsTrans.trans _ _ _ hsame (htied s₁ r).1) (by rw [(htied s₁ r).2]; omega)
  · exact .of_eq_error hd (IsTrans.trans _ _ _ (h.of_error hm) (htied s₁ (.self knot)).1)
  · exact .of_eq_error hd (h.of_error hm)

theorem addMany_allowance (inner : Ref) (v : V) :
    Leads SameTargets s (addMany inner v : Work V K Ref) fun _ s' => s'.allowance = s.allowance + 4 := by
  refine openKnot_allowance.bind fun knot s₁ _ h₁ => ?_
  refine (add_allowance (by simp)).bind fun more s₂ _ h₂ => ?_
  refine (add_allowance (by simp)).bind fun done s₃ _ h₃ => ?_
  refine (add_allowance (by simp)).bind fun body s₄ _ h₄ => ?_
  refine (tieKnot_allowance knot body).mono (fun _ h => h) fun _ s₅ _ h₅ => ?_
  simp only [Shape.due] at h₂ h₃ h₄
  omega

theorem rounds_allowance {step : Nat → Ref → Work V K Ref} {m : Nat} (n i : Nat) (r : Ref)
    (h : ∀ i r s, Leads SameTargets s (step i r) fun _ s' => s'.allowance ≤ s.allowance + m) :
    Leads SameTargets s (rounds step n i r) fun _ s' => s'.allowance ≤ s.allowance + n * m := by
  induction n generalizing s i r with
  | zero => exact .pure (fun _ => rfl) (by simp)
  | succ n ih =>
    refine (h i r s).bind fun r' s₁ _ h₁ => ?_
    refine (ih (i + 1) r').mono (fun _ h => h) fun _ s₂ _ h₂ => ?_
    rw [Nat.succ_mul]
    omega

/-- The nodes that come of an expression, now or later, are no more than its weight. -/
theorem evaluate_allowance (e : Expr V K) (held : List Ref) (sc : Scope) :
    Leads SameTargets s (e.evaluate held sc) fun _ s' => s'.allowance ≤ s.allowance + e.weight := by
  induction e generalizing s held sc with
  | success v | element k | indexed kind =>
    refine (add_allowance (by simp)).mono (fun _ h => h) fun _ s' _ h => ?_
    simp only [Shape.due, Expr.weight] at h ⊢
    omega
  | disjunction l r ihl ihr | sequence l r ihl ihr =>
    refine (ihl held sc).bind fun a s₁ _ h₁ => (ihr (a :: held) sc).bind fun b s₂ _ h₂ => ?_
    refine (add_allowance (by simp)).mono (fun _ h => h) fun _ s₃ _ h₃ => ?_
    simp only [Shape.due, Expr.weight] at h₃ ⊢
    omega
  | transform f e ih =>
    refine (ih held sc).bind fun a s₁ _ h₁ => ?_
    refine (add_allowance (by simp)).mono (fun _ h => h) fun _ s₂ _ h₂ => ?_
    simp only [Shape.due, Expr.weight] at h₂ ⊢
    omega
  | optional e v ih =>
    refine (ih held sc).bind fun a s₁ _ h₁ => (add_allowance (by simp)).bind fun b s₂ _ h₂ => ?_
    refine (add_allowance (by simp)).mono (fun _ h => h) fun _ s₃ _ h₃ => ?_
    simp only [Shape.due, Expr.weight] at h₂ h₃ ⊢
    omega
  | many e v ih =>
    refine (ih held sc).bind fun a s₁ _ h₁ => (addMany_allowance a v).mono (fun _ h => h) fun _ s₂ _ h₂ => ?_
    simp only [Expr.weight]
    omega
  | many1 e v ih =>
    refine (ih held sc).bind fun a s₁ _ h₁ => (addMany_allowance a v).bind fun b s₂ _ h₂ => ?_
    refine (add_allowance (by simp)).mono (fun _ h => h) fun _ s₃ _ h₃ => ?_
    simp only [Shape.due, Expr.weight] at h₃ ⊢
    omega
  | recursive x body ih =>
    refine openKnot_allowance.bind fun knot s₁ _ h₁ => ?_
    exact (defineKnot_allowance knot (ih held _)).mono (fun _ h => h) fun _ s₂ _ h₂ => h₁ ▸ h₂
  | deferred e _ =>
    refine (add_allowance (by simp)).mono (fun _ h => h) fun _ s' _ h => ?_
    simp only [Shape.due, Expr.weight] at h ⊢
    omega
  | name x =>
    simp only [Expr.evaluate, lookup]
    split
    · exact .pure (fun _ => rfl) (Nat.le_refl _)
    · refine .get ?_
      split
      · exact .pure (fun _ => rfl) (Nat.le_refl _)
      · exact .throw (fun _ => rfl) _
  | save x e ih =>
    refine (ih held sc).bind fun r s₁ _ h₁ => ?_
    refine Leads.bind (w := setName x r) ?_ fun _ s₂ _ (h₂ : s₂.allowance = s₁.allowance) => .pure (fun _ => rfl) ?_
    · exact ⟨fun _ => rfl, rfl⟩
    · rw [h₂]
      exact h₁
  | touch e ih =>
    refine (ih held sc).bind fun r s₁ _ h₁ => ?_
    refine (deref_leads (fun _ => rfl) _ r).bind fun _ s₂ _ ⟨hs, _⟩ => .pure (fun _ => rfl) ?_
    rw [hs]
    exact h₁
  | repeated n x start step ihs iht =>
    refine (ihs held sc).bind fun r s₁ _ h₁ => ?_
    refine (rounds_allowance n 0 r fun i r' s' => iht held _).mono (fun _ h => h) fun _ s₂ _ h₂ => ?_
    simp only [Expr.weight]
    omega
  | malformed => exact .throw (fun _ => rfl) _

end

/-! Faults -/

/-- However `w` starts, it stops at no other faults. -/
def StopsAt (P : Fault → Prop) (w : Work V K α) : Prop := ∀ s e s', w s = .error e s' → P e

namespace StopsAt

variable {P : Fault → Prop} {w : Work V K α} {k : α → Work V K β}

theorem pure (a : α) : StopsAt P (Pure.pure a : Work V K α) := fun _ _ _ h => nomatch h

theorem throw {e : Fault} (he : P e) : StopsAt P (MonadExcept.throw e : Work V K α) := by
  rintro s e' s' h
  cases h
  exact he

theorem add (shape : Shape V K) : StopsAt P (add shape) := fun _ _ _ h => nomatch h

theorem mono {Q : Fault → Prop} (h : StopsAt P w) (hPQ : ∀ e, P e → Q e) : StopsAt Q w :=
  fun s e s' he => hPQ e (h s e s' he)

theorem bind (h : StopsAt P w) (hk : ∀ a, StopsAt P (k a)) : StopsAt P (w >>= k) := by
  intro s e s' he
  rcases bind_eq_error he with he | ⟨a, s₁, -, he⟩
  · exact h s e s' he
  · exact hk a s₁ e s' he

end StopsAt

/-- The faults of evaluating an expression. -/
def Fault.OfExpression (e : Fault) : Prop := e = .badExpression ∨ e = .deadReference

theorem deref_stopsAt (held : List Ref) (r : Ref) : StopsAt (· = .deadReference) (deref held r : Work V K NodeId) := by
  cases r with
  | node i => exact .pure i
  | self k =>
    refine StopsAt.bind (fun _ _ _ h => nomatch h) fun s => ?_
    split
    · exact .pure _
    · exact .throw rfl

theorem addMany_stopsAt {P : Fault → Prop} (inner : Ref) (v : V) : StopsAt P (addMany inner v : Work V K Ref) :=
  fun _ _ _ h => nomatch h

theorem defineKnot_stopsAt {P : Fault → Prop} {make : Work V K Ref} (knot : Nat) (h : StopsAt P make) :
    StopsAt P (defineKnot knot make) := by
  intro s e s' he
  rcases defineKnot_cases knot make s with ⟨r, s₁, -, hd⟩ | ⟨s₁, hm, hd⟩ | ⟨fault, s₁, hm, hd⟩
  · cases hd.symm.trans he
  · cases hd.symm.trans he
    exact h s _ _ hm
  · cases hd.symm.trans he
    exact h s _ _ hm

theorem rounds_stopsAt {P : Fault → Prop} {step : Nat → Ref → Work V K Ref} (n i : Nat) (r : Ref)
    (h : ∀ i r, StopsAt P (step i r)) : StopsAt P (rounds step n i r) := by
  induction n generalizing i r with
  | zero => exact .pure r
  | succ n ih => exact (h i r).bind fun r' => ih (i + 1) r'

/-- Evaluating an expression fails only where a name is unknown or a self-reference is dead. -/
theorem evaluate_stopsAt (e : Expr V K) (held : List Ref) (sc : Scope) :
    StopsAt Fault.OfExpression (e.evaluate held sc) := by
  induction e generalizing held sc with
  | success v | element k | indexed kind | deferred e _ => exact .add _
  | disjunction l r ihl ihr | sequence l r ihl ihr =>
    exact (ihl held sc).bind fun a => (ihr (a :: held) sc).bind fun b => .add _
  | transform f e ih => exact (ih held sc).bind fun a => .add _
  | optional e v ih => exact (ih held sc).bind fun a => StopsAt.bind (.add _) fun b => .add _
  | many e v ih => exact (ih held sc).bind fun a => addMany_stopsAt a v
  | many1 e v ih => exact (ih held sc).bind fun a => (addMany_stopsAt a v).bind fun b => .add _
  | recursive x body ih =>
    exact StopsAt.bind (fun _ _ _ h => nomatch h) fun knot => defineKnot_stopsAt knot (ih held _)
  | name x =>
    simp only [Expr.evaluate, lookup]
    split
    · exact .pure _
    · refine StopsAt.bind (fun _ _ _ h => nomatch h) fun s => ?_
      split
      · exact .pure _
      · exact .throw (.inl rfl)
  | save x e ih =>
    exact (ih held sc).bind fun r => StopsAt.bind (fun _ _ _ h => nomatch h) fun _ => .pure _
  | touch e ih =>
    exact (ih held sc).bind fun r => ((deref_stopsAt _ r).mono fun _ => .inr).bind fun _ => .pure _
  | repeated n x start step ihs iht =>
    exact (ihs held sc).bind fun r => rounds_stopsAt n 0 r fun i r' => iht held _
  | malformed => exact .throw (.inl rfl)

end Predictive.Grammar
