import Predictive.Proofs.Grammar.Enduring
import Predictive.Proofs.Grammar.Exactness

/-!
What realizing says of unguarded recursion after any calls. As long as no call has been stopped for what targets lead
to, no node stands for itself, and a realization is stopped exactly if that would change. A call that is stopped leaves
its circle behind, and later ones pass it by.
-/
namespace Predictive.Grammar

open Store

variable {V K α : Type} [Kind K] [Value V] {s s' : Store V K} {r : Ref} {held : List Ref}

/-- The store is as it should be, and every chain of targets has an end. -/
structure Store.Guarded (s : Store V K) : Prop extends s.Orderly where
  ends : ∀ n, Ends s.productions n

theorem enduring_guarded : Enduring Fault.Mild (Store.Guarded (V := V) (K := K)) where
  valid h := h.valid
  remembers h := h.remembers
  same h hup hsame :=
    ⟨enduring_orderly.same h.toOrderly hup hsame, fun n => hsame.ends hup.toGrows h.tied (h.ends n)⟩
  realize held r s h hr := by
    have hconcludes := realize_concludes h.valid h.remembers h.tied held hr
    obtain ⟨hok, herror⟩ := enduring_orderly.realize held h.toOrderly hr
    refine ⟨fun s' hg => ⟨hok s' hg, fun n => ?_⟩, fun e s' hg hmild => ⟨herror e s' hg trivial, fun n => ?_⟩⟩
    · rw [hg] at hconcludes
      exact hconcludes.2 n (h.ends n)
    · rw [hg] at hconcludes
      exact hconcludes.2.2 hmild n (h.ends n)

/-- The store is what some calls have left of nothing, none of which was stopped for what targets lead to. -/
inductive Untroubled : Store V K → Prop
  | empty : Untroubled {}
  | call {s : Store V K} (c : Call V K) : Untroubled s → (∀ r ∈ c.refs, s.HasRef r) →
      (∀ e s', c.run s = .error e s' → e.Mild) → Untroubled (c.after s)

theorem Untroubled.reached (h : Untroubled s) : Reached s := by
  induction h with
  | empty => exact .refl
  | call c _ hr _ ih => exact .call c ih hr

theorem Untroubled.guarded (h : Untroubled s) : s.Guarded := by
  induction h with
  | empty => exact ⟨Reached.orderly .refl, fun n => ⟨n, .refl, fun m => not_defers_of_target rfl⟩⟩
  | call c _ hr hmild ih => exact enduring_guarded.after ih hr hmild

theorem realize_eq_or (held : List Ref) (r : Ref) (s : Store V K) :
    realize held r s = .ok () ((Call.realize held r).after s) ∨
      ∃ e, realize held r s = .error e ((Call.realize held r).after s) := by
  simp only [Call.after, Call.run]
  cases realize held r s with
  | ok u s' => exact .inl rfl
  | error e s' => exact .inr ⟨e, rfl⟩

/-- After any calls, a realization that returns has bound all there is below, and where a chain of targets had an end
before, it leads to a node that is not deferred. One that is stopped for unguarded recursion has closed a circle; it is
stopped for nothing else, unless hindered. If no call before was stopped for what targets lead to, and nothing hinders,
it is stopped for unguarded recursion exactly if a node it reaches comes to stand for itself. -/
theorem realize_rejects_new_circles (h : Reached s) (hr : s.HasRef r) :
    (∀ t, realize held r s = .ok () t → ∃ i, t.Realized r i ∧ ∀ n, Below t.productions i n → Ends s.productions n →
      ∃ j p, Resolves t.productions n j ∧ t.productions j = some p) ∧
    (∀ j t, realize held r s = .error (.unguarded j) t →
      ∃ n, t.Reaches r n ∧ Ends s.productions n ∧ Circles t.productions n j) ∧
    (∀ e t, realize held r s = .error e t → (∃ j, e = .unguarded j) ∨ Hindered s t (r :: held) r e) ∧
    (Untroubled s → (∀ n, Ends s.productions n) ∧
      ∀ t, (Call.realize held r).after s = t → (∀ e, ¬Hindered s t (r :: held) r e) →
        ((∃ j, realize held r s = .error (.unguarded j) t) ↔
          ∃ n, t.Reaches r n ∧ Relation.TransGen (Defers t.productions) n n)) := by
  have hconcludes := realize_concludes h.orderly.valid h.orderly.remembers h.orderly.tied held hr
  have hreturns : ∀ t, realize held r s = .ok () t → ∃ i, t.Realized r i ∧ ∀ n, Ends s.productions n →
      Ends t.productions n := fun t ht => by
    obtain ⟨-, i, hi⟩ := (realize_evolves h.orderly.valid held hr).of_ok ht
    rw [ht] at hconcludes
    exact ⟨i, hi, hconcludes.2⟩
  have hstops : ∀ e t, realize held r s = .error e t →
      Encircled s t r e ∨ Hindered s t (r :: held) r e := fun e t ht => by
    rw [ht] at hconcludes
    exact hconcludes.2.1
  refine ⟨fun t ht => ?_, fun j t ht => ?_, fun e t ht => ?_, fun huntroubled => ⟨huntroubled.guarded.ends, ?_⟩⟩
  · obtain ⟨i, hi, hends⟩ := hreturns t ht
    refine ⟨i, hi, fun n hb hn => ?_⟩
    obtain ⟨j, hj⟩ := hends n hn
    obtain ⟨p, hp⟩ := Option.isSome_iff_exists.1 (hi.2 j (hb.trans (below_of_stands hj.1)))
    exact ⟨j, p, hj, hp⟩
  · rcases hstops _ t ht with ⟨n, j', he, hreach, hend, hcircle⟩ | hhindered
    · cases he
      exact ⟨n, hreach, hend, hcircle⟩
    · exact absurd rfl (hhindered.not_unguarded j)
  · exact (hstops e t ht).imp_left fun ⟨_, j, he, _⟩ => ⟨j, he⟩
  · rintro t ht hfree
    constructor
    · rintro ⟨j, hj⟩
      rcases hstops _ t hj with ⟨n, j', -, hreach, -, hcircle⟩ | hhindered
      · exact ⟨j', hreach.stands hcircle.1, hcircle.2⟩
      · exact absurd hhindered (hfree _)
    · rintro ⟨n, hreach, hcircle⟩
      rcases realize_eq_or held r s with hok | ⟨e, herror⟩
      · rw [ht] at hok
        obtain ⟨i, hi, hends⟩ := hreturns t hok
        exact absurd ⟨.refl, hcircle⟩ (hends n (huntroubled.guarded.ends n)).not_circles
      · rw [ht] at herror
        rcases hstops e t herror with ⟨_, j, rfl, -⟩ | hhindered
        · exact ⟨j, herror⟩
        · exact absurd hhindered (hfree e)

/-- Whether every node is bound, and all that nodes lead to is alive. -/
def Store.isBound (s : Store V K) (held : List Ref) : Bool :=
  (List.range s.nodes.size).all fun i =>
    (s.below i).all (fun r => (s.deref? (s.liveness held) r).isSome) &&
      match s.nodes[i]? with
      | some (.deferred _ none) => false
      | _ => true

omit [Value V] in
theorem not_hindered_of_isBound {e : Fault} (h : s'.isBound held = true)
    (hr : (s'.deref? (s'.liveness held) r).isSome) : ¬Hindered s s' held r e := by
  simp only [Store.isBound, List.all_eq_true, List.mem_range, Bool.and_eq_true] at h
  have hunbound : ∀ (i : Nat) (o : Origin V K), s'.nodes[i]? ≠ some (.deferred o none) := fun i o hi => by
    have hbound := (h i (Array.getElem?_eq_some_iff.1 hi).1).2
    simp [hi] at hbound
  intro hhindered
  cases hhindered with
  | target _ hi | thunk _ hi => exact hunbound _ _ hi
  | dead hvisits hdead =>
    rcases hvisits with rfl | ⟨i, -, hbelow⟩
    · simp [hdead] at hr
    · have hi : i < s'.nodes.size := by
        by_contra hi
        rw [Store.below, Array.getElem?_eq_none (Nat.le_of_not_lt hi)] at hbelow
        cases hbelow
      have halive := (h i hi).1 _ hbelow
      simp [hdead] at halive

/-- A definition that is nothing but itself. -/
def circleStore : Store Unit Tag := (Call.evaluate [] {} (.recursive "x" (.name "x"))).after {}

theorem untroubled_circleStore : Untroubled circleStore := by
  obtain ⟨u, s', hs, -⟩ := exists_ok (s := ({} : Store Unit Tag))
    (w := (Call.evaluate [] {} (.recursive "x" (.name "x"))).run) (fun _ _ => true) (by decide +kernel)
  refine .call _ .empty (by simp [Call.refs, Scope.refs]) fun e s'' he => ?_
  cases hs.symm.trans he

theorem hasRef_circleStore : circleStore.HasRef (.node 0) := (by decide +kernel : 0 < circleStore.nodes.size)

/-- What is left of it when it is realized. -/
def stoppedStore : Store Unit Tag := (Call.realize [] (.node 0)).after circleStore

theorem realize_circleStore : realize [] (.node 0) circleStore = .error (.unguarded 0) stoppedStore := by
  obtain ⟨e, s', he, hp⟩ := exists_error (s := circleStore) (w := realize [] (.node 0))
    (fun e _ => e == .unguarded 0) (by decide +kernel)
  obtain rfl := beq_iff_eq.1 hp
  refine he.trans ?_
  simp only [stoppedStore, Call.after, Call.run, he]

theorem realize_circle : realize [] (.node 0) circleStore = .error (.unguarded 0) stoppedStore ∧
    ∃ n, stoppedStore.Reaches (.node 0) n ∧ Relation.TransGen (Defers stoppedStore.productions) n n := by
  have hfree : ∀ e, ¬Hindered circleStore stoppedStore [.node 0] (.node 0) e := fun e =>
    not_hindered_of_isBound (by decide +kernel) rfl
  obtain ⟨-, -, -, hiff⟩ := realize_rejects_new_circles untroubled_circleStore.reached hasRef_circleStore
  exact ⟨realize_circleStore, ((hiff untroubled_circleStore).2 stoppedStore rfl hfree).1 ⟨0, realize_circleStore⟩⟩

/-- What was rejected once is not rejected when it is realized again, although it still stands for itself. -/
theorem realize_circle_again : realize [] (.node 0) circleStore = .error (.unguarded 0) stoppedStore ∧
    ∃ t, realize [] (.node 0) stoppedStore = .ok () t ∧ (∀ e, ¬Hindered stoppedStore t [.node 0] (.node 0) e) ∧
      t.Reaches (.node 0) 0 ∧ Relation.TransGen (Defers t.productions) 0 0 := by
  refine ⟨realize_circleStore, ?_⟩
  obtain ⟨u, t, ht, hp⟩ := exists_ok (s := stoppedStore) (w := realize [] (.node 0))
    (fun _ t => t.isBound [.node 0] && t.target? 0 == some (.self 0) && t.nodeOf? (.self 0) == some 0)
    (by decide +kernel)
  obtain ⟨hp, hself⟩ := Bool.and_eq_true_iff.1 hp
  obtain ⟨hbound, htarget⟩ := Bool.and_eq_true_iff.1 hp
  exact ⟨t, ht, fun e => not_hindered_of_isBound hbound rfl, .root rfl,
    .single (defers_of_target (beq_iff_eq.1 htarget) (beq_iff_eq.1 hself))⟩

end Predictive.Grammar
