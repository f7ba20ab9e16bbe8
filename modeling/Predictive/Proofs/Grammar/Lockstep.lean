import Predictive.Proofs.Grammar.Twin
import Predictive.Proofs.Grammar.History

/-!
The same calls on two stores of the same nodes with related values: they end in the same way, and leave such stores.
-/
namespace Predictive.Grammar

open Store

variable {V W K α β γ δ : Type} [Kind K]

/-- Both works end with related results, or both with the same fault, in stores that are the same but for the values. -/
inductive Matched (ρ : V → W → Prop) (S : α → β → Prop) :
    EStateM.Result Fault (Store V K) α → EStateM.Result Fault (Store W K) β → Prop
  | ok {a b s s'} : S a b → s.Twin ρ s' → Matched ρ S (.ok a s) (.ok b s')
  | error (e : Fault) {s s'} : s.Twin ρ s' → Matched ρ S (.error e s) (.error e s')

variable {ρ : V → W → Prop} {S : α → β → Prop} {s : Store V K} {s' : Store W K} {w : Work V K α} {w' : Work W K β}
  {r : Ref} {held : List Ref}

namespace Matched

variable {T : γ → δ → Prop} {k : α → Work V K γ} {k' : β → Work W K δ}

theorem pure {a : α} {b : β} (h : s.Twin ρ s') (hab : S a b) :
    Matched ρ S ((Pure.pure a : Work V K α) s) ((Pure.pure b : Work W K β) s') := .ok hab h

theorem throw (h : s.Twin ρ s') (e : Fault) :
    Matched ρ S ((MonadExcept.throw e : Work V K α) s) ((MonadExcept.throw e : Work W K β) s') := .error e h

theorem get {k : Store V K → Work V K α} {k' : Store W K → Work W K β} (h : Matched ρ S (k s s) (k' s' s')) :
    Matched ρ S ((MonadState.get >>= k) s) ((MonadState.get >>= k') s') := h

theorem bind (h : Matched ρ S (w s) (w' s'))
    (hk : ∀ a b t t', S a b → t.Twin ρ t' → Matched ρ T (k a t) (k' b t')) :
    Matched ρ T ((w >>= k) s) ((w' >>= k') s') := by
  change Matched ρ T (EStateM.bind w k s) (EStateM.bind w' k' s')
  unfold EStateM.bind
  generalize w s = x, w' s' = x' at h
  cases h with
  | ok hab ht => exact hk _ _ _ _ hab ht
  | error e ht => exact .error e ht

theorem exists_ok {a : α} {t : Store V K} (h : Matched ρ S (w s) (w' s')) (hw : w s = .ok a t) :
    ∃ b t', w' s' = .ok b t' ∧ S a b ∧ t.Twin ρ t' := by
  rw [hw] at h
  generalize w' s' = x' at h
  cases h with
  | ok hab ht => exact ⟨_, _, rfl, hab, ht⟩

theorem mono {S' : α → β → Prop} (h : Matched ρ S (w s) (w' s')) (hS : ∀ a b, S a b → S' a b) :
    Matched ρ S' (w s) (w' s') := by
  generalize w s = x, w' s' = x' at h
  cases h with
  | ok hab ht => exact .ok (hS _ _ hab) ht
  | error e ht => exact .error e ht

theorem liftExcept {e : Except Fault α} {e' : Except Fault β} (h : s.Twin ρ s') (he : Alike S e e') :
    Matched ρ S ((Grammar.liftExcept e : Work V K α) s) ((Grammar.liftExcept e' : Work W K β) s') := by
  cases he with
  | ok hab => exact .pure h hab
  | error e => exact .throw h e

theorem adaptExcept (f : Fault → Fault) (h : Matched ρ S (w s) (w' s')) :
    Matched ρ S (EStateM.adaptExcept f w s) (EStateM.adaptExcept f w' s') := by
  unfold EStateM.adaptExcept
  generalize w s = x, w' s' = x' at h
  cases h with
  | ok hab ht => exact .ok hab ht
  | error e ht => exact .error _ ht

theorem mapM {f : γ → Work V K α} {f' : δ → Work W K β} {xs : List γ} {xs' : List δ}
    (hxs : List.Forall₂ T xs xs') (h : s.Twin ρ s')
    (hf : ∀ x x' t t', T x x' → t.Twin ρ t' → Matched ρ S (f x t) (f' x' t')) :
    Matched ρ (List.Forall₂ S) (xs.mapM f s) (xs'.mapM f' s') := by
  induction hxs generalizing s s' with
  | nil => exact .pure h .nil
  | cons hx _ ih =>
    rw [List.mapM_cons, List.mapM_cons]
    refine (hf _ _ s s' hx h).bind fun y y' t t' hy ht => ?_
    exact (ih ht).bind fun ys ys' t t' hys ht => .pure ht (.cons hy hys)

end Matched

theorem forall₂_modify {R : α → β → Prop} {xs : List α} {ys : List β} {f : α → α} {f' : β → β}
    (h : List.Forall₂ R xs ys) (hf : ∀ x y, R x y → R (f x) (f' y)) (i : Nat) :
    List.Forall₂ R (xs.modify i f) (ys.modify i f') := by
  induction h generalizing i with
  | nil => simp
  | cons hxy hrest ih =>
    cases i with
    | zero => exact .cons (hf _ _ hxy) hrest
    | succ i => exact .cons hxy (ih i)

namespace Store.Twin

variable (h : s.Twin ρ s')
include h

theorem push {shape : Shape V K} {shape' : Shape W K} (hshape : shape.Twin ρ shape')
    (hunbound : ∀ o t, shape ≠ .deferred o (some t)) :
    Store.Twin ρ { s with nodes := s.nodes.push shape } { s' with nodes := s'.nodes.push shape' } where
  nodes := by
    rw [Array.toList_push, Array.toList_push]
    exact List.rel_append h.nodes (.cons hshape .nil)
  knots := h.knots
  names := h.names
  releases := h.releases
  book := h.book
  listening := h.listening
  events := h.events
  targets i o t hi := by
    rw [Array.getElem?_push] at hi
    split at hi
    · exact (hunbound o t (Option.some.inj hi)).elim
    · exact h.targets i o t hi

/-- The self-references change, and none that led somewhere leads nowhere. -/
theorem setKnots (knots : Array (Option NodeId))
    (hle : ∀ k, (s.nodeOf? (.self k)).isSome → (knots[k]?).join.isSome) :
    Store.Twin ρ { s with knots } { s' with knots } where
  nodes := h.nodes
  knots := rfl
  names := h.names
  releases := h.releases
  book := h.book
  listening := h.listening
  events := h.events
  targets i o t hi := by
    have ht := h.targets i o t hi
    cases t with
    | node j => rfl
    | self k => exact hle k ht

theorem setNames (names : Std.TreeMap String Ref) (releases : Nat) :
    Store.Twin ρ { s with names, releases } { s' with names, releases } :=
  ⟨h.nodes, h.knots, rfl, rfl, h.book, h.listening, h.events, h.targets⟩

theorem setEvents {listening listening' : Bool} {events events' : Array (Event K)} (hl : listening' = listening)
    (he : events' = events) :
    Store.Twin ρ { s with listening, events } { s' with listening := listening', events := events' } :=
  ⟨h.nodes, h.knots, h.names, h.releases, h.book, hl, he, h.targets⟩

theorem setBook {b : Solver.Book (FactName.Carrier V K)} {b' : Solver.Book (FactName.Carrier W K)}
    (hb : b.Twin (FactName.Twin ρ) b') : Store.Twin ρ { s with book := b } { s' with book := b' } :=
  ⟨h.nodes, h.knots, h.names, h.releases, hb, h.listening, h.events, h.targets⟩

theorem setTarget (i : NodeId) {t : Ref} (ht : (s.nodeOf? t).isSome) :
    Store.Twin ρ (s.setTarget i t) (s'.setTarget i t) where
  nodes := by
    rw [Store.setTarget, Store.setTarget, Array.toList_modify, Array.toList_modify]
    refine forall₂_modify h.nodes (fun _ _ hshape => ?_) i
    cases hshape with
    | unbound ho => exact .bound t ho.refs
    | bound _ ho => exact .bound t ho
    | success hv => exact .success hv
    | element k => exact .element k
    | disjunction l r => exact .disjunction l r
    | sequence l r => exact .sequence l r
    | transform i hf => exact .transform i hf
  knots := h.knots
  names := h.names
  releases := h.releases
  book := h.book
  listening := h.listening
  events := h.events
  targets j o u hj := by
    rw [nodes_setTarget] at hj
    split at hj
    · obtain ⟨shape, hshape, he⟩ := Option.map_eq_some_iff.1 hj
      cases shape with
      | deferred o' u' =>
        cases he
        exact ht
      | success | element | disjunction | sequence | transform => cases he
    · exact h.targets j o u hj

end Store.Twin

section Evaluation

theorem add_matched {shape : Shape V K} {shape' : Shape W K} (h : s.Twin ρ s') (hshape : shape.Twin ρ shape')
    (hunbound : ∀ o t, shape ≠ .deferred o (some t)) : Matched ρ Eq (add shape s) (add shape' s') := by
  refine .ok ?_ (h.push hshape hunbound)
  rw [h.size]

theorem openKnot_matched (h : s.Twin ρ s') : Matched ρ Eq (openKnot s) (openKnot s') := by
  have hopened := h.setKnots (s.knots.push none) fun k hk => by
    rw [Array.getElem?_push]
    split
    · rename_i hsize
      simp [Store.nodeOf?, hsize] at hk
    · exact hk
  have hmatched : Matched ρ Eq (openKnot s) (.ok s.knots.size { s' with knots := s.knots.push none }) := .ok rfl hopened
  rwa [← h.knots] at hmatched

theorem tieKnot_matched (h : s.Twin ρ s') (knot : Nat) (body : Ref) :
    Matched ρ Eq (tieKnot knot body s) (tieKnot knot body s') := by
  have hpushed := h.push (.unbound (.known body)) fun _ _ he => by cases he
  have htied := hpushed.setKnots (s.knots.setIfInBounds knot (some s.nodes.size)) fun k hk => by
    rw [Array.getElem?_setIfInBounds]
    split
    · rename_i hknot
      subst hknot
      by_cases hlt : knot < s.knots.size
      · simp [hlt]
      · simp [Store.nodeOf?, hlt] at hk
    · exact hk
  have hmatched : Matched ρ Eq (tieKnot knot body s) (.ok (.node s.nodes.size) { s' with
      nodes := s'.nodes.push (.deferred (.known body) none)
      knots := s.knots.setIfInBounds knot (some s.nodes.size) }) := .ok rfl htied
  rwa [← h.knots, ← h.size] at hmatched

theorem defineKnot_matched (knot : Nat) {make : Work V K Ref} {make' : Work W K Ref}
    (hmake : Matched ρ Eq (make s) (make' s')) :
    Matched ρ Eq (defineKnot knot make s) (defineKnot knot make' s') := by
  generalize hm : make s = x, hm' : make' s' = x' at hmake
  cases hmake with
  | @ok body _ t t' e ht =>
    subst e
    rw [defineKnot_of_ok knot hm, defineKnot_of_ok knot hm']
    exact tieKnot_matched ht knot body
  | error fault ht =>
    by_cases hfault : fault = .badExpression
    · subst hfault
      rw [defineKnot_of_badExpression knot hm, defineKnot_of_badExpression knot hm']
      obtain ⟨_, _, hw, -, htied⟩ := (tieKnot_matched ht knot (.self knot)).exists_ok rfl
      cases hw
      exact .error .badExpression htied
    · rw [defineKnot_of_error knot hm hfault, defineKnot_of_error knot hm' hfault]
      exact .error fault ht

theorem addMany_matched (h : s.Twin ρ s') (inner : Ref) {v : V} {v' : W} (hv : ρ v v') :
    Matched ρ Eq (addMany inner v s) (addMany inner v' s') := by
  refine (openKnot_matched h).bind fun knot _ s₁ s₁' e h₁ => ?_
  subst e
  refine (add_matched h₁ (.sequence _ _) (by simp)).bind fun more _ s₂ s₂' e h₂ => ?_
  subst e
  refine (add_matched h₂ (.success hv) (by simp)).bind fun done _ s₃ s₃' e h₃ => ?_
  subst e
  refine (add_matched h₃ (.disjunction _ _) (by simp)).bind fun body _ s₄ s₄' e h₄ => ?_
  subst e
  exact tieKnot_matched h₄ knot body

theorem rounds_matched {step : Nat → Ref → Work V K Ref} {step' : Nat → Ref → Work W K Ref} (n i : Nat) (r : Ref)
    (h : s.Twin ρ s')
    (hstep : ∀ i r t t', t.Twin ρ t' → Matched ρ Eq (step i r t) (step' i r t')) :
    Matched ρ Eq (rounds step n i r s) (rounds step' n i r s') := by
  induction n generalizing i r s s' with
  | zero => exact .pure h rfl
  | succ n ih =>
    refine (hstep i r s s' h).bind fun a _ t t' e ht => ?_
    subst e
    exact ih (i + 1) a ht

theorem lookup_matched (h : s.Twin ρ s') (sc : Scope) (x : String) : Matched ρ Eq (lookup sc x s) (lookup sc x s') := by
  unfold lookup
  cases sc.locals.lookup x with
  | some r => exact .pure h rfl
  | none =>
    refine .get ?_
    rw [h.names]
    cases s.names[x]? with
    | some r => exact .pure h rfl
    | none => exact .throw h _

theorem setName_matched (h : s.Twin ρ s') (x : String) (r : Ref) :
    Matched ρ Eq (setName x r s) (setName x r s') := by
  have hset := h.setNames (s.names.insert x r) (s.releases + s.names[x]?.elim 0 fun old => old.held.length)
  have hmatched : Matched ρ Eq (setName x r s) (.ok () _) := .ok rfl hset
  rwa [← h.names, ← h.releases] at hmatched

theorem deref_matched (h : s.Twin ρ s') (held : List Ref) (r : Ref) :
    Matched ρ Eq (deref held r s) (deref held r s') := by
  cases r with
  | node i => exact .pure h rfl
  | self k =>
    refine .get ?_
    rw [h.liveness, h.deref?]
    cases s.deref? (s.liveness (.self k :: held)) (.self k) with
    | some i => exact .pure h rfl
    | none => exact .throw h _

theorem getLiveness_matched (h : s.Twin ρ s') (held : List Ref) :
    Matched ρ Eq (getLiveness held s) (getLiveness held s') := by
  refine .get (.pure h ?_)
  rw [h.liveness]

theorem evaluate_matched {e : Expr V K} {e' : Expr W K} (he : e.Twin ρ e') (held : List Ref) (sc : Scope)
    (h : s.Twin ρ s') : Matched ρ Eq (e.evaluate held sc s) (e'.evaluate held sc s') := by
  induction he generalizing s s' held sc with
  | success hv => exact add_matched h (.success hv) (by simp)
  | element k => exact add_matched h (.element k) (by simp)
  | indexed kind => exact add_matched h (.element _) (by simp)
  | disjunction _ _ ihl ihr =>
    refine (ihl held sc h).bind fun a _ t t' e ht => ?_
    subst e
    refine (ihr (a :: held) sc ht).bind fun b _ t t' e ht => ?_
    subst e
    exact add_matched ht (.disjunction a b) (by simp)
  | sequence _ _ ihl ihr =>
    refine (ihl held sc h).bind fun a _ t t' e ht => ?_
    subst e
    refine (ihr (a :: held) sc ht).bind fun b _ t t' e ht => ?_
    subst e
    exact add_matched ht (.sequence a b) (by simp)
  | transform hf _ ih =>
    refine (ih held sc h).bind fun a _ t t' e ht => ?_
    subst e
    exact add_matched ht (.transform a hf) (by simp)
  | optional _ hv ih =>
    refine (ih held sc h).bind fun a _ t t' e ht => ?_
    subst e
    refine (add_matched ht (.success hv) (by simp)).bind fun b _ t t' e ht => ?_
    subst e
    exact add_matched ht (.disjunction a b) (by simp)
  | many _ hv ih =>
    refine (ih held sc h).bind fun a _ t t' e ht => ?_
    subst e
    exact addMany_matched ht a hv
  | many1 _ hv ih =>
    refine (ih held sc h).bind fun a _ t t' e ht => ?_
    subst e
    refine (addMany_matched ht a hv).bind fun b _ t t' e ht => ?_
    subst e
    exact add_matched ht (.sequence a b) (by simp)
  | recursive x _ ih =>
    refine (openKnot_matched h).bind fun knot _ t t' e ht => ?_
    subst e
    exact defineKnot_matched knot (ih held _ ht)
  | deferred he => exact add_matched h (.unbound (.delayed sc he)) (by simp)
  | name x => exact lookup_matched h sc x
  | save x _ ih =>
    refine (ih held sc h).bind fun r _ t t' e ht => ?_
    subst e
    exact (setName_matched ht x r).bind fun _ _ t t' _ ht => .pure ht rfl
  | touch _ ih =>
    refine (ih held sc h).bind fun r _ t t' e ht => ?_
    subst e
    exact (deref_matched ht _ r).bind fun _ _ t t' _ ht => .pure ht rfl
  | repeated n x _ _ ihs iht =>
    refine (ihs held sc h).bind fun r _ t t' e ht => ?_
    subst e
    exact rounds_matched n 0 r ht fun i r t t' ht => iht held _ ht
  | malformed => exact .throw h _

end Evaluation

theorem record_matched {event : Work V K (Event K)} {event' : Work W K (Event K)} (h : s.Twin ρ s')
    (hevent : Matched ρ Eq (event s) (event' s')) : Matched ρ Eq (record event s) (record event' s') := by
  refine .get ?_
  rw [h.listening]
  split
  · refine hevent.bind fun e _ t t' he ht => ?_
    subst he
    exact .ok rfl (ht.setEvents ht.listening (congrArg (·.push e) ht.events))
  · exact .pure h rfl

section Realization

theorem produce_matched {o : Origin V K} {o' : Origin W K} (h : s.Twin ρ s') (ho : o.Twin ρ o') (walk : Walk)
    (pending : List Ref) : Matched ρ Eq (produce walk pending o s) (produce walk pending o' s') := by
  cases ho with
  | known body => exact .pure h rfl
  | delayed scope he =>
    refine .get ?_
    refine ((evaluate_matched he _ scope h).adaptExcept _).bind fun t _ s₁ s₁' e h₁ => .get ?_
    subst e
    rw [h₁.releases, h.releases]
    split
    · exact .pure h₁ rfl
    · exact (getLiveness_matched h₁ _).bind fun l _ s₂ s₂' e h₂ => .pure h₂ (by rw [e])

theorem liveness_walk (h : s.Twin ρ s') (walk : Walk) (pending : List Ref) :
    walk.liveness s' pending = walk.liveness s pending := by
  simp only [Walk.liveness, h.holders]

theorem bindTarget_matched {o : Origin V K} {o' : Origin W K} (h : s.Twin ρ s') (ho : o.Twin ρ o') (walk : Walk)
    (pending : List Ref) (i : NodeId) :
    Matched ρ Eq (bindTarget walk pending i o s) (bindTarget walk pending i o' s') := by
  refine (produce_matched h ho walk _).bind fun x _ s₁ s₁' e h₁ => .get ?_
  subst e
  obtain ⟨t, walk₁⟩ := x
  dsimp only
  rw [liveness_walk h₁, h₁.deref?]
  cases hderef : s₁.deref? (walk₁.liveness s₁ (.node i :: pending)) t with
  | none => exact .throw h₁ _
  | some j =>
    have h₂ := h₁.setTarget i (t := t) (by rw [nodeOf?_of_deref? hderef]; rfl)
    refine Matched.bind (S := Eq) (.ok rfl h₂) fun _ _ s₃ s₃' _ h₃ => .get ?_
    rw [liveness_walk h₃, h₃.resolve]
    exact Matched.bind (.liftExcept h₃ (.refl _)) fun _ _ s₄ s₄' _ h₄ => .pure h₄ rfl

theorem realizeFrom_matched (n : Nat) (pending : List Ref) (walk : Walk) (h : s.Twin ρ s') :
    Matched ρ Eq (realizeFrom n pending walk s) (realizeFrom n pending walk s') := by
  induction n generalizing pending walk s s' with
  | zero =>
    cases pending with
    | nil => exact .pure h rfl
    | cons r pending => exact .throw h _
  | succ n ih =>
    cases pending with
    | nil => exact .pure h rfl
    | cons r pending =>
      refine .get ?_
      rw [liveness_walk h, h.deref?]
      cases s.deref? (walk.liveness s pending) r with
      | none => exact .throw h _
      | some i =>
        dsimp only
        split
        · exact ih pending walk h
        · have hi := h.node i
          generalize s.nodes[i]? = shape, s'.nodes[i]? = shape' at hi
          cases hi with
          | none => exact ih _ _ h
          | some hi =>
            cases hi with
            | success | element | disjunction | sequence | transform | bound => exact ih _ _ h
            | unbound ho =>
              refine (bindTarget_matched h ho _ pending i).bind fun x _ t t' e ht => ?_
              subst e
              exact ih _ _ ht

theorem realize_matched (h : s.Twin ρ s') (held : List Ref) (r : Ref) :
    Matched ρ Eq (realize held r s) (realize held r s') := by
  refine .get ?_
  rw [h.size, h.potential, h.liveness]
  refine (realizeFrom_matched _ _ _ h).bind fun walk _ t t' e ht => ?_
  subst e
  split
  · refine record_matched ht ?_
    exact (deref_matched ht _ r).bind fun i _ t t' e ht => .pure ht (by rw [e])
  · exact .pure ht rfl

end Realization

section Reading

variable [Value V] [Value W] (hom : Homomorphic ρ)
include hom

theorem settledFact_matched (h : s.Twin ρ s') (l : Liveness) (i : NodeId) (f : FactName) :
    Matched ρ (FactName.Twin ρ f) (settledFact l i f s) (settledFact l i f s') := by
  refine .get ?_
  obtain ⟨hresult, hbook⟩ := (h.family hom l).get respects_fact (Store.passLimit s.nodes.size) i f h.book
  rw [h.size]
  generalize (s.family l).get (Store.passLimit s.nodes.size) i f s.book = x at hresult hbook
  generalize (s'.family l).get (Store.passLimit s.nodes.size) i f s'.book = x' at hresult hbook
  obtain ⟨result, b⟩ := x
  obtain ⟨result', b'⟩ := x'
  have hset := h.setBook hbook
  refine Matched.bind (S := Eq) (.ok rfl hset) fun _ _ t t' _ ht => ?_
  cases hresult with
  | error e => exact .throw ht _
  | @ok y y' hy =>
    obtain ⟨v, effort⟩ := y
    obtain ⟨v', effort'⟩ := y'
    obtain ⟨hv, heffort : effort' = effort⟩ := hy
    subst heffort
    cases effort' with
    | none => exact .pure ht hv
    | some effort =>
      refine (record_matched ht (.pure ht rfl)).bind fun _ _ t t' _ ht => .pure ht hv

theorem fact_matched (h : s.Twin ρ s') (held : List Ref) (f : FactName) (r : Ref) :
    Matched ρ (FactName.Twin ρ f) (fact held f r s) (fact held f r s') := by
  refine (realize_matched h held r).bind fun _ _ s₁ s₁' _ h₁ => ?_
  refine (deref_matched h₁ held r).bind fun i _ s₂ s₂' e h₂ => ?_
  subst e
  refine (getLiveness_matched h₂ _).bind fun l _ s₃ s₃' e h₃ => ?_
  subst e
  exact settledFact_matched hom h₃ l i f

end Reading

section Searching

theorem subtree_matched (h : s.Twin ρ s') (held : List Ref) (r : Ref) (id : NodeId) :
    Matched ρ Eq (subtree held r id s) (subtree held r id s') := by
  refine (realize_matched h held r).bind fun _ _ s₁ s₁' _ h₁ => .get ?_
  rw [h₁.liveness, h₁.search]
  exact .liftExcept h₁ (.refl _)

variable [Value V] [Value W]

/-- What has been written may differ, but not the names that have been given. -/
theorem renderFrom_alike (h : s.Twin ρ s') (l : Liveness) (n : Nat) (r : Ref) {t t' : Rendering}
    (ht : t'.names = t.names) :
    Alike (fun t t' : Rendering => t'.names = t.names) (s.renderFrom l n r t) (s'.renderFrom l n r t') := by
  induction n generalizing r t t' with
  | zero => exact .error _
  | succ n ih =>
    unfold Store.renderFrom
    rw [h.deref?]
    cases s.deref? l r with
    | none => exact .error _
    | some i =>
      have hi := h.node i
      dsimp only
      generalize s.nodes[i]? = shape, s'.nodes[i]? = shape' at hi
      cases hi with
      | none => exact .error _
      | some hi =>
        cases hi with
        | success => exact .ok ht
        | element k => exact .ok ht
        | disjunction a b =>
          refine Alike.bind (ih a ht) fun t t' ht => ?_
          exact Alike.map (ih b ht) fun t t' ht => ht
        | sequence a b =>
          refine Alike.bind (ih a ht) fun t t' ht => ?_
          exact Alike.map (ih b ht) fun t t' ht => ht
        | transform a => exact Alike.map (ih a ht) fun t t' ht => ht
        | unbound ho =>
          dsimp only
          rw [ht]
          cases t.names[i]? with
          | some k => exact .ok ht
          | none =>
            cases ho with
            | known body => exact ih body (by simp [Rendering.introduce, ht])
            | delayed => exact .ok ht
        | bound u =>
          dsimp only
          rw [ht]
          cases t.names[i]? with
          | some k => exact .ok ht
          | none => exact ih u (by simp [Rendering.introduce, ht])

theorem render_matched (h : s.Twin ρ s') (held : List Ref) (r : Ref) :
    Matched ρ (fun _ _ => True) (render held r s) (render held r s') := by
  refine .get ?_
  rw [h.liveness, Store.render, Store.render, h.size]
  have hrender := renderFrom_alike h (s.liveness (r :: held)) ((s.nodes.size + 1) * (s.nodes.size + 1)) r
    (rfl : ({} : Rendering).names = ({} : Rendering).names)
  generalize s.renderFrom _ _ r {} = x, s'.renderFrom _ _ r {} = x' at hrender
  cases hrender with
  | ok => exact .pure h trivial
  | error e => exact .throw h e

theorem report_matched (h : s.Twin ρ s') (held : List Ref) (e : Rejection K) :
    Matched ρ (fun _ _ => True) (e.report held s) (e.report held s') := by
  refine (Matched.mapM (T := Eq) (S := fun _ _ => True) (List.forall₂_same.2 fun _ _ => rfl) h ?_).bind
    fun _ _ s₁ s₁' _ h₁ => .pure h₁ trivial
  intro c _ t t' hc ht
  subst hc
  refine (subtree_matched ht held e.grammar c.disjunction).bind fun found _ t t' hfound ht => ?_
  subst hfound
  cases found with
  | none => exact .pure ht trivial
  | some r => exact (render_matched ht _ r).bind fun _ _ t t' _ ht => .pure ht trivial

end Searching

end Predictive.Grammar
