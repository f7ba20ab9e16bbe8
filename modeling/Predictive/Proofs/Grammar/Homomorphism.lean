import Predictive.Proofs.Grammar.Lockstep
import Predictive.Proofs.Grammar.Ambiguity

/-!
Grammars of one shape whose values are related: the same calls find out the same about both, and tokens with related values
parse to related values. So values decide nothing.
-/
namespace Predictive

variable {V W K : Type} {ρ : V → W → Prop}

theorem Alike.follows {ε α β : Type} {R : α → β → Prop} {r : Except ε α} {r' : Except ε β} (h : Alike R r r')
    (strict : Prop) : Follows strict R r r' := by
  cases h with
  | ok hab => exact ⟨_, rfl, hab⟩
  | error e => exact fun _ => rfl

theorem Heeds.alike {α β : Type} {R : α → β → Prop} {r : Except (Stop K) α} {r' : Except (Stop K) β}
    (h : Heeds True R r r') : Alike R r r' := by
  match r with
  | .ok a =>
    obtain ⟨b, rfl, hab⟩ := h
    exact .ok hab
  | .error (.rejected e) =>
    obtain rfl := h
    exact .error _
  | .error (.fault f) =>
    obtain rfl := h trivial
    exact .error _

namespace Grammar

open Store

variable [Kind K] {s : Store V K} {s' : Store W K} {r : Ref} {held : List Ref}

section Lowering

variable (h : s.Twin ρ s')
include h

theorem slot_twin (l : Liveness) (r : Ref) (w : Layout) : s'.slot l r w = s.slot l r w := by
  rw [Store.slot, Store.slot, h.deref?]
  cases s.deref? l r with
  | none => rfl
  | some i => simp only [h.resolve]

theorem form_alike (l : Liveness) (i : NodeId) (w : Layout) :
    Alike (Beside (Form.Maps True ρ)) (s.form l i w) (s'.form l i w) := by
  have hi := h.node i
  rw [Store.form, Store.form]
  generalize s.nodes[i]? = shape, s'.nodes[i]? = shape' at hi
  cases hi with
  | none => exact .error _
  | some hi =>
    cases hi with
    | success hv => exact .ok ⟨.success hv, rfl⟩
    | element k => exact .ok ⟨.element k, rfl⟩
    | disjunction a b =>
      simp only [slot_twin h]
      refine Alike.bind (.refl _) fun x _ hx => ?_
      subst hx
      exact Alike.map (.refl _) fun y _ hy => ⟨by rw [hy]; exact .disjunction _ _, by rw [hy]⟩
    | sequence a b =>
      simp only [slot_twin h]
      refine Alike.bind (.refl _) fun x _ hx => ?_
      subst hx
      exact Alike.map (.refl _) fun y _ hy => ⟨by rw [hy]; exact .sequence _ _, by rw [hy]⟩
    | transform a hf =>
      simp only [slot_twin h]
      exact Alike.map (.refl _) fun y _ hy =>
        ⟨by rw [hy]; exact .transform _ fun v v' hv => (hf v v' hv).follows _, by rw [hy]⟩
    | unbound | bound => exact .error _

/-- The same nodes, with forms of one shape. -/
def FormsMap (ρ : V → W → Prop) : List (NodeId × Form V K) → List (NodeId × Form W K) → Prop :=
  List.Forall₂ fun x x' => x'.1 = x.1 ∧ x.2.Maps True ρ x'.2

theorem layOutFrom_twin (l : Liveness) (n : Nat) (k : Slot) (w : Layout) :
    Beside (FormsMap ρ) (s.layOutFrom l n k w) (s'.layOutFrom l n k w) := by
  induction n generalizing k w with
  | zero =>
    unfold Store.layOutFrom
    cases w.order[k]? with
    | none => exact ⟨.nil, rfl⟩
    | some i => exact ⟨.nil, rfl⟩
  | succ n ih =>
    unfold Store.layOutFrom
    cases w.order[k]? with
    | none => exact ⟨.nil, rfl⟩
    | some i =>
      have hform := form_alike h l i w
      dsimp only
      generalize s.form l i w = x, s'.form l i w = x' at hform
      cases hform with
      | error e => exact ⟨.nil, rfl⟩
      | @ok y y' hy =>
        obtain ⟨form, w⟩ := y
        obtain ⟨form', w'⟩ := y'
        obtain ⟨hmaps, hw : w' = w⟩ := hy
        subst hw
        obtain ⟨hforms, houtcome⟩ := ih (k + 1) w'
        exact ⟨.cons ⟨rfl, hmaps⟩ hforms, houtcome⟩

theorem layOut_alike (l : Liveness) (r : Ref) :
    Alike (fun x x' => x'.1 = x.1 ∧ Beside (FormsMap ρ) x.2 x'.2) (s.layOut l r) (s'.layOut l r) := by
  rw [Store.layOut, Store.layOut, slot_twin h]
  refine Alike.map (.refl _) fun x _ hx => ?_
  subst hx
  exact ⟨rfl, by rw [h.size]; exact layOutFrom_twin h l _ 0 x.2⟩

variable [Value V] [Value W] (hom : Homomorphic ρ)
include hom

theorem entry_matched (l : Liveness) (i : NodeId) {form : Form V K} {form' : Form W K} (hform : form.Maps True ρ form') :
    Matched ρ (Entry.Maps True ρ) (entry l i form s) (entry l i form' s') := by
  refine (settledFact_matched hom h l i .first).bind fun first _ s₁ s₁' hfirst h₁ => ?_
  refine (settledFact_matched hom h₁ l i .emptyValue).bind fun v v' s₂ s₂' hv h₂ => ?_
  refine (settledFact_matched hom h₂ l i .productive).bind fun _ _ s₃ s₃' _ h₃ => ?_
  refine (settledFact_matched hom h₃ l i .restrictions).bind fun _ _ s₄ s₄' _ h₄ => ?_
  exact .pure h₄ ⟨hform, hfirst.symm, hv⟩

theorem lower_matched (held : List Ref) (r : Ref) :
    Matched ρ (ValidGrammar.Maps True ρ) (lower held r s) (lower held r s') := by
  refine .get ?_
  rw [h.liveness]
  refine (Matched.liftExcept h (layOut_alike h _ r)).bind fun x x' s₁ s₁' hx h₁ => ?_
  obtain ⟨root, forms, outcome⟩ := x
  obtain ⟨root', forms', outcome'⟩ := x'
  obtain ⟨hroot : root' = root, hforms, houtcome : outcome' = outcome⟩ := hx
  subst hroot houtcome
  refine (Matched.mapM (S := Entry.Maps True ρ) hforms h₁ fun y y' t t' hy ht => ?_).bind fun es es' s₂ s₂' hes h₂ => ?_
  · obtain ⟨i, form⟩ := y
    obtain ⟨i', form'⟩ := y'
    obtain ⟨hid : i' = i, hform⟩ := hy
    subst hid
    exact entry_matched ht hom _ i' hform
  · refine (Matched.liftExcept h₂ (.refl outcome')).bind fun _ _ s₃ s₃' _ h₃ => .pure h₃ ⟨rfl, ?_, fun k e he => ?_⟩
    · exact hes.length_eq.symm
    · obtain ⟨e', he', hmaps⟩ := getElem?_of_forall₂ hes (by simpa using he)
      exact ⟨e', by simpa using he', hmaps⟩

/-- The verdicts are the same, with tables of one shape. -/
theorem validate_matched (held : List Ref) (r : Ref) :
    Matched ρ (Alike (ValidGrammar.Maps True ρ)) (validate held r s) (validate held r s') := by
  refine (fact_matched hom h held .conflicts r).bind fun found _ s₁ s₁' hfound h₁ => ?_
  obtain rfl : _ = found := hfound.symm
  split
  · refine (lower_matched h₁ hom held r).bind fun g g' s₂ s₂' hg h₂ => ?_
    refine (record_matched h₂ ?_).bind fun _ _ s₃ s₃' _ h₃ => .pure h₃ (.ok hg)
    exact (deref_matched h₂ held r).bind fun i _ t t' hi ht => .pure ht (by rw [hi, hg.size])
  · refine (record_matched h₁ ?_).bind fun _ _ s₂ s₂' _ h₂ => .pure h₂ (.error _)
    exact (deref_matched h₁ held r).bind fun i _ t t' hi ht => .pure ht (by rw [hi])

end Lowering

/-- The same call, with expressions that are the same but for their values. -/
inductive Call.Twin (ρ : V → W → Prop) : Call V K → Call W K → Prop
  | evaluate (held : List Ref) (sc : Scope) {e e'} : e.Twin ρ e' → Twin ρ (.evaluate held sc e) (.evaluate held sc e')
  | setName (x : String) (r : Ref) : Twin ρ (.setName x r) (.setName x r)
  | forget (x : String) : Twin ρ (.forget x) (.forget x)
  | realize (held : List Ref) (r : Ref) : Twin ρ (.realize held r) (.realize held r)
  | fact (held : List Ref) (f : FactName) (r : Ref) : Twin ρ (.fact held f r) (.fact held f r)
  | validate (held : List Ref) (r : Ref) : Twin ρ (.validate held r) (.validate held r)
  | subtree (held : List Ref) (r : Ref) (id : NodeId) : Twin ρ (.subtree held r id) (.subtree held r id)
  | report (held : List Ref) (e : Rejection K) : Twin ρ (.report held e) (.report held e)
  | listen (b : Bool) : Twin ρ (.listen b) (.listen b)
  | take : Twin ρ .take .take

/-- The stores are what the same calls have left of nothing. -/
inductive Twins [Value V] [Value W] (ρ : V → W → Prop) : Store V K → Store W K → Prop
  | start : Twins ρ {} {}
  | call {t t'} {c : Call V K} {c' : Call W K} : Twins ρ t t' → c.Twin ρ c' → Twins ρ (c.after t) (c'.after t')

theorem twin_empty : ({} : Store V K).Twin ρ ({} : Store W K) where
  nodes := .nil
  knots := rfl
  names := rfl
  releases := rfl
  book := ⟨.empty respects_fact, rfl⟩
  listening := rfl
  events := rfl
  targets i o t hi := by simp at hi

variable [Value V] [Value W] (hom : Homomorphic ρ)
include hom

theorem Call.Twin.run {c : Call V K} {c' : Call W K} (hc : c.Twin ρ c') (h : s.Twin ρ s') :
    Matched ρ Eq (c.run s) (c'.run s') := by
  cases hc with
  | evaluate held sc he => exact (evaluate_matched he held sc h).bind fun _ _ _ _ _ ht => .pure ht rfl
  | setName x r => exact setName_matched h x r
  | forget x =>
    have hset := h.setNames (s.names.erase x) s.releases
    have hmatched : Matched ρ Eq (Call.run (.forget x) s) (.ok () _) := .ok rfl hset
    rwa [← h.names, ← h.releases] at hmatched
  | realize held r => exact realize_matched h held r
  | fact held f r => exact (fact_matched hom h held f r).bind fun _ _ _ _ _ ht => .pure ht rfl
  | validate held r => exact (validate_matched h hom held r).bind fun _ _ _ _ _ ht => .pure ht rfl
  | subtree held r id => exact (subtree_matched h held r id).bind fun _ _ _ _ _ ht => .pure ht rfl
  | report held e => exact (report_matched h held e).bind fun _ _ _ _ _ ht => .pure ht rfl
  | listen b => exact .ok rfl (h.setEvents rfl h.events)
  | take => exact .ok rfl (h.setEvents h.listening rfl)

theorem Call.Twin.after {c : Call V K} {c' : Call W K} (hc : c.Twin ρ c') (h : s.Twin ρ s') :
    (c.after s).Twin ρ (c'.after s') := by
  have hrun := hc.run hom h
  unfold Call.after
  generalize c.run s = x, c'.run s' = x' at hrun
  cases hrun with
  | ok _ ht => exact ht
  | error _ ht => exact ht

theorem Twins.twin (h : Twins ρ s s') : s.Twin ρ s' := by
  induction h with
  | start => exact twin_empty
  | call _ hc ih => exact hc.after hom ih

end Grammar

/-- The value `w` is the image of `v`. -/
def IsImage (h : V → W) (v : V) (w : W) : Prop := w = h v

theorem Alike.eq_map {ε : Type} {h : V → W} {r : Except ε V} {r' : Except ε W} (hr : Alike (IsImage h) r r') :
    r' = r.map h := by
  cases hr with
  | ok hv =>
    rw [hv]
    rfl
  | error e => rfl

theorem tokenMaps_image (h : V → W) (ts : List (K × V)) :
    List.Forall₂ (TokenMaps (IsImage h)) ts (ts.map (Prod.map id h)) := by
  rw [List.forall₂_map_right_iff]
  exact List.forall₂_same.2 fun t _ => ⟨rfl, rfl⟩

theorem tokenMaps_of_kinds {ts : List (K × V)} {ts' : List (K × W)} (h : ts'.map Prod.fst = ts.map Prod.fst) :
    List.Forall₂ (TokenMaps fun _ _ => True) ts ts' := by
  have hkinds : List.Forall₂ (fun t t' => t'.1 = t.1) ts ts' := by
    rw [← List.forall₂_eq_eq_eq, List.forall₂_map_left_iff, List.forall₂_map_right_iff] at h
    exact h.flip
  exact hkinds.imp fun _ _ ht => ⟨ht, trivial⟩

namespace Grammar

variable [Kind K] [Value V] [Value W]

/-- Calls about `r` find out the same in both stores, and parses give the images of values for the images of tokens. -/
structure Reflects (h : V → W) (held : List Ref) (r : Ref) (s : Store V K) (s' : Store W K) : Prop where
  first : Matched (IsImage h) Eq (first held r s) (first held r s')
  productive : Matched (IsImage h) Eq (isProductive held r s) (isProductive held r s')
  restrictions : Matched (IsImage h) Eq (restrictions held r s) (restrictions held r s')
  conflicts : Matched (IsImage h) Eq (conflicts held r s) (conflicts held r s')
  emptyValue : Matched (IsImage h) (fun v v' => v' = v.map h) (emptyValue held r s) (emptyValue held r s')
  verdict : Matched (IsImage h) (Alike fun g g' => ∀ limits ts,
      g'.parse limits (ts.map (Prod.map id h)) = (g.parse limits ts).map h)
    (validate held r s) (validate held r s')

theorem Twins.reflects {h : V → W} (hom : ∀ a b, h (prepend a b) = prepend (h a) (h b)) {s : Store V K}
    {s' : Store W K} (twins : Twins (IsImage h) s s') (held : List Ref) (r : Ref) : Reflects h held r s s' := by
  have hhom : Homomorphic (IsImage h) := by
    rintro a _ b _ rfl rfl
    exact (hom a b).symm
  have htwin := twins.twin hhom
  refine ⟨fact_matched hhom htwin held .first r, fact_matched hhom htwin held .productive r,
    fact_matched hhom htwin held .restrictions r, fact_matched hhom htwin held .conflicts r,
    (fact_matched hhom htwin held .emptyValue r).mono fun v v' hv => ?_,
    (validate_matched htwin hhom held r).mono fun a b hab => ?_⟩
  · cases hv with
    | none => rfl
    | some hv => exact congrArg some hv
  · cases hab with
    | error e => exact .error e
    | ok hg => exact .ok fun limits ts => (hg.parse hhom limits (tokenMaps_image h ts)).alike.eq_map

/-- Calls find out the same about grammars that are the same but for values, and parses commute with a map that respects
how values are put together. So neither the values of tokens nor the functions applied to values decide what is accepted or
how it is rejected, and sequences open at both ends come out with the items of lists. -/
theorem values_decide_nothing {h : V → W} (hom : ∀ a b, h (prepend a b) = prepend (h a) (h b)) :
    (∀ (s : Store V K) (s' : Store W K), Twins (IsImage h) s s' → ∀ held r, Reflects h held r s s') ∧
    (∀ (s : Store V K) (s' : Store W K), Twins (fun _ _ => True) s s' → ∀ held r,
      Matched (fun _ _ => True) (Alike fun g g' => ∀ limits ts ts', ts'.map Prod.fst = ts.map Prod.fst →
        (g'.parse limits ts').map (fun _ => ()) = (g.parse limits ts).map fun _ => ())
      (validate held r s) (validate held r s')) ∧
    ∀ {α : Type} [Shown α] (s : Store (Deque α) K) (s' : Store (List α) K), Twins (IsImage Deque.items) s s' →
      ∀ held r, Reflects Deque.items held r s s' := by
  refine ⟨fun s s' twins => twins.reflects hom, fun s s' twins held r => ?_,
    fun s s' twins => twins.reflects Deque.items_prepend⟩
  have hhom : Homomorphic fun (_ : V) (_ : W) => True := fun _ _ _ _ _ _ => trivial
  refine (validate_matched (twins.twin hhom) hhom held r).mono fun a b hab => ?_
  cases hab with
  | error e => exact .error e
  | ok hg =>
    refine .ok fun limits ts ts' hts => ?_
    have hparse := (hg.parse hhom limits (tokenMaps_of_kinds hts)).alike
    exact (Alike.map hparse fun _ _ _ => rfl : Alike (IsImage id) _ _).eq_map.trans (by simp)

/-- Brackets around what `f` makes of brackets, or nothing, which stands for `v`. -/
def bracketed (f : Transformation V) (v : V) : Expr V Tag :=
  .recursive "p" (.disjunction
    (.sequence (.element .opening) (.sequence (.transform f (.name "p")) (.element .closing))) (.success v))

/-- The same brackets for sequences open at both ends and for lists. -/
theorem twin_bracketed : (bracketed (.reverse : Transformation (Deque Int64)) (.ofList [0])).Twin
    (IsImage Deque.items) (bracketed (.reverse : Transformation (List Int64)) [0]) := by
  have hreverse : Transformation.Twin (IsImage Deque.items) (.reverse : Transformation (Deque Int64))
      (.reverse : Transformation (List Int64)) := by
    rintro v _ rfl
    exact .ok (Deque.items_ofList _).symm
  exact .recursive "p" (.disjunction (.sequence (.element _) (.sequence (.transform hreverse (.name _)) (.element _)))
    (.success (Deque.items_ofList _).symm))

def dequeStore : Store (Deque Int64) Tag := (Call.evaluate [] {} (bracketed .reverse (.ofList [0]))).after {}

def listStore : Store (List Int64) Tag := (Call.evaluate [] {} (bracketed .reverse [0])).after {}

theorem values_decide_nothing_bracketed : Twins (IsImage Deque.items) dequeStore listStore ∧
    ∃ g g' s s', validate [] (.node 7) dequeStore = .ok (.ok g) s ∧ validate [] (.node 7) listStore = .ok (.ok g') s' ∧
      ∀ ts, g'.parse .unbounded (ts.map (Prod.map id Deque.items)) = (g.parse .unbounded ts).map Deque.items := by
  have twins : Twins (IsImage Deque.items) dequeStore listStore := .call .start (.evaluate [] {} twin_bracketed)
  obtain ⟨himage, -⟩ := values_decide_nothing (K := Tag) (Deque.items_prepend (α := Int64))
  obtain ⟨g, s, hg, -⟩ := exists_valid (s := dequeStore) [] (.node 7) (fun _ _ => true) (by decide +kernel)
  obtain ⟨verdict, s', hverdict, halike, -⟩ := (himage dequeStore listStore twins [] (.node 7)).verdict.exists_ok hg
  obtain ⟨g', rfl, hparse⟩ := halike.exists_ok
  exact ⟨twins, g, g', s, s', hg, hverdict, fun ts => hparse .unbounded ts⟩

end Grammar
end Predictive
