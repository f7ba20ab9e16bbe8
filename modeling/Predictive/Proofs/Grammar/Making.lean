import Predictive.Grammar.Evaluate
import Predictive.Proofs.Grammar.Growth
import Predictive.Proofs.Stopping

/-! Evaluating an expression adds to the store and leaves what is there; no reference leads out of the store. -/
namespace Predictive.Grammar

variable {V K α β : Type} [Ord K]

/-- However `w` ends when it starts from `s`, `R` holds between `s` and the store at the end, and a result satisfies
`post`. -/
def Leads (R : Store V K → Store V K → Prop) (s : Store V K) (w : Work V K α) (post : α → Store V K → Prop) :
    Prop :=
  match w s with
  | .ok a s' => R s s' ∧ post a s'
  | .error _ s' => R s s'

namespace Leads

variable {R R' : Store V K → Store V K → Prop} {s s' : Store V K} {w : Work V K α} {k : α → Work V K β}
  {post post' : α → Store V K → Prop} {postk : β → Store V K → Prop} {a : α} {e : Fault}

theorem of_ok (h : Leads R s w post) (hw : w s = .ok a s') : R s s' ∧ post a s' := by
  rwa [Leads, hw] at h

theorem of_error (h : Leads R s w post) (hw : w s = .error e s') : R s s' := by
  rwa [Leads, hw] at h

theorem mono (h : Leads R s w post) (hR : ∀ s', R s s' → R' s s')
    (hpost : ∀ a s', R s s' → post a s' → post' a s') : Leads R' s w post' := by
  unfold Leads at h ⊢
  cases hw : w s with
  | ok a s' =>
    rw [hw] at h
    exact ⟨hR s' h.1, hpost a s' h.1 h.2⟩
  | error e s' =>
    rw [hw] at h
    exact hR s' h

theorem congr {w' : Work V K α} (h : Leads R s w post) (hw : w' s = w s) : Leads R s w' post := by
  rwa [Leads, hw]

theorem of_eq_ok (hw : w s = .ok a s') (h : R s s') (ha : post a s') : Leads R s w post := by
  rw [Leads, hw]
  exact ⟨h, ha⟩

theorem of_eq_error (hw : w s = .error e s') (h : R s s') : Leads R s w post := by
  rwa [Leads, hw]

/-- What is known in two ways is known at once. -/
theorem and (h : Leads R s w post) (h' : Leads R' s w post') :
    Leads (fun s s' => R s s' ∧ R' s s') s w fun a s' => post a s' ∧ post' a s' := by
  unfold Leads at h h' ⊢
  cases hw : w s with
  | ok a s' =>
    rw [hw] at h h'
    exact ⟨⟨h.1, h'.1⟩, h.2, h'.2⟩
  | error e s' =>
    rw [hw] at h h'
    exact ⟨h, h'⟩

theorem pure (hR : R s s) (h : post a s) : Leads R s (Pure.pure a) post := ⟨hR, h⟩

theorem throw (hR : R s s) (e : Fault) : Leads R s (MonadExcept.throw e) post := hR

theorem get {k : Store V K → Work V K β} (h : Leads R s (k s) postk) : Leads R s (MonadState.get >>= k) postk := h

theorem bind [IsTrans (Store V K) R] (h : Leads R s w post)
    (hk : ∀ a s', R s s' → post a s' → Leads R s' (k a) postk) : Leads R s (w >>= k) postk := by
  change match EStateM.bind w k s with
    | .ok b s' => R s s' ∧ postk b s'
    | .error _ s' => R s s'
  unfold EStateM.bind
  unfold Leads at h
  cases hw : w s with
  | error e s' =>
    rw [hw] at h
    exact h
  | ok a s' =>
    rw [hw] at h
    have hb := hk a s' h.1 h.2
    unfold Leads at hb
    dsimp only
    cases hkw : k a s' with
    | ok b s'' =>
      rw [hkw] at hb
      exact ⟨IsTrans.trans _ _ _ h.1 hb.1, hb.2⟩
    | error e s'' =>
      rw [hkw] at hb
      exact IsTrans.trans _ _ _ h.1 hb

theorem mapM [IsTrans (Store V K) R] {f : α → Work V K β} {P : α → β → Store V K → Prop} {xs : List α} (hs : R s s)
    (hR : ∀ s', R s s' → R s' s') (hP : ∀ x y s₁ s₂, R s₁ s₂ → P x y s₁ → P x y s₂)
    (h : ∀ x ∈ xs, ∀ s', R s s' → Leads R s' (f x) (P x)) :
    Leads R s (xs.mapM f) fun ys s' => List.Forall₂ (fun x y => P x y s') xs ys := by
  induction xs generalizing s with
  | nil => exact .pure hs .nil
  | cons x xs ih =>
    rw [List.mapM_cons]
    refine (h x List.mem_cons_self s hs).bind fun y s₁ h₁ hy => ?_
    refine (ih (hR s₁ h₁) (fun s' hs' => hR s' (IsTrans.trans _ _ _ h₁ hs')) fun x' hx' s' hs' =>
      h x' (List.mem_cons_of_mem _ hx') s' (IsTrans.trans _ _ _ h₁ hs')).bind fun ys s₂ h₂ hys => ?_
    exact .pure (hR s₂ (IsTrans.trans _ _ _ h₁ h₂)) (.cons (hP x y s₁ s₂ h₂ hy) hys)

end Leads

/-- If `w` fails when it starts from `s`, the store satisfies `P` then. -/
def FailsOnly (s : Store V K) (w : Work V K α) (P : Store V K → Prop) : Prop := ∀ e s', w s = .error e s' → P s'

namespace FailsOnly

variable {R : Store V K → Store V K → Prop} {P : Store V K → Prop} {s : Store V K} {w : Work V K α}
  {k : α → Work V K β}

theorem pure (a : α) : FailsOnly s (Pure.pure a) P := fun _ _ h => nomatch h

theorem get {k : Store V K → Work V K β} (h : FailsOnly s (k s) P) : FailsOnly s (MonadState.get >>= k) P := h

theorem bind (h : FailsOnly s w P) (hk : ∀ a s', w s = .ok a s' → FailsOnly s' (k a) P) :
    FailsOnly s (w >>= k) P := by
  intro e s' he
  rcases bind_eq_error he with he | ⟨a, s₁, ha, he⟩
  · exact h e s' he
  · exact hk a s₁ ha e s' he

theorem mapM [IsTrans (Store V K) R] {f : α → Work V K β} {post : α → β → Store V K → Prop} {xs : List α}
    (hs : R s s) (hR : ∀ s', R s s' → R s' s')
    (hleads : ∀ x ∈ xs, ∀ s', R s s' → Leads R s' (f x) (post x))
    (h : ∀ x ∈ xs, ∀ s', R s s' → FailsOnly s' (f x) P) : FailsOnly s (xs.mapM f) P := by
  induction xs generalizing s with
  | nil => exact .pure _
  | cons x xs ih =>
    rw [List.mapM_cons]
    refine (h x List.mem_cons_self s hs).bind fun y s₁ hy => ?_
    obtain ⟨h₁, -⟩ := (hleads x List.mem_cons_self s hs).of_ok hy
    refine FailsOnly.bind (ih (hR s₁ h₁) (fun s' hs' => hR s' (IsTrans.trans _ _ _ h₁ hs'))
      (fun x' hx' s' hs' => hleads x' (List.mem_cons_of_mem _ hx') s' (IsTrans.trans _ _ _ h₁ hs'))
      fun x' hx' s' hs' => h x' (List.mem_cons_of_mem _ hx') s' (IsTrans.trans _ _ _ h₁ hs')) fun ys s₂ _ => ?_
    exact .pure _

end FailsOnly

/-- What a node is made of, as opposed to what it stands for. -/
def Shape.parts : Shape V K → List Ref
  | .success _ | .element _ | .deferred .. => []
  | .disjunction l r | .sequence l r => [l, r]
  | .transform _ r => [r]

omit [Ord K] in
theorem Shape.parts_subset (shape : Shape V K) : shape.parts ⊆ shape.heldByNode := by
  cases shape with
  | success v | element k | deferred o target => exact List.nil_subset _
  | disjunction l r | sequence l r | transform f r => exact List.Subset.refl _

namespace Store

/-- The reference leads to a node of the store, if anywhere. -/
def HasRef (s : Store V K) : Ref → Prop
  | .node i => i < s.nodes.size
  | .self _ => True

/-- No reference leads out of the store, self-references lead to deferred nodes, and what a node is made of was there
before it. -/
structure Valid (s : Store V K) : Prop where
  parts : ∀ (i : Nat) (shape : Shape V K), s.nodes[i]? = some shape → ∀ r ∈ shape.heldByNode, s.HasRef r
  knots : ∀ k i, s.nodeOf? (.self k) = some i → ∃ o target, s.nodes[i]? = some (Shape.deferred o target)
  names : ∀ (x : String) (r : Ref), s.names[x]? = some r → s.HasRef r
  older : ∀ (i : Nat) (shape : Shape V K), s.nodes[i]? = some shape → ∀ j, .node j ∈ shape.parts → j < i

/-- The store `s'` has the nodes and self-references of `s` as they are, and maybe more. -/
structure Adds (s s' : Store V K) : Prop where
  nodes : s.nodes.toList <+: s'.nodes.toList
  knots : s.knots.toList <+: s'.knots.toList
  book : s'.book = s.book
  valid : s'.Valid

variable {s s' : Store V K} {r body : Ref} {i : Nat} {shape : Shape V K}

theorem valid_empty : ({} : Store V K).Valid where
  parts i shape h := by simp at h
  knots k i h := by simp [nodeOf?] at h
  names x r h := by simp at h
  older i shape h := by simp at h

theorem Valid.lt_of_nodeOf? (h : s.Valid) (hr : s.HasRef r) (hi : s.nodeOf? r = some i) : i < s.nodes.size := by
  cases r with
  | node j =>
    cases hi
    exact hr
  | self k =>
    obtain ⟨o, target, hn⟩ := h.knots k i hi
    exact (Array.getElem?_eq_some_iff.1 hn).1

theorem HasRef.of_le (hr : s.HasRef r) (h : s.nodes.size ≤ s'.nodes.size) : s'.HasRef r := by
  cases r with
  | node j => exact Nat.lt_of_lt_of_le hr h
  | self k => trivial

theorem Adds.refl (h : s.Valid) : s.Adds s := ⟨List.prefix_rfl, List.prefix_rfl, rfl, h⟩

theorem Adds.trans {s'' : Store V K} (h : s.Adds s') (h' : s'.Adds s'') : s.Adds s'' :=
  ⟨h.nodes.trans h'.nodes, h.knots.trans h'.knots, h'.book.trans h.book, h'.valid⟩

instance : IsTrans (Store V K) Adds := ⟨fun _ _ _ => .trans⟩

theorem Adds.size_le (h : s.Adds s') : s.nodes.size ≤ s'.nodes.size := by
  simpa using h.nodes.length_le

theorem getElem?_of_prefix {l l' : List α} {a : α} (h : l <+: l') (hi : l[i]? = some a) : l'[i]? = some a := by
  obtain ⟨t, rfl⟩ := h
  rw [List.getElem?_append_left (List.getElem?_eq_some_iff.1 hi).1]
  exact hi

theorem Adds.node (h : s.Adds s') (hi : s.nodes[i]? = some shape) : s'.nodes[i]? = some shape := by
  rw [← Array.getElem?_toList] at hi ⊢
  exact getElem?_of_prefix h.nodes hi

theorem Adds.grows (h : s.Adds s') : s.Grows s' := by
  refine ⟨fun i shape hi => .inl (h.node hi), fun k i hk => ?_⟩
  simp only [nodeOf?, Option.join_eq_some_iff, ← Array.getElem?_toList] at hk ⊢
  exact getElem?_of_prefix h.knots hk

theorem HasRef.adds (hr : s.HasRef r) (h : s.Adds s') : s'.HasRef r := hr.of_le h.size_le

theorem Valid.push (h : s.Valid) (hs : ∀ r ∈ shape.heldByNode, s.HasRef r) :
    ({ s with nodes := s.nodes.push shape } : Store V K).Valid := by
  have hle : s.nodes.size ≤ (s.nodes.push shape).size := by simp
  refine ⟨fun i shape' hi r hr => ?_, fun k i hk => ?_, fun x r hx => (h.names x r hx).of_le hle,
    fun i shape' hi j hj => ?_⟩
  · rw [Array.getElem?_push] at hi
    split at hi
    · cases hi
      exact (hs r hr).of_le hle
    · exact (h.parts i shape' hi r hr).of_le hle
  · obtain ⟨o, target, hn⟩ := h.knots k i hk
    have hlt := (Array.getElem?_eq_some_iff.1 hn).1
    exact ⟨o, target, by rwa [Array.getElem?_push, if_neg (Nat.ne_of_lt hlt)]⟩
  · rw [Array.getElem?_push] at hi
    split at hi
    · rename_i hi'
      cases hi
      exact hi' ▸ hs (.node j) (Shape.parts_subset _ hj)
    · exact h.older i shape' hi j hj

/-- A new self-reference has been handed out. -/
def opened (s : Store V K) : Store V K := { s with knots := s.knots.push none }

theorem Valid.opened (h : s.Valid) : s.opened.Valid := by
  refine ⟨fun i shape hi r hr => (h.parts i shape hi r hr).of_le (Nat.le_refl _), fun k i hk => ?_,
    fun x r hx => (h.names x r hx).of_le (Nat.le_refl _), h.older⟩
  refine h.knots k i ?_
  simp only [nodeOf?, Store.opened, Array.getElem?_push, Option.join_eq_some_iff] at hk ⊢
  split at hk
  · cases hk
  · exact hk

/-- The self-reference `knot` has got its definition. -/
def tied (s : Store V K) (knot : Nat) (body : Ref) : Store V K :=
  { s with
    nodes := s.nodes.push (.deferred (.known body) none)
    knots := s.knots.setIfInBounds knot (some s.nodes.size) }

theorem Adds.opened (hs : s.Valid) : s.Adds s.opened :=
  ⟨List.prefix_rfl, by simp [Store.opened], rfl, hs.opened⟩

/-- The definition that a new self-reference is for is there at the end. -/
theorem Adds.tied (h : s.opened.Adds s') (hr : s'.HasRef body) : s.Adds (s'.tied s.knots.size body) := by
  have hpush : ({ s' with nodes := s'.nodes.push (.deferred (.known body) none) } : Store V K).Valid :=
    h.valid.push fun r hr' => by
      obtain rfl : r = body := by simpa [Shape.heldByNode] using hr'
      exact hr
  refine ⟨?_, ?_, h.book, hpush.parts, fun k i hk => ?_, hpush.names, hpush.older⟩
  · simp only [Store.tied, Array.toList_push]
    exact h.nodes.trans (List.prefix_append _ _)
  · obtain ⟨t, ht⟩ := h.knots
    simp only [Store.opened, Array.toList_push, List.append_assoc] at ht
    simp [Store.tied, ← ht, List.set_append_right]
  · simp only [nodeOf?, Store.tied, Array.getElem?_setIfInBounds, Option.join_eq_some_iff] at hk
    split at hk
    · split at hk
      · cases hk
        simp [Store.tied]
      · cases hk
    · exact hpush.knots k i (Option.join_eq_some_iff.2 hk)

end Store

open Store

section Evaluation

variable {s : Store V K} {r : Ref}

theorem add_adds {shape : Shape V K} (hs : s.Valid) (h : ∀ r ∈ shape.heldByNode, s.HasRef r) :
    Leads Adds s (add shape) fun r s' => s'.HasRef r :=
  ⟨⟨by simp, List.prefix_rfl, rfl, hs.push h⟩, by simp [HasRef]⟩

theorem hasRef_pair {a b : Ref} (ha : s.HasRef a) (hb : s.HasRef b) : ∀ r ∈ [a, b], s.HasRef r := by
  simp [ha, hb]

theorem lookup_adds {sc : Scope} (hs : s.Valid) (hsc : ∀ r ∈ sc.refs, s.HasRef r) (x : String) :
    Leads Adds s (lookup sc x : Work V K Ref) fun r s' => s'.HasRef r := by
  unfold lookup
  split
  · rename_i r hr
    obtain ⟨l, l', hl, -⟩ := List.lookup_eq_some_iff.1 hr
    exact .pure (.refl hs) (hsc r (by simp [Scope.refs, hl]))
  · refine .get ?_
    split
    · exact .pure (.refl hs) (hs.names _ _ ‹_›)
    · exact .throw (.refl hs) _

theorem setName_adds (hs : s.Valid) (hr : s.HasRef r) (x : String) :
    Leads Adds s (setName x r : Work V K Unit) fun _ _ => True := by
  refine ⟨⟨List.prefix_rfl, List.prefix_rfl, rfl, hs.parts, hs.knots, fun y r' hy => ?_, hs.older⟩, trivial⟩
  rw [Std.TreeMap.getElem?_insert] at hy
  split at hy
  · cases hy
    exact hr
  · exact hs.names y r' hy

theorem deref_leads {R : Store V K → Store V K → Prop} (hR : R s s) (held : List Ref) (r : Ref) :
    Leads R s (deref held r : Work V K NodeId) fun i s' => s' = s ∧ s.nodeOf? r = some i := by
  cases r with
  | node i => exact .pure hR ⟨rfl, rfl⟩
  | self k =>
    refine .get ?_
    split
    · rename_i i hi
      exact .pure hR ⟨rfl, (Option.filter_eq_some_iff.1 hi).1⟩
    · exact .throw hR _

theorem deref_self (held : List Ref) (k : Nat) (s : Store V K) : (deref held (.self k) : Work V K NodeId) s =
    (match s.deref? (s.liveness (.self k :: held)) (.self k) with
      | some i => pure i
      | none => throw Fault.deadReference : Work V K NodeId) s := rfl

theorem deref_error {s' : Store V K} {held : List Ref} {e : Fault} (h : deref held r s = .error e s') :
    s' = s ∧ s'.deref? (s'.liveness (r :: held)) r = none := by
  cases r with
  | node i => cases h
  | self k =>
    rw [deref_self] at h
    cases hd : s.deref? (s.liveness (.self k :: held)) (.self k) with
    | some i =>
      rw [hd] at h
      cases h
    | none =>
      rw [hd] at h
      cases h
      exact ⟨rfl, hd⟩

section Knot

variable {make : Work V K Ref} {s₁ : Store V K} (knot : Nat)

theorem defineKnot_of_ok (h : make s = .ok r s₁) :
    defineKnot knot make s = .ok (.node s₁.nodes.size) (s₁.tied knot r) := by
  simp only [defineKnot, tryCatch, tryCatchThe, MonadExceptOf.tryCatch, EStateM.tryCatch, bind, EStateM.bind, h]
  rfl

/-- Without a body the self-reference leads to itself, -/
theorem defineKnot_of_badExpression (h : make s = .error .badExpression s₁) :
    defineKnot knot make s = .error .badExpression (s₁.tied knot (.self knot)) := by
  simp only [defineKnot, tryCatch, tryCatchThe, MonadExceptOf.tryCatch, EStateM.tryCatch, bind, EStateM.bind, h, if_true]
  rfl

/-- and where something else has stopped the work, to nothing. -/
theorem defineKnot_of_error {e : Fault} (h : make s = .error e s₁) (he : e ≠ .badExpression) :
    defineKnot knot make s = .error e s₁ := by
  simp only [defineKnot, tryCatch, tryCatchThe, MonadExceptOf.tryCatch, EStateM.tryCatch, bind, EStateM.bind, h, if_false,
    he]
  rfl

theorem defineKnot_cases (make : Work V K Ref) (s : Store V K) :
    (∃ r s₁, make s = .ok r s₁ ∧ defineKnot knot make s = .ok (.node s₁.nodes.size) (s₁.tied knot r)) ∨
      (∃ s₁, make s = .error .badExpression s₁ ∧
        defineKnot knot make s = .error .badExpression (s₁.tied knot (.self knot))) ∨
      ∃ e s₁, make s = .error e s₁ ∧ defineKnot knot make s = .error e s₁ := by
  cases h : make s with
  | ok r s₁ => exact .inl ⟨r, s₁, rfl, defineKnot_of_ok knot h⟩
  | error e s₁ =>
    by_cases he : e = .badExpression
    · subst he
      exact .inr (.inl ⟨s₁, rfl, defineKnot_of_badExpression knot h⟩)
    · exact .inr (.inr ⟨e, s₁, rfl, defineKnot_of_error knot h he⟩)

end Knot

/-- What comes of making the body of a new self-reference. -/
theorem recursive_adds (make : Nat → Work V K Ref) (hs : s.Valid)
    (h : Leads Adds s.opened (make s.knots.size) fun r s' => s'.HasRef r) :
    Leads Adds s (do let knot ← openKnot; defineKnot knot (make knot)) fun r s' => s'.HasRef r := by
  change Leads Adds s (fun s => defineKnot s.knots.size (make s.knots.size) s.opened) _
  rcases defineKnot_cases s.knots.size (make s.knots.size) s.opened with
    ⟨r, s₁, hm, hd⟩ | ⟨s₁, hm, hd⟩ | ⟨e, s₁, hm, hd⟩
  · obtain ⟨hadds, hr⟩ := h.of_ok hm
    exact .of_eq_ok hd (hadds.tied hr) (by simp [HasRef, Store.tied])
  · exact .of_eq_error hd ((h.of_error hm).tied trivial)
  · exact .of_eq_error hd ((Adds.opened hs).trans (h.of_error hm))

theorem addMany_adds {inner : Ref} {v : V} (hs : s.Valid) (hi : s.HasRef inner) :
    Leads Adds s (addMany inner v : Work V K Ref) fun r s' => s'.HasRef r := by
  have hmake : Leads Adds s.opened (do
      let more ← add (.sequence inner (.self s.knots.size))
      let done ← add (.success v)
      add (.disjunction more done) : Work V K Ref) fun r s' => s'.HasRef r := by
    have hself : s.opened.HasRef (.self s.knots.size) := trivial
    refine Leads.bind (add_adds hs.opened (hasRef_pair (hi.adds (.opened hs)) hself)) fun a s₁ h₁ ha => ?_
    refine (add_adds h₁.valid (by simp [Shape.heldByNode])).bind fun b s₂ h₂ hb => ?_
    exact add_adds h₂.valid (hasRef_pair (ha.adds h₂) hb)
  obtain ⟨hadds, hr⟩ := hmake.of_ok rfl
  exact ⟨hadds.tied hr, by simp [HasRef]⟩

theorem rounds_adds {step : Nat → Ref → Work V K Ref} (n i : Nat) (hs : s.Valid) (hr : s.HasRef r)
    (hstep : ∀ i r s', s.Adds s' → s'.HasRef r → Leads Adds s' (step i r) fun r s' => s'.HasRef r) :
    Leads Adds s (rounds step n i r) fun r s' => s'.HasRef r := by
  induction n generalizing s i r with
  | zero => exact .pure (.refl hs) hr
  | succ n ih =>
    refine (hstep i r s (.refl hs) hr).bind fun r' s' hss hr' => ?_
    exact ih (i + 1) hss.valid hr' fun j r'' s'' hs' hr'' => hstep j r'' s'' (hss.trans hs') hr''

/-- Evaluating an expression adds to the store; what it gives is there. -/
theorem evaluate_adds (e : Expr V K) (held : List Ref) {sc : Scope} (hs : s.Valid)
    (hsc : ∀ r ∈ sc.refs, s.HasRef r) : Leads Adds s (e.evaluate held sc) fun r s' => s'.HasRef r := by
  induction e generalizing s held sc with
  | success v | element k | indexed kind => exact add_adds hs (by simp [Shape.heldByNode])
  | disjunction l r ihl ihr | sequence l r ihl ihr =>
    refine (ihl held hs hsc).bind fun a s₁ h₁ ha => ?_
    refine (ihr (a :: held) h₁.valid fun r hr => (hsc r hr).adds h₁).bind fun b s₂ h₂ hb => ?_
    exact add_adds h₂.valid (hasRef_pair (ha.adds h₂) hb)
  | transform f e ih =>
    refine (ih held hs hsc).bind fun a s₁ h₁ ha => ?_
    exact add_adds h₁.valid (by simpa [Shape.heldByNode] using ha)
  | optional e v ih =>
    refine (ih held hs hsc).bind fun a s₁ h₁ ha => ?_
    refine (add_adds h₁.valid (by simp [Shape.heldByNode])).bind fun b s₂ h₂ hb => ?_
    exact add_adds h₂.valid (hasRef_pair (ha.adds h₂) hb)
  | many e v ih =>
    exact (ih held hs hsc).bind fun a s₁ h₁ ha => addMany_adds h₁.valid ha
  | many1 e v ih =>
    refine (ih held hs hsc).bind fun a s₁ h₁ ha => ?_
    refine (addMany_adds h₁.valid ha).bind fun b s₂ h₂ hb => ?_
    exact add_adds h₂.valid (hasRef_pair (ha.adds h₂) hb)
  | recursive x body ih =>
    refine recursive_adds (fun knot => body.evaluate held (sc.bind x (.self knot))) hs ?_
    refine ih held hs.opened fun r hr => ?_
    simp only [Scope.refs, Scope.bind, List.map_cons, List.mem_cons] at hr
    rcases hr with rfl | hr
    · trivial
    · exact (hsc r hr).adds (.opened hs)
  | deferred e _ => exact add_adds hs (by simpa [Shape.heldByNode] using hsc)
  | name x => exact lookup_adds hs hsc x
  | save x e ih =>
    refine (ih held hs hsc).bind fun r s₁ h₁ hr => ?_
    exact (setName_adds h₁.valid hr x).bind fun _ s₂ h₂ _ => .pure (.refl h₂.valid) (hr.adds h₂)
  | touch e ih =>
    refine (ih held hs hsc).bind fun r s₁ h₁ hr => ?_
    refine (deref_leads (.refl h₁.valid) _ r).bind fun _ s₂ h₂ hd => .pure (.refl h₂.valid) (hr.adds h₂)
  | repeated n x start step ihs iht =>
    refine (ihs held hs hsc).bind fun r s₁ h₁ hr => ?_
    refine rounds_adds n 0 h₁.valid hr fun i r' s₂ h₂ hr' => iht held h₂.valid fun r'' hr'' => ?_
    simp only [Scope.refs, Scope.bind, List.map_cons, List.mem_cons] at hr''
    rcases hr'' with rfl | hr''
    · exact hr'
    · exact ((hsc r'' hr'').adds h₁).adds h₂
  | malformed => exact .throw (.refl hs) _

end Evaluation
end Predictive.Grammar
