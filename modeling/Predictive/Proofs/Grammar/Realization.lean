import Predictive.Grammar.Search
import Predictive.Proofs.Grammar.Making

/-!
Realization gives targets and changes nothing else. If it ends well, everything below the grammar is there: what has
been seen leads only to what has been seen or is pending.
-/
namespace Predictive.Grammar

variable {V K α β : Type} [Ord K]

namespace Leads

variable {R : Store V K → Store V K → Prop} {s : Store V K} {w : Work V K α} {post : α → Store V K → Prop}

theorem modify {f : Store V K → Store V K} (h : R s (f s)) :
    Leads R s (modify f : Work V K Unit) fun _ s' => s' = f s := ⟨h, rfl⟩

theorem adaptExcept {f : Fault → Fault} (h : Leads R s w post) : Leads R s (EStateM.adaptExcept f w) post := by
  unfold Leads EStateM.adaptExcept at *
  cases hw : w s with
  | ok a s' =>
    rw [hw] at h
    exact h
  | error e s' =>
    rw [hw] at h
    exact h

theorem liftExcept {x : Except Fault α} (hR : R s s) :
    Leads R s (liftExcept x : Work V K α) fun a s' => s' = s ∧ x = .ok a := by
  cases x with
  | ok a => exact .pure hR ⟨rfl, rfl⟩
  | error e => exact .throw hR e

end Leads

theorem liftExcept_error {x : Except Fault α} {s s' : Store V K} {e : Fault}
    (h : (liftExcept x : Work V K α) s = .error e s') : x = .error e ∧ s' = s := by
  cases x with
  | ok a => cases h
  | error e' =>
    cases h
    exact ⟨rfl, rfl⟩

namespace Store

/-- The store `s'` has all that `s` has, and what is remembered is the same. -/
structure Evolves (s s' : Store V K) : Prop extends s.Grows s' where
  book : s'.book = s.book
  valid : s'.Valid

variable {s s' : Store V K} {r t : Ref} {i j : Nat} {l : Liveness} {o : Origin V K}

theorem Evolves.refl (h : s.Valid) : s.Evolves s := ⟨.refl s, rfl, h⟩

theorem Evolves.trans {s'' : Store V K} (h : s.Evolves s') (h' : s'.Evolves s'') : s.Evolves s'' :=
  ⟨h.toGrows.trans h'.toGrows, h'.book.trans h.book, h'.valid⟩

instance : IsTrans (Store V K) Evolves := ⟨fun _ _ _ => .trans⟩

theorem Adds.evolves (h : s.Adds s') : s.Evolves s' := ⟨h.grows, h.book, h.valid⟩

theorem Evolves.events (h : s.Valid) (es : Array (Event K)) : s.Evolves { s with events := es } :=
  ⟨⟨fun _ _ hi => .inl hi, fun _ _ hk => hk⟩, rfl, h.parts, h.knots, h.names, h.older⟩

theorem nodeOf?_of_deref? (h : s.deref? l r = some i) : s.nodeOf? r = some i := by
  cases r with
  | node j => exact h
  | self k => exact (Option.filter_eq_some_iff.1 h).1

theorem nodes_setTarget : (s.setTarget i t).nodes[j]? = if i = j then s.nodes[j]?.map fun
    | .deferred o _ => .deferred o (some t)
    | shape => shape else s.nodes[j]? := by
  rw [setTarget]
  exact Array.getElem?_modify

theorem evolves_setTarget (hs : s.Valid) (hi : s.nodes[i]? = some (.deferred o none)) (ht : s.HasRef t) :
    s.Evolves (s.setTarget i t) := by
  have hsize : s.nodes.size ≤ (s.setTarget i t).nodes.size := by simp [setTarget]
  refine ⟨⟨fun j shape hj => ?_, fun k j hk => hk⟩, rfl, fun j shape hj r hr => ?_,
    fun k j hk => ?_, fun x r hx => (hs.names x r hx).of_le hsize, fun j shape hj n hn => ?_⟩
  · by_cases hij : i = j
    · subst hij
      obtain rfl : shape = .deferred o none := Option.some.inj (hj.symm.trans hi)
      exact .inr ⟨o, t, rfl, by rw [nodes_setTarget, if_pos rfl, hi]; rfl⟩
    · rw [nodes_setTarget, if_neg hij]
      exact .inl hj
  · rw [nodes_setTarget] at hj
    split at hj
    · rename_i hij
      subst hij
      rw [hi] at hj
      obtain rfl := Option.some.inj hj
      have hparts := hs.parts i _ hi
      cases o with
      | known body =>
        simp only [Shape.heldByNode, Option.toList_none, Option.toList_some, List.mem_cons, List.not_mem_nil,
          or_false] at hr hparts
        rcases hr with rfl | rfl
        · exact (hparts _ rfl).of_le hsize
        · exact ht.of_le hsize
      | delayed e sc =>
        simp only [Shape.heldByNode, Option.toList_none, Option.toList_some, List.append_nil, List.mem_append,
          List.mem_singleton] at hr hparts
        rcases hr with hr | rfl
        · exact (hparts _ hr).of_le hsize
        · exact ht.of_le hsize
    · exact (hs.parts j shape hj r hr).of_le hsize
  · obtain ⟨o', target, hj⟩ := hs.knots k j hk
    rw [nodes_setTarget, hj]
    split
    · exact ⟨o', some t, rfl⟩
    · exact ⟨o', target, rfl⟩
  · rw [nodes_setTarget] at hj
    split at hj
    · -- what stands for something else has no parts
      rename_i hij
      subst hij
      rw [hi] at hj
      cases hj
      cases hn
    · exact hs.older j shape hj n hn

end Store

open Store

variable {s s' : Store V K} {r : Ref} {i : Nat} {w w' : Walk} {pending : List Ref}

theorem record_leads {R : Store V K → Store V K → Prop} [IsTrans (Store V K) R] {event : Work V K (Event K)}
    (hR : R s s) (hevents : ∀ s' es, R s s' → R s' { s' with events := es })
    (h : Leads R s event fun _ _ => True) : Leads R s (record event) fun _ _ => True := by
  refine .get ?_
  split
  · refine h.bind fun e s₁ h₁ _ => ?_
    exact ⟨hevents s₁ _ h₁, trivial⟩
  · exact .pure hR trivial

theorem record_pure (e : Event K) (s : Store V K) :
    ∃ es, (record (pure e) : Work V K Unit) s = .ok () { s with events := es } := by
  obtain ⟨nodes, knots, names, releases, book, listening, events⟩ := s
  cases listening with
  | false => exact ⟨events, rfl⟩
  | true => exact ⟨events.push e, rfl⟩

theorem produce_adds {o : Origin V K} (hs : s.Valid) (hi : s.nodes[i]? = some (.deferred o none)) (w : Walk)
    (pending : List Ref) :
    Leads Adds s (produce w pending o) fun x s' => s'.HasRef x.1 ∧ x.2.seen = w.seen := by
  have hparts := hs.parts i _ hi
  cases o with
  | known body => exact .pure (.refl hs) ⟨hparts body (by simp [Shape.heldByNode]), rfl⟩
  | delayed e sc =>
    refine .get ?_
    refine Leads.bind (.adaptExcept (evaluate_adds e _ hs fun r hr => hparts r ?_)) fun t s₁ h₁ ht => .get ?_
    · simpa [Shape.heldByNode] using hr
    · split
      · exact .pure (.refl h₁.valid) ⟨ht, rfl⟩
      · exact .get (.pure (.refl h₁.valid) ⟨ht, rfl⟩)

theorem bindTarget_evolves {o : Origin V K} (hs : s.Valid) (hi : s.nodes[i]? = some (.deferred o none)) (w : Walk)
    (pending : List Ref) : Leads Evolves s (bindTarget w pending i o) fun x s' =>
      s'.nodes[i]? = some (.deferred o (some x.1)) ∧ s'.HasRef x.1 ∧ x.2.seen = w.seen := by
  have hproduce : Leads Evolves s (produce w (.node i :: pending) o) fun x s' =>
      s'.nodes[i]? = some (.deferred o none) ∧ s'.HasRef x.1 ∧ x.2.seen = w.seen :=
    (produce_adds hs hi w _).mono (fun _ h => h.evolves) fun x s' h hx => ⟨h.node hi, hx⟩
  refine hproduce.bind fun x s₁ h₁ ⟨hi₁, ht, hseen⟩ => .get ?_
  split
  · exact .throw (.refl h₁.valid) _
  · have h₂ := evolves_setTarget h₁.valid hi₁ ht
    refine (Leads.modify h₂).bind fun _ s₂ _ he => .get ?_
    subst he
    refine (Leads.liftExcept (.refl h₂.valid)).bind fun _ s₃ _ ⟨he, _⟩ => ?_
    subst he
    refine .pure (.refl h₂.valid) ⟨?_, ht.of_le h₂.size_le, hseen⟩
    rw [nodes_setTarget, if_pos rfl, hi₁]
    rfl

/-- The walk has seen the node that `r` leads to. -/
def Walk.Covers (w : Walk) (s : Store V K) (r : Ref) : Prop := ∃ i ∈ w.seen, s.nodeOf? r = some i

/-- What has been seen is there, and leads only to what is pending or has been seen. -/
def Walk.Explores (w : Walk) (s : Store V K) (pending : List Ref) : Prop :=
  ∀ i ∈ w.seen, i < s.nodes.size ∧ (∀ o, s.nodes[i]? ≠ some (.deferred o none)) ∧
    ∀ r ∈ s.below i, r ∈ pending ∨ w.Covers s r

namespace Walk

theorem Covers.grow (h : w.Covers s r) (hs : s.Grows s') (hw : ∀ i ∈ w.seen, i ∈ w'.seen) : w'.Covers s' r := by
  obtain ⟨i, hi, hr⟩ := h
  exact ⟨i, hw i hi, hs.nodeOf? hr⟩

theorem Explores.grow (h : w.Explores s pending) (hs : s.Grows s') : w.Explores s' pending := by
  intro i hi
  obtain ⟨hlt, hd, hbelow⟩ := h i hi
  have hn : s.nodes[i]? = some s.nodes[i] := Array.getElem?_eq_getElem hlt
  have hn' : s'.nodes[i]? = s.nodes[i]? := by
    rcases hs.nodes i _ hn with h' | ⟨o, t, ho, -⟩
    · rw [hn, h']
    · exact absurd (hn.trans (congrArg some ho)) (hd o)
  refine ⟨Nat.lt_of_lt_of_le hlt hs.size_le, fun o ho => hd o (hn' ▸ ho), fun r hr => ?_⟩
  rw [below, hn'] at hr
  exact (hbelow r hr).imp_right fun hc => hc.grow hs fun _ hj => hj

/-- A node seen before needs no visit. -/
theorem Explores.skip (h : w.Explores s (r :: pending)) (hr : w.Covers s r) : w.Explores s pending := by
  intro i hi
  obtain ⟨hlt, hd, hbelow⟩ := h i hi
  refine ⟨hlt, hd, fun r' hr' => ?_⟩
  rcases hbelow r' hr' with hp | hc
  · rcases List.mem_cons.1 hp with rfl | hp
    · exact .inr hr
    · exact .inl hp
  · exact .inr hc

/-- A node is visited: what it leads to becomes pending. -/
theorem Explores.visit (h : w.Explores s (r :: pending)) (hr : s.nodeOf? r = some i) (hi : i < s.nodes.size)
    (hd : ∀ o, s.nodes[i]? ≠ some (.deferred o none)) (hw : ∀ j, j ∈ w'.seen ↔ j = i ∨ j ∈ w.seen) :
    w'.Explores s (s.below i ++ pending) := by
  intro j hj
  rcases (hw j).1 hj with rfl | hj
  · exact ⟨hi, hd, fun r' hr' => .inl (List.mem_append_left _ hr')⟩
  · obtain ⟨hlt, hd', hbelow⟩ := h j hj
    refine ⟨hlt, hd', fun r' hr' => ?_⟩
    rcases hbelow r' hr' with hp | hc
    · rcases List.mem_cons.1 hp with rfl | hp
      · exact .inr ⟨i, (hw i).2 (.inl rfl), hr⟩
      · exact .inl (List.mem_append_right _ hp)
    · exact .inr (hc.grow (.refl s) fun k hk => (hw k).2 (.inr hk))

/-- Where nothing is pending, everything below a node that has been seen has a production. -/
theorem Explores.complete (h : w.Explores s []) (hi : i ∈ w.seen) : Complete s.productions i := by
  have hnode : ∀ j ∈ w.seen, ∀ r ∈ s.below j, ∃ k ∈ w.seen, s.nodeOf? r = some k := fun j hj r hr =>
    ((h j hj).2.2 r hr).resolve_left List.not_mem_nil
  have hstep : ∀ j ∈ w.seen, ∃ p, s.productions j = some p ∧ ∀ k ∈ p.parts, k ∈ w.seen := by
    intro j hj
    obtain ⟨hlt, hd, -⟩ := h j hj
    have hbelow := hnode j hj
    have hn : s.nodes[j]? = some s.nodes[j] := Array.getElem?_eq_getElem hlt
    simp only [below, hn] at hbelow
    simp only [productions, hn]
    cases hshape : s.nodes[j] with
    | success v => exact ⟨_, rfl, by simp [Production.parts]⟩
    | element k => exact ⟨_, rfl, by simp [Production.parts]⟩
    | disjunction a b | sequence a b =>
      rw [hshape] at hbelow
      obtain ⟨l, hl, ha⟩ := hbelow a (by simp)
      obtain ⟨r, hr, hb⟩ := hbelow b (by simp)
      exact ⟨_, by simp [ha, hb]; rfl, by simp [Production.parts, hl, hr]⟩
    | transform f a =>
      rw [hshape] at hbelow
      obtain ⟨l, hl, ha⟩ := hbelow a (by simp)
      exact ⟨_, by simp [ha]; rfl, by simp [Production.parts, hl]⟩
    | deferred o target =>
      cases target with
      | none => exact absurd (hn.trans (congrArg some hshape)) (hd o)
      | some t =>
        rw [hshape] at hbelow
        obtain ⟨l, hl, ha⟩ := hbelow t (by simp)
        exact ⟨_, by simp [ha]; rfl, by simp [Production.parts, hl]⟩
  intro j hj
  have hseen : j ∈ w.seen := by
    induction hj with
    | refl => exact hi
    | tail _ hc ih =>
      obtain ⟨p, hp, hk⟩ := hc
      obtain ⟨p', hp', hparts⟩ := hstep _ ih
      obtain rfl : p' = p := Option.some.inj (hp'.symm.trans hp)
      exact hparts _ hk
  obtain ⟨p, hp, -⟩ := hstep j hseen
  simp [hp]

end Walk

/-- A node holds what it leads to. -/
theorem heldByNode_of_below (hr : r ∈ s.below i) : ∃ shape, s.nodes[i]? = some shape ∧ r ∈ shape.heldByNode := by
  rw [below] at hr
  cases hi : s.nodes[i]? with
  | none => simp [hi] at hr
  | some shape =>
    rw [hi] at hr
    refine ⟨shape, rfl, ?_⟩
    cases shape with
    | success v | element k => cases hr
    | disjunction a b | sequence a b | transform f a => exact hr
    | deferred o target =>
      cases o with
      | known body => exact List.mem_cons_of_mem _ hr
      | delayed e sc => exact List.mem_append_right _ hr

theorem hasRef_below (hs : s.Valid) (hr : r ∈ s.below i) : s.HasRef r := by
  obtain ⟨shape, hi, hr⟩ := heldByNode_of_below hr
  exact hs.parts i shape hi r hr

/-- What a walk has done at its end: it covers what was pending, and nothing is. -/
abbrev Walked (w : Walk) (s : Store V K) (pending : List Ref) (w' : Walk) (s' : Store V K) : Prop :=
  (∀ r, r ∈ pending ∨ w.Covers s r → w'.Covers s' r) ∧ (w.Explores s pending → w'.Explores s' [])

/-- A visit and the rest of the walk make up a walk. -/
theorem walked_of_visit {w₁ w₂ : Walk} {s₁ s₂ : Store V K} (hr : s.nodeOf? r = some i) (hs : s.Evolves s₁)
    (hi : i < s₁.nodes.size) (hd : ∀ o, s₁.nodes[i]? ≠ some (.deferred o none))
    (hw : ∀ j, j ∈ w₁.seen ↔ j = i ∨ j ∈ w.seen) (h : Walked w₁ s₁ (s₁.below i ++ pending) w₂ s₂) :
    Walked w s (r :: pending) w₂ s₂ := by
  refine ⟨fun r' hr' => ?_, fun he => h.2 ((he.grow hs.toGrows).visit (hs.nodeOf? hr) hi hd hw)⟩
  rcases hr' with hp | hc
  · rcases List.mem_cons.1 hp with rfl | hp
    · exact h.1 r' (.inr ⟨i, (hw i).2 (.inl rfl), hs.nodeOf? hr⟩)
    · exact h.1 r' (.inl (List.mem_append_right _ hp))
  · exact h.1 r' (.inr (hc.grow hs.toGrows fun j hj => (hw j).2 (.inr hj)))

theorem mem_insert_seen {seen : Std.TreeSet Nat} {j : Nat} : j ∈ seen.insert i ↔ j = i ∨ j ∈ seen := by
  rw [Std.TreeSet.mem_insert, Std.LawfulEqOrd.compare_eq_iff_eq, eq_comm]

/-- A node that has a production is there, and is bound if it has to be. -/
theorem exists_shape_of_production (hi : (s.productions i).isSome) :
    ∃ shape, s.nodes[i]? = some shape ∧ ∀ o, shape ≠ .deferred o none := by
  obtain ⟨p, hp⟩ := Option.isSome_iff_exists.1 hi
  have hlt := lt_of_production hp
  have hshape : s.nodes[i]? = some s.nodes[i] := Array.getElem?_eq_getElem hlt
  exact ⟨_, hshape, fun o ho => by simp [productions, hshape, ho] at hp⟩

theorem get_bind {k : Store V K → Work V K α} : (MonadState.get >>= k) s = k s s := rfl

/-! What a walk does with the first reference that is pending. -/

section Visits

variable {fuel : Nat}

theorem realizeFrom_dead (hr : s.deref? (w.liveness s pending) r = none) :
    realizeFrom (fuel + 1) (r :: pending) w s = .error .deadReference s := by
  simp only [realizeFrom, get_bind, hr]
  rfl

theorem realizeFrom_skip (hr : s.deref? (w.liveness s pending) r = some i) (hw : i ∈ w.seen) :
    realizeFrom (fuel + 1) (r :: pending) w s = realizeFrom fuel pending w s := by
  simp only [realizeFrom, get_bind, hr, if_pos hw]

theorem realizeFrom_bind {o : Origin V K} (hr : s.deref? (w.liveness s pending) r = some i) (hw : i ∉ w.seen)
    (hi : s.nodes[i]? = some (.deferred o none)) : realizeFrom (fuel + 1) (r :: pending) w s =
      (bindTarget { w with seen := w.seen.insert i } pending i o >>= fun x => realizeFrom fuel (x.1 :: pending) x.2) s := by
  simp only [realizeFrom, get_bind, hr, if_neg hw, hi]

/-- A node that is bound or need not be is visited without further work. -/
theorem realizeFrom_visit {shape : Shape V K} (hr : s.deref? (w.liveness s pending) r = some i) (hw : i ∉ w.seen)
    (hi : s.nodes[i]? = some shape) (hd : ∀ o, shape ≠ .deferred o none) :
    realizeFrom (fuel + 1) (r :: pending) w s =
      realizeFrom fuel (s.below i ++ pending) { w with seen := w.seen.insert i } s := by
  simp only [realizeFrom, get_bind, hr, if_neg hw, hi, Store.below]
  cases shape with
  | success v | element k | disjunction a b | sequence a b | transform f a => rfl
  | deferred o target =>
    cases target with
    | none => exact absurd rfl (hd o)
    | some t => rfl

/-- The reference is dead, or leads to a node that has been seen, to one that has to be bound, or to any other. -/
theorem realizeFrom_cases (fuel : Nat) (hs : s.Valid) (hr : s.HasRef r) (pending : List Ref) (w : Walk) :
    (s.deref? (w.liveness s pending) r = none ∧ realizeFrom (fuel + 1) (r :: pending) w s = .error .deadReference s) ∨
      ∃ i shape, s.deref? (w.liveness s pending) r = some i ∧ s.nodes[i]? = some shape ∧
        ((i ∈ w.seen ∧ realizeFrom (fuel + 1) (r :: pending) w s = realizeFrom fuel pending w s) ∨
          (i ∉ w.seen ∧ ∃ o, shape = .deferred o none ∧ realizeFrom (fuel + 1) (r :: pending) w s =
            (bindTarget { w with seen := w.seen.insert i } pending i o >>= fun x =>
              realizeFrom fuel (x.1 :: pending) x.2) s) ∨
          (i ∉ w.seen ∧ (∀ o, shape ≠ .deferred o none) ∧ realizeFrom (fuel + 1) (r :: pending) w s =
            realizeFrom fuel (s.below i ++ pending) { w with seen := w.seen.insert i } s)) := by
  cases hderef : s.deref? (w.liveness s pending) r with
  | none => exact .inl ⟨rfl, realizeFrom_dead hderef⟩
  | some i =>
    have hi := hs.lt_of_nodeOf? hr (nodeOf?_of_deref? hderef)
    obtain ⟨shape, hshape⟩ : ∃ shape, s.nodes[i]? = some shape := ⟨_, Array.getElem?_eq_getElem hi⟩
    refine .inr ⟨i, shape, rfl, hshape, ?_⟩
    by_cases hseen : i ∈ w.seen
    · exact .inl ⟨hseen, realizeFrom_skip hderef hseen⟩
    · by_cases hunbound : ∃ o, shape = .deferred o none
      · obtain ⟨o, rfl⟩ := hunbound
        exact .inr (.inl ⟨hseen, o, rfl, realizeFrom_bind hderef hseen hshape⟩)
      · have hbound := not_exists.1 hunbound
        exact .inr (.inr ⟨hseen, hbound, realizeFrom_visit hderef hseen hshape hbound⟩)

end Visits

/-- A walk only grows the store. -/
theorem realizeFrom_evolves (fuel : Nat) (hs : s.Valid) (hp : ∀ r ∈ pending, s.HasRef r) (w : Walk) :
    Leads Evolves s (realizeFrom fuel pending w) (Walked w s pending) := by
  induction fuel generalizing s pending w with
  | zero =>
    cases pending with
    | nil => exact .pure (.refl hs) ⟨fun r hr => hr.resolve_left List.not_mem_nil, fun h => h⟩
    | cons r pending => exact .throw (.refl hs) _
  | succ fuel ih =>
    cases pending with
    | nil => exact .pure (.refl hs) ⟨fun r hr => hr.resolve_left List.not_mem_nil, fun h => h⟩
    | cons r pending =>
      have hrest : ∀ r' ∈ pending, s.HasRef r' := fun r' hr' => hp r' (List.mem_cons_of_mem _ hr')
      rcases realizeFrom_cases fuel hs (hp r List.mem_cons_self) pending w with ⟨-, heq⟩ |
        ⟨i, shape, hderef, hshape, ⟨hseen, heq⟩ | ⟨-, o, rfl, heq⟩ | ⟨-, hbound, heq⟩⟩
      · exact .of_eq_error heq (.refl hs)
      all_goals
        have hr := nodeOf?_of_deref? hderef
        have hi := (Array.getElem?_eq_some_iff.1 hshape).1
      · refine Leads.congr ((ih hs hrest w).mono (fun _ h => h) fun w' s' _ h => ⟨fun r' hr' => h.1 r' ?_, fun he => ?_⟩)
          heq
        · rcases hr' with hr' | hc
          · rcases List.mem_cons.1 hr' with rfl | hr'
            · exact .inr ⟨i, hseen, hr⟩
            · exact .inl hr'
          · exact .inr hc
        · exact h.2 (he.skip ⟨i, hseen, hr⟩)
      · refine Leads.congr ((bindTarget_evolves hs hshape _ pending).bind fun x s₁ h₁ hx => ?_) heq
        obtain ⟨hi₁, ht, hsame⟩ := hx
        have hrefs : ∀ r' ∈ x.1 :: pending, s₁.HasRef r' := by
          rintro r' (_ | ⟨_, hr'⟩)
          · exact ht
          · exact (hrest r' hr').of_le h₁.size_le
        refine (ih h₁.valid hrefs x.2).mono (fun _ h => h) fun w' s' _ h => ?_
        have hbelow : s₁.below i = [x.1] := by simp [below, hi₁]
        have hw : ∀ j, j ∈ x.2.seen ↔ j = i ∨ j ∈ w.seen := fun j => by rw [hsame, mem_insert_seen]
        exact walked_of_visit hr h₁ (Nat.lt_of_lt_of_le hi h₁.size_le) (by simp [hi₁]) hw (by rwa [hbelow])
      · have hrefs : ∀ r' ∈ s.below i ++ pending, s.HasRef r' := fun r' hr' =>
          (List.mem_append.1 hr').elim (hasRef_below hs) (hrest r')
        refine Leads.congr ((ih hs hrefs _).mono (fun _ h => h) fun w' s' _ h => ?_) heq
        refine walked_of_visit hr (.refl hs) hi (fun o ho => hbound o ?_) (fun _ => mem_insert_seen) h
        exact Option.some.inj (hshape.symm.trans ho)

/-- The grammar `r` has the node `i`, and everything below has a production. -/
def Store.Realized (s : Store V K) (r : Ref) (i : Nat) : Prop := s.nodeOf? r = some i ∧ Complete s.productions i

theorem Store.Realized.grow (h : s.Realized r i) (hs : s.Grows s') : s'.Realized r i :=
  ⟨hs.nodeOf? h.1, h.2.extend hs.extends⟩

theorem realize_evolves (hs : s.Valid) (held : List Ref) (hr : s.HasRef r) :
    Leads Evolves s (realize held r) fun _ s' => ∃ i, s'.Realized r i := by
  refine .get ?_
  refine (realizeFrom_evolves _ hs (List.forall_mem_singleton.2 hr) _).bind fun w s₁ h₁ hw => ?_
  obtain ⟨i, hseen, hi⟩ := hw.1 r (.inl List.mem_cons_self)
  have hc := (hw.2 fun j hj => absurd hj (by simp)).complete hseen
  have hend : Leads Evolves s₁ (do
      if w.bound ≠ 0 then
        record do return .realized (← deref (r :: held) r) w.seen.size w.bound) fun _ _ => True := by
    split
    · refine record_leads (.refl h₁.valid) (fun _ es h => .events h.valid es) ?_
      exact (deref_leads (.refl h₁.valid) _ r).bind fun j s₂ h₂ _ => .pure (.refl h₂.valid) trivial
    · exact .pure (.refl h₁.valid) trivial
  exact hend.mono (fun _ h => h) fun _ s₂ h₂ _ => ⟨i, Realized.grow ⟨hi, hc⟩ h₂.toGrows⟩

end Predictive.Grammar
