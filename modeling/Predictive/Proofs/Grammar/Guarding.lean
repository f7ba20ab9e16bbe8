import Predictive.Proofs.Grammar.Allowance
import Predictive.Proofs.Grammar.Holding
import Predictive.Proofs.Grammar.Readiness

/-!
Unguarded recursion. A walk checks each chain of targets that it makes longer, when it binds the node at the end. So
chains that have had an end before have one after a walk that returns, and a walk that is stopped for unguarded
recursion has closed a circle. A circle that is there before is not looked at again.
-/
namespace Predictive

/-- The chain of targets from `i` has an end. -/
def Ends {V K : Type} (G : Productions V K) (i : Nat) : Prop := ∃ j, Resolves G i j

/-- The chain of targets from `i` comes to `j`, which stands for itself. -/
def Circles {V K : Type} (G : Productions V K) (i j : Nat) : Prop :=
  Stands G i j ∧ Relation.TransGen (Defers G) j j

theorem Ends.of_stands {V K : Type} {G : Productions V K} {i j : Nat} (hs : Stands G i j) (h : Ends G j) : Ends G i :=
  h.imp fun _ hj => ⟨hs.trans hj.1, hj.2⟩

/-- A chain that has an end comes into no circle. -/
theorem Ends.not_circles {V K : Type} {G : Productions V K} {i j : Nat} (h : Ends G i) : ¬Circles G i j := by
  rintro ⟨hs, hc⟩
  obtain ⟨l, hl⟩ := h
  induction hs using Relation.ReflTransGen.head_induction_on with
  | refl => exact hl.not_circular hc
  | @head x y hxy _ ih =>
    rcases Relation.ReflTransGen.cases_head hl.1 with rfl | ⟨z, hxz, hz⟩
    · exact hl.2 y hxy
    · have hyz : Production.deferred y = Production.deferred z := Option.some.inj (hxy.symm.trans hxz)
      cases hyz
      exact ih ⟨hz, hl.2⟩

namespace Grammar

open Store

variable {V K : Type}

namespace Store

section Nodes

variable [Ord K] {s s' : Store V K} {i j n : Nat} {r r' t : Ref} {o : Origin V K} {l : Liveness}

/-- The nodes that are met on the way down from `r`. -/
inductive Reaches (s : Store V K) (r : Ref) : Nat → Prop
  | root {i : Nat} : s.nodeOf? r = some i → Reaches s r i
  | part {i j : Nat} {r' : Ref} : Reaches s r i → r' ∈ s.below i → s.nodeOf? r' = some j → Reaches s r j

/-- The references that are met on the way down from `r`. -/
def Visits (s : Store V K) (r r' : Ref) : Prop := r' = r ∨ ∃ i, s.Reaches r i ∧ r' ∈ s.below i

theorem Visits.reaches (h : s.Visits r r') (hi : s.nodeOf? r' = some i) : s.Reaches r i := by
  rcases h with rfl | ⟨j, hj, hr'⟩
  · exact .root hi
  · exact .part hj hr' hi

theorem Grows.below_subset (hs : s.Grows s') : s.below i ⊆ s'.below i := by
  intro r hr
  cases hn : s.nodes[i]? with
  | none => simp [Store.below, hn] at hr
  | some shape =>
    rcases hs.nodes i shape hn with hn' | ⟨o, t, rfl, -⟩
    · simpa only [Store.below, hn, hn'] using hr
    · simp [Store.below, hn] at hr

theorem Reaches.grow (h : s.Reaches r i) (hs : s.Grows s') : s'.Reaches r i := by
  induction h with
  | root hi => exact .root (hs.nodeOf? hi)
  | part _ hr' hj ih => exact .part ih (hs.below_subset hr') (hs.nodeOf? hj)

theorem Visits.grow (h : s.Visits r r') (hs : s.Grows s') : s'.Visits r r' :=
  h.imp_right fun ⟨i, hi, hr'⟩ => ⟨i, hi.grow hs, hs.below_subset hr'⟩

/-- Along targets only nodes are met that can be reached. -/
theorem Reaches.stands (h : s.Reaches r i) (hs : Stands s.productions i j) : s.Reaches r j := by
  induction hs with
  | refl => exact h
  | @tail x y _ hd ih =>
    obtain ⟨r', hr', hy⟩ := (mem_parts_iff hd).1 (List.mem_singleton_self y)
    exact .part ih hr' hy

/-- Below a grammar that is realized the nodes are reached that are below its node. -/
theorem Realized.reaches_iff (h : s.Realized r i) : s.Reaches r n ↔ Below s.productions i n := by
  constructor
  · intro hn
    induction hn with
    | root hi =>
      obtain rfl := Option.some.inj (h.1.symm.trans hi)
      exact .refl
    | part _ hr' hj ih => exact below_of_ref h.2 ih hr' hj
  · intro hb
    induction hb with
    | refl => exact .root h.1
    | tail _ hp ih =>
      obtain ⟨p, hp, hj⟩ := hp
      obtain ⟨r', hr', hj⟩ := (mem_parts_iff hp).1 hj
      exact .part ih hr' hj

/-- The targets of bound nodes are there. -/
def Tied (s : Store V K) : Prop := ∀ i t, s.target? i = some t → (s.nodeOf? t).isSome

theorem Tied.target?_eq_none (h : s.Tied) (hi : ∀ j, ¬Defers s.productions i j) : s.target? i = none := by
  cases ht : s.target? i with
  | none => rfl
  | some t =>
    obtain ⟨j, hj⟩ := Option.isSome_iff_exists.1 (h i t ht)
    exact absurd (defers_of_target ht hj) (hi j)

theorem SameTargets.tied (h : s.SameTargets s') (hs : s.Grows s') (ht : s.Tied) : s'.Tied := by
  intro i t hi
  rw [h i] at hi
  obtain ⟨j, hj⟩ := Option.isSome_iff_exists.1 (ht i t hi)
  exact Option.isSome_of_eq_some (hs.nodeOf? hj)

theorem SameTargets.ends (h : s.SameTargets s') (hs : s.Grows s') (ht : s.Tied) (hn : Ends s.productions n) :
    Ends s'.productions n := by
  obtain ⟨j, hj, hend⟩ := hn
  refine ⟨j, hj.extend hs.extends, fun m => not_defers_of_target ?_⟩
  rw [h j, ht.target?_eq_none hend]

theorem target?_setTarget (hi : s.nodes[i]? = some (.deferred o none)) :
    (s.setTarget i t).target? j = if i = j then some t else s.target? j := by
  simp only [target?, nodes_setTarget]
  by_cases hij : i = j
  · subst hij
    simp only [if_true, hi, Option.map_some]
  · simp only [if_neg hij]

/-- A node that is not bound in the end was not before. -/
theorem Grows.target?_eq_none (hs : s.Grows s') (hi : s'.target? i = none) : s.target? i = none := by
  cases ht : s.target? i with
  | none => rfl
  | some t =>
    obtain ⟨o, hn⟩ := target?_eq_some_iff.1 ht
    rcases hs.nodes i _ hn with hn' | ⟨o', t', ho, -⟩
    · cases (target?_of_deferred hn').symm.trans hi
    · cases ho

theorem Tied.setTarget (h : s.Tied) (hi : s.nodes[i]? = some (.deferred o none)) (ht : (s.nodeOf? t).isSome) :
    (s.setTarget i t).Tied := by
  intro j t' hj
  rw [target?_setTarget hi] at hj
  split at hj
  · cases hj
    exact ht
  · exact h j t' hj

/-- A node whose body is known is bound to nothing else. -/
def KeepsBodies (s : Store V K) : Prop :=
  ∀ (i : Nat) (b t : Ref), s.nodes[i]? = some (Shape.deferred (.known b) (some t)) → t = b

theorem SameTargets.keepsBodies (h : s.SameTargets s') (hs : s.Grows s') (hk : s.KeepsBodies) : s'.KeepsBodies := by
  intro i b t hi
  obtain ⟨o, hn⟩ := target?_eq_some_iff.1 ((h i).symm.trans (target?_of_deferred hi))
  rcases hs.nodes i _ hn with hn' | ⟨_, _, ho, -⟩
  · cases hn'.symm.trans hi
    exact hk i b t hn
  · cases ho

theorem KeepsBodies.setTarget (h : s.KeepsBodies) (hi : s.nodes[i]? = some (.deferred o none))
    (ht : ∀ b, o = .known b → t = b) : (s.setTarget i t).KeepsBodies := by
  intro j b t' hj
  rw [nodes_setTarget] at hj
  split at hj
  · rename_i hij
    subst hij
    rw [hi] at hj
    cases hj
    exact ht b rfl
  · exact h j b t' hj

/-- A chain that comes to the node that is bound goes on to the end of that node's chain; others keep their end. -/
theorem ends_setTarget (h : s.Tied) (hs : s.Valid) (hi : s.nodes[i]? = some (.deferred o none)) (ht : s.HasRef t)
    (hfollows : (s.setTarget i t).Follows l i j) (hn : Ends s.productions n) : Ends (s.setTarget i t).productions n := by
  obtain ⟨m, hm, hend⟩ := hn
  have hstands := hm.extend (evolves_setTarget hs hi ht).extends
  by_cases him : i = m
  · subst him
    exact .of_stands hstands ⟨j, hfollows.stands, fun _ => not_defers_of_target hfollows.target?⟩
  · refine ⟨m, hstands, fun _ => not_defers_of_target ?_⟩
    rw [target?_setTarget hi, if_neg him, h.target?_eq_none hend]

end Nodes

end Store

variable [Kind K] {s s' s₀ : Store V K} {r t : Ref} {held pending : List Ref} {i n : Nat} {w w' : Walk}
  {o : Origin V K} {e : Fault}

/-- What is dead with more in use is dead with less. -/
theorem deref?_eq_none_of_subset {held' : List Ref} (hsub : held ⊆ held')
    (h : s.deref? (s.liveness held') r = none) : s.deref? (s.liveness held) r = none := by
  cases r with
  | node j => cases h
  | self k =>
    rw [deref?, Option.filter_eq_none_iff] at h ⊢
    intro d hd hlive
    refine h d hd ((Grows.refl s).isAlive (fun r' hr' => ?_) hlive)
    simp only [List.mem_append] at hr' ⊢
    exact hr'.imp_right (@hsub r')

/-- What is dead on a walk is dead with what the walk holds. -/
theorem Walk.deref?_eq_none (h : s.deref? (w.liveness s pending) r = none) : s.deref? (s.liveness w.held) r = none := by
  refine deref?_eq_none_of_subset (List.subset_append_right pending w.held) ?_
  cases r with
  | node j => cases h
  | self k =>
    rw [deref?, Option.filter_eq_none_iff] at h ⊢
    refine fun d hd hlive => h d hd ?_
    simp only [Walk.liveness, Bool.or_eq_true]
    exact .inr hlive

/-- Working out a target binds nothing, and makes no more nodes than were due. -/
theorem produce_allowance (w : Walk) (pending : List Ref) (o : Origin V K) :
    Leads SameTargets s (produce w pending o) fun x s' =>
      s'.allowance ≤ s.allowance + (Shape.deferred o none).due ∧ x.2.held = w.held := by
  cases o with
  | known body => exact .pure (fun _ => rfl) ⟨Nat.le_add_right _ _, rfl⟩
  | delayed e sc =>
    refine .get ((Leads.adaptExcept (evaluate_allowance e _ sc)).bind fun t s₁ _ h₁ => .get ?_)
    split
    · exact .pure (fun _ => rfl) ⟨h₁, rfl⟩
    · exact .get (.pure (fun _ => rfl) ⟨h₁, rfl⟩)

/-- No target comes to a circle while it is worked out. -/
theorem not_unguarded_of_produce {u : Store V K} (h : produce w pending o u = .error e s') (j : Nat) :
    e ≠ .unguarded j := by
  cases o with
  | known body => cases h
  | delayed x sc =>
    rcases bind_eq_error h with h | ⟨u₀, u₁, hu, h⟩
    · cases h
    · cases hu
      rcases bind_eq_error h with h | ⟨t, u₂, -, h⟩
      · unfold EStateM.adaptExcept at h
        cases hx : x.evaluate (pending ++ w.held) sc u with
        | ok a u₂ =>
          rw [hx] at h
          cases h
        | error e' u₂ =>
          rw [hx] at h
          cases h
          rcases evaluate_stopsAt x _ sc u e' _ hx with rfl | rfl <;> simp
      · rcases bind_eq_error h with h | ⟨u₃, u₄, hu, h⟩
        · cases h
        · split at h
          · cases h
          · rcases bind_eq_error h with h | ⟨_, _, _, h⟩ <;> cases h

/-- No name changes, unless an expression is evaluated for the node. Targets stay there, and bodies stay what nodes are
bound to. -/
structure Restrained (o : Origin V K) (s s' : Store V K) : Prop where
  names : s'.names = s.names ∨ ∃ e sc, o = .delayed e sc
  tied : s.Tied → s'.Tied
  bodies : s.KeepsBodies → s'.KeepsBodies

theorem Restrained.refl (o : Origin V K) (s : Store V K) : Restrained o s s := ⟨.inl rfl, fun h => h, fun h => h⟩

instance : IsTrans (Store V K) (Restrained o) := by
  refine ⟨fun s s' s'' h h' => ⟨?_, fun ht => h'.tied (h.tied ht), fun hk => h'.bodies (h.bodies hk)⟩⟩
  rcases h.names with hn | hn
  · exact h'.names.imp_left fun hn' => hn'.trans hn
  · exact .inr hn

theorem bindTarget_restrained (hs : s.Valid) (hi : s.nodes[i]? = some (.deferred o none)) (w : Walk)
    (pending : List Ref) : Leads (Restrained o) s (bindTarget w pending i o) fun _ _ => True := by
  have hproduce : Leads (Restrained o) s (produce w (.node i :: pending) o) fun x s' =>
      s'.nodes[i]? = some (.deferred o none) ∧ ∀ b, o = .known b → x.1 = b := by
    cases o with
    | known body => exact .pure (.refl _ s) ⟨hi, fun b hb => by cases hb; rfl⟩
    | delayed e sc =>
      refine ((produce_adds hs hi w _).and (produce_allowance w _ _)).mono (fun s' h => ?_) fun x s' h _ => ?_
      · exact ⟨.inr ⟨e, sc, rfl⟩, h.2.tied h.1.grows, h.2.keepsBodies h.1.grows⟩
      · exact ⟨h.1.node hi, fun b hb => by cases hb⟩
  refine hproduce.bind fun x s₁ _ ⟨hi₁, hbody⟩ => .get ?_
  split
  · exact .throw (.refl o s₁) _
  · rename_i halive
    obtain ⟨j, hj⟩ := Option.ne_none_iff_exists'.1 fun hnone => halive (Option.isNone_iff_eq_none.2 hnone)
    have hset : Restrained o s₁ (s₁.setTarget i x.1) :=
      ⟨.inl rfl, fun ht => ht.setTarget hi₁ (Option.isSome_of_eq_some (nodeOf?_of_deref? hj)),
        fun hk => hk.setTarget hi₁ hbody⟩
    refine (Leads.modify hset).bind fun _ s₂ _ _ => .get ?_
    refine (Leads.liftExcept (.refl o s₂)).bind fun _ s₃ _ _ => .pure (.refl o s₃) trivial

/-- The fault has nothing to do with what targets lead to. -/
def Fault.Mild (e : Fault) : Prop := e ≠ .deadReference ∧ ∀ j, e ≠ .unguarded j

/-- Something else stands against realizing `r`: a self-reference that is met is dead, or the target of a node that is
met cannot be worked out, or is dead. -/
inductive Hindered (s s' : Store V K) (held : List Ref) (r : Ref) : Fault → Prop
  | dead {r' : Ref} : s'.Visits r r' → s'.deref? (s'.liveness held) r' = none → Hindered s s' held r .deadReference
  | target {i : Nat} {o : Origin V K} {u : Store V K} {w w' : Walk} {pending : List Ref} {t : Ref} : s'.Reaches r i →
      s'.nodes[i]? = some (.deferred o none) → s.Grows u → produce w pending o u = .ok (t, w') s' →
      s'.deref? (s'.liveness held) t = none → Hindered s s' held r .deadReference
  | thunk {i : Nat} {o : Origin V K} {u : Store V K} {w : Walk} {pending : List Ref} {e : Fault} : s'.Reaches r i →
      s'.nodes[i]? = some (.deferred o none) → s.Grows u → produce w pending o u = .error e s' →
      Hindered s s' held r e

theorem Hindered.not_unguarded (h : Hindered s s' held r e) (j : Nat) : e ≠ .unguarded j := by
  cases h with
  | dead | target => simp
  | thunk _ _ _ hp => exact not_unguarded_of_produce hp j

theorem Hindered.of_grows (h : Hindered s s' held r e) (hs : s₀.Grows s) : Hindered s₀ s' held r e := by
  cases h with
  | dead hr hd => exact .dead hr hd
  | target hi hn hu hp hd => exact .target hi hn (hs.trans hu) hp hd
  | thunk hi hn hu hp => exact .thunk hi hn (hs.trans hu) hp

/-- The node `i` has been bound to `t`, and the chain of targets from there has an end. -/
structure Binds (s : Store V K) (w : Walk) (i : Nat) (t : Ref) (s' : Store V K) (w' : Walk) : Prop where
  evolves : s.Evolves s'
  target : s'.target? i = some t
  hasRef : s'.HasRef t
  seen : w'.seen = w.seen
  held : w'.held = w.held
  allowance : s'.allowance ≤ s.allowance
  ends : ∀ n, Ends s.productions n → Ends s'.productions n

section Binding

variable (hs : s.Valid) (hi : s.nodes[i]? = some (.deferred o none))
include hs hi

theorem binds_of_bindTarget (ht : s.Tied) (h : bindTarget w pending i o s = .ok (t, w') s') : Binds s w i t s' w' := by
  obtain ⟨hevolves, hn, hr, hseen⟩ := (bindTarget_evolves hs hi w pending).of_ok h
  obtain ⟨⟨t₁, w₁⟩, s₁, hp, h⟩ := bind_eq_ok h
  obtain ⟨hadds, hr₁, -⟩ := (produce_adds hs hi w _).of_ok hp
  obtain ⟨hsame, hle, hheld⟩ := (produce_allowance w _ o).of_ok hp
  have htied := hsame.tied hadds.grows ht
  have hi₁ := hadds.node hi
  obtain ⟨_, _, hget, h⟩ := bind_eq_ok h
  cases hget
  split at h
  · cases h
  · rename_i halive
    obtain ⟨j, hj⟩ := Option.ne_none_iff_exists'.1 fun hnone => halive (Option.isNone_iff_eq_none.2 hnone)
    obtain ⟨_, s₂, hmodify, h⟩ := bind_eq_ok h
    cases hmodify
    obtain ⟨_, _, hget, h⟩ := bind_eq_ok h
    cases hget
    obtain ⟨m, s₃, hlift, h⟩ := bind_eq_ok h
    obtain ⟨-, rfl, hres⟩ := (Leads.liftExcept (R := fun _ _ => True) trivial).of_ok hlift
    cases h
    have hset := allowance_setTarget (t := t) hi₁
    refine ⟨hevolves, ?_, hr, hseen, hheld, ?_,
      fun n hn => ends_setTarget htied hadds.valid hi₁ hr₁ (resolveFrom_ok hres) (hsame.ends hadds.grows ht hn)⟩
    · rw [target?_setTarget hi₁, if_pos rfl]
    · change (s₁.setTarget i t).allowance ≤ s.allowance
      omega

/-- A node is not bound only if that closes a circle or something else stands against it. -/
theorem circles_of_bindTarget (h : bindTarget w pending i o s = .error e s') :
    ((∃ j, e = .unguarded j ∧ Circles s'.productions i j) ∨ ∀ r, s'.Reaches r i → Hindered s s' w.held r e) ∧
      (e.Mild → s.SameTargets s') := by
  rcases bind_eq_error h with hp | ⟨⟨t₁, w₁⟩, s₁, hp, h⟩
  · refine ⟨.inr fun r hr => .thunk hr ?_ (.refl s) hp, fun _ => (produce_allowance w _ o).of_error hp⟩
    exact ((produce_adds hs hi w _).of_error hp).node hi
  · obtain ⟨hadds, hr₁, -⟩ := (produce_adds hs hi w _).of_ok hp
    obtain ⟨-, -, hheld⟩ := (produce_allowance w _ o).of_ok hp
    have hi₁ := hadds.node hi
    rcases bind_eq_error h with hget | ⟨_, _, hget, h⟩ <;> cases hget
    split at h
    · rename_i hdead
      cases h
      refine ⟨.inr fun r hr => .target hr hi₁ (.refl s) hp ?_, fun hmild => absurd rfl hmild.1⟩
      rw [← hheld]
      exact Walk.deref?_eq_none (Option.isNone_iff_eq_none.1 hdead)
    · rcases bind_eq_error h with h | ⟨_, s₂, hmodify, h⟩
      · cases h
      cases hmodify
      rcases bind_eq_error h with hget | ⟨_, _, hget, h⟩ <;> cases hget
      rcases bind_eq_error h with h | ⟨m, s₃, -, h⟩
      · obtain ⟨hres, rfl⟩ := liftExcept_error h
        rcases resolve_fault hres with ⟨j, rfl, hj, hc⟩ | ⟨rfl, j, t, hj, htj, hdead⟩
        · exact ⟨.inl ⟨j, rfl, hj, hc⟩, fun hmild => absurd rfl (hmild.2 j)⟩
        · have ht : t ∈ (s₁.setTarget i t₁).below j := below_of_target htj ▸ List.mem_singleton_self t
          refine ⟨.inr fun r hr => .dead (.inr ⟨j, hr.stands hj, ht⟩) ?_, fun hmild => absurd rfl hmild.1⟩
          rw [← hheld]
          exact Walk.deref?_eq_none hdead
      · cases h

end Binding

/-- An expression has been evaluated for a node that is met. -/
def Woken (s s' : Store V K) (r : Ref) : Prop :=
  ∃ n e sc t, s'.Reaches r n ∧ s'.nodes[n]? = some (.deferred (.delayed e sc) t) ∧ s.target? n = none

theorem Woken.grow (h : Woken s₀ s r) (hs : s.Grows s') : Woken s₀ s' r := by
  obtain ⟨n, e, sc, t, hr, hn, hfree⟩ := h
  rcases hs.nodes n _ hn with hn' | ⟨_, t', heq, hn'⟩
  · exact ⟨n, e, sc, t, hr.grow hs, hn', hfree⟩
  · cases heq
    exact ⟨n, e, sc, some t', hr.grow hs, hn', hfree⟩

/-- From `s` to `s'` a walk over what `r` leads to has come. -/
structure Passes (r : Ref) (s s' : Store V K) : Prop where
  grows : s.Grows s'
  names : s'.names = s.names ∨ Woken s s' r
  tied : s.Tied → s'.Tied
  bodies : s.KeepsBodies → s'.KeepsBodies

theorem Passes.refl (r : Ref) (s : Store V K) : Passes r s s := ⟨.refl s, .inl rfl, fun h => h, fun h => h⟩

theorem Passes.learn (h : Passes r s₀ s) (b : Solver.Book (FactName.Carrier V K)) (es : Array (Event K)) :
    Passes r s₀ { s with book := b, events := es } :=
  have hs : s.Grows { s with book := b, events := es } := ⟨fun _ _ hi => .inl hi, fun _ _ hk => hk⟩
  ⟨h.grows.trans hs, h.names.imp_right fun hw => hw.grow hs, h.tied, h.bodies⟩

/-- The walk goes on where a node is bound that it has met. -/
theorem Passes.bind (h : Passes r s₀ s) (hn : s.nodes[i]? = some (.deferred o none)) (hr : s.Reaches r i)
    (hs : s.Grows s') (hb : Restrained o s s') : Passes r s₀ s' where
  grows := h.grows.trans hs
  names := by
    rcases h.names with hnames | hwoken
    · rcases hb.names with hnames' | ⟨e, sc, rfl⟩
      · exact .inl (hnames'.trans hnames)
      · have hunbound : Woken s₀ s r :=
          ⟨i, e, sc, none, hr, hn, h.grows.target?_eq_none (target?_of_deferred hn)⟩
        exact .inr (hunbound.grow hs)
    · exact .inr (hwoken.grow hs)
  tied ht := hb.tied (h.tied ht)
  bodies hk := hb.bodies (h.bodies hk)

/-- The walk has closed a circle: the chain of a node that is met comes into one, and has had an end before. -/
def Encircled (s s' : Store V K) (r : Ref) (e : Fault) : Prop :=
  ∃ n j, e = .unguarded j ∧ s'.Reaches r n ∧ Ends s.productions n ∧ Circles s'.productions n j

/-- A walk on the way: what is pending has been met, chains that had an end have one, and there is fuel enough for what
is pending and for two references of each node that has not been seen or is still to come. -/
structure Underway (s₀ : Store V K) (held : List Ref) (r : Ref) (fuel : Nat) (pending : List Ref) (w : Walk)
    (s : Store V K) : Prop where
  passes : Passes r s₀ s
  valid : s.Valid
  tied : s.Tied
  hasRef : s.HasRef r
  held : w.held = held
  visits : ∀ r' ∈ pending, s.Visits r r'
  ends : ∀ n, Ends s₀.productions n → Ends s.productions n
  fuel : pending.length + 2 * ((w.unseen s).length + s.potential) ≤ fuel

/-- What realizing `r` may come to: it is done and leaves no new circle, or it has closed one, or something else stands
against it. -/
def Concludes {α : Type} (s₀ : Store V K) (held : List Ref) (r : Ref) : EStateM.Result Fault (Store V K) α → Prop
  | .ok _ s' => Passes r s₀ s' ∧ ∀ n, Ends s₀.productions n → Ends s'.productions n
  | .error e s' => Passes r s₀ s' ∧ (Encircled s₀ s' r e ∨ Hindered s₀ s' held r e) ∧
      (e.Mild → ∀ n, Ends s₀.productions n → Ends s'.productions n)

namespace Underway

variable {fuel : Nat} {r' : Ref}

theorem hasRef_head (h : Underway s₀ held r fuel (r' :: pending) w s) : s.HasRef r' := by
  rcases h.visits r' List.mem_cons_self with rfl | ⟨j, -, hr'⟩
  · exact h.hasRef
  · exact hasRef_below h.valid hr'

theorem skip (h : Underway s₀ held r (fuel + 1) (r' :: pending) w s) : Underway s₀ held r fuel pending w s where
  passes := h.passes
  valid := h.valid
  tied := h.tied
  hasRef := h.hasRef
  held := h.held
  visits r'' hr'' := h.visits r'' (List.mem_cons_of_mem _ hr'')
  ends := h.ends
  fuel := by
    have hfuel := h.fuel
    rw [List.length_cons] at hfuel
    omega

/-- A node is visited that leads where it leads. -/
theorem visit (h : Underway s₀ held r (fuel + 1) (r' :: pending) w s) (hi : s.nodeOf? r' = some i) (hw : i ∉ w.seen) :
    Underway s₀ held r fuel (s.below i ++ pending) { w with seen := w.seen.insert i } s where
  passes := h.passes
  valid := h.valid
  tied := h.tied
  hasRef := h.hasRef
  held := h.held
  visits r'' hr'' := by
    rcases List.mem_append.1 hr'' with hr'' | hr''
    · exact .inr ⟨i, (h.visits r' List.mem_cons_self).reaches hi, hr''⟩
    · exact h.visits r'' (List.mem_cons_of_mem _ hr'')
  ends := h.ends
  fuel := by
    have hfuel := h.fuel
    have hless := Walk.length_unseen (h.valid.lt_of_nodeOf? h.hasRef_head hi) hw
    have htwo := length_below_le (s := s) (n := i)
    rw [List.length_cons] at hfuel
    rw [List.length_append]
    omega

/-- As the store grows, no more nodes have not been seen than have come. -/
theorem length_unseen_le (hseen : w'.seen = w.seen) (hsize : s.nodes.size ≤ s'.nodes.size) :
    (w'.unseen s').length ≤ (w.unseen s).length + (s'.nodes.size - s.nodes.size) := by
  obtain ⟨d, hd⟩ := Nat.exists_eq_add_of_le hsize
  rw [Walk.unseen, Walk.unseen, hd, List.range_add, List.filter_append, List.length_append, hseen]
  have hnew := List.length_filter_le (fun j => decide (j ∉ w.seen)) ((List.range d).map (s.nodes.size + ·))
  rw [List.length_map, List.length_range] at hnew
  omega

/-- A deferred node is visited that has just been bound. -/
theorem bind (h : Underway s₀ held r (fuel + 1) (r' :: pending) w s) (hi : s.nodeOf? r' = some i) (hw : i ∉ w.seen)
    (hn : s.nodes[i]? = some (.deferred o none)) (hb : Binds s { w with seen := w.seen.insert i } i t s' w')
    (hrest : Restrained o s s') : Underway s₀ held r fuel (t :: pending) w' s' where
  passes := h.passes.bind hn ((h.visits r' List.mem_cons_self).reaches hi) hb.evolves.toGrows hrest
  valid := hb.evolves.valid
  tied := hrest.tied h.tied
  hasRef := h.hasRef.of_le hb.evolves.size_le
  held := hb.held.trans h.held
  visits r'' hr'' := by
    rcases List.mem_cons.1 hr'' with rfl | hr''
    · have hreach := ((h.visits r' List.mem_cons_self).reaches hi).grow hb.evolves.toGrows
      exact .inr ⟨i, hreach, below_of_target hb.target ▸ List.mem_singleton_self _⟩
    · exact (h.visits r'' (List.mem_cons_of_mem _ hr'')).grow hb.evolves.toGrows
  ends n hn := hb.ends n (h.ends n hn)
  fuel := by
    have hfuel := h.fuel
    have hless := Walk.length_unseen (h.valid.lt_of_nodeOf? h.hasRef_head hi) hw
    have hmore := length_unseen_le hb.seen hb.evolves.size_le
    have hsize := hb.evolves.size_le
    have hallow := hb.allowance
    rw [List.length_cons] at hfuel ⊢
    simp only [allowance] at hallow
    omega

end Underway

/-- A walk never runs out of fuel: it returns, or has closed a circle, or something else stands against it. -/
theorem realizeFrom_concludes {fuel : Nat} (h : Underway s₀ held r fuel pending w s) :
    Concludes s₀ held r (realizeFrom fuel pending w s) := by
  induction fuel generalizing pending w s with
  | zero =>
    obtain rfl : pending = [] := List.length_eq_zero_iff.1 (by have := h.fuel; omega)
    exact ⟨h.passes, h.ends⟩
  | succ fuel ih =>
    cases pending with
    | nil => exact ⟨h.passes, h.ends⟩
    | cons r' pending =>
      rcases realizeFrom_cases fuel h.valid h.hasRef_head pending w with ⟨hderef, heq⟩ |
        ⟨i, shape, hderef, hn, ⟨-, heq⟩ | ⟨hw, o, rfl, heq⟩ | ⟨hw, -, heq⟩⟩
      · have hdead : Hindered s₀ s held r .deadReference :=
          .dead (h.visits r' List.mem_cons_self) (h.held ▸ Walk.deref?_eq_none hderef)
        rw [heq]
        exact ⟨h.passes, .inr hdead, fun hmild => absurd rfl hmild.1⟩
      · rw [heq]
        exact ih h.skip
      · -- the node is bound on the visit
        have hi := nodeOf?_of_deref? hderef
        have hmet := (h.visits r' List.mem_cons_self).reaches hi
        have hrest := bindTarget_restrained h.valid hn { w with seen := w.seen.insert i } pending
        rw [heq]
        cases hbind : bindTarget { w with seen := w.seen.insert i } pending i o s with
        | ok x s' =>
          obtain ⟨t, w'⟩ := x
          have hb := binds_of_bindTarget h.valid hn h.tied hbind
          simp only [Bind.bind, EStateM.bind, hbind]
          exact ih (h.bind hi hw hn hb (hrest.of_ok hbind).1)
        | error e s' =>
          have hevolves := (bindTarget_evolves h.valid hn _ pending).of_error hbind
          have hreach := hmet.grow hevolves.toGrows
          simp only [Bind.bind, EStateM.bind, hbind]
          obtain ⟨hwhy, hmild⟩ := circles_of_bindTarget h.valid hn hbind
          refine ⟨h.passes.bind hn hmet hevolves.toGrows (hrest.of_error hbind), ?_,
            fun he n hend => (hmild he).ends hevolves.toGrows h.tied (h.ends n hend)⟩
          rcases hwhy with ⟨j, rfl, hc⟩ | hhindered
          · have hfree := h.passes.grows.target?_eq_none (target?_of_deferred hn)
            exact .inl ⟨i, j, rfl, hreach, ⟨i, .refl, fun _ => not_defers_of_target hfree⟩, hc⟩
          · exact .inr (h.held ▸ (hhindered r hreach).of_grows h.passes.grows)
      · rw [heq]
        exact ih (h.visit (nodeOf?_of_deref? hderef) hw)

theorem deref_of_record {event : NodeId → Event K} (h : record (do return event (← deref held r)) s = .error e s') :
    e = .deadReference ∧ s' = s ∧ s.deref? (s.liveness (r :: held)) r = none := by
  rcases bind_eq_error h with hget | ⟨_, _, hget, h⟩ <;> cases hget
  split at h
  · rcases bind_eq_error h with h | ⟨_, _, _, h⟩
    · rcases bind_eq_error h with h | ⟨_, _, _, h⟩
      · obtain ⟨rfl, hdead⟩ := deref_error h
        exact ⟨deref_stopsAt _ _ _ _ _ h, rfl, hdead⟩
      · cases h
    · cases h
  · cases h

variable [Value V]

/-- Realizing a grammar is done, or has closed a circle, or something else stands against it. -/
theorem realize_concludes (hv : s.Valid) (hm : s.Remembers) (ht : s.Tied) (held : List Ref) (hr : s.HasRef r) :
    Concludes s (r :: held) r (realize held r s) := by
  have hunder : Underway s (r :: held) r (2 * (s.nodes.size + s.potential) + 1) [r]
      { held := r :: held, kept := s.liveness (r :: held) } s := by
    refine ⟨.refl r s, hv, ht, hr, rfl, fun r' hr' => .inl (List.mem_singleton.1 hr'), fun _ hn => hn, ?_⟩
    have hle := Walk.length_unseen_le { held := r :: held, kept := s.liveness (r :: held) } s
    rw [List.length_singleton]
    omega
  have hwalk := realizeFrom_concludes hunder
  have hevolves := realizeFrom_evolves (2 * (s.nodes.size + s.potential) + 1) hv
    (List.forall_mem_singleton.2 hr) { held := r :: held, kept := s.liveness (r :: held) }
  simp only [realize, get_bind]
  simp only [bind, EStateM.bind]
  cases hfrom : realizeFrom (2 * (s.nodes.size + s.potential) + 1) [r]
      { held := r :: held, kept := s.liveness (r :: held) } s with
  | error e s' =>
    rw [hfrom] at hwalk
    exact hwalk
  | ok w s₁ =>
    rw [hfrom] at hwalk
    obtain ⟨hpasses, hends⟩ := hwalk
    dsimp only
    split
    · -- the event tells the node of `r`, which may have gone meanwhile
      have hlearns := record_learns ((hevolves.of_ok hfrom).1.upholds hm).remembers (r :: held) r
        fun i => .realized i w.seen.size w.bound
      cases hrecord : record (do return .realized (← deref (r :: held) r) w.seen.size w.bound) s₁ with
      | ok u s' =>
        obtain ⟨⟨⟨b, es, rfl⟩, -⟩, -⟩ := hlearns.of_ok hrecord
        exact ⟨hpasses.learn b es, hends⟩
      | error e s' =>
        obtain ⟨rfl, rfl, hdead⟩ := deref_of_record hrecord
        have hgone := deref?_eq_none_of_subset (List.subset_cons_self ..) hdead
        exact ⟨hpasses, .inr (.dead (.inl rfl) hgone), fun _ => hends⟩
    · exact ⟨hpasses, hends⟩

end Grammar
end Predictive
