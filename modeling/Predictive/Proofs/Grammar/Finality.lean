import Predictive.Proofs.Grammar.Soundness

/-!
What final facts say: everything that holds. A final value was computed from values that say the same as final
ones, so that each derivation of a trait, of a restriction or of a conflict can be followed down.
-/
namespace Predictive

open Grammar
open Solver (Cell Query Family Memos)

variable {V K : Type} [Value V] [Kind K]

namespace Grammar.Store

variable {s : Store V K} {m : Memos (FactName.Carrier V K)} {i j d x : Nat} {f : FactName}
  {p : Production V K}

theorem deferred_of_definition {v : f.Carrier V K} (h : s.whole.definition i f = .deferred v (some j)) :
    s.productions i = some (.deferred j) := by
  simp only [whole, family, definition, productions] at h ⊢
  cases hn : s.nodes[i]? with
  | none => simp [hn] at h
  | some shape =>
    simp only [hn] at h ⊢
    cases shape with
    | deferred origin target =>
      cases target with
      | none => simp at h
      | some t =>
        simp only [Solver.Definition.deferred.injEq] at h
        simp [h.2]
    | success v | element k | disjunction a b | sequence a b | transform g a => simp at h

theorem leads_of_production (hi : s.productions i = some (.deferred j)) : s.whole.Leads f i j :=
  ⟨_, define_of_production hi⟩

/-- What holds of constants and of what is remembered, and of a deferred node if it holds of its target, holds of what is
read. -/
theorem value_induct {P : Nat → (f : FactName) → f.Carrier V K → Prop} (bottom : ∀ i f, P i f Fact.bottom)
    (constant : ∀ i p f v, s.productions i = some p → p.define i f = .constant v → P i f v)
    (deferred : ∀ i j f v, s.productions i = some (.deferred j) → P j f v → P i f v)
    (memo : ∀ c, P c.place c.fact (Family.memo m c).value) (i : Nat) (f : FactName) :
    P i f (s.whole.value m i f) := by
  have hdefinition : ∀ i v, (s.whole.definition i f = .constant v ∨ ∃ t, s.whole.definition i f = .deferred v t) →
      P i f v := by
    intro i v h
    have hdef : s.whole.definition i f = s.definition everything i f := rfl
    simp only [hdef, definition] at h
    cases hn : s.nodes[i]? with
    | none =>
      simp only [hn, Solver.Definition.deferred.injEq, reduceCtorEq, false_or] at h
      obtain ⟨t, rfl, -⟩ := h
      exact bottom i f
    | some shape =>
      simp only [hn] at h
      cases shape with
      | success w =>
        have hi : s.productions i = some (.success w) := by simp [productions, hn]
        obtain h | ⟨t, ht⟩ := h
        · exact constant i _ f v hi h
        · cases ht
      | element k =>
        have hi : s.productions i = some (.element k) := by simp [productions, hn]
        obtain h | ⟨t, ht⟩ := h
        · exact constant i _ f v hi h
        · cases ht
      | disjunction a b | sequence a b | transform g a => simp at h
      | deferred origin target =>
        cases target <;>
        · simp only [Solver.Definition.deferred.injEq, reduceCtorEq, false_or] at h
          obtain ⟨t, rfl, -⟩ := h
          exact bottom i f
  cases hr : s.whole.resolve i f with
  | none =>
    simp only [Family.value, hr]
    exact bottom i f
  | some q =>
    refine Family.follow_induct (P := fun r => P r f (s.whole.value m i f)) (fun r j hj => ?_) hr fun _ => ?_
    · obtain ⟨_, hd⟩ := hj
      exact deferred r j f _ (deferred_of_definition hd)
    · simp only [Family.value, hr]
      split
      · exact hdefinition q _ (.inl ‹_›)
      · exact hdefinition q _ (.inr ⟨_, ‹_›⟩)
      · exact memo ⟨q, f⟩

/-- If what is remembered of the rules is sound, so is what is read. -/
theorem sound_value (h : ∀ c, SoundFact s.productions c.place c.fact (Family.memo m c).value) :
    Sound s.productions (s.whole.value m) :=
  value_induct (P := SoundFact s.productions) (fun _ _ => soundFact_bottom) (fun _ _ _ _ => soundFact_constant)
    (fun _ _ _ _ => soundFact_deferred) h

/-- Every settled rule is justified. -/
def Settled (s : Store V K) (m : Memos (FactName.Carrier V K)) : Prop :=
  ∀ c, (Family.memo m c).settled = true → s.whole.Justified m c

/-- A final value comes from values that say the same as final ones. -/
theorem Settled.computed (h : s.Settled m) (hi : s.productions i = some p)
    {q : NodeQuery V K (f.Carrier V K)} (hq : p.define i f = .rule q) (hf : s.whole.Final m ⟨i, f⟩) :
    ∃ σ, q.denote σ = .ok (s.whole.value m i f) ∧ ∀ r ∈ p.reads σ f, s.whole.Final m r ∧
      Fact.agrees (σ r.place r.fact) (s.whole.value m r.place r.fact) = true := by
  have hd : s.whole.definition i f = .rule q := (define_of_production hi).trans hq
  obtain ⟨q', σ, hq', hv, hr⟩ := h _ (hf.2 _ (Family.source?_of_rule hd))
  obtain rfl : q = q' := by simpa [hd] using hq'
  refine ⟨σ, ?_, fun r hrr => hr r ?_⟩
  · rw [Family.value_of_rule hd]
    exact hv
  · rwa [Production.reads_of_rule hq]

/-- A final fact tells of each trait that a node has. -/
theorem Settled.ascribed {t : Trait K} (h : s.Settled m) (ht : Has s.productions i t) :
    s.whole.Final m ⟨i, t.fact⟩ → Ascribed (s.whole.value m) i t := by
  refine Has.induct (motive := fun i t => s.whole.Final m ⟨i, t.fact⟩ → Ascribed (s.whole.value m) i t) ?_ ht
  intro i p t hi hp hf
  cases hdef : p.define i t.fact with
  | constant v =>
    have hv := Family.value_of_constant ((define_of_production hi).trans hdef) m
    rw [Ascribed, hv]
    exact (gives_of_constant hdef).2 hp
  | deferred v target =>
    cases p <;> cases hdef
    rename_i j
    have := hp.2 ((leads_of_production hi).final hf)
    rwa [Ascribed, (leads_of_production hi).value hf.1] at this
  | rule q =>
    obtain ⟨σ, hd, hr⟩ := h.computed hi hdef hf
    refine (gives_of_rule hdef hd).2 (gives_of_reads hp (fun j u hu hread => ?_) ⟨q, hdef⟩)
    obtain ⟨hfin, ha⟩ := hr _ hread
    exact (Trait.in_congr ha).2 (hu.2 hfin)

/-- Final facts have exactly the traits of their node. -/
theorem Settled.ascribed_iff {t : Trait K} (h : s.Settled m) (hs : Sound s.productions (s.whole.value m))
    (hf : s.whole.Final m ⟨i, t.fact⟩) : Ascribed (s.whole.value m) i t ↔ Has s.productions i t :=
  ⟨hs.has, fun ht => h.ascribed ht hf⟩

theorem Settled.mem_first {k : K} (h : s.Settled m) (hs : Sound s.productions (s.whole.value m))
    (hf : s.whole.Final m ⟨i, .first⟩) :
    k ∈ (s.whole.value m i .first : FinSet K) ↔ Starts s.productions i k :=
  (h.ascribed_iff (t := .startsWith k) hs hf).trans has_startsWith_iff

theorem Settled.isSome_emptyValue (h : s.Settled m) (hs : Sound s.productions (s.whole.value m))
    (hf : s.whole.Final m ⟨i, .emptyValue⟩) :
    (s.whole.value m i .emptyValue).isSome = true ↔ Nullable s.productions i :=
  (h.ascribed_iff (t := .nullable) hs hf).trans has_nullable_iff

theorem Settled.productive (h : s.Settled m) (hs : Sound s.productions (s.whole.value m))
    (hf : s.whole.Final m ⟨i, .productive⟩) :
    s.whole.value m i .productive = true ↔ Productive s.productions i :=
  (h.ascribed_iff (t := .productive) hs hf).trans has_productive_iff

/-- The restriction that a side of a disjunction gives rise to, with all kinds that can start it. -/
def ExactRestriction (G : Productions V K) (i : Nat) (e : Restriction K) : Prop :=
  ∃ x, Restricts G i e.origin x ∧ ∀ k, k ∈ e.disallowed ↔ Starts G x k

/-- If the restrictions of `i` are final, they have the entry for the side `x` of `d`. -/
def Enters (s : Store V K) (m : Memos (FactName.Carrier V K)) (i d x : Nat) : Prop :=
  s.whole.Final m ⟨i, .restrictions⟩ → s.whole.Final m ⟨x, .first⟩ ∧
    (⟨d, s.whole.value m x .first⟩ : Restriction K) ∈ (s.whole.value m i .restrictions : FinSet (Restriction K))

/-- The values `σ` say the same of the cells `cs` as the final ones. -/
def Faithful (s : Store V K) (m : Memos (FactName.Carrier V K)) (σ : Valuation V K) (cs : List (Cell FactName)) :
    Prop :=
  ∀ r ∈ cs, s.whole.Final m r ∧ Fact.agrees (σ r.place r.fact) (s.whole.value m r.place r.fact) = true

section Faithful

variable {σ : Valuation V K} {cs : List (Cell FactName)}

theorem Faithful.eq_first (h : s.Faithful m σ cs) (hj : ⟨j, .first⟩ ∈ cs) :
    (σ j .first : FinSet K) = s.whole.value m j .first := beq_iff_eq.1 (h _ hj).2

theorem Faithful.eq_restrictions (h : s.Faithful m σ cs) (hj : ⟨j, .restrictions⟩ ∈ cs) :
    (σ j .restrictions : FinSet (Restriction K)) = s.whole.value m j .restrictions := beq_iff_eq.1 (h _ hj).2

theorem Faithful.eq_conflicts (h : s.Faithful m σ cs) (hj : ⟨j, .conflicts⟩ ∈ cs) :
    (σ j .conflicts : FinSet (Conflict K)) = s.whole.value m j .conflicts := beq_iff_eq.1 (h _ hj).2

theorem Faithful.nullable (h : s.Faithful m σ cs) (hs : s.Settled m) (hj : ⟨j, .emptyValue⟩ ∈ cs)
    (hn : Nullable s.productions j) : (σ j .emptyValue).isSome = true := by
  have he : (σ j .emptyValue).isSome = (s.whole.value m j .emptyValue).isSome := beq_iff_eq.1 (h _ hj).2
  rw [he]
  exact hs.ascribed (t := .nullable) (has_nullable_iff.2 hn) (h _ hj).1

theorem Faithful.productive (h : s.Faithful m σ cs) (hs : s.Settled m) (hj : ⟨j, .productive⟩ ∈ cs)
    (hp : Productive s.productions j) : σ j .productive = true := by
  have he : (σ j .productive : Bool) = s.whole.value m j .productive := beq_iff_eq.1 (h _ hj).2
  rw [he]
  exact hs.ascribed (t := .productive) (has_productive_iff.2 hp) (h _ hj).1

end Faithful

/-- What a part enters is entered for the whole if the part passes its restrictions on. -/
theorem Settled.enters_of_part (h : s.Settled m) (hi : s.productions i = some p)
    {q : NodeQuery V K (FinSet (Restriction K))} (hq : p.define i .restrictions = .rule q)
    (hj : ∀ σ, s.Faithful m σ (p.reads σ .restrictions) → j ∈ p.passing σ) (ih : s.Enters m j d x) :
    s.Enters m i d x := by
  intro hf
  obtain ⟨σ, hd, hr⟩ := h.computed hi hq hf
  have hfaith : s.Faithful m σ (p.reads σ .restrictions) := hr
  have hread := Production.mem_reads_restrictions.2 (hj σ hfaith)
  obtain ⟨hfx, hmem⟩ := ih (hr _ hread).1
  rw [← hfaith.eq_restrictions hread] at hmem
  exact ⟨hfx, (Production.mem_restrictions hq hd).2 (.inr ⟨j, hj σ hfaith, hmem⟩)⟩

/-- Final restrictions have an entry for each side that restricts what follows. -/
theorem Settled.enters (h : s.Settled m) (hx : Restricts s.productions i d x) : s.Enters m i d x := by
  induction hx with
  | @ofRight d l r hd hl =>
    intro hf
    obtain ⟨σ, hv, hr⟩ := h.computed hd rfl hf
    have hfaith : s.Faithful m σ (Production.reads σ .restrictions (.disjunction l r : Production V K)) := hr
    have hsome := hfaith.nullable h (by simp [Production.reads]) hl
    have hread : ⟨r, .first⟩ ∈ Production.reads σ .restrictions (.disjunction l r : Production V K) := by
      simp [Production.reads, hsome]
    refine ⟨(hr _ hread).1, (Production.mem_restrictions (i := d) (p := .disjunction l r) rfl hv).2 (.inl (Or.inl ⟨hsome, ?_⟩))⟩
    rw [hfaith.eq_first hread]
  | @ofLeft d l r hd hn =>
    intro hf
    obtain ⟨σ, hv, hr⟩ := h.computed hd rfl hf
    have hfaith : s.Faithful m σ (Production.reads σ .restrictions (.disjunction l r : Production V K)) := hr
    have hsome := hfaith.nullable h (by simp [Production.reads]) hn
    have hread : ⟨l, .first⟩ ∈ Production.reads σ .restrictions (.disjunction l r : Production V K) := by
      simp [Production.reads, hsome]
    refine ⟨(hr _ hread).1, (Production.mem_restrictions (i := d) (p := .disjunction l r) rfl hv).2 (.inl (Or.inr ⟨hsome, ?_⟩))⟩
    rw [hfaith.eq_first hread]
  | inLeft hi _ ih | inRight hi _ ih =>
    exact h.enters_of_part hi rfl (fun σ _ => by simp [Production.passing]) ih
  | first hi hn _ ih =>
    refine h.enters_of_part hi rfl (fun σ hσ => ?_) ih
    have := hσ.nullable h (by simp [Production.reads]) hn
    simp [Production.passing, this]
  | second hi hp _ ih =>
    refine h.enters_of_part hi rfl (fun σ hσ => ?_) ih
    have := hσ.productive h (by simp [Production.reads]) hp
    simp [Production.passing, this]
  | transform hi _ ih => exact h.enters_of_part hi rfl (fun σ _ => by simp [Production.passing]) ih
  | @deferred i j d x hi _ ih =>
    intro hf
    obtain ⟨hfx, hmem⟩ := ih ((leads_of_production hi).final hf)
    rw [(leads_of_production hi).value hf.1] at hmem
    exact ⟨hfx, hmem⟩

/-- The conflict that a node has, with all its kinds. -/
def ExactConflict (G : Productions V K) (i : Nat) : Conflict K → Prop
  | .bothAcceptEmpty d => ∃ l r, Below G i d ∧ G d = some (.disjunction l r) ∧ Nullable G l ∧ Nullable G r
  | .firstFirstClash d ks => ∃ l r, Below G i d ∧ G d = some (.disjunction l r) ∧ (∃ k, k ∈ ks) ∧
      ∀ k, k ∈ ks ↔ Starts G l k ∧ Starts G r k
  | .followClash d q ks => ∃ l r x, Below G i q ∧ G q = some (.sequence l r) ∧ Restricts G l d x ∧
      (∃ k, k ∈ ks) ∧ ∀ k, k ∈ ks ↔ Starts G x k ∧ Starts G r k

theorem Settled.conflicts_of_below (h : s.Settled m) (hj : Below s.productions i j) :
    s.whole.Final m ⟨i, .conflicts⟩ → s.whole.Final m ⟨j, .conflicts⟩ ∧
      ∀ e ∈ (s.whole.value m j .conflicts : FinSet (Conflict K)),
        e ∈ (s.whole.value m i .conflicts : FinSet (Conflict K)) := by
  induction hj using Relation.ReflTransGen.head_induction_on with
  | refl => exact fun hf => ⟨hf, fun _ he => he⟩
  | @head i i' hstep _ ih =>
    intro hf
    obtain ⟨p, hi, hp⟩ := hstep
    cases hdef : p.define i .conflicts with
    | constant v =>
      cases p with
      | success w => cases hp
      | element k => cases hp
      | disjunction l r | sequence l r | transform g l | deferred l => cases hdef
    | deferred v target =>
      cases p <;> cases hdef
      obtain rfl := List.mem_singleton.1 hp
      obtain ⟨hfj, hsub⟩ := ih ((leads_of_production hi).final hf)
      rw [(leads_of_production hi).value hf.1] at hsub
      exact ⟨hfj, hsub⟩
    | rule q =>
      obtain ⟨σ, hd, hr⟩ := h.computed hi hdef hf
      have hfaith : s.Faithful m σ (p.reads σ .conflicts) := hr
      have hread := (Production.mem_reads_conflicts (σ := σ) ⟨q, hdef⟩).2 hp
      obtain ⟨hfj, hsub⟩ := ih (hr _ hread).1
      refine ⟨hfj, fun e he => (Production.mem_conflicts hdef hd).2 (.inr ⟨i', hp, ?_⟩)⟩
      rw [hfaith.eq_conflicts hread]
      exact hsub e he

/-- Final restrictions have all exact ones among them. -/
theorem Settled.exactRestriction {e : Restriction K} (h : s.Settled m) (hs : Sound s.productions (s.whole.value m))
    (hf : s.whole.Final m ⟨i, .restrictions⟩) (he : ExactRestriction s.productions i e) :
    e ∈ (s.whole.value m i .restrictions : FinSet (Restriction K)) := by
  obtain ⟨o, ks⟩ := e
  obtain ⟨x, hx, hks⟩ := he
  obtain ⟨hfx, hmem⟩ := h.enters hx hf
  have heq : ks = s.whole.value m x .first :=
    FinSet.ext (α := K) fun k => (hks k).trans (h.mem_first hs hfx).symm
  exact heq ▸ hmem

/-- Final conflicts have all exact ones among them. -/
theorem Settled.exactConflict {e : Conflict K} (h : s.Settled m) (hs : Sound s.productions (s.whole.value m))
    (hf : s.whole.Final m ⟨i, .conflicts⟩) (he : ExactConflict s.productions i e) :
    e ∈ (s.whole.value m i .conflicts : FinSet (Conflict K)) := by
  cases e with
  | bothAcceptEmpty d =>
    obtain ⟨l, r, hb, hd, hl, hr⟩ := he
    obtain ⟨hfd, hsub⟩ := h.conflicts_of_below hb hf
    obtain ⟨σ, hv, hread⟩ := h.computed hd rfl hfd
    have hfaith : s.Faithful m σ (Production.reads σ .conflicts (.disjunction l r : Production V K)) := hread
    have hl' := hfaith.nullable h (by simp [Production.reads]) hl
    have hr' := hfaith.nullable h (by simp [Production.reads, hl']) hr
    exact hsub _ ((Production.mem_conflicts (i := d) (p := .disjunction l r) rfl hv).2
      (.inl (Or.inl ⟨hl', hr', rfl⟩)))
  | firstFirstClash d ks =>
    obtain ⟨l, r, hb, hd, ⟨k, hk⟩, hks⟩ := he
    obtain ⟨hfd, hsub⟩ := h.conflicts_of_below hb hf
    obtain ⟨σ, hv, hread⟩ := h.computed hd rfl hfd
    have hfaith : s.Faithful m σ (Production.reads σ .conflicts (.disjunction l r : Production V K)) := hread
    have hl : ⟨l, .first⟩ ∈ Production.reads σ .conflicts (.disjunction l r : Production V K) := by
      simp [Production.reads]
    have hr : ⟨r, .first⟩ ∈ Production.reads σ .conflicts (.disjunction l r : Production V K) := by
      simp [Production.reads]
    have heq : ks = (σ l .first ∩ σ r .first : FinSet K) := by
      refine FinSet.ext fun k => (hks k).trans ?_
      rw [FinSet.mem_inter, hfaith.eq_first hl, hfaith.eq_first hr, h.mem_first hs (hread _ hl).1,
        h.mem_first hs (hread _ hr).1]
    refine hsub _ ((Production.mem_conflicts (i := d) (p := .disjunction l r) rfl hv).2
      (.inl (Or.inr ⟨?_, by rw [heq]⟩)))
    exact FinSet.isEmpty_eq_false_iff.2 ⟨k, heq ▸ hk⟩
  | followClash o q ks =>
    obtain ⟨l, r, x, hb, hq, hx, ⟨k, hk⟩, hks⟩ := he
    obtain ⟨hfq, hsub⟩ := h.conflicts_of_below hb hf
    obtain ⟨σ, hv, hread⟩ := h.computed hq rfl hfq
    have hfaith : s.Faithful m σ (Production.reads σ .conflicts (.sequence l r : Production V K)) := hread
    have hl : ⟨l, .restrictions⟩ ∈ Production.reads σ .conflicts (.sequence l r : Production V K) := by
      simp [Production.reads]
    have hr : ⟨r, .first⟩ ∈ Production.reads σ .conflicts (.sequence l r : Production V K) := by
      simp [Production.reads]
    obtain ⟨hfx, hmem⟩ := h.enters hx (hread _ hl).1
    have heq : ks = (s.whole.value m x .first ∩ σ r .first : FinSet K) := by
      refine FinSet.ext fun k => (hks k).trans ?_
      rw [FinSet.mem_inter, hfaith.eq_first hr, h.mem_first hs hfx, h.mem_first hs (hread _ hr).1]
    refine hsub _ ((Production.mem_conflicts (i := q) (p := .sequence l r) rfl hv).2
      (.inl ⟨_, hfaith.eq_restrictions hl ▸ hmem, ?_, by rw [heq]⟩))
    exact FinSet.isEmpty_eq_false_iff.2 ⟨k, heq ▸ hk⟩

/-- What a fact has to say of the node `i` when it is final. -/
def Correct (G : Productions V K) (i : Nat) : (f : FactName) → f.Carrier V K → Prop
  | .first, s => ∀ k, k ∈ (s : FinSet K) ↔ Starts G i k
  | .emptyValue, v => (Option.isSome (α := V) v = true ↔ Nullable G i) ∧ ∀ w : V, (v : Option V) = some w → Derives G i [] w
  | .productive, b => (b : Bool) = true ↔ Productive G i
  | .restrictions, s =>
    (∀ e, ExactRestriction G i e → e ∈ (s : FinSet (Restriction K))) ∧
      ∀ e ∈ (s : FinSet (Restriction K)), ∃ x, Restricts G i e.origin x ∧ ∀ k ∈ e.disallowed, Starts G x k
  | .conflicts, s =>
    (∀ c, ExactConflict G i c → c ∈ (s : FinSet (Conflict K))) ∧ ∀ c ∈ (s : FinSet (Conflict K)), Warranted G i c

theorem Settled.correct (h : s.Settled m) (hs : Sound s.productions (s.whole.value m))
    (hf : s.whole.Final m ⟨i, f⟩) : Correct s.productions i f (s.whole.value m i f) := by
  cases f with
  | first => exact fun k => h.mem_first hs hf
  | emptyValue => exact ⟨h.isSome_emptyValue hs hf, hs i .emptyValue⟩
  | productive => exact h.productive hs hf
  | restrictions => exact ⟨fun e => h.exactRestriction hs hf, hs i .restrictions⟩
  | conflicts => exact ⟨fun e => h.exactConflict hs hf, hs i .conflicts⟩

end Grammar.Store
end Predictive
