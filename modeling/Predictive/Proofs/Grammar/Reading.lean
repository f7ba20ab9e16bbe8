import Predictive.Proofs.Grammar.Clarity
import Predictive.Proofs.Grammar.Realization
import Predictive.Proofs.Grammar.Termination

/-!
Reading a fact of a grammar. What is remembered is upheld however the reading ends. A value is final; if there is
none, something stands in the way that can be pointed at.
-/
namespace Predictive

open Grammar
open Solver (Cell Query Family)

variable {V K : Type}

/-- Only a transformation can give up, and only when it is applied to the empty value. -/
theorem Production.transform_of_error [Value V] [Kind K] {p : Production V K} {i : Nat} {f : FactName}
    {σ : Valuation V K} {q : NodeQuery V K (f.Carrier V K)} {e : Fault} (hq : p.define i f = .rule q)
    (hd : q.denote σ = .error e) : f = .emptyValue ∧ ∃ g n, p = .transform g n ∧ ¬g.IsTotal := by
  cases p with
  | success v => cases hq
  | element k => cases hq
  | deferred j => cases hq
  | disjunction l r =>
    cases hq
    cases f with
    | first => simp [disjunctionRule] at hd
    | emptyValue => cases denote_emptyValue_disjunction.symm.trans hd
    | productive => cases hl : σ l .productive <;> simp [disjunctionRule, hl] at hd
    | restrictions =>
      cases hl : (σ l .emptyValue).isSome <;> cases hr : (σ r .emptyValue).isSome <;>
        simp [disjunctionRule, hl, hr] at hd
    | conflicts =>
      cases hl : (σ l .emptyValue).isSome <;> simp [disjunctionRule, hl] at hd
  | sequence l r =>
    cases hq
    cases f with
    | first =>
      cases hl : (σ l .emptyValue).isSome <;> cases hr : σ r .productive <;> simp [sequenceRule, hl, hr] at hd
    | emptyValue => cases denote_emptyValue_sequence.symm.trans hd
    | productive => cases hl : σ l .productive <;> simp [sequenceRule, hl] at hd
    | restrictions =>
      cases hl : σ l .productive <;> cases hr : (σ r .emptyValue).isSome <;> simp [sequenceRule, hl, hr] at hd
    | conflicts => simp [sequenceRule] at hd
  | transform g n =>
    cases hq
    cases f with
    | first | productive | restrictions | conflicts => simp [transformRule] at hd
    | emptyValue =>
      refine ⟨rfl, g, n, rfl, fun htotal => ?_⟩
      cases hn : σ n .emptyValue with
      | none => simp [transformRule, hn] at hd
      | some v =>
        obtain ⟨w, hw⟩ := htotal v
        simp [transformRule, hn, hw] at hd

namespace Grammar.Store

/-- What can keep a fact of the grammar `r` from being told: a self-reference whose definition is gone, deferred
nodes that stand for each other in a circle, or a transformation that may give up. -/
inductive Obstacle [Ord K] (s : Store V K) (l : Liveness) (r : Ref) : Prop
  | gone : s.deref? l r = none → Obstacle s l r
  | dead {i j r'} : s.nodeOf? r = some i → Below s.productions i j → r' ∈ s.below j → s.deref? l r' = none →
      Obstacle s l r
  | circular {i j} : s.nodeOf? r = some i → Below s.productions i j →
      Relation.TransGen (Defers s.productions) j j → Obstacle s l r
  | fallible {i j g n} : s.nodeOf? r = some i → Below s.productions i j →
      s.productions j = some (.transform g n) → ¬g.IsTotal → Obstacle s l r

/-- The grammar `r` is not whole: a self-reference has lost its definition, or deferred nodes stand for each other in a
circle. -/
inductive Broken [Ord K] (s : Store V K) (l : Liveness) (r : Ref) : Prop
  | gone : s.deref? l r = none → Broken s l r
  | dead {i j r'} : s.nodeOf? r = some i → Below s.productions i j → r' ∈ s.below j → s.deref? l r' = none →
      Broken s l r
  | circular {i j} : s.nodeOf? r = some i → Below s.productions i j →
      Relation.TransGen (Defers s.productions) j j → Broken s l r

/-- A fact of the grammar `r` may not be told now: the grammar is not whole, or has a transformation that may give up, and
it is not settled what that makes of the empty value. -/
inductive Blocked [Kind K] (s : Store V K) (l : Liveness) (r : Ref) : Prop
  | broken : s.Broken l r → Blocked s l r
  | fallible {i j g n} : s.nodeOf? r = some i → Below s.productions i j → s.productions j = some (.transform g n) →
      ¬g.IsTotal → (Family.memo s.book.memos ⟨j, .emptyValue⟩).settled = false → Blocked s l r

variable [Value V] [Kind K] {s s' : Store V K} {i j : Nat} {f : FactName} {l : Liveness} {r : Ref}

omit [Value V] in
theorem Broken.obstacle (h : s.Broken l r) : s.Obstacle l r := by
  cases h with
  | gone h => exact .gone h
  | dead hr hb hr' hd => exact .dead hr hb hr' hd
  | circular hr hb hj => exact .circular hr hb hj

omit [Value V] in
theorem Blocked.obstacle (h : s.Blocked l r) : s.Obstacle l r := by
  cases h with
  | broken h => exact h.obstacle
  | fallible hr hb hp hg => exact .fallible hr hb hp hg

/-- If a node stands for nothing, a node that it is deferred to is deferred to itself. -/
theorem circular_of_resolve (h : s.whole.resolve i f = none) :
    ∃ j, Below s.productions i j ∧ Relation.TransGen (Defers s.productions) j j := by
  have hdefers : ∀ p q, s.whole.Leads f p q → Defers s.productions p q := fun _ _ ⟨_, hd⟩ => deferred_of_definition hd
  obtain ⟨j, hj, hjj⟩ := Family.circular_of_resolve (List.range s.nodes.size)
    (fun p q hpq => List.mem_range.2 (lt_of_production (hdefers p q hpq))) (by simp [whole, family]; omega) h
  exact ⟨j, below_of_stands (Relation.ReflTransGen.mono hdefers _ _ hj), Relation.TransGen.mono hdefers _ _ hjj⟩

/-- If all parts of a node are alive, its facts are defined as they should be. -/
theorem definition_of_alive (h : ∀ r ∈ s.below i, (s.deref? l r).isSome) :
    s.definition l i f = s.whole.definition i f := by
  have hpart : ∀ r ∈ s.below i, s.part l r = s.part everything r := by
    intro r hr
    obtain ⟨j, hj⟩ := Option.isSome_iff_exists.1 (h r hr)
    funext g
    simp only [part, hj, deref?_everything, nodeOf?_of_deref? hj]
  have hwhole : s.whole.definition i f = s.definition everything i f := rfl
  rw [hwhole, definition, definition]
  cases hn : s.nodes[i]? with
  | none => rfl
  | some shape =>
    simp only [below, hn] at hpart
    cases shape with
    | success v | element k => rfl
    | disjunction a b | sequence a b => simp only [hpart a (by simp), hpart b (by simp)]
    | transform g a => simp only [hpart a (by simp)]
    | deferred o target => cases target <;> rfl

/-- A rule that is stuck shows what stands in the way. -/
theorem blocked_of_stuck {c : Cell FactName} {e : Solver.Failure Fault} (hr : s.nodeOf? r = some i)
    (hc : Complete s.productions i) (hb : Below s.productions i c.place)
    (hunsettled : (Family.memo s.book.memos c).settled = false) (h : (s.family l).Stuck c e) : s.Blocked l r := by
  obtain ⟨p, hp⟩ := Option.isSome_iff_exists.1 (hc _ hb)
  cases h with
  | @circle q σ d hq hd hnone =>
    obtain ⟨q', hq', hqq⟩ := (s.family_refines l).rule hq
    have hread := (hqq σ).1 d hd
    rw [define_of_production hp] at hq'
    rw [Production.reads_of_rule hq'] at hread
    rw [(s.family_refines l).resolve] at hnone
    obtain ⟨j, hj, hjj⟩ := circular_of_resolve hnone
    exact .broken (.circular hr ((hb.trans (Below.part hp (Production.place_of_reads hread))).trans hj) hjj)
  | @rule q σ e' hq hd =>
    by_cases halive : ∀ r ∈ s.below c.place, (s.deref? l r).isSome
    · rw [show (s.family l).definition c.place c.fact = _ from definition_of_alive halive,
        define_of_production hp] at hq
      obtain ⟨hf, g, n, rfl, hg⟩ := Production.transform_of_error hq hd
      obtain ⟨j, f⟩ := c
      obtain rfl : f = .emptyValue := hf
      exact .fallible hr hb hp hg hunsettled
    · simp only [not_forall, Option.not_isSome_iff_eq_none] at halive
      obtain ⟨r', hr', hnone⟩ := halive
      exact .broken (.dead hr hb hr' hnone)

/-- What is remembered is as it should be. -/
def Remembers (s : Store V K) : Prop := s.Kept s.book.epoch s.book.memos

/-- The store `s'` has all that `s` has, and remembers what it should: what is settled in `s` as it is there. -/
structure Upholds (s s' : Store V K) : Prop extends s.Grows s' where
  valid : s'.Valid
  remembers : s'.Remembers
  clear : ∀ i, Complete s.productions i → s.Clear i s.book.memos → s'.Clear i s'.book.memos
  lasts : Family.Lasts s.book.memos s'.book.memos

theorem Upholds.refl (hv : s.Valid) (hm : s.Remembers) : s.Upholds s :=
  ⟨.refl s, hv, hm, fun _ _ h => h, .refl _⟩

theorem Upholds.trans {s'' : Store V K} (h : s.Upholds s') (h' : s'.Upholds s'') : s.Upholds s'' :=
  ⟨h.toGrows.trans h'.toGrows, h'.valid, h'.remembers,
    fun i hi hc => h'.clear i (hi.extend h.extends) (h.clear i hi hc), h.lasts.trans h'.lasts⟩

instance : IsTrans (Store V K) Upholds := ⟨fun _ _ _ => .trans⟩

theorem Evolves.upholds (h : s.Evolves s') (hm : s.Remembers) : s.Upholds s' := by
  refine ⟨h.toGrows, h.valid, ?_, fun i hi hc => ?_, ?_⟩
  · rw [Remembers, h.book]
    exact Kept.grow hm h.toGrows
  · rw [h.book]
    exact hc.grow hi h.toGrows
  · rw [h.book]
    exact .refl _

/-- The store `s'` differs from `s` only in what is remembered and recorded, and remembers what it should. -/
structure Learns (s s' : Store V K) : Prop where
  same : ∃ b es, s' = { s with book := b, events := es }
  remembers : s'.Remembers
  clear : ∀ i, s.Clear i s.book.memos → s'.Clear i s'.book.memos
  lasts : Family.Lasts s.book.memos s'.book.memos

theorem Learns.refl (hm : s.Remembers) : s.Learns s := ⟨⟨s.book, s.events, rfl⟩, hm, fun _ h => h, .refl _⟩

theorem Learns.trans {s'' : Store V K} (h : s.Learns s') (h' : s'.Learns s'') : s.Learns s'' := by
  obtain ⟨⟨b, es, rfl⟩, -, hc, hl⟩ := h
  obtain ⟨⟨b', es', rfl⟩, hm, hc', hl'⟩ := h'
  exact ⟨⟨b', es', rfl⟩, hm, fun i hi => hc' i (hc i hi), hl.trans hl'⟩

instance : IsTrans (Store V K) Learns := ⟨fun _ _ _ => .trans⟩

theorem Learns.of_kept {b : Solver.Book (FactName.Carrier V K)} (h : s.Kept b.epoch b.memos)
    (hc : ∀ i, s.Clear i s.book.memos → s.Clear i b.memos) (hl : Family.Lasts s.book.memos b.memos)
    (es : Array (Event K)) : s.Learns { s with book := b, events := es } :=
  ⟨⟨b, es, rfl⟩, h.grow ⟨fun _ _ hi => .inl hi, fun _ _ hk => hk⟩,
    fun i hi => ⟨(hc i hi).final, (hc i hi).exact⟩, hl⟩

theorem Learns.upholds (h : s.Learns s') (hv : s.Valid) : s.Upholds s' := by
  obtain ⟨⟨b, es, rfl⟩, hm, hc, hl⟩ := h
  exact ⟨⟨fun _ _ hi => .inl hi, fun _ _ hk => hk⟩, ⟨hv.parts, hv.knots, hv.names, hv.older⟩, hm, fun i _ => hc i, hl⟩

theorem Learns.productions (h : s.Learns s') : s'.productions = s.productions := by
  obtain ⟨⟨b, es, rfl⟩, -⟩ := h
  rfl

theorem Learns.obstacle (h : s.Learns s') (ho : s.Obstacle l r) : s'.Obstacle l r := by
  obtain ⟨⟨b, es, rfl⟩, -⟩ := h
  cases ho with
  | gone h => exact .gone h
  | dead hr hb hr' hd => exact .dead hr hb hr' hd
  | circular hr hb hj => exact .circular hr hb hj
  | fallible hr hb hp hg => exact .fallible hr hb hp hg

/-- What stands in the way has stood there before. -/
theorem Learns.blocked (h : s.Learns s') (hb : s'.Blocked l r) : s.Blocked l r := by
  obtain ⟨⟨b, es, rfl⟩, -, -, hl⟩ := h
  cases hb with
  | broken h =>
    cases h with
    | gone h => exact .broken (.gone h)
    | dead hr hb hr' hd => exact .broken (.dead hr hb hr' hd)
    | circular hr hb hj => exact .broken (.circular hr hb hj)
  | fallible hr hb hp hg hunsettled =>
    refine .fallible hr hb hp hg (Bool.eq_false_iff.2 fun hs => ?_)
    have hlater := (hl _ hs).1
    rw [hunsettled] at hlater
    cases hlater

theorem Learns.liveness (h : s.Learns s') (held : List Ref) : s'.liveness held = s.liveness held := by
  obtain ⟨⟨b, es, rfl⟩, -⟩ := h
  have hrelease : ∀ fuel pending n, ({ s with book := b, events := es } : Store V K).release fuel pending n =
      s.release fuel pending n := by
    intro fuel
    induction fuel with
    | zero => exact fun _ _ => rfl
    | succ fuel ih =>
      intro pending n
      cases pending with
      | nil => rfl
      | cons h pending => exact ih _ _
  have hholders : ({ s with book := b, events := es } : Store V K).holders held = s.holders held := hrelease _ _ _
  simp only [Store.liveness, hholders]

/-- A value that a reading of the fact `f` at `i` gives. -/
structure Reads (s : Store V K) (i : Nat) (f : FactName) (v : f.Carrier V K) : Prop where
  eq_value : v = s.whole.value s.book.memos i f
  final : s.whole.Final s.book.memos ⟨i, f⟩

theorem Learns.reads {v : f.Carrier V K} (h : s.Learns s') (hr : s.Reads i f v) : s'.Reads i f v := by
  obtain ⟨⟨b, es, rfl⟩, -, -, hl⟩ := h
  exact ⟨hr.eq_value.trans (hl.value hr.final).symm, hl.final hr.final⟩

/-- A reading gives the same value ever after. -/
theorem Upholds.reads {v : f.Carrier V K} (h : s.Upholds s') (hc : Complete s.productions i) (hr : s.Reads i f v) :
    s'.Reads i f v := by
  have hf : s.whole.Final s'.book.memos ⟨i, f⟩ := h.lasts.final hr.final
  refine ⟨?_, h.toGrows.final hc hf⟩
  rw [h.toGrows.value hc hf.1, hr.eq_value]
  exact (h.lasts.value hr.final).symm

theorem Reads.correct {v : f.Carrier V K} (h : s.Reads i f v) (hm : s.Remembers) : Correct s.productions i f v := by
  have hk : s.Kept s.book.epoch s.book.memos := hm
  rw [h.eq_value]
  exact hk.settled.correct hk.sound_value h.final

end Grammar.Store

namespace Grammar

open Store

variable [Value V] [Kind K] {s s' : Store V K} {i : Nat} {f : FactName} {l : Liveness} {r : Ref}

theorem settledFact_eq {r : Except (Solver.Failure Fault) (f.Carrier V K × Option (Solver.Effort FactName))}
    {b : Solver.Book (FactName.Carrier V K)} : (s.family l).get (passLimit s.nodes.size) i f s.book = (r, b) →
    settledFact l i f s =
      (match r with
        | .error e => throw (Fault.ofFailure e)
        | .ok (v, none) => pure v
        | .ok (v, some effort) => do
          record (pure (.settled effort.passes effort.rules))
          return v : Work V K (f.Carrier V K)) { s with book := b } := by
  intro h
  obtain ⟨rfl, rfl⟩ := Prod.mk.inj h
  rfl

/-- How the reading of a settled fact ends. -/
theorem settledFact_cases (s : Store V K) (l : Liveness) (i : Nat) (f : FactName) :
    let res := (s.family l).get (passLimit s.nodes.size) i f s.book
    (∃ v effort es, res.1 = .ok (v, effort) ∧ settledFact l i f s = .ok v { s with book := res.2, events := es }) ∨
      ∃ e, res.1 = .error e ∧ settledFact l i f s = .error (.ofFailure e) { s with book := res.2 } := by
  intro res
  rw [settledFact_eq (show (s.family l).get (passLimit s.nodes.size) i f s.book = (res.1, res.2) from rfl)]
  rcases hres : res.1 with e | ⟨v, _ | effort⟩
  · exact .inr ⟨e, rfl, rfl⟩
  · exact .inl ⟨v, none, s.events, rfl, rfl⟩
  · obtain ⟨es, hes⟩ := record_pure (.settled effort.passes effort.rules) { s with book := res.2 }
    refine .inl ⟨v, some effort, es, rfl, ?_⟩
    simp only [bind, EStateM.bind, hes]
    rfl

/-- Fewer passes than the bound change something, also as far as nodes are alive. -/
theorem not_restless_of_complete (hc : Complete s.productions i) (l : Liveness) {n : Nat}
    (hn : passBound s.nodes.size ≤ n) {P : Solver.Memos (FactName.Carrier V K) → Prop}
    (hP : ∀ m, P m → ∃ e, s.Kept e m) {root : Cell FactName} {m : Solver.Memos (FactName.Carrier V K)} :
    ¬(s.family l).Restless (fun c => Below s.productions i c.place) P n root m := fun h =>
  not_restless (fun _ hb => hc _ hb) hn (((s.family_refines l).restless h).mono hP)

/-- A reading that yields no value is blocked. -/
theorem blocked_of_get {i₀ : Nat} {e : Solver.Failure Fault} (hm : s.Remembers) (hc : Complete s.productions i)
    (h : ((s.family l).get (passLimit s.nodes.size) i f s.book).1 = .error e) (hr : s.nodeOf? r = some i₀)
    (hc₀ : Complete s.productions i₀) (hb : Below s.productions i₀ i) : s.Blocked l r := by
  have hp : ∀ q, (s.family l).resolve i f = some q → Below s.productions i q := fun q hq =>
    below_of_follow (f := f) (by rwa [(s.family_refines l).resolve] at hq)
  obtain ⟨-, -, herr⟩ := Family.get_spec (n := passLimit s.nodes.size) (f := f)
    (clear_invariant l hc s.book.memos) (family_within l hc) (family_bounded s l) hp ⟨hm, fun _ h => h, .refl _⟩
  rcases herr e h with ⟨-, hnone⟩ | ⟨c, n, m, hcb, ⟨-, -, hlasts⟩, hunsettled, hstuck⟩ | ⟨-, q, hrest⟩
  · rw [(s.family_refines l).resolve] at hnone
    obtain ⟨j, hj, hjj⟩ := circular_of_resolve hnone
    exact .broken (.circular hr (hb.trans hj) hjj)
  · refine blocked_of_stuck hr hc₀ (hb.trans hcb) (Bool.eq_false_iff.2 fun hs => ?_) hstuck
    rw [(hlasts c hs).1] at hunsettled
    cases hunsettled
  · exact absurd hrest (not_restless_of_complete hc l (passBound_le _) fun m ⟨e, h⟩ => ⟨e, h.1⟩)

/-- What is known of the reading from the passes it makes. -/
theorem get_family (hm : s.Remembers) (hc : Complete s.productions i) (l : Liveness) (f : FactName) :
    let res := (s.family l).get (passLimit s.nodes.size) i f s.book
    (s.Kept res.2.epoch res.2.memos ∧ (∀ i₀, s.Clear i₀ s.book.memos → s.Clear i₀ res.2.memos) ∧
      Family.Lasts s.book.memos res.2.memos) ∧
    (∀ v effort, res.1 = .ok (v, effort) → v = s.whole.value res.2.memos i f ∧ s.whole.Final res.2.memos ⟨i, f⟩) ∧
    ∀ e, res.1 = .error e → ∀ r i₀, s.nodeOf? r = some i₀ → Complete s.productions i₀ →
      Below s.productions i₀ i → s.Obstacle l r := by
  intro res
  have hp : ∀ q, (s.family l).resolve i f = some q → Below s.productions i q := fun q hq =>
    below_of_follow (f := f) (by rwa [(s.family_refines l).resolve] at hq)
  obtain ⟨hk, hok, -⟩ := Family.get_spec (n := passLimit s.nodes.size) (f := f)
    (clear_invariant l hc s.book.memos) (family_within l hc) (family_bounded s l) hp ⟨hm, fun _ h => h, .refl _⟩
  refine ⟨hk, fun v effort h => ?_, fun e h r i₀ hr hc₀ hb => (blocked_of_get hm hc h hr hc₀ hb).obstacle⟩
  obtain ⟨hv, hf⟩ := hok v effort h
  exact ⟨hv.trans ((s.family_refines l).value _ _ _), (s.family_refines l).final hf⟩

/-- A settled fact is read. -/
theorem settledFact_learns (hm : s.Remembers) (hc : Complete s.productions i) (l : Liveness) (f : FactName) :
    Leads Learns s (settledFact l i f) fun v s' => s'.Reads i f v := by
  obtain ⟨hk, hok, -⟩ := get_family hm hc l f
  rcases settledFact_cases s l i f with ⟨v, effort, es, hres, hs⟩ | ⟨e, hres, hs⟩
  · rw [Leads, hs]
    obtain ⟨hval, hfin⟩ := hok v effort hres
    exact ⟨.of_kept hk.1 hk.2.1 hk.2.2 es, hval, hfin⟩
  · rw [Leads, hs]
    exact .of_kept hk.1 hk.2.1 hk.2.2 s.events

/-- If a fact of a node below a realized grammar is not told, it is blocked. -/
theorem blocked_of_settledFact {i₀ : Nat} (hm : s.Remembers) (hr : s.nodeOf? r = some i₀)
    (hc : Complete s.productions i₀) (hb : Below s.productions i₀ i) :
    FailsOnly s (settledFact l i f) fun _ => s.Blocked l r := by
  intro e s' h
  rcases settledFact_cases s l i f with ⟨v, effort, es, hres, hs⟩ | ⟨e', hres, hs⟩
  · rw [hs] at h
    cases h
  · exact blocked_of_get hm (hc.below hb) hres hr hc hb

/-- A value that a reading of the fact `f` of the realized grammar `r` gives. -/
def Tells (r : Ref) (f : FactName) (v : f.Carrier V K) (s : Store V K) : Prop :=
  ∃ i, s.Realized r i ∧ s.Reads i f v

theorem fact_upholds (hv : s.Valid) (hm : s.Remembers) (held : List Ref) (f : FactName) (hr : s.HasRef r) :
    Leads Upholds s (fact held f r) (Tells r f) := by
  have hrealize := (realize_evolves hv held hr).mono (fun _ h => h.upholds hm) fun _ _ _ h => h
  refine hrealize.bind fun _ s₁ h₁ ⟨i, hi⟩ => ?_
  refine (deref_leads (.refl h₁.valid h₁.remembers) held r).bind fun j s₂ _ ⟨hs, hj⟩ => .get ?_
  subst hs
  obtain rfl : i = j := Option.some.inj (hi.1.symm.trans hj)
  refine (settledFact_learns h₁.remembers hi.2 _ f).mono (fun _ h => h.upholds h₁.valid) fun v s₃ h₃ hread => ?_
  have hg := (h₃.upholds h₁.valid).toGrows
  exact ⟨i, hi.grow hg, hread⟩

/-- A fact of a grammar that realizes is read off the node that the grammar leads to, if it still leads to one. -/
theorem fact_of_realized {s₁ : Store V K} {held : List Ref} (hg : realize held r s = .ok () s₁)
    (hi : s₁.nodeOf? r = some i) (f : FactName) :
    fact held f r s = settledFact (s₁.liveness (r :: held)) i f s₁ ∨
      s₁.deref? (s₁.liveness (r :: held)) r = none ∧ ∃ e, fact held f r s = .error e s₁ := by
  have hfact : fact held f r s = (deref held r >>= fun j => do settledFact (← getLiveness (r :: held)) j f) s₁ := by
    simp only [fact, bind, EStateM.bind, hg]
  cases hd : deref held r s₁ with
  | ok j s₂ =>
    obtain ⟨-, rfl, hj⟩ := (deref_leads (R := Eq) rfl held r).of_ok hd
    obtain rfl : i = j := Option.some.inj (hi.symm.trans hj)
    refine .inl (hfact.trans ?_)
    simp only [bind, EStateM.bind, hd]
    rfl
  | error e s₂ =>
    obtain ⟨rfl, hgone⟩ := deref_error hd
    refine .inr ⟨hgone, e, hfact.trans ?_⟩
    simp only [bind, EStateM.bind, hd]

/-- A fact that is told is read after the grammar has been realized. -/
theorem exists_realize_of_fact {held : List Ref} {v : f.Carrier V K} (hv : s.Valid) (hm : s.Remembers) (hr : s.HasRef r)
    (h : fact held f r s = .ok v s') : ∃ s₁, realize held r s = .ok () s₁ ∧ s₁.Learns s' := by
  cases hg : realize held r s with
  | error e s₁ =>
    simp only [fact, bind, EStateM.bind, hg] at h
    cases h
  | ok u s₁ =>
    obtain ⟨h₁, i, hi, hc⟩ := (realize_evolves hv held hr).of_ok hg
    refine ⟨s₁, rfl, ?_⟩
    rcases fact_of_realized hg hi f with hf | ⟨-, e, hf⟩
    · exact ((settledFact_learns (h₁.upholds hm).remembers hc _ f).of_ok (hf.symm.trans h)).1
    · cases hf.symm.trans h

/-- A fact of a grammar that realizes is told, unless it is blocked. -/
theorem blocked_of_fact {held : List Ref} {e : Fault} (hv : s.Valid) (hm : s.Remembers) (hr : s.HasRef r)
    (h : fact held f r s = .error e s') : realize held r s = .error e s' ∨
      ∃ s₁, realize held r s = .ok () s₁ ∧ s₁.Learns s' ∧ s₁.Blocked (s₁.liveness (r :: held)) r := by
  rcases bind_eq_error h with hg | ⟨_, s₁, hg, -⟩
  · exact .inl hg
  obtain ⟨h₁, i, hi, hc⟩ := (realize_evolves hv held hr).of_ok hg
  have hm₁ := (h₁.upholds hm).remembers
  refine .inr ⟨s₁, hg, ?_⟩
  rcases fact_of_realized hg hi f with hf | ⟨hgone, e', hf⟩
  · rw [hf] at h
    exact ⟨(settledFact_learns hm₁ hc _ f).of_error h, blocked_of_settledFact hm₁ hi hc .refl e s' h⟩
  · cases hf.symm.trans h
    exact ⟨.refl hm₁, .broken (.gone hgone)⟩

/-- A fact of a grammar that realizes is told, unless there is an obstacle. -/
theorem obstacle_of_fact {held : List Ref} {e : Fault} (hv : s.Valid) (hm : s.Remembers) (hr : s.HasRef r)
    (h : fact held f r s = .error e s') :
    realize held r s = .error e s' ∨ s'.Obstacle (s'.liveness (r :: held)) r := by
  refine (blocked_of_fact hv hm hr h).imp_right fun ⟨s₁, _, hl, hblocked⟩ => ?_
  rw [hl.liveness]
  exact hl.obstacle hblocked.obstacle

end Grammar
end Predictive
