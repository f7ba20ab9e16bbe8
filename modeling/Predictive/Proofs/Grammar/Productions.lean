import Predictive.Grammar.Facts
import Predictive.Proofs.Derivation
import Predictive.Proofs.FinSet
import Predictive.Proofs.Solver.Settling

/-! The productions of a store, and what the rules of the five facts compute from given values. -/
namespace Predictive

namespace Grammar

open Solver (Cell Query Family Memos)

variable {V K : Type}

namespace Store

variable [Ord K]

/-- What the nodes stand for. A node has no production while one of its parts or its target is missing. -/
def productions (s : Store V K) : Productions V K := fun i =>
  match s.nodes[i]? with
  | some (.success v) => some (.success v)
  | some (.element k) => some (.element k)
  | some (.disjunction a b) => (s.nodeOf? a).bind fun l => (s.nodeOf? b).map fun r => .disjunction l r
  | some (.sequence a b) => (s.nodeOf? a).bind fun l => (s.nodeOf? b).map fun r => .sequence l r
  | some (.transform f a) => (s.nodeOf? a).map fun j => .transform f j
  | some (.deferred _ (some t)) => (s.nodeOf? t).map fun j => .deferred j
  | some (.deferred _ none) | none => none

variable {s : Store V K} {i : Nat}

theorem lt_of_production {p : Production V K} (h : s.productions i = some p) : i < s.nodes.size := by
  by_contra hn
  simp [productions, Array.getElem?_eq_none (Nat.le_of_not_lt hn)] at h

theorem element_of_production {k : K} (h : s.productions i = some (.element k)) :
    s.nodes[i]? = some (.element k) := by
  simp only [productions] at h
  split at h
  all_goals simp_all [Option.bind_eq_some_iff]

theorem disjunction_of_production {l r : Nat} (h : s.productions i = some (.disjunction l r)) :
    ∃ a b, s.nodes[i]? = some (.disjunction a b) ∧ s.nodeOf? a = some l ∧ s.nodeOf? b = some r := by
  simp only [productions] at h
  split at h
  all_goals simp_all [Option.bind_eq_some_iff]

theorem sequence_of_production {l r : Nat} (h : s.productions i = some (.sequence l r)) :
    ∃ a b, s.nodes[i]? = some (.sequence a b) ∧ s.nodeOf? a = some l ∧ s.nodeOf? b = some r := by
  simp only [productions] at h
  split at h
  all_goals simp_all [Option.bind_eq_some_iff]

section Parts

variable {a b : Ref} {x y : Nat} {f : Transformation V} {o : Origin V K} {t : Option Ref}

theorem exists_nodes_disjunction (hn : s.nodes[i]? = some (Shape.disjunction a b)) (hi : (s.productions i).isSome) :
    ∃ x y, s.nodeOf? a = some x ∧ s.nodeOf? b = some y := by
  cases ha : s.nodeOf? a <;> cases hb : s.nodeOf? b <;> simp [productions, hn, ha, hb] at hi ⊢

theorem exists_nodes_sequence (hn : s.nodes[i]? = some (Shape.sequence a b)) (hi : (s.productions i).isSome) :
    ∃ x y, s.nodeOf? a = some x ∧ s.nodeOf? b = some y := by
  cases ha : s.nodeOf? a <;> cases hb : s.nodeOf? b <;> simp [productions, hn, ha, hb] at hi ⊢

theorem exists_node_transform (hn : s.nodes[i]? = some (Shape.transform f a)) (hi : (s.productions i).isSome) :
    ∃ x, s.nodeOf? a = some x ∧ s.productions i = some (.transform f x) := by
  cases ha : s.nodeOf? a <;> simp [productions, hn, ha] at hi ⊢

/-- A deferred node with a production is bound. -/
theorem exists_node_deferred (hn : s.nodes[i]? = some (Shape.deferred o t)) (hi : (s.productions i).isSome) :
    ∃ a x, t = some a ∧ s.nodeOf? a = some x ∧ s.productions i = some (.deferred x) := by
  cases t with
  | none => simp [productions, hn] at hi
  | some a => cases ha : s.nodeOf? a <;> simp [productions, hn, ha] at hi ⊢

theorem production_disjunction (hn : s.nodes[i]? = some (Shape.disjunction a b)) (ha : s.nodeOf? a = some x)
    (hb : s.nodeOf? b = some y) : s.productions i = some (.disjunction x y) := by
  simp [productions, hn, ha, hb]

theorem production_sequence (hn : s.nodes[i]? = some (Shape.sequence a b)) (ha : s.nodeOf? a = some x)
    (hb : s.nodeOf? b = some y) : s.productions i = some (.sequence x y) := by
  simp [productions, hn, ha, hb]

end Parts

end Store

section Valuations

variable [Kind K]

/-- Values for the facts of all nodes. -/
abbrev Valuation (V K : Type) [Ord K] := (i : Nat) → (f : FactName) → f.Carrier V K

def Part.of (j : Nat) : Part V K := fun f => .look j f

namespace Part

@[simp] theorem of_first (j : Nat) : (of j : Part V K).first = .look j FactName.first := rfl

@[simp] theorem of_emptyValue (j : Nat) : (of j : Part V K).emptyValue = .look j FactName.emptyValue := rfl

@[simp] theorem of_productive (j : Nat) : (of j : Part V K).productive = .look j FactName.productive := rfl

@[simp] theorem of_restrictions (j : Nat) : (of j : Part V K).restrictions = .look j FactName.restrictions := rfl

@[simp] theorem of_conflicts (j : Nat) : (of j : Part V K).conflicts = .look j FactName.conflicts := rfl

end Part

end Valuations

instance [Kind K] : (f : FactName) → LawfulFact (f.Carrier V K)
  | .first => inferInstanceAs (LawfulFact (FinSet K))
  | .emptyValue => inferInstanceAs (LawfulFact (Option V))
  | .productive => inferInstanceAs (LawfulFact Bool)
  | .restrictions => inferInstanceAs (LawfulFact (FinSet (Restriction K)))
  | .conflicts => inferInstanceAs (LawfulFact (FinSet (Conflict K)))

end Grammar

open Grammar
open Solver (Cell Query Family Memos)

variable {V K : Type} [Kind K]

namespace Production

/-- The cells that the rule of the fact `f` reads. -/
def reads (σ : Valuation V K) (f : FactName) : Production V K → List (Cell FactName)
  | disjunction l r =>
    match f with
    | .first => [⟨l, .first⟩, ⟨r, .first⟩]
    | .emptyValue => ⟨l, .emptyValue⟩ :: if (σ l .emptyValue).isSome then [] else [⟨r, .emptyValue⟩]
    | .productive => ⟨l, .productive⟩ :: if σ l .productive then [] else [⟨r, .productive⟩]
    | .restrictions =>
      [⟨l, .restrictions⟩, ⟨r, .restrictions⟩, ⟨l, .emptyValue⟩] ++
        (if (σ l .emptyValue).isSome then [⟨r, .first⟩] else []) ++
        ⟨r, .emptyValue⟩ :: if (σ r .emptyValue).isSome then [⟨l, .first⟩] else []
    | .conflicts =>
      [⟨l, .conflicts⟩, ⟨r, .conflicts⟩, ⟨l, .emptyValue⟩] ++
        (if (σ l .emptyValue).isSome then [⟨r, .emptyValue⟩] else []) ++ [⟨l, .first⟩, ⟨r, .first⟩]
  | sequence l r =>
    match f with
    | .first =>
      ⟨r, .productive⟩ :: (if σ r .productive then [⟨l, .first⟩] else []) ++
        ⟨l, .emptyValue⟩ :: if (σ l .emptyValue).isSome then [⟨r, .first⟩] else []
    | .emptyValue => ⟨l, .emptyValue⟩ :: if (σ l .emptyValue).isSome then [⟨r, .emptyValue⟩] else []
    | .productive => ⟨l, .productive⟩ :: if σ l .productive then [⟨r, .productive⟩] else []
    | .restrictions =>
      ⟨r, .emptyValue⟩ :: (if (σ r .emptyValue).isSome then [⟨l, .restrictions⟩] else []) ++
        ⟨l, .productive⟩ :: if σ l .productive then [⟨r, .restrictions⟩] else []
    | .conflicts => [⟨l, .conflicts⟩, ⟨r, .conflicts⟩, ⟨r, .first⟩, ⟨l, .restrictions⟩]
  | transform _ j => [⟨j, f⟩]
  | success _ | element _ | deferred _ => []

variable {p : Production V K} {i : Nat} {f : FactName} {σ : Valuation V K}

theorem reads_congr {σ' : Valuation V K} (h : ∀ j, (σ j .emptyValue).isSome = (σ' j .emptyValue).isSome)
    (h' : ∀ j, σ j .productive = σ' j .productive) (p : Production V K) (f : FactName) :
    p.reads σ f = p.reads σ' f := by
  cases p <;> cases f <;> simp [reads, h, h']

variable [Value V]

/-- How the facts of the node `i` are defined if it has the production `p`. -/
def define (i : Nat) (f : FactName) : Production V K → Solver.Definition (FactName.Carrier V K) Fault f
  | success v => .constant (successFact v f)
  | element k => .constant (elementFact k f)
  | disjunction l r => .rule (disjunctionRule i (.of l) (.of r) f)
  | sequence l r => .rule (sequenceRule i (.of l) (.of r) f)
  | transform g j => .rule (transformRule g (.of j) f)
  | deferred j => .deferred Fact.bottom (some j)

theorem reads_of_rule {q : NodeQuery V K (f.Carrier V K)} (hq : p.define i f = .rule q) :
    q.reads σ = p.reads σ f := by
  cases p with
  | success v => cases hq
  | element k => cases hq
  | deferred j => cases hq
  | disjunction l r =>
    cases hq
    cases f with
    | first => rfl
    | emptyValue =>
      cases h : σ l .emptyValue <;>
        simp [reads, disjunctionRule, h]
    | productive =>
      cases h : σ l .productive <;>
        simp [reads, disjunctionRule, h]
    | restrictions =>
      cases h : (σ l .emptyValue).isSome <;> cases h' : (σ r .emptyValue).isSome <;>
        simp [reads, disjunctionRule, h, h']
    | conflicts =>
      cases h : (σ l .emptyValue).isSome <;>
        simp [reads, disjunctionRule, h]
  | sequence l r =>
    cases hq
    cases f with
    | first =>
      cases h : σ r .productive <;> cases h' : (σ l .emptyValue).isSome <;>
        simp [reads, sequenceRule, h, h']
    | emptyValue =>
      cases h : σ l .emptyValue <;> cases h' : σ r .emptyValue <;>
        simp [reads, sequenceRule, h, h']
    | productive =>
      cases h : σ l .productive <;>
        simp [reads, sequenceRule, h]
    | restrictions =>
      cases h : (σ r .emptyValue).isSome <;> cases h' : σ l .productive <;>
        simp [reads, sequenceRule, h, h']
    | conflicts => rfl
  | transform g j =>
    cases hq
    cases f with
    | emptyValue =>
      cases h : σ j .emptyValue with
      | none => simp [reads, transformRule, h]
      | some v =>
        cases h' : g.apply v <;>
          simp [reads, transformRule, h, h']
    | first | productive | restrictions | conflicts => rfl

end Production

/-- The fact that tells whether a node has the trait. -/
abbrev Trait.fact : Trait K → FactName
  | startsWith _ => .first
  | nullable => .emptyValue
  | productive => .productive

/-- What the fact has to be for that. -/
def Trait.In : (t : Trait K) → t.fact.Carrier V K → Prop
  | startsWith k, s => k ∈ (s : FinSet K)
  | nullable, v => Option.isSome (α := V) v = true
  | productive, b => b = true

/-- The traits that the values `σ` ascribe to a node. -/
def Ascribed (σ : Valuation V K) (j : Nat) (t : Trait K) : Prop := t.In (σ j t.fact)

section Traits

variable {p : Production V K} {i j : Nat} {σ σ' : Valuation V K} {t : Trait K}

@[simp] theorem ascribed_startsWith {k : K} : Ascribed σ j (.startsWith k) ↔ k ∈ σ j .first := Iff.rfl

@[simp] theorem ascribed_nullable : Ascribed σ j .nullable ↔ (σ j .emptyValue).isSome = true := Iff.rfl

@[simp] theorem ascribed_productive : Ascribed σ j .productive ↔ σ j .productive = true := Iff.rfl

theorem Trait.in_congr {v w : t.fact.Carrier V K} (h : Fact.agrees v w = true) : t.In v ↔ t.In w := by
  cases t with
  | startsWith k =>
    obtain rfl : (v : FinSet K) = w := beq_iff_eq.1 h
    exact Iff.rfl
  | nullable =>
    have : Option.isSome (α := V) v = Option.isSome (α := V) w := beq_iff_eq.1 h
    simp only [In, this]
  | productive =>
    obtain rfl : (v : Bool) = w := beq_iff_eq.1 h
    exact Iff.rfl

theorem Trait.not_in_bottom : ¬t.In (Fact.bottom : t.fact.Carrier V K) := by
  cases t with
  | startsWith k => exact FinSet.not_mem_empty
  | nullable => exact Bool.false_ne_true
  | productive => exact Bool.false_ne_true

section EmptyValues

variable {l r : Nat} {g : Transformation V} {v : Option V}

/-- The empty value of a choice is that of its left side, if there is one. -/
theorem denote_emptyValue_disjunction : (disjunctionRule i (.of l) (.of r) .emptyValue).denote σ =
    .ok (Option.or (σ l .emptyValue) (σ r .emptyValue)) := by
  simp only [disjunctionRule, Part.of_emptyValue, Query.look_bind, Query.denote_read]
  cases σ l .emptyValue with
  | none => simp
  | some a => rfl

theorem denote_emptyValue_sequence [Value V] : (sequenceRule i (.of l) (.of r) .emptyValue).denote σ =
    .ok (Option.bind (σ l .emptyValue) fun a => Option.map (prepend a) (σ r .emptyValue)) := by
  simp only [sequenceRule, Part.of_emptyValue, Query.look_bind, Query.denote_read]
  cases σ l .emptyValue with
  | none => rfl
  | some a =>
    simp only [Query.denote_read]
    cases σ r .emptyValue <;> rfl

/-- The rule of a transformation has no value if it fails on the empty value. -/
theorem denote_emptyValue_transform {j : Nat} : (transformRule g (.of j) .emptyValue).denote σ = .ok v ↔
    σ j .emptyValue = none ∧ v = none ∨ ∃ a b, σ j .emptyValue = some a ∧ g.apply a = .ok b ∧ v = some b := by
  simp only [transformRule, Part.of_emptyValue, Query.look_bind, Query.denote_read]
  cases σ j .emptyValue with
  | none => simp [eq_comm]
  | some a => cases hg : g.apply a <;> simp [hg, eq_comm]

end EmptyValues

section Rules

variable {l r : Nat} {g : Transformation V} {v : t.fact.Carrier V K}

/-- The rules of a choice give the traits that it has by those of its sides. -/
theorem gives_of_disjunctionRule (hd : (disjunctionRule i (.of l) (.of r) t.fact).denote σ = .ok v) :
    t.In v ↔ (Production.disjunction l r : Production V K).Gives (Ascribed σ) t := by
  cases t with
  | startsWith k =>
    cases hd
    exact FinSet.mem_union
  | nullable =>
    obtain rfl := Except.ok.inj (denote_emptyValue_disjunction.symm.trans hd)
    simp [Trait.In, Production.Gives]
  | productive =>
    cases hl : σ l .productive <;>
    · simp [Trait.fact, disjunctionRule, hl] at hd
      simp [Trait.In, Production.Gives, hl, ← hd]

theorem gives_of_sequenceRule [Value V] (hd : (sequenceRule i (.of l) (.of r) t.fact).denote σ = .ok v) :
    t.In v ↔ (Production.sequence l r : Production V K).Gives (Ascribed σ) t := by
  cases t with
  | startsWith k =>
    cases hr : σ r .productive <;> cases hl : (σ l .emptyValue).isSome <;>
    · simp [Trait.fact, sequenceRule, hr, hl] at hd
      simp [Trait.In, Production.Gives, hr, hl, ← hd]
  | nullable =>
    obtain rfl := Except.ok.inj (denote_emptyValue_sequence.symm.trans hd)
    cases hl : σ l .emptyValue <;> simp [Trait.In, Production.Gives, hl]
  | productive =>
    cases hl : σ l .productive <;>
    · simp [Trait.fact, sequenceRule, hl] at hd
      subst hd
      simp [Trait.In, Production.Gives, hl]

theorem gives_of_transformRule {j : Nat} (hd : (transformRule g (.of j) t.fact).denote σ = .ok v) :
    t.In v ↔ (Production.transform g j : Production V K).Gives (Ascribed σ) t := by
  cases t with
  | startsWith k | productive =>
    cases hd
    exact Iff.rfl
  | nullable =>
    rcases denote_emptyValue_transform.1 hd with ⟨hj, rfl⟩ | ⟨a, b, hj, -, rfl⟩ <;>
      simp [Trait.In, Production.Gives, hj]

end Rules

variable [Value V]

/-- A rule gives a node the traits that it should, by those of the parts. -/
theorem gives_of_rule {q : NodeQuery V K (t.fact.Carrier V K)} {v : t.fact.Carrier V K}
    (hq : p.define i t.fact = .rule q) (hd : q.denote σ = .ok v) : t.In v ↔ p.Gives (Ascribed σ) t := by
  cases p with
  | success | element | deferred => cases hq
  | disjunction l r =>
    cases hq
    exact gives_of_disjunctionRule hd
  | sequence l r =>
    cases hq
    exact gives_of_sequenceRule hd
  | transform g j =>
    cases hq
    exact gives_of_transformRule hd

theorem gives_of_constant {v : t.fact.Carrier V K} {has : Nat → Trait K → Prop}
    (hc : p.define i t.fact = .constant v) : t.In v ↔ p.Gives has t := by
  cases p <;> cases t <;> cases hc <;>
    simp [Trait.In, Production.Gives, successFact, elementFact, Trait.fact]

/-- The traits of the parts that matter are read. -/
theorem gives_of_reads {has : Nat → Trait K → Prop} (hp : p.Gives has t)
    (h : ∀ j u, has j u → (⟨j, u.fact⟩ : Cell FactName) ∈ p.reads σ t.fact → Ascribed σ j u)
    (hr : ∃ q, p.define i t.fact = .rule q) : p.Gives (Ascribed σ) t := by
  cases p with
  | success v => cases t <;> exact hp
  | element k => cases t <;> exact hp
  | deferred j =>
    obtain ⟨q, hq⟩ := hr
    cases hq
  | disjunction l r =>
    cases t with
    | startsWith k =>
      exact hp.imp (fun hl => h l _ hl (by simp [Production.reads])) fun hr => h r _ hr (by simp [Production.reads])
    | nullable =>
      refine hp.elim (fun hl => .inl (h l _ hl (by simp [Production.reads]))) fun hr => ?_
      by_cases hl : (σ l .emptyValue).isSome = true
      · exact .inl hl
      · exact .inr (h r _ hr (by simp [Production.reads, hl]))
    | productive =>
      refine hp.elim (fun hl => .inl (h l _ hl (by simp [Production.reads]))) fun hr => ?_
      by_cases hl : σ l .productive = true
      · exact .inl hl
      · exact .inr (h r _ hr (by simp [Production.reads, hl]))
  | sequence l r =>
    cases t with
    | startsWith k =>
      refine hp.imp (fun ⟨hr, hl⟩ => ?_) fun ⟨hl, hr⟩ => ?_
      · have hr' := h r _ hr (by simp [Production.reads])
        rw [ascribed_productive] at hr'
        exact ⟨hr', h l _ hl (by simp [Production.reads, hr'])⟩
      · have hl' := h l _ hl (by simp [Production.reads])
        rw [ascribed_nullable] at hl'
        exact ⟨hl', h r _ hr (by simp [Production.reads, hl'])⟩
    | nullable =>
      have hl := h l _ hp.1 (by simp [Production.reads])
      rw [ascribed_nullable] at hl
      exact ⟨hl, h r _ hp.2 (by simp [Production.reads, hl])⟩
    | productive =>
      have hl := h l _ hp.1 (by simp [Production.reads])
      rw [ascribed_productive] at hl
      exact ⟨hl, h r _ hp.2 (by simp [Production.reads, hl])⟩
  | transform g j =>
    cases t <;> exact h j _ hp (by simp [Production.reads])

end Traits

/-! Restrictions and conflicts: what a rule adds of its own, and what it passes on. -/

namespace Production

variable {i : Nat} {σ σ' : Valuation V K}

/-- The parts whose restrictions hold for the whole. -/
def passing (σ : Valuation V K) : Production V K → List Nat
  | disjunction l r => [l, r]
  | sequence l r =>
    (if (σ r .emptyValue).isSome then [l] else []) ++ if σ l .productive then [r] else []
  | transform _ j => [j]
  | success _ | element _ | deferred _ => []

/-- The restrictions that come from the node `i` itself. -/
def Restricting (i : Nat) (σ : Valuation V K) : Production V K → Restriction K → Prop
  | disjunction l r, e =>
    ((σ l .emptyValue).isSome = true ∧ e = ⟨i, σ r .first⟩) ∨ ((σ r .emptyValue).isSome = true ∧ e = ⟨i, σ l .first⟩)
  | _, _ => False

/-- The conflicts that come from the node `i` itself. -/
def Clashing (i : Nat) (σ : Valuation V K) : Production V K → Conflict K → Prop
  | disjunction l r, e =>
    ((σ l .emptyValue).isSome = true ∧ (σ r .emptyValue).isSome = true ∧ e = .bothAcceptEmpty i) ∨
      ((σ l .first ∩ σ r .first : FinSet K).isEmpty = false ∧ e = .firstFirstClash i (σ l .first ∩ σ r .first))
  | sequence l r, e =>
    ∃ a : Restriction K, a ∈ σ l .restrictions ∧ (a.disallowed ∩ σ r .first : FinSet K).isEmpty = false ∧
      e = .followClash a.origin i (a.disallowed ∩ σ r .first)
  | _, _ => False

variable {p : Production V K}

theorem place_of_reads {r : Cell FactName} {f : FactName} (h : r ∈ p.reads σ f) : r.place ∈ p.parts := by
  cases p with
  | success v | element k | deferred j => cases h
  | transform g j =>
    obtain rfl := List.mem_singleton.1 h
    simp [parts]
  | disjunction l r | sequence l r =>
    cases f <;> simp only [reads, List.cons_append, List.nil_append, List.mem_cons, List.mem_append,
      List.not_mem_nil, or_false] at h <;> grind [parts]

theorem mem_reads_restrictions {j : Nat} :
    (⟨j, .restrictions⟩ : Cell FactName) ∈ p.reads σ .restrictions ↔ j ∈ p.passing σ := by
  cases p with
  | success v | element k | deferred j' => simp [reads, passing]
  | transform g j' => simp [reads, passing]
  | disjunction l r =>
    cases hl : (σ l .emptyValue).isSome <;> cases hr : (σ r .emptyValue).isSome <;> simp [reads, passing, hl, hr]
  | sequence l r =>
    cases hl : σ l .productive <;> cases hr : (σ r .emptyValue).isSome <;> simp [reads, passing, hl, hr]

variable [Value V]

theorem mem_restrictions {q : NodeQuery V K (FinSet (Restriction K))} {v : FinSet (Restriction K)}
    {e : Restriction K} (hq : p.define i .restrictions = .rule q) (hd : q.denote σ = .ok v) :
    e ∈ v ↔ p.Restricting i σ e ∨ ∃ j ∈ p.passing σ, e ∈ (σ j .restrictions : FinSet (Restriction K)) := by
  cases p with
  | success v => cases hq
  | element k => cases hq
  | deferred j => cases hq
  | disjunction l r =>
    cases hq
    cases hl : (σ l .emptyValue).isSome <;> cases hr : (σ r .emptyValue).isSome <;>
    · simp [disjunctionRule, hl, hr] at hd
      subst hd
      simp [Restricting, passing, hl, hr]
      try tauto
  | sequence l r =>
    cases hq
    cases hl : σ l .productive <;> cases hr : (σ r .emptyValue).isSome <;>
    · simp [sequenceRule, hl, hr] at hd
      subst hd
      simp [Restricting, passing, hl, hr]
  | transform g j =>
    cases hq
    cases hd
    simp [Restricting, passing]

theorem mem_conflicts {q : NodeQuery V K (FinSet (Conflict K))} {v : FinSet (Conflict K)}
    {e : Conflict K} (hq : p.define i .conflicts = .rule q) (hd : q.denote σ = .ok v) :
    e ∈ v ↔ p.Clashing i σ e ∨ ∃ j ∈ p.parts, e ∈ (σ j .conflicts : FinSet (Conflict K)) := by
  cases p with
  | success v => cases hq
  | element k => cases hq
  | deferred j => cases hq
  | disjunction l r =>
    cases hq
    cases hl : (σ l .emptyValue).isSome <;> cases hr : (σ r .emptyValue).isSome <;>
      cases hs : (σ l .first ∩ σ r .first : FinSet K).isEmpty <;>
    · simp [disjunctionRule, hl, hr, hs] at hd
      subst hd
      simp [Clashing, parts, hl, hr, hs]
      try tauto
  | sequence l r =>
    cases hq
    simp [sequenceRule] at hd
    subst hd
    simp only [FinSet.mem_union, FinSet.mem_ofList, List.mem_filterMap, Clashing, parts, List.mem_cons,
      List.not_mem_nil, or_false, exists_eq_or_imp, exists_eq_left]
    rw [or_comm]
    refine or_congr_left (exists_congr fun a => and_congr_right fun _ => ?_)
    cases (a.disallowed ∩ σ r .first : FinSet K).isEmpty <;> simp [eq_comm]
  | transform g j =>
    cases hq
    cases hd
    simp [Clashing, parts]

theorem mem_reads_conflicts {j : Nat} (hr : ∃ q, p.define i .conflicts = .rule q) :
    (⟨j, .conflicts⟩ : Cell FactName) ∈ p.reads σ .conflicts ↔ j ∈ p.parts := by
  cases p with
  | success v | element k => simp [reads, parts]
  | deferred j' =>
    obtain ⟨q, hq⟩ := hr
    cases hq
  | transform g j' => simp [reads, parts]
  | disjunction l r => cases hl : (σ l .emptyValue).isSome <;> simp [reads, parts, hl]
  | sequence l r => simp [reads, parts]

end Production

namespace Grammar

section Refinement

variable {l l' r r' : Part V K} {f : FactName}

theorem transformRule_refines (g : Transformation V) (hl : ∀ f, (l f).Refines (l' f)) :
    (transformRule g l f).Refines (transformRule g l' f) := by
  cases f with
  | emptyValue => exact .bind (hl _) fun v => .refl _
  | first | productive | restrictions | conflicts => exact hl _

theorem disjunctionRule_refines (i : Nat) (hl : ∀ f, (l f).Refines (l' f)) (hr : ∀ f, (r f).Refines (r' f)) :
    (disjunctionRule i l r f).Refines (disjunctionRule i l' r' f) := by
  cases f with
  | first => exact .bind (hl _) fun _ => .bind (hr _) fun _ => .refl _
  | emptyValue =>
    refine .bind (hl _) fun v => ?_
    cases v with
    | none => exact hr _
    | some v => exact .refl _
  | productive =>
    refine .bind (hl _) fun b => ?_
    cases b with
    | false => exact hr _
    | true => exact .refl _
  | restrictions =>
    refine .bind (hl _) fun _ => .bind (hr _) fun _ => .bind (hl _) fun v => ?_
    have rest : ∀ below : FinSet (Restriction K), Query.Refines
        (do if (← r.emptyValue).isSome then return FinSet.insert ⟨i, ← l.first⟩ below else return below)
        (do if (← r'.emptyValue).isSome then return FinSet.insert ⟨i, ← l'.first⟩ below else return below) := by
      refine fun below => .bind (hr _) fun w => ?_
      split
      · exact .bind (hl _) fun _ => .refl _
      · exact .refl _
    dsimp only
    split
    · exact .bind (hr _) fun _ => rest _
    · exact rest _
  | conflicts =>
    refine .bind (hl _) fun _ => .bind (hr _) fun _ => .bind (hl _) fun v => ?_
    dsimp only
    split
    · exact .bind (hr _) fun _ => .bind (.refl _) fun _ => .bind (hl _) fun _ => .bind (hr _) fun _ => .refl _
    · exact .bind (.refl _) fun _ => .bind (hl _) fun _ => .bind (hr _) fun _ => .refl _

variable [Value V]

theorem sequenceRule_refines (i : Nat) (hl : ∀ f, (l f).Refines (l' f)) (hr : ∀ f, (r f).Refines (r' f)) :
    (sequenceRule i l r f).Refines (sequenceRule i l' r' f) := by
  cases f with
  | first =>
    have rest : ∀ kinds : FinSet K, Query.Refines
        (do if (← l.emptyValue).isSome then return kinds ∪ (← r.first) else return kinds)
        (do if (← l'.emptyValue).isSome then return kinds ∪ (← r'.first) else return kinds) := by
      refine fun kinds => .bind (hl _) fun v => ?_
      split
      · exact .bind (hr _) fun _ => .refl _
      · exact .refl _
    refine .bind (hr _) fun b => ?_
    dsimp only
    split
    · exact .bind (hl _) fun _ => rest _
    · exact rest _
  | emptyValue =>
    refine .bind (hl _) fun v => ?_
    cases v with
    | none => exact .refl _
    | some v => exact .bind (hr _) fun _ => .refl _
  | productive =>
    refine .bind (hl _) fun b => ?_
    cases b with
    | false => exact .refl _
    | true => exact hr _
  | restrictions =>
    have rest : ∀ below : FinSet (Restriction K), Query.Refines
        (do if ← l.productive then return below ∪ (← r.restrictions) else return below)
        (do if ← l'.productive then return below ∪ (← r'.restrictions) else return below) := by
      refine fun below => .bind (hl _) fun b => ?_
      split
      · exact .bind (hr _) fun _ => .refl _
      · exact .refl _
    refine .bind (hr _) fun v => ?_
    dsimp only
    split
    · exact .bind (hl _) fun _ => rest _
    · exact rest _
  | conflicts =>
    exact .bind (hl _) fun _ => .bind (hr _) fun _ => .bind (hr _) fun _ => .bind (hl _) fun _ => .refl _

end Refinement

namespace Store

variable {s : Store V K} {i : Nat} {f : FactName}

/-- Everything counts as alive. -/
def everything : Liveness := ⟨fun _ => true⟩

theorem deref?_everything (s : Store V K) (r : Ref) : s.deref? everything r = s.nodeOf? r := by
  cases r with
  | node j => rfl
  | self k => cases hk : s.nodeOf? (.self k) <;> simp [deref?, everything, hk, Option.filter]

theorem part_refines (s : Store V K) (l : Liveness) (r : Ref) (f : FactName) :
    (s.part l r f).Refines (s.part everything r f) := by
  cases r with
  | node j => exact .refl _
  | self k =>
    cases hk : s.nodeOf? (.self k) with
    | none => simp [part, deref?, hk, Query.Refines.refl]
    | some j =>
      cases ha : l.isAlive j with
      | true => simp [part, deref?, hk, ha, everything, Query.Refines.refl, Option.filter]
      | false => simp [part, deref?, hk, ha, everything, Query.fail_refines, Option.filter]

theorem part_of_node {r : Ref} {j : Nat} (h : s.nodeOf? r = some j) : s.part everything r = .of j := by
  funext f
  simp [part, deref?_everything, h, Part.of]

variable [Value V]

/-- The facts of all nodes, as they are while no self-reference is dead. -/
def whole (s : Store V K) : Family (FactName.Carrier V K) Fault := s.family everything

theorem family_refines (s : Store V K) (l : Liveness) : (s.family l).Refines s.whole := by
  refine ⟨rfl, fun i f => ?_⟩
  simp only [whole, family, definition]
  cases s.nodes[i]? with
  | none => exact .inl rfl
  | some shape =>
    cases shape with
    | success v => exact .inl rfl
    | element k => exact .inl rfl
    | disjunction a b =>
      exact .inr ⟨_, _, rfl, rfl, disjunctionRule_refines i (s.part_refines l a) (s.part_refines l b)⟩
    | sequence a b =>
      exact .inr ⟨_, _, rfl, rfl, sequenceRule_refines i (s.part_refines l a) (s.part_refines l b)⟩
    | transform g a => exact .inr ⟨_, _, rfl, rfl, transformRule_refines g (s.part_refines l a)⟩
    | deferred origin target => cases target <;> exact .inl rfl

theorem define_of_production {p : Production V K} (h : s.productions i = some p) :
    s.whole.definition i f = p.define i f := by
  simp only [whole, family, definition, productions] at h ⊢
  cases hn : s.nodes[i]? with
  | none => simp [hn] at h
  | some shape =>
    simp only [hn] at h ⊢
    cases shape with
    | success v => cases h; rfl
    | element k => cases h; rfl
    | disjunction a b =>
      simp only [Option.bind_eq_some_iff, Option.map_eq_some_iff] at h
      obtain ⟨l, hl, r, hr, rfl⟩ := h
      simp only [part_of_node hl, part_of_node hr, Production.define]
    | sequence a b =>
      simp only [Option.bind_eq_some_iff, Option.map_eq_some_iff] at h
      obtain ⟨l, hl, r, hr, rfl⟩ := h
      simp only [part_of_node hl, part_of_node hr, Production.define]
    | transform g a =>
      simp only [Option.map_eq_some_iff] at h
      obtain ⟨j, hj, rfl⟩ := h
      simp only [part_of_node hj, Production.define]
    | deferred origin target =>
      cases target with
      | none => cases h
      | some t =>
        simp only [Option.map_eq_some_iff] at h
        obtain ⟨j, hj, rfl⟩ := h
        simp only [hj, Production.define]

end Store
end Grammar

end Predictive
