import Mathlib.Tactic.Linarith
import Mathlib.Tactic.Ring
import Predictive.Proofs.Grammar.Potential
import Predictive.Proofs.Rounds

/-!
Why readings end. While nothing more is known of the traits, the same rules are computed in each pass, and the
sets of restrictions are only passed on, as in rounds; once they are still, so are the sets of conflicts.
-/
namespace Predictive.Grammar

open Solver (Cell Query Family Memos Memo)

variable {V K : Type} [Kind K]

/-- Facts are computed from facts of their own level and of those below. -/
def FactName.level : FactName → Nat
  | .first | .emptyValue | .productive => 0
  | .restrictions => 1
  | .conflicts => 2

/-- The values say the same of all facts below the level `n`. -/
def AgreeBelow (n : Nat) (σ σ' : Valuation V K) : Prop :=
  ∀ j (f : FactName), f.level < n → Fact.agrees (σ j f) (σ' j f) = true

theorem level_of_reads {p : Production V K} {σ : Valuation V K} {f : FactName} {r : Cell FactName}
    (h : r ∈ p.reads σ f) : r.fact.level ≤ f.level := by
  cases p with
  | success v | element k | deferred j => cases h
  | transform g j =>
    obtain rfl := List.mem_singleton.1 h
    exact le_rfl
  | disjunction l r' | sequence l r' =>
    cases f <;> simp only [Production.reads, List.cons_append, List.nil_append, List.mem_cons, List.mem_append,
      List.not_mem_nil, or_false] at h <;> grind [FactName.level]

theorem AgreeBelow.reads {n : Nat} {σ σ' : Valuation V K} (h : AgreeBelow n σ σ') (hn : 0 < n)
    (p : Production V K) (f : FactName) : p.reads σ f = p.reads σ' f :=
  Production.reads_congr (fun j => beq_iff_eq.1 (h j .emptyValue hn)) (fun j => beq_iff_eq.1 (h j .productive hn)) p f

theorem AgreeBelow.first {n : Nat} {σ σ' : Valuation V K} (h : AgreeBelow n σ σ') (hn : 0 < n) (j : Nat) :
    (σ j .first : FinSet K) = σ' j .first := beq_iff_eq.1 (h j .first hn)

theorem AgreeBelow.isSome {n : Nat} {σ σ' : Valuation V K} (h : AgreeBelow n σ σ') (hn : 0 < n) (j : Nat) :
    (σ j .emptyValue).isSome = (σ' j .emptyValue).isSome := beq_iff_eq.1 (h j .emptyValue hn)

theorem AgreeBelow.restrictions {σ σ' : Valuation V K} (h : AgreeBelow 2 σ σ') (j : Nat) :
    (σ j .restrictions : FinSet (Restriction K)) = σ' j .restrictions :=
  beq_iff_eq.1 (h j .restrictions Nat.one_lt_two)

theorem agrees_of_knows {m m' : Memos (FactName.Carrier V K)} (h : ∀ j t, Store.Knows m j t ↔ Store.Knows m' j t)
    {c : Cell FactName} (hc : c.fact.level < 1) :
    Fact.agrees (Family.memo m c).value (Family.memo m' c).value = true := by
  obtain ⟨j, f⟩ := c
  cases f with
  | first => exact beq_iff_eq.2 (FinSet.ext (α := K) fun k => h j (.startsWith k))
  | emptyValue => exact beq_iff_eq.2 (Bool.eq_iff_iff.2 (h j .nullable))
  | productive => exact beq_iff_eq.2 (Bool.eq_iff_iff.2 (h j .productive))
  | restrictions | conflicts => simp [FactName.level] at hc

/-- A fact whose values are sets, to which a node adds items of its own while it passes on those of its parts. -/
structure Gathering (V K : Type) [Value V] [Kind K] (f : FactName) where
  Item : Type
  In : Item → f.Carrier V K → Prop
  own : Production V K → Nat → Valuation V K → Item → Prop
  rule : ∀ {p : Production V K} {i σ q v x}, p.define i f = .rule q → q.denote σ = .ok v →
    (In x v ↔ own p i σ x ∨ ∃ j, ⟨j, f⟩ ∈ p.reads σ f ∧ In x (σ j f))
  own_congr : ∀ {p : Production V K} {i σ σ' x}, AgreeBelow f.level σ σ' → (own p i σ x ↔ own p i σ' x)
  agrees : ∀ {v w : f.Carrier V K}, (∀ x, In x v ↔ In x w) → Fact.agrees v w = true

variable [Value V]

def Gathering.restrictions : Gathering V K .restrictions where
  Item := Restriction K
  In e s := e ∈ (s : FinSet (Restriction K))
  own p i σ e := p.Restricting i σ e
  rule hq hd := by
    rw [Production.mem_restrictions hq hd]
    exact or_congr_right (exists_congr fun j => and_congr_left fun _ => Production.mem_reads_restrictions.symm)
  own_congr {p i σ σ' x} h := by
    have h0 : 0 < FactName.restrictions.level := Nat.zero_lt_one
    cases p <;> simp only [Production.Restricting, h.first h0, h.isSome h0]
  agrees h := beq_iff_eq.2 (FinSet.ext h)

def Gathering.conflicts : Gathering V K .conflicts where
  Item := Conflict K
  In e s := e ∈ (s : FinSet (Conflict K))
  own p i σ e := p.Clashing i σ e
  rule hq hd := by
    rw [Production.mem_conflicts hq hd]
    exact or_congr_right (exists_congr fun j => and_congr_left fun _ =>
      (Production.mem_reads_conflicts ⟨_, hq⟩).symm)
  own_congr {p i σ σ' x} h := by
    have h0 : 0 < FactName.conflicts.level := Nat.zero_lt_two
    cases p <;> simp only [Production.Clashing, h.first h0, h.isSome h0, h.restrictions]
  agrees h := beq_iff_eq.2 (FinSet.ext h)

/-- The items that the node `j` has of its own or reads from constants. -/
def Gathering.Own {f : FactName} (G : Gathering V K f) (s : Store V K) (m : Memos (FactName.Carrier V K)) (j : Nat)
    (x : G.Item) : Prop :=
  ∃ p, s.productions j = some p ∧ (G.own p j (s.whole.value m) x ∨
    ∃ j', ⟨j', f⟩ ∈ p.reads (s.whole.value m) f ∧ s.whole.source? ⟨j', f⟩ = none ∧
      G.In x (s.whole.value m j' f))

/-- The rule of `f` at the node `j` reads that of the node `d`. -/
def Deps (s : Store V K) (f : FactName) (m : Memos (FactName.Carrier V K)) (j d : Nat) : Prop :=
  ∃ p, s.productions j = some p ∧
    ∃ j', ⟨j', f⟩ ∈ p.reads (s.whole.value m) f ∧ s.whole.source? ⟨j', f⟩ = some ⟨d, f⟩

namespace Store

variable {s : Store V K} {root : Cell FactName} {ms : Nat → Memos (FactName.Carrier V K)}
  {Ts : Nat → List (Cell FactName)} {b n : Nat}

/-- `b` sweeps in a row, during which facts below the level `n` stay as they are. -/
structure Window (s : Store V K) (root : Cell FactName) (ms : Nat → Memos (FactName.Carrier V K))
    (Ts : Nat → List (Cell FactName)) (b n : Nat) : Prop where
  sweep : ∀ i < b, s.whole.Sweep root (ms i) (ms (i + 1)) (Ts i)
  production : ∀ i < b, ∀ c ∈ Ts i, (s.productions c.place).isSome
  root : ∀ i < b, root ∈ Ts i
  level : 0 < n
  still : ∀ i ≤ b, ∀ j ≤ b, ∀ c : Cell FactName, c.fact.level < n →
    Fact.agrees (Family.memo (ms i) c).value (Family.memo (ms j) c).value = true

namespace Window

theorem settled (h : s.Window root ms Ts b n) {i : Nat} (hi : i ≤ b) (c : Cell FactName) :
    (Family.memo (ms i) c).settled = (Family.memo (ms 0) c).settled := by
  induction i with
  | zero => rfl
  | succ i ih => rw [(h.sweep i hi).settled, ih (Nat.le_of_succ_le hi)]

/-- What is read during a sweep says the same as at the beginning. -/
theorem agreeBelow (h : s.Window root ms Ts b n) {i : Nat} (hi : i < b) {u : Memos (FactName.Carrier V K)}
    (hu : Family.Between (ms i) (ms (i + 1)) u) : AgreeBelow n (s.whole.value u) (s.whole.value (ms 0)) := by
  intro j f hf
  cases hs : s.whole.source? ⟨j, f⟩ with
  | none =>
    rw [Family.value_of_no_source _ (ms 0) hs]
    exact LawfulFact.refl _
  | some d =>
    obtain ⟨d, g⟩ := d
    obtain rfl : g = f := (Family.source?_eq_some hs).1
    rw [Family.value_of_source? hs, Family.value_of_source? hs]
    rcases hu ⟨d, g⟩ with hd | hd
    · rw [hd]
      exact h.still i (by omega) 0 (by omega) _ hf
    · rw [hd]
      exact h.still (i + 1) (by omega) 0 (by omega) _ hf

/-- The rules of a sweep are those of any other. -/
theorem mem_of_mem (h : s.Window root ms Ts b n) {i j : Nat} (hi : i < b) (hj : j < b) {c : Cell FactName}
    (hc : c ∈ Ts i) : c ∈ Ts j := by
  obtain ⟨rank, ho⟩ := (h.sweep i hi).order
  obtain ⟨rank', ho'⟩ := (h.sweep j hj).order
  have hu := (ho c hc).2.1
  induction hu using Relation.ReflTransGen.head_induction_on with
  | refl => exact h.root j hj
  | @head x y hxy _ ih =>
    obtain ⟨hx, hy, -, u, q, v, hu, hq, -, r, hr, hrx⟩ := hxy
    obtain ⟨-, -, u', q', hu', hq', -, hreads⟩ := ho' y (ih hy)
    obtain ⟨p, hp⟩ := Option.isSome_iff_exists.1 (h.production i hi y hy)
    obtain rfl : q = q' := by simpa [hq] using hq'
    rw [define_of_production hp] at hq
    rw [Production.reads_of_rule hq, (h.agreeBelow hi hu).reads h.level,
      ← (h.agreeBelow hj (Family.between_of_turn hu')).reads h.level, ← Production.reads_of_rule hq] at hr
    rcases (hreads r hr).2 x hrx with hset | hx'
    · rw [h.settled hj.le, ← h.settled hi.le, (h.sweep i hi).unsettled x hx] at hset
      cases hset
    · exact hx'.1

variable {f : FactName} {G : Gathering V K f}

/-- What a rule computes during a sweep: its own items and constant ones, and those of the rules it reads. -/
theorem in_computed (h : s.Window root ms Ts b f.level) {i j : Nat} (hi : i < b) (hc : ⟨j, f⟩ ∈ Ts i)
    {u : Memos (FactName.Carrier V K)} (hu : Family.Between (ms i) (ms (i + 1)) u)
    {q : NodeQuery V K (f.Carrier V K)} {v : f.Carrier V K} (hq : s.whole.definition j f = .rule q)
    (hd : q.denote (s.whole.value u) = .ok v) (x : G.Item) :
    G.In x v ↔ G.Own s (ms 0) j x ∨ ∃ d, Deps s f (ms 0) j d ∧ G.In x (Family.memo u ⟨d, f⟩).value := by
  obtain ⟨p, hp⟩ := Option.isSome_iff_exists.1 (h.production i hi _ hc)
  have ha := h.agreeBelow hi hu
  rw [define_of_production hp] at hq
  rw [G.rule hq hd, G.own_congr ha, ha.reads h.level]
  constructor
  · rintro (hx | ⟨j', hr, hx⟩)
    · exact .inl ⟨p, hp, .inl hx⟩
    · cases hs : s.whole.source? ⟨j', f⟩ with
      | none =>
        rw [Family.value_of_no_source _ (ms 0) hs] at hx
        exact .inl ⟨p, hp, .inr ⟨j', hr, hs, hx⟩⟩
      | some d =>
        obtain ⟨d, g⟩ := d
        obtain rfl : g = f := (Family.source?_eq_some hs).1
        rw [Family.value_of_source? hs] at hx
        exact .inr ⟨d, ⟨p, hp, j', hr, hs⟩, hx⟩
  · rintro (⟨p', hp', hx⟩ | ⟨d, ⟨p', hp', j', hr, hs⟩, hx⟩)
    · obtain rfl : p = p' := Option.some.inj (hp.symm.trans hp')
      refine hx.imp_right fun ⟨j', hr, hs, hx⟩ => ⟨j', hr, ?_⟩
      rwa [Family.value_of_no_source _ (ms 0) hs]
    · obtain rfl : p = p' := Option.some.inj (hp.symm.trans hp')
      refine .inr ⟨j', hr, ?_⟩
      rwa [Family.value_of_source? hs]

theorem level_of_feeds (h : s.Window root ms Ts b n) {i : Nat} (hi : i < b) {x y : Cell FactName}
    (hy : y ∈ Ts i) (hf : s.whole.Feeds (ms i) (ms (i + 1)) x y) : x.fact.level ≤ y.fact.level := by
  obtain ⟨u, q, v, -, hq, -, r, hr, hx⟩ := hf
  obtain ⟨p, hp⟩ := Option.isSome_iff_exists.1 (h.production i hi y hy)
  rw [define_of_production hp] at hq
  rw [Production.reads_of_rule hq] at hr
  rw [(Family.source?_eq_some hx).1]
  exact level_of_reads hr

theorem level_of_under (h : s.Window root ms Ts b n) {i : Nat} (hi : i < b) {rank : Cell FactName → Nat}
    {x y : Cell FactName} (hu : s.whole.Under (ms i) (ms (i + 1)) (· ∈ Ts i) rank x y) :
    x.fact.level ≤ y.fact.level := by
  induction hu with
  | refl => exact le_rfl
  | tail _ hxy ih => exact ih.trans (h.level_of_feeds hi hxy.2.1 hxy.2.2.2)

theorem eq_of_level {g : FactName} (hg : 0 < g.level) (h : f.level = g.level) : f = g := by
  cases f <;> cases g <;> simp_all [FactName.level]

/-- A rule passes its new items on to the rules on behalf of which it is computed. -/
theorem in_of_under (h : s.Window root ms Ts b f.level) {i : Nat} (hi : i < b) {rank : Cell FactName → Nat}
    (ho : ∀ c ∈ Ts i, s.whole.Computed (ms i) (ms (i + 1)) (· ∈ Ts i) rank c) {d : Nat} {x : G.Item}
    {c : Cell FactName} (hu : s.whole.Under (ms i) (ms (i + 1)) (· ∈ Ts i) rank c ⟨d, f⟩) :
    ∀ j, c = ⟨j, f⟩ → G.In x (Family.memo (ms (i + 1)) ⟨j, f⟩).value →
      G.In x (Family.memo (ms (i + 1)) ⟨d, f⟩).value := by
  induction hu using Relation.ReflTransGen.head_induction_on with
  | refl =>
    intro j hj hx
    cases hj
    exact hx
  | @head c y hcy hy ih =>
    rintro j rfl hx
    obtain ⟨-, hyT, hlt, hf⟩ := hcy
    have hle := h.level_of_feeds hi hyT hf
    obtain ⟨k, g⟩ := y
    obtain rfl : f = g := (eq_of_level h.level (Nat.le_antisymm (h.level_of_under hi hy) hle)).symm
    obtain ⟨u, q, v, hu, hq, hd, r, hr, hs⟩ := hf
    obtain ⟨u', q', hu', hq', hd', -⟩ := ho _ hyT
    obtain ⟨p, hp⟩ := Option.isSome_iff_exists.1 (h.production i hi _ hyT)
    obtain ⟨j', g⟩ := r
    obtain rfl : f = g := (Family.source?_eq_some hs).1
    rw [define_of_production hp] at hq
    rw [Production.reads_of_rule hq, (h.agreeBelow hi hu).reads h.level] at hr
    have hdeps : Deps s f (ms 0) k j := ⟨p, hp, j', hr, hs⟩
    refine ih k rfl ((h.in_computed hi hyT (Family.between_of_turn hu') hq' hd' x).2 (.inr ⟨j, hdeps, ?_⟩))
    rw [hu', if_pos hlt]
    exact hx

/-- The nodes whose fact `f` is computed. -/
def places (s : Store V K) (Ts : Nat → List (Cell FactName)) (f : FactName) : List Nat :=
  (List.range s.nodes.size).filter fun j => ⟨j, f⟩ ∈ Ts 0

theorem mem_places (h : s.Window root ms Ts b n) {i j : Nat} (hi : i < b) :
    j ∈ places s Ts f ↔ ⟨j, f⟩ ∈ Ts i := by
  simp only [places, List.mem_filter, List.mem_range, decide_eq_true_eq]
  refine ⟨fun ⟨_, hj⟩ => h.mem_of_mem (by omega) hi hj, fun hj => ⟨?_, h.mem_of_mem hi (by omega) hj⟩⟩
  obtain ⟨p, hp⟩ := Option.isSome_iff_exists.1 (h.production i hi _ hj)
  exact lt_of_production hp

/-- A sweep is a round for the items of a fact. -/
theorem round (h : s.Window root ms Ts b f.level) {i : Nat} (hi : i < b) :
    Round (· ∈ places s Ts f) (G.Own s (ms 0)) (Deps s f (ms 0))
      (fun j x => G.In x (Family.memo (ms i) ⟨j, f⟩).value)
      (fun j x => G.In x (Family.memo (ms (i + 1)) ⟨j, f⟩).value) where
  same j x hj := by
    rw [(h.sweep i hi).same _ fun hm => hj ((h.mem_places hi).2 hm)]
  order := by
    obtain ⟨rank, ho⟩ := (h.sweep i hi).order
    refine ⟨fun j => rank ⟨j, f⟩, fun j hj => ?_⟩
    have hj' := (h.mem_places hi).1 hj
    obtain ⟨u, q, hu, hq, hd, hr⟩ := (ho _ hj').2.2
    refine ⟨fun x => ?_, fun d hdep hdT hlt x hx => ?_⟩
    · rw [h.in_computed hi hj' (Family.between_of_turn hu) hq hd x]
      refine or_congr_right (exists_congr fun d => and_congr_right fun _ => ?_)
      rw [hu]
      split <;> exact Iff.rfl
    · obtain ⟨p, hp, j', hrd, hs⟩ := hdep
      have hq' := hq
      rw [define_of_production hp] at hq'
      rw [← (h.agreeBelow hi (Family.between_of_turn hu)).reads h.level, ← Production.reads_of_rule hq'] at hrd
      rcases (hr _ hrd).2 _ hs with hset | ⟨-, hlt' | hunder⟩
      · rw [(h.sweep i hi).unsettled _ ((h.mem_places hi).1 hdT)] at hset
        cases hset
      · exact absurd hlt' hlt
      · exact h.in_of_under hi (fun c hc => (ho c hc).2.2) hunder j rfl hx

/-- After as many sweeps as there are nodes, and one more, the values of the fact stay as they are. -/
theorem agrees_of_lt (G : Gathering V K f) (h : s.Window root ms Ts b f.level) {i : Nat} (hi : s.nodes.size < i)
    (hib : i ≤ b) {i' : Nat} (hi' : s.nodes.size < i') (hib' : i' ≤ b) (j : Nat) :
    Fact.agrees (Family.memo (ms i) ⟨j, f⟩).value (Family.memo (ms i') ⟨j, f⟩).value = true := by
  have hlen : (places s Ts f).length ≤ s.nodes.size := by
    have := List.length_filter_le (fun j => decide (⟨j, f⟩ ∈ Ts 0)) (List.range s.nodes.size)
    rwa [List.length_range] at this
  have key : ∀ k, s.nodes.size + 1 + k ≤ b → ∀ x, G.In x (Family.memo (ms (s.nodes.size + 1 + k)) ⟨j, f⟩).value ↔
      G.In x (Family.memo (ms (s.nodes.size + 1)) ⟨j, f⟩).value := by
    intro k
    induction k with
    | zero => exact fun _ x => Iff.rfl
    | succ k ih =>
      intro hk x
      have := rounds_stall (v := fun i j x => G.In x (Family.memo (ms i) ⟨j, f⟩).value) (fun i hi => h.round hi)
        (show s.nodes.size + 1 + k < b by omega) (by omega) j x
      exact this.trans (ih (by omega) x)
  obtain ⟨k, rfl⟩ : ∃ k, i = s.nodes.size + 1 + k := ⟨i - (s.nodes.size + 1), by omega⟩
  obtain ⟨k', rfl⟩ : ∃ k, i' = s.nodes.size + 1 + k := ⟨i' - (s.nodes.size + 1), by omega⟩
  exact G.agrees fun x => (key k hib x).trans (key k' hib' x).symm

/-- Once the restrictions are still, the rest of a window is one for the conflicts. -/
theorem upper (h : s.Window root ms Ts b 1) :
    s.Window root (fun k => ms (s.nodes.size + 1 + k)) (fun k => Ts (s.nodes.size + 1 + k))
      (b - (s.nodes.size + 1)) 2 where
  sweep i hi := h.sweep _ (by omega)
  production i hi := h.production _ (by omega)
  root i hi := h.root _ (by omega)
  level := Nat.zero_lt_two
  still i hi i' hi' c hc := by
    by_cases hb : s.nodes.size + 1 ≤ b
    · obtain ⟨j, f⟩ := c
      cases f with
      | first | emptyValue | productive =>
        exact h.still _ (by omega) _ (by omega) _ Nat.zero_lt_one
      | restrictions => exact agrees_of_lt .restrictions h (by omega) (by omega) (by omega) (by omega) j
      | conflicts => simp [FactName.level] at hc
    · obtain rfl : i = i' := by omega
      exact LawfulFact.refl _

/-- A window is not so long that each sweep in it could change something. -/
theorem not_busy (h : s.Window root ms Ts b 1) (hb : 2 * s.nodes.size + 2 < b)
    (hbusy : ∀ i < b, ∃ c ∈ Ts i, Fact.agrees (Family.memo (ms (i + 1)) c).value (Family.memo (ms i) c).value = false) :
    False := by
  obtain ⟨⟨j, f⟩, -, hc⟩ := hbusy (s.nodes.size + 1 + (s.nodes.size + 1)) (by omega)
  have hsame : Fact.agrees (Family.memo (ms (s.nodes.size + 1 + (s.nodes.size + 1) + 1)) ⟨j, f⟩).value
      (Family.memo (ms (s.nodes.size + 1 + (s.nodes.size + 1))) ⟨j, f⟩).value = true := by
    cases f with
    | first | emptyValue | productive => exact h.still _ (by omega) _ (by omega) _ Nat.zero_lt_one
    | restrictions => exact agrees_of_lt .restrictions h (by omega) (by omega) (by omega) (by omega) j
    | conflicts =>
      exact agrees_of_lt .conflicts h.upper (show s.nodes.size < s.nodes.size + 1 + 1 by omega) (by omega)
        (show s.nodes.size < s.nodes.size + 1 by omega) (by omega) j
  rw [hsame] at hc
  cases hc

end Window

/-- As many passes as can change something about `n` nodes, and one more. -/
def passBound (n : Nat) : Nat := (n * (n + 2) + 1) * (2 * n + 3)

theorem passBound_le (n : Nat) : passBound n ≤ passLimit n := by
  have h1 : n * (n + 2) + 1 ≤ (n + 4) ^ 2 := by nlinarith
  have h2 : 2 * n + 3 ≤ (n + 4) ^ 2 := by nlinarith
  calc (n * (n + 2) + 1) * (2 * n + 3) ≤ (n + 4) ^ 2 * (n + 4) ^ 2 := Nat.mul_le_mul h1 h2
    _ = (n + 4) ^ 4 := by ring
    _ ≤ (n + 4) ^ 12 := Nat.pow_le_pow_right (by omega) (by omega)

/-- `b` sweeps in a row, each of which changes something. -/
structure Series (s : Store V K) (root : Cell FactName) (ms : Nat → Memos (FactName.Carrier V K))
    (Ts : Nat → List (Cell FactName)) (b : Nat) : Prop where
  kept : ∀ i ≤ b, ∃ e, s.Kept e (ms i)
  sweep : ∀ i < b, s.whole.Sweep root (ms i) (ms (i + 1)) (Ts i)
  production : ∀ i < b, ∀ c ∈ Ts i, (s.productions c.place).isSome
  changes : ∀ i < b, ∃ c ∈ Ts i, Fact.agrees (Family.memo (ms (i + 1)) c).value (Family.memo (ms i) c).value = false

namespace Series

variable {i k : Nat}

theorem known_mono (h : s.Series root ms Ts b) (hk : i + k ≤ b) : s.known (ms i) ≤ s.known (ms (i + k)) := by
  induction k with
  | zero => exact le_rfl
  | succ k ih =>
    obtain ⟨e, he⟩ := h.kept (i + k) (by omega)
    exact (ih (by omega)).trans (he.known_mono (h.sweep (i + k) hk) (h.production (i + k) hk))

/-- If in the end no more is known, the same traits are known all the time. -/
theorem knows_iff (h : s.Series root ms Ts b) (hn : i + n ≤ b) (hle : s.known (ms (i + n)) ≤ s.known (ms i)) (hk : k ≤ n)
    (j : Nat) (t : Trait K) : Knows (ms (i + k)) j t ↔ Knows (ms i) j t := by
  induction k with
  | zero => exact Iff.rfl
  | succ k ih =>
    obtain ⟨e, he⟩ := h.kept (i + k) (by omega)
    obtain ⟨e', he'⟩ := h.kept (i + k + 1) (by omega)
    have hs := h.sweep (i + k) (by omega)
    have hT := h.production (i + k) (by omega)
    have h1 : s.known (ms i) ≤ s.known (ms (i + k)) := h.known_mono (by omega)
    have h2 : s.known (ms (i + k + 1)) ≤ s.known (ms (i + n)) := by
      obtain ⟨l, rfl⟩ := Nat.exists_eq_add_of_le hk
      rw [← Nat.add_assoc i]
      exact h.known_mono (by omega)
    refine Iff.trans ⟨fun ht => ?_, fun ht => ?_⟩ (ih (by omega))
    · exact he.knows_of_known_eq he' hs hT (by omega) ht
    · exact he.knows_of_sweep hs hT ht

/-- Sweeps during which nothing more gets known make up a window. -/
theorem window (h : s.Series root ms Ts b) (hn : i + n ≤ b) (hle : s.known (ms (i + n)) ≤ s.known (ms i)) :
    s.Window root (fun k => ms (i + k)) (fun k => Ts (i + k)) n 1 where
  sweep k hk := h.sweep (i + k) (by omega)
  production k hk := h.production (i + k) (by omega)
  root k hk := by
    obtain ⟨c, hc, -⟩ := h.changes (i + k) (by omega)
    obtain ⟨rank, ho⟩ := (h.sweep (i + k) (by omega)).order
    exact (ho c hc).1
  level := Nat.zero_lt_one
  still k hk k' hk' c hc :=
    agrees_of_knows (fun j t => (h.knows_iff hn hle hk j t).trans (h.knows_iff hn hle hk' j t).symm) hc

/-- During so many sweeps something more gets known, -/
theorem known_lt (h : s.Series root ms Ts b) (hi : i + (2 * s.nodes.size + 3) ≤ b) :
    s.known (ms i) < s.known (ms (i + (2 * s.nodes.size + 3))) := by
  by_contra hn
  exact (h.window hi (Nat.le_of_not_lt hn)).not_busy (by omega) fun k hk => h.changes (i + k) (by omega)

/-- and so on. -/
theorem le_known (h : s.Series root ms Ts b) (hk : k * (2 * s.nodes.size + 3) ≤ b) :
    k ≤ s.known (ms (k * (2 * s.nodes.size + 3))) := by
  induction k with
  | zero => exact Nat.zero_le _
  | succ k ih =>
    rw [Nat.succ_mul] at hk ⊢
    have hlt := h.known_lt hk
    have hle := ih (by omega)
    omega

end Series

/-- There are not so many passes in a row each of which changes something. -/
theorem not_restless {Q : Cell FactName → Prop} (hQ : ∀ c, Q c → (s.productions c.place).isSome)
    {m : Memos (FactName.Carrier V K)} (hb : passBound s.nodes.size ≤ b) :
    ¬s.whole.Restless Q (fun m => ∃ e, s.Kept e m) b root m := by
  rintro ⟨ms, Ts, -, hkept, hsteps⟩
  have hseries : s.Series root ms Ts b :=
    { kept := hkept
      sweep := fun i hi => (hsteps i hi).1
      production := fun i hi c hc => hQ c ((hsteps i hi).2.1 c hc)
      changes := fun i hi => (hsteps i hi).2.2 }
  have hleast := hseries.le_known hb
  have hmost := known_le (s := s) (m := ms ((s.nodes.size * (s.nodes.size + 2) + 1) * (2 * s.nodes.size + 3)))
  omega

end Store

end Predictive.Grammar
