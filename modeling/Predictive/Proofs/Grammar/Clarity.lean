import Mathlib.Data.Fintype.EquivFin
import Predictive.Proofs.Grammar.Growth

/-!
Entries with all their kinds. Where the first three facts are known before restrictions and conflicts are looked at, no
others are made.
-/
namespace Predictive

section Extension

variable {V K : Type} {G H : Productions V K} {i d x : Nat} {k : K}

/-- A side that restricts what follows is below. -/
theorem below_side_of_restricts (h : Restricts G i d x) : Below G i x := by
  obtain ⟨l, r, hd, hx⟩ := h.disjunction
  refine (below_of_restricts h).trans (Below.part hd ?_)
  rcases hx with ⟨rfl, -⟩ | ⟨rfl, -⟩ <;> simp [Production.parts]

/-- What is below is not changed by what comes in addition. -/
theorem Complete.has {t : Trait K} (h : Complete G i) (e : Extends G H) (ht : Has H i t) : Has G i t := by
  refine Has.induct (motive := fun i t => Complete G i → Has G i t) ?_ ht h
  intro i p t hi hg hc
  obtain ⟨p', hp'⟩ := Option.isSome_iff_exists.1 (hc i .refl)
  obtain rfl := Option.some.inj ((e hp').symm.trans hi)
  exact has_of_gives hp' (hg.mono fun j hj u hu => hu.2 (hc.part hp' hj))

theorem Complete.starts_iff (h : Complete G i) (e : Extends G H) : Starts H i k ↔ Starts G i k := by
  rw [← has_startsWith_iff, ← has_startsWith_iff]
  exact ⟨h.has e, fun ht => ht.extend e⟩

theorem below_of_carries (h : Relation.ReflTransGen (Carries G) i j) : Below G i j :=
  Relation.ReflTransGen.mono (fun _ _ h => h.part) _ _ h

/-- Without circles, what is handed up from all nodes to which `R` leads holds. -/
theorem induct_of_acyclic {R : Nat → Nat → Prop} {P : Nat → Prop} {n : Nat}
    (hlt : ∀ j, Relation.ReflTransGen R i j → j < n)
    (hacyclic : ∀ j, Relation.ReflTransGen R i j → ¬Relation.TransGen R j j)
    (step : ∀ j, Relation.ReflTransGen R i j → (∀ k, R j k → P k) → P j) : P i := by
  let r (a b : {j // Relation.ReflTransGen R i j}) : Prop := Relation.TransGen R b.1 a.1
  have hfinite : Finite {j // Relation.ReflTransGen R i j} :=
    Finite.of_injective (fun a => (⟨a.1, hlt a.1 a.2⟩ : Fin n)) fun a b hab => Subtype.ext (Fin.ext_iff.1 hab)
  have htrans : IsTrans _ r := ⟨fun a b c hab hbc => hbc.trans hab⟩
  have hirrefl : Std.Irrefl r := ⟨fun a => hacyclic a.1 a.2⟩
  exact (Finite.wellFounded_of_trans_of_irrefl r).induction (C := fun a => P a.1) ⟨i, .refl⟩
    fun a ih => step a.1 a.2 fun k hk => ih ⟨k, a.2.tail hk⟩ (.single hk)

end Extension

namespace Grammar.Store

open Solver (Cell Query Family Memos Memo Pass)

section Rules

variable {V K : Type} [Kind K] {G : Productions V K} {p : Production V K} {i j : Nat} {σ : Valuation V K}
  {cs : List (Cell FactName)} {f : FactName}

theorem ExactRestriction.carry {e : Restriction K} (hc : Carries G i j) (h : ExactRestriction G j e) :
    ExactRestriction G i e :=
  h.imp fun _ hx => ⟨hx.1.carry hc, hx.2⟩

theorem ExactConflict.above {c : Conflict K} (hij : Below G i j) (h : ExactConflict G j c) : ExactConflict G i c := by
  cases c with
  | bothAcceptEmpty d =>
    obtain ⟨l, r, hd, h⟩ := h
    exact ⟨l, r, hij.trans hd, h⟩
  | firstFirstClash d ks =>
    obtain ⟨l, r, hd, h⟩ := h
    exact ⟨l, r, hij.trans hd, h⟩
  | followClash d q ks =>
    obtain ⟨l, r, x, hq, h⟩ := h
    exact ⟨l, r, x, hij.trans hq, h⟩

theorem ExactRestriction.extend {H : Productions V K} {e : Restriction K} (hi : Complete G i) (hGH : Extends G H)
    (h : ExactRestriction G i e) : ExactRestriction H i e := by
  obtain ⟨x, hx, hks⟩ := h
  have hc := hi.below (below_side_of_restricts hx)
  exact ⟨x, hx.extend hGH, fun k => (hks k).trans (hc.starts_iff hGH).symm⟩

theorem ExactConflict.extend {H : Productions V K} {c : Conflict K} (hi : Complete G i) (hGH : Extends G H)
    (h : ExactConflict G i c) : ExactConflict H i c := by
  have hside : ∀ {q p j}, Below G i q → G q = some p → j ∈ p.parts → ∀ k, Starts G j k ↔ Starts H j k :=
    fun hb hq hj k => ((hi.below (hb.trans (Below.part hq hj))).starts_iff hGH).symm
  cases c with
  | bothAcceptEmpty d =>
    obtain ⟨l, r, hb, hd, hl, hr⟩ := h
    exact ⟨l, r, hb.extend hGH, hGH hd, hl.extend hGH, hr.extend hGH⟩
  | firstFirstClash d ks =>
    obtain ⟨l, r, hb, hd, hk, hks⟩ := h
    have hl := hside hb hd (List.mem_cons_self ..)
    have hr := hside hb hd (List.mem_cons_of_mem _ (List.mem_cons_self ..))
    exact ⟨l, r, hb.extend hGH, hGH hd, hk, fun k => (hks k).trans (and_congr (hl k) (hr k))⟩
  | followClash d q ks =>
    obtain ⟨l, r, x, hb, hq, hx, hk, hks⟩ := h
    have hleft := hb.trans (Below.part hq (List.mem_cons_self ..))
    have hx' := (hi.below (hleft.trans (below_side_of_restricts hx)))
    have hr := hside hb hq (List.mem_cons_of_mem _ (List.mem_cons_self ..))
    exact ⟨l, r, x, hb.extend hGH, hGH hq, hx.extend hGH, hk,
      fun k => (hks k).trans (and_congr (hx'.starts_iff hGH).symm (hr k))⟩

theorem not_mem_reads_restrictions {σ : Valuation V K} : ⟨j, .conflicts⟩ ∉ p.reads σ .restrictions := by
  cases p with
  | success v | element k | deferred j' | transform g j' => simp [Production.reads]
  | disjunction l r | sequence l r =>
    simp only [Production.reads]
    grind

theorem lt_of_below {s : Store V K} (hc : Complete s.productions i) (hj : Below s.productions i j) : j < s.nodes.size := by
  obtain ⟨p, hp⟩ := Option.isSome_iff_exists.1 (hc j hj)
  exact lt_of_production hp

/-- In the cells `cs` the values `σ` ascribe to each node the traits that it has. -/
def Truthful (G : Productions V K) (σ : Valuation V K) (cs : List (Cell FactName)) : Prop :=
  ∀ j (t : Trait K), ⟨j, t.fact⟩ ∈ cs → (Ascribed σ j t ↔ Has G j t)

namespace Truthful

theorem first (h : Truthful G σ cs) (hj : ⟨j, .first⟩ ∈ cs) (k : K) :
    k ∈ (σ j .first : FinSet K) ↔ Starts G j k :=
  (h j (.startsWith k) hj).trans has_startsWith_iff

theorem emptyValue (h : Truthful G σ cs) (hj : ⟨j, .emptyValue⟩ ∈ cs) :
    (σ j .emptyValue).isSome = true ↔ Nullable G j :=
  (h j .nullable hj).trans has_nullable_iff

theorem productive (h : Truthful G σ cs) (hj : ⟨j, .productive⟩ ∈ cs) : σ j .productive = true ↔ Productive G j :=
  (h j .productive hj).trans has_productive_iff

theorem carries (h : Truthful G σ (p.reads σ .restrictions)) (hi : G i = some p) (hj : j ∈ p.passing σ) :
    Carries G i j :=
  carries_of_passing hi hj fun j t ht => (h j t ht).1

theorem restricting {e : Restriction K} (h : Truthful G σ (p.reads σ .restrictions)) (hi : G i = some p)
    (he : p.Restricting i σ e) : ExactRestriction G i e := by
  cases p with
  | success v => exact he.elim
  | element k => exact he.elim
  | deferred j => exact he.elim
  | transform g j => exact he.elim
  | sequence l r => exact he.elim
  | disjunction l r =>
    rcases he with ⟨hl, rfl⟩ | ⟨hr, rfl⟩
    · exact ⟨r, .ofRight hi ((h.emptyValue (by simp [Production.reads])).1 hl), h.first (by simp [Production.reads, hl])⟩
    · exact ⟨l, .ofLeft hi ((h.emptyValue (by simp [Production.reads])).1 hr), h.first (by simp [Production.reads, hr])⟩

theorem clashing {c : Conflict K} (h : Truthful G σ (p.reads σ .conflicts)) (hi : G i = some p)
    (hex : ∀ j, ⟨j, .restrictions⟩ ∈ p.reads σ .conflicts → ∀ e ∈ (σ j .restrictions : FinSet (Restriction K)),
      ExactRestriction G j e) (hc : p.Clashing i σ c) : ExactConflict G i c := by
  cases p with
  | success v => exact hc.elim
  | element k => exact hc.elim
  | deferred j => exact hc.elim
  | transform g j => exact hc.elim
  | disjunction l r =>
    have hl := h.first (j := l) (by simp [Production.reads])
    have hr := h.first (j := r) (by simp [Production.reads])
    rcases hc with ⟨hle, hre, rfl⟩ | ⟨hs, rfl⟩
    · exact ⟨l, r, .refl, hi, (h.emptyValue (by simp [Production.reads])).1 hle,
        (h.emptyValue (by simp [Production.reads, hle])).1 hre⟩
    · refine ⟨l, r, .refl, hi, FinSet.isEmpty_eq_false_iff.1 hs, fun k => ?_⟩
      rw [FinSet.mem_inter, hl, hr]
  | sequence l r =>
    obtain ⟨a, ha, hs, rfl⟩ := hc
    obtain ⟨x, hx, hstarts⟩ := hex l (by simp [Production.reads]) a ha
    refine ⟨l, r, x, .refl, hi, hx, FinSet.isEmpty_eq_false_iff.1 hs, fun k => ?_⟩
    rw [FinSet.mem_inter, hstarts, h.first (by simp [Production.reads])]

end Truthful

/-- The fact has no restriction and no conflict whose kinds are not all. -/
def ExactFact (G : Productions V K) (i : Nat) : (f : FactName) → f.Carrier V K → Prop
  | .restrictions, v => ∀ e ∈ (v : FinSet (Restriction K)), ExactRestriction G i e
  | .conflicts, v => ∀ c ∈ (v : FinSet (Conflict K)), ExactConflict G i c
  | .first, _ | .emptyValue, _ | .productive, _ => True

theorem exactFact_bottom : ExactFact G i f Fact.bottom := by
  cases f with
  | first | emptyValue | productive => trivial
  | restrictions | conflicts => exact fun _ h => absurd h FinSet.not_mem_empty

theorem exactFact_deferred {v : f.Carrier V K} (hi : G i = some (.deferred j)) (h : ExactFact G j f v) :
    ExactFact G i f v := by
  cases f with
  | first | emptyValue | productive => trivial
  | restrictions => exact fun e he => (h e he).carry (.deferred hi)
  | conflicts => exact fun c hc => (h c hc).above (.part hi (by simp [Production.parts]))

theorem ExactFact.extend {H : Productions V K} {v : f.Carrier V K} (hi : Complete G i) (hGH : Extends G H)
    (h : ExactFact G i f v) : ExactFact H i f v := by
  cases f with
  | first | emptyValue | productive => trivial
  | restrictions => exact fun e he => (h e he).extend hi hGH
  | conflicts => exact fun c hc => (h c hc).extend hi hGH

end Rules

variable {V K : Type} [Value V] [Kind K] {G : Productions V K} {p : Production V K} {i j i₀ : Nat} {f : FactName}
  {s s' : Store V K} {m m' : Memos (FactName.Carrier V K)} {c : Cell FactName} {e : Nat}
  {t : Pass (FactName.Carrier V K)} {cs : List (Cell FactName)}

theorem exactFact_constant {v : f.Carrier V K} (hc : p.define i f = .constant v) : ExactFact G i f v := by
  cases p <;> cases hc <;> cases f
  case success.refl.restrictions | success.refl.conflicts | element.refl.restrictions | element.refl.conflicts =>
    exact fun _ h => absurd h FinSet.not_mem_empty
  all_goals trivial

/-- A rule makes exact entries of exact entries, if it looks at true values. -/
theorem exactFact_of_rule {σ : Valuation V K} {q : NodeQuery V K (f.Carrier V K)} {v : f.Carrier V K}
    (hi : G i = some p) (hq : p.define i f = .rule q) (hd : q.denote σ = .ok v) (htrue : Truthful G σ (p.reads σ f))
    (hex : ∀ c ∈ p.reads σ f, ExactFact G c.place c.fact (σ c.place c.fact)) : ExactFact G i f v := by
  cases f with
  | first | emptyValue | productive => trivial
  | restrictions =>
    intro e he
    rcases (Production.mem_restrictions hq hd).1 he with he | ⟨j, hj, he⟩
    · exact htrue.restricting hi he
    · exact (hex _ (Production.mem_reads_restrictions.2 hj) e he).carry (htrue.carries hi hj)
  | conflicts =>
    intro c hc
    rcases (Production.mem_conflicts hq hd).1 hc with hc | ⟨j, hj, hc⟩
    · exact htrue.clashing hi (fun j hj => hex _ hj) hc
    · exact (hex _ ((Production.mem_reads_conflicts ⟨q, hq⟩).2 hj) c hc).above (.part hi hj)

/-- Below `i₀` the first three facts of all nodes are final, and all restrictions and conflicts are exact that are
remembered. -/
structure Clear (s : Store V K) (i₀ : Nat) (m : Memos (FactName.Carrier V K)) : Prop where
  final : ∀ j (t : Trait K), Below s.productions i₀ j → s.whole.Final m ⟨j, t.fact⟩
  exact : ∀ c, Below s.productions i₀ c.place → ExactFact s.productions c.place c.fact (Family.memo m c).value

theorem Clear.value (h : s.Clear i₀ m) (hj : Below s.productions i₀ j) (f : FactName) :
    ExactFact s.productions j f (s.whole.value m j f) :=
  value_induct (P := fun j f v => Below s.productions i₀ j → ExactFact s.productions j f v)
    (fun _ _ _ => exactFact_bottom) (fun _ _ _ _ _ hc _ => exactFact_constant hc)
    (fun _ _ _ _ hi ih hb => exactFact_deferred hi (ih (hb.trans (Below.part hi (by simp [Production.parts])))))
    (fun c hc => h.exact c hc) j f hj

theorem Clear.truthful (h : s.Clear i₀ m) (hk : s.Kept e m) (hj : ∀ c ∈ cs, Below s.productions i₀ c.place) :
    Truthful s.productions (s.whole.value m) cs := fun j t hjt =>
  hk.settled.ascribed_iff hk.sound_value (h.final j t (hj _ hjt))

theorem Clear.update (h : s.Clear i₀ m) (hk : s.Kept e m) (ht : s.Touches c m m') : s.Clear i₀ m' := by
  refine ⟨fun j t hj => ht.lasts.final (h.final j t hj), fun d hd => ?_⟩
  obtain ⟨-, hne, -, hv⟩ := ht
  by_cases hdc : d = c
  · subst hdc
    rcases hv with hv | ⟨p, q, hp, hq, hv⟩
    · rw [hv]
      exact h.exact d hd
    · have hreads : ∀ r ∈ p.reads (s.whole.value m) d.fact, Below s.productions i₀ r.place := fun r hr =>
        hd.trans (Below.part hp (Production.place_of_reads hr))
      exact exactFact_of_rule hp hq hv (h.truthful hk hreads) fun r hr => h.value (hreads r hr) r.fact
  · rw [hne d hdc]
    exact h.exact d hd

theorem Clear.settle (h : s.Clear i₀ m) (T : List (Cell FactName)) : s.Clear i₀ (Solver.settle T m) := by
  refine ⟨fun j t hj => (Family.lasts_settle T m).final (h.final j t hj), fun d hd => ?_⟩
  rw [Family.value_settle]
  exact h.exact d hd

theorem Clear.grow (h : s.Clear i₀ m) (hc : Complete s.productions i₀) (hs : s.Grows s') : s'.Clear i₀ m := by
  refine ⟨fun j t hj => ?_, fun c hcj => ?_⟩
  · have hb := hc.below_of_extend hs.extends hj
    exact hs.final (hc.below hb) (h.final j t hb)
  · have hb := hc.below_of_extend hs.extends hcj
    exact (h.exact c hb).extend (hc.below hb) hs.extends

/-- A reading of the facts below `i` keeps what holds of the memos, what is clear stays clear, and what is settled
stays as it is. -/
theorem clear_invariant (l : Liveness) (hi : Complete s.productions i) (m : Memos (FactName.Carrier V K)) :
    (s.family l).Invariant (fun c => Below s.productions i c.place) fun e m' =>
      s.Kept e m' ∧ (∀ i₀, s.Clear i₀ m → s.Clear i₀ m') ∧ Family.Lasts m m' where
  epoch h := h.1.epoch _
  next h := ⟨(kept_invariant l hi).next h.1, h.2⟩
  start hc hf h :=
    have ht := touches_start (Family.not_settled_of_not_finished hf) _ _
    ⟨(kept_invariant l hi).start hc hf h.1, fun i₀ hm => (h.2.1 i₀ hm).update h.1 ht, h.2.2.trans ht.lasts⟩
  finish hc hf hq hv h :=
    have ht := touches_finish l (hi.below hc) _ _ (Family.not_settled_of_not_finished hf) hq hv
    ⟨(kept_invariant l hi).finish hc hf hq hv h.1, fun i₀ hm => (h.2.1 i₀ hm).update h.1 ht, h.2.2.trans ht.lasts⟩
  settle h hT := ⟨(kept_invariant l hi).settle h.1 hT, fun i₀ hm => (h.2.1 i₀ hm).settle _,
    h.2.2.trans (Family.lasts_settle _ _)⟩

/-! Where nothing is carried round in a circle, no entry can be kept but by its own rule. -/

theorem Settled.truthful {σ : Valuation V K} (h : s.Settled m) (hs : Sound s.productions (s.whole.value m))
    (hfaith : s.Faithful m σ cs) : Truthful s.productions σ cs := fun _ _ hjt =>
  (Trait.in_congr (hfaith _ hjt).2).trans (h.ascribed_iff hs (hfaith _ hjt).1)

/-- A final value is exact if the restrictions and conflicts are that it was made of. -/
theorem Settled.exactFact (h : s.Settled m) (hs : Sound s.productions (s.whole.value m)) (hi : s.productions i = some p)
    (hf : s.whole.Final m ⟨i, f⟩)
    (hdeferred : ∀ j, p = .deferred j → s.whole.Final m ⟨j, f⟩ → ExactFact s.productions j f (s.whole.value m j f))
    (hrule : ∀ σ, Truthful s.productions σ (p.reads σ f) → ∀ c ∈ p.reads σ f, s.whole.Final m c →
      ExactFact s.productions c.place c.fact (s.whole.value m c.place c.fact)) :
    ExactFact s.productions i f (s.whole.value m i f) := by
  cases hdef : p.define i f with
  | constant v =>
    rw [Family.value_of_constant ((define_of_production hi).trans hdef)]
    exact exactFact_constant hdef
  | deferred v target =>
    cases p <;> cases hdef
    rename_i j
    rw [← (leads_of_production hi).value hf.1]
    exact exactFact_deferred hi (hdeferred j rfl ((leads_of_production hi).final hf))
  | rule q =>
    obtain ⟨σ, hd, hfaith⟩ := h.computed hi hdef hf
    have htrue : Truthful s.productions σ (p.reads σ f) := h.truthful hs hfaith
    refine exactFact_of_rule hi hdef hd htrue fun c hc => ?_
    have hexact := hrule σ htrue c hc (hfaith c hc).1
    obtain ⟨j, g⟩ := c
    cases g with
    | first | emptyValue | productive => trivial
    | restrictions => rwa [Faithful.eq_restrictions hfaith hc]
    | conflicts => rwa [Faithful.eq_conflicts hfaith hc]

theorem Settled.exact_restrictions (h : s.Settled m) (hs : Sound s.productions (s.whole.value m))
    (hc : Complete s.productions i) (hacyclic : ∀ j, Relation.ReflTransGen (Carries s.productions) i j →
      ¬Relation.TransGen (Carries s.productions) j j) (hf : s.whole.Final m ⟨i, .restrictions⟩) :
    ExactFact s.productions i .restrictions (s.whole.value m i .restrictions) := by
  refine induct_of_acyclic (R := Carries s.productions) (P := fun j => s.whole.Final m ⟨j, .restrictions⟩ →
    ExactFact s.productions j .restrictions (s.whole.value m j .restrictions))
    (fun j hj => lt_of_below hc (below_of_carries hj)) hacyclic (fun j hj ih hf => ?_) hf
  obtain ⟨p, hp⟩ := Option.isSome_iff_exists.1 (hc j (below_of_carries hj))
  refine h.exactFact hs hp hf (fun n hn => ?_) fun σ htrue c hread hfc => ?_
  · subst hn
    exact ih n (.deferred hp)
  · obtain ⟨n, g⟩ := c
    cases g with
    | first | emptyValue | productive => trivial
    | restrictions => exact ih n (htrue.carries hp (Production.mem_reads_restrictions.1 hread)) hfc
    | conflicts => exact absurd hread not_mem_reads_restrictions

theorem Settled.exact_conflicts (h : s.Settled m) (hs : Sound s.productions (s.whole.value m))
    (hc : Complete s.productions i)
    (hacyclic : ∀ j p n, Below s.productions i j → s.productions j = some p → n ∈ p.parts → ¬Below s.productions n j)
    (hf : s.whole.Final m ⟨i, .conflicts⟩) :
    ExactFact s.productions i .conflicts (s.whole.value m i .conflicts) := by
  have hcircle : ∀ j, Below s.productions i j →
      ¬Relation.TransGen (fun i j => ∃ p, s.productions i = some p ∧ j ∈ p.parts) j j := by
    intro j hj hjj
    obtain ⟨n, ⟨p, hp, hn⟩, hb⟩ := Relation.TransGen.head'_iff.1 hjj
    exact hacyclic j p n hj hp hn hb
  refine induct_of_acyclic (P := fun j => s.whole.Final m ⟨j, .conflicts⟩ →
    ExactFact s.productions j .conflicts (s.whole.value m j .conflicts))
    (fun j hj => lt_of_below hc hj) hcircle (fun j hj ih hf => ?_) hf
  obtain ⟨p, hp⟩ := Option.isSome_iff_exists.1 (hc j hj)
  refine h.exactFact hs hp hf (fun n hn => ?_) fun σ htrue c hread hfc => ?_
  · subst hn
    exact ih n ⟨_, hp, by simp [Production.parts]⟩
  · have hpart := Production.place_of_reads hread
    have hb := hj.trans (Below.part hp hpart)
    obtain ⟨n, g⟩ := c
    cases g with
    | first | emptyValue | productive => trivial
    | restrictions =>
      refine h.exact_restrictions hs (hc.below hb) (fun k hk hkk => ?_) hfc
      exact hcircle k (hb.trans (below_of_carries hk)) (Relation.TransGen.mono (fun _ _ h => h.part) _ _ hkk)
    | conflicts => exact ih n ⟨p, hp, hpart⟩ hfc

end Grammar.Store
end Predictive
