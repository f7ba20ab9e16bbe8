import Predictive.Proofs.Grammar.Productions

/-! What the facts of a node may say at any moment, and that the rules say nothing else. -/
namespace Predictive

open Grammar
open Solver (Cell Query Family Memos)

variable {V K : Type} [Kind K]

/-- The conflict is one that a node below `i` has; its kinds need not be all. -/
def Warranted (G : Productions V K) (i : Nat) : Conflict K → Prop
  | .bothAcceptEmpty d => ∃ l r, Below G i d ∧ G d = some (.disjunction l r) ∧ Nullable G l ∧ Nullable G r
  | .firstFirstClash d ks => ∃ l r, Below G i d ∧ G d = some (.disjunction l r) ∧ (∃ k, k ∈ ks) ∧
      ∀ k ∈ ks, Starts G l k ∧ Starts G r k
  | .followClash d q ks => ∃ l r x, Below G i q ∧ G q = some (.sequence l r) ∧ Restricts G l d x ∧
      (∃ k, k ∈ ks) ∧ ∀ k ∈ ks, Starts G x k ∧ Starts G r k

theorem Warranted.above {G : Productions V K} {i j : Nat} {e : Conflict K} (hij : Below G i j)
    (h : Warranted G j e) : Warranted G i e := by
  cases e with
  | bothAcceptEmpty d =>
    obtain ⟨l, r, hd, h⟩ := h
    exact ⟨l, r, hij.trans hd, h⟩
  | firstFirstClash d ks =>
    obtain ⟨l, r, hd, h⟩ := h
    exact ⟨l, r, hij.trans hd, h⟩
  | followClash d q ks =>
    obtain ⟨l, r, x, hq, h⟩ := h
    exact ⟨l, r, x, hij.trans hq, h⟩

/-- What is passed on is what restricts the whole, if the traits that are looked at are there. -/
theorem carries_of_passing {G : Productions V K} {p : Production V K} {i j : Nat} {σ : Valuation V K}
    (hi : G i = some p) (hj : j ∈ p.passing σ)
    (hhas : ∀ j (t : Trait K), ⟨j, t.fact⟩ ∈ p.reads σ .restrictions → Ascribed σ j t → Has G j t) : Carries G i j := by
  cases p with
  | success v | element k | deferred j' => cases hj
  | disjunction l r =>
    simp only [Production.passing, List.mem_cons, List.not_mem_nil, or_false] at hj
    rcases hj with rfl | rfl
    · exact .left hi
    · exact .right hi
  | sequence l r =>
    simp only [Production.passing, List.mem_append] at hj
    rcases hj with hj | hj
    · split at hj
      · obtain rfl := List.mem_singleton.1 hj
        exact .first hi (hhas r .nullable (by simp [Production.reads]) ‹_›).means
      · cases hj
    · split at hj
      · obtain rfl := List.mem_singleton.1 hj
        exact .second hi (hhas l .productive (by simp [Production.reads]) ‹_›).means
      · cases hj
  | transform g j' =>
    obtain rfl := List.mem_singleton.1 hj
    exact .transform hi

variable [Value V]

/-- The fact says nothing that does not hold. -/
def SoundFact (G : Productions V K) (i : Nat) : (f : FactName) → f.Carrier V K → Prop
  | .first, s => ∀ k ∈ (s : FinSet K), Has G i (.startsWith k)
  | .emptyValue, v => ∀ w : V, (v : Option V) = some w → Derives G i [] w
  | .productive, b => (b : Bool) = true → Has G i .productive
  | .restrictions, s => ∀ e ∈ (s : FinSet (Restriction K)), ∃ x, Restricts G i e.origin x ∧
      ∀ k ∈ e.disallowed, Starts G x k
  | .conflicts, s => ∀ e ∈ (s : FinSet (Conflict K)), Warranted G i e

def Sound (G : Productions V K) (σ : Valuation V K) : Prop := ∀ i f, SoundFact G i f (σ i f)

variable {G : Productions V K} {p : Production V K} {i j d x : Nat} {f : FactName} {σ : Valuation V K}

theorem soundFact_bottom : SoundFact G i f Fact.bottom := by
  cases f with
  | first => exact fun k hk => absurd hk FinSet.not_mem_empty
  | emptyValue => exact fun w hw => by cases hw
  | productive => exact fun h => by cases h
  | restrictions => exact fun e he => absurd he FinSet.not_mem_empty
  | conflicts => exact fun e he => absurd he FinSet.not_mem_empty

theorem soundFact_constant {v : f.Carrier V K} (hi : G i = some p) (hc : p.define i f = .constant v) :
    SoundFact G i f v := by
  cases p <;> cases hc
  · cases f with
    | first => exact fun k hk => absurd hk FinSet.not_mem_empty
    | emptyValue =>
      intro w hw
      cases hw
      exact .success hi
    | productive => exact fun _ => .anySuccess hi
    | restrictions => exact fun e he => absurd he FinSet.not_mem_empty
    | conflicts => exact fun e he => absurd he FinSet.not_mem_empty
  · cases f with
    | first =>
      intro k hk
      obtain rfl := FinSet.mem_singleton.1 hk
      exact .element hi
    | emptyValue => exact fun w hw => by cases hw
    | productive => exact fun _ => .anyElement hi
    | restrictions => exact fun e he => absurd he FinSet.not_mem_empty
    | conflicts => exact fun e he => absurd he FinSet.not_mem_empty

theorem soundFact_deferred {v : f.Carrier V K} (hi : G i = some (.deferred j)) (h : SoundFact G j f v) :
    SoundFact G i f v := by
  cases f with
  | first => exact fun k hk => .deferred hi (h k hk)
  | emptyValue => exact fun w hw => .deferred hi (h w hw)
  | productive => exact fun hb => .deferred hi (h hb)
  | restrictions => exact fun e he => (h e he).imp fun x hx => ⟨.deferred hi hx.1, hx.2⟩
  | conflicts => exact fun e he => (h e he).above (.part hi (by simp [Production.parts]))

theorem Sound.has {t : Trait K} (hσ : Sound G σ) (h : Ascribed σ j t) : Has G j t := by
  cases t with
  | startsWith k => exact hσ j .first k h
  | nullable =>
    obtain ⟨w, hw⟩ := Option.isSome_iff_exists.1 h
    exact has_nullable_iff.2 (hσ j .emptyValue w hw).yields
  | productive => exact hσ j .productive h

theorem Sound.starts (hσ : Sound G σ) {k : K} (h : k ∈ (σ j .first : FinSet K)) : Starts G j k :=
  has_startsWith_iff.1 (hσ j .first k h)

theorem Sound.nullable (hσ : Sound G σ) (h : (σ j .emptyValue).isSome = true) : Nullable G j :=
  has_nullable_iff.1 (hσ.has (t := .nullable) h)

/-- The restrictions of a part that are passed on hold for the whole. -/
theorem Sound.restricts (hσ : Sound G σ) (hi : G i = some p) (hj : j ∈ p.passing σ) (h : Restricts G j d x) :
    Restricts G i d x :=
  h.carry (carries_of_passing hi hj fun _ _ _ => hσ.has)

theorem Sound.clashing {e : Conflict K} (hσ : Sound G σ) (hi : G i = some p) (h : p.Clashing i σ e) :
    Warranted G i e := by
  cases p with
  | success v => exact h.elim
  | element k => exact h.elim
  | deferred j => exact h.elim
  | transform g j => exact h.elim
  | disjunction l r =>
    rcases h with ⟨hl, hr, rfl⟩ | ⟨hs, rfl⟩
    · exact ⟨l, r, .refl, hi, hσ.nullable hl, hσ.nullable hr⟩
    · refine ⟨l, r, .refl, hi, FinSet.isEmpty_eq_false_iff.1 hs, fun k hk => ?_⟩
      obtain ⟨hl, hr⟩ := FinSet.mem_inter.1 hk
      exact ⟨hσ.starts hl, hσ.starts hr⟩
  | sequence l r =>
    obtain ⟨a, ha, hs, rfl⟩ := h
    obtain ⟨x, hx, hstarts⟩ := hσ l .restrictions a ha
    refine ⟨l, r, x, .refl, hi, hx, FinSet.isEmpty_eq_false_iff.1 hs, fun k hk => ?_⟩
    obtain ⟨hk, hr⟩ := FinSet.mem_inter.1 hk
    exact ⟨hstarts k hk, hσ.starts hr⟩

theorem Sound.restricting {e : Restriction K} (hσ : Sound G σ) (hi : G i = some p) (h : p.Restricting i σ e) :
    ∃ x, Restricts G i e.origin x ∧ ∀ k ∈ e.disallowed, Starts G x k := by
  cases p with
  | success v => exact h.elim
  | element k => exact h.elim
  | deferred j => exact h.elim
  | transform g j => exact h.elim
  | sequence l r => exact h.elim
  | disjunction l r =>
    rcases h with ⟨hl, rfl⟩ | ⟨hr, rfl⟩
    · exact ⟨r, .ofRight hi (hσ.nullable hl), fun k hk => hσ.starts hk⟩
    · exact ⟨l, .ofLeft hi (hσ.nullable hr), fun k hk => hσ.starts hk⟩

theorem Sound.emptyValue {q : NodeQuery V K (Option V)} {v : Option V} {w : V} (hσ : Sound G σ)
    (hi : G i = some p) (hq : p.define i .emptyValue = .rule q) (hd : q.denote σ = .ok v) (hv : v = some w) :
    Derives G i [] w := by
  cases p with
  | success v => cases hq
  | element k => cases hq
  | deferred j => cases hq
  | disjunction l r =>
    cases hq
    obtain rfl := Except.ok.inj (denote_emptyValue_disjunction.symm.trans hd)
    rcases Option.or_eq_some_iff.1 hv with hl | ⟨-, hr⟩
    · exact .left hi (hσ l .emptyValue w hl)
    · exact .right hi (hσ r .emptyValue w hr)
  | sequence l r =>
    cases hq
    obtain rfl := Except.ok.inj (denote_emptyValue_sequence.symm.trans hd)
    obtain ⟨a, hl, hv⟩ := Option.bind_eq_some_iff.1 hv
    obtain ⟨b, hr, rfl⟩ := Option.map_eq_some_iff.1 hv
    exact .sequence hi (hσ l .emptyValue a hl) (hσ r .emptyValue b hr)
  | transform g j =>
    cases hq
    rcases denote_emptyValue_transform.1 hd with ⟨-, rfl⟩ | ⟨a, b, hj, hg, rfl⟩
    · cases hv
    · cases hv
      exact .transform hi (hσ j .emptyValue a hj) hg

/-- A rule says nothing that does not hold if the values it reads do not. -/
theorem Sound.rule (hσ : Sound G σ) (hi : G i = some p) {q : NodeQuery V K (f.Carrier V K)} {v : f.Carrier V K}
    (hq : p.define i f = .rule q) (hd : q.denote σ = .ok v) : SoundFact G i f v := by
  have htrait : ∀ t : Trait K, ∀ (q : NodeQuery V K (t.fact.Carrier V K)) v, p.define i t.fact = .rule q →
      q.denote σ = .ok v → t.In v → Has G i t := fun t q v hq hd hv =>
    has_of_gives hi (((gives_of_rule hq hd).1 hv).mono fun _ _ _ => hσ.has)
  cases f with
  | first => exact fun k hk => htrait (.startsWith k) q v hq hd hk
  | productive => exact fun hb => htrait .productive q v hq hd hb
  | emptyValue => exact fun w hv => hσ.emptyValue hi hq hd hv
  | restrictions =>
    intro e he
    rcases (Production.mem_restrictions hq hd).1 he with he | ⟨j, hj, he⟩
    · exact hσ.restricting hi he
    · obtain ⟨x, hx, hk⟩ := hσ j .restrictions e he
      exact ⟨x, hσ.restricts hi hj hx, hk⟩
  | conflicts =>
    intro e he
    rcases (Production.mem_conflicts hq hd).1 he with he | ⟨j, hj, he⟩
    · exact hσ.clashing hi he
    · exact (hσ j .conflicts e he).above (.part hi hj)

end Predictive
