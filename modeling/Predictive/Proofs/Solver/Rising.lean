import Mathlib.Algebra.Order.BigOperators.Group.List
import Mathlib.Algebra.Order.Ring.Nat
import Mathlib.Order.Bounds.Basic
import Mathlib.Order.BooleanAlgebra.Defs
import Predictive.Proofs.FinSet
import Predictive.Proofs.Solver.Settling

/-!
Monotone families. What is remembered rises towards the least solution of the definitions and stays below it. As there
are only so many values, it cannot rise for ever; where all rules are settled, the least solution has been reached.
-/
namespace Predictive

/-- Facts whose values rise from the bottom. Only equal values say the same, and a greater value has a greater size. -/
class RisingFact (α : Type) [Fact α] [PartialOrder α] where
  size : α → Nat
  bottom_le (a : α) : Fact.bottom ≤ a
  agrees_iff {a b : α} : Fact.agrees a b = true ↔ a = b
  size_lt {a b : α} : a < b → size a < size b

instance : RisingFact Bool where
  size := Bool.toNat
  bottom_le := Bool.false_le
  agrees_iff := beq_iff_eq
  size_lt {a b} h := by revert a b; decide

instance {α : Type} [Ord α] [DecidableEq α] [Std.LawfulEqOrd α] [Std.TransOrd α] : RisingFact (FinSet α) where
  size := FinSet.size
  bottom_le _ _ ha := absurd ha FinSet.not_mem_empty
  agrees_iff := beq_iff_eq
  size_lt := FinSet.size_lt

instance {α : Type} [Fact α] [PartialOrder α] [RisingFact α] : LawfulFact α where
  refl _ := RisingFact.agrees_iff.2 rfl
  symm h := RisingFact.agrees_iff.2 (RisingFact.agrees_iff.1 h).symm

theorem RisingFact.size_le {α : Type} [Fact α] [PartialOrder α] [RisingFact α] {a b : α} (h : a ≤ b) :
    size a ≤ size b := by
  rcases h.eq_or_lt with rfl | h
  · exact le_rfl
  · exact (size_lt h).le

namespace Solver

variable {φ : Type} {τ : φ → Type} {ε : Type}

namespace Query

variable {α : Type} [PartialOrder α] [∀ f, PartialOrder (τ f)] {q : Query τ ε α} {top : (f : φ) → τ f} {bound : α}

/-- The query always has a value, up to `bound` if it reads values up to those of `top`, and a greater one if what it reads
is greater. -/
structure Rises (q : Query τ ε α) (top : (f : φ) → τ f) (bound : α) : Prop where
  total : ∀ σ, ∃ v, q.denote σ = .ok v
  le : ∀ {σ v}, (∀ p f, σ p f ≤ top f) → q.denote σ = .ok v → v ≤ bound
  mono : ∀ {σ σ' v v'}, (∀ p f, σ p f ≤ σ' p f) → (∀ p f, σ' p f ≤ top f) → q.denote σ = .ok v →
    q.denote σ' = .ok v' → v ≤ v'

theorem rises_of_denote {g : ((p : Nat) → (f : φ) → τ f) → α} (h : ∀ σ, q.denote σ = .ok (g σ))
    (hle : ∀ σ, (∀ p f, σ p f ≤ top f) → g σ ≤ bound)
    (hmono : ∀ σ σ', (∀ p f, σ p f ≤ σ' p f) → (∀ p f, σ' p f ≤ top f) → g σ ≤ g σ') : q.Rises top bound where
  total σ := ⟨g σ, h σ⟩
  le {σ v} hσ hv := by
    obtain rfl := Except.ok.inj ((h σ).symm.trans hv)
    exact hle σ hσ
  mono {σ σ' v v'} hσ hσ' hv hv' := by
    obtain rfl := Except.ok.inj ((h σ).symm.trans hv)
    obtain rfl := Except.ok.inj ((h σ').symm.trans hv')
    exact hmono σ σ' hσ hσ'

end Query

namespace Family

/-- No more than `size` cells are rules or deferred. -/
def Finite (F : Family τ ε) : Prop :=
  ∃ cells : List (Cell φ), cells.length ≤ F.size ∧
    ∀ c, (∀ v, F.definition c.place c.fact ≠ .constant v) → c ∈ cells

theorem Finite.bounded {F : Family τ ε} (h : F.Finite) : F.Bounded := by
  obtain ⟨cells, hlen, hmem⟩ := h
  exact ⟨cells, hlen, fun c q hq => hmem c fun v hv => by simp [hq] at hv⟩

variable [∀ f, PartialOrder (τ f)]

/-- `σ` gives each cell a value up to that of `top`, and all definitions hold. -/
structure Solves (F : Family τ ε) (top : (f : φ) → τ f) (σ : (p : Nat) → (f : φ) → τ f) : Prop where
  le_top : ∀ p f, σ p f ≤ top f
  constant : ∀ {p f v}, F.definition p f = .constant v → σ p f = v
  rule : ∀ {p f q}, F.definition p f = .rule q → q.denote σ = .ok (σ p f)
  unbound : ∀ {p f v}, F.definition p f = .deferred v none → σ p f = v
  leads : ∀ {p q f}, F.Leads f p q → σ p f = σ q f

/-- A finite family of values up to those of `top`. Its rules are monotone, and no deferred cell stands for itself. -/
structure Monotone (F : Family τ ε) (top : (f : φ) → τ f) : Prop where
  finite : F.Finite
  acyclic : ∀ f p, ¬Relation.TransGen (F.Leads f) p p
  constant : ∀ {p f v}, F.definition p f = .constant v → v ≤ top f
  unbound : ∀ {p f v}, F.definition p f = .deferred v none → v ≤ top f
  rule : ∀ {p f q}, F.definition p f = .rule q → q.Rises top (top f)

variable {F : Family τ ε} {top : (f : φ) → τ f} {f : φ} {p : Nat} {c root : Cell φ}

theorem Monotone.isSome_resolve (hF : F.Monotone top) (p : Nat) (f : φ) : (F.resolve p f).isSome := by
  by_contra hn
  obtain ⟨cells, hlen, hmem⟩ := hF.finite
  have hplaces : ∀ p q, F.Leads f p q → p ∈ cells.map Cell.place := by
    rintro p q ⟨v, hv⟩
    have hp : ⟨p, f⟩ ∈ cells := hmem ⟨p, f⟩ fun w hw => by simp [hv] at hw
    exact List.mem_map.2 ⟨_, hp, rfl⟩
  obtain ⟨q, -, hq⟩ := circular_of_resolve _ hplaces (by simpa using hlen) (by simpa using hn)
  exact hF.acyclic f q hq

theorem Monotone.not_stuck (hF : F.Monotone top) {e : Failure ε} : ¬F.Stuck c e := fun h => by
  cases h with
  | @circle q σ r hq hr hn => simpa [hn] using hF.isSome_resolve r.place r.fact
  | @rule q σ e hq hd =>
    obtain ⟨v, hv⟩ := (hF.rule hq).total σ
    simp [hd] at hv

variable [Ord φ] [Std.LawfulEqOrd φ] [∀ f, Fact (τ f)]
variable {m m' m₀ m₁ : Memos τ} {e e' : Nat} {σ : (p : Nat) → (f : φ) → τ f}

theorem value_mono (h : ∀ c, (memo m c).value ≤ (memo m' c).value) (p : Nat) (f : φ) :
    F.value m p f ≤ F.value m' p f := by
  cases hs : F.source? ⟨p, f⟩ with
  | none => exact (value_of_no_source m m' hs).le
  | some d =>
    obtain ⟨q, g⟩ := d
    obtain rfl : g = f := (source?_eq_some hs).1
    rw [value_of_source? hs, value_of_source? hs]
    exact h _

/-- What is read stays below a solution if what is remembered does. -/
theorem Solves.value_le (hσ : F.Solves top σ) (h : ∀ c, (memo m c).value ≤ σ c.place c.fact)
    (hp : (F.resolve p f).isSome) : F.value m p f ≤ σ p f :=
  value_induct (P := fun p v => v ≤ σ p f) m (fun _ _ hd => (hσ.constant hd).ge) (fun _ _ hd => (hσ.unbound hd).ge)
    (fun p _ _ => h ⟨p, f⟩) (fun _ _ _ hl hv => hv.trans (hσ.leads hl).ge) hp

theorem Monotone.value_le_top (hF : F.Monotone top) (h : ∀ c, (memo m c).value ≤ top c.fact) (p : Nat) (f : φ) :
    F.value m p f ≤ top f :=
  value_induct (P := fun _ v => v ≤ top f) m (fun _ _ => hF.constant) (fun _ _ => hF.unbound)
    (fun p _ _ => h ⟨p, f⟩) (fun _ _ _ _ => id) (hF.isSome_resolve p f)

/-- How far the memos `m` have risen by the pass `e`, the solver having started from `m₀`. -/
structure Approaches (F : Family τ ε) (top : (f : φ) → τ f) (m₀ : Memos τ) (e : Nat) (m : Memos τ) : Prop where
  epoch : ∀ c, (memo m c).epoch ≤ e
  le_top : ∀ c, (memo m c).value ≤ top c.fact
  below : ∀ σ, F.Solves top σ → ∀ c, (memo m c).value ≤ σ c.place c.fact
  rising : ∀ c q v, F.definition c.place c.fact = .rule q → q.denote (F.value m) = .ok v → (memo m c).value ≤ v
  justified : ∀ c, (memo m c).settled = true → F.Justified m c
  kept : ∀ c, (memo m₀ c).settled = true → (memo m c).settled = true ∧ (memo m c).value = (memo m₀ c).value

namespace Approaches

theorem refl (h : F.Approaches top m₀ e m) : F.Approaches top m e m :=
  { h with kept := fun _ hc => ⟨hc, rfl⟩ }

theorem trans (h₁ : F.Approaches top m₀ e m₁) (h₂ : F.Approaches top m₁ e' m) : F.Approaches top m₀ e' m :=
  { h₂ with
    kept := fun c hc => by
      obtain ⟨hs, hv⟩ := h₁.kept c hc
      exact ⟨(h₂.kept c hs).1, (h₂.kept c hs).2.trans hv⟩ }

/-- A step keeps each value, or replaces it by what the rule of an unsettled cell gives. -/
theorem step (h : F.Approaches top m₀ e m) (hF : F.Monotone top) (he : ∀ c, (memo m' c).epoch ≤ e')
    (hv : ∀ c, (memo m' c).value = (memo m c).value ∨ (memo m c).settled = false ∧
      ∃ q, F.definition c.place c.fact = .rule q ∧ q.denote (F.value m) = .ok (memo m' c).value)
    (hs : ∀ c, (memo m c).settled = true → (memo m' c).settled = true)
    (hj : ∀ c, (memo m' c).settled = true → (memo m c).settled = true ∨ F.Justified m' c) :
    F.Approaches top m₀ e' m' := by
  have hle : ∀ c, (memo m c).value ≤ (memo m' c).value := by
    intro c
    rcases hv c with hc | ⟨-, q, hq, hd⟩
    · exact hc.ge
    · exact h.rising c q _ hq hd
  have hsame : ∀ c, (memo m c).settled = true → (memo m' c).value = (memo m c).value := by
    intro c hc
    refine (hv c).resolve_right fun ⟨hn, _⟩ => ?_
    simp [hc] at hn
  have htop : ∀ c, (memo m' c).value ≤ top c.fact := by
    intro c
    rcases hv c with hc | ⟨-, q, hq, hd⟩
    · exact hc ▸ h.le_top c
    · exact (hF.rule hq).le (hF.value_le_top h.le_top) hd
  refine ⟨he, htop, fun σ hσ c => ?_, fun c q v hq hd => ?_, fun c hc => ?_, fun c hc => ?_⟩
  · rcases hv c with hc | ⟨-, q, hq, hd⟩
    · exact hc ▸ h.below σ hσ c
    · exact (hF.rule hq).mono (fun p f => hσ.value_le (h.below σ hσ) (hF.isSome_resolve p f)) hσ.le_top hd (hσ.rule hq)
  · obtain ⟨w, hw⟩ := (hF.rule hq).total (F.value m)
    have hwv : w ≤ v := (hF.rule hq).mono (value_mono hle) (hF.value_le_top htop) hw hd
    rcases hv c with hc | ⟨-, q', hq', hd'⟩
    · exact hc ▸ (h.rising c q w hq hw).trans hwv
    · obtain rfl : q = q' := by simpa [hq] using hq'
      obtain rfl : w = (memo m' c).value := by simpa [hw] using hd'
      exact hwv
  · refine (hj c hc).elim (fun hc' => ?_) id
    exact (h.justified c hc').mono (hsame c hc') fun d hd => ⟨hs d hd, hsame d hd⟩
  · obtain ⟨hset, hval⟩ := h.kept c hc
    exact ⟨hs c hset, (hsame c hset).trans hval⟩

end Approaches

/-! Each sweep that changes something adds to the sum of all sizes. -/

/-- A sweep takes no value back. -/
theorem Approaches.le_of_sweep (h : F.Approaches top m₀ e m) (h' : F.Approaches top m₁ e' m') (hF : F.Monotone top)
    {T : List (Cell φ)} (hs : F.Sweep root m m' T) (c : Cell φ) : (memo m c).value ≤ (memo m' c).value := by
  refine hs.induct (fun _ hc => hc.ge) (fun c _ u q hu hq hd => ?_) c
  have hmu : ∀ d, (memo m d).value ≤ (memo u d).value := by
    intro d
    rcases hu d with hd | ⟨hd, hle⟩
    · exact hd.ge
    · exact hd ▸ hle
  have htop : ∀ d, (memo u d).value ≤ top d.fact := by
    intro d
    rcases hu d with hd | ⟨hd, -⟩
    · exact hd ▸ h.le_top d
    · exact hd ▸ h'.le_top d
  obtain ⟨w, hw⟩ := (hF.rule hq).total (F.value m)
  exact (h.rising c q w hq hw).trans ((hF.rule hq).mono (value_mono hmu) (hF.value_le_top htop) hw hd)

variable [∀ f, RisingFact (τ f)] {N n : Nat}

/-- The sum of the sizes of what is remembered of `cells`. -/
def risen (cells : List (Cell φ)) (m : Memos τ) : Nat := (cells.map fun c => RisingFact.size (memo m c).value).sum

theorem risen_le {cells : List (Cell φ)} (hN : ∀ f, RisingFact.size (top f) ≤ N) (h : F.Approaches top m₀ e m) :
    risen cells m ≤ cells.length * N := by
  refine (List.sum_le_card_nsmul _ N ?_).trans_eq (by simp)
  intro x hx
  obtain ⟨c, -, rfl⟩ := List.mem_map.1 hx
  exact (RisingFact.size_le (h.le_top c)).trans (hN c.fact)

theorem risen_lt {cells : List (Cell φ)} (hle : ∀ c, (memo m c).value ≤ (memo m' c).value) (hc : c ∈ cells)
    (hne : (memo m c).value ≠ (memo m' c).value) : risen cells m < risen cells m' :=
  List.sum_lt_sum _ _ (fun d _ => RisingFact.size_le (hle d)) ⟨c, hc, RisingFact.size_lt (lt_of_le_of_ne (hle c) hne)⟩

/-- There are no more sweeps that change something than the values can rise. -/
theorem Restless.le (h : F.Restless (fun _ => True) (fun m => ∃ e, F.Approaches top m₀ e m) n root m)
    (hF : F.Monotone top) (hN : ∀ f, RisingFact.size (top f) ≤ N) : n ≤ F.size * N := by
  obtain ⟨cells, hlen, hcells⟩ := hF.finite.bounded
  obtain ⟨ms, Ts, -, hP, hsteps⟩ := h
  have hrise : ∀ i ≤ n, i ≤ risen cells (ms i) := by
    intro i hi
    induction i with
    | zero => exact Nat.zero_le _
    | succ i ih =>
      obtain ⟨hs, -, c, hc, ha⟩ := hsteps i (by omega)
      obtain ⟨e, he⟩ := hP i (by omega)
      obtain ⟨e', he'⟩ := hP (i + 1) hi
      obtain ⟨rank, horder⟩ := hs.order
      obtain ⟨-, -, u, q, -, hq, -⟩ := horder c hc
      have hne : (memo (ms i) c).value ≠ (memo (ms (i + 1)) c).value := fun heq => by
        rw [RisingFact.agrees_iff.2 heq.symm] at ha
        cases ha
      have := risen_lt (he.le_of_sweep he' hF hs) (hcells c q hq) hne
      have := ih (by omega)
      omega
  obtain ⟨e, he⟩ := hP n le_rfl
  calc n ≤ risen cells (ms n) := hrise n le_rfl
    _ ≤ cells.length * N := risen_le hN he
    _ ≤ F.size * N := Nat.mul_le_mul_right N hlen

/-- Where all rules are settled, the least solution is read. -/
theorem Approaches.isLeast (h : F.Approaches top m₀ e m) (hF : F.Monotone top)
    (hm : ∀ c q, F.definition c.place c.fact = .rule q → (memo m c).settled = true) :
    IsLeast {σ | F.Solves top σ} (F.value m) := by
  refine ⟨⟨hF.value_le_top h.le_top, fun hd => value_of_constant hd m, fun {p f q} hq => ?_,
    fun hd => value_of_unbound hd m, fun hl => (hl.value (hF.isSome_resolve _ _) m).symm⟩,
    fun σ hσ p f => hσ.value_le (h.below σ hσ) (hF.isSome_resolve p f)⟩
  obtain ⟨q', σ, hq', hd, hr⟩ := h.justified ⟨p, f⟩ (hm ⟨p, f⟩ q hq)
  obtain rfl : q = q' := by simpa [hq] using hq'
  rw [value_of_rule hq, ← hd]
  exact (Query.denote_congr fun r hrr => RisingFact.agrees_iff.1 (hr r hrr).2).1

end Family
end Solver
end Predictive
