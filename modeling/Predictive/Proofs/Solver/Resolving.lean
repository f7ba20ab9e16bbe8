import Mathlib.Data.List.Basic
import Mathlib.Logic.Relation
import Predictive.Proofs.Solver.Evaluation

/-! What a cell stands for: the end of the chain of targets that starts from it, if the chain does not go in a circle. -/
namespace Predictive.Solver.Family

variable {φ : Type} {τ : φ → Type} {ε : Type}
variable {F : Family τ ε} {f : φ} {n n' p q r : Nat}

/-- The cell of `f` at `p` is deferred and has the one at `q` as its target. -/
def Leads (F : Family τ ε) (f : φ) (p q : Nat) : Prop := ∃ v, F.definition p f = .deferred v (some q)

theorem Leads.follow (h : F.Leads f p q) (n : Nat) : F.follow f (n + 1) p = F.follow f n q := by
  obtain ⟨v, hv⟩ := h
  simp only [Family.follow, hv]

theorem follow_self (h : ∀ q, ¬F.Leads f p q) (n : Nat) : F.follow f (n + 1) p = some p := by
  rw [Family.follow]
  split
  · exact absurd ⟨_, ‹_›⟩ (h _)
  · rfl

/-- The chain ends where it leads no further. -/
theorem follow_induct {P : Nat → Prop} (leads : ∀ p r, F.Leads f p r → P r → P p)
    (h : F.follow f n p = some q) (hq : (∀ r, ¬F.Leads f q r) → P q) : P p := by
  induction n generalizing p with
  | zero => cases h
  | succ n ih =>
    by_cases hp : ∃ r, F.Leads f p r
    · obtain ⟨r, hr⟩ := hp
      exact leads p r hr (ih (hr.follow n ▸ h))
    · rw [not_exists] at hp
      obtain rfl : p = q := by simpa [follow_self hp] using h
      exact hq hp

theorem follow_succ (h : F.follow f n p = some q) : F.follow f (n + 1) p = some q := by
  induction n generalizing p with
  | zero => cases h
  | succ n ih =>
    by_cases hp : ∃ r, F.Leads f p r
    · obtain ⟨r, hr⟩ := hp
      rw [hr.follow] at h ⊢
      exact ih h
    · rw [not_exists] at hp
      rw [follow_self hp] at h ⊢
      exact h

theorem follow_mono (hn : n ≤ n') (h : F.follow f n p = some q) : F.follow f n' p = some q := by
  induction hn with
  | refl => exact h
  | step _ ih => exact follow_succ ih

/-- A chain that does not end comes back to where it was, if it can only go on from some places. -/
theorem circular_of_follow {places : List Nat} (hplaces : ∀ p q, F.Leads f p q → p ∈ places) (seen : List Nat)
    (h : F.follow f n p = none) (hn : places.length < n + seen.length) (hnd : seen.Nodup)
    (hseen : ∀ x ∈ seen, x ∈ places ∧ Relation.TransGen (F.Leads f) x p) :
    ∃ q, Relation.ReflTransGen (F.Leads f) p q ∧ Relation.TransGen (F.Leads f) q q := by
  induction n generalizing p seen with
  | zero =>
    have hle := hnd.length_le_of_subset fun x hx => (hseen x hx).1
    omega
  | succ n ih =>
    by_cases hp : ∃ r, F.Leads f p r
    · obtain ⟨r, hr⟩ := hp
      rw [hr.follow] at h
      by_cases hmem : p ∈ seen
      · exact ⟨p, .refl, (hseen p hmem).2⟩
      · obtain ⟨q, hq, hqq⟩ := ih (p :: seen) h (by simp; omega) (List.nodup_cons.2 ⟨hmem, hnd⟩) (by
          rintro x (_ | ⟨_, hx⟩)
          · exact ⟨hplaces p r hr, .single hr⟩
          · exact ⟨(hseen x hx).1, (hseen x hx).2.tail hr⟩)
        exact ⟨q, .head hr hq, hqq⟩
    · rw [not_exists] at hp
      simp [follow_self hp] at h

theorem circular_of_resolve (places : List Nat) (hplaces : ∀ p q, F.Leads f p q → p ∈ places)
    (hn : places.length ≤ F.size) (h : F.resolve p f = none) :
    ∃ q, Relation.ReflTransGen (F.Leads f) p q ∧ Relation.TransGen (F.Leads f) q q :=
  circular_of_follow hplaces [] h (by simp; omega) List.nodup_nil (by simp)

theorem Leads.resolve (h : F.Leads f p q) (hp : (F.resolve p f).isSome) : F.resolve q f = F.resolve p f := by
  obtain ⟨r, hr⟩ := Option.isSome_iff_exists.1 hp
  rw [hr]
  rw [Family.resolve, h.follow] at hr
  exact follow_succ hr

theorem Leads.source? (h : F.Leads f p q) (hp : (F.resolve p f).isSome) : F.source? ⟨q, f⟩ = F.source? ⟨p, f⟩ := by
  obtain ⟨r, hr⟩ := Option.isSome_iff_exists.1 hp
  simp only [Family.source?, h.resolve hp, hr]
  cases F.definition r f <;> rfl

/-- A cell that is not deferred to another stands for itself. -/
theorem resolve_self (h : ∀ q, ¬F.Leads f p q) : F.resolve p f = some p := follow_self h _

theorem not_leads_of_rule {c : Query τ ε (τ f)} (h : F.definition p f = .rule c) (q : Nat) : ¬F.Leads f p q := by
  simp [Leads, h]

theorem not_leads_of_constant {v : τ f} (h : F.definition p f = .constant v) (q : Nat) : ¬F.Leads f p q := by
  simp [Leads, h]

theorem not_leads_of_unbound {v : τ f} (h : F.definition p f = .deferred v none) (q : Nat) : ¬F.Leads f p q := by
  simp [Leads, h]

theorem source?_of_rule {c : Query τ ε (τ f)} (h : F.definition p f = .rule c) :
    F.source? ⟨p, f⟩ = some ⟨p, f⟩ := by
  simp only [Family.source?, resolve_self (not_leads_of_rule h), h]

variable [Ord φ] [Std.LawfulEqOrd φ] [∀ f, Fact (τ f)]

theorem Leads.value (h : F.Leads f p q) (hp : (F.resolve p f).isSome) (m : Memos τ) :
    F.value m q f = F.value m p f := by
  simp only [Family.value, h.resolve hp]

theorem value_of_constant {v : τ f} (h : F.definition p f = .constant v) (m : Memos τ) : F.value m p f = v := by
  simp only [value, resolve_self (not_leads_of_constant h), h]

theorem value_of_unbound {v : τ f} (h : F.definition p f = .deferred v none) (m : Memos τ) : F.value m p f = v := by
  simp only [value, resolve_self (not_leads_of_unbound h), h]

theorem value_of_rule {c : Query τ ε (τ f)} (h : F.definition p f = .rule c) (m : Memos τ) :
    F.value m p f = (memo m ⟨p, f⟩).value :=
  value_of_source? (source?_of_rule h)

/-- What holds of constants, of defaults and of what is remembered, and of a deferred cell if it holds of its target,
holds of what is read. -/
theorem value_induct {P : Nat → τ f → Prop} (m : Memos τ)
    (constant : ∀ p v, F.definition p f = .constant v → P p v)
    (unbound : ∀ p v, F.definition p f = .deferred v none → P p v)
    (rule : ∀ p c, F.definition p f = .rule c → P p (memo m ⟨p, f⟩).value)
    (leads : ∀ p q v, F.Leads f p q → P q v → P p v) (hp : (F.resolve p f).isSome) : P p (F.value m p f) := by
  obtain ⟨q, hq⟩ := Option.isSome_iff_exists.1 hp
  refine follow_induct (P := fun r => P r (F.value m p f)) (fun r s hr hs => leads r s _ hr hs) hq fun hend => ?_
  simp only [value, hq]
  split
  · exact constant q _ ‹_›
  · rename_i v target hd
    cases target with
    | none => exact unbound q _ hd
    | some t => exact absurd ⟨v, hd⟩ (hend t)
  · exact rule q _ ‹_›

end Predictive.Solver.Family
