import Predictive.Proofs.Rearrangement

/-!
A grammar that may be left out or that may come again. Behind each round stands what a round starts with, so one token
decides on such a grammar exactly if it does on what is repeated, that is never empty, and, if it may come again, its
rounds do not run into each other.
-/
namespace Predictive

/-- How often a grammar may come. -/
inductive Sugar where
  | optional
  | many
  | many1
  deriving DecidableEq

variable {V K : Type} {G : Productions V K} {i j m b q d n : Nat} {k : K} {v : V} {u : Sugar}

/-- The node is the grammar `i` with some sugar: left out or not, or round by round. -/
inductive Repeats (G : Productions V K) (i : Nat) : Sugar → Nat → Prop
  | optional {j d : Nat} {v : V} : G j = some (.disjunction i d) → G d = some (.success v) → Repeats G i .optional j
  | many {m b q d : Nat} {v : V} : G m = some (.deferred b) → G b = some (.disjunction q d) →
      G q = some (.sequence i m) → G d = some (.success v) → Repeats G i .many m
  | many1 {j m : Nat} : G j = some (.sequence i m) → Repeats G i .many m → Repeats G i .many1 j

/-- What must be so of the grammar `i`, one token deciding on it, for one token to decide with the sugar. -/
def Sugar.Suits (G : Productions V K) (i : Nat) : Sugar → Prop
  | optional => ¬Nullable G i
  | many | many1 => ¬Nullable G i ∧ ∀ k, Barred G i k → ¬Starts G i k

theorem Repeats.inner (h : Repeats G i u j) : Below G j i := by
  cases h with
  | optional hj hd => exact Below.part hj (by simp [Production.parts])
  | many hm hb hq hd =>
    exact ((Below.part hm (by simp [Production.parts])).trans (Below.part hb (by simp [Production.parts]))).trans
      (Below.part hq (by simp [Production.parts]))
  | many1 hj _ => exact Below.part hj (by simp [Production.parts])

/-! The end, where nothing is left to come. -/

theorem nullable_success (hd : G d = some (.success v)) : Nullable G d := .success hd

theorem not_starts_success (hd : G d = some (.success v)) : ¬Starts G d k := by
  rw [← has_startsWith_iff, has_iff_gives hd]
  exact id

theorem decidedFrom_success (hd : G d = some (.success v)) : DecidedFrom G d := by
  refine (decidedFrom_iff hd).2 ⟨fun hclash => ?_, fun j hj => ?_⟩
  · cases hclash with
    | bothEmpty h | firstFirst h | follow h => cases hd.symm.trans h
  · cases hj

theorem clashAt_end (hj : G j = some (.disjunction i d)) (hd : G d = some (.success v)) : ClashAt G j ↔ Nullable G i := by
  rw [clashAt_disjunction hj]
  constructor
  · rintro (⟨hi, -⟩ | ⟨k, -, hk⟩)
    · exact hi
    · exact absurd hk (not_starts_success hd)
  · exact fun hi => .inl ⟨hi, nullable_success hd⟩

section Many

theorem nullable_many (hm : G m = some (.deferred b)) (hb : G b = some (.disjunction q d))
    (hd : G d = some (.success v)) : Nullable G m := .deferred hm (.right hb (.success hd))

variable (hm : G m = some (.deferred b)) (hb : G b = some (.disjunction q d)) (hq : G q = some (.sequence i m))
  (hd : G d = some (.success v))
include hm hb hq hd

/-- Round by round there comes first what comes first in a round. -/
theorem starts_many : Starts G m k ↔ Starts G i k := by
  constructor
  · intro h
    suffices hrounds : ∀ n t, Has G n t → (n = m ∨ n = b ∨ n = q) → t = .startsWith k → Has G i (.startsWith k) from
      has_startsWith_iff.1 (hrounds m _ (has_startsWith_iff.2 h) (.inl rfl) rfl)
    intro n t ht
    refine Has.induct (motive := fun n t => (n = m ∨ n = b ∨ n = q) → t = .startsWith k → Has G i (.startsWith k)) ?_ ht
    -- from a round one comes to its first part, or to the rounds behind it
    rintro n p t hn hgives (rfl | rfl | rfl) rfl
    · cases hm.symm.trans hn
      exact hgives.2 (.inr (.inl rfl)) rfl
    · cases hb.symm.trans hn
      rcases hgives with hgives | ⟨hend, -⟩
      · exact hgives.2 (.inr (.inr rfl)) rfl
      · exact absurd (has_startsWith_iff.1 hend) (not_starts_success hd)
    · cases hq.symm.trans hn
      rcases hgives with ⟨-, hfirst, -⟩ | ⟨-, -, hrest⟩
      · exact hfirst
      · exact hrest (.inl rfl) rfl
  · intro h
    have hround : Starts G q k := (starts_sequence hq).2 (.inl ⟨⟨[], nullable_many hm hb hd⟩, h⟩)
    obtain ⟨ks, hks⟩ := (starts_disjunction hb).2 (.inl hround)
    exact ⟨ks, .deferred hm hks⟩

theorem below_many (hn : Below G m n) : n = m ∨ n = b ∨ n = q ∨ n = d ∨ Below G i n := by
  induction hn with
  | refl => exact .inl rfl
  | @tail x y _ hy ih =>
    obtain ⟨p, hp, hyp⟩ := hy
    rcases ih with rfl | rfl | rfl | rfl | hx
    · cases hm.symm.trans hp
      simp_all [Production.parts]
    · cases hb.symm.trans hp
      simp only [Production.parts, List.mem_cons, List.not_mem_nil, or_false] at hyp
      tauto
    · cases hq.symm.trans hp
      simp only [Production.parts, List.mem_cons, List.not_mem_nil, or_false] at hyp
      rcases hyp with rfl | rfl
      · exact .inr (.inr (.inr (.inr .refl)))
      · exact .inl rfl
    · cases hd.symm.trans hp
      cases hyp
    · exact .inr (.inr (.inr (.inr (hx.trans (Below.part hp hyp)))))

theorem decidedFrom_many : DecidedFrom G m ↔ DecidedFrom G i ∧ Sugar.many.Suits G i := by
  have hclash : ClashAt G b ↔ Nullable G i := by
    rw [clashAt_end hb hd, nullable_sequence hq]
    exact ⟨And.left, fun h => ⟨h, nullable_many hm hb hd⟩⟩
  have hfollow : ClashAt G q ↔ ∃ k, Barred G i k ∧ Starts G i k := by
    simp only [clashAt_sequence hq, starts_many hm hb hq hd]
  have hbelow : Below G m b := Below.part hm (by simp [Production.parts])
  have hround : Below G m q := hbelow.trans (Below.part hb (by simp [Production.parts]))
  have hinner : Below G m i := hround.trans (Below.part hq (by simp [Production.parts]))
  constructor
  · intro h
    refine ⟨fun n hn => h n (hinner.trans hn), fun hi => h b hbelow (hclash.2 hi), fun k hk hs => ?_⟩
    exact h q hround (hfollow.2 ⟨k, hk, hs⟩)
  · rintro ⟨hi, hnullable, hbarred⟩ n hn
    rcases below_many hm hb hq hd hn with rfl | rfl | rfl | rfl | hn
    · rintro (⟨h, -⟩ | ⟨h, -⟩ | ⟨h, -⟩) <;> cases hm.symm.trans h
    · exact fun h => hnullable (hclash.1 h)
    · intro h
      obtain ⟨k, hk, hs⟩ := hfollow.1 h
      exact hbarred k hk hs
    · exact decidedFrom_success hd n .refl
    · exact hi n hn

end Many

/-- One token decides with sugar exactly if it does without and the grammar suits. -/
theorem Repeats.decidedFrom_iff (h : Repeats G i u j) : DecidedFrom G j ↔ DecidedFrom G i ∧ u.Suits G i := by
  cases h with
  | optional hj hd =>
    rw [Predictive.decidedFrom_iff hj, clashAt_end hj hd]
    simp only [Production.parts, List.forall_mem_cons, decidedFrom_success hd, Sugar.Suits]
    tauto
  | many hm hb hq hd => exact decidedFrom_many hm hb hq hd
  | many1 hj hmany =>
    cases hmany with
    | many hm hb hq hd =>
      rw [Predictive.decidedFrom_iff hj, clashAt_sequence hj]
      simp only [Production.parts, List.forall_mem_cons, decidedFrom_many hm hb hq hd, starts_many hm hb hq hd,
        Sugar.Suits]
      grind

end Predictive
