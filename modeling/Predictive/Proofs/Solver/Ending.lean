import Predictive.Proofs.Solver.Settling

/-!
Readings without a limit on passes or on runs. A limit that is not reached plays no role, so that a reading ends in at
most one way: in a pass that changes nothing, or in one that fails.
-/
namespace Predictive.Solver

variable {φ : Type} {τ : φ → Type} {ε : Type}

/-- How far a reading has got between two passes. -/
structure Stage (τ : φ → Type) [Ord φ] where
  book : Book τ
  made : Nat := 0
  runs : List (Run φ) := []

variable [Ord φ] [Std.LawfulEqOrd φ] [∀ f, Fact (τ f)]

namespace Family

/-- The next pass ends with `r` in the state `s`, however many runs that takes. -/
def Makes (F : Family τ ε) (root : Cell φ) (x : Stage τ) (r : Except (Failure ε) Unit) (s : Pass τ) : Prop :=
  ∃ n, F.work (x.book.epoch + 1) (x.made + 1) n [root] { memos := x.book.memos, runs := x.runs } = (r, s) ∧
    r ≠ .error .unfinished

/-- Passes are made from `x` on until one changes nothing or fails; that is the `n`-th, and `r` is how it ends. -/
inductive Ends (F : Family τ ε) (root : Cell φ) : Stage τ → Nat → Except (Failure ε) Unit → Book τ → Prop
  | still {x : Stage τ} {s : Pass τ} : F.Makes root x (.ok ()) s → s.changed = false →
      Ends F root x 1 (.ok ()) ⟨settle s.touched s.memos, x.book.epoch + 1⟩
  | fails {x : Stage τ} {s : Pass τ} {e : Failure ε} : F.Makes root x (.error e) s →
      Ends F root x 1 (.error e) ⟨s.memos, x.book.epoch + 1⟩
  | again {x : Stage τ} {s : Pass τ} {n : Nat} {r : Except (Failure ε) Unit} {b : Book τ} :
      F.Makes root x (.ok ()) s → s.changed = true →
      Ends F root ⟨⟨s.memos, x.book.epoch + 1⟩, x.made + 1, s.runs⟩ n r b → Ends F root x (n + 1) r b

variable {F : Family τ ε} {root : Cell φ} {x : Stage τ} {s s' t : Pass τ} {r r' : Except (Failure ε) Unit}
  {b b' : Book τ} {n n' : Nat}

/-- More runs than a pass takes do not change how it ends. -/
theorem work_mono {epoch number : Nat} {cs : List (Cell φ)} (h : F.work epoch number n cs s = (r, t))
    (hr : r ≠ .error .unfinished) (hn : n ≤ n') : F.work epoch number n' cs s = (r, t) := by
  induction n generalizing n' cs s with
  | zero =>
    rw [work.eq_def] at h ⊢
    cases heq : cs.dropWhile (F.isFinished epoch s) with
    | nil => simpa only [heq] using h
    | cons c rest =>
      simp only [heq, Prod.mk.injEq] at h
      exact absurd h.1.symm hr
  | succ n ih =>
    obtain ⟨n', rfl⟩ := Nat.exists_eq_add_of_lt hn
    rw [work.eq_def] at h ⊢
    cases heq : cs.dropWhile (F.isFinished epoch s) with
    | nil => simpa only [heq] using h
    | cons c rest =>
      simp only [heq] at h ⊢
      rcases hrun : F.run epoch number c s with ⟨e | _ | ⟨d, ds⟩, u⟩ <;> simp only [hrun] at h ⊢
      · exact h
      · exact ih h (by omega)
      · exact ih h (by omega)

theorem Makes.unique (h : F.Makes root x r s) (h' : F.Makes root x r' s') : r = r' ∧ s = s' := by
  obtain ⟨n, hw, hr⟩ := h
  obtain ⟨n', hw', hr'⟩ := h'
  have hmax := work_mono hw hr (Nat.le_max_left n n')
  rw [work_mono hw' hr' (Nat.le_max_right n n')] at hmax
  exact ⟨(Prod.mk.inj hmax).1.symm, (Prod.mk.inj hmax).2.symm⟩

theorem Ends.unique (h : F.Ends root x n r b) (h' : F.Ends root x n' r' b') : n = n' ∧ r = r' ∧ b = b' := by
  induction h generalizing n' r' b' with
  | still hm hc =>
    cases h' with
    | still hm' _ =>
      obtain ⟨-, rfl⟩ := hm.unique hm'
      exact ⟨rfl, rfl, rfl⟩
    | fails hm' => cases (hm.unique hm').1
    | again hm' hc' _ =>
      obtain ⟨-, rfl⟩ := hm.unique hm'
      simp [hc] at hc'
  | fails hm =>
    cases h' with
    | fails hm' =>
      obtain ⟨hr, rfl⟩ := hm.unique hm'
      exact ⟨rfl, hr, rfl⟩
    | still hm' _ | again hm' _ _ => cases (hm.unique hm').1
  | again hm hc _ ih =>
    cases h' with
    | still hm' hc' =>
      obtain ⟨-, rfl⟩ := hm.unique hm'
      simp [hc] at hc'
    | fails hm' => cases (hm.unique hm').1
    | again hm' _ hends =>
      obtain ⟨-, rfl⟩ := hm.unique hm'
      obtain ⟨rfl, rfl, rfl⟩ := ih hends
      exact ⟨rfl, rfl, rfl⟩

/-- Passes that stay below their limit are all that there are. -/
theorem ends_of_passes {result : Except (Failure ε) (Effort φ)} (h : F.passes root n x.made x.runs x.book = (result, b))
    (hr : result ≠ .error .unfinished) : ∃ k ≤ n, F.Ends root x k (result.map fun _ => ()) b := by
  induction n generalizing x with
  | zero => exact absurd (Prod.mk.inj h).1.symm hr
  | succ n ih =>
    rw [passes] at h
    rcases hw : F.work (x.book.epoch + 1) (x.made + 1) (2 * F.size) [root]
      { memos := x.book.memos, runs := x.runs } with ⟨e | u, s⟩
    · simp only [hw, Prod.mk.injEq] at h
      obtain ⟨rfl, rfl⟩ := h
      exact ⟨1, by omega, .fails ⟨_, hw, fun he => hr (by rw [Except.error.inj he])⟩⟩
    · have hmakes : F.Makes root x (.ok ()) s := ⟨_, hw, by simp⟩
      cases hc : s.changed with
      | true =>
        simp only [hw, hc, if_true] at h
        obtain ⟨k, hk, hends⟩ := ih (x := ⟨⟨s.memos, x.book.epoch + 1⟩, x.made + 1, s.runs⟩) h
        exact ⟨k + 1, by omega, .again hmakes hc hends⟩
      | false =>
        simp only [hw, hc] at h
        obtain ⟨rfl, rfl⟩ := h
        exact ⟨1, by omega, .still hmakes hc⟩

/-- A reading that yields the value of a rule has ended. -/
theorem ends_of_get {limit p : Nat} {f : φ} {v : τ f} {effort : Option (Effort φ)}
    (hs : F.source? ⟨p, f⟩ = some root) (h : (F.get limit p f b).1 = .ok (v, effort)) :
    ∃ n, F.Ends root ⟨b, 0, []⟩ n (.ok ()) (F.get limit p f b).2 := by
  obtain ⟨q, g⟩ := root
  obtain ⟨rfl, hq, c, hc⟩ := source?_eq_some hs
  rcases hw : F.passes ⟨q, g⟩ limit 0 [] b with ⟨e | made, b'⟩
  · simp [get, hq, hc, hw] at h
  · obtain ⟨n, -, hends⟩ := ends_of_passes (x := ⟨b, 0, []⟩) hw (by simp)
    simp only [get, hq, hc, hw]
    exact ⟨n, hends⟩

end Family
end Predictive.Solver
