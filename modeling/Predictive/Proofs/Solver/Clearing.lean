import Mathlib.Logic.Relation
import Mathlib.Data.List.Basic
import Predictive.Proofs.Solver.Evaluation

/-!
One pass as a derivation: how the stack is cleared, a rule that misses others being computed after them. A pass
ends within two runs for each rule.
-/
namespace Predictive.Solver

variable {φ : Type} {τ : φ → Type} {ε : Type}
variable [Ord φ] [Std.LawfulEqOrd φ] [∀ f, Fact (τ f)]

namespace Pass

def memo (s : Pass τ) (c : Cell φ) : Memo (τ c.fact) := Family.memo s.memos c

/-- The rule was computed in the pass `epoch`. -/
def Done (epoch : Nat) (s : Pass τ) (c : Cell φ) : Prop := (s.memo c).epoch = epoch ∧ (s.memo c).done = true

/-- The rule was run in the pass `epoch` and waits for others. -/
def Active (epoch : Nat) (s : Pass τ) (c : Cell φ) : Prop := (s.memo c).epoch = epoch ∧ (s.memo c).active = true

end Pass

namespace Family

variable {F : Family τ ε} {epoch number n : Nat} {s t : Pass τ} {c d : Cell φ} {cs : List (Cell φ)}

theorem isFinished_of_rule (epoch : Nat) (s : Pass τ) {q : Query τ ε (τ c.fact)} (h : F.definition c.place c.fact = .rule q) :
    F.isFinished epoch s c = true ↔ (s.memo c).settled = true ∨ s.Done epoch c := by
  simp [isFinished, h, Memo.isFinished, Pass.memo, Pass.Done]

theorem rule_of_not_finished (h : F.isFinished epoch s c = false) :
    ∃ q, F.definition c.place c.fact = .rule q := by
  unfold isFinished at h
  split at h
  · exact ⟨_, ‹_›⟩
  · cases h

theorem not_finished_of_unready {q : Query τ ε (τ c.fact)} (hq : F.definition c.place c.fact = .rule q)
    (h : (s.memo c).isReady epoch = false) : F.isFinished epoch s c = false := by
  simp only [Pass.memo, Memo.isReady, Bool.or_eq_false_iff, Bool.and_eq_false_iff] at h
  simp only [isFinished, hq, Memo.isFinished, Bool.or_eq_false_iff, Bool.and_eq_false_iff]
  exact ⟨h.1, h.2.imp_right And.left⟩

theorem not_settled_of_not_finished (h : F.isFinished epoch s c = false) : (s.memo c).settled = false := by
  obtain ⟨q, hq⟩ := rule_of_not_finished h
  by_contra hs
  have := (isFinished_of_rule epoch s hq).2 (.inl (by simpa using hs))
  simp [h] at this

theorem not_active_of_unready (h : (s.memo c).isReady epoch = false) : ¬s.Active epoch c := fun ha => by
  simp [Memo.isReady, ha.1, ha.2] at h

/-- Running an unfinished rule fails, computes it, or finds that others are missing. -/
theorem run_cases (epoch number : Nat) (s : Pass τ) {q : Query τ ε (τ c.fact)} (hq : F.definition c.place c.fact = .rule q) :
    (∃ e, F.eval (s.start epoch number c).memos epoch q = .error e ∧
      F.run epoch number c s = (.error e, s.start epoch number c)) ∨
    (∃ v, F.eval (s.start epoch number c).memos epoch q = .ok (v, []) ∧
      F.run epoch number c s = (.ok [], (s.start epoch number c).finish c v)) ∨
    ∃ v missing, missing ≠ [] ∧ F.eval (s.start epoch number c).memos epoch q = .ok (v, missing) ∧
      F.run epoch number c s = (.ok missing, s.start epoch number c) := by
  simp only [run, hq]
  cases h : F.eval (s.start epoch number c).memos epoch q with
  | error e => exact .inl ⟨e, rfl, rfl⟩
  | ok r =>
    obtain ⟨v, _ | ⟨d, ds⟩⟩ := r
    · exact .inr (.inl ⟨v, rfl, rfl⟩)
    · exact .inr (.inr ⟨v, d :: ds, by simp, rfl, rfl⟩)

theorem within_missing {Q : Cell φ → Prop} (hQ : F.Within Q) {q : Query τ ε (τ c.fact)} (hc : Q c)
    (hq : F.definition c.place c.fact = .rule q) {m : Memos τ} {v : τ c.fact} {missing : List (Cell φ)}
    (h : F.eval m epoch q = .ok (v, missing)) : ∀ d ∈ missing, Q d := by
  intro d hd
  rw [(eval_ok h).2.2, mem_unready] at hd
  obtain ⟨⟨r, hr, hs⟩, _⟩ := hd
  exact hQ c q _ hc hq r hr d hs

/-! What every run of a pass keeps, also if it fails. -/

theorem mem_of_dropWhile_eq_cons {α : Type} {p : α → Bool} {xs ys : List α} {x : α}
    (h : xs.dropWhile p = x :: ys) : x ∈ xs ∧ ∀ y ∈ ys, y ∈ xs := by
  have hsub : (x :: ys).Sublist xs := h ▸ List.dropWhile_sublist p
  exact ⟨hsub.mem List.mem_cons_self, fun y hy => hsub.mem (List.mem_cons_of_mem x hy)⟩

theorem not_of_dropWhile_eq_cons {α : Type} {p : α → Bool} {xs ys : List α} {x : α}
    (h : xs.dropWhile p = x :: ys) : p x = false := by
  have hne : xs.dropWhile p ≠ [] := by simp [h]
  simpa [h] using List.head_dropWhile_not p hne

/-- How a stack is worked off: there is nothing left to do, the steps are spent, or the first unfinished rule fails, is
computed, or waits for what it misses. -/
theorem work_induct (epoch number : Nat)
    {motive : Nat → List (Cell φ) → Pass τ → Except (Failure ε) Unit × Pass τ → Prop}
    (finished : ∀ n cs s, cs.dropWhile (F.isFinished epoch s) = [] → motive n cs s (.ok (), s))
    (spent : ∀ cs s c rest, cs.dropWhile (F.isFinished epoch s) = c :: rest → motive 0 cs s (.error .unfinished, s))
    (fails : ∀ n cs s c rest q e, cs.dropWhile (F.isFinished epoch s) = c :: rest →
      F.definition c.place c.fact = .rule q → F.eval (s.start epoch number c).memos epoch q = .error e →
      motive (n + 1) cs s (.error e, s.start epoch number c))
    (computes : ∀ n cs s c rest q v r, cs.dropWhile (F.isFinished epoch s) = c :: rest →
      F.definition c.place c.fact = .rule q → F.eval (s.start epoch number c).memos epoch q = .ok (v, []) →
      motive n rest ((s.start epoch number c).finish c v) r → motive (n + 1) cs s r)
    (waits : ∀ n cs s c rest q v missing r, cs.dropWhile (F.isFinished epoch s) = c :: rest →
      F.definition c.place c.fact = .rule q → F.eval (s.start epoch number c).memos epoch q = .ok (v, missing) →
      missing ≠ [] → motive n (missing.reverse ++ c :: rest) (s.start epoch number c) r → motive (n + 1) cs s r)
    (n : Nat) (cs : List (Cell φ)) (s : Pass τ) : motive n cs s (F.work epoch number n cs s) := by
  induction n generalizing cs s with
  | zero =>
    rw [work.eq_def]
    cases heq : cs.dropWhile (F.isFinished epoch s) with
    | nil => simpa only [heq] using finished 0 cs s heq
    | cons c rest => simpa only [heq] using spent cs s c rest heq
  | succ n ih =>
    rw [work.eq_def]
    cases heq : cs.dropWhile (F.isFinished epoch s) with
    | nil => simpa only [heq] using finished (n + 1) cs s heq
    | cons c rest =>
      obtain ⟨q, hq⟩ := rule_of_not_finished (not_of_dropWhile_eq_cons heq)
      rcases run_cases epoch number s hq with
        ⟨e, he, hr⟩ | ⟨v, he, hr⟩ | ⟨v, missing, hm, he, hr⟩
      · simpa only [heq, hr] using fails n cs s c rest q e heq hq he
      · simpa only [heq, hr] using computes n cs s c rest q v _ heq hq he (ih rest _)
      · have hwait := waits n cs s c rest q v missing _ heq hq he hm (ih _ _)
        obtain ⟨d, ds, rfl⟩ := List.exists_cons_of_ne_nil hm
        simpa only [heq, hr] using hwait

/-- What is put on the stack stays within `Q`. -/
theorem within_waiting {Q : Cell φ → Prop} (hQ : F.Within Q) {rest missing : List (Cell φ)} {q : Query τ ε (τ c.fact)}
    {v : τ c.fact} {m : Memos τ} (hcs : ∀ d ∈ cs, Q d) (heq : cs.dropWhile (F.isFinished epoch s) = c :: rest)
    (hq : F.definition c.place c.fact = .rule q) (he : F.eval m epoch q = .ok (v, missing)) :
    ∀ d ∈ missing.reverse ++ c :: rest, Q d := by
  obtain ⟨hc, hrest⟩ := mem_of_dropWhile_eq_cons heq
  intro d hd
  rcases List.mem_append.1 hd with hd | hd
  · exact within_missing hQ (hcs c hc) hq he d (List.mem_reverse.1 hd)
  · rcases List.mem_cons.1 hd with rfl | hd
    · exact hcs d hc
    · exact hcs d (hrest d hd)

theorem work_preserves {Q : Cell φ → Prop} (hQ : F.Within Q) {I : Pass τ → Prop}
    (hstart : ∀ s c, Q c → F.isFinished epoch s c = false → I s → I (s.start epoch number c))
    (hfinish : ∀ s c q v, Q c → F.isFinished epoch s c = false → F.definition c.place c.fact = .rule q →
      F.eval (s.start epoch number c).memos epoch q = .ok (v, []) → I s →
      I ((s.start epoch number c).finish c v))
    (hcs : ∀ c ∈ cs, Q c) (hs : I s) : I (F.work epoch number n cs s).2 := by
  refine work_induct epoch number (motive := fun _ cs s r => (∀ c ∈ cs, Q c) → I s → I r.2) ?_ ?_ ?_ ?_ ?_ n cs s hcs hs
  · exact fun _ _ _ _ _ hs => hs
  · exact fun _ _ _ _ _ _ hs => hs
  · exact fun _ cs s c rest q e heq _ _ hcs hs =>
      hstart s c (hcs c (mem_of_dropWhile_eq_cons heq).1) (not_of_dropWhile_eq_cons heq) hs
  · intro _ cs s c rest q v r heq hq he ih hcs hs
    obtain ⟨hc, hrest⟩ := mem_of_dropWhile_eq_cons heq
    exact ih (fun d hd => hcs d (hrest d hd))
      (hfinish s c q v (hcs c hc) (not_of_dropWhile_eq_cons heq) hq he hs)
  · intro _ cs s c rest q v missing r heq hq he _ ih hcs hs
    exact ih (within_waiting hQ hcs heq hq he)
      (hstart s c (hcs c (mem_of_dropWhile_eq_cons heq).1) (not_of_dropWhile_eq_cons heq) hs)

/-- The rule of `c` gives up, or reads a cell that leads in a circle, for some values of the cells. -/
inductive Stuck (F : Family τ ε) (c : Cell φ) : Failure ε → Prop
  | circle {q : Query τ ε (τ c.fact)} {σ : (p : Nat) → (f : φ) → τ f} {r : Cell φ} :
      F.definition c.place c.fact = .rule q → r ∈ q.reads σ → F.resolve r.place r.fact = none →
      Stuck F c .boundToItself
  | rule {q : Query τ ε (τ c.fact)} {σ : (p : Nat) → (f : φ) → τ f} {e : ε} :
      F.definition c.place c.fact = .rule q → q.denote σ = .error e → Stuck F c (.rule e)

theorem stuck_of_eval {q : Query τ ε (τ c.fact)} (hq : F.definition c.place c.fact = .rule q) {m : Memos τ}
    {e : Failure ε} (h : F.eval m epoch q = .error e) : F.Stuck c e := by
  rcases eval_error h with ⟨rfl, r, hr, hn⟩ | ⟨e', rfl, hd⟩
  · exact .circle hq hr hn
  · exact .rule hq hd

/-- The cells of the stack are cleared from `s` to `t`; `log` has the rules computed on the way, in order, with
the memos from which each was computed. -/
inductive Clears (F : Family τ ε) (epoch number : Nat) :
    List (Cell φ) → Pass τ → Pass τ → List (Cell φ × Memos τ) → Prop
  | nil (s : Pass τ) : Clears F epoch number [] s s []
  | skip {c : Cell φ} {cs : List (Cell φ)} {s t : Pass τ} {log : List (Cell φ × Memos τ)} :
      F.isFinished epoch s c = true → Clears F epoch number cs s t log →
      Clears F epoch number (c :: cs) s t log
  | compute {c : Cell φ} {cs : List (Cell φ)} {s t : Pass τ} {log : List (Cell φ × Memos τ)}
      {q : Query τ ε (τ c.fact)} {v : τ c.fact} : F.isFinished epoch s c = false →
      F.definition c.place c.fact = .rule q →
      F.eval (s.start epoch number c).memos epoch q = .ok (v, []) →
      Clears F epoch number cs ((s.start epoch number c).finish c v) t log →
      Clears F epoch number (c :: cs) s t ((c, (s.start epoch number c).memos) :: log)
  | wait {c : Cell φ} {cs : List (Cell φ)} {s t w : Pass τ} {log₁ log₂ : List (Cell φ × Memos τ)}
      {q : Query τ ε (τ c.fact)} {v : τ c.fact} {missing : List (Cell φ)} : F.isFinished epoch s c = false →
      F.definition c.place c.fact = .rule q →
      F.eval (s.start epoch number c).memos epoch q = .ok (v, missing) → missing ≠ [] →
      Clears F epoch number missing.reverse (s.start epoch number c) w log₁ →
      Clears F epoch number (c :: cs) w t log₂ → Clears F epoch number (c :: cs) s t (log₁ ++ log₂)

theorem Clears.dropWhile {log : List (Cell φ × Memos τ)}
    (h : Clears F epoch number (cs.dropWhile (F.isFinished epoch s)) s t log) :
    Clears F epoch number cs s t log := by
  induction cs with
  | nil => exact h
  | cons c cs ih =>
    cases hc : F.isFinished epoch s c with
    | false => rwa [List.dropWhile_cons_of_neg (by simp [hc])] at h
    | true =>
      rw [List.dropWhile_cons_of_pos hc] at h
      exact .skip hc (ih h)

theorem Clears.split {xs ys : List (Cell φ)} {log : List (Cell φ × Memos τ)}
    (h : Clears F epoch number (xs ++ ys) s t log) :
    ∃ w log₁ log₂, Clears F epoch number xs s w log₁ ∧ Clears F epoch number ys w t log₂ ∧
      log = log₁ ++ log₂ := by
  generalize he : xs ++ ys = zs at h
  induction h generalizing xs with
  | nil =>
    obtain ⟨rfl, rfl⟩ := List.append_eq_nil_iff.1 he
    exact ⟨_, [], [], .nil _, .nil _, rfl⟩
  | skip hf h ih =>
    rcases List.append_eq_cons_iff.1 he with ⟨rfl, rfl⟩ | ⟨xs', rfl, rfl⟩
    · exact ⟨_, [], _, .nil _, .skip hf h, rfl⟩
    · obtain ⟨w, l₁, l₂, h₁, h₂, rfl⟩ := ih rfl
      exact ⟨w, l₁, l₂, .skip hf h₁, h₂, rfl⟩
  | compute hf hq hv h ih =>
    rcases List.append_eq_cons_iff.1 he with ⟨rfl, rfl⟩ | ⟨xs', rfl, rfl⟩
    · exact ⟨_, [], _, .nil _, .compute hf hq hv h, rfl⟩
    · obtain ⟨w, l₁, l₂, h₁, h₂, rfl⟩ := ih rfl
      exact ⟨w, _, l₂, .compute hf hq hv h₁, h₂, rfl⟩
  | wait hf hq hv hm h₁ h₂ _ ih =>
    rcases List.append_eq_cons_iff.1 he with ⟨rfl, rfl⟩ | ⟨xs', rfl, rfl⟩
    · exact ⟨_, [], _, .nil _, .wait hf hq hv hm h₁ h₂, rfl⟩
    · obtain ⟨w, l₁, l₂, h₃, h₄, rfl⟩ := @ih (_ :: xs') rfl
      exact ⟨w, _, l₂, .wait hf hq hv hm h₁ h₃, h₄, (List.append_assoc ..).symm⟩

/-- A pass that ends well has cleared its stack. -/
theorem clears_of_work (h : F.work epoch number n cs s = (.ok (), t)) :
    ∃ log, Clears F epoch number cs s t log := by
  refine work_induct (F := F) epoch number
    (motive := fun _ cs s r => r = (.ok (), t) → ∃ log, Clears F epoch number cs s t log) ?_ ?_ ?_ ?_ ?_ n cs s h
  · rintro _ cs s heq ⟨⟩
    exact ⟨[], .dropWhile (heq ▸ .nil _)⟩
  · exact fun _ _ _ _ _ h => nomatch h
  · exact fun _ _ _ _ _ _ _ _ _ _ h => nomatch h
  · intro _ cs s c rest q v r heq hq he ih h
    obtain ⟨log, hl⟩ := ih h
    exact ⟨_, .dropWhile (heq ▸ Clears.compute (not_of_dropWhile_eq_cons heq) hq he hl)⟩
  · intro _ cs s c rest q v missing r heq hq he hm ih h
    obtain ⟨log, hl⟩ := ih h
    obtain ⟨w, log₁, log₂, h₁, h₂, rfl⟩ := hl.split
    exact ⟨_, .dropWhile (heq ▸ Clears.wait (not_of_dropWhile_eq_cons heq) hq he hm h₁ h₂)⟩

/-- What holds in a pass that began with the memos `m`. -/
structure Tidy (F : Family τ ε) (epoch : Nat) (m : Memos τ) (s : Pass τ) : Prop where
  nodup : s.touched.Nodup
  touched : ∀ c, c ∈ s.touched ↔ (s.memo c).epoch = epoch
  rule : ∀ c ∈ s.touched, ∃ q, F.definition c.place c.fact = .rule q
  active : ∀ c ∈ s.touched, (s.memo c).active = !(s.memo c).done
  unsettled : ∀ c ∈ s.touched, (memo m c).settled = false
  settled : ∀ c, (s.memo c).settled = (memo m c).settled
  untouched : ∀ c, c ∉ s.touched → s.memo c = memo m c
  value : ∀ c, ¬s.Done epoch c → (s.memo c).value = (memo m c).value
  changed : s.changed = true ↔ ∃ c, s.Done epoch c ∧ Fact.agrees (s.memo c).value (memo m c).value = false

namespace Tidy

variable {m : Memos τ}

theorem begin (h : ∀ c, (memo m c).epoch < epoch) (runs : List (Run φ)) :
    F.Tidy epoch m { memos := m, runs } where
  nodup := List.nodup_nil
  touched c := by
    have := Nat.ne_of_lt (h c)
    simpa [Pass.memo] using this
  rule c hc := by cases hc
  active c hc := by cases hc
  unsettled c hc := by cases hc
  settled _ := rfl
  untouched _ _ := rfl
  value _ _ := rfl
  changed := by
    simp only [Bool.false_eq_true, false_iff, not_exists, not_and]
    intro c hc
    exact absurd hc.1 (Nat.ne_of_lt (h c))

theorem done_touched (h : F.Tidy epoch m s) (hc : s.Done epoch c) : c ∈ s.touched := (h.touched c).2 hc.1

theorem active_touched (h : F.Tidy epoch m s) (hc : s.Active epoch c) : c ∈ s.touched := (h.touched c).2 hc.1

theorem done_or_active (h : F.Tidy epoch m s) (hc : c ∈ s.touched) : s.Done epoch c ∨ s.Active epoch c := by
  have he := (h.touched c).1 hc
  have ha := h.active c hc
  cases hd : (s.memo c).done with
  | true => exact .inl ⟨he, hd⟩
  | false => exact .inr ⟨he, by simpa [hd] using ha⟩

theorem not_active_of_done (h : F.Tidy epoch m s) (hc : s.Done epoch c) : ¬s.Active epoch c := fun ha => by
  have := h.active c (h.done_touched hc)
  rw [hc.2, ha.2] at this
  cases this

theorem not_done_of_not_finished (hf : F.isFinished epoch s c = false) : ¬s.Done epoch c := fun hd => by
  obtain ⟨q, hq⟩ := rule_of_not_finished hf
  have := (isFinished_of_rule epoch s hq).2 (.inr hd)
  simp [hf] at this

theorem not_active_of_finished (h : F.Tidy epoch m s) (hf : F.isFinished epoch s c = true) :
    ¬s.Active epoch c := fun ha => by
  have hc := h.active_touched ha
  obtain ⟨q, hq⟩ := h.rule c hc
  rcases (isFinished_of_rule epoch s hq).1 hf with hset | hd
  · rw [h.settled, h.unsettled c hc] at hset
    cases hset
  · exact h.not_active_of_done hd ha

theorem unsettled_of_not_finished (h : F.Tidy epoch m s) (hf : F.isFinished epoch s c = false) :
    (memo m c).settled = false := by
  rw [← h.settled c]
  exact not_settled_of_not_finished hf

theorem touched_start_of_mem (h : F.Tidy epoch m s) (hc : c ∈ s.touched) :
    (s.start epoch number c).touched = s.touched := by
  have he := (h.touched c).1 hc
  simp only [Pass.memo] at he
  simp [Pass.start, he]

theorem touched_start_of_not_mem (h : F.Tidy epoch m s) (hc : c ∉ s.touched) :
    (s.start epoch number c).touched = c :: s.touched := by
  have he : (s.memo c).epoch ≠ epoch := fun he => hc ((h.touched c).2 he)
  simp only [Pass.memo] at he
  simp [Pass.start, he]

/-- The first run of a rule reaches another one. -/
theorem touched_length_start (number : Nat) (h : F.Tidy epoch m s) :
    (s.start epoch number c).touched.length = s.touched.length ∧ c ∈ s.touched ∨
      (s.start epoch number c).touched.length = s.touched.length + 1 ∧ c ∉ s.touched := by
  by_cases hc : c ∈ s.touched
  · exact .inl ⟨by rw [h.touched_start_of_mem hc], hc⟩
  · exact .inr ⟨by rw [h.touched_start_of_not_mem hc, List.length_cons], hc⟩

theorem mem_start (number : Nat) (h : F.Tidy epoch m s) : d ∈ (s.start epoch number c).touched ↔ d = c ∨ d ∈ s.touched := by
  by_cases hc : c ∈ s.touched
  · rw [h.touched_start_of_mem hc]
    exact ⟨.inr, fun hd => hd.elim (fun hd => hd ▸ hc) id⟩
  · rw [h.touched_start_of_not_mem hc, List.mem_cons]

/-- What a computation misses has not been reached. -/
theorem not_touched_of_unready (h : F.Tidy epoch m s) (hd : (s.memo d).isReady epoch = false) :
    d ∉ s.touched := fun ht => by
  have he := (h.touched d).1 ht
  have ha := h.active d ht
  simp only [Memo.isReady, he, beq_self_eq_true, ha] at hd
  cases hdone : (s.memo d).done <;> simp [hdone] at hd

theorem touched_length (hb : F.Bounded) (h : F.Tidy epoch m s) : s.touched.length ≤ F.size := by
  obtain ⟨rules, hl, hr⟩ := hb
  refine Nat.le_trans (h.nodup.length_le_of_subset fun c hc => ?_) hl
  obtain ⟨q, hq⟩ := h.rule c hc
  exact hr c q hq

end Tidy

end Family

variable [Std.TransOrd φ]

namespace Pass

variable {s : Pass τ} {epoch number : Nat} {c d : Cell φ}

@[simp] theorem memo_start_self :
    (s.start epoch number c).memo c = { s.memo c with epoch, done := false, active := true } := by
  simp [memo, start]

theorem memo_start_of_ne (h : c ≠ d) : (s.start epoch number c).memo d = s.memo d := by
  simp only [memo, start, Family.memo_insert_of_ne _ _ h]

@[simp] theorem memo_finish_self (v : τ c.fact) :
    (s.finish c v).memo c = { s.memo c with value := v, active := false, done := true } := by
  simp [memo, finish]

theorem memo_finish_of_ne (v : τ c.fact) (h : c ≠ d) : (s.finish c v).memo d = s.memo d := by
  simp only [memo, finish, Family.memo_insert_of_ne _ _ h]

theorem value_start : ((s.start epoch number c).memo d).value = (s.memo d).value := by
  by_cases h : c = d
  · subst h
    simp
  · rw [memo_start_of_ne h]

theorem settled_start : ((s.start epoch number c).memo d).settled = (s.memo d).settled := by
  by_cases h : c = d
  · subst h
    simp
  · rw [memo_start_of_ne h]

theorem settled_finish (v : τ c.fact) : ((s.finish c v).memo d).settled = (s.memo d).settled := by
  by_cases h : c = d
  · subst h
    simp
  · rw [memo_finish_of_ne v h]

theorem epoch_start_le (h : ∀ d, (s.memo d).epoch ≤ epoch) (d : Cell φ) :
    ((s.start epoch number c).memo d).epoch ≤ epoch := by
  by_cases hd : c = d
  · subst hd
    simp
  · rw [memo_start_of_ne hd]
    exact h d

theorem epoch_finish_start_le {v : τ c.fact} (h : ∀ d, (s.memo d).epoch ≤ epoch) (d : Cell φ) :
    (((s.start epoch number c).finish c v).memo d).epoch ≤ epoch := by
  by_cases hd : c = d
  · subst hd
    simp
  · rw [memo_finish_of_ne v hd]
    exact epoch_start_le h d

theorem done_start : (s.start epoch number c).Done epoch d ↔ d ≠ c ∧ s.Done epoch d := by
  by_cases h : c = d
  · subst h
    simp [Done]
  · simp [Done, memo_start_of_ne h, Ne.symm h]

theorem active_start : (s.start epoch number c).Active epoch d ↔ d = c ∨ s.Active epoch d := by
  by_cases h : c = d
  · subst h
    simp [Active]
  · simp [Active, memo_start_of_ne h, Ne.symm h]

theorem done_finish_start (v : τ c.fact) :
    ((s.start epoch number c).finish c v).Done epoch d ↔ d = c ∨ s.Done epoch d := by
  by_cases h : c = d
  · subst h
    simp [Done]
  · simp [Done, memo_finish_of_ne v h, memo_start_of_ne h, Ne.symm h]

theorem active_finish_start (v : τ c.fact) :
    ((s.start epoch number c).finish c v).Active epoch d ↔ d ≠ c ∧ s.Active epoch d := by
  by_cases h : c = d
  · subst h
    simp [Active]
  · simp [Active, memo_finish_of_ne v h, memo_start_of_ne h, Ne.symm h]

theorem value_finish_start_of_ne (v : τ c.fact) (h : c ≠ d) :
    (((s.start epoch number c).finish c v).memo d).value = (s.memo d).value := by
  rw [memo_finish_of_ne v h, value_start]

end Pass

namespace Family

variable {F : Family τ ε} {epoch number n : Nat} {s t : Pass τ} {c d : Cell φ} {cs : List (Cell φ)}

theorem value_start_memos (p : Nat) (f : φ) :
    F.value (s.start epoch number c).memos p f = F.value s.memos p f :=
  value_congr fun _ _ => Pass.value_start

/-- A pass fails at a rule that it reaches and that is not settled, or runs out of steps. -/
theorem work_error {Q : Cell φ → Prop} (hQ : F.Within Q) (hcs : ∀ c ∈ cs, Q c) {e : Failure ε}
    (h : (F.work epoch number n cs s).1 = .error e) :
    e = .unfinished ∨ ∃ c, Q c ∧ (s.memo c).settled = false ∧ F.Stuck c e := by
  refine work_induct epoch number (motive := fun _ cs s r => (∀ c ∈ cs, Q c) → r.1 = .error e →
    e = .unfinished ∨ ∃ c, Q c ∧ (s.memo c).settled = false ∧ F.Stuck c e) ?_ ?_ ?_ ?_ ?_ n cs s hcs h
  · exact fun _ _ _ _ _ h => nomatch h
  · exact fun _ _ _ _ _ _ h => .inl (Except.error.inj h).symm
  · intro _ cs s c rest q e' heq hq he hcs h
    cases h
    have hc := not_settled_of_not_finished (not_of_dropWhile_eq_cons heq)
    exact .inr ⟨c, hcs c (mem_of_dropWhile_eq_cons heq).1, hc, stuck_of_eval hq he⟩
  · intro _ cs s c rest q v r heq _ _ ih hcs h
    simpa only [Pass.settled_finish, Pass.settled_start] using
      ih (fun d hd => hcs d ((mem_of_dropWhile_eq_cons heq).2 d hd)) h
  · intro _ cs s c rest q v missing r heq hq he _ ih hcs h
    simpa only [Pass.settled_start] using ih (within_waiting hQ hcs heq hq he) h

namespace Tidy

variable {m : Memos τ}

theorem start (number : Nat) (h : F.Tidy epoch m s) (hf : F.isFinished epoch s c = false) :
    F.Tidy epoch m (s.start epoch number c) where
  nodup := by
    by_cases hc : c ∈ s.touched
    · rw [h.touched_start_of_mem hc]
      exact h.nodup
    · rw [h.touched_start_of_not_mem hc]
      exact List.nodup_cons.2 ⟨hc, h.nodup⟩
  touched d := by
    rw [h.mem_start number, h.touched]
    by_cases hd : c = d
    · subst hd
      simp
    · simp [Pass.memo_start_of_ne hd, Ne.symm hd]
  rule d hd := by
    rcases (h.mem_start number).1 hd with rfl | hd
    · exact rule_of_not_finished hf
    · exact h.rule d hd
  active d hd := by
    by_cases hcd : c = d
    · subst hcd
      simp
    · rw [Pass.memo_start_of_ne hcd]
      exact h.active d (((h.mem_start number).1 hd).resolve_left (Ne.symm hcd))
  unsettled d hd := by
    rcases (h.mem_start number).1 hd with rfl | hd
    · exact h.unsettled_of_not_finished hf
    · exact h.unsettled d hd
  settled d := by rw [Pass.settled_start, h.settled]
  untouched d hd := by
    have hd' := fun hm => hd ((h.mem_start number).2 hm)
    have hcd : c ≠ d := fun he => hd' (.inl he.symm)
    rw [Pass.memo_start_of_ne hcd]
    exact h.untouched d fun hm => hd' (.inr hm)
  value d hd := by
    rw [Pass.value_start]
    by_cases hcd : d = c
    · subst hcd
      exact h.value d (not_done_of_not_finished hf)
    · exact h.value d fun hm => hd (Pass.done_start.2 ⟨hcd, hm⟩)
  changed := by
    change s.changed = true ↔ _
    rw [h.changed]
    have hn := not_done_of_not_finished hf
    refine exists_congr fun d => ?_
    rw [Pass.done_start, Pass.value_start]
    exact ⟨fun ⟨hd, ha⟩ => ⟨⟨fun he => hn (he ▸ hd), hd⟩, ha⟩, fun ⟨⟨_, hd⟩, ha⟩ => ⟨hd, ha⟩⟩

theorem finish (number : Nat) (h : F.Tidy epoch m s) (hf : F.isFinished epoch s c = false) (v : τ c.fact) :
    F.Tidy epoch m ((s.start epoch number c).finish c v) where
  nodup := (h.start number hf).nodup
  touched d := by
    refine ((h.start number hf).touched d).trans ?_
    by_cases hd : c = d
    · subst hd
      simp
    · rw [Pass.memo_finish_of_ne v hd]
  rule := (h.start number hf).rule
  active d hd := by
    by_cases hcd : c = d
    · subst hcd
      simp
    · rw [Pass.memo_finish_of_ne v hcd]
      exact (h.start number hf).active d hd
  unsettled := (h.start number hf).unsettled
  settled d := by rw [Pass.settled_finish, Pass.settled_start, h.settled]
  untouched d hd := by
    have hcd : c ≠ d := fun he => hd ((h.mem_start number).2 (.inl he.symm))
    rw [Pass.memo_finish_of_ne v hcd]
    exact (h.start number hf).untouched d hd
  value d hd := by
    have hcd : c ≠ d := fun he => hd ((Pass.done_finish_start v).2 (.inl he.symm))
    rw [Pass.value_finish_start_of_ne v hcd]
    exact h.value d fun hm => hd ((Pass.done_finish_start v).2 (.inr hm))
  changed := by
    have hn := not_done_of_not_finished hf
    have hv : (Family.memo (s.start epoch number c).memos c).value = (memo m c).value := by
      rw [← h.value c hn]
      exact Pass.value_start
    have hch : ((s.start epoch number c).finish c v).changed =
        (s.changed || !Fact.agrees v (memo m c).value) := by
      rw [← hv]
      rfl
    rw [hch, Bool.or_eq_true, h.changed, Bool.not_eq_true']
    constructor
    · rintro (⟨d, hd, ha⟩ | ha)
      · have hcd : c ≠ d := fun he => hn (he ▸ hd)
        refine ⟨d, (Pass.done_finish_start v).2 (.inr hd), ?_⟩
        rw [Pass.value_finish_start_of_ne v hcd]
        exact ha
      · refine ⟨c, (Pass.done_finish_start v).2 (.inl rfl), ?_⟩
        simpa using ha
    · rintro ⟨d, hd, ha⟩
      by_cases hcd : c = d
      · subst hcd
        exact .inr (by simpa using ha)
      · rw [Pass.value_finish_start_of_ne v hcd] at ha
        exact .inl ⟨d, ((Pass.done_finish_start v).1 hd).resolve_left (Ne.symm hcd), ha⟩

theorem done_start_iff (number : Nat) (hf : F.isFinished epoch s c = false) :
    (s.start epoch number c).Done epoch d ↔ s.Done epoch d := by
  rw [Pass.done_start]
  exact ⟨And.right, fun hd => ⟨fun he => not_done_of_not_finished hf (he ▸ hd), hd⟩⟩

/-- Another rule can only be reached while fewer than `size` have been. -/
theorem touched_length_lt (hb : F.Bounded) (h : F.Tidy epoch m s) (hf : F.isFinished epoch s c = false)
    (hc : c ∉ s.touched) : s.touched.length < F.size := by
  have hlen := (h.start 0 hf).touched_length hb
  rw [h.touched_start_of_not_mem hc, List.length_cons] at hlen
  exact hlen

end Tidy

theorem touched_within {Q : Cell φ → Prop} (hQ : F.Within Q) (number n : Nat) {m : Memos τ} (h : F.Tidy epoch m s)
    (hcs : ∀ c ∈ cs, Q c) (hs : ∀ c ∈ s.touched, Q c) : ∀ c ∈ (F.work epoch number n cs s).2.touched, Q c := by
  have hstart : ∀ {s : Pass τ} {c : Cell φ}, Q c → F.isFinished epoch s c = false →
      F.Tidy epoch m s ∧ (∀ c ∈ s.touched, Q c) → ∀ d ∈ (s.start epoch number c).touched, Q d := by
    intro s c hc hf hs d hd
    rcases (hs.1.mem_start number).1 hd with rfl | hd
    · exact hc
    · exact hs.2 d hd
  refine (work_preserves (I := fun s => F.Tidy epoch m s ∧ ∀ c ∈ s.touched, Q c) hQ ?_ ?_ hcs ⟨h, hs⟩).2
  · exact fun s c hc hf hs => ⟨hs.1.start number hf, hstart hc hf hs⟩
  · exact fun s c q v hc hf _ _ hs => ⟨hs.1.finish number hf v, hstart hc hf hs⟩

omit [Std.TransOrd φ] in
/-- What misses others is not run again before a rule that has not been reached. -/
theorem head_of_missing {q : Query τ ε (τ c.fact)} {m : Memos τ} {v : τ c.fact} {missing rest : List (Cell φ)}
    (h : F.Tidy epoch m s) (he : F.eval s.memos epoch q = .ok (v, missing)) (hm : missing ≠ []) {z : Cell φ}
    {zs : List (Cell φ)} (hz : (missing.reverse ++ rest).dropWhile (F.isFinished epoch s) = z :: zs) :
    z ∉ s.touched := by
  obtain ⟨x, xs, hx⟩ := List.exists_cons_of_ne_nil (List.reverse_ne_nil_iff.2 hm)
  have hxm : x ∈ missing := List.mem_reverse.1 (hx ▸ List.mem_cons_self)
  obtain ⟨⟨r, _, hs⟩, hu⟩ := mem_unready.1 ((eval_ok he).2.2 ▸ hxm)
  obtain ⟨_, _, q', hq'⟩ := source?_eq_some hs
  rw [hx, List.cons_append, List.dropWhile_cons_of_neg (by simp [not_finished_of_unready hq' hu])] at hz
  cases hz
  exact h.not_touched_of_unready hu

/-- Since `base` runs had been made there has been no more than one for each rule that was computed and one for each that
was reached. There has been one less if what is run next has been reached before. -/
structure Thrifty (F : Family τ ε) (epoch base : Nat) (cs : List (Cell φ)) (s : Pass τ) (ds : List (Cell φ)) : Prop where
  nodup : ds.Nodup
  done : ∀ d, d ∈ ds ↔ s.Done epoch d
  runs : s.runs.length ≤ base + s.touched.length + ds.length
  next : ∀ c rest, cs.dropWhile (F.isFinished epoch s) = c :: rest → c ∈ s.touched →
    s.runs.length < base + s.touched.length + ds.length

namespace Thrifty

variable {m : Memos τ} {base : Nat} {ds rest : List (Cell φ)} {q : Query τ ε (τ c.fact)} {v : τ c.fact}

omit [Std.TransOrd φ] in
theorem begin (h : ∀ c, (memo m c).epoch < epoch) (runs : List (Run φ)) (cs : List (Cell φ)) :
    F.Thrifty epoch runs.length cs { memos := m, runs } [] where
  nodup := List.nodup_nil
  done d := ⟨fun hd => (by cases hd), fun hd => absurd hd.1 (Nat.ne_of_lt (h d))⟩
  runs := Nat.le_refl _
  next c _ _ hc := by cases hc

omit [Std.TransOrd φ] in
theorem length_le (h : F.Thrifty epoch base cs s ds) (hs : F.Tidy epoch m s) : ds.length ≤ s.touched.length :=
  h.nodup.length_le_of_subset fun d hd => hs.done_touched ((h.done d).1 hd)

theorem compute (h : F.Thrifty epoch base cs s ds) (hs : F.Tidy epoch m s)
    (heq : cs.dropWhile (F.isFinished epoch s) = c :: rest) (number : Nat) (v : τ c.fact) :
    F.Thrifty epoch base rest ((s.start epoch number c).finish c v) (c :: ds) := by
  have hf := not_of_dropWhile_eq_cons heq
  have hruns : ((s.start epoch number c).finish c v).runs.length = s.runs.length + 1 := rfl
  have hsame : ((s.start epoch number c).finish c v).touched = (s.start epoch number c).touched := rfl
  have hlt : s.runs.length + 1 < base + (s.start epoch number c).touched.length + (c :: ds).length := by
    have := h.runs
    rw [List.length_cons]
    rcases hs.touched_length_start number with ⟨_, hc⟩ | ⟨_, hc⟩
    · have := h.next c rest heq hc
      omega
    · omega
  refine ⟨List.nodup_cons.2 ⟨fun hd => Tidy.not_done_of_not_finished hf ((h.done c).1 hd), h.nodup⟩, fun d => ?_, ?_,
    fun _ _ _ _ => ?_⟩
  · rw [List.mem_cons, h.done, Pass.done_finish_start]
  · rw [hruns, hsame]
    exact Nat.le_of_lt hlt
  · rw [hruns, hsame]
    exact hlt

theorem wait (h : F.Thrifty epoch base cs s ds) (hs : F.Tidy epoch m s)
    (heq : cs.dropWhile (F.isFinished epoch s) = c :: rest) {number : Nat} {missing : List (Cell φ)}
    (he : F.eval (s.start epoch number c).memos epoch q = .ok (v, missing)) (hm : missing ≠ []) :
    F.Thrifty epoch base (missing.reverse ++ c :: rest) (s.start epoch number c) ds := by
  have hf := not_of_dropWhile_eq_cons heq
  have hruns : (s.start epoch number c).runs.length = s.runs.length + 1 := rfl
  refine ⟨h.nodup, fun d => ?_, ?_, fun z zs hz hzt => ?_⟩
  · rw [h.done, Tidy.done_start_iff number hf]
  · have := h.runs
    rcases hs.touched_length_start number with ⟨_, hc⟩ | ⟨_, hc⟩
    · have := h.next c rest heq hc
      omega
    · omega
  · exact absurd hzt (head_of_missing (hs.start number hf) he hm hz)

end Thrifty

/-- A pass does not run out of steps: no more than two for each rule are made. -/
theorem work_finishes (hb : F.Bounded) {m : Memos τ} {base : Nat} {ds : List (Cell φ)} (h : F.Tidy epoch m s)
    (hds : F.Thrifty epoch base cs s ds) (hn : base + 2 * F.size ≤ s.runs.length + n) :
    (F.work epoch number n cs s).1 ≠ .error .unfinished := by
  refine work_induct epoch number
    (motive := fun n cs s r => ∀ ds, F.Tidy epoch m s → F.Thrifty epoch base cs s ds →
      base + 2 * F.size ≤ s.runs.length + n → r.1 ≠ .error .unfinished) ?_ ?_ ?_ ?_ ?_ n cs s ds h hds hn
  · simp
  · intro cs s c rest heq ds h hds hn
    have := hds.runs
    have := hds.length_le h
    have := h.touched_length hb
    by_cases hc : c ∈ s.touched
    · have := hds.next c rest heq hc
      omega
    · have := h.touched_length_lt hb (not_of_dropWhile_eq_cons heq) hc
      omega
  · intro n cs s c rest q e heq hq he ds h hds hn
    rcases eval_error he with ⟨rfl, _⟩ | ⟨e', rfl, _⟩ <;> simp
  · intro n cs s c rest q v r heq hq he ih ds h hds hn
    have hruns : ((s.start epoch number c).finish c v).runs.length = s.runs.length + 1 := rfl
    exact ih (c :: ds) (h.finish number (not_of_dropWhile_eq_cons heq) v) (hds.compute h heq number v) (by omega)
  · intro n cs s c rest q v missing r heq hq he hm ih ds h hds hn
    have hruns : (s.start epoch number c).runs.length = s.runs.length + 1 := rfl
    exact ih ds (h.start number (not_of_dropWhile_eq_cons heq)) (hds.wait h heq he hm) (by omega)

end Family
end Predictive.Solver
