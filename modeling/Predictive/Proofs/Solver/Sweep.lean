import Predictive.Proofs.Solver.Clearing

/-!
The order of a pass. A rule is computed from the new values of the rules before it and the old values of the
others; it reads an old value only on behalf of the rule that the value belongs to.
-/
namespace Predictive.Solver

section Ranks

variable {α : Type} {rank : α → Nat} {past past' : α → Prop} {xs ys : List α} {x y : α}

/-- The items come one after the other, after those of `past` and before all others. -/
def Ranked (rank : α → Nat) : (α → Prop) → List α → Prop
  | _, [] => True
  | past, x :: xs => (∀ y, rank y < rank x ↔ past y) ∧ Ranked rank (fun y => y = x ∨ past y) xs

theorem Ranked.congr (h : Ranked rank past xs) (hp : ∀ x, past x ↔ past' x) : Ranked rank past' xs := by
  obtain rfl : past = past' := funext fun x => propext (hp x)
  exact h

theorem ranked_append :
    Ranked rank past (xs ++ ys) ↔ Ranked rank past xs ∧ Ranked rank (fun y => y ∈ xs ∨ past y) ys := by
  induction xs generalizing past with
  | nil => simp [Ranked]
  | cons x xs ih =>
    simp only [List.cons_append, Ranked, ih, and_assoc]
    refine and_congr_right fun _ => and_congr_right fun _ => ⟨fun h => h.congr ?_, fun h => h.congr ?_⟩
    all_goals grind

theorem Ranked.lt (h : Ranked rank past xs) (hy : y ∈ xs) (hx : past x) : rank x < rank y := by
  induction xs generalizing past with
  | nil => cases hy
  | cons z zs ih =>
    rcases List.mem_cons.1 hy with rfl | hy
    · exact (h.1 x).2 hx
    · exact ih h.2 hy (.inr hx)

theorem Ranked.mem (h : Ranked rank past xs) (hy : y ∈ xs) (hx : rank x < rank y) : x ∈ xs ∨ past x := by
  induction xs generalizing past with
  | nil => cases hy
  | cons z zs ih =>
    rcases List.mem_cons.1 hy with rfl | hy
    · exact .inr ((h.1 x).1 hx)
    · rcases ih h.2 hy with hm | rfl | hp
      · exact .inl (List.mem_cons_of_mem z hm)
      · exact .inl List.mem_cons_self
      · exact .inr hp

theorem ranked_idxOf [DecidableEq α] (pre : List α) (h : (pre ++ xs).Nodup) :
    Ranked (fun y => (pre ++ xs).idxOf y) (fun y => y ∈ pre) xs := by
  induction xs generalizing pre with
  | nil => trivial
  | cons x xs ih =>
    have hx : x ∉ pre := fun hx => (List.nodup_append.1 h).2.2 x hx x List.mem_cons_self rfl
    have hi : (pre ++ x :: xs).idxOf x = pre.length := by
      rw [List.idxOf_append_of_notMem hx, List.idxOf_cons_self, Nat.add_zero]
    refine ⟨fun y => ?_, ?_⟩
    · beta_reduce
      rw [hi]
      by_cases hy : y ∈ pre
      · rw [List.idxOf_append_of_mem hy]
        exact ⟨fun _ => hy, fun _ => List.idxOf_lt_length_of_mem hy⟩
      · rw [List.idxOf_append_of_notMem hy]
        exact ⟨fun hl => by omega, fun hy' => absurd hy' hy⟩
    · have := ih (pre ++ [x]) (by simpa using h)
      simp only [List.append_assoc, List.singleton_append] at this
      refine this.congr fun y => ?_
      simp [or_comm]

theorem exists_ranked (h : xs.Nodup) : ∃ rank, Ranked rank (fun _ => False) xs := by
  classical
  exact ⟨_, (ranked_idxOf [] h).congr fun y => by simp⟩

end Ranks

namespace Family

variable {φ : Type} {τ : φ → Type} {ε : Type}
variable [Ord φ] [Std.LawfulEqOrd φ] [∀ f, Fact (τ f)]

/-- Each value is the one in `m` or the one in `m'`. -/
def Between (m m' u : Memos τ) : Prop :=
  ∀ d, (memo u d).value = (memo m d).value ∨ (memo u d).value = (memo m' d).value

/-- The rule of `y` reads `x` for some values between those in `m` and those in `m'`. -/
def Feeds (F : Family τ ε) (m m' : Memos τ) (x y : Cell φ) : Prop :=
  ∃ u q v, Between m m' u ∧ F.definition y.place y.fact = .rule q ∧ q.denote (F.value u) = .ok v ∧
    ∃ r ∈ q.reads (F.value u), F.source? r = some x

/-- Of the rules in `T`, `x` is computed on behalf of `y`. -/
def Under (F : Family τ ε) (m m' : Memos τ) (T : Cell φ → Prop) (rank : Cell φ → Nat) : Cell φ → Cell φ → Prop :=
  Relation.ReflTransGen fun x y => T x ∧ T y ∧ rank x < rank y ∧ F.Feeds m m' x y

/-- The rule of `c` is computed in its turn, on the way from `m` to `m'`; `T` are the rules that have one. -/
def Computed (F : Family τ ε) (m m' : Memos τ) (T : Cell φ → Prop) (rank : Cell φ → Nat) (c : Cell φ) : Prop :=
  ∃ u q, (∀ d, (memo u d).value = if rank d < rank c then (memo m' d).value else (memo m d).value) ∧
    F.definition c.place c.fact = .rule q ∧ q.denote (F.value u) = .ok (memo m' c).value ∧
    ∀ r ∈ q.reads (F.value u), (F.resolve r.place r.fact).isSome ∧ ∀ d, F.source? r = some d →
      (memo m d).settled = true ∨ T d ∧ (rank d < rank c ∨ F.Under m m' T rank c d)

/-- The rules `T` are computed in turn, on behalf of `root`, which leads from `m` to `m'`. -/
structure Sweep (F : Family τ ε) (root : Cell φ) (m m' : Memos τ) (T : List (Cell φ)) : Prop where
  same : ∀ c, c ∉ T → memo m' c = memo m c
  settled : ∀ c, (memo m' c).settled = (memo m c).settled
  unsettled : ∀ c ∈ T, (memo m c).settled = false
  order : ∃ rank, ∀ c ∈ T, root ∈ T ∧ F.Under m m' (· ∈ T) rank c root ∧ F.Computed m m' (· ∈ T) rank c

/-- In its turn a rule finds the new values of the rules before it and the old ones of the others. -/
theorem between_of_turn {m m' u : Memos τ} {rank : Cell φ → Nat} {c : Cell φ}
    (hu : ∀ d, (memo u d).value = if rank d < rank c then (memo m' d).value else (memo m d).value) :
    Between m m' u := by
  intro d
  rw [hu]
  split
  · exact .inr rfl
  · exact .inl rfl

/-- What holds of rules that keep their value holds of all, if it holds of each rule that is computed from old values and
from new ones of rules of which it holds. -/
theorem Sweep.induct {F : Family τ ε} {root : Cell φ} {m m' : Memos τ} {T : List (Cell φ)} (h : F.Sweep root m m' T)
    {P : Cell φ → Prop} (same : ∀ c, (memo m' c).value = (memo m c).value → P c)
    (computed : ∀ c ∈ T, ∀ u q,
      (∀ d, (memo u d).value = (memo m d).value ∨ (memo u d).value = (memo m' d).value ∧ P d) →
      F.definition c.place c.fact = .rule q → q.denote (F.value u) = .ok (memo m' c).value → P c)
    (c : Cell φ) : P c := by
  obtain ⟨rank, horder⟩ := h.order
  induction hr : rank c using Nat.strongRecOn generalizing c with
  | _ n ih =>
    by_cases hc : c ∈ T
    · obtain ⟨-, -, u, q, hu, hq, hd, -⟩ := horder c hc
      refine computed c hc u q (fun d => ?_) hq hd
      rw [hu]
      split
      · exact .inr ⟨rfl, ih _ (hr ▸ ‹_›) d rfl⟩
      · exact .inl rfl
    · exact same c (by rw [h.same c hc])

namespace Refines

variable {F F' : Family τ ε} {m m' : Memos τ} {T : Cell φ → Prop} {rank : Cell φ → Nat} {x y c root : Cell φ}

theorem value_eq (h : F.Refines F') (m : Memos τ) : F.value m = F'.value m :=
  funext fun p => funext fun f => h.value m p f

theorem feeds (h : F.Refines F') (hf : F.Feeds m m' x y) : F'.Feeds m m' x y := by
  obtain ⟨u, q, v, hu, hq, hd, r, hr, hs⟩ := hf
  obtain ⟨q', hq', hqq⟩ := h.rule hq
  obtain ⟨hd', hr'⟩ := (hqq _).2 _ hd
  rw [h.value_eq] at hd' hr'
  exact ⟨u, q', v, hu, hq', hd', r, by rw [hr', ← h.value_eq]; exact hr, h.source? r ▸ hs⟩

theorem under (h : F.Refines F') (hu : F.Under m m' T rank x y) : F'.Under m m' T rank x y :=
  Relation.ReflTransGen.mono (fun _ _ ⟨hx, hy, hlt, hf⟩ => ⟨hx, hy, hlt, h.feeds hf⟩) _ _ hu

theorem computed (h : F.Refines F') (hc : F.Computed m m' T rank c) : F'.Computed m m' T rank c := by
  obtain ⟨u, q, hu, hq, hd, hr⟩ := hc
  obtain ⟨q', hq', hqq⟩ := h.rule hq
  obtain ⟨hd', hr'⟩ := (hqq _).2 _ hd
  rw [h.value_eq] at hd' hr' hr
  refine ⟨u, q', hu, hq', hd', fun r hrr => ?_⟩
  obtain ⟨hres, hs⟩ := hr r (hr' ▸ hrr)
  rw [← h.resolve, ← h.source?]
  exact ⟨hres, fun d hd => (hs d hd).imp_right (And.imp_right (Or.imp_right h.under))⟩

theorem sweep (h : F.Refines F') {T : List (Cell φ)} (hs : F.Sweep root m m' T) : F'.Sweep root m m' T where
  same := hs.same
  settled := hs.settled
  unsettled := hs.unsettled
  order := by
    obtain ⟨rank, ho⟩ := hs.order
    refine ⟨rank, fun c hc => ?_⟩
    obtain ⟨hr, hu, hcomp⟩ := ho c hc
    exact ⟨hr, h.under hu, h.computed hcomp⟩

end Refines

variable [Std.TransOrd φ]
variable {F : Family τ ε} {epoch number n : Nat} {s t : Pass τ} {c d : Cell φ} {cs : List (Cell φ)}
  {log : List (Cell φ × Memos τ)} {m m' : Memos τ} {rank : Cell φ → Nat}

namespace Clears

theorem tidy (h : Clears F epoch number cs s t log) (hs : F.Tidy epoch m s) : F.Tidy epoch m t := by
  induction h with
  | nil => exact hs
  | skip _ _ ih => exact ih hs
  | compute hf _ _ _ ih => exact ih (hs.finish number hf _)
  | wait hf _ _ _ _ _ ih₁ ih₂ => exact ih₂ (ih₁ (hs.start number hf))

/-- What is computed stays as it is. -/
theorem memo_of_done (h : Clears F epoch number cs s t log) (hd : s.Done epoch d) : t.memo d = s.memo d := by
  induction h with
  | nil => rfl
  | skip _ _ ih => exact ih hd
  | @compute c _ _ _ _ _ v hf _ _ _ ih =>
    have hcd : c ≠ d := fun he => Tidy.not_done_of_not_finished hf (he ▸ hd)
    rw [ih ((Pass.done_finish_start v).2 (.inr hd)), Pass.memo_finish_of_ne v hcd, Pass.memo_start_of_ne hcd]
  | @wait c _ _ _ w _ _ _ _ _ hf _ _ _ h₁ _ ih₁ ih₂ =>
    have hcd : c ≠ d := fun he => Tidy.not_done_of_not_finished hf (he ▸ hd)
    have hd₁ := (Tidy.done_start_iff number hf).2 hd
    have hw := ih₁ hd₁
    have hdw : w.Done epoch d := by
      unfold Pass.Done
      rw [hw]
      exact hd₁
    rw [ih₂ hdw, hw, Pass.memo_start_of_ne hcd]

theorem done (h : Clears F epoch number cs s t log) (hd : s.Done epoch d) : t.Done epoch d := by
  unfold Pass.Done
  rw [h.memo_of_done hd]
  exact hd

theorem done_iff (h : Clears F epoch number cs s t log) :
    t.Done epoch d ↔ d ∈ log.map Prod.fst ∨ s.Done epoch d := by
  induction h with
  | nil => simp
  | skip _ _ ih => exact ih
  | @compute c _ _ _ _ _ v _ _ _ _ ih =>
    rw [ih, Pass.done_finish_start, List.map_cons, List.mem_cons]
    grind
  | @wait c _ _ _ _ _ _ _ _ _ hf _ _ _ _ _ ih₁ ih₂ =>
    rw [ih₂, ih₁, Tidy.done_start_iff number hf, List.map_append, List.mem_append, or_assoc, or_left_comm]

/-- What is on the stack is finished at the end. -/
theorem finished (h : Clears F epoch number cs s t log) (hs : F.Tidy epoch m s) {q : Query τ ε (τ c.fact)}
    (hq : F.definition c.place c.fact = .rule q) (hc : c ∈ cs) :
    (memo m c).settled = true ∨ t.Done epoch c := by
  induction h with
  | nil => cases hc
  | @skip c' cs s t _ hf h ih =>
    rcases List.mem_cons.1 hc with rfl | hc
    · refine ((isFinished_of_rule epoch s hq).1 hf).imp (fun hset => ?_) fun hd => h.done hd
      rwa [hs.settled] at hset
    · exact ih hs hc
  | compute hf _ _ h ih =>
    rcases List.mem_cons.1 hc with rfl | hc
    · exact .inr (h.done ((Pass.done_finish_start _).2 (.inl rfl)))
    · exact ih (hs.finish number hf _) hc
  | wait hf _ _ _ h₁ _ _ ih₂ => exact ih₂ (h₁.tidy (hs.start number hf)) hc

/-- No rule is left waiting. -/
theorem active (h : Clears F epoch number cs s t log) (hs : F.Tidy epoch m s) (hd : t.Active epoch d) :
    s.Active epoch d := by
  induction h with
  | nil => exact hd
  | skip _ _ ih => exact ih hs hd
  | compute hf _ _ _ ih => exact ((Pass.active_finish_start _).1 (ih (hs.finish number hf _) hd)).2
  | @wait c _ _ _ _ _ _ _ _ _ hf hq _ _ h₁ h₂ ih₁ ih₂ =>
    have hs₁ := hs.start number hf
    have hw := h₁.tidy hs₁
    rcases Pass.active_start.1 (ih₁ hs₁ (ih₂ hw hd)) with rfl | ha
    · rcases h₂.finished hw hq List.mem_cons_self with hset | hdone
      · rw [hs.unsettled_of_not_finished hf] at hset
        cases hset
      · exact absurd hd ((h₂.tidy hw).not_active_of_done hdone)
    · exact ha

/-- A rule that waits is not computed before the stack comes back to it. -/
theorem stays_active (h : Clears F epoch number cs s t log) (ha : s.Active epoch d) (hd : d ∉ cs) :
    t.Active epoch d := by
  induction h with
  | nil => exact ha
  | skip _ _ ih => exact ih ha fun hm => hd (List.mem_cons_of_mem _ hm)
  | compute _ _ _ _ ih =>
    rw [List.mem_cons, not_or] at hd
    exact ih ((Pass.active_finish_start _).2 ⟨hd.1, ha⟩) hd.2
  | @wait c _ _ _ _ _ _ _ _ missing _ _ hv _ _ _ ih₁ ih₂ =>
    refine ih₂ (ih₁ (Pass.active_start.2 (.inr ha)) fun hm => ?_) hd
    have hu := (mem_unready.1 ((eval_ok hv).2.2 ▸ List.mem_reverse.1 hm)).2
    exact not_active_of_unready hu (Pass.active_start.2 (.inr ha))

theorem nodup (h : Clears F epoch number cs s t log) :
    (log.map Prod.fst).Nodup ∧ ∀ d ∈ log.map Prod.fst, ¬s.Done epoch d := by
  induction h with
  | nil => simp
  | skip _ _ ih => exact ih
  | @compute c _ _ _ _ _ v hf _ _ _ ih =>
    rw [List.map_cons]
    refine ⟨List.nodup_cons.2 ⟨fun hc => ih.2 c hc ((Pass.done_finish_start v).2 (.inl rfl)), ih.1⟩, ?_⟩
    intro d hd
    rcases List.mem_cons.1 hd with rfl | hd
    · exact Tidy.not_done_of_not_finished hf
    · exact fun hdone => ih.2 d hd ((Pass.done_finish_start v).2 (.inr hdone))
  | @wait c _ _ _ w _ _ _ _ _ hf _ _ _ h₁ h₂ ih₁ ih₂ =>
    rw [List.map_append]
    refine ⟨List.nodup_append.2 ⟨ih₁.1, ih₂.1, fun x hx y hy he => ?_⟩, fun d hd => ?_⟩
    · exact ih₂.2 y hy (h₁.done_iff.2 (.inl (he ▸ hx)))
    · rcases List.mem_append.1 hd with hd | hd
      · exact fun hdone => ih₁.2 d hd ((Tidy.done_start_iff number hf).2 hdone)
      · exact fun hdone => ih₂.2 d hd (h₁.done ((Tidy.done_start_iff number hf).2 hdone))

theorem value_of_done (h : Clears F epoch number cs s t log)
    (ht : ∀ d, t.Done epoch d → (t.memo d).value = (memo m' d).value) :
    ∀ d, s.Done epoch d → (s.memo d).value = (memo m' d).value := by
  intro d hd
  rw [← h.memo_of_done hd]
  exact ht d (h.done hd)

/-- What is ranked on the way is ranked after the first rule that is computed, -/
theorem ranked_compute {v : τ c.fact} (h : Ranked rank (s.Done epoch) (c :: log.map Prod.fst)) :
    Ranked rank (((s.start epoch number c).finish c v).Done epoch) (log.map Prod.fst) :=
  h.2.congr fun _ => (Pass.done_finish_start v).symm

/-- and, where a rule waits, before and after what it waits for has been computed. -/
theorem ranked_wait {w : Pass τ} {log₁ log₂ : List (Cell φ × Memos τ)}
    (h : Ranked rank (s.Done epoch) ((log₁ ++ log₂).map Prod.fst)) (hf : F.isFinished epoch s c = false)
    (h₁ : Clears F epoch number cs (s.start epoch number c) w log₁) :
    Ranked rank ((s.start epoch number c).Done epoch) (log₁.map Prod.fst) ∧
      Ranked rank (w.Done epoch) (log₂.map Prod.fst) := by
  rw [List.map_append, ranked_append] at h
  have hstart := fun d => (Tidy.done_start_iff (d := d) number hf).symm
  exact ⟨h.1.congr hstart, h.2.congr fun d => (or_congr_right (hstart d)).trans h₁.done_iff.symm⟩

/-- With `m'` for the values at the end: from which values each rule is computed. -/
theorem values (h : Clears F epoch number cs s t log) (hs : F.Tidy epoch m s)
    (hr : Ranked rank (s.Done epoch) (log.map Prod.fst))
    (ht : ∀ d, t.Done epoch d → (t.memo d).value = (memo m' d).value) :
    ∀ e ∈ log, (∀ d, (memo e.2 d).value = if rank d < rank e.1 then (memo m' d).value else (memo m d).value) ∧
      ∃ q, F.definition e.1.place e.1.fact = .rule q ∧ q.denote (F.value e.2) = .ok (memo m' e.1).value ∧
        ∀ r ∈ q.reads (F.value e.2), (F.resolve r.place r.fact).isSome := by
  induction h with
  | nil => simp
  | skip _ _ ih => exact ih hs hr ht
  | @compute c cs s t log q v hf hq hv h ih =>
    rintro e he
    rcases List.mem_cons.1 he with rfl | he
    · refine ⟨fun d => ?_, q, hq, ?_, (eval_ok hv).2.1⟩
      · have hd : (memo (s.start epoch number c).memos d).value = (s.memo d).value := Pass.value_start
        rw [hd]
        split
        · rename_i hlt
          have hd' : ((s.start epoch number c).finish c v).Done epoch d :=
            (Pass.done_finish_start v).2 (.inr ((hr.1 d).1 hlt))
          have hcd : c ≠ d := fun he => Tidy.not_done_of_not_finished hf (he ▸ (hr.1 d).1 hlt)
          rw [← h.value_of_done ht d hd', Pass.value_finish_start_of_ne v hcd]
        · rename_i hlt
          exact hs.value d fun hd => hlt ((hr.1 d).2 hd)
      · rw [← h.value_of_done ht c ((Pass.done_finish_start v).2 (.inl rfl)), Pass.memo_finish_self]
        exact (eval_ok hv).1
    · exact ih (hs.finish number hf v) (ranked_compute hr) ht e he
  | wait hf hq hv hm h₁ h₂ ih₁ ih₂ =>
    have hs₁ := hs.start number hf
    obtain ⟨hr₁, hr₂⟩ := ranked_wait hr hf h₁
    intro e he
    rcases List.mem_append.1 he with he | he
    · exact ih₁ hs₁ hr₁ (h₂.value_of_done ht) e he
    · exact ih₂ (h₁.tidy hs₁) hr₂ ht e he

theorem between_start (hs : F.Tidy epoch m s)
    (hm : ∀ d, s.Done epoch d → (s.memo d).value = (memo m' d).value) :
    Between m m' (s.start epoch number c).memos := by
  intro d
  have hd : (memo (s.start epoch number c).memos d).value = (s.memo d).value := Pass.value_start
  rw [hd]
  by_cases hdone : s.Done epoch d
  · exact .inr (hm d hdone)
  · exact .inl (hs.value d hdone)

omit [Std.TransOrd φ] in
/-- A rule that is computed finds ready what it reads. -/
theorem ready_of_computed {m : Memos τ} {α : Type} {q : Query τ ε α} {v : α} {r : Cell φ}
    (hv : F.eval m epoch q = .ok (v, [])) (hr : r ∈ q.reads (F.value m)) (hd : F.source? r = some d) :
    (memo m d).isReady epoch = true := by
  by_contra hn
  have hmem := mem_unready.2 ⟨⟨r, hr, hd⟩, Bool.eq_false_iff.2 hn⟩
  rw [← (eval_ok hv).2.2] at hmem
  cases hmem

theorem ready_cases (h : ((s.start epoch number c).memo d).isReady epoch = true) (hdc : d ≠ c) :
    (s.memo d).settled = true ∨ s.Done epoch d ∨ s.Active epoch d := by
  rw [Pass.memo_start_of_ne hdc.symm, Memo.isReady, Bool.or_eq_true, Bool.and_eq_true, Bool.or_eq_true,
    beq_iff_eq] at h
  rcases h with hset | ⟨hepoch, hdone | hactive⟩
  · exact .inl hset
  · exact .inr (.inl ⟨hepoch, hdone⟩)
  · exact .inr (.inr ⟨hepoch, hactive⟩)

section Waiting

variable {w : Pass τ} {log₁ log₂ : List (Cell φ × Memos τ)} {q : Query τ ε (τ c.fact)} {v : τ c.fact}
  {missing : List (Cell φ)} {T : Cell φ → Prop}

omit [Std.TransOrd φ] in
theorem unready_of_missing {m : Memos τ} (hv : F.eval m epoch q = .ok (v, missing)) (hd : d ∈ missing.reverse) :
    (∃ r ∈ q.reads (F.value m), F.source? r = some d) ∧ (memo m d).isReady epoch = false := by
  rw [List.mem_reverse, (eval_ok hv).2.2, mem_unready] at hd
  exact hd

/-- A rule that waits is computed after what it waits for, since it is not computed before. -/
theorem waiting_in_log (hs : F.Tidy epoch m s) (hf : F.isFinished epoch s c = false)
    (hq : F.definition c.place c.fact = .rule q)
    (hv : F.eval (s.start epoch number c).memos epoch q = .ok (v, missing))
    (h₁ : Clears F epoch number missing.reverse (s.start epoch number c) w log₁)
    (h₂ : Clears F epoch number (c :: cs) w t log₂) : c ∈ log₂.map Prod.fst := by
  have hactive : (s.start epoch number c).Active epoch c := Pass.active_start.2 (.inl rfl)
  have hmissing : c ∉ missing.reverse := fun hm => not_active_of_unready (unready_of_missing hv hm).2 hactive
  have hw : w.Active epoch c := h₁.stays_active hactive hmissing
  have hsw : F.Tidy epoch m w := h₁.tidy (hs.start number hf)
  rcases h₂.finished hsw hq List.mem_cons_self with hset | hdone
  · rw [hs.unsettled_of_not_finished hf] at hset
    cases hset
  · exact (h₂.done_iff.1 hdone).resolve_right fun hd => hsw.not_active_of_done hd hw

omit [Std.LawfulEqOrd φ] [∀ f, Fact (τ f)] [Std.TransOrd φ] in
theorem lt_of_waiting {past : Cell φ → Prop} (h : Ranked rank past ((log₁ ++ log₂).map Prod.fst))
    (hc : c ∈ log₂.map Prod.fst) : ∀ d ∈ log₁.map Prod.fst, rank d < rank c := by
  intro d hd
  rw [List.map_append, ranked_append] at h
  exact h.2.lt hc (.inl hd)

/-- What is computed on behalf of what a rule misses is computed on behalf of the rule. -/
theorem under_waiting (hs : F.Tidy epoch m s) (hf : F.isFinished epoch s c = false)
    (hq : F.definition c.place c.fact = .rule q)
    (hv : F.eval (s.start epoch number c).memos epoch q = .ok (v, missing))
    (hm : ∀ d, (s.start epoch number c).Done epoch d → ((s.start epoch number c).memo d).value = (memo m' d).value)
    (hT : ∀ d ∈ log₁.map Prod.fst, T d) (hc : T c) (hlt : ∀ d ∈ log₁.map Prod.fst, rank d < rank c)
    (h : ∀ x ∈ log₁.map Prod.fst, ∃ y ∈ missing.reverse, y ∈ log₁.map Prod.fst ∧ F.Under m m' T rank x y) :
    ∀ x ∈ log₁.map Prod.fst, F.Under m m' T rank x c := by
  have hbetween : Between m m' (s.start epoch number c).memos := between_start hs fun d hd => by
    have hvalue := hm d ((Tidy.done_start_iff number hf).2 hd)
    rwa [Pass.value_start] at hvalue
  intro x hx
  obtain ⟨y, hy, hyl, hu⟩ := h x hx
  have hfeeds : F.Feeds m m' y c := ⟨_, q, v, hbetween, hq, (eval_ok hv).1, (unready_of_missing hv hy).1⟩
  exact hu.tail ⟨hT y hyl, hc, hlt y hyl, hfeeds⟩

end Waiting

/-- What is computed while the stack is cleared is computed on behalf of the cells of the stack. -/
theorem under {T : Cell φ → Prop} (h : Clears F epoch number cs s t log) (hs : F.Tidy epoch m s)
    (hr : Ranked rank (s.Done epoch) (log.map Prod.fst))
    (ht : ∀ d, t.Done epoch d → (t.memo d).value = (memo m' d).value) (hT : ∀ d ∈ log.map Prod.fst, T d) :
    ∀ x ∈ log.map Prod.fst, ∃ y ∈ cs, y ∈ log.map Prod.fst ∧ F.Under m m' T rank x y := by
  induction h with
  | nil => simp
  | @skip c cs s t log hf h ih =>
    intro x hx
    obtain ⟨y, hy, hu⟩ := ih hs hr ht hT x hx
    exact ⟨y, List.mem_cons_of_mem c hy, hu⟩
  | @compute c cs s t log q v hf hq hv h ih =>
    intro x hx
    rcases List.mem_cons.1 hx with rfl | hx
    · exact ⟨x, List.mem_cons_self, List.mem_cons_self, .refl⟩
    · obtain ⟨y, hy, hyl, hu⟩ := ih (hs.finish number hf v) (ranked_compute hr) ht
        (fun d hd => hT d (List.mem_cons_of_mem c hd)) x hx
      exact ⟨y, List.mem_cons_of_mem c hy, List.mem_cons_of_mem c hyl, hu⟩
  | @wait c cs s t w log₁ log₂ q v missing hf hq hv hm h₁ h₂ ih₁ ih₂ =>
    have hs₁ := hs.start number hf
    obtain ⟨hr₁, hr₂⟩ := ranked_wait hr hf h₁
    rw [List.map_append] at hT ⊢
    have hT₁ : ∀ d ∈ log₁.map Prod.fst, T d := fun d hd => hT d (List.mem_append_left _ hd)
    intro x hx
    rcases List.mem_append.1 hx with hx | hx
    · have hc : c ∈ log₂.map Prod.fst := waiting_in_log hs hf hq hv h₁ h₂
      refine ⟨c, List.mem_cons_self, List.mem_append_right _ hc, ?_⟩
      exact under_waiting hs hf hq hv (h₁.value_of_done (h₂.value_of_done ht)) hT₁ (hT c (List.mem_append_right _ hc))
        (lt_of_waiting hr hc) (ih₁ hs₁ hr₁ (h₂.value_of_done ht) hT₁) x hx
    · obtain ⟨y, hy, hyl, hu⟩ := ih₂ (h₁.tidy hs₁) hr₂ ht (fun d hd => hT d (List.mem_append_right _ hd)) x hx
      exact ⟨y, hy, List.mem_append_right _ hyl, hu⟩

/-- Of the cells on the stack only the one on top may wait for others. -/
def Headed (epoch : Nat) (s : Pass τ) (cs : List (Cell φ)) : Prop :=
  ∀ d ∈ cs, s.Active epoch d → cs.head? = some d

namespace Headed

variable {q : Query τ ε (τ c.fact)} {v : τ c.fact} {missing : List (Cell φ)} {w : Pass τ}

omit [Std.TransOrd φ] in
theorem eq_head (h : Headed epoch s (c :: cs)) (hd : d ∈ c :: cs) (ha : s.Active epoch d) : d = c :=
  (Option.some.inj (h d hd ha)).symm

omit [Std.TransOrd φ] in
theorem skip (h : Headed epoch s (c :: cs)) (hc : ¬s.Active epoch c) : Headed epoch s cs := fun _ hd ha =>
  absurd (h.eq_head (List.mem_cons_of_mem c hd) ha ▸ ha) hc

theorem compute (h : Headed epoch s (c :: cs)) (number : Nat) (v : τ c.fact) :
    Headed epoch ((s.start epoch number c).finish c v) cs := fun d hd ha => by
  obtain ⟨hne, ha⟩ := (Pass.active_finish_start v).1 ha
  exact absurd (h.eq_head (List.mem_cons_of_mem c hd) ha) hne

omit [Std.TransOrd φ] in
theorem of_missing (hv : F.eval (s.start epoch number c).memos epoch q = .ok (v, missing)) :
    Headed epoch (s.start epoch number c) missing.reverse := fun _ hd ha =>
  absurd ha (not_active_of_unready (unready_of_missing hv hd).2)

theorem wait (h : Headed epoch s (c :: cs)) (hs : F.Tidy epoch m (s.start epoch number c))
    (h₁ : Clears F epoch number missing.reverse (s.start epoch number c) w log) : Headed epoch w (c :: cs) :=
  fun d hd ha => by
  rcases Pass.active_start.1 (h₁.active hs ha) with rfl | ha
  · rfl
  · rw [h.eq_head hd ha, List.head?_cons]

end Headed

/-- What a rule reads while the stack is cleared is settled, has been computed before, waits for the whole stack, or is what
the rule is computed on behalf of. -/
theorem reads {T : Cell φ → Prop} (h : Clears F epoch number cs s t log) (hs : F.Tidy epoch m s)
    (hr : Ranked rank (s.Done epoch) (log.map Prod.fst))
    (ht : ∀ d, t.Done epoch d → (t.memo d).value = (memo m' d).value)
    (hT : ∀ d ∈ log.map Prod.fst, T d) (hhead : Headed epoch s cs) :
    ∀ e ∈ log, ∀ q, F.definition e.1.place e.1.fact = .rule q → ∀ r ∈ q.reads (F.value e.2), ∀ d,
      F.source? r = some d → (memo m d).settled = true ∨ rank d < rank e.1 ∨ (s.Active epoch d ∧ d ∉ cs) ∨
        T d ∧ F.Under m m' T rank e.1 d := by
  induction h with
  | nil => simp
  | @skip c cs s t log hf h ih =>
    have hc := hs.not_active_of_finished hf
    intro e he q hq r hrr d hd
    refine (ih hs hr ht hT (hhead.skip hc) e he q hq r hrr d hd).imp_right
      (Or.imp_right (Or.imp_left fun ha => ⟨ha.1, fun hm => ?_⟩))
    rcases List.mem_cons.1 hm with rfl | hm
    · exact hc ha.1
    · exact ha.2 hm
  | @compute c cs s t log q v hf hq hv h ih =>
    intro e he q' hq' r hrr d hd
    rcases List.mem_cons.1 he with rfl | he
    · obtain rfl : q = q' := by simpa [hq] using hq'
      by_cases hdc : d = c
      · subst hdc
        exact .inr (.inr (.inr ⟨hT d List.mem_cons_self, .refl⟩))
      · rcases ready_cases (ready_of_computed hv hrr hd) hdc with hset | hdone | hact
        · exact .inl (hs.settled d ▸ hset)
        · exact .inr (.inl ((hr.1 d).2 hdone))
        · exact .inr (.inr (.inl ⟨hact, fun hm => hdc (hhead.eq_head hm hact)⟩))
    · refine (ih (hs.finish number hf v) (ranked_compute hr) ht (fun d hd => hT d (List.mem_cons_of_mem c hd))
        (hhead.compute number v) e he q' hq' r hrr d hd).imp_right (Or.imp_right (Or.imp_left fun ha => ?_))
      obtain ⟨hdc, ha⟩ := (Pass.active_finish_start v).1 ha.1
      exact ⟨ha, fun hm => hdc (hhead.eq_head hm ha)⟩
  | @wait c cs s t w log₁ log₂ q v missing hf hq hv hm h₁ h₂ ih₁ ih₂ =>
    have hs₁ := hs.start number hf
    have hc : c ∈ log₂.map Prod.fst := waiting_in_log hs hf hq hv h₁ h₂
    have hlt := lt_of_waiting hr hc
    obtain ⟨hr₁, hr₂⟩ := ranked_wait hr hf h₁
    have ht₁ := h₂.value_of_done ht
    rw [List.map_append] at hT
    have hT₁ : ∀ d ∈ log₁.map Prod.fst, T d := fun d hd => hT d (List.mem_append_left _ hd)
    have hTc : T c := hT c (List.mem_append_right _ hc)
    intro e he q' hq' r hrr d hd
    rcases List.mem_append.1 he with he | he
    · rcases ih₁ hs₁ hr₁ ht₁ hT₁ (.of_missing hv) e he q' hq' r hrr d hd with h | h | ⟨ha, -⟩ | h
      · exact .inl h
      · exact .inr (.inl h)
      · -- What waits now is the rule itself, on whose behalf the rest is computed, or has waited before.
        by_cases hdc : d = c
        · subst hdc
          have hunder := under_waiting hs hf hq hv (h₁.value_of_done ht₁) hT₁ hTc hlt (h₁.under hs₁ hr₁ ht₁ hT₁)
          exact .inr (.inr (.inr ⟨hTc, hunder _ (List.mem_map_of_mem he)⟩))
        · have ha := (Pass.active_start.1 ha).resolve_left hdc
          exact .inr (.inr (.inl ⟨ha, fun hm => hdc (hhead.eq_head hm ha)⟩))
      · exact .inr (.inr (.inr h))
    · refine (ih₂ (h₁.tidy hs₁) hr₂ ht (fun d hd => hT d (List.mem_append_right _ hd)) (hhead.wait hs₁ h₁) e he q' hq' r
        hrr d hd).imp_right (Or.imp_right (Or.imp_left fun ha => ⟨?_, ha.2⟩))
      have hdc : d ≠ c := fun he => ha.2 (he ▸ List.mem_cons_self)
      exact (Pass.active_start.1 (h₁.active hs₁ ha.1)).resolve_left hdc

end Clears

/-- A pass that ends well sweeps over the rules that it has touched, the one it was made for among them. -/
theorem sweep_of_work {root : Cell φ} {runs : List (Run φ)} (hm : ∀ c, (memo m c).epoch < epoch)
    (h : F.work epoch number n [root] { memos := m, runs } = (.ok (), t)) :
    F.Sweep root m t.memos t.touched ∧ F.Tidy epoch m t ∧ (∀ c ∈ t.touched, t.Done epoch c) ∧
      ∀ q, F.definition root.place root.fact = .rule q → (memo m root).settled = true ∨ root ∈ t.touched := by
  obtain ⟨log, hl⟩ := clears_of_work h
  have hs : F.Tidy epoch m { memos := m, runs } := .begin hm runs
  have hnone : ∀ d, ¬Pass.Done epoch { memos := m, runs } d := fun d hd => absurd hd.1 (Nat.ne_of_lt (hm d))
  have hidle : ∀ d, ¬Pass.Active epoch { memos := m, runs } d := fun d hd => absurd hd.1 (Nat.ne_of_lt (hm d))
  have ht := hl.tidy hs
  have hdone : ∀ c ∈ t.touched, t.Done epoch c := fun c hc =>
    (ht.done_or_active hc).resolve_right fun ha => hidle c (hl.active hs ha)
  have hlog : ∀ c, c ∈ t.touched ↔ c ∈ log.map Prod.fst := fun c =>
    ⟨fun hc => (hl.done_iff.1 (hdone c hc)).resolve_right (hnone c),
      fun hc => ht.done_touched (hl.done_iff.2 (.inl hc))⟩
  obtain ⟨rank, hrank⟩ := exists_ranked hl.nodup.1
  have hr := hrank.congr fun d => (iff_false_intro (hnone d)).symm
  have hvalues := hl.values hs hr (fun _ _ => rfl)
  have hT : ∀ d ∈ log.map Prod.fst, d ∈ t.touched := fun d hd => (hlog d).2 hd
  have hroot := hl.under (T := (· ∈ t.touched)) hs hr (fun _ _ => rfl) hT
  have hreads := hl.reads (T := (· ∈ t.touched)) hs hr (fun _ _ => rfl) hT fun d _ ha => absurd ha (hidle d)
  refine ⟨⟨ht.untouched, ht.settled, ht.unsettled, rank, fun c hc => ?_⟩, ht, hdone, fun q hq => ?_⟩
  · obtain ⟨y, hy, hyl, hu⟩ := hroot c ((hlog c).1 hc)
    obtain rfl := List.mem_singleton.1 hy
    refine ⟨(hlog y).2 hyl, hu, ?_⟩
    obtain ⟨e, he, rfl⟩ := List.mem_map.1 ((hlog c).1 hc)
    obtain ⟨hv, q, hq, hd, hres⟩ := hvalues e he
    refine ⟨e.2, q, hv, hq, hd, fun r hr' => ⟨hres r hr', fun d hd => ?_⟩⟩
    rcases hreads e he q hq r hr' d hd with h | h | ⟨ha, -⟩ | h
    · exact .inl h
    · have hm := (hrank.mem (List.mem_map_of_mem he) h).resolve_right id
      exact .inr ⟨(hlog d).2 hm, .inl h⟩
    · exact absurd ha (hidle d)
    · exact .inr ⟨h.1, .inr h.2⟩
  · exact (hl.finished hs hq List.mem_cons_self).imp_right ht.done_touched

end Family
end Predictive.Solver
