import Predictive.Proofs.Solver.Resolving
import Predictive.Proofs.Solver.Sweep

/-!
Passes until nothing changes. What every run keeps is kept by a reading, however it ends; a rule that is settled
has been computed from final values.
-/
namespace Predictive

/-- Saying the same is reflexive and symmetric. -/
class LawfulFact (α : Type) [Fact α] : Prop where
  refl (a : α) : Fact.agrees a a = true
  symm {a b : α} : Fact.agrees a b = true → Fact.agrees b a = true

instance : LawfulFact Bool where
  refl a := beq_self_eq_true a
  symm h := beq_iff_eq.2 (beq_iff_eq.1 h).symm

instance {α : Type} [Ord α] [DecidableEq α] : LawfulFact (FinSet α) where
  refl a := beq_self_eq_true a
  symm h := beq_iff_eq.2 (beq_iff_eq.1 h).symm

instance {α : Type} : LawfulFact (Option α) where
  refl a := beq_self_eq_true a.isSome
  symm h := beq_iff_eq.2 (beq_iff_eq.1 h).symm

namespace Solver

variable {φ : Type} {τ : φ → Type} {ε : Type}
variable [Ord φ] [Std.LawfulEqOrd φ] [∀ f, Fact (τ f)]

namespace Family

/-- What a read of `r` yields does not change any more. -/
def Final (F : Family τ ε) (m : Memos τ) (r : Cell φ) : Prop :=
  (F.resolve r.place r.fact).isSome ∧ ∀ d, F.source? r = some d → (memo m d).settled = true

theorem Leads.final {F : Family τ ε} {m : Memos τ} {f : φ} {p q : Nat} (h : F.Leads f p q) (hf : F.Final m ⟨p, f⟩) :
    F.Final m ⟨q, f⟩ := by
  refine ⟨by rw [h.resolve hf.1]; exact hf.1, fun d hd => hf.2 d ?_⟩
  rwa [h.source? hf.1] at hd

/-- The value of `c` is what its rule gives for values that say the same as final ones. -/
def Justified (F : Family τ ε) (m : Memos τ) (c : Cell φ) : Prop :=
  ∃ q σ, F.definition c.place c.fact = .rule q ∧ q.denote σ = .ok (memo m c).value ∧
    ∀ r ∈ q.reads σ, F.Final m r ∧ Fact.agrees (σ r.place r.fact) (F.value m r.place r.fact) = true

/-- Settled rules are settled in `m'` as in `m`, with the same values. -/
def Lasts (m m' : Memos τ) : Prop :=
  ∀ c, (memo m c).settled = true → (memo m' c).settled = true ∧ (memo m' c).value = (memo m c).value

theorem Lasts.refl (m : Memos τ) : Lasts m m := fun _ h => ⟨h, rfl⟩

theorem Lasts.trans {m m' m'' : Memos τ} (h : Lasts m m') (h' : Lasts m' m'') : Lasts m m'' := fun c hc =>
  ⟨(h' c (h c hc).1).1, (h' c (h c hc).1).2.trans (h c hc).2⟩

theorem Lasts.value {F : Family τ ε} {m m' : Memos τ} {r : Cell φ} (h : Lasts m m') (hf : F.Final m r) :
    F.value m' r.place r.fact = F.value m r.place r.fact :=
  value_congr fun d hs => (h d (hf.2 d hs)).2

theorem Lasts.final {F : Family τ ε} {m m' : Memos τ} {r : Cell φ} (h : Lasts m m') (hf : F.Final m r) :
    F.Final m' r := ⟨hf.1, fun d hs => (h d (hf.2 d hs)).1⟩

/-- What justifies a value is not lost while settled rules keep their values. -/
theorem Justified.mono {F : Family τ ε} {m m' : Memos τ} {c : Cell φ} (h : F.Justified m c)
    (hc : (memo m' c).value = (memo m c).value) (hm : Lasts m m') : F.Justified m' c := by
  obtain ⟨q, σ, hq, hd, hr⟩ := h
  refine ⟨q, σ, hq, hc ▸ hd, fun r hrr => ?_⟩
  obtain ⟨hf, ha⟩ := hr r hrr
  exact ⟨hm.final hf, (hm.value hf).symm ▸ ha⟩

/-- `n` sweeps over rules of `Q` in a row from `m`, each of which changes something; all memos on the way
satisfy `P`. -/
def Restless (F : Family τ ε) (Q : Cell φ → Prop) (P : Memos τ → Prop) (n : Nat) (root : Cell φ)
    (m : Memos τ) : Prop :=
  ∃ (ms : Nat → Memos τ) (Ts : Nat → List (Cell φ)), ms 0 = m ∧ (∀ i ≤ n, P (ms i)) ∧
    ∀ i < n, F.Sweep root (ms i) (ms (i + 1)) (Ts i) ∧ (∀ c ∈ Ts i, Q c) ∧
      ∃ c ∈ Ts i, Fact.agrees (memo (ms (i + 1)) c).value (memo (ms i) c).value = false

theorem Restless.cons {F : Family τ ε} {Q : Cell φ → Prop} {P : Memos τ → Prop} {n : Nat} {root : Cell φ}
    {m m' : Memos τ} {T : List (Cell φ)} (hm : P m) (hs : F.Sweep root m m' T) (hT : ∀ c ∈ T, Q c)
    (hc : ∃ c ∈ T, Fact.agrees (memo m' c).value (memo m c).value = false)
    (h : F.Restless Q P n root m') : F.Restless Q P (n + 1) root m := by
  obtain ⟨ms, Ts, rfl, hP, hsteps⟩ := h
  refine ⟨fun i => i.casesOn m ms, fun i => i.casesOn T Ts, rfl, fun i hi => ?_, fun i hi => ?_⟩
  · cases i with
    | zero => exact hm
    | succ i => exact hP i (by omega)
  · cases i with
    | zero => exact ⟨hs, hT, hc⟩
    | succ i => exact hsteps i (by omega)

theorem Restless.mono {F : Family τ ε} {Q : Cell φ → Prop} {P P' : Memos τ → Prop} {n : Nat} {root : Cell φ}
    {m : Memos τ} (hP : ∀ m, P m → P' m) (h : F.Restless Q P n root m) : F.Restless Q P' n root m := by
  obtain ⟨ms, Ts, h0, hms, hsteps⟩ := h
  exact ⟨ms, Ts, h0, fun i hi => hP _ (hms i hi), hsteps⟩

namespace Refines

variable {F F' : Family τ ε} {m : Memos τ}

theorem final (h : F.Refines F') {r : Cell φ} (hf : F.Final m r) : F'.Final m r := by
  obtain ⟨hres, hs⟩ := hf
  rw [h.resolve] at hres
  exact ⟨hres, fun d hd => hs d (h.source? r ▸ hd)⟩

theorem justified (h : F.Refines F') {c : Cell φ} (hj : F.Justified m c) : F'.Justified m c := by
  obtain ⟨q, σ, hq, hd, hr⟩ := hj
  obtain ⟨q', hq', hqq⟩ := h.rule hq
  obtain ⟨hd', hr'⟩ := (hqq _).2 _ hd
  refine ⟨q', σ, hq', hd', fun r hrr => ?_⟩
  obtain ⟨hf, ha⟩ := hr r (hr' ▸ hrr)
  exact ⟨h.final hf, by rwa [← h.value]⟩

theorem restless (h : F.Refines F') {Q : Cell φ → Prop} {P : Memos τ → Prop} {n : Nat} {root : Cell φ}
    (hr : F.Restless Q P n root m) : F'.Restless Q P n root m := by
  obtain ⟨ms, Ts, h0, hP, hs⟩ := hr
  exact ⟨ms, Ts, h0, hP, fun i hi => (hs i hi).imp_left h.sweep⟩

end Refines

/-- What every run of a rule in `Q` keeps, at any epoch. -/
structure Invariant (F : Family τ ε) (Q : Cell φ → Prop) (I : Nat → Memos τ → Prop) : Prop where
  epoch : ∀ {e m c}, I e m → (memo m c).epoch ≤ e
  next : ∀ {e m}, I e m → I (e + 1) m
  start : ∀ {e number c} {s : Pass τ}, Q c → F.isFinished (e + 1) s c = false → I (e + 1) s.memos →
    I (e + 1) (s.start (e + 1) number c).memos
  finish : ∀ {e number c q v} {s : Pass τ}, Q c → F.isFinished (e + 1) s c = false →
    F.definition c.place c.fact = .rule q →
    F.eval (s.start (e + 1) number c).memos (e + 1) q = .ok (v, []) → I (e + 1) s.memos →
    I (e + 1) ((s.start (e + 1) number c).finish c v).memos
  settle : ∀ {e m T}, I (e + 1) m →
    (∀ c ∈ T, (memo m c).epoch = e + 1 ∧ (memo m c).settled = false ∧ F.Justified (settle T m) c) →
    I (e + 1) (settle T m)

variable {F : Family τ ε} {m m' : Memos τ} {T : List (Cell φ)} {c d root : Cell φ}

theorem Invariant.work {Q : Cell φ → Prop} {I : Nat → Memos τ → Prop} (inv : F.Invariant Q I) (hQ : F.Within Q)
    (epoch number n : Nat) {cs : List (Cell φ)} (hcs : ∀ c ∈ cs, Q c) {s : Pass τ}
    (h : I (epoch + 1) s.memos) :
    I (epoch + 1) (F.work (epoch + 1) number n cs s).2.memos :=
  work_preserves (I := fun s => I (epoch + 1) s.memos) hQ (fun _ _ hc hf hs => inv.start hc hf hs)
    (fun _ _ _ _ hc hf hq he hs => inv.finish hc hf hq he hs) hcs h

variable [Std.TransOrd φ]

theorem memo_settle_of_not_mem (h : c ∉ T) : memo (settle T m) c = memo m c := by
  induction T generalizing m with
  | nil => rfl
  | cons d T ih =>
    rw [List.mem_cons, not_or] at h
    change memo (settle T (m.insert d _)) c = _
    rw [ih h.2, memo_insert_of_ne _ _ (Ne.symm h.1)]

theorem memo_settle_of_mem (h : c ∈ T) : memo (settle T m) c = { memo m c with settled := true } := by
  induction T generalizing m with
  | nil => cases h
  | cons d T ih =>
    change memo (settle T (m.insert d _)) c = _
    by_cases hc : c ∈ T
    · rw [ih hc]
      by_cases hd : d = c
      · subst hd
        rw [memo_insert_self]
      · rw [memo_insert_of_ne _ _ hd]
    · obtain rfl := (List.mem_cons.1 h).resolve_right hc
      rw [memo_settle_of_not_mem hc, memo_insert_self]

theorem value_settle : (memo (settle T m) c).value = (memo m c).value := by
  by_cases h : c ∈ T
  · rw [memo_settle_of_mem h]
  · rw [memo_settle_of_not_mem h]

theorem epoch_settle : (memo (settle T m) c).epoch = (memo m c).epoch := by
  by_cases h : c ∈ T
  · rw [memo_settle_of_mem h]
  · rw [memo_settle_of_not_mem h]

theorem settled_settle : (memo (settle T m) c).settled = true ↔ c ∈ T ∨ (memo m c).settled = true := by
  by_cases h : c ∈ T
  · simp [memo_settle_of_mem h, h]
  · simp [memo_settle_of_not_mem h, h]

theorem lasts_settle (T : List (Cell φ)) (m : Memos τ) : Lasts m (settle T m) := fun _ h =>
  ⟨settled_settle.2 (.inr h), value_settle⟩

variable [∀ f, LawfulFact (τ f)]

/-- A sweep that changes nothing justifies what it has computed. -/
theorem Sweep.justified (h : F.Sweep root m m' T)
    (hsame : ∀ c ∈ T, Fact.agrees (memo m' c).value (memo m c).value = true) (hc : c ∈ T) :
    F.Justified (settle T m') c := by
  obtain ⟨rank, horder⟩ := h.order
  obtain ⟨-, -, u, q, hu, hq, hd, hreads⟩ := horder c hc
  refine ⟨q, F.value u, hq, by rw [value_settle]; exact hd, fun r hr => ⟨⟨(hreads r hr).1, fun d hs => ?_⟩, ?_⟩⟩
  · rw [settled_settle, h.settled]
    exact ((hreads r hr).2 d hs).elim .inr fun hd => .inl hd.1
  · cases hs : F.source? r with
    | none =>
      rw [value_of_no_source _ (settle T m') hs]
      exact LawfulFact.refl _
    | some d =>
      obtain ⟨p, f⟩ := r
      obtain ⟨p', f'⟩ := d
      obtain rfl : f' = f := (source?_eq_some hs).1
      rw [value_of_source? hs, value_of_source? hs, value_settle, hu]
      split
      · exact LawfulFact.refl _
      · by_cases hd : (⟨p', f'⟩ : Cell φ) ∈ T
        · exact LawfulFact.symm (hsame _ hd)
        · rw [h.same _ hd]
          exact LawfulFact.refl _

variable {Q : Cell φ → Prop} {I : Nat → Memos τ → Prop} {n : Nat} {b : Book τ}

/-- A rule that can be reached is stuck, and was not settled in what is kept. -/
def Halted (F : Family τ ε) (Q : Cell φ → Prop) (I : Nat → Memos τ → Prop) (e : Failure ε) : Prop :=
  ∃ c n m, Q c ∧ I n m ∧ (memo m c).settled = false ∧ F.Stuck c e

/-- How a pass ends. -/
theorem pass_cases (inv : F.Invariant Q I) (hQ : F.Within Q) (hb : F.Bounded) (hroot : Q root)
    {q : Query τ ε (τ root.fact)} (hq : F.definition root.place root.fact = .rule q)
    (h : I b.epoch b.memos) (number : Nat) (runs : List (Run φ)) :
    (∃ e s, F.work (b.epoch + 1) number (2 * F.size) [root] { memos := b.memos, runs } = (.error e, s) ∧
      I (b.epoch + 1) s.memos ∧ ∃ c, Q c ∧ (memo b.memos c).settled = false ∧ F.Stuck c e) ∨
    ∃ s, F.work (b.epoch + 1) number (2 * F.size) [root] { memos := b.memos, runs } = (.ok (), s) ∧
      I (b.epoch + 1) s.memos ∧
      F.Sweep root b.memos s.memos s.touched ∧ (∀ c ∈ s.touched, Q c) ∧
      ((s.changed = true ∧
        ∃ c ∈ s.touched, Fact.agrees (memo s.memos c).value (memo b.memos c).value = false) ∨
      (s.changed = false ∧ I (b.epoch + 1) (settle s.touched s.memos) ∧
        (memo (settle s.touched s.memos) root).settled = true)) := by
  have hcs : ∀ c ∈ [root], Q c := fun c hc => by rwa [List.mem_singleton.1 hc]
  have hlt : ∀ c, (memo b.memos c).epoch < b.epoch + 1 := fun c => Nat.lt_succ_of_le (inv.epoch h)
  have hI := inv.work hQ b.epoch number (2 * F.size) (s := { memos := b.memos, runs }) hcs (inv.next h)
  have htidy : F.Tidy (b.epoch + 1) b.memos { memos := b.memos, runs } := .begin hlt runs
  have hfin : (F.work (b.epoch + 1) number (2 * F.size) [root] { memos := b.memos, runs }).1 ≠
      .error .unfinished := work_finishes hb htidy (.begin hlt runs [root]) (Nat.le_refl _)
  rcases hw : F.work (b.epoch + 1) number (2 * F.size) [root] { memos := b.memos, runs } with ⟨r, s⟩
  rw [hw] at hI hfin
  cases r with
  | error e =>
    refine .inl ⟨e, s, rfl, hI, ?_⟩
    exact (work_error hQ hcs (by rw [hw])).resolve_left fun he => hfin (by rw [he])
  | ok u =>
    obtain ⟨hs, ht, hdone, hr⟩ := sweep_of_work hlt hw
    have hT : ∀ c ∈ s.touched, Q c := by
      have := touched_within hQ number (2 * F.size) htidy hcs fun c hc => by cases hc
      rwa [hw] at this
    refine .inr ⟨s, rfl, hI, hs, hT, ?_⟩
    cases hc : s.changed with
    | true =>
      obtain ⟨c, hd, ha⟩ := ht.changed.1 hc
      exact .inl ⟨rfl, c, ht.done_touched hd, ha⟩
    | false =>
      have hsame : ∀ c ∈ s.touched, Fact.agrees (memo s.memos c).value (memo b.memos c).value = true := by
        intro c hct
        by_contra hn
        have := ht.changed.2 ⟨c, hdone c hct, Bool.eq_false_iff.2 hn⟩
        simp [hc] at this
      refine .inr ⟨rfl, inv.settle hI fun c hct => ⟨(hdone c hct).1, ?_, hs.justified hsame hct⟩, ?_⟩
      · rw [hs.settled]
        exact hs.unsettled c hct
      · rw [settled_settle, hs.settled]
        exact (hr q hq).symm

theorem passes_spec (inv : F.Invariant Q I) (hQ : F.Within Q) (hb : F.Bounded) (hroot : Q root)
    {q : Query τ ε (τ root.fact)} (hq : F.definition root.place root.fact = .rule q)
    (made : Nat) (runs : List (Run φ)) (h : I b.epoch b.memos) :
    I (F.passes root n made runs b).2.epoch (F.passes root n made runs b).2.memos ∧
    (∀ effort, (F.passes root n made runs b).1 = .ok effort →
      (memo (F.passes root n made runs b).2.memos root).settled = true) ∧
    ∀ e, (F.passes root n made runs b).1 = .error e → F.Halted Q I e ∨
      e = .unfinished ∧ F.Restless Q (fun m => ∃ e, I e m) n root b.memos := by
  induction n generalizing made runs b with
  | zero =>
    refine ⟨h, fun _ he => by simp [passes] at he, fun e he => ?_⟩
    simp only [passes, Except.error.injEq] at he
    exact .inr ⟨he.symm, fun _ => b.memos, fun _ => [], rfl, fun _ _ => ⟨_, h⟩, fun i hi => by omega⟩
  | succ n ih =>
    rcases pass_cases inv hQ hb hroot hq h (made + 1) runs with
      ⟨e, s, hw, hI, c, hc, hunsettled, hstuck⟩ | ⟨s, hw, hI, hsweep, hT, ⟨hc, hchange⟩ | ⟨hc, hsettle, hr⟩⟩
    · simp only [passes, hw]
      refine ⟨hI, fun _ he => by simp at he, fun e' he => ?_⟩
      obtain rfl : e = e' := by simpa using he
      exact .inl ⟨c, _, _, hc, h, hunsettled, hstuck⟩
    · simp only [passes, hw, hc, if_true]
      obtain ⟨h₁, h₂, h₃⟩ := ih (b := ⟨s.memos, b.epoch + 1⟩) (made + 1) s.runs hI
      refine ⟨h₁, h₂, fun e he => (h₃ e he).imp_right (And.imp_right fun hrest => ?_)⟩
      exact .cons ⟨_, h⟩ hsweep hT hchange hrest
    · simp only [passes, hw, hc]
      exact ⟨hsettle, fun _ _ => hr, fun e he => by simp at he⟩

/-- A reading keeps what every run keeps. If it yields a value, that is final; if it does not, a rule that can
be reached is stuck, or there are more passes than `n`. -/
theorem get_spec (inv : F.Invariant Q I) (hQ : F.Within Q) (hb : F.Bounded) {p : Nat} {f : φ}
    (hp : ∀ q, F.resolve p f = some q → Q ⟨q, f⟩) (h : I b.epoch b.memos) :
    I (F.get n p f b).2.epoch (F.get n p f b).2.memos ∧
    (∀ v effort, (F.get n p f b).1 = .ok (v, effort) →
      v = F.value (F.get n p f b).2.memos p f ∧ F.Final (F.get n p f b).2.memos ⟨p, f⟩) ∧
    ∀ e, (F.get n p f b).1 = .error e → (e = .boundToItself ∧ F.resolve p f = none) ∨
      F.Halted Q I e ∨ e = .unfinished ∧
        ∃ q, F.Restless Q (fun m => ∃ e, I e m) n ⟨q, f⟩ b.memos := by
  cases hr : F.resolve p f with
  | none =>
    simp only [get, hr]
    refine ⟨h, fun v effort he => by simp at he, fun e he => .inl ?_⟩
    simpa using he.symm
  | some q =>
    cases hd : F.definition q f with
    | constant w | deferred w _ =>
      have hs : F.source? ⟨p, f⟩ = none := by simp [Family.source?, hr, hd]
      simp only [get, hr, hd]
      refine ⟨h, fun v effort he => ⟨?_, by simp [hr], fun d hd => by simp [hs] at hd⟩, fun e he => by simp at he⟩
      simp only [Except.ok.injEq, Prod.mk.injEq] at he
      simp [value, hr, hd, he.1]
    | rule r =>
      have hs : F.source? ⟨p, f⟩ = some ⟨q, f⟩ := by simp [Family.source?, hr, hd]
      obtain ⟨h₁, h₂, h₃⟩ := passes_spec (n := n) inv hQ hb (hp q hr) hd 0 [] h
      rcases hw : F.passes ⟨q, f⟩ n 0 [] b with ⟨res, b'⟩
      rw [hw] at h₁ h₂ h₃
      cases res with
      | error e =>
        simp only [get, hr, hd, hw]
        refine ⟨h₁, fun v effort he => by simp at he, fun e' he => .inr ?_⟩
        obtain rfl : e = e' := by simpa using he
        exact (h₃ e rfl).imp_right (And.imp_right fun h => ⟨q, h⟩)
      | ok effort =>
        simp only [get, hr, hd, hw]
        refine ⟨h₁, fun v effort' he => ⟨?_, by simp [hr], fun d hd => ?_⟩, fun e he => by simp at he⟩
        · simp only [Except.ok.injEq, Prod.mk.injEq] at he
          rw [value_of_source? hs, he.1]
        · rw [hs] at hd
          cases hd
          exact h₂ effort rfl

end Family
end Solver
end Predictive
