import Predictive.Proofs.Solver.Rules

/-!
Readings one after the other. If rules are monotone, each reading comes to an end, whatever has been read before, and
all of them together tell one solution of the definitions, the least. A settled rule is not run again.
-/
namespace Predictive.Solver

variable {φ : Type} {τ : φ → Type} {ε : Type}
variable [Ord φ] [Std.TransOrd φ] [Std.LawfulEqOrd φ] [∀ f, Fact (τ f)]

namespace Family

/-- The books that readings leave behind, of whatever cells and in whatever order, the first of them having started from
an empty one. -/
inductive Asked (F : Family τ ε) : Book τ → Prop
  | none : Asked F {}
  | get {b : Book τ} (limit p : Nat) (f : φ) : Asked F b → Asked F (F.get limit p f b).2

variable {F : Family τ ε} {m m₀ : Memos τ} {c root : Cell φ} {f : φ} {p n : Nat}

/-- None of the rules that are settled in `m₀` has been run, and no other has been settled. -/
structure Spares (m₀ : Memos τ) (s : Pass τ) : Prop where
  settled : ∀ c, (s.memo c).settled = (memo m₀ c).settled
  runs : ∀ r ∈ s.runs, (memo m₀ r.cell).settled = false

theorem Spares.start {s : Pass τ} {epoch : Nat} (h : Spares m₀ s) (number : Nat)
    (hf : F.isFinished epoch s c = false) : Spares m₀ (s.start epoch number c) where
  settled d := Pass.settled_start.trans (h.settled d)
  runs r hr := by
    rcases List.mem_cons.1 hr with rfl | hr
    · exact (h.settled c).symm.trans (not_settled_of_not_finished hf)
    · exact h.runs r hr

theorem Spares.work {s : Pass τ} (h : Spares m₀ s) (epoch number n : Nat) (cs : List (Cell φ)) :
    Spares m₀ (F.work epoch number n cs s).2 :=
  work_preserves within_true (fun _ _ _ hf hs => hs.start number hf)
    (fun _ _ _ v _ hf _ _ hs =>
      ⟨fun d => (Pass.settled_finish v).trans ((hs.start number hf).settled d), (hs.start number hf).runs⟩)
    (fun _ _ => trivial) h

/-- A settled rule is not run again. -/
theorem runs_passes {b : Book τ} {runs : List (Run φ)} {effort : Effort φ} (made : Nat)
    (hs : Spares m₀ { memos := b.memos, runs }) (h : (F.passes root n made runs b).1 = .ok effort) :
    ∀ r ∈ effort.runs, (memo m₀ r.cell).settled = false := by
  induction n generalizing made runs b with
  | zero => simp [passes] at h
  | succ n ih =>
    have hw := hs.work (F := F) (b.epoch + 1) (made + 1) (2 * F.size) [root]
    rw [passes] at h
    rcases hr : F.work (b.epoch + 1) (made + 1) (2 * F.size) [root] { memos := b.memos, runs } with ⟨res, s⟩
    rw [hr] at hw
    simp only [hr] at h
    cases res with
    | error e => cases h
    | ok u =>
      cases hc : s.changed with
      | true =>
        simp only [hc, if_true] at h
        exact ih (b := ⟨s.memos, b.epoch + 1⟩) (made + 1) ⟨hw.settled, hw.runs⟩ h
      | false =>
        simp only [hc, Bool.false_eq_true, if_false, Except.ok.injEq] at h
        subst h
        exact fun r hr => hw.runs r (List.mem_reverse.1 hr)

theorem runs_get {b : Book τ} {limit : Nat} {v : τ f} {effort : Effort φ}
    (h : (F.get limit p f b).1 = .ok (v, some effort)) : ∀ r ∈ effort.runs, (memo b.memos r.cell).settled = false := by
  simp only [get] at h
  split at h
  · cases h
  · split at h
    · simp at h
    · simp at h
    · split at h
      · cases h
      · rename_i hp
        simp only [Except.ok.injEq, Prod.mk.injEq, Option.some.injEq] at h
        obtain ⟨-, rfl⟩ := h
        exact runs_passes 0 ⟨fun _ => rfl, fun _ hr => by cases hr⟩ (congrArg Prod.fst hp)

section Monotone

variable [∀ f, PartialOrder (τ f)] {top : (f : φ) → τ f}

theorem Monotone.invariant (hF : F.Monotone top) (m₀ : Memos τ) :
    F.Invariant (fun _ => True) (F.Approaches top m₀) where
  epoch h := h.epoch _
  next h := h.step hF (fun c => Nat.le_succ_of_le (h.epoch c)) (fun _ => .inl rfl) (fun _ => id) fun _ => .inl
  start {e number c s} _ _ h := by
    refine h.step hF (fun d => ?_) (fun _ => .inl Pass.value_start) (fun d hd => ?_) fun d hd => .inl ?_
    · exact Pass.epoch_start_le h.epoch d
    · exact Pass.settled_start.trans hd
    · exact Pass.settled_start.symm.trans hd
  finish {e number c q v s} _ hf hq he h := by
    have hsettled : ∀ d, (memo ((s.start (e + 1) number c).finish c v).memos d).settled = (memo s.memos d).settled :=
      fun d => (Pass.settled_finish v).trans Pass.settled_start
    have hv := (eval_ok he).1
    rw [show F.value (s.start (e + 1) number c).memos = F.value s.memos from
      funext fun p => funext fun f => value_start_memos p f] at hv
    refine h.step hF (fun d => ?_) (fun d => ?_) (fun d hd => (hsettled d).trans hd) fun d hd =>
      .inl ((hsettled d).symm.trans hd)
    · exact Pass.epoch_finish_start_le h.epoch d
    · by_cases hcd : c = d
      · subst hcd
        refine .inr ⟨not_settled_of_not_finished hf, q, hq, ?_⟩
        rw [show memo ((s.start (e + 1) number c).finish c v).memos c = _ from Pass.memo_finish_self v]
        exact hv
      · exact .inl (Pass.value_finish_start_of_ne v hcd)
  settle {e m T} h hT := by
    refine h.step hF (fun c => ?_) (fun _ => .inl value_settle) (fun c hc => settled_settle.2 (.inr hc)) fun c hc => ?_
    · rw [epoch_settle]
      exact h.epoch c
    · exact (settled_settle.1 hc).symm.imp_right fun hcT => (hT c hcT).2.2

variable [∀ f, RisingFact (τ f)] {b : Book τ} {e limit N : Nat} {σ : (p : Nat) → (f : φ) → τ f}

theorem Approaches.get (h : F.Approaches top m₀ b.epoch b.memos) (hF : F.Monotone top) (limit p : Nat) (f : φ) :
    F.Approaches top m₀ (F.get limit p f b).2.epoch (F.get limit p f b).2.memos :=
  (get_spec (hF.invariant m₀) within_true hF.finite.bounded (fun _ _ => trivial) h).1

theorem Asked.approaches (h : F.Asked b) (hF : F.Monotone top) : F.Approaches top b.memos b.epoch b.memos := by
  induction h with
  | none =>
    refine ⟨fun c => ?_, fun c => ?_, fun σ _ c => ?_, fun c q v _ _ => ?_, fun c hc => ?_, fun c hc => ⟨hc, rfl⟩⟩
    · simp [Memo.fresh]
    · rw [memo_empty]
      exact RisingFact.bottom_le _
    · rw [memo_empty]
      exact RisingFact.bottom_le _
    · rw [memo_empty]
      exact RisingFact.bottom_le _
    · simp [Memo.fresh] at hc
  | get limit p f _ ih => exact (ih.get hF limit p f).refl

/-- With enough passes a reading ends, and what it has read is final. -/
theorem Approaches.get_ok (h : F.Approaches top m₀ b.epoch b.memos) (hF : F.Monotone top)
    (hN : ∀ f, RisingFact.size (top f) ≤ N) (hlimit : F.size * N < limit) (p : Nat) (f : φ) :
    ∃ effort, (F.get limit p f b).1 = .ok (F.value (F.get limit p f b).2.memos p f, effort) ∧
      F.Final (F.get limit p f b).2.memos ⟨p, f⟩ := by
  obtain ⟨-, hok, herror⟩ :=
    get_spec (n := limit) (p := p) (f := f) (hF.invariant m₀) within_true hF.finite.bounded (fun _ _ => trivial) h
  cases hr : (F.get limit p f b).1 with
  | ok r =>
    obtain ⟨v, effort⟩ := r
    obtain ⟨rfl, hf⟩ := hok v effort hr
    exact ⟨effort, rfl, hf⟩
  | error e =>
    exfalso
    rcases herror e hr with ⟨-, hn⟩ | ⟨c, _, _, -, -, -, hc⟩ | ⟨-, q, hq⟩
    · simpa [hn] using hF.isSome_resolve p f
    · exact hF.not_stuck hc
    · have := hq.le hF hN
      omega

/-- Reading one after the other settles all of `cells`. -/
theorem Approaches.exists_settled (h : F.Approaches top m₀ e m) (hF : F.Monotone top)
    (hN : ∀ f, RisingFact.size (top f) ≤ N) (cells : List (Cell φ)) :
    ∃ e' m', F.Approaches top m₀ e' m' ∧
      ∀ c ∈ cells, ∀ q, F.definition c.place c.fact = .rule q → (memo m' c).settled = true := by
  induction cells with
  | nil => exact ⟨e, m, h, fun _ hc => nomatch hc⟩
  | cons c cs ih =>
    obtain ⟨e₁, m₁, h₁, hcs⟩ := ih
    -- The cell is read next; what has been settled before stays so.
    have h₂ := h₁.refl.get (b := ⟨m₁, e₁⟩) hF (F.size * N + 1) c.place c.fact
    obtain ⟨-, -, hf⟩ := h₁.get_ok (b := ⟨m₁, e₁⟩) hF hN (Nat.lt_succ_self _) c.place c.fact
    refine ⟨_, _, h₁.trans h₂, fun d hd q hq => ?_⟩
    rcases List.mem_cons.1 hd with rfl | hd
    · exact hf.2 d (source?_of_rule hq)
    · exact (h₂.kept d (hcs d hd q hq)).1

/-- What is final agrees with the least solution. -/
theorem Approaches.eq_least (h : F.Approaches top m₀ e m) (hF : F.Monotone top)
    (hN : ∀ f, RisingFact.size (top f) ≤ N) (hσ : IsLeast {σ | F.Solves top σ} σ) (hf : F.Final m ⟨p, f⟩) :
    F.value m p f = σ p f := by
  obtain ⟨cells, -, hcells⟩ := hF.finite.bounded
  obtain ⟨e', m', h', hm'⟩ := h.refl.exists_settled hF hN cells
  obtain rfl := hσ.unique (h'.isLeast hF fun c q hq => hm' c (hcells c q hq) q hq)
  exact value_congr fun d hd => (h'.kept d (hf.2 d hd)).2.symm

/-- Readings of a monotone family, in whatever order, find its least solution. Each of them ends; what it has read is
settled from then on, and a settled rule is not run again. -/
theorem get_eq_least (hF : F.Monotone top) (hN : ∀ f, RisingFact.size (top f) ≤ N) :
    ∃ σ, IsLeast {σ | F.Solves top σ} σ ∧ ∀ b, F.Asked b →
      (∀ c, (memo b.memos c).settled = true → (memo b.memos c).value = σ c.place c.fact) ∧
      ∀ limit p f,
        (∀ c, (memo b.memos c).settled = true → (memo (F.get limit p f b).2.memos c).settled = true) ∧
        (F.size * N < limit → ∃ effort, (F.get limit p f b).1 = .ok (σ p f, effort) ∧
          F.Final (F.get limit p f b).2.memos ⟨p, f⟩ ∧
          ∀ work ∈ effort, ∀ r ∈ work.runs, (memo b.memos r.cell).settled = false) := by
  obtain ⟨cells, -, hcells⟩ := hF.finite.bounded
  obtain ⟨e, m, h, hm⟩ := (Asked.none.approaches hF).exists_settled hF hN cells
  have hσ := h.isLeast hF fun c q hq => hm c (hcells c q hq) q hq
  refine ⟨F.value m, hσ, fun b hb => ?_⟩
  have hb := hb.approaches hF
  refine ⟨fun c hc => ?_, fun limit p f => ⟨fun c hc => ((hb.get hF limit p f).kept c hc).1, fun hlimit => ?_⟩⟩
  · obtain ⟨q, -, hq, -⟩ := hb.justified c hc
    have hf : F.Final b.memos c := ⟨hF.isSome_resolve _ _, fun d hd => by
      obtain rfl : c = d := by simpa [source?_of_rule hq] using hd
      exact hc⟩
    rw [← hb.eq_least hF hN hσ hf, value_of_rule hq]
  · obtain ⟨effort, hok, hf⟩ := hb.get_ok hF hN hlimit p f
    rw [(hb.get hF limit p f).eq_least hF hN hσ hf] at hok
    refine ⟨effort, hok, hf, fun work hwork => ?_⟩
    obtain rfl : effort = some work := hwork
    exact runs_get hok

end Monotone

end Family

namespace Network

/-- Two rules, each of which adds a number to what the other holds. -/
def twins : Network (FinSet Int64) where
  cells := #[.deferred ∅ (some 2), .deferred ∅ (some 3),
    .rule (SetRule.union.rule (FinSet.singleton 1) [1]), .rule (SetRule.union.rule (FinSet.singleton 2) [0])]

theorem monotone_twins : twins.family.Monotone fun _ => FinSet.ofList [1, 2] := by
  refine monotone_family (fun d hd => ?_) fun p h => ?_
  · have hunion : ∀ n ∈ FinSet.ofList [1, 2], ∀ deps : List Nat,
        (SetRule.union.rule (FinSet.singleton n) deps).Rises (fun _ => FinSet.ofList [1, 2]) (FinSet.ofList [1, 2]) :=
      fun n hn deps => SetRule.rises (fun a ha => FinSet.mem_singleton.1 ha ▸ hn) (.inl rfl) nofun
    simp only [twins, List.mem_toArray, List.mem_cons, List.not_mem_nil, or_false] at hd
    rcases hd with rfl | rfl | rfl | rfl
    · trivial
    · trivial
    · exact hunion 1 (by simp) [1]
    · exact hunion 2 (by simp) [0]
  · -- A target of a deferred cell is a rule.
    have hleads : ∀ p q, twins.family.Leads .value p q → p < 2 ∧ 2 ≤ q := by
      rintro p q ⟨v, hv⟩
      match p with
      | 0 | 1 =>
        cases hv
        decide
      | 2 | 3 => cases hv
      | p + 4 => simp [family, twins] at hv
    obtain ⟨_, hfirst, _⟩ := Relation.TransGen.head'_iff.1 h
    obtain ⟨_, _, hlast⟩ := Relation.TransGen.tail'_iff.1 h
    have := (hleads _ _ hfirst).1
    have := (hleads _ _ hlast).2
    omega

/-- Where the definitions hold, each of the two holds both numbers. -/
theorem eq_of_solves_twins {σ : (p : Nat) → (f : Sole) → FinSet Int64} {p : Nat}
    (hσ : twins.family.Solves (fun _ => FinSet.ofList [1, 2]) σ) (hp : p < 4) : σ p .value = FinSet.ofList [1, 2] := by
  have h0 : σ 0 .value = σ 2 .value := hσ.leads ⟨∅, rfl⟩
  have h1 : σ 1 .value = σ 3 .value := hσ.leads ⟨∅, rfl⟩
  have h2 : σ 2 .value = FinSet.singleton 1 ∪ σ 1 .value := (Except.ok.inj (hσ.rule (p := 2) (f := .value) rfl)).symm
  have h3 : σ 3 .value = FinSet.singleton 2 ∪ σ 0 .value := (Except.ok.inj (hσ.rule (p := 3) (f := .value) rfl)).symm
  have one_mem : 1 ∈ σ 2 .value := by simp [h2]
  have two_mem : 2 ∈ σ 3 .value := by simp [h3]
  have full : ∀ q, 1 ∈ σ q .value → 2 ∈ σ q .value → σ q .value = FinSet.ofList [1, 2] := by
    refine fun q h₁ h₂ => le_antisymm (hσ.le_top q .value) fun x hx => ?_
    rcases (by simpa using hx : x = 1 ∨ x = 2) with rfl | rfl
    · exact h₁
    · exact h₂
  have full2 : σ 2 .value = FinSet.ofList [1, 2] := full 2 one_mem (by rw [h2, h1]; simp [two_mem])
  have full3 : σ 3 .value = FinSet.ofList [1, 2] := full 3 (by rw [h3, h0]; simp [one_mem]) two_mem
  obtain rfl | rfl | rfl | rfl : p = 0 ∨ p = 1 ∨ p = 2 ∨ p = 3 := by omega
  · exact h0.trans full2
  · exact h1.trans full3
  · exact full2
  · exact full3

/-- Whatever has been read before, each of the two turns out to hold both numbers. -/
theorem get_eq_least_twins : (twins.family.Monotone fun _ => FinSet.ofList [1, 2]) ∧
    ∀ b, twins.family.Asked b → ∀ p < 4,
      ∃ effort, (twins.family.get passLimit p .value b).1 = .ok (FinSet.ofList [1, 2], effort) := by
  obtain ⟨σ, ⟨hσ, -⟩, h⟩ := Family.get_eq_least (N := 2) monotone_twins fun _ => by decide
  refine ⟨monotone_twins, fun b hb p hp => ?_⟩
  obtain ⟨effort, hok, -⟩ := ((h b hb).2 passLimit p .value).2 (by decide)
  exact ⟨effort, eq_of_solves_twins hσ hp ▸ hok⟩

end Network

end Predictive.Solver
