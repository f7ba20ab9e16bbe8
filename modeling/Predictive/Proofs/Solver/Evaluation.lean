import Predictive.Solver.Reading

/-! What a query computes from given values of the cells, and what its evaluation in a pass has to do with that. -/
namespace Predictive.Solver

variable {φ : Type} {τ : φ → Type} {ε α β : Type}

namespace Query

variable {σ : (p : Nat) → (f : φ) → τ f}

/-- The outcome when each cell holds what `σ` gives for it. -/
def denote (σ : (p : Nat) → (f : φ) → τ f) : Query τ ε α → Except ε α
  | done a => .ok a
  | fail e => .error e
  | read p f next => (next (σ p f)).denote σ

/-- The cells read on the way, in order. -/
def reads (σ : (p : Nat) → (f : φ) → τ f) : Query τ ε α → List (Cell φ)
  | done _ | fail _ => []
  | read p f next => ⟨p, f⟩ :: (next (σ p f)).reads σ

@[simp] theorem denote_pure (a : α) : (pure a : Query τ ε α).denote σ = .ok a := rfl

@[simp] theorem reads_pure (a : α) : (pure a : Query τ ε α).reads σ = [] := rfl

@[simp] theorem denote_fail (e : ε) : (fail e : Query τ ε α).denote σ = .error e := rfl

@[simp] theorem reads_fail (e : ε) : (fail e : Query τ ε α).reads σ = [] := rfl

@[simp] theorem denote_look (p : Nat) (f : φ) : (look p f : Query τ ε (τ f)).denote σ = .ok (σ p f) := rfl

@[simp] theorem reads_look (p : Nat) (f : φ) : (look p f : Query τ ε (τ f)).reads σ = [⟨p, f⟩] := rfl

@[simp] theorem denote_read (p : Nat) (f : φ) (next : τ f → Query τ ε α) :
    (read p f next).denote σ = (next (σ p f)).denote σ := rfl

@[simp] theorem reads_read (p : Nat) (f : φ) (next : τ f → Query τ ε α) :
    (read p f next).reads σ = ⟨p, f⟩ :: (next (σ p f)).reads σ := rfl

@[simp] theorem look_bind (p : Nat) (f : φ) (k : τ f → Query τ ε α) : (look p f >>= k) = read p f k := rfl

@[simp] theorem bind_of_pure (a : α) (k : α → Query τ ε β) : ((pure a : Query τ ε α) >>= k) = k a := rfl

theorem denote_bind_ok {q : Query τ ε α} {k : α → Query τ ε β} {b : β} :
    (q >>= k).denote σ = .ok b ↔ ∃ a, q.denote σ = .ok a ∧ (k a).denote σ = .ok b := by
  change (q.bind k).denote σ = .ok b ↔ _
  induction q with
  | done a => simp [Query.bind, denote]
  | fail e => simp [Query.bind, denote]
  | read p f next ih => exact ih _

theorem reads_bind_of {q : Query τ ε α} {k : α → Query τ ε β} {a : α} (h : q.denote σ = .ok a) :
    (q >>= k).reads σ = q.reads σ ++ (k a).reads σ := by
  change (q.bind k).reads σ = _
  induction q with
  | done b => obtain rfl : b = a := Except.ok.inj h; rfl
  | fail e => cases h
  | read p f next ih => exact congrArg (List.cons _) (ih _ h)

/-- A query depends only on the cells that it reads. -/
theorem denote_congr {σ' : (p : Nat) → (f : φ) → τ f} {q : Query τ ε α}
    (h : ∀ c ∈ q.reads σ, σ c.place c.fact = σ' c.place c.fact) :
    q.denote σ' = q.denote σ ∧ q.reads σ' = q.reads σ := by
  induction q with
  | done a => exact ⟨rfl, rfl⟩
  | fail e => exact ⟨rfl, rfl⟩
  | read p f next ih =>
    have hp : σ p f = σ' p f := h ⟨p, f⟩ List.mem_cons_self
    simp only [denote, reads, ← hp]
    obtain ⟨hd, hr⟩ := ih (σ p f) fun c hc => h c (List.mem_cons_of_mem _ hc)
    exact ⟨hd, congrArg _ hr⟩

theorem mem_reads_bind {q : Query τ ε α} {k : α → Query τ ε β} {c : Cell φ} :
    c ∈ (q >>= k).reads σ ↔ c ∈ q.reads σ ∨ ∃ a, q.denote σ = .ok a ∧ c ∈ (k a).reads σ := by
  change c ∈ (q.bind k).reads σ ↔ _
  induction q with
  | done a => simp [Query.bind, denote, reads]
  | fail e => simp [Query.bind, denote, reads]
  | read p f next ih =>
    simp only [Query.bind, reads, denote, List.mem_cons, or_assoc]
    exact or_congr_right (ih _)

/-- Whatever `q` gives, `q'` gives too, reading the same cells; and in any case `q` reads no others. -/
def Refines (q q' : Query τ ε α) : Prop :=
  ∀ σ, (∀ c ∈ q.reads σ, c ∈ q'.reads σ) ∧
    ∀ a, q.denote σ = .ok a → q'.denote σ = .ok a ∧ q'.reads σ = q.reads σ

theorem Refines.refl (q : Query τ ε α) : q.Refines q := fun _ => ⟨fun _ hc => hc, fun _ h => ⟨h, rfl⟩⟩

theorem fail_refines (e : ε) (q : Query τ ε α) : (fail e : Query τ ε α).Refines q :=
  fun _ => ⟨fun _ hc => (nomatch hc), fun _ h => nomatch h⟩

theorem Refines.bind {q q' : Query τ ε α} {k k' : α → Query τ ε β} (h : q.Refines q')
    (hk : ∀ a, (k a).Refines (k' a)) : (q >>= k).Refines (q' >>= k') := by
  refine fun σ => ⟨fun c hc => ?_, fun b hb => ?_⟩
  · rcases mem_reads_bind.1 hc with hc | ⟨a, ha, hc⟩
    · exact mem_reads_bind.2 (.inl ((h σ).1 c hc))
    · exact mem_reads_bind.2 (.inr ⟨a, ((h σ).2 a ha).1, (hk a σ).1 c hc⟩)
  · obtain ⟨a, ha, hb⟩ := denote_bind_ok.1 hb
    obtain ⟨ha', hr⟩ := (h σ).2 a ha
    obtain ⟨hb', hs⟩ := (hk a σ).2 b hb
    refine ⟨denote_bind_ok.2 ⟨a, ha', hb'⟩, ?_⟩
    rw [reads_bind_of ha, reads_bind_of ha', hr, hs]

end Query

namespace Family

/-- No more than `size` cells are rules. -/
def Bounded (F : Family τ ε) : Prop :=
  ∃ rules : List (Cell φ), rules.length ≤ F.size ∧
    ∀ c q, F.definition c.place c.fact = .rule q → c ∈ rules

/-- `F'` defines each cell as `F` does, but for rules that give up in `F`. -/
def Refines (F F' : Family τ ε) : Prop :=
  F.size = F'.size ∧ ∀ p f, F.definition p f = F'.definition p f ∨
    ∃ q q', F.definition p f = .rule q ∧ F'.definition p f = .rule q' ∧ q.Refines q'

namespace Refines

variable {F F' : Family τ ε}

theorem follow (h : F.Refines F') (f : φ) (n p : Nat) : F.follow f n p = F'.follow f n p := by
  induction n generalizing p with
  | zero => rfl
  | succ n ih =>
    rcases h.2 p f with hd | ⟨q, q', hq, hq', _⟩
    · simp only [Family.follow, hd]
      split
      · exact ih _
      · rfl
    · simp only [Family.follow, hq, hq']

theorem resolve (h : F.Refines F') (p : Nat) (f : φ) : F.resolve p f = F'.resolve p f := by
  simp only [Family.resolve, h.1, h.follow]

theorem rule (h : F.Refines F') {p : Nat} {f : φ} {q : Query τ ε (τ f)} (hq : F.definition p f = .rule q) :
    ∃ q', F'.definition p f = .rule q' ∧ q.Refines q' := by
  rcases h.2 p f with hd | ⟨r, r', hr, hr', hrr⟩
  · exact ⟨q, hd ▸ hq, .refl q⟩
  · obtain rfl : r = q := by simpa using hr.symm.trans hq
    exact ⟨r', hr', hrr⟩

end Refines

variable {F F' : Family τ ε}

/-- The rule that a cell stands for, if it stands for one. -/
def source? (F : Family τ ε) (c : Cell φ) : Option (Cell φ) :=
  match F.resolve c.place c.fact with
  | none => none
  | some q =>
    match F.definition q c.fact with
    | .rule _ => some ⟨q, c.fact⟩
    | _ => none

/-- Every rule in `Q` reads only cells that stand for constants or for rules in `Q`. -/
def Within (F : Family τ ε) (Q : Cell φ → Prop) : Prop :=
  ∀ c q σ, Q c → F.definition c.place c.fact = .rule q → ∀ r ∈ q.reads σ, ∀ d, F.source? r = some d → Q d

theorem within_true : F.Within fun _ => True := fun _ _ _ _ _ _ _ _ _ => trivial

theorem source?_eq_some {c d : Cell φ} (h : F.source? c = some d) :
    d.fact = c.fact ∧ F.resolve c.place c.fact = some d.place ∧ ∃ q, F.definition d.place d.fact = .rule q := by
  simp only [source?] at h
  split at h
  · cases h
  · rename_i hr
    split at h
    · rename_i q hq
      cases h
      exact ⟨rfl, hr, q, hq⟩
    · cases h

theorem Refines.source? (h : F.Refines F') (c : Cell φ) : F.source? c = F'.source? c := by
  simp only [Family.source?, h.resolve]
  split
  · rfl
  · rename_i q _
    rcases h.2 q c.fact with hd | ⟨r, r', hr, hr', _⟩
    · rw [hd]
    · rw [hr, hr']

variable [Ord φ] [Std.LawfulEqOrd φ] [∀ f, Fact (τ f)] {m m' : Memos τ} {epoch : Nat}

/-- What a read of the cell of `f` at `p` yields. -/
def value (F : Family τ ε) (m : Memos τ) (p : Nat) (f : φ) : τ f :=
  match F.resolve p f with
  | none => Fact.bottom
  | some q =>
    match F.definition q f with
    | .constant v => v
    | .deferred v _ => v
    | .rule _ => (memo m ⟨q, f⟩).value

theorem value_of_source? {p : Nat} {f : φ} {q : Nat} (h : F.source? ⟨p, f⟩ = some ⟨q, f⟩) :
    F.value m p f = (memo m ⟨q, f⟩).value := by
  obtain ⟨_, hr, r, hq⟩ := source?_eq_some h
  simp only at hr hq
  simp only [value, hr, hq]

theorem value_of_no_source (m m' : Memos τ) {p : Nat} {f : φ} (h : F.source? ⟨p, f⟩ = none) :
    F.value m p f = F.value m' p f := by
  simp only [source?] at h
  unfold value
  split
  · rfl
  · rename_i hr
    simp only [hr] at h
    split at h
    · cases h
    · split <;> first | rfl | (rename_i hn _ _ hq; exact absurd hq (hn _))

/-- A read sees two memo tables alike if they hold the same for the rule that is read. -/
theorem value_congr {p : Nat} {f : φ}
    (h : ∀ d, F.source? ⟨p, f⟩ = some d → (memo m d).value = (memo m' d).value) :
    F.value m p f = F.value m' p f := by
  cases hs : F.source? ⟨p, f⟩ with
  | none => exact value_of_no_source _ _ hs
  | some d =>
    obtain ⟨q, g⟩ := d
    obtain rfl : g = f := (source?_eq_some hs).1
    rw [value_of_source? hs, value_of_source? hs]
    exact h _ hs

theorem Refines.value (h : F.Refines F') (m : Memos τ) (p : Nat) (f : φ) : F.value m p f = F'.value m p f := by
  simp only [Family.value, h.resolve]
  split
  · rfl
  · rename_i q _
    rcases h.2 q f with hd | ⟨r, r', hr, hr', _⟩
    · rw [hd]
    · rw [hr, hr']

/-- Of the rules behind the cells `cs`, those that a read in the pass `epoch` finds not ready. -/
def unready (F : Family τ ε) (m : Memos τ) (epoch : Nat) (cs : List (Cell φ)) : List (Cell φ) :=
  cs.filterMap fun c => (F.source? c).filter fun d => !(memo m d).isReady epoch

theorem mem_unready {cs : List (Cell φ)} {d : Cell φ} :
    d ∈ F.unready m epoch cs ↔ (∃ c ∈ cs, F.source? c = some d) ∧ (memo m d).isReady epoch = false := by
  simp only [unready, List.mem_filterMap, Option.filter_eq_some_iff, Bool.not_eq_true']
  grind

theorem view_of_resolve {p q : Nat} {f : φ} (h : F.resolve p f = some q) :
    F.view m epoch p f =
      .ok (F.value m p f, (F.source? ⟨p, f⟩).filter fun d => !(memo m d).isReady epoch) := by
  simp only [view, value, Family.source?, h]
  cases hq : F.definition q f with
  | constant v => rfl
  | deferred v t => rfl
  | rule r => cases hm : (memo m ⟨q, f⟩).isReady epoch <;> simp [Option.filter, hm]

theorem eval_ok {q : Query τ ε α} {a : α} {missing : List (Cell φ)} (h : F.eval m epoch q = .ok (a, missing)) :
    q.denote (F.value m) = .ok a ∧ (∀ c ∈ q.reads (F.value m), (F.resolve c.place c.fact).isSome) ∧
      missing = F.unready m epoch (q.reads (F.value m)) := by
  induction q generalizing missing with
  | done b =>
    cases h
    exact ⟨rfl, by simp [Query.reads], rfl⟩
  | fail e => cases h
  | read p f next ih =>
    cases hr : F.resolve p f with
    | none => simp [eval, view, hr] at h
    | some r =>
      simp only [eval, view_of_resolve hr] at h
      split at h
      · cases h
      · rename_i cells he
        simp only [Except.ok.injEq, Prod.mk.injEq] at h
        obtain ⟨rfl, rfl⟩ := h
        obtain ⟨hd, hres, hcells⟩ := ih _ he
        refine ⟨hd, ?_, ?_⟩
        · rintro c (_ | ⟨_, hc⟩)
          · simp [hr]
          · exact hres c hc
        · simp only [Query.reads, unready, List.filterMap_cons, hcells]
          cases (F.source? ⟨p, f⟩).filter fun d => !(memo m d).isReady epoch <;> rfl

/-- An evaluation fails because a read leads in a circle, or because the query does. -/
theorem eval_error {q : Query τ ε α} {e : Failure ε} (h : F.eval m epoch q = .error e) :
    (e = .boundToItself ∧ ∃ c ∈ q.reads (F.value m), F.resolve c.place c.fact = none) ∨
      ∃ e', e = .rule e' ∧ q.denote (F.value m) = .error e' := by
  induction q with
  | done b => cases h
  | fail e' =>
    cases h
    exact .inr ⟨e', rfl, rfl⟩
  | read p f next ih =>
    cases hr : F.resolve p f with
    | none =>
      simp only [eval, view, hr] at h
      cases h
      exact .inl ⟨rfl, ⟨p, f⟩, List.mem_cons_self, hr⟩
    | some r =>
      simp only [eval, view_of_resolve hr] at h
      split at h
      · rename_i he
        cases h
        rcases ih _ he with ⟨rfl, c, hc, hn⟩ | ⟨e', rfl, hd⟩
        · exact .inl ⟨rfl, c, List.mem_cons_of_mem _ hc, hn⟩
        · exact .inr ⟨e', rfl, hd⟩
      · cases h

variable [Std.TransOrd φ]

@[simp] theorem memo_insert_self (m : Memos τ) (c : Cell φ) (v : Memo (τ c.fact)) :
    memo (m.insert c v) c = v := Std.DTreeMap.getD_insert_self ..

theorem memo_insert_of_ne (m : Memos τ) {c d : Cell φ} (v : Memo (τ c.fact)) (h : c ≠ d) :
    memo (m.insert c v) d = memo m d := by
  simp only [memo, Std.DTreeMap.getD_insert, Std.LawfulEqOrd.compare_eq_iff_eq, h, dif_neg, not_false_iff]

@[simp] theorem memo_empty (c : Cell φ) : memo (∅ : Memos τ) c = Memo.fresh := by simp [memo]

end Family
end Predictive.Solver
