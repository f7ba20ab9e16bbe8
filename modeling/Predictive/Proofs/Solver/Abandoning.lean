import Predictive.Proofs.Solver.Fixpoint

/-!
Readings that are abandoned because a rule gives up, in whatever run of whatever pass. What they leave behind is below the
least solution all the same, and a reading that no rule stands against finds that solution.
-/
namespace Predictive.Solver

variable {φ : Type} {τ : φ → Type} {ε : Type}

namespace Family

variable {F : Family τ ε} {G : Nat → Family τ ε} {H : Family τ ε}

/-- The rule of `c` reads a cell that stands for the one of `d`, for some values of the cells. -/
def Asks (F : Family τ ε) (c d : Cell φ) : Prop :=
  ∃ q σ r, F.definition c.place c.fact = .rule q ∧ r ∈ q.reads σ ∧ F.source? r = some d

/-- A reading of `r` may have to run the rule of `d`. -/
def Concerns (F : Family τ ε) (r d : Cell φ) : Prop := ∃ c, F.source? r = some c ∧ Relation.ReflTransGen F.Asks c d

theorem within_concerns (F : Family τ ε) (r : Cell φ) : F.Within (F.Concerns r) := by
  rintro c q σ ⟨c₀, h₀, hc⟩ hq r' hr' d hd
  exact ⟨c₀, h₀, hc.tail ⟨q, σ, r', hq, hr', hd⟩⟩

theorem Refines.refl (F : Family τ ε) : F.Refines F := ⟨rfl, fun _ _ => .inl rfl⟩

theorem Refines.exists_rule (h : H.Refines F) {p : Nat} {f : φ} {q' : Query τ ε (τ f)}
    (hq' : F.definition p f = .rule q') : ∃ q, H.definition p f = .rule q ∧ q.Refines q' := by
  rcases h.2 p f with hd | ⟨q, r, hq, hr, hqr⟩
  · exact ⟨q', hd.trans hq', .refl q'⟩
  · obtain rfl : r = q' := by simpa using hr.symm.trans hq'
    exact ⟨q, hq, hqr⟩

variable [Ord φ] [Std.LawfulEqOrd φ] [∀ f, Fact (τ f)]

/-- A pass in which the rules may change from run to run: in the one after `j` others they are those of `G j`. -/
def workBy (F : Family τ ε) (G : Nat → Family τ ε) (epoch number : Nat) : Nat → List (Cell φ) → Pass τ →
    Except (Failure ε) Unit × Pass τ
  | n, stack, s =>
    match stack.dropWhile (F.isFinished epoch s), n with
    | [], _ => (.ok (), s)
    | _ :: _, 0 => (.error .unfinished, s)
    | c :: rest, n + 1 =>
      match (G s.runs.length).run epoch number c s with
      | (.error e, s) => (.error e, s)
      | (.ok [], s) => F.workBy G epoch number n rest s
      | (.ok missing, s) => F.workBy G epoch number n (missing.reverse ++ c :: rest) s

def passesBy (F : Family τ ε) (G : Nat → Family τ ε) (root : Cell φ) : Nat → Nat → List (Run φ) → Book τ →
    Except (Failure ε) (Effort φ) × Book τ
  | 0, _, _, b => (.error .unfinished, b)
  | n + 1, made, runs, b =>
    let epoch := b.epoch + 1
    match F.workBy G epoch (made + 1) (2 * F.size) [root] { memos := b.memos, runs } with
    | (.error e, s) => (.error e, ⟨s.memos, epoch⟩)
    | (.ok (), s) =>
      if s.changed then F.passesBy G root n (made + 1) s.runs ⟨s.memos, epoch⟩
      else (.ok ⟨made + 1, s.touched.length, s.runs.reverse⟩, ⟨settle s.touched s.memos, epoch⟩)

/-- A reading in which the rules may change from run to run. -/
def getBy (F : Family τ ε) (G : Nat → Family τ ε) (limit p : Nat) (f : φ) (b : Book τ) :
    Except (Failure ε) (τ f × Option (Effort φ)) × Book τ :=
  match F.resolve p f with
  | none => (.error .boundToItself, b)
  | some q =>
    match F.definition q f with
    | .constant v => (.ok (v, none), b)
    | .deferred v _ => (.ok (v, none), b)
    | .rule _ =>
      match F.passesBy G ⟨q, f⟩ limit 0 [] b with
      | (.error e, b) => (.error e, b)
      | (.ok effort, b) => (.ok ((memo b.memos ⟨q, f⟩).value, some effort), b)

theorem workBy_const (epoch number n : Nat) (cs : List (Cell φ)) (s : Pass τ) :
    F.workBy (fun _ => F) epoch number n cs s = F.work epoch number n cs s := by
  induction n generalizing cs s with
  | zero =>
    rw [workBy.eq_def, work.eq_def]
    cases heq : cs.dropWhile (F.isFinished epoch s) <;> simp only [heq]
  | succ n ih =>
    rw [workBy.eq_def, work.eq_def]
    cases heq : cs.dropWhile (F.isFinished epoch s) with
    | nil => simp only [heq]
    | cons c rest => rcases hrun : F.run epoch number c s with ⟨e | _ | ⟨d, ds⟩, u⟩ <;> simp only [heq, hrun, ih]

theorem passesBy_const (root : Cell φ) (n made : Nat) (runs : List (Run φ)) (b : Book τ) :
    F.passesBy (fun _ => F) root n made runs b = F.passes root n made runs b := by
  induction n generalizing made runs b with
  | zero => rfl
  | succ n ih =>
    rw [passesBy, passes, workBy_const]
    rcases hw : F.work (b.epoch + 1) (made + 1) (2 * F.size) [root] { memos := b.memos, runs } with ⟨e | u, s⟩
    · rfl
    · cases hc : s.changed <;> simp [hc, ih]

/-- Where the rules stay the same it is a reading like any other. -/
theorem getBy_const (F : Family τ ε) (limit p : Nat) (f : φ) (b : Book τ) :
    F.getBy (fun _ => F) limit p f b = F.get limit p f b := by
  rw [getBy, get]
  cases hr : F.resolve p f with
  | none => rfl
  | some q =>
    cases hd : F.definition q f with
    | constant v | deferred v t => simp only [hd]
    | rule r =>
      rcases hp : F.passes ⟨q, f⟩ limit 0 [] b with ⟨e | effort, b'⟩ <;> simp only [hd, passesBy_const, hp]

section Runs

variable {epoch number n : Nat} {s t u : Pass τ} {c d root : Cell φ} {cs : List (Cell φ)} {m m₀ : Memos τ} {e : ε}
  {Q : Cell φ → Prop}

/-- What is computed by a query that might give up is what the query gives that does not. -/
theorem Refines.eval {α : Type} {q q' : Query τ ε α} {v : α} {missing : List (Cell φ)} (h : H.Refines F)
    (hq : q.Refines q') (he : H.eval m epoch q = .ok (v, missing)) : F.eval m epoch q' = .ok (v, missing) := by
  obtain ⟨hv, hres, rfl⟩ := eval_ok he
  rw [h.value_eq] at hv hres
  obtain ⟨hv', hreads⟩ := (hq _).2 v hv
  have hunready : H.unready m epoch (q.reads (H.value m)) = F.unready m epoch (q'.reads (F.value m)) := by
    simp only [unready, h.source?, h.value_eq, hreads]
  cases he' : F.eval m epoch q' with
  | error x =>
    rcases eval_error he' with ⟨-, r, hr, hnone⟩ | ⟨x', -, hx⟩
    · have hsome := hres r (hreads ▸ hr)
      rw [h.resolve, hnone] at hsome
      cases hsome
    · cases hv'.symm.trans hx
  | ok r =>
    obtain ⟨v', missing'⟩ := r
    obtain ⟨hv'', -, rfl⟩ := eval_ok he'
    cases hv'.symm.trans hv''
    rw [hunready]

/-- A rule that might give up does, or it is run like the other one. -/
theorem Refines.run (h : H.Refines F) (hres : ∀ p f, (F.resolve p f).isSome) (number : Nat)
    (hf : F.isFinished epoch s c = false) : H.run epoch number c s = F.run epoch number c s ∨
      ∃ e, H.Stuck c (.rule e) ∧ H.run epoch number c s = (.error (.rule e), s.start epoch number c) := by
  obtain ⟨q', hq'⟩ := rule_of_not_finished hf
  obtain ⟨q, hq, hqq⟩ := h.exists_rule hq'
  rcases run_cases epoch number s hq with ⟨x, he, hrun⟩ | ⟨v, he, hrun⟩ | ⟨v, missing, hm, he, hrun⟩
  · rcases eval_error he with ⟨-, r, -, hnone⟩ | ⟨e, rfl, -⟩
    · have hsome := hres r.place r.fact
      rw [← h.resolve, hnone] at hsome
      cases hsome
    · exact .inr ⟨e, stuck_of_eval hq he, hrun⟩
  · left
    rw [hrun]
    simp only [Family.run, hq', h.eval hqq he]
  · left
    obtain ⟨d, ds, rfl⟩ := List.exists_cons_of_ne_nil hm
    rw [hrun]
    simp only [Family.run, hq', h.eval hqq he]

/-- After some runs from `s` on, one of a rule in `Q` is begun in which the rule gives up. -/
def Abandons (F : Family τ ε) (G : Nat → Family τ ε) (Q : Cell φ → Prop) (epoch number : Nat) (cs : List (Cell φ))
    (s t : Pass τ) (e : ε) : Prop :=
  ∃ k u c j, F.work epoch number k cs s = (.error .unfinished, u) ∧ F.isFinished epoch u c = false ∧ Q c ∧
    (G j).Stuck c (.rule e) ∧ t = u.start epoch number c

theorem Abandons.step {cs' : List (Cell φ)} (h : F.Abandons G Q epoch number cs' u t e)
    (hw : ∀ k, F.work epoch number (k + 1) cs s = F.work epoch number k cs' u) : F.Abandons G Q epoch number cs s t e := by
  obtain ⟨k, hk⟩ := h
  exact ⟨k + 1, by simpa only [hw] using hk⟩

/-- What every run keeps has been kept when a rule gives up. -/
theorem Abandons.invariant {I : Nat → Memos τ → Prop} {x : Nat} (inv : F.Invariant (fun _ => True) I)
    (h : F.Abandons G Q (x + 1) number cs s t e) (hs : I (x + 1) s.memos) : I (x + 1) t.memos := by
  obtain ⟨k, u, c, j, hw, hf, -, -, rfl⟩ := h
  have hu : I (x + 1) (F.work (x + 1) number k cs s).2.memos := inv.work within_true x number k (fun _ _ => trivial) hs
  rw [hw] at hu
  exact inv.start trivial hf hu

variable [Std.TransOrd φ]

theorem Spares.abandons (hs : Spares m₀ s) (h : F.Abandons G Q epoch number cs s t e) : Spares m₀ t := by
  obtain ⟨k, u, c, j, hw, hf, -, -, rfl⟩ := h
  have hu := hs.work (F := F) epoch number k cs
  rw [hw] at hu
  exact hu.start number hf

section Cases

variable (hG : ∀ j, (G j).Refines F) (hres : ∀ p f, (F.resolve p f).isSome)
include hG hres

omit [Std.TransOrd φ] in
/-- A pass goes on as if no rule could give up, until one does. -/
theorem workBy_cases (epoch number n : Nat) (cs : List (Cell φ)) (s : Pass τ) (hQ : F.Within Q) (hcs : ∀ c ∈ cs, Q c) :
    F.workBy G epoch number n cs s = F.work epoch number n cs s ∨
      ∃ e t, F.workBy G epoch number n cs s = (.error (.rule e), t) ∧ F.Abandons G Q epoch number cs s t e := by
  induction n generalizing cs s with
  | zero =>
    left
    rw [workBy.eq_def, work.eq_def]
    cases heq : cs.dropWhile (F.isFinished epoch s) <;> simp only [heq]
  | succ n ih =>
    cases heq : cs.dropWhile (F.isFinished epoch s) with
    | nil =>
      left
      rw [workBy.eq_def, work.eq_def]
      simp only [heq]
    | cons c rest =>
      have hf := not_of_dropWhile_eq_cons heq
      obtain ⟨hc, hrest⟩ := mem_of_dropWhile_eq_cons heq
      -- both passes take the same step, unless the rule gives up in it
      have hnext : ∀ cs' u, (∀ c ∈ cs', Q c) →
          F.workBy G epoch number (n + 1) cs s = F.workBy G epoch number n cs' u →
          (∀ k, F.work epoch number (k + 1) cs s = F.work epoch number k cs' u) →
          F.workBy G epoch number (n + 1) cs s = F.work epoch number (n + 1) cs s ∨ ∃ e t,
            F.workBy G epoch number (n + 1) cs s = (.error (.rule e), t) ∧ F.Abandons G Q epoch number cs s t e := by
        intro cs' u hcs' hby hw
        rcases ih cs' u hcs' with h | ⟨e, t, h, ha⟩
        · exact .inl (by rw [hby, hw, h])
        · exact .inr ⟨e, t, hby.trans h, ha.step hw⟩
      rcases (hG s.runs.length).run hres number hf with hsame | ⟨e, hstuck, hrun⟩
      · obtain ⟨q, hq⟩ := rule_of_not_finished hf
        rcases run_cases epoch number s hq with ⟨x, he, hr⟩ | ⟨v, he, hr⟩ | ⟨v, missing, hm, he, hr⟩
        · left
          rw [workBy.eq_def, work.eq_def]
          simp only [heq, hsame, hr]
        · refine hnext rest ((s.start epoch number c).finish c v) (fun d hd => hcs d (hrest d hd)) ?_ fun k => ?_
          · rw [workBy.eq_def]
            simp only [heq, hsame, hr]
          · rw [work.eq_def]
            simp only [heq, hr]
        · obtain ⟨d, ds, rfl⟩ := List.exists_cons_of_ne_nil hm
          refine hnext _ (s.start epoch number c) (within_waiting hQ hcs heq hq he) ?_ fun k => ?_
          · rw [workBy.eq_def]
            simp only [heq, hsame, hr]
          · rw [work.eq_def]
            simp only [heq, hr]
      · refine .inr ⟨e, s.start epoch number c, ?_, 0, s, c, _, ?_, hf, hcs c hc, hstuck, rfl⟩
        · rw [workBy.eq_def]
          simp only [heq, hrun]
        · rw [work.eq_def]
          simp only [heq]

theorem Spares.workBy (h : Spares m₀ s) (epoch number n : Nat) (cs : List (Cell φ)) :
    Spares m₀ (F.workBy G epoch number n cs s).2 := by
  rcases workBy_cases hG hres epoch number n cs s within_true fun _ _ => trivial with hw | ⟨e, t, hw, ha⟩
  · rw [hw]
    exact h.work epoch number n cs
  · rw [hw]
    exact h.abandons ha

/-- Nothing is settled unless a reading comes to an end. -/
theorem settled_passesBy {b : Book τ} {runs : List (Run φ)} {x : Failure ε} (root : Cell φ) (n made : Nat)
    (hs : Spares m₀ { memos := b.memos, runs }) (h : (F.passesBy G root n made runs b).1 = .error x) (c : Cell φ) :
    (memo (F.passesBy G root n made runs b).2.memos c).settled = (memo m₀ c).settled := by
  induction n generalizing made runs b with
  | zero => exact hs.settled c
  | succ n ih =>
    have hw := hs.workBy hG hres (b.epoch + 1) (made + 1) (2 * F.size) [root]
    rw [passesBy] at h ⊢
    rcases hr : F.workBy G (b.epoch + 1) (made + 1) (2 * F.size) [root] { memos := b.memos, runs } with ⟨e | v, s⟩
    · simp only [hr] at hw ⊢
      exact hw.settled c
    · simp only [hr] at hw h ⊢
      cases hc : s.changed with
      | true =>
        simp only [hc, if_true] at h ⊢
        exact ih (made + 1) ⟨hw.settled, hw.runs⟩ h
      | false => simp [hc] at h

theorem settled_getBy {limit p : Nat} {f : φ} {b : Book τ} {x : Failure ε} (h : (F.getBy G limit p f b).1 = .error x)
    (c : Cell φ) : (memo (F.getBy G limit p f b).2.memos c).settled = (memo b.memos c).settled := by
  cases hr : F.resolve p f with
  | none => simp only [getBy, hr]
  | some q =>
    cases hd : F.definition q f with
    | constant v | deferred v t => simp [getBy, hr, hd] at h
    | rule r =>
      have hs : Spares b.memos { memos := b.memos } := ⟨fun _ => rfl, fun _ hr => absurd hr List.not_mem_nil⟩
      have hsettled := settled_passesBy (x := x) hG hres ⟨q, f⟩ limit 0 hs
      simp only [getBy, hr, hd] at h ⊢
      rcases hp : F.passesBy G ⟨q, f⟩ limit 0 [] b with ⟨e | effort, b'⟩
      · simp only [hp] at hsettled h ⊢
        exact hsettled (congrArg Except.error (Except.error.inj h)) c
      · simp [hp] at h

end Cases

/-- A rule in `Q` has given up, and what is left behind is as `I` asks for. -/
structure Breaks {α : Type} (G : Nat → Family τ ε) (Q : Cell φ → Prop) (I : Nat → Memos τ → Prop)
    (r : Except (Failure ε) α × Book τ) : Prop where
  stuck : ∃ e c j, r.1 = .error (.rule e) ∧ Q c ∧ (G j).Stuck c (.rule e)
  keeps : I r.2.epoch r.2.memos

section Breaks

variable (hG : ∀ j, (G j).Refines F) (hres : ∀ p f, (F.resolve p f).isSome) {I : Nat → Memos τ → Prop} {b : Book τ}
  (inv : F.Invariant (fun _ => True) I) (h : I b.epoch b.memos)
include hG hres inv h

omit [Std.TransOrd φ] in
theorem passesBy_cases (n made : Nat) (runs : List (Run φ)) (hQ : F.Within Q) (hroot : Q root) :
    F.passesBy G root n made runs b = F.passes root n made runs b ∨ Breaks G Q I (F.passesBy G root n made runs b) := by
  induction n generalizing made runs b with
  | zero => exact .inl rfl
  | succ n ih =>
    rw [passesBy, passes]
    rcases workBy_cases hG hres (b.epoch + 1) (made + 1) (2 * F.size) [root] { memos := b.memos, runs } hQ
      (by simpa using hroot) with hw | ⟨e, t, hw, ha⟩
    · rw [hw]
      have hI : I (b.epoch + 1) (F.work (b.epoch + 1) (made + 1) (2 * F.size) [root]
          { memos := b.memos, runs }).2.memos :=
        inv.work within_true b.epoch (made + 1) (2 * F.size) (fun _ _ => trivial) (inv.next h)
      rcases hr : F.work (b.epoch + 1) (made + 1) (2 * F.size) [root] { memos := b.memos, runs } with ⟨x | v, s⟩
      · exact .inl rfl
      · rw [hr] at hI
        cases hc : s.changed with
        | true =>
          simp only [hc, if_true]
          exact ih (b := ⟨s.memos, b.epoch + 1⟩) hI _ _
        | false => exact .inl (by simp [hc])
    · rw [hw]
      have hkeeps := ha.invariant inv (inv.next h)
      obtain ⟨k, u, c, j, -, -, hc, hstuck, -⟩ := ha
      exact .inr ⟨⟨e, c, j, rfl, hc, hstuck⟩, hkeeps⟩

omit [Std.TransOrd φ] in
/-- A reading goes on as if no rule could give up, until one does. -/
theorem getBy_cases (limit p : Nat) (f : φ) : F.getBy G limit p f b = F.get limit p f b ∨
    Breaks G (F.Concerns ⟨p, f⟩) I (F.getBy G limit p f b) := by
  rw [getBy, get]
  cases hr : F.resolve p f with
  | none => exact .inl rfl
  | some q =>
    cases hd : F.definition q f with
    | constant v | deferred v t => exact .inl (by simp only [hd])
    | rule r =>
      have hs : F.source? ⟨p, f⟩ = some ⟨q, f⟩ := by simp [Family.source?, hr, hd]
      simp only [hd]
      rcases passesBy_cases hG hres inv h limit 0 [] (within_concerns F ⟨p, f⟩)
        ⟨_, hs, .refl⟩ with hp | ⟨⟨e, c, j, he, hc, hstuck⟩, hkeeps⟩
      · rw [hp]
        rcases F.passes ⟨q, f⟩ limit 0 [] b with ⟨e | effort, b'⟩ <;> exact .inl rfl
      · right
        rcases hp : F.passesBy G ⟨q, f⟩ limit 0 [] b with ⟨x | effort, b'⟩
        · rw [hp] at he hkeeps
          exact ⟨⟨e, c, j, by rw [← Except.error.inj he], hc, hstuck⟩, hkeeps⟩
        · rw [hp] at he
          cases he

end Breaks
end Runs

variable [Std.TransOrd φ]

/-- The books that readings leave behind, of whatever cells and in whatever order, the first of them having started from
an empty one. In any run a rule may have given up that others have computed. -/
inductive Attempted (F : Family τ ε) : Book τ → Prop
  | none : Attempted F {}
  | get {b : Book τ} {G : Nat → Family τ ε} (limit p : Nat) (f : φ) : (∀ j, (G j).Refines F) → Attempted F b →
      Attempted F (F.getBy G limit p f b).2

section Monotone

variable [∀ f, PartialOrder (τ f)] [∀ f, RisingFact (τ f)] {top : (f : φ) → τ f} {b : Book τ} {N : Nat}

theorem Attempted.approaches (h : F.Attempted b) (hF : F.Monotone top) :
    F.Approaches top b.memos b.epoch b.memos := by
  induction h with
  | none => exact Asked.none.approaches hF
  | get limit p f hG _ ih =>
    rcases getBy_cases hG hF.isSome_resolve (hF.invariant _) ih limit p f with hget | hbreaks
    · rw [hget]
      exact (ih.get hF limit p f).refl
    · exact hbreaks.keeps.refl

/-- What readings leave behind that rules have cut short is below the least solution of a monotone family, and they settle
nothing. Any reading that comes to an end finds that solution. It does unless one of the rules gives up that it may have
to run. -/
theorem abandoned_get_is_sound (hF : F.Monotone top) (hN : ∀ f, RisingFact.size (top f) ≤ N) :
    (∀ limit p f b, F.getBy (fun _ => F) limit p f b = F.get limit p f b) ∧
    ∃ σ, IsLeast {σ | F.Solves top σ} σ ∧ ∀ b, F.Attempted b →
      ∀ G limit p f, (∀ j, (G j).Refines F) →
        (∀ c, (memo (F.getBy G limit p f b).2.memos c).value ≤ σ c.place c.fact) ∧
        (∀ v effort, (F.getBy G limit p f b).1 = .ok (v, effort) →
          v = σ p f ∧ F.Final (F.getBy G limit p f b).2.memos ⟨p, f⟩) ∧
        (∀ e, (F.getBy G limit p f b).1 = .error e →
          (∀ c, (memo (F.getBy G limit p f b).2.memos c).settled = (memo b.memos c).settled) ∧
          (F.size * N < limit → ∃ x c j, e = .rule x ∧ F.Concerns ⟨p, f⟩ c ∧ (G j).Stuck c (.rule x))) ∧
        (F.size * N < limit → (∀ c, F.Concerns ⟨p, f⟩ c → ∀ j x, ¬(G j).Stuck c (.rule x)) →
          ∃ effort, (F.getBy G limit p f b).1 = .ok (σ p f, effort)) := by
  obtain ⟨σ, hσ, -⟩ := get_eq_least hF hN
  refine ⟨F.getBy_const, σ, hσ, fun b hb G limit p f hG => ?_⟩
  have happroaches := hb.approaches hF
  have hbelow := ((hb.get limit p f hG).approaches hF).below σ hσ.1
  have hcases := getBy_cases hG hF.isSome_resolve (hF.invariant b.memos) happroaches limit p f
  have hright : ∀ v effort, (F.getBy G limit p f b).1 = .ok (v, effort) →
      v = σ p f ∧ F.Final (F.getBy G limit p f b).2.memos ⟨p, f⟩ := by
    intro v effort hok
    rcases hcases with hget | ⟨⟨e, c, j, he, -⟩, -⟩
    · rw [hget] at hok ⊢
      obtain ⟨-, hfinal, -⟩ := get_spec (hF.invariant b.memos) within_true hF.finite.bounded (fun _ _ => trivial)
        happroaches (n := limit) (p := p) (f := f)
      obtain ⟨rfl, hf⟩ := hfinal v effort hok
      exact ⟨(happroaches.get hF limit p f).eq_least hF hN hσ hf, hf⟩
    · cases he.symm.trans hok
  have hwrong : ∀ e, (F.getBy G limit p f b).1 = .error e → F.size * N < limit →
      ∃ x c j, e = .rule x ∧ F.Concerns ⟨p, f⟩ c ∧ (G j).Stuck c (.rule x) := by
    intro e he hlimit
    rcases hcases with hget | ⟨⟨x, c, j, hx, hc, hstuck⟩, -⟩
    · rw [hget] at he
      obtain ⟨effort, hok, -⟩ := happroaches.get_ok hF hN hlimit p f
      cases hok.symm.trans he
    · cases hx.symm.trans he
      exact ⟨x, c, j, rfl, hc, hstuck⟩
  refine ⟨hbelow, hright, fun e he => ⟨fun c => settled_getBy hG hF.isSome_resolve he c, hwrong e he⟩, fun hlimit hnone => ?_⟩
  cases hget : (F.getBy G limit p f b).1 with
  | ok r =>
    obtain ⟨v, effort⟩ := r
    obtain ⟨rfl, -⟩ := hright v effort hget
    exact ⟨effort, rfl⟩
  | error e =>
    obtain ⟨x, c, j, -, hc, hstuck⟩ := hwrong e hget hlimit
    exact absurd hstuck (hnone c hc j x)

end Monotone

end Family

namespace Network

/-- The twins while the rule of the second gives up. -/
def twinsBroken : Network (FinSet Int64) := { twins with cells := twins.cells.set! 3 (.rule (.fail .noFirstCell)) }

theorem refines_twinsBroken : twinsBroken.family.Refines twins.family := by
  refine ⟨rfl, fun p f => ?_⟩
  by_cases hp : p = 3
  · subst hp
    exact .inr ⟨_, _, rfl, rfl, Query.fail_refines _ _⟩
  · left
    have hcells : twinsBroken.cells[p]? = twins.cells[p]? := by
      simp [twinsBroken, Ne.symm hp]
    simp only [family, hcells]

/-- The rule of the second gives up in the run `j`. -/
def twinsBreaking (j n : Nat) : Family (fun _ : Sole => FinSet Int64) RuleError :=
  if n = j then twinsBroken.family else twins.family

theorem refines_twinsBreaking (j n : Nat) : (twinsBreaking j n).Refines twins.family := by
  unfold twinsBreaking
  split
  · exact refines_twinsBroken
  · exact .refl _

/-- In the second pass the second has given up, when it held its own number only. Each of the two turns out to hold both
numbers all the same. -/
theorem abandoned_get_is_sound_twins : ∃ e b,
    twins.family.getBy (twinsBreaking 4) 9 0 .value {} = (.error (.rule e), b) ∧
    (Family.memo b.memos ⟨3, .value⟩).value = FinSet.ofList [2] ∧ (∀ c, (Family.memo b.memos c).settled = false) ∧
    ∀ p < 4, ∃ effort, (twins.family.get 9 p .value b).1 = .ok (FinSet.ofList [1, 2], effort) := by
  obtain ⟨hget, σ, ⟨hσ, -⟩, h⟩ := Family.abandoned_get_is_sound (N := 2) monotone_twins fun _ => by decide
  obtain ⟨-, -, herror, -⟩ := h {} .none (twinsBreaking 4) 9 0 .value (refines_twinsBreaking 4)
  have hbroken : (twins.family.getBy (twinsBreaking 4) 9 0 .value {}).1.isOk = false := by decide +kernel
  have hvalue : (Family.memo (twins.family.getBy (twinsBreaking 4) 9 0 .value {}).2.memos ⟨3, .value⟩).value =
      FinSet.ofList [2] := by decide +kernel
  have hattempted := Family.Attempted.none.get 9 0 .value (refines_twinsBreaking 4)
  generalize twins.family.getBy (twinsBreaking 4) 9 0 .value {} = r at herror hbroken hvalue hattempted
  obtain ⟨x | v, b⟩ := r
  · obtain ⟨hsettled, hstuck⟩ := herror x rfl
    obtain ⟨e, -, -, rfl, -⟩ := hstuck (by decide)
    refine ⟨e, b, rfl, hvalue, fun c => (hsettled c).trans (by simp [Memo.fresh]), fun p hp => ?_⟩
    obtain ⟨-, -, -, hok⟩ := h b hattempted (fun _ => twins.family) 9 p .value fun _ => .refl _
    obtain ⟨effort, hok⟩ := hok (by decide) fun _ _ _ _ => monotone_twins.not_stuck
    rw [hget, eq_of_solves_twins hσ hp] at hok
    exact ⟨effort, hok⟩
  · cases hbroken

end Network
end Predictive.Solver
