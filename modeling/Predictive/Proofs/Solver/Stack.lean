import Mathlib.Data.List.Infix
import Predictive.Proofs.Solver.Sweep
import Predictive.Solver.Network

/-!
A pass turn by turn. The rules that wait on the stack form one chain, each of them missed by the one before, and no
other rule that has been run is unfinished. So a rule that reads an old value and is not put off reads it from the chain
that led to it.
-/
namespace Predictive.Solver

variable {φ : Type} {τ : φ → Type} {ε : Type}

/-- How far a pass has got. -/
structure Moment (τ : φ → Type) [Ord φ] where
  stack : List (Cell φ)
  state : Pass τ

/-- A pass from `root` is to begin. -/
def Moment.begin [Ord φ] (root : Cell φ) (m : Memos τ) (runs : List (Run φ)) : Moment τ :=
  ⟨[root], { memos := m, runs }⟩

variable [Ord φ] [Std.LawfulEqOrd φ] [∀ f, Fact (τ f)]

namespace Family

/-- One turn of a pass. A cell with nothing left to do leaves the top of the stack. Any other has its rule run; it
leaves the stack too if the rule was computed, and else stays below all that its rule has missed. -/
inductive Turn (F : Family τ ε) (epoch number : Nat) : Moment τ → Moment τ → Prop
  | skip {c : Cell φ} {cs : List (Cell φ)} {s : Pass τ} :
      F.isFinished epoch s c = true → Turn F epoch number ⟨c :: cs, s⟩ ⟨cs, s⟩
  | compute {c : Cell φ} {cs : List (Cell φ)} {s t : Pass τ} :
      F.isFinished epoch s c = false → F.run epoch number c s = (.ok [], t) →
      Turn F epoch number ⟨c :: cs, s⟩ ⟨cs, t⟩
  | wait {c : Cell φ} {cs missing : List (Cell φ)} {s t : Pass τ} :
      F.isFinished epoch s c = false → F.run epoch number c s = (.ok missing, t) → missing ≠ [] →
      Turn F epoch number ⟨c :: cs, s⟩ ⟨missing.reverse ++ c :: cs, t⟩

/-- Turns that follow on one another. -/
abbrev Turns (F : Family τ ε) (epoch number : Nat) : Moment τ → Moment τ → Prop :=
  Relation.ReflTransGen (F.Turn epoch number)

/-- A pass comes to its end with an empty stack, or at a rule that fails. -/
inductive Stops (F : Family τ ε) (epoch number : Nat) : Moment τ → Except (Failure ε) Unit × Pass τ → Prop
  | empty {s : Pass τ} : Stops F epoch number ⟨[], s⟩ (.ok (), s)
  | fails {c : Cell φ} {cs : List (Cell φ)} {s t : Pass τ} {e : Failure ε} :
      F.isFinished epoch s c = false → F.run epoch number c s = (.error e, t) →
      Stops F epoch number ⟨c :: cs, s⟩ (.error e, t)

/-- The rules of `chain` wait on the stack at the moment `now` of a pass that has begun with `start`, innermost first.
Each was run on top of what is below it and missed rules, of which some are left above it: the next of the chain is the
first of these, or, after the innermost, the one on top of the stack. -/
inductive Waiting (F : Family τ ε) (epoch number : Nat) (start now : Moment τ) :
    List (Cell φ) → List (Cell φ) → Prop
  | bottom {cs : List (Cell φ)} : cs <:+ start.stack → Waiting F epoch number start now [] cs
  | above {chain cs missing left : List (Cell φ)} {c : Cell φ} {s t : Pass τ} :
      Waiting F epoch number start now chain (c :: cs) → F.Turns epoch number start ⟨c :: cs, s⟩ →
      F.run epoch number c s = (.ok missing, t) → F.Turns epoch number ⟨missing.reverse ++ c :: cs, t⟩ now →
      left <:+ missing.reverse → left ≠ [] → Waiting F epoch number start now (c :: chain) (left ++ c :: cs)

/-- Between `start` and `now` the rule of `c`, with `cs` below it on the stack, is run for the last time, which leads
from `s` to `t`: it misses nothing, and from then on nothing is left to do for it. -/
structure LastRun (F : Family τ ε) (epoch number : Nat) (start now : Moment τ) (c : Cell φ) (cs : List (Cell φ))
    (s t : Pass τ) : Prop where
  before : F.Turns epoch number start ⟨c :: cs, s⟩
  unfinished : F.isFinished epoch s c = false
  run : F.run epoch number c s = (.ok [], t)
  after : F.Turns epoch number ⟨cs, t⟩ now
  last : ∀ x, F.Turns epoch number ⟨cs, t⟩ x → F.isFinished epoch x.state c = true

variable {F : Family τ ε} {epoch number n base : Nat} {start now next x y : Moment τ} {s t : Pass τ} {c d : Cell φ}
  {chain cs ds missing : List (Cell φ)} {m : Memos τ}

namespace Waiting

theorem later (h : F.Waiting epoch number start now chain cs) (hn : F.Turns epoch number now next) :
    F.Waiting epoch number start next chain cs := by
  induction h with
  | bottom hcs => exact .bottom hcs
  | above _ hs hrun ht hleft hne ih => exact .above ih hs hrun (ht.trans hn) hleft hne

/-- What waits stands below the top of the stack. -/
theorem sublist (h : F.Waiting epoch number start now chain cs) : chain.Sublist cs.tail := by
  induction h with
  | bottom _ => exact List.nil_sublist _
  | @above chain cs missing left c s t _ _ _ _ _ hne ih =>
    obtain ⟨d, ds, rfl⟩ := List.exists_cons_of_ne_nil hne
    exact (ih.cons_cons c).trans (List.sublist_append_right ds (c :: cs))

/-- When the top of the stack goes, the innermost rule that waits may come to the top. -/
theorem pop (h : F.Waiting epoch number start now chain (c :: cs)) :
    ∃ chain', F.Waiting epoch number start now chain' cs ∧ ∀ d ∈ chain, d ∈ chain' ∨ cs.head? = some d := by
  generalize heq : c :: cs = stack at h
  cases h with
  | bottom hcs =>
    subst heq
    exact ⟨[], .bottom ((List.suffix_cons c cs).trans hcs), fun d hd => (by cases hd)⟩
  | @above chain ds missing left e s t h hs hrun ht hleft hne =>
    obtain ⟨d, left, rfl⟩ := List.exists_cons_of_ne_nil hne
    obtain ⟨rfl, rfl⟩ := List.cons.inj heq
    cases left with
    | nil =>
      refine ⟨chain, h, fun d hd => ?_⟩
      rcases List.mem_cons.1 hd with rfl | hd
      · exact .inr rfl
      · exact .inl hd
    | cons d left =>
      exact ⟨e :: chain, .above h hs hrun ht ((List.suffix_cons _ _).trans hleft) (List.cons_ne_nil d left),
        fun _ hd => .inl hd⟩

end Waiting

/-- A run that does not fail computes its rule, or finds that others are missing. -/
theorem run_ok (hf : F.isFinished epoch s c = false) (h : F.run epoch number c s = (.ok missing, t)) :
    ∃ q v, F.definition c.place c.fact = .rule q ∧
      F.eval (s.start epoch number c).memos epoch q = .ok (v, missing) ∧
      (missing = [] ∧ t = (s.start epoch number c).finish c v ∨ missing ≠ [] ∧ t = s.start epoch number c) := by
  obtain ⟨q, hq⟩ := rule_of_not_finished hf
  rcases run_cases epoch number s hq with ⟨e, -, hrun⟩ | ⟨v, he, hrun⟩ | ⟨v, missing', hne, he, hrun⟩
  · cases hrun.symm.trans h
  · cases hrun.symm.trans h
    exact ⟨q, v, hq, he, .inl ⟨rfl, rfl⟩⟩
  · cases hrun.symm.trans h
    exact ⟨q, v, hq, he, .inr ⟨hne, rfl⟩⟩

theorem stuck_of_run {e : Failure ε} (hf : F.isFinished epoch s c = false)
    (h : F.run epoch number c s = (.error e, t)) : F.Stuck c e := by
  obtain ⟨q, hq⟩ := rule_of_not_finished hf
  rcases run_cases epoch number s hq with ⟨e', he, hrun⟩ | ⟨v, -, hrun⟩ | ⟨v, missing', -, -, hrun⟩
  · cases hrun.symm.trans h
    exact stuck_of_eval hq he
  · cases hrun.symm.trans h
  · cases hrun.symm.trans h

/-- What a turn does, by what the evaluation of the rule on top gives. -/
@[elab_as_elim]
theorem Turn.induct {motive : (x y : Moment τ) → F.Turn epoch number x y → Prop}
    (skip : ∀ c cs s (hf : F.isFinished epoch s c = true), motive ⟨c :: cs, s⟩ ⟨cs, s⟩ (.skip hf))
    (compute : ∀ c cs s q v (hf : F.isFinished epoch s c = false), F.definition c.place c.fact = .rule q →
      F.eval (s.start epoch number c).memos epoch q = .ok (v, []) →
      ∀ hrun : F.run epoch number c s = (.ok [], (s.start epoch number c).finish c v),
        motive ⟨c :: cs, s⟩ ⟨cs, (s.start epoch number c).finish c v⟩ (.compute hf hrun))
    (wait : ∀ c cs s q v missing (hf : F.isFinished epoch s c = false), F.definition c.place c.fact = .rule q →
      F.eval (s.start epoch number c).memos epoch q = .ok (v, missing) → ∀ (hm : missing ≠ [])
        (hrun : F.run epoch number c s = (.ok missing, s.start epoch number c)),
        motive ⟨c :: cs, s⟩ ⟨missing.reverse ++ c :: cs, s.start epoch number c⟩ (.wait hf hrun hm))
    (h : F.Turn epoch number x y) : motive x y h := by
  cases h with
  | skip hf => exact skip _ _ _ hf
  | compute hf hrun =>
    obtain ⟨q, v, hq, he, ⟨-, rfl⟩ | ⟨hne, -⟩⟩ := run_ok hf hrun
    · exact compute _ _ _ q v hf hq he hrun
    · exact absurd rfl hne
  | wait hf hrun hne =>
    obtain ⟨q, v, hq, he, ⟨rfl, -⟩ | ⟨-, rfl⟩⟩ := run_ok hf hrun
    · exact absurd rfl hne
    · exact wait _ _ _ q v _ hf hq he hne hrun

/-- What is finished leaves the stack until something is not. -/
theorem turns_of_dropWhile {rest : List (Cell φ)} (h : cs.dropWhile (F.isFinished epoch s) = rest) :
    F.Turns epoch number ⟨cs, s⟩ ⟨rest, s⟩ := by
  subst h
  induction cs with
  | nil => exact .refl
  | cons c cs ih =>
    cases hf : F.isFinished epoch s c with
    | true =>
      rw [List.dropWhile_cons_of_pos hf]
      exact .head (.skip hf) ih
    | false => rw [List.dropWhile_cons_of_neg (by simp [hf])]

/-- A pass goes on turn by turn until it stops. -/
theorem turns_of_work (h : (F.work epoch number n cs s).1 ≠ .error .unfinished) :
    ∃ x, F.Turns epoch number ⟨cs, s⟩ x ∧ F.Stops epoch number x (F.work epoch number n cs s) := by
  refine work_induct epoch number (motive := fun _ cs s r => r.1 ≠ .error .unfinished →
    ∃ x, F.Turns epoch number ⟨cs, s⟩ x ∧ F.Stops epoch number x r) ?_ ?_ ?_ ?_ ?_ n cs s h
  · exact fun _ cs s heq _ => ⟨_, turns_of_dropWhile heq, .empty⟩
  · exact fun cs s c rest heq h => absurd rfl h
  · intro _ cs s c rest q e heq hq he _
    have hrun : F.run epoch number c s = (.error e, s.start epoch number c) := by simp only [run, hq, he]
    exact ⟨_, turns_of_dropWhile heq, .fails (not_of_dropWhile_eq_cons heq) hrun⟩
  · intro _ cs s c rest q v r heq hq he ih h
    have hrun : F.run epoch number c s = (.ok [], (s.start epoch number c).finish c v) := by simp only [run, hq, he]
    obtain ⟨x, hx, hstop⟩ := ih h
    exact ⟨x, (turns_of_dropWhile heq).trans (.head (.compute (not_of_dropWhile_eq_cons heq) hrun) hx), hstop⟩
  · intro _ cs s c rest q v missing r heq hq he hm ih h
    have hrun : F.run epoch number c s = (.ok missing, s.start epoch number c) := by
      obtain ⟨d, ds, rfl⟩ := List.exists_cons_of_ne_nil hm
      simp only [run, hq, he]
    obtain ⟨x, hx, hstop⟩ := ih h
    exact ⟨x, (turns_of_dropWhile heq).trans (.head (.wait (not_of_dropWhile_eq_cons heq) hrun hm) hx), hstop⟩

variable [Std.TransOrd φ]

namespace Turn

theorem tidy (h : F.Turn epoch number x y) (hs : F.Tidy epoch m x.state) : F.Tidy epoch m y.state := by
  induction h using Turn.induct with
  | skip => exact hs
  | compute c cs s q v hf => exact hs.finish number hf v
  | wait c cs s q v missing hf => exact hs.start number hf

/-- What is computed stays as it is. -/
theorem memo_of_done (h : F.Turn epoch number x y) (hd : x.state.Done epoch d) : y.state.memo d = x.state.memo d := by
  induction h using Turn.induct with
  | skip => rfl
  | compute c cs s q v hf =>
    have hcd : c ≠ d := fun he => Tidy.not_done_of_not_finished hf (he ▸ hd)
    exact (Pass.memo_finish_of_ne v hcd).trans (Pass.memo_start_of_ne hcd)
  | wait c cs s q v missing hf =>
    have hcd : c ≠ d := fun he => Tidy.not_done_of_not_finished hf (he ▸ hd)
    exact Pass.memo_start_of_ne hcd

omit [Std.TransOrd φ] in
/-- The rules that have been reached stay so. -/
theorem touched (h : F.Turn epoch number x y) (hs : F.Tidy epoch m x.state) (hd : d ∈ x.state.touched) :
    d ∈ y.state.touched := by
  induction h using Turn.induct with
  | skip => exact hd
  | compute => exact (hs.mem_start number).2 (.inr hd)
  | wait => exact (hs.mem_start number).2 (.inr hd)

theorem thrifty (h : F.Turn epoch number x y) (hs : F.Tidy epoch m x.state)
    (hds : F.Thrifty epoch base x.stack x.state ds) : ∃ ds', F.Thrifty epoch base y.stack y.state ds' := by
  induction h using Turn.induct with
  | skip c cs s hf =>
    refine ⟨ds, hds.nodup, hds.done, hds.runs, fun d rest hd => hds.next d rest ?_⟩
    rwa [List.dropWhile_cons_of_pos hf]
  | compute c cs s q v hf => exact ⟨_, hds.compute hs (List.dropWhile_cons_of_neg (by simp [hf])) number v⟩
  | wait c cs s q v missing hf hq he hm => exact ⟨_, hds.wait hs (List.dropWhile_cons_of_neg (by simp [hf])) he hm⟩

end Turn

namespace Turns

theorem tidy (h : F.Turns epoch number x y) (hs : F.Tidy epoch m x.state) : F.Tidy epoch m y.state := by
  induction h with
  | refl => exact hs
  | tail _ hturn ih => exact hturn.tidy ih

theorem memo_of_done (h : F.Turns epoch number x y) (hd : x.state.Done epoch d) :
    y.state.memo d = x.state.memo d := by
  induction h with
  | refl => rfl
  | @tail y z _ hturn ih =>
    have hy : y.state.Done epoch d := by rwa [Pass.Done, ih]
    exact (hturn.memo_of_done hy).trans ih

theorem done (h : F.Turns epoch number x y) (hd : x.state.Done epoch d) : y.state.Done epoch d := by
  rwa [Pass.Done, h.memo_of_done hd]

theorem touched (h : F.Turns epoch number x y) (hs : F.Tidy epoch m x.state) (hd : d ∈ x.state.touched) :
    d ∈ y.state.touched := by
  induction h with
  | refl => exact hd
  | tail hx hturn ih => exact hturn.touched (tidy hx hs) ih

theorem thrifty (h : F.Turns epoch number x y) (hs : F.Tidy epoch m x.state)
    (hds : F.Thrifty epoch base x.stack x.state ds) : ∃ ds', F.Thrifty epoch base y.stack y.state ds' := by
  induction h with
  | refl => exact ⟨ds, hds⟩
  | tail hx hturn ih =>
    obtain ⟨ds', hds'⟩ := ih
    exact hturn.thrifty (tidy hx hs) hds'

/-- What has been run and is not finished waits on the stack, or is on top of it. -/
theorem exists_waiting (h : F.Turns epoch number start now) (hs : F.Tidy epoch m start.state)
    (hidle : ∀ d, ¬start.state.Active epoch d) :
    ∃ chain, F.Waiting epoch number start now chain now.stack ∧
      ∀ d, now.state.Active epoch d → d ∈ chain ∨ now.stack.head? = some d := by
  induction h with
  | refl => exact ⟨[], .bottom List.suffix_rfl, fun d hd => absurd hd (hidle d)⟩
  | @tail now next hx hturn ih =>
    obtain ⟨chain, hwaiting, hactive⟩ := ih
    have hnow := tidy hx hs
    cases hturn using Turn.induct with
    | skip c cs s hf =>
      obtain ⟨chain', hwaiting', hchain⟩ := hwaiting.pop
      refine ⟨chain', hwaiting'.later (.single (.skip hf)), fun d hd => ?_⟩
      rcases hactive d hd with hc | hc
      · exact hchain d hc
      · cases hc
        exact absurd hd (hnow.not_active_of_finished hf)
    | compute c cs s q v hf hq he hrun =>
      obtain ⟨chain', hwaiting', hchain⟩ := hwaiting.pop
      refine ⟨chain', hwaiting'.later (.single (.compute hf hrun)), fun d hd => ?_⟩
      obtain ⟨hdc, hd⟩ := (Pass.active_finish_start v).1 hd
      rcases hactive d hd with hc | hc
      · exact hchain d hc
      · cases hc
        exact absurd rfl hdc
    | wait c cs s q v missing hf hq he hm hrun =>
      have hwaiting' := hwaiting.later (.single (.wait hf hrun hm))
      refine ⟨c :: chain, .above hwaiting' hx hrun .refl List.suffix_rfl (by simpa using hm), fun d hd => ?_⟩
      rcases Pass.active_start.1 hd with rfl | hd
      · exact .inl List.mem_cons_self
      · rcases hactive d hd with hc | hc
        · exact .inl (List.mem_cons_of_mem c hc)
        · cases hc
          exact .inl List.mem_cons_self

/-- A rule that is done was run a last time. -/
theorem exists_lastRun (h : F.Turns epoch number start now) (hfresh : ¬start.state.Done epoch c)
    (hd : now.state.Done epoch c) : ∃ cs s t, F.LastRun epoch number start now c cs s t := by
  induction h with
  | refl => exact absurd hd hfresh
  | @tail now next hx hturn ih =>
    have hbefore (hd : now.state.Done epoch c) : ∃ cs s t, F.LastRun epoch number start next c cs s t := by
      obtain ⟨cs, s, t, hrun⟩ := ih hd
      exact ⟨cs, s, t, { hrun with after := hrun.after.tail hturn }⟩
    cases hturn using Turn.induct with
    | skip => exact hbefore hd
    | compute d cs s q v hf hq he hrun =>
      rcases (Pass.done_finish_start v).1 hd with rfl | hd
      · refine ⟨cs, s, _, hx, hf, hrun, .refl, fun y hy => ?_⟩
        exact (isFinished_of_rule epoch y.state hq).2 (.inr (done hy ((Pass.done_finish_start v).2 (.inl rfl))))
      · exact hbefore hd
    | wait d cs s q v missing hf => exact hbefore ((Tidy.done_start_iff number hf).1 hd)

end Turns

/-- The rule of a cell that is read and not finished is recorded as missing, unless it has been run already. In any case
the value is the old one. -/
theorem read_of_not_finished (hs : F.Tidy epoch m s) {q : Query τ ε (τ c.fact)}
    (hf : F.isFinished epoch s c = false) (hq : F.definition c.place c.fact = .rule q)
    (hrun : F.run epoch number c s = (.ok missing, t)) {r : Cell φ} (hr : r ∈ q.reads (F.value s.memos))
    (hd : F.source? r = some d) (hfd : F.isFinished epoch s d = false) :
    F.value s.memos r.place r.fact = F.value m r.place r.fact ∧ (d ∈ missing ∨ d = c ∨ s.Active epoch d) := by
  obtain ⟨q', v, hq', he, -⟩ := run_ok hf hrun
  obtain rfl : q = q' := by simpa [hq] using hq'
  have hdone := Tidy.not_done_of_not_finished hfd
  refine ⟨value_congr fun d' hd' => ?_, ?_⟩
  · cases hd.symm.trans hd'
    exact hs.value d hdone
  · cases hready : ((s.start epoch number c).memo d).isReady epoch with
    | false =>
      refine .inl ((eval_ok he).2.2 ▸ mem_unready.2 ⟨⟨r, ?_, hd⟩, hready⟩)
      rwa [show F.value (s.start epoch number c).memos = F.value s.memos from
        funext fun p => funext fun f => value_start_memos p f]
    | true =>
      rw [Memo.isReady, Bool.or_eq_true, Bool.and_eq_true, Bool.or_eq_true, beq_iff_eq, Pass.settled_start] at hready
      rcases hready with hset | ⟨hep, hd' | ha⟩
      · rw [not_settled_of_not_finished hfd] at hset
        cases hset
      · exact absurd ((Tidy.done_start_iff number hf).1 ⟨hep, hd'⟩) hdone
      · exact .inr (Pass.active_start.1 ⟨hep, ha⟩)

/-- What a rule has read when it is computed is settled or has been reached. -/
theorem reached_of_computed (hs : F.Tidy epoch m s) {q : Query τ ε (τ c.fact)}
    (hf : F.isFinished epoch s c = false) (hq : F.definition c.place c.fact = .rule q)
    (hrun : F.run epoch number c s = (.ok [], t)) {r : Cell φ} (hr : r ∈ q.reads (F.value s.memos))
    (hd : F.source? r = some d) : (memo m d).settled = true ∨ d ∈ t.touched := by
  obtain ⟨q', v, -, -, ⟨-, rfl⟩ | ⟨hne, -⟩⟩ := run_ok hf hrun
  · change _ ∨ d ∈ (s.start epoch number c).touched
    cases hfd : F.isFinished epoch s d with
    | true =>
      obtain ⟨-, -, q'', hq''⟩ := source?_eq_some hd
      rcases (isFinished_of_rule epoch s hq'').1 hfd with hset | hdone
      · exact .inl ((hs.settled d).symm.trans hset)
      · exact .inr ((hs.mem_start number).2 (.inr (hs.done_touched hdone)))
    | false =>
      rcases (read_of_not_finished hs hf hq hrun hr hd hfd).2 with hd' | rfl | ha
      · cases hd'
      · exact .inr ((hs.mem_start number).2 (.inl rfl))
      · exact .inr ((hs.mem_start number).2 (.inr (hs.active_touched ha)))
  · exact absurd rfl hne

/-- What a pass from `root`, begun with the memos `m` after `runs`, leaves when it comes to `last`: each rule that it
has reached is computed, all that its last run has read is settled or was reached, and no more than two runs were made
for each. -/
structure Exhausts (F : Family τ ε) (epoch number : Nat) (root : Cell φ) (m : Memos τ) (runs : List (Run φ))
    (last : Moment τ) : Prop where
  covers : ∀ q, F.definition root.place root.fact = .rule q → (memo m root).settled = true ∨ root ∈ last.state.touched
  nodup : last.state.touched.Nodup
  done : ∀ c ∈ last.state.touched, last.state.Done epoch c ∧ (last.state.memo c).active = false
  reads : ∀ c ∈ last.state.touched, ∃ cs s t q, F.LastRun epoch number (.begin root m runs) last c cs s t ∧
    F.definition c.place c.fact = .rule q ∧ ∀ r ∈ q.reads (F.value s.memos), ∀ d, F.source? r = some d →
      (memo m d).settled = true ∨ d ∈ last.state.touched
  runs : last.state.runs.length ≤ runs.length + 2 * last.state.touched.length

section Pass

variable {root : Cell φ} {runs : List (Run φ)}

theorem exhausts_of_work (hm : ∀ c, (memo m c).epoch < epoch)
    (hw : F.work epoch number n [root] { memos := m, runs } = (.ok (), t))
    (h : F.Turns epoch number (.begin root m runs) ⟨[], t⟩) : F.Exhausts epoch number root m runs ⟨[], t⟩ := by
  obtain ⟨-, htidy, hdone, hroot⟩ := sweep_of_work hm hw
  have hbegin : F.Tidy epoch m (Moment.begin root m runs).state := .begin hm runs
  refine ⟨hroot, htidy.nodup, fun c hc => ⟨hdone c hc, ?_⟩, fun c hc => ?_, ?_⟩
  · rw [htidy.active c hc, (hdone c hc).2]
    rfl
  · obtain ⟨cs, s, u, hrun⟩ := Turns.exists_lastRun h (fun hd => absurd hd.1 (Nat.ne_of_lt (hm c))) (hdone c hc)
    obtain ⟨q, v, hq, -⟩ := run_ok hrun.unfinished hrun.run
    have hs := Turns.tidy hrun.before hbegin
    have hturn : F.Turn epoch number ⟨c :: cs, s⟩ ⟨cs, u⟩ := .compute hrun.unfinished hrun.run
    have hu := hturn.tidy hs
    refine ⟨cs, s, u, q, hrun, hq, fun r hr d hd => ?_⟩
    exact (reached_of_computed hs hrun.unfinished hq hrun.run hr hd).imp_right (Turns.touched hrun.after hu)
  · obtain ⟨ds, hds⟩ := Turns.thrifty h hbegin (.begin hm runs [root])
    have hruns := hds.runs
    have hlength := hds.length_le htidy
    dsimp only at hruns hlength ⊢
    omega

/-- A rule that is run reads an old value without being put off only if the value is its own or that of a rule that
waits below it, in the chain of those that led to it. -/
theorem reads_of_run (hm : ∀ c, (memo m c).epoch < epoch) (h : F.Turns epoch number (.begin root m runs) ⟨c :: cs, s⟩)
    (hf : F.isFinished epoch s c = false) (hrun : F.run epoch number c s = (.ok missing, t)) :
    ∃ q chain, F.definition c.place c.fact = .rule q ∧
      F.Waiting epoch number (.begin root m runs) ⟨c :: cs, s⟩ chain (c :: cs) ∧ chain.Sublist cs ∧
      ∀ r ∈ q.reads (F.value s.memos), ∀ d, F.source? r = some d → F.isFinished epoch s d = false →
        F.value s.memos r.place r.fact = F.value m r.place r.fact ∧ (d ∈ missing ∨ d = c ∨ d ∈ chain) := by
  have hbegin : F.Tidy epoch m (Moment.begin root m runs).state := .begin hm runs
  obtain ⟨chain, hwaiting, hactive⟩ := Turns.exists_waiting h hbegin fun d hd => absurd hd.1 (Nat.ne_of_lt (hm d))
  obtain ⟨q, v, hq, -, -⟩ := run_ok hf hrun
  refine ⟨q, chain, hq, hwaiting, hwaiting.sublist, fun r hr d hd hfd => ?_⟩
  obtain ⟨hvalue, hread⟩ := read_of_not_finished (Turns.tidy h hbegin) hf hq hrun hr hd hfd
  refine ⟨hvalue, hread.imp_right fun hd => ?_⟩
  rcases hd with rfl | ha
  · exact .inl rfl
  · exact (hactive d ha).symm.imp_left fun htop => (Option.some.inj htop).symm

/-- One pass is a depth-first evaluation, whatever the rules do with what they read and whatever earlier passes have
left. It goes on turn by turn to an empty stack, unless a rule gives up or leads in a circle, and what it leaves is
older than the next pass. At the end each rule that was reached is computed; what its last run has read is settled or
was reached; and there were no more than two runs for each of them. On the way a rule that reads an old value without
being put off until the rule of that value is computed reads its own, or that of a rule which waits below it, in the
chain of those that led to it. -/
theorem pass_is_depth_first (hF : F.Bounded) (hm : ∀ c, (memo m c).epoch < epoch) (number : Nat) (runs : List (Run φ))
    (root : Cell φ) :
    (∃ last, F.Turns epoch number (.begin root m runs) last ∧
      F.Stops epoch number last (F.work epoch number (2 * F.size) [root] { memos := m, runs }) ∧
      ((∀ c e, ¬F.Stuck c e) → last.stack = []) ∧
      (last.stack = [] → F.Exhausts epoch number root m runs last)) ∧
    (∀ c, (memo (F.work epoch number (2 * F.size) [root] { memos := m, runs }).2.memos c).epoch < epoch + 1) ∧
    ∀ c cs s missing t, F.Turns epoch number (.begin root m runs) ⟨c :: cs, s⟩ → F.isFinished epoch s c = false →
      F.run epoch number c s = (.ok missing, t) →
      ∃ q chain, F.definition c.place c.fact = .rule q ∧
        F.Waiting epoch number (.begin root m runs) ⟨c :: cs, s⟩ chain (c :: cs) ∧ chain.Sublist cs ∧
        ∀ r ∈ q.reads (F.value s.memos), ∀ d, F.source? r = some d → F.isFinished epoch s d = false →
          F.value s.memos r.place r.fact = F.value m r.place r.fact ∧ (d ∈ missing ∨ d = c ∨ d ∈ chain) := by
  refine ⟨?_, fun c => Nat.lt_succ_of_le ?_, fun c cs s missing t h hf hrun => reads_of_run hm h hf hrun⟩
  · have hfuel : (F.work epoch number (2 * F.size) [root] { memos := m, runs }).1 ≠ .error .unfinished :=
      work_finishes hF (.begin hm runs) (.begin hm runs [root]) (Nat.le_refl _)
    obtain ⟨last, hlast, hstops⟩ := turns_of_work hfuel
    refine ⟨last, hlast, hstops, ?_⟩
    rcases hw : F.work epoch number (2 * F.size) [root] { memos := m, runs } with ⟨r, t⟩
    rw [hw] at hstops
    cases hstops with
    | empty => exact ⟨fun _ => rfl, fun _ => exhausts_of_work hm hw hlast⟩
    | fails hf hrun => exact ⟨fun hfree => absurd (stuck_of_run hf hrun) (hfree _ _), fun hempty => by cases hempty⟩
  · exact work_preserves (s := { memos := m, runs }) (I := fun s => ∀ d, (s.memo d).epoch ≤ epoch) within_true
      (fun s c _ _ hs => Pass.epoch_start_le hs) (fun s c q v _ _ _ _ hs => Pass.epoch_finish_start_le hs)
      (fun _ _ => trivial) (fun d => Nat.le_of_lt (hm d)) c

end Pass

end Family

namespace Network

theorem bounded_family {T : Type} [Fact T] (net : Network T) : net.family.Bounded := by
  refine ⟨(List.range net.size).map (⟨·, .value⟩), by simp [family], fun ⟨p, .value⟩ q hq => ?_⟩
  refine List.mem_map_of_mem (List.mem_range.2 (Nat.lt_of_not_le fun hle => ?_))
  simp [family, Array.getElem?_eq_none hle] at hq

/-- Rules that read one another. The one at 3 goes on reading only as long as what it reads holds. -/
def relay : Network Bool where
  cells := #[.deferred false (some 3), .constant true, .rule (BoolRule.or.rule [1, 0]),
    .rule (BoolRule.shortAnd.rule [2, 4, 0]), .rule (BoolRule.or.rule [2, 2, 3])]

/-- A pass over them from the memos `m`, the one after `epoch` others. -/
def relayPass (epoch : Nat) (m : Memos fun _ : Sole => Bool) :
    Except (Failure RuleError) Unit × Pass fun _ : Sole => Bool :=
  relay.family.work (epoch + 1) 1 (2 * relay.family.size) [⟨3, .value⟩] { memos := m, runs := [] }

/-- In the second pass the rules at 3 and at 4 wait when that at 2 is run, which finds the old value of the one at 3. -/
theorem pass_is_depth_first_relay : ∃ t, relayPass 1 (relayPass 0 ∅).2.memos = (.ok (), t) ∧
    t.touched = [⟨2, .value⟩, ⟨4, .value⟩, ⟨3, .value⟩] ∧ t.runs.map (·.cell.place) = [3, 4, 2, 4, 3] ∧
    relay.family.Exhausts 2 1 ⟨3, .value⟩ (relayPass 0 ∅).2.memos [] ⟨[], t⟩ ∧
    ∃ (cs : List (Cell Sole)) (s u : Pass _) (chain : List (Cell Sole)),
      relay.family.LastRun 2 1 (.begin ⟨3, .value⟩ (relayPass 0 ∅).2.memos []) ⟨[], t⟩ ⟨2, .value⟩ cs s u ∧
      chain.Sublist cs ∧ (relay.family.isFinished 2 s ⟨3, .value⟩ = false → ⟨3, .value⟩ ∈ chain) := by
  have hfresh : ∀ c, (Family.memo (∅ : Memos fun _ : Sole => Bool) c).epoch < 1 := fun c => by simp [Memo.fresh]
  obtain ⟨-, holder, -⟩ := Family.pass_is_depth_first relay.bounded_family hfresh 1 [] ⟨3, .value⟩
  obtain ⟨⟨last, -, hstops, -, hends⟩, -, hreads⟩ :=
    Family.pass_is_depth_first relay.bounded_family holder 1 [] ⟨3, .value⟩
  change Family.Stops _ _ _ _ (relayPass 1 (relayPass 0 ∅).2.memos) at hstops
  change _ → relay.family.Exhausts 2 1 ⟨3, .value⟩ (relayPass 0 ∅).2.memos [] last at hends
  have hok : (relayPass 1 (relayPass 0 ∅).2.memos).1.isOk = true := by decide +kernel
  have htouched : (relayPass 1 (relayPass 0 ∅).2.memos).2.touched = [⟨2, .value⟩, ⟨4, .value⟩, ⟨3, .value⟩] := by
    decide +kernel
  have hruns : (relayPass 1 (relayPass 0 ∅).2.memos).2.runs.map (·.cell.place) = [3, 4, 2, 4, 3] := by decide +kernel
  generalize relayPass 1 (relayPass 0 ∅).2.memos = r at hstops hok htouched hruns ⊢
  cases hstops with
  | fails => cases hok
  | @empty t =>
    have hex := hends rfl
    obtain ⟨cs, s, u, q, hlast, hq, -⟩ := hex.reads ⟨2, .value⟩ (by rw [htouched]; decide)
    obtain ⟨q', chain, hq', -, hsub, hold⟩ := hreads _ cs s [] u hlast.before hlast.unfinished hlast.run
    refine ⟨t, rfl, htouched, hruns, hex, cs, s, u, chain, hlast, hsub, fun hf => ?_⟩
    cases hq.symm.trans hq'
    cases hq
    obtain ⟨-, hmissing | heq | hchain⟩ := hold ⟨0, .value⟩ (by simp [BoolRule.rule, Rule.fold]) ⟨3, .value⟩ rfl hf
    · cases hmissing
    · cases heq
    · exact hchain

end Network

end Predictive.Solver
