import Predictive.Parser
import Predictive.Proofs.Zipper.Completion

/-! Parsing with a lawful table gives the values of the derivations from its root, and no others. -/
namespace Predictive

variable {V K : Type} {w : V}

namespace ParseState

theorem lift_eq_ok_some {r : Except (ParseFault K) (Option V)} {e : Stop K} : (do
    match ← ParseState.lift r with
    | some v => return v
    | none => throw e) = .ok w ↔ r = .ok (some w) := by
  rcases r with e | v | v <;>
    simp [ParseState.lift, bind, Except.bind, pure, Except.pure, throw, throwThe, MonadExceptOf.throw]

variable [Value V] [Kind K]

/-- The tokens `ts` lead on to the result `w`. -/
def Completes (g : ValidGrammar V K) (p : ParseState V) (ts : List (K × V)) (w : V) : Prop :=
  match p.fold with
  | none => Derives g.productions g.root ts w
  | some d => d.Completes g.productions ts w

/-- There are no limits, and what comes after a pending part does not start as nothing after it may. -/
structure Open (g : ValidGrammar V K) (p : ParseState V) : Prop where
  limits : p.limits = .unbounded
  guarded : ∀ d, p.fold = some d → d.Guarded g.productions

end ParseState

variable [Value V] [Kind K] {g : ValidGrammar V K} {k : K} {p : ParseState V}

namespace ValidGrammar.Lawful

open ParseState

theorem takes_root_iff {x : V} {ts : List (K × V)} :
    Context.top.Takes g.productions g.root k x ts w ↔ Derives g.productions g.root ((k, x) :: ts) w := by
  constructor
  · rintro ⟨us, ws, u, rfl, hu, rfl, rfl⟩
    rwa [List.append_nil]
  · intro hw
    exact ⟨ts, [], w, (List.append_nil _).symm, hw, rfl, rfl⟩

variable (h : g.Lawful)
include h

theorem focus_found (hp : p.Open g) (k : K) :
    Focus.Found g.productions k (fun x ts w => p.Completes g ((k, x) :: ts) w) (p.focus g k) := by
  unfold ParseState.focus Completes
  cases hfold : p.fold with
  | some d => exact h.resume_found (hp.guarded d hfold) k
  | none =>
    by_cases hk : Starts g.productions g.root k
    · obtain ⟨f, hf, hkind, hctx, hcont⟩ := h.focusAt_spec (c := .top) hk (fun _ _ _ _ _ _ hw => nomatch hw.1) trivial
      simp only [accepts, h.acceptsAt_of_starts hk, focus, bind, Except.bind, hf]
      exact ⟨hkind, hctx, fun x ts w => takes_root_iff.symm.trans (hcont x ts w)⟩
    · simp only [accepts, h.acceptsAt_of_not_starts h.root hk, bind, Except.bind]
      exact fun x ts w hw => hk hw.starts

/-- A token is consumed without loss, or leads nowhere. -/
theorem feed_spec (hp : p.Open g) (x : V) :
    (∀ q, p.feed g (k, x) = .ok q → q.Open g ∧ ∀ ts w, p.Completes g ((k, x) :: ts) w ↔ q.Completes g ts w) ∧
    ∀ e, p.feed g (k, x) = .error e → ∀ ts w, ¬p.Completes g ((k, x) :: ts) w := by
  have hfound := h.focus_found hp k
  simp only [feed, hp.limits, Limits.unbounded, bind, Except.bind, pure, Except.pure]
  generalize p.focus g k = r at hfound
  match r with
  | .error e => exact ⟨fun q hq => (nomatch hq), fun e _ ts w => hfound x ts w⟩
  | .ok none => exact ⟨fun q hq => (nomatch hq), fun e _ ts w => hfound x ts w⟩
  | .ok (some f) =>
    obtain ⟨rfl, hctx, hcont⟩ := hfound
    obtain ⟨hok, herr⟩ := unwind_spec (K := K) hctx x
    simp only [Focus.advance, Focus.fold, if_true, ParseState.lift]
    cases hu : unwind x f.context with
    | error e => exact ⟨fun q hq => (nomatch hq), fun _ _ ts w hw => herr e hu ts w ((hcont x ts w).1 hw)⟩
    | ok d =>
      obtain ⟨hd, hiff⟩ := hok d hu
      refine ⟨fun q hq => ?_, fun e he => nomatch he⟩
      cases hq
      refine ⟨⟨rfl, fun d' hd' => ?_⟩, fun ts w => (hcont x ts w).trans (hiff ts w)⟩
      obtain rfl := Option.some.inj hd'
      exact hd

theorem root_emptyValue : (g.entry g.root).map (·.emptyValue) = .ok (some w) ↔ Derives g.productions g.root [] w := by
  obtain ⟨e, he, -⟩ := exists_entry h.root
  simp only [entry_of_get he, Except.map, Except.ok.injEq]
  exact h.emptyValue_iff he

theorem finish_spec (hp : p.Open g) : p.finish g = .ok w ↔ p.Completes g [] w := by
  unfold finish Completes
  refine lift_eq_ok_some.trans ?_
  cases hfold : p.fold with
  | none => exact h.root_emptyValue
  | some d => exact h.finish_iff (hp.guarded d hfold)

/-- However far a parse has come, the rest of it gives the results that its tokens lead to. -/
theorem feedAll_iff {ts : List (K × V)} (hp : p.Open g) :
    ((p.feedAll g ts).bind fun q => q.finish g) = .ok w ↔ p.Completes g ts w := by
  induction ts generalizing p with
  | nil => exact h.finish_spec hp
  | cons t ts ih =>
    obtain ⟨k, x⟩ := t
    obtain ⟨hok, herr⟩ := h.feed_spec hp x (k := k)
    rw [feedAll]
    cases hf : p.feed g (k, x) with
    | error e =>
      simp only [Except.bind]
      exact ⟨fun hw => (nomatch hw), fun hw => (herr e hf ts w hw).elim⟩
    | ok q =>
      obtain ⟨hq, hiff⟩ := hok q hf
      exact (ih hq).trans (hiff ts w).symm

theorem parse_iff {ts : List (K × V)} : g.parse .unbounded ts = .ok w ↔ Derives g.productions g.root ts w :=
  h.feedAll_iff ⟨rfl, fun _ hd => nomatch hd⟩

end ValidGrammar.Lawful
end Predictive
