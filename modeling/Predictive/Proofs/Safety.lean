import Predictive.Parser
import Predictive.Proofs.Zipper.Route

/-! Within any limits a parse gives a value or is rejected, unless a transformation gives up. -/
namespace Predictive

variable {V K : Type} [Kind K]

namespace ParseState

def All (Q : Frame V → Prop) (p : ParseState V) : Prop := ∀ d, p.fold = some d → d.All Q

/-- The limit on tokens leaves one more. -/
def spare (p : ParseState V) : Except (Stop K) Unit :=
  match p.limits.maxTokens with
  | some limit => if limit ≤ p.position then .error (.rejected (.tokenLimitExceeded limit)) else .ok ()
  | none => .ok ()

/-- The cursor for a token of the kind `k`, if there is one. -/
def place (p : ParseState V) (k : K) : Option (Focus V K) → Except (Stop K) (Focus V K)
  | some f => .ok f
  | none => .error (.rejected (.unexpectedToken p.position k))

/-- The limit on depth allows the cursor. -/
def room (p : ParseState V) (f : Focus V K) : Except (Stop K) Unit :=
  match p.limits.maxDepth with
  | some limit => if limit < f.depth then .error (.rejected (.depthLimitExceeded p.position limit)) else .ok ()
  | none => .ok ()

/-- The state after a token, of which `d` is left. -/
def next (p : ParseState V) (d : Fold V) : ParseState V := { p with position := p.position + 1, fold := some d }

/-- The value that the input has if it ends here, unless something is missing. -/
def outcome [Value V] (p : ParseState V) (g : ValidGrammar V K) : Except (ParseFault K) (Option V) :=
  match p.fold with
  | none => (g.entry g.root).map (·.emptyValue)
  | some d => d.finish g

def conclude (p : ParseState V) : Option V → Except (Stop K) V
  | some v => .ok v
  | none => .error (.rejected (.unexpectedEnd p.position))

theorem finish_eq [Value V] (p : ParseState V) (g : ValidGrammar V K) :
    p.finish g = (lift (p.outcome g)).bind p.conclude := by
  unfold finish outcome
  congr 1

/-- Feeding a token is one check after another, before the token is consumed. -/
theorem feed_eq [Value V] (p : ParseState V) (g : ValidGrammar V K) (t : K × V) :
    p.feed g t = p.spare.bind fun _ => (lift (p.focus g t.1)).bind fun r => (p.place t.1 r).bind fun f =>
      (p.room f).bind fun _ => (lift (f.advance t)).bind fun d => .ok (p.next d) := by
  unfold feed spare room
  rcases p.limits.maxTokens with _ | tokens
  on_goal 2 =>
    by_cases hs : tokens ≤ p.position
    · simp only [if_pos hs]
      rfl
    simp only [if_neg hs]
  all_goals
    rcases lift (p.focus g t.1) with e | _ | f
    · rfl
    · rfl
    rcases p.limits.maxDepth with _ | depth
    · rfl
    by_cases hd : depth < f.depth
    · simp only [bind, Except.bind, place, if_pos hd]
      rfl
    · simp only [bind, Except.bind, place, if_neg hd]
      rfl

end ParseState

namespace ValidGrammar

/-- The result is as `P` says, unless the parse is rejected or a transformation gives up. -/
def Safely {α : Type} (g : ValidGrammar V K) (P : α → Prop) : Except (Stop K) α → Prop
  | .ok a => P a
  | .error (.rejected _) => True
  | .error (.fault e) => g.Fails e

variable {g : ValidGrammar V K}

theorem Safe.lift {α : Type} {P : α → Prop} {r : Except (ParseFault K) α} (h : g.Safe P r) :
    g.Safely P (ParseState.lift r) := by
  cases r with
  | error e => exact h
  | ok a => exact h

theorem Safely.bind {α β : Type} {P : α → Prop} {Q : β → Prop} {r : Except (Stop K) α}
    {w : α → Except (Stop K) β} (h : g.Safely P r) (hw : ∀ a, P a → g.Safely Q (w a)) : g.Safely Q (r.bind w) := by
  match r with
  | .error (.rejected e) => trivial
  | .error (.fault e) => exact h
  | .ok a => exact hw a h

theorem safely_spare (p : ParseState V) : g.Safely (fun _ => True) p.spare := by
  unfold ParseState.spare
  split
  · split <;> trivial
  · trivial

theorem safely_room (p : ParseState V) (f : Focus V K) : g.Safely (fun _ => True) (p.room f) := by
  unfold ParseState.room
  split
  · split <;> trivial
  · trivial

namespace Lawful

variable [Value V] {p : ParseState V} {Q : Frame V → Prop} (h : g.Lawful) (hQ : g.Keeps Q)
include h hQ

theorem safe_focus (hp : p.All Q) (k : K) :
    g.Safe (fun r => ∀ f, r = some f → f.kind = k ∧ f.context.All Q) (p.focus g k) := by
  unfold ParseState.focus
  cases hfold : p.fold with
  | some d => exact h.safe_resume hQ (hp d hfold) k
  | none =>
    obtain ⟨e, he, -⟩ := exists_entry h.root
    have hk : g.accepts k = .ok (e.first.contains k) := by
      rw [accepts, acceptsAt, entry_of_get he]
      rfl
    simp only [bind, Except.bind, hk]
    cases hmem : e.first.contains k with
    | false =>
      intro f hf
      cases hf
    | true =>
      rw [hmem] at hk
      refine (h.safe_focusAt hQ (c := .top) hk trivial).bind fun f hf f' hf' => ?_
      cases hf'
      exact hf

/-- A token is consumed or rejected. -/
theorem safely_feed (hp : p.All Q) (t : K × V) : g.Safely (ParseState.All Q) (p.feed g t) := by
  rw [p.feed_eq]
  refine (safely_spare p).bind fun _ _ => (h.safe_focus hQ hp t.1).lift.bind fun r hr => ?_
  cases r with
  | none => trivial
  | some f =>
    obtain ⟨hkind, hc⟩ := hr f rfl
    refine (safely_room p f).bind fun _ _ => ?_
    rw [Focus.advance, if_pos hkind.symm]
    refine (safe_unwind hQ hc t.2).lift.bind fun d hd d' hd' => ?_
    cases hd'
    exact hd

theorem safely_finish (hp : p.All Q) : g.Safely (fun _ => True) (p.finish g) := by
  rw [p.finish_eq]
  have hend : g.Safe (fun _ => True) (p.outcome g) := by
    unfold ParseState.outcome
    cases hfold : p.fold with
    | some d => exact safe_finish hQ (hp d hfold)
    | none =>
      obtain ⟨e, he, -⟩ := exists_entry h.root
      simp only [entry_of_get he]
      trivial
  refine hend.lift.bind fun v _ => ?_
  cases v <;> trivial

/-- Tokens that are fed one after another are all consumed, or one of them is rejected. -/
theorem safely_feedAll {ts : List (K × V)} (hp : p.All Q) : g.Safely (ParseState.All Q) (p.feedAll g ts) := by
  induction ts generalizing p with
  | nil => exact hp
  | cons t ts ih => exact (h.safely_feed hQ hp t).bind fun q hq => ih hq

theorem safely_start (limits : Limits) (ts : List (K × V)) :
    g.Safely (ParseState.All Q) ((start limits : ParseState V).feedAll g ts) :=
  h.safely_feedAll hQ fun _ hd => nomatch hd

theorem safely_parse (limits : Limits) (ts : List (K × V)) : g.Safely (fun _ => True) (g.parse limits ts) :=
  (h.safely_start hQ limits ts).bind fun _ hq => h.safely_finish hQ hq

end Lawful
end ValidGrammar
end Predictive
