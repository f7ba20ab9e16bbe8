import Predictive.Proofs.Zipper.Composition

/-!
How deep a parse gets. A way down meets no slot twice, so it adds fewer frames than the table has slots, and from one
token to the next no other frames are added but the one for what is complete, in the place of the one that was pending.
So the depth grows by less than the size of the table with each token.
-/
namespace Predictive

variable {V K : Type}

/-- The number of frames that are left of a fold, with the one that names what is pending. -/
def Fold.depth : Fold V → Nat
  | done _ => 0
  | suspended s => s.context.depth + 1

namespace ParseState

/-- The number of frames that are left between two tokens. -/
def depth (p : ParseState V) : Nat := p.fold.elim 0 Fold.depth

variable [Value V] [Kind K] {g : ValidGrammar V K} {p q : ParseState V} {t : K × V} {ts : List (K × V)}

theorem limits_feed (h : p.feed g t = .ok q) : q.limits = p.limits ∧ q.position = p.position + 1 := by
  obtain ⟨f, d, -, -, rfl⟩ := exists_of_feed h
  exact ⟨rfl, rfl⟩

theorem limits_feedAll (h : p.feedAll g ts = .ok q) : q.limits = p.limits ∧ q.position = p.position + ts.length := by
  induction ts generalizing p with
  | nil =>
    cases h
    exact ⟨rfl, rfl⟩
  | cons t ts ih =>
    obtain ⟨p', hp', h⟩ := exists_of_bind h
    obtain ⟨hlimits, hposition⟩ := limits_feed hp'
    obtain ⟨hlimits', hposition'⟩ := ih h
    refine ⟨hlimits'.trans hlimits, hposition'.trans ?_⟩
    rw [hposition, List.length_cons]
    omega

/-- A token is refused for its depth only if the cursor for it is deeper than the limit. -/
theorem exists_of_deep {i m : Nat} (h : p.feed g t = .error (.rejected (.depthLimitExceeded i m))) :
    i = p.position ∧ p.limits.maxDepth = some m ∧ ∃ f, p.focus g t.1 = .ok (some f) ∧ m < f.depth := by
  rw [p.feed_eq] at h
  cases hspare : (p.spare : Except (Stop K) Unit) with
  | error stop =>
    rw [hspare] at h
    cases h
    unfold spare at hspare
    split at hspare
    · split at hspare <;> cases hspare
    · cases hspare
  | ok u =>
    rw [hspare] at h
    rcases hf : p.focus g t.1 with e | _ | f
    · rw [hf] at h
      cases h
    · rw [hf] at h
      cases h
    · simp only [hf, lift, Except.bind, place] at h
      cases hroom : (p.room f : Except (Stop K) Unit) with
      | error stop =>
        rw [hroom] at h
        cases h
        unfold room at hroom
        split at hroom
        · rename_i limit hlimit
          split at hroom
          · rename_i hlt
            cases hroom
            exact ⟨rfl, hlimit, f, rfl, hlt⟩
          · cases hroom
        · cases hroom
      | ok u =>
        rw [hroom] at h
        cases hadvance : f.advance t <;> simp [hadvance] at h

end ParseState

theorem Descends.depth_le [Value V] {G : Productions V K} {k : K} {s t : Slot} {c c' : Context V}
    (h : Descends G k s c t c') : c'.depth ≤ c.depth + 1 := by
  cases h with
  | left | right => exact Nat.le_succ _
  | first | second | transform => rw [Context.depth]

/-- Folding outwards adds no frame. -/
theorem depth_of_unwind [Value V] {c : Context V} {v : V} {d : Fold V}
    (h : unwind v c = (.ok d : Except (ParseFault K) (Fold V))) : d.depth ≤ c.depth := by
  induction c generalizing v with
  | top =>
    cases h
    exact Nat.zero_le _
  | push frame c ih =>
    rw [Context.depth]
    cases frame with
    | prepend left => exact Nat.le_succ_of_le (ih h)
    | apply f =>
      rw [ValidGrammar.unwind_apply] at h
      obtain ⟨w, -, h⟩ := exists_of_bind h
      exact Nat.le_succ_of_le (ih h)
    | followBy next =>
      cases h
      exact Nat.le_refl _

namespace ValidGrammar

variable [Value V] [Kind K] {g : ValidGrammar V K} {k : K} {s t : Slot} {c c' : Context V} {v : V} {f : Focus V K}
  {p q : ParseState V} {x : K × V} {ts : List (K × V)}

/-- The frame for what is complete takes the place of the one for the part that is found. -/
theorem depth_of_seek (h : g.seek k v c = .ok (some (t, c'))) : c'.depth ≤ c.depth := by
  induction c generalizing v with
  | top => cases h
  | push frame c ih =>
    rw [Context.depth]
    cases frame with
    | prepend left => exact Nat.le_succ_of_le (ih h)
    | apply f =>
      rw [seek_apply] at h
      obtain ⟨w, -, h⟩ := exists_of_bind h
      exact Nat.le_succ_of_le (ih h)
    | followBy next =>
      rw [seek_followBy] at h
      obtain ⟨e, -, h⟩ := exists_of_bind h
      split at h
      · cases h
        rw [Context.depth]
      · cases hempty : e.emptyValue with
        | none =>
          rw [hempty] at h
          cases h
        | some w =>
          rw [hempty] at h
          exact Nat.le_succ_of_le (ih h)

namespace Lawful

variable (h : g.Lawful)
include h

/-- Each step down adds a frame at most. -/
theorem depth_of_falls {n : Nat} (hn : Falls g.productions k n s) (hk : Starts g.productions s k)
    (hf : g.focusAt s k c = .ok f) : f.depth ≤ c.depth + n := by
  induction hn generalizing c with
  | element he =>
    cases hf.symm.trans (h.focusAt_of_element he)
    exact Nat.le_refl _
  | step hd _ ih =>
    obtain ⟨c', hd⟩ := hd c
    rw [h.focusAt_of_descends hk hd] at hf
    have hstep := hd.depth_le
    have hrest := ih hd.starts hf
    omega

/-- A way down adds fewer frames than there are slots, since it meets none of them twice. -/
theorem depth_of_focusAt (hf : g.focusAt s k c = .ok f) : f.depth ≤ c.depth + (g.size - 1) := by
  obtain ⟨b, hb, hdown⟩ := exists_of_bind hf
  cases b with
  | false => cases hdown
  | true =>
    have hk := h.starts_of_acceptsAt hb
    obtain ⟨n, hn⟩ := h.exists_falls hk
    have hdepth := h.depth_of_falls hn hk hf
    have hsize := lt_size_of_falls hn
    omega

/-- From one token to the next the depth grows by less than the size of the table. -/
theorem depth_of_focus (hf : p.focus g k = .ok (some f)) : f.depth ≤ p.depth + (g.size - 1) := by
  unfold ParseState.focus at hf
  unfold ParseState.depth
  cases hfold : p.fold with
  | none =>
    rw [hfold] at hf
    obtain ⟨b, -, hf⟩ := exists_of_bind hf
    cases b with
    | false => cases hf
    | true =>
      obtain ⟨f', hf', hf⟩ := exists_of_bind hf
      cases hf
      have hdown := h.depth_of_focusAt hf'
      rwa [Context.depth] at hdown
  | some d =>
    rw [hfold] at hf
    obtain ⟨t, c, hr, hfocus⟩ := exists_of_resume hf
    have hdown := h.depth_of_focusAt hfocus
    cases d with
    | done v => cases hr
    | suspended s =>
      have hseek := depth_of_seek hr
      rw [Context.depth] at hseek
      simp only [Option.elim, Fold.depth]
      omega

theorem depth_of_feed (hf : p.feed g x = .ok q) : q.depth ≤ p.depth + (g.size - 1) := by
  obtain ⟨f, d, hfocus, hd, rfl⟩ := ParseState.exists_of_feed hf
  have hfocus := h.depth_of_focus hfocus
  rw [Focus.advance] at hd
  split at hd
  · have hfold := depth_of_unwind hd
    rw [Focus.depth] at hfocus
    simp only [ParseState.next, ParseState.depth, Option.elim] at hfocus ⊢
    omega
  · cases hd

theorem depth_of_feedAll (hf : p.feedAll g ts = .ok q) : q.depth ≤ p.depth + ts.length * (g.size - 1) := by
  induction ts generalizing p with
  | nil =>
    cases hf
    exact Nat.le_add_right _ _
  | cons t ts ih =>
    obtain ⟨p', hp', hf⟩ := exists_of_bind hf
    have hfirst := h.depth_of_feed hp'
    have hrest := ih hf
    rw [List.length_cons, Nat.succ_mul]
    omega

end Lawful

/-- A parse is ended for its depth by the token at the place that is told. -/
theorem exists_feed_of_deep {limits : Limits} {i m : Nat}
    (h : g.parse limits ts = .error (.rejected (.depthLimitExceeded i m))) :
    ∃ us t p, (start limits : ParseState V).feedAll g us = .ok p ∧
      p.feed g t = .error (.rejected (.depthLimitExceeded i m)) := by
  rw [parse] at h
  cases hfeed : (start limits : ParseState V).feedAll g ts with
  | error stop =>
    rw [hfeed] at h
    cases h
    obtain ⟨us, t, ws, p, -, hp, ht⟩ := exists_of_feedAll hfeed
    exact ⟨us, t, p, hp, ht⟩
  | ok p =>
    rw [hfeed] at h
    -- the end of the input is not refused for its depth
    rcases finish_cases g p with ⟨v, hv⟩ | hv | ⟨f, hv⟩ <;> cases hv.symm.trans h

end ValidGrammar

namespace Grammar

open Store
open ValidGrammar (start)

variable [Kind K] [Value V] {s s' : Store V K} {r : Ref} {held : List Ref} {g : ValidGrammar V K}

/-- With a table that comes of a grammar, the cursor for a token is no deeper than the number of tokens up to it times the
number of slots but one. So a token is not refused for its depth where the limit is that large. -/
theorem depth_grows_with_tokens (h : Reached s) (hr : s.HasRef r) (hval : validate held r s = .ok (.ok g) s') :
    0 < g.size ∧
    (∀ limits ts p, (start limits : ParseState V).feedAll g ts = .ok p → p.position = ts.length ∧
      (∀ k f, p.focus g k = .ok (some f) → f.depth ≤ (ts.length + 1) * (g.size - 1)) ∧
      ∀ t i m, p.feed g t = .error (.rejected (.depthLimitExceeded i m)) →
        i = ts.length ∧ limits.maxDepth = some m ∧ m < (i + 1) * (g.size - 1)) ∧
    ∀ limits ts i m, g.parse limits ts = .error (.rejected (.depthLimitExceeded i m)) →
      limits.maxDepth = some m ∧ m < (i + 1) * (g.size - 1) := by
  obtain ⟨i, node, -, htab, hlaw⟩ := h.tabulates hr hval
  have hfocus : ∀ {limits : Limits} {ts : List (K × V)} {p : ParseState V},
      (start limits : ParseState V).feedAll g ts = .ok p →
      ∀ k f, p.focus g k = .ok (some f) → f.depth ≤ (ts.length + 1) * (g.size - 1) := by
    intro limits ts p hp k f hf
    have hbefore : p.depth ≤ 0 + ts.length * (g.size - 1) := hlaw.depth_of_feedAll hp
    have hdown := hlaw.depth_of_focus hf
    rw [Nat.succ_mul]
    omega
  have hfeed : ∀ {limits : Limits} {ts : List (K × V)} {p : ParseState V},
      (start limits : ParseState V).feedAll g ts = .ok p →
      ∀ t i m, p.feed g t = .error (.rejected (.depthLimitExceeded i m)) →
        i = ts.length ∧ limits.maxDepth = some m ∧ m < (i + 1) * (g.size - 1) := by
    intro limits ts p hp t i m ht
    obtain ⟨hlimits, hposition⟩ := ParseState.limits_feedAll hp
    obtain ⟨rfl, hm, f, hf, hlt⟩ := ParseState.exists_of_deep ht
    have hposition : p.position = ts.length := hposition.trans (Nat.zero_add _)
    rw [hlimits] at hm
    refine ⟨hposition, hm, ?_⟩
    rw [hposition]
    exact Nat.lt_of_lt_of_le hlt (hfocus hp t.1 f hf)
  refine ⟨Nat.zero_lt_of_lt hlaw.root, fun limits ts p hp => ⟨?_, hfocus hp, hfeed hp⟩, fun limits ts i m hparse => ?_⟩
  · exact (ParseState.limits_feedAll hp).2.trans (Nat.zero_add _)
  · obtain ⟨us, t, p, hp, ht⟩ := ValidGrammar.exists_feed_of_deep hparse
    exact (hfeed hp t i m ht).2

/-- The second of two brackets is below the first one; there are six slots. -/
def deepensWithin (g : ValidGrammar (List Int64) Tag) : Bool :=
  match (start { maxDepth := some 2 } : ParseState (List Int64)).feedAll g [(Tag.opening, [1])] with
  | .ok p =>
    match p.focus g Tag.opening, g.parse { maxDepth := some 2 } [(Tag.opening, [1]), (.opening, [2])] with
    | .ok (some f), .error (.rejected (.depthLimitExceeded 1 2)) => f.depth = 3 ∧ g.size = 6
    | _, _ => false
  | _ => false

theorem depth_grows_with_tokens_nested : ∃ g s' p f, validate [] (.node 6) nestedStore = .ok (.ok g) s' ∧
    (start { maxDepth := some 2 } : ParseState (List Int64)).feedAll g [(Tag.opening, [1])] = .ok p ∧
    p.focus g Tag.opening = .ok (some f) ∧ f.depth = 3 ∧ f.depth ≤ 2 * (g.size - 1) ∧
    g.parse { maxDepth := some 2 } [(Tag.opening, [1]), (.opening, [2])] =
      .error (.rejected (.depthLimitExceeded 1 2)) ∧ 2 < 2 * (g.size - 1) := by
  obtain ⟨g, s', hval, hp⟩ := exists_valid (s := nestedStore) [] (.node 6) (fun g _ => deepensWithin g)
    (by decide +kernel)
  unfold deepensWithin at hp
  split at hp
  · rename_i p hfeed
    split at hp
    · rename_i f hf hdeep
      obtain ⟨hdepth, -⟩ := of_decide_eq_true hp
      obtain ⟨-, hstates, hparses⟩ := depth_grows_with_tokens reached_nestedStore hasRef_nestedStore hval
      obtain ⟨-, hfocus, -⟩ := hstates _ _ p hfeed
      exact ⟨g, s', p, f, hval, hfeed, hf, hdepth, hfocus _ f hf, hdeep, (hparses _ _ 1 2 hdeep).2⟩
    · cases hp
  · cases hp

end Grammar
end Predictive
