import Predictive.Proofs.Cutoff
import Predictive.Proofs.Grammar.Twin

/-!
The rest of a parse, from the value that is complete and the context that it is complete under. Contexts that differ may
leave the same to do; they do if their frames match one by one, in tables whose slots match.
-/
namespace Predictive

variable {V K : Type} [Value V] [Kind K]

namespace ValidGrammar

/-- The rest of a parse without limits, when `n` tokens are consumed and `d` is left of them. -/
def goOn (g : ValidGrammar V K) (n : Nat) (d : Fold V) (ts : List (K × V)) : Except (Stop K) V :=
  ((⟨.unbounded, n, some d⟩ : ParseState V).feedAll g ts).bind fun p => p.finish g

/-- The rest of a parse without limits, when `n` tokens are consumed and `v` is complete under `c`. -/
def proceed (g : ValidGrammar V K) (n : Nat) (v : V) (c : Context V) (ts : List (K × V)) : Except (Stop K) V :=
  (ParseState.lift (unwind v c)).bind fun d => g.goOn n d ts

/-- The rest of a parse without limits, when `n` tokens are consumed and the next one is for the slot `s` under `c`. -/
def enter (g : ValidGrammar V K) (n : Nat) (s : Slot) (c : Context V) (t : K × V) (ts : List (K × V)) :
    Except (Stop K) V :=
  (ParseState.lift (g.focusAt s t.1 c)).bind fun f => (ParseState.lift (f.advance t)).bind fun d => g.goOn (n + 1) d ts

/-- Why a parse cannot go on after `n` tokens. -/
def refusal (n : Nat) : List (K × V) → Stop K
  | [] => .rejected (.unexpectedEnd n)
  | t :: _ => .rejected (.unexpectedToken n t.1)

variable {g g' : ValidGrammar V K} {n m : Nat} {v w : V} {c c' : Context V} {f : Transformation V} {s s' : Slot} {k : K}
  {t : K × V} {ts : List (K × V)}

theorem unwind_seek (v : V) (c : Context V) : (unwind v c).bind (fun d => d.seek g k) = g.seek k v c := by
  induction c generalizing v with
  | top => rfl
  | push frame c ih =>
    cases frame with
    | prepend left => exact ih _
    | followBy next => rfl
    | apply f =>
      rw [unwind_apply, seek_apply]
      cases f.run v (K := K) with
      | error e => rfl
      | ok w => exact ih w

theorem unwind_close (v : V) (c : Context V) : (unwind v c).bind (fun d => d.finish g) = g.close v c := by
  induction c generalizing v with
  | top => rfl
  | push frame c ih =>
    cases frame with
    | prepend left => exact ih _
    | followBy next => rfl
    | apply f =>
      rw [unwind_apply, close_apply]
      cases f.run v (K := K) with
      | error e => rfl
      | ok w => exact ih w

theorem proceed_nil : g.proceed n v c [] = (ParseState.lift (g.close v c)).bind fun r =>
    r.elim (.error (refusal n ([] : List (K × V)))) .ok := by
  rw [← unwind_close, proceed]
  cases unwind v c with
  | error e => rfl
  | ok d =>
    simp only [ParseState.lift, Except.bind, goOn, ParseState.feedAll, ParseState.finish_eq, ParseState.outcome]
    rcases d.finish g with e | _ | w <;> rfl

theorem proceed_cons : g.proceed n v c (t :: ts) = (ParseState.lift (g.seek t.1 v c)).bind fun r =>
    r.elim (.error (refusal n (t :: ts))) fun p => g.enter n p.1 p.2 t ts := by
  rw [← unwind_seek, proceed]
  cases unwind v c with
  | error e => rfl
  | ok d =>
    simp only [ParseState.lift, Except.bind, goOn, ParseState.feedAll]
    rw [ParseState.feed_unbounded rfl]
    simp only [ParseState.focus, Fold.resume, bind, Except.bind]
    rcases d.seek g t.1 with e | _ | ⟨s, c'⟩
    · rfl
    · rfl
    · simp only [Option.elim, enter]
      cases g.focusAt s t.1 c' with
      | error e => rfl
      | ok f =>
        simp only [ParseState.lift, Except.bind, pure, Except.pure, ParseState.place]
        cases f.advance t <;> rfl

theorem proceed_prepend (a : V) : g.proceed n v (c.push (.prepend a)) ts = g.proceed n (prepend a v) c ts := rfl

theorem proceed_apply : g.proceed n v (c.push (.apply f)) ts =
    (ParseState.lift (f.run v)).bind fun w => g.proceed n w c ts := by
  rw [proceed, unwind_apply]
  cases f.run v (K := K) <;> rfl

/-- The next token can come first in the slot `s`. -/
def Awaits (g : ValidGrammar V K) (s : Slot) (ts : List (K × V)) : Prop :=
  ∃ t us, ts = t :: us ∧ Starts g.productions s t.1

namespace Lawful

variable (h : g.Lawful)
include h

/-- An entry that does not take the next token says so. -/
theorem not_contains (hts : ¬g.Awaits s (t :: ts)) {e : Entry V K} (he : g.entries[s]? = some e) :
    e.first.contains t.1 = false := by
  rw [Bool.eq_false_iff, ne_eq, FinSet.contains_iff_mem, h.first s e he]
  exact fun hs => hts ⟨t, ts, rfl, hs⟩

/-- A pending part takes the next token if it can start with it. -/
theorem proceed_followBy_of_starts (hs : Starts g.productions s t.1) :
    g.proceed n v (c.push (.followBy s)) (t :: ts) = g.enter n s (c.push (.prepend v)) t ts := by
  obtain ⟨e, he, -⟩ := exists_entry (lt_of_starts hs)
  have hmem := FinSet.contains_iff_mem.2 ((h.first s e he t.1).2 hs)
  rw [proceed_cons, seek_followBy, entry_of_get he, Except.bind, if_pos hmem]
  rfl

/-- A pending part that does not take the next token is closed with its empty value. -/
theorem proceed_followBy_of_empty (hw : Derives g.productions s [] w) (hts : ¬g.Awaits s ts) :
    g.proceed n v (c.push (.followBy s)) ts = g.proceed n (prepend v w) c ts := by
  obtain ⟨e, he, -⟩ := exists_entry (productions_isSome_iff.1 hw.yields.isSome)
  have hempty := (h.emptyValue_iff he).2 hw
  cases ts with
  | nil => rw [proceed_nil, proceed_nil, close_followBy, entry_of_get he, Except.bind, hempty, Option.elim_some]
  | cons t ts =>
    rw [proceed_cons, proceed_cons, seek_followBy, entry_of_get he, Except.bind, hempty, Option.elim_some,
      if_neg (by simp [h.not_contains hts he])]

/-- A pending part that does not take the next token and may not be empty ends the parse. -/
theorem proceed_followBy_of_missing (hs : s < g.size) (hw : ∀ w, ¬Derives g.productions s [] w)
    (hts : ¬g.Awaits s ts) : g.proceed n v (c.push (.followBy s)) ts = .error (refusal n ts) := by
  obtain ⟨e, he, -⟩ := exists_entry hs
  have hnone : e.emptyValue = none := by
    cases hv : e.emptyValue with
    | none => rfl
    | some w => exact absurd (h.emptyValue s e w he hv) (hw w)
  cases ts with
  | nil =>
    rw [proceed_nil, close_followBy, entry_of_get he, Except.bind, hnone]
    rfl
  | cons t ts =>
    rw [proceed_cons, seek_followBy, entry_of_get he, Except.bind, hnone, if_neg (by simp [h.not_contains hts he])]
    rfl

theorem focusAt_of_descends (hs : Starts g.productions s k) (hd : Descends g.productions k s c s' c') :
    g.focusAt s k c = g.focusAt s' k c' := by
  obtain ⟨route, f, hroute, hf, -⟩ := h.exists_route (h.acceptsAt_of_starts hs) c
  obtain ⟨route', f', hroute', hf', -⟩ := h.exists_route (h.acceptsAt_of_starts hd.starts) c'
  have hlong := Route.step (h.round_of_descends hd) hroute'
  have heq := (hroute.descend (Nat.le_max_left _ _)).symm.trans (hlong.descend (Nat.le_max_right _ _))
  rw [hf, hf', Except.ok.inj heq]

/-- A step down leaves the same to do. -/
theorem enter_of_descends (hs : Starts g.productions s t.1) (hd : Descends g.productions t.1 s c s' c') :
    g.enter n s c t ts = g.enter n s' c' t ts := by
  rw [enter, enter, h.focusAt_of_descends hs hd]

/-- At an element that takes the token the way down has an end. -/
theorem focusAt_of_element (hs : g.productions s = some (.element k)) : g.focusAt s k c = .ok ⟨s, k, c⟩ := by
  have hround : g.round k s c = .ok (.inl ⟨s, k, c⟩) := by
    obtain ⟨e, he, hform⟩ := entry_of_form (.element _) hs
    simp [round, bind, Except.bind, pure, Except.pure, he, hform]
  obtain ⟨route, f, hroute, hf, -⟩ := h.exists_route (h.acceptsAt_of_starts ⟨[], .element hs⟩) c
  cases hroute with
  | stop hr =>
    cases hround.symm.trans hr
    exact hf
  | step hr => cases hround.symm.trans hr

/-- An element takes its token. -/
theorem enter_of_element (hs : g.productions s = some (.element t.1)) :
    g.enter n s c t ts = g.proceed (n + 1) t.2 c ts := by
  rw [enter, h.focusAt_of_element hs]
  simp only [ParseState.lift, Except.bind, Focus.advance, Focus.fold, if_true]
  rfl

theorem parse_of_starts (hs : Starts g.productions g.root t.1) :
    g.parse .unbounded (t :: ts) = g.enter 0 g.root .top t ts := by
  rw [parse, ParseState.feedAll, ParseState.feed_unbounded rfl]
  simp only [ParseState.focus, start, accepts, h.acceptsAt_of_starts hs, focus, bind, Except.bind, if_true, enter]
  cases g.focusAt g.root t.1 .top with
  | error e => rfl
  | ok f =>
    simp only [ParseState.lift, pure, Except.pure, ParseState.place]
    cases f.advance t <;> rfl

theorem parse_of_not_starts (hs : ¬Starts g.productions g.root t.1) :
    g.parse .unbounded (t :: ts) = .error (refusal 0 (t :: ts)) := by
  rw [parse, ParseState.feedAll, ParseState.feed_unbounded rfl]
  simp only [ParseState.focus, start, accepts, h.acceptsAt_of_not_starts h.root hs, bind, Except.bind]
  rfl

theorem parse_nil (hw : ∀ w, ¬Derives g.productions g.root [] w) :
    g.parse .unbounded [] = .error (refusal 0 ([] : List (K × V))) := by
  obtain ⟨e, he, -⟩ := exists_entry h.root
  have hnone : e.emptyValue = none := by
    cases hv : e.emptyValue with
    | none => rfl
    | some w => exact absurd (h.emptyValue _ e w he hv) (hw w)
  simp only [parse, ParseState.feedAll, Except.bind, ParseState.finish_eq, ParseState.outcome, start, entry_of_get he,
    Except.map, hnone]
  rfl

end Lawful

/-- What `E` does not tell apart it does not tell apart after prepending and after the transformations in use. -/
structure Congruence (E : V → V → Prop) (used : Transformation V → Prop) : Prop where
  equivalence : Equivalence E
  homomorphic : Homomorphic E
  transform : ∀ {f}, used f → f.Twin E f

theorem congruence_eq (used : Transformation V → Prop) : Congruence Eq used :=
  ⟨eq_equivalence, homomorphic_eq, fun _ => .refl _⟩

theorem Congruence.mono {E : V → V → Prop} {used used' : Transformation V → Prop} (h : Congruence E used)
    (hu : ∀ f, used' f → used f) : Congruence E used' :=
  ⟨h.equivalence, h.homomorphic, fun hf => h.transform (hu _ hf)⟩

/-- The transformation stands in the table. -/
def Uses (g : ValidGrammar V K) (f : Transformation V) : Prop := ∃ s l, g.productions s = some (.transform f l)

variable {E : V → V → Prop}

/-- Tables parse alike if their roots can start the same, have like empty values, and are entered alike. -/
theorem parse_alike (h : g.Lawful) (h' : g'.Lawful)
    (hstarts : ∀ k, Starts g.productions g.root k ↔ Starts g'.productions g'.root k)
    (hempty : ∀ w, Derives g.productions g.root [] w → ∃ w', Derives g'.productions g'.root [] w' ∧ E w w')
    (hempty' : ∀ w', Derives g'.productions g'.root [] w' → ∃ w, Derives g.productions g.root [] w)
    (henter : ∀ t ts, Starts g.productions g.root t.1 →
      Alike E (g.enter 0 g.root .top t ts) (g'.enter 0 g'.root .top t ts))
    (ts : List (K × V)) : Alike E (g.parse .unbounded ts) (g'.parse .unbounded ts) := by
  cases ts with
  | nil =>
    by_cases hw : ∃ w, Derives g.productions g.root [] w
    · obtain ⟨w, hw⟩ := hw
      obtain ⟨w', hw', hww⟩ := hempty w hw
      rw [h.parse_iff.2 hw, h'.parse_iff.2 hw']
      exact .ok hww
    · rw [not_exists] at hw
      rw [h.parse_nil hw, h'.parse_nil fun w' hw' => (hempty' w' hw').elim hw]
      exact .error _
  | cons t ts =>
    by_cases hs : Starts g.productions g.root t.1
    · rw [h.parse_of_starts hs, h'.parse_of_starts ((hstarts _).1 hs)]
      exact henter t ts hs
    · rw [h.parse_of_not_starts hs, h'.parse_of_not_starts ((hstarts _).not.1 hs)]
      exact .error _

/-- Contexts under which values that `E` relates and up to `m` more tokens lead to like ends. -/
def Indistinct (E : V → V → Prop) (g g' : ValidGrammar V K) (m : Nat) (c c' : Context V) : Prop :=
  ∀ n v v' ts, E v v' → ts.length ≤ m → Alike E (g.proceed n v c ts) (g'.proceed n v' c' ts)

/-- Slots that `R` relates can start the same, have the same empty value, and are put together alike. -/
structure Matches (g g' : ValidGrammar V K) (R : Slot → Slot → Prop) : Prop where
  bounds : ∀ {s s'}, R s s' → s < g.size ∧ s' < g'.size
  starts : ∀ {s s' k}, R s s' → (Starts g.productions s k ↔ Starts g'.productions s' k)
  empty : ∀ {s s' v}, R s s' → (Derives g.productions s [] v ↔ Derives g'.productions s' [] v)
  mirrors : ∀ {s s' p}, R s s' → g.productions s = some p →
    ∃ p', g'.productions s' = some p' ∧ p.Mirrors R p'

theorem Matches.awaits_iff {R : Slot → Slot → Prop} {ts : List (K × V)} (hR : Matches g g' R) (hs : R s s') :
    g.Awaits s ts ↔ g'.Awaits s' ts := by
  simp only [Awaits, hR.starts hs]

namespace Indistinct

theorem top : Indistinct E g g' m (.top : Context V) .top := by
  intro n v v' ts hv _
  cases ts with
  | nil =>
    rw [proceed_nil, proceed_nil]
    exact .ok hv
  | cons t ts =>
    rw [proceed_cons, proceed_cons]
    exact .error _

theorem mono {l : Nat} (hc : Indistinct E g g' m c c') (hl : l ≤ m) : Indistinct E g g' l c c' :=
  fun n v v' ts hv hts => hc n v v' ts hv (Nat.le_trans hts hl)

theorem prepend {a a' : V} (hE : Homomorphic E) (hc : Indistinct E g g' m c c') (ha : E a a') :
    Indistinct E g g' m (c.push (.prepend a)) (c'.push (.prepend a')) :=
  fun n _ _ ts hv hts => hc n _ _ ts (hE ha hv) hts

theorem apply (hc : Indistinct E g g' m c c') (hf : f.Twin E f) :
    Indistinct E g g' m (c.push (.apply f)) (c'.push (.apply f)) := by
  intro n v v' ts hv hts
  rw [proceed_apply, proceed_apply]
  refine Alike.bind ?_ fun w w' hw => hc n w w' ts hw hts
  have happly := hf v v' hv
  simp only [Transformation.run]
  generalize f.apply v = r, f.apply v' = r' at happly ⊢
  cases happly with
  | ok hw => exact .ok hw
  | error e => exact .error _

end Indistinct

/-- What is entered at slots that match leads to like ends if the contexts do, for up to `m` more tokens. -/
def EntersAlike (E : V → V → Prop) (g g' : ValidGrammar V K) (R : Slot → Slot → Prop) (m : Nat) : Prop :=
  ∀ n s s' c c' t ts, R s s' → Starts g.productions s t.1 → ts.length ≤ m → Indistinct E g g' m c c' →
    Alike E (g.enter n s c t ts) (g'.enter n s' c' t ts)

section

variable {R : Slot → Slot → Prop} (h : g.Lawful) (h' : g'.Lawful) (hR : Matches g g' R)
  (hE : Congruence E g.Uses)
include h h' hR hE

/-- Parts that match may be pending under contexts that lead to like ends. -/
theorem Indistinct.followBy (henter : ∀ l < m, EntersAlike E g g' R l) (hs : R s s')
    (hc : Indistinct E g g' m c c') :
    Indistinct E g g' m (c.push (.followBy s)) (c'.push (.followBy s')) := by
  intro n v v' ts hv hts
  have hawaits : g.Awaits s ts ↔ g'.Awaits s' ts := hR.awaits_iff hs
  by_cases hts' : g.Awaits s ts
  · obtain ⟨t, us, rfl, hk⟩ := hts'
    have hlen : us.length < m := Nat.lt_of_succ_le hts
    rw [h.proceed_followBy_of_starts hk, h'.proceed_followBy_of_starts ((hR.starts hs).1 hk)]
    exact henter _ hlen n s s' _ _ t us hs hk (Nat.le_refl _) ((hc.mono hlen.le).prepend hE.homomorphic hv)
  · by_cases hw : ∃ w, Derives g.productions s [] w
    · obtain ⟨w, hw⟩ := hw
      rw [h.proceed_followBy_of_empty hw hts',
        h'.proceed_followBy_of_empty ((hR.empty hs).1 hw) (hawaits.not.1 hts')]
      exact hc n _ _ ts (hE.homomorphic hv (hE.equivalence.refl w)) hts
    · rw [not_exists] at hw
      rw [h.proceed_followBy_of_missing (hR.bounds hs).1 hw hts', h'.proceed_followBy_of_missing (hR.bounds hs).2
        (fun w => (hR.empty hs).not.1 (hw w)) (hawaits.not.1 hts')]
      exact .error _

/-- Slots that match can be entered alike, whatever follows. -/
theorem entersAlike (m : Nat) : EntersAlike E g g' R m := by
  induction m using Nat.strong_induction_on with
  | _ m ih =>
    intro n s s' c c' t ts hs hk hts hc
    obtain ⟨d, hd⟩ := h.exists_falls hk
    -- the way down is the same in both tables, and each step adds frames that match
    induction hd generalizing s' c c' with
    | element he =>
      obtain ⟨p', hp', hm⟩ := hR.mirrors hs he
      cases hm with
      | element =>
        rw [h.enter_of_element he, h'.enter_of_element hp']
        exact hc (n + 1) t.2 t.2 ts (hE.equivalence.refl _) hts
    | @step d s r hd _ ihd =>
      obtain ⟨c₁, hd⟩ := hd c
      have hk' := (hR.starts hs).1 hk
      rw [h.enter_of_descends hk hd]
      have hstarts := hd.starts
      cases hd with
      | left hp hl =>
        obtain ⟨p', hp', hm⟩ := hR.mirrors hs hp
        cases hm with
        | disjunction ha hb =>
          rw [h'.enter_of_descends hk' (.left hp' ((hR.starts ha).1 hl))]
          exact ihd _ _ _ ha hstarts hc
      | right hp hl hr =>
        obtain ⟨p', hp', hm⟩ := hR.mirrors hs hp
        cases hm with
        | disjunction ha hb =>
          rw [h'.enter_of_descends hk' (.right hp' ((hR.starts ha).not.1 hl) ((hR.starts hb).1 hr))]
          exact ihd _ _ _ hb hstarts hc
      | first hp hl =>
        obtain ⟨p', hp', hm⟩ := hR.mirrors hs hp
        cases hm with
        | sequence ha hb =>
          rw [h'.enter_of_descends hk' (.first hp' ((hR.starts ha).1 hl))]
          exact ihd _ _ _ ha hstarts (hc.followBy h h' hR hE ih hb)
      | second hp hl hv hr =>
        obtain ⟨p', hp', hm⟩ := hR.mirrors hs hp
        cases hm with
        | sequence ha hb =>
          rw [h'.enter_of_descends hk' (.second hp' ((hR.starts ha).not.1 hl) ((hR.empty ha).1 hv)
            ((hR.starts hb).1 hr))]
          exact ihd _ _ _ hb hstarts (hc.prepend hE.homomorphic (hE.equivalence.refl _))
      | transform hp hi =>
        obtain ⟨p', hp', hm⟩ := hR.mirrors hs hp
        cases hm with
        | transform ha =>
          rw [h'.enter_of_descends hk' (.transform hp' ((hR.starts ha).1 hi))]
          exact ihd _ _ _ ha hstarts (hc.apply (hE.transform ⟨_, _, hp⟩))

end

end ValidGrammar
end Predictive
