import Predictive.Zipper.Fold
import Predictive.Proofs.Zipper.Descent

/-!
The way down to the element that takes a token has an end, and nothing stops the way out again but a transformation that
gives up.
-/
namespace Predictive

variable {V K : Type} [Kind K]

namespace ValidGrammar

/-- The slots that are met from `s` on, round after round, until the cursor `f` is found. -/
inductive Route (g : ValidGrammar V K) (k : K) : Slot → Context V → List Slot → Focus V K → Prop
  | stop {s c f} : g.round k s c = .ok (.inl f) → Route g k s c [s] f
  | step {s t c c' route f} : g.round k s c = .ok (.inr (t, c')) → Route g k t c' route f → Route g k s c (s :: route) f

/-- A transformation of the table gives up with this fault. -/
def Fails (g : ValidGrammar V K) (e : ParseFault K) : Prop :=
  ∃ s f i v text, g.productions s = some (.transform f i) ∧ f.apply v = .error text ∧ e = .failed text

/-- The result is as `P` says, unless a transformation gives up. -/
def Safe {α : Type} (g : ValidGrammar V K) (P : α → Prop) : Except (ParseFault K) α → Prop
  | .ok a => P a
  | .error e => g.Fails e

end ValidGrammar

/-- The slots that a frame names are in the table, and so is its transformation. -/
def Frame.Grounded (g : ValidGrammar V K) : Frame V → Prop
  | followBy next => next < g.size
  | prepend _ => True
  | apply f => ∃ s i, g.productions s = some (.transform f i)

def Context.All (Q : Frame V → Prop) : Context V → Prop
  | .top => True
  | .push frame c => Q frame ∧ All Q c

def Fold.All (Q : Frame V → Prop) : Fold V → Prop
  | done _ => True
  | suspended s => (s.context.push (.followBy s.next)).All Q

/-- The frames that are added on the way down are as `Q` says, and all that are so are grounded. -/
structure ValidGrammar.Keeps (g : ValidGrammar V K) (Q : Frame V → Prop) : Prop where
  grounded : ∀ ⦃frame⦄, Q frame → frame.Grounded g
  followBy : ∀ ⦃s l r k⦄, g.productions s = some (.sequence l r) → Starts g.productions s k → Q (.followBy r)
  prepend : ∀ v, Q (.prepend v)
  apply : ∀ ⦃s f i⦄, g.productions s = some (.transform f i) → Q (.apply f)

variable {g : ValidGrammar V K} {k : K} {s t : Slot} {c c' : Context V} {f : Focus V K} {route : List Slot} {n : Nat}
  {Q : Frame V → Prop}

namespace ValidGrammar

/-- A round that finds a cursor is one at an element that takes the token. -/
theorem cursor_of_round (h : g.round k s c = .ok (.inl f)) :
    f = ⟨s, k, c⟩ ∧ ∃ e, g.entry s = .ok e ∧ e.form = .element k := by
  rw [round] at h
  cases he : g.entry s with
  | error e => simp [he, bind, Except.bind] at h
  | ok e =>
    simp only [he, bind, Except.bind] at h
    cases hform : e.form with
    | element j =>
      by_cases hj : j = k
      · simp only [hform, if_pos hj, pure, Except.pure, Except.ok.injEq, Sum.inl.injEq] at h
        exact ⟨by rw [← h, hj], e, rfl, by rw [hform, hj]⟩
      · simp [hform, if_neg hj, throw, throwThe, MonadExceptOf.throw] at h
    | success v => simp [hform, throw, throwThe, MonadExceptOf.throw] at h
    | disjunction l r =>
      simp only [hform] at h
      cases hl : g.acceptsAt l k with
      | error e => simp [hl] at h
      | ok b => cases b <;> simp [hl, pure, Except.pure] at h
    | sequence l r =>
      simp only [hform] at h
      split at h
      · cases h
      · split at h
        · split at h <;> cases h
        · cases h
    | transform f i => simp [hform, pure, Except.pure] at h

/-- No round is made at a success. -/
theorem form_of_round {r : Focus V K ⊕ Slot × Context V} (h : g.round k s c = .ok r) :
    ∃ e, g.entry s = .ok e ∧ ∀ v, e.form ≠ .success v := by
  rw [round] at h
  cases he : g.entry s with
  | error e => simp [he, bind, Except.bind] at h
  | ok e =>
    refine ⟨e, rfl, fun v hv => ?_⟩
    simp [he, bind, Except.bind, hv, throw, throwThe, MonadExceptOf.throw] at h

/-- The route ends at an element that takes the token, and no slot on it is a success. -/
theorem Route.ends (h : g.Route k s c route f) :
    (route.getLast? = some f.leaf ∧ f.kind = k ∧ ∃ e, g.entry f.leaf = .ok e ∧ e.form = .element k) ∧
      ∀ t ∈ route, ∃ e, g.entry t = .ok e ∧ ∀ v, e.form ≠ .success v := by
  induction h with
  | stop hr =>
    obtain ⟨rfl, hleaf⟩ := cursor_of_round hr
    exact ⟨⟨rfl, rfl, hleaf⟩, fun t ht => List.mem_singleton.1 ht ▸ form_of_round hr⟩
  | @step s t c c' route f hr hroute ih =>
    obtain ⟨⟨hlast, hleaf⟩, hform⟩ := ih
    refine ⟨⟨?_, hleaf⟩, List.forall_mem_cons.2 ⟨form_of_round hr, hform⟩⟩
    rw [List.getLast?_cons, hlast]
    rfl

/-- The descent takes the route, whatever its bound is, if that is not below the length of the route. -/
theorem Route.descend (h : g.Route k s c route f) (hn : route.length ≤ n) : g.descend k n s c = .ok f := by
  induction h generalizing n with
  | stop hr =>
    cases n with
    | zero => simp at hn
    | succ n =>
      rw [g.descend_succ, hr]
      rfl
  | step hr _ ih =>
    cases n with
    | zero => simp at hn
    | succ n =>
      rw [g.descend_succ, hr]
      exact ih (Nat.le_of_succ_le_succ hn)

theorem Safe.bind {α β : Type} {P : α → Prop} {Q : β → Prop} {r : Except (ParseFault K) α}
    {w : α → Except (ParseFault K) β} (h : g.Safe P r) (hw : ∀ a, P a → g.Safe Q (w a)) : g.Safe Q (r.bind w) := by
  cases r with
  | error e => exact h
  | ok a => exact hw a h

/-- A transformation of the table gives a value when it is run, or gives up. -/
theorem safe_run {f : Transformation V} (hf : (Frame.apply f).Grounded g) (v : V) :
    g.Safe (fun _ => True) (f.run v) := by
  obtain ⟨s, i, hs⟩ := hf
  rw [Transformation.run]
  cases hv : f.apply v with
  | ok w => trivial
  | error text => exact ⟨s, f, i, v, text, hs, hv, rfl⟩

variable [Value V]

omit [Kind K] in
theorem unwind_apply (v : V) (f : Transformation V) (c : Context V) :
    (unwind v (c.push (.apply f)) : Except (ParseFault K) (Fold V)) = (f.run v).bind fun w => unwind w c := by
  rw [unwind]
  cases f.run v (K := K) <;> rfl

theorem seek_apply (v : V) (f : Transformation V) (c : Context V) :
    g.seek k v (c.push (.apply f)) = (f.run v).bind fun w => g.seek k w c := by
  rw [seek]
  cases f.run v (K := K) <;> rfl

theorem close_apply (v : V) (f : Transformation V) (c : Context V) :
    g.close v (c.push (.apply f)) = (f.run v).bind fun w => g.close w c := by
  rw [close]
  cases f.run v (K := K) <;> rfl

theorem seek_followBy (v : V) (next : Slot) (c : Context V) :
    g.seek k v (c.push (.followBy next)) = (g.entry next).bind fun e =>
      if e.first.contains k then .ok (some (next, c.push (.prepend v)))
      else e.emptyValue.elim (.ok none) fun w => g.seek k (prepend v w) c := by
  rw [seek]
  cases g.entry next with
  | error e => rfl
  | ok e => cases hv : e.emptyValue <;> simp [Except.bind, hv]

theorem close_followBy (v : V) (next : Slot) (c : Context V) :
    g.close v (c.push (.followBy next)) = (g.entry next).bind fun e =>
      e.emptyValue.elim (.ok none) fun w => g.close (prepend v w) c := by
  rw [close]
  cases g.entry next with
  | error e => rfl
  | ok e => cases hv : e.emptyValue <;> simp [Except.bind, hv]

section

variable (hQ : g.Keeps Q)
include hQ

/-- Folding outwards goes through transformations of the table only. -/
theorem safe_unwind (hc : c.All Q) (v : V) : g.Safe (Fold.All Q) (unwind v c) := by
  induction c generalizing v with
  | top => trivial
  | push frame c ih =>
    obtain ⟨hframe, hc⟩ := hc
    cases frame with
    | prepend left => exact ih hc _
    | apply f =>
      rw [unwind_apply]
      exact (safe_run (hQ.grounded hframe) v).bind fun w _ => ih hc w
    | followBy next => exact ⟨hframe, hc⟩

/-- What is found for a token takes it, and is in the table like its context. -/
theorem safe_seek (hc : c.All Q) (v : V) :
    g.Safe (fun r => ∀ p, r = some p → g.acceptsAt p.1 k = .ok true ∧ p.2.All Q) (g.seek k v c) := by
  induction c generalizing v with
  | top => exact fun p hp => nomatch hp
  | push frame c ih =>
    obtain ⟨hframe, hc⟩ := hc
    cases frame with
    | prepend left => exact ih hc _
    | apply f =>
      rw [seek_apply]
      exact (safe_run (hQ.grounded hframe) v).bind fun w _ => ih hc w
    | followBy next =>
      obtain ⟨e, he, -⟩ := exists_entry (hQ.grounded hframe)
      rw [seek_followBy, entry_of_get he, Except.bind]
      by_cases hk : e.first.contains k = true
      · rw [if_pos hk]
        rintro p hp
        cases hp
        refine ⟨?_, hQ.prepend v, hc⟩
        rw [acceptsAt, entry_of_get he, Except.map, hk]
      · rw [if_neg hk]
        cases e.emptyValue with
        | none => exact fun p hp => nomatch hp
        | some w => exact ih hc _

theorem safe_close (hc : c.All Q) (v : V) : g.Safe (fun _ => True) (g.close v c) := by
  induction c generalizing v with
  | top => trivial
  | push frame c ih =>
    obtain ⟨hframe, hc⟩ := hc
    cases frame with
    | prepend left => exact ih hc _
    | apply f =>
      rw [close_apply]
      exact (safe_run (hQ.grounded hframe) v).bind fun w _ => ih hc w
    | followBy next =>
      obtain ⟨e, he, -⟩ := exists_entry (hQ.grounded hframe)
      rw [close_followBy, entry_of_get he, Except.bind]
      cases e.emptyValue with
      | none => trivial
      | some w => exact ih hc _

theorem safe_finish {d : Fold V} (hd : d.All Q) : g.Safe (fun _ => True) (d.finish g) := by
  cases d with
  | done v => trivial
  | suspended s => exact safe_close hQ hd s.value

/-- What the frames of a context have in common is kept on the way down. -/
theorem all_of_descends (hd : Descends g.productions k s c t c') (hs : Starts g.productions s k)
    (hc : c.All Q) : c'.All Q := by
  cases hd with
  | left | right => exact hc
  | first hp => exact ⟨hQ.followBy hp hs, hc⟩
  | second => exact ⟨hQ.prepend _, hc⟩
  | transform hp => exact ⟨hQ.apply hp, hc⟩

end

namespace Lawful

variable (h : g.Lawful)
include h

theorem starts_of_acceptsAt (hk : g.acceptsAt s k = .ok true) : Starts g.productions s k := by
  rw [acceptsAt, ValidGrammar.entry] at hk
  cases he : g.entries[s]? with
  | none => simp [he, Except.map] at hk
  | some e =>
    simp only [he, Except.map, Except.ok.injEq] at hk
    exact (h.first s e he k).1 (FinSet.contains_iff_mem.1 hk)

theorem keeps_grounded : g.Keeps (Frame.Grounded g) where
  grounded _ h := h
  followBy _ _ _ _ hs _ := h.lt_of_part hs (List.mem_cons_of_mem _ (List.mem_cons_self ..))
  prepend _ := trivial
  apply _ _ _ hs := ⟨_, _, hs⟩

/-- Each slot on the way down is nearer to the element than the slots before it, so none of them is met again. -/
theorem route_of_falls (hn : Falls g.productions k n s) (hs : Starts g.productions s k) (c : Context V) :
    ∃ route f, g.Route k s c route f ∧ route.Nodup ∧ route.length = n + 1 ∧
      (∀ t ∈ route, ∃ m ≤ n, Falls g.productions k m t) ∧ ∀ Q, g.Keeps Q → c.All Q → f.context.All Q := by
  induction hn generalizing c with
  | @element s he =>
    obtain ⟨e, hentry, hf⟩ := entry_of_form (.element _) he
    have hround : g.round k s c = .ok (.inl ⟨s, k, c⟩) := by
      simp [round, bind, Except.bind, pure, Except.pure, hentry, hf]
    refine ⟨[s], ⟨s, k, c⟩, .stop hround, List.nodup_singleton s, rfl, fun t ht => ?_, fun _ _ hc => hc⟩
    obtain rfl := List.mem_singleton.1 ht
    exact ⟨0, Nat.le_refl 0, .element he⟩
  | @step n s t hd hn ih =>
    obtain ⟨c', hc'⟩ := hd c
    obtain ⟨route, f, hroute, hnodup, hlength, hfalls, hall⟩ := ih hc'.starts c'
    refine ⟨s :: route, f, .step (h.round_of_descends hc') hroute, List.nodup_cons.2 ⟨fun hs => ?_, hnodup⟩,
      congrArg (· + 1) hlength, fun u hu => ?_, fun Q hQ hc => hall Q hQ (all_of_descends hQ hc' hs hc)⟩
    · obtain ⟨m, hm, hs⟩ := hfalls s hs
      have heq := hs.unique (.step hd hn)
      omega
    · rcases List.mem_cons.1 hu with rfl | hu
      · exact ⟨n + 1, Nat.le_refl _, .step hd hn⟩
      · obtain ⟨m, hm, hu⟩ := hfalls u hu
        exact ⟨m, Nat.le_succ_of_le hm, hu⟩

/-- Where a token is accepted the descent finds the element that takes it. -/
theorem exists_route (hk : g.acceptsAt s k = .ok true) (c : Context V) :
    ∃ route f, g.Route k s c route f ∧ g.focusAt s k c = .ok f ∧ route.Nodup ∧ route.length ≤ g.size ∧
      ∀ Q, g.Keeps Q → c.All Q → f.context.All Q := by
  have hs := h.starts_of_acceptsAt hk
  obtain ⟨n, hn⟩ := h.exists_falls hs
  obtain ⟨route, f, hroute, hnodup, hlength, -, hall⟩ := h.route_of_falls hn hs c
  have hlt := lt_size_of_falls hn
  have hsize : route.length ≤ g.size := by omega
  refine ⟨route, f, hroute, ?_, hnodup, hsize, hall⟩
  rw [focusAt, hk]
  exact hroute.descend hsize

variable (hQ : g.Keeps Q)
include hQ

theorem safe_focusAt (hk : g.acceptsAt s k = .ok true) (hc : c.All Q) :
    g.Safe (fun f => f.kind = k ∧ f.context.All Q) (g.focusAt s k c) := by
  obtain ⟨route, f, hroute, hf, -, -, hall⟩ := h.exists_route hk c
  rw [hf]
  exact ⟨hroute.ends.1.2.1, hall Q hQ hc⟩

theorem safe_resume {d : Fold V} (hd : d.All Q) (k : K) :
    g.Safe (fun r => ∀ f, r = some f → f.kind = k ∧ f.context.All Q) (d.resume g k) := by
  cases d with
  | done v => exact fun f hf => nomatch hf
  | suspended s =>
    refine (safe_seek hQ hd s.value).bind fun r hr => ?_
    cases r with
    | none => exact fun f hf => nomatch hf
    | some p =>
      obtain ⟨hk, hc⟩ := hr p rfl
      refine (h.safe_focusAt hQ hk hc).bind fun f hf f' hf' => ?_
      cases hf'
      exact hf

end Lawful
end ValidGrammar
end Predictive
