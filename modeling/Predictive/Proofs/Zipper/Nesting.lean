import Predictive.Proofs.Iteration
import Predictive.Proofs.Zipper.Composition

/-!
A parse that goes on inside another one. What a table does alone, a table whose slots match does inside a context, with the
frames of the context around its own. A part that comes again is parsed each time inside one frame more: the one for the
items that are complete takes the place of the one that was pending, and another one is pending behind the new item.
-/
namespace Predictive

variable {V K : Type}

theorem Context.depth_append {c d : Context V} : (c ++ d).depth = c.depth + d.depth := by
  induction d with
  | top =>
    rw [append_top, Context.depth]
    rfl
  | push frame d ih =>
    rw [append_push, Context.depth, Context.depth, ih]
    rfl

theorem Context.pending_append {c d : Context V} : (c ++ d).pending = d.pending ++ c.pending := by
  induction d with
  | top => rfl
  | push frame d ih =>
    rw [append_push]
    cases frame with
    | followBy next => exact congrArg (next :: ·) ih
    | prepend left => exact ih
    | apply f => exact ih

theorem Focus.depth_inside {c : Context V} {f : Focus V K} : (f.inside c).depth = c.depth + f.depth :=
  Context.depth_append

/-- Contexts with frames that match one by one. -/
inductive Context.Matches (R : Slot → Slot → Prop) : Context V → Context V → Prop
  | top : Matches R .top .top
  | followBy {s s' : Slot} {c c' : Context V} : R s s' → Matches R c c' →
      Matches R (c.push (.followBy s)) (c'.push (.followBy s'))
  | prepend {left : V} {c c' : Context V} : Matches R c c' →
      Matches R (c.push (.prepend left)) (c'.push (.prepend left))
  | apply {f : Transformation V} {c c' : Context V} : Matches R c c' →
      Matches R (c.push (.apply f)) (c'.push (.apply f))

/-- Folds that have come to the same value, and wait for the same in contexts that match. -/
inductive Fold.Matches (R : Slot → Slot → Prop) : Fold V → Fold V → Prop
  | done {v : V} : Matches R (.done v) (.done v)
  | suspended {v : V} {s s' : Slot} {c c' : Context V} : R s s' → c.Matches R c' →
      Matches R (.suspended ⟨v, s, c⟩) (.suspended ⟨v, s', c'⟩)

section Parts

variable {G : Productions V K} {k : K} {ss ss' : List Nat} {i j : Nat}

theorem Meets.append (hn : ∀ s ∈ ss, Nullable G s) (h : Meets G k ss' i) : Meets G k (ss ++ ss') (ss.length + i) := by
  induction ss with
  | nil => simpa using h
  | cons s ss ih =>
    obtain ⟨hs, hss⟩ := List.forall_mem_cons.1 hn
    have hlater : Meets G k (s :: (ss ++ ss')) (ss.length + i + 1) := .later hs (ih hss)
    rw [List.length_cons, Nat.add_right_comm]
    exact hlater

theorem Meets.extend (h : Meets G k ss i) : Meets G k (ss ++ ss') i := by
  induction h with
  | here hs => exact .here hs
  | later hn _ ih => exact .later hn ih

theorem Meets.lt_length (h : Meets G k ss i) : i < ss.length := by
  induction h with
  | here => exact Nat.succ_pos _
  | later _ _ ih => exact Nat.succ_lt_succ ih

/-- Where parts that may be empty are followed by one that receives a token, none of them receives it. -/
theorem Apart.not_meets (h : Apart G (ss ++ ss')) (hn : ∀ s ∈ ss, Nullable G s) (hi : Meets G k ss' i) :
    ¬Meets G k ss j := by
  intro hj
  have heq := h.unique (Meets.append hn hi) hj.extend
  have hlt := hj.lt_length
  omega

end Parts

theorem Context.Matches.depth_eq {R : Slot → Slot → Prop} {c c' : Context V} (h : c.Matches R c') : c.depth = c'.depth := by
  induction h with
  | top => rfl
  | followBy _ _ ih | prepend _ ih | apply _ ih => rw [Context.depth, Context.depth, ih]

variable [Value V]

theorem Context.Matches.unwind {R : Slot → Slot → Prop} {c c' : Context V} {v : V} {d : Fold V} (h : c.Matches R c')
    (hd : Predictive.unwind v c = (.ok d : Except (ParseFault K) (Fold V))) :
    ∃ d', Predictive.unwind v c' = (.ok d' : Except (ParseFault K) (Fold V)) ∧ d.Matches R d' := by
  induction h generalizing v with
  | top =>
    cases hd
    exact ⟨_, rfl, .done⟩
  | followBy hs hc =>
    cases hd
    exact ⟨_, rfl, .suspended hs hc⟩
  | prepend _ ih => exact ih hd
  | apply _ ih =>
    rw [ValidGrammar.unwind_apply] at hd ⊢
    obtain ⟨w, hw, hd⟩ := exists_of_bind hd
    rw [hw]
    exact ih hd

/-- If a part is pending around, what is complete inside waits for it. -/
theorem Fold.exists_inside {c : Context V} {b : Slot} (d : Fold V) :
    ∃ e, d.inside (c.push (.followBy b)) = (.ok e : Except (ParseFault K) (Fold V)) := by
  cases d <;> exact ⟨_, rfl⟩

theorem Fold.pending_of_inside {c : Context V} {d e : Fold V}
    (h : d.inside c = (.ok e : Except (ParseFault K) (Fold V))) : e.pending = d.pending ++ c.pending := by
  cases d with
  | done w => exact pending_of_unwind h
  | suspended s =>
    cases h
    exact congrArg (s.next :: ·) Context.pending_append

namespace ValidGrammar

variable [Kind K] {g g' : ValidGrammar V K} {R : Slot → Slot → Prop} {k : K} {s s' : Slot} {c c' : Context V} {v w : V}

namespace Lawful

variable (h : g.Lawful)
include h

/-- All that is closed may be empty. -/
theorem nullable_of_close (hc : g.close v c = .ok (some w)) : ∀ s ∈ c.pending, Nullable g.productions s := by
  induction c generalizing v with
  | top => simp [Context.pending]
  | push frame c ih =>
    cases frame with
    | prepend left => exact ih hc
    | apply f =>
      rw [close_apply] at hc
      obtain ⟨u, -, hc⟩ := exists_of_bind hc
      exact ih hc
    | followBy next =>
      rw [close_followBy] at hc
      obtain ⟨e, he, hc⟩ := exists_of_bind hc
      cases hempty : e.emptyValue with
      | none => simp [hempty] at hc
      | some u =>
        rw [hempty] at hc
        refine List.forall_mem_cons.2 ⟨(h.nullable next e (get_of_entry he)).1 (by simp [hempty]), ih hc⟩

/-- What can be closed takes a token, or is closed before it. -/
theorem seek_of_close (hc : g.close v c = .ok (some w)) :
    (∃ i, Meets g.productions k c.pending i) ∨ g.seek k v c = .ok none := by
  induction c generalizing v with
  | top => exact .inr rfl
  | push frame c ih =>
    cases frame with
    | prepend left => exact ih hc
    | apply f =>
      rw [close_apply] at hc
      rw [seek_apply]
      obtain ⟨u, hu, hc⟩ := exists_of_bind hc
      rw [hu]
      exact ih hc
    | followBy next =>
      rw [close_followBy] at hc
      rw [seek_followBy]
      obtain ⟨e, he, hc⟩ := exists_of_bind hc
      have hget := get_of_entry he
      by_cases hk : e.first.contains k
      · exact .inl ⟨0, .here ((h.first next e hget k).1 (FinSet.contains_iff_mem.1 hk))⟩
      · cases hempty : e.emptyValue with
        | none => simp [hempty] at hc
        | some u =>
          rw [hempty] at hc
          rw [he, Except.bind, if_neg hk, hempty]
          rcases ih hc with ⟨i, hi⟩ | hnone
          · exact .inl ⟨i + 1, .later ((h.nullable next e hget).1 (by simp [hempty])) hi⟩
          · exact .inr hnone

/-- What may end takes a token, or takes none and all that is pending is closed. -/
theorem resume_of_finish {d : Fold V} (hd : d.finish g = .ok (some w)) :
    (∃ i, Meets g.productions k d.pending i) ∨ d.resume g k = .ok none := by
  cases d with
  | done v => exact .inr rfl
  | suspended s =>
    refine (h.seek_of_close hd).imp id fun hnone => ?_
    rw [resume_eq, Fold.seek, hnone]
    rfl

theorem nullable_of_finish {d : Fold V} (hd : d.finish g = .ok (some w)) : ∀ s ∈ d.pending, Nullable g.productions s := by
  cases d with
  | done v => simp [Fold.pending]
  | suspended s => exact h.nullable_of_close hd

theorem starts_of_focusAt {f : Focus V K} (hf : g.focusAt s k c = .ok f) : Starts g.productions s k := by
  obtain ⟨a, ha, hdown⟩ := exists_of_bind hf
  cases a with
  | false => cases hdown
  | true => exact h.starts_of_acceptsAt ha

/-- A pending part that can start with a token takes it. -/
theorem resume_of_starts (hs : Starts g.productions s k) :
    ((unwind v (c.push (.followBy s))).bind fun d => d.resume g k) = (g.focusAt s k (c.push (.prepend v))).map some := by
  obtain ⟨e, he, -⟩ := exists_entry (lt_of_starts hs)
  have hmem := FinSet.contains_iff_mem.2 ((h.first s e he k).2 hs)
  rw [unwind_resume, seek_followBy, entry_of_get he, Except.bind, if_pos hmem]
  rfl

end Lawful

/-- Where one way down goes, the other one does. -/
theorem Matches.descends {t : Slot} {d : Context V} (hR : Matches g g' R) (hs : R s s') (hc : c.Matches R c')
    (hd : Descends g.productions k s c t d) :
    ∃ t' d', Descends g'.productions k s' c' t' d' ∧ R t t' ∧ d.Matches R d' := by
  cases hd with
  | left hp hl =>
    obtain ⟨p', hp', hm⟩ := hR.mirrors hs hp
    cases hm with
    | disjunction ha hb => exact ⟨_, _, .left hp' ((hR.starts ha).1 hl), ha, hc⟩
  | right hp hl hr =>
    obtain ⟨p', hp', hm⟩ := hR.mirrors hs hp
    cases hm with
    | disjunction ha hb => exact ⟨_, _, .right hp' ((hR.starts ha).not.1 hl) ((hR.starts hb).1 hr), hb, hc⟩
  | first hp hl =>
    obtain ⟨p', hp', hm⟩ := hR.mirrors hs hp
    cases hm with
    | sequence ha hb => exact ⟨_, _, .first hp' ((hR.starts ha).1 hl), ha, hc.followBy hb⟩
  | second hp hl hv hr =>
    obtain ⟨p', hp', hm⟩ := hR.mirrors hs hp
    cases hm with
    | sequence ha hb =>
      exact ⟨_, _, .second hp' ((hR.starts ha).not.1 hl) ((hR.empty ha).1 hv) ((hR.starts hb).1 hr), hb, hc.prepend⟩
  | transform hp hi =>
    obtain ⟨p', hp', hm⟩ := hR.mirrors hs hp
    cases hm with
    | transform ha => exact ⟨_, _, .transform hp' ((hR.starts ha).1 hi), ha, hc.apply⟩

section Matching

variable (h : g.Lawful) (h' : g'.Lawful) (hR : Matches g g' R)
include h h' hR

/-- Slots that match have the same facts. -/
theorem Matches.exists_entries (hs : R s s') : ∃ e e', g.entry s = .ok e ∧ g'.entry s' = .ok e' ∧
    (∀ k, e.first.contains k = e'.first.contains k) ∧ e.emptyValue = e'.emptyValue := by
  obtain ⟨e, he, -⟩ := exists_entry (hR.bounds hs).1
  obtain ⟨e', he', -⟩ := exists_entry (hR.bounds hs).2
  refine ⟨e, e', entry_of_get he, entry_of_get he', fun k => ?_, Option.ext fun v => ?_⟩
  · rw [Bool.eq_iff_iff, FinSet.contains_iff_mem, FinSet.contains_iff_mem, h.first s e he, h'.first s' e' he']
    exact hR.starts hs
  · rw [h.emptyValue_iff he, h'.emptyValue_iff he']
    exact hR.empty hs

theorem Matches.focusAt {f : Focus V K} (hs : R s s') (hc : c.Matches R c') (hf : g.focusAt s k c = .ok f) :
    ∃ f', g'.focusAt s' k c' = .ok f' ∧ f'.kind = f.kind ∧ f.context.Matches R f'.context := by
  have hk := h.starts_of_focusAt hf
  obtain ⟨n, hn⟩ := h.exists_falls hk
  induction hn generalizing s' c c' with
  | element he =>
    obtain ⟨p', hp', hm⟩ := hR.mirrors hs he
    cases hm with
    | element =>
      cases hf.symm.trans (h.focusAt_of_element he)
      exact ⟨_, h'.focusAt_of_element hp', rfl, hc⟩
  | step hd _ ih =>
    obtain ⟨d, hd⟩ := hd c
    obtain ⟨t', d', hd', ht, hdd⟩ := hR.descends hs hc hd
    rw [h.focusAt_of_descends hk hd] at hf
    rw [h'.focusAt_of_descends ((hR.starts hs).1 hk) hd']
    exact ih ht hdd hf hd.starts

theorem Matches.close_eq (hc : c.Matches R c') : g.close v c = g'.close v c' := by
  induction hc generalizing v with
  | top => rfl
  | followBy hs _ ih =>
    obtain ⟨e, e', he, he', -, hempty⟩ := hR.exists_entries h h' hs
    rw [close_followBy, close_followBy, he, he', Except.bind, Except.bind, hempty]
    cases e'.emptyValue with
    | none => rfl
    | some u => exact ih
  | prepend _ ih => exact ih
  | apply _ ih =>
    rw [close_apply, close_apply]
    exact congrArg _ (funext fun u => ih)

theorem Matches.seek {t : Slot} {d : Context V} (hc : c.Matches R c') (hseek : g.seek k v c = .ok (some (t, d))) :
    ∃ t' d', g'.seek k v c' = .ok (some (t', d')) ∧ R t t' ∧ d.Matches R d' := by
  induction hc generalizing v with
  | top => cases hseek
  | followBy hs hc ih =>
    obtain ⟨e, e', he, he', hfirst, hempty⟩ := hR.exists_entries h h' hs
    rw [seek_followBy, he, Except.bind, hfirst] at hseek
    rw [seek_followBy, he', Except.bind]
    split at hseek
    · rename_i hk
      cases hseek
      rw [if_pos hk]
      exact ⟨_, _, rfl, hs, hc.prepend⟩
    · rename_i hk
      rw [if_neg hk, ← hempty]
      cases hw : e.emptyValue with
      | none =>
        rw [hw] at hseek
        cases hseek
      | some u =>
        rw [hw] at hseek
        exact ih hseek
  | prepend _ ih => exact ih hseek
  | apply _ ih =>
    rw [seek_apply] at hseek ⊢
    obtain ⟨u, hu, hseek⟩ := exists_of_bind hseek
    rw [hu]
    exact ih hseek

theorem Matches.resume {d d' : Fold V} {f : Focus V K} (hd : d.Matches R d') (hf : d.resume g k = .ok (some f)) :
    ∃ f', d'.resume g' k = .ok (some f') ∧ f'.kind = f.kind ∧ f.context.Matches R f'.context := by
  obtain ⟨t, c, hr, hfocus⟩ := exists_of_resume hf
  cases hd with
  | done => cases hr
  | suspended hs hc =>
    obtain ⟨t', c', hseek, ht, hcc⟩ := hR.seek h h' (hc.followBy hs) hr
    obtain ⟨f', hf', hmatch⟩ := hR.focusAt h h' ht hcc hfocus
    refine ⟨f', ?_, hmatch⟩
    rw [resume_eq, Fold.seek, hseek, Except.bind, Option.elim_some, hf']
    rfl

theorem Matches.finish_eq {d d' : Fold V} (hd : d.Matches R d') : d.finish g = d'.finish g' := by
  cases hd with
  | done => rfl
  | suspended hs hc => exact hR.close_eq h h' (hc.followBy hs)

end Matching

open ParseState

variable {p q : ParseState V} {C : Context V} {b : Slot} {t : K × V} {ts : List (K × V)}

/-- Where the parse `p` takes a token, `q` takes it, too, with the frames of `C` around. -/
def Tracks (g g' : ValidGrammar V K) (R : Slot → Slot → Prop) (C : Context V) (p q : ParseState V) : Prop :=
  ∀ k f, p.focus g k = .ok (some f) → ∃ f' : Focus V K, q.focus g' k = .ok (some (f'.inside C)) ∧ f'.kind = f.kind ∧
    f.context.Matches R f'.context

/-- What `p` has come to, `q` has come to inside `C`. -/
def Nests (R : Slot → Slot → Prop) (C : Context V) (p q : ParseState V) (K : Type) : Prop :=
  ∃ d d' e, p.fold = some d ∧ d.Matches R d' ∧ d'.inside C = (.ok e : Except (ParseFault K) (Fold V)) ∧ q.fold = some e

/-- A part that is taken alone from the root of `g` comes again and again in `g'`: the slots of `B` are rounds of it, or
may be left out. -/
def Loops (g g' : ValidGrammar V K) (R : Slot → Slot → Prop) (B : Slot → Prop) : Prop :=
  ∀ b, B b → Nullable g'.productions b ∧ ∃ l r s b', g'.productions b = some (.disjunction l r) ∧
    g'.productions l = some (.sequence s b') ∧ R g.root s ∧ B b'

theorem Tracks.feed {p' : ParseState V} (h : Tracks g g' R (c.push (.followBy b)) p q) (hq : q.limits = .unbounded)
    (hfeed : p.feed g t = .ok p') :
    ∃ q', q.feed g' t = .ok q' ∧ q'.limits = .unbounded ∧ Nests R (c.push (.followBy b)) p' q' K := by
  obtain ⟨f, d, hf, hd, rfl⟩ := exists_of_feed hfeed
  obtain ⟨f', hf', hkind, hmatch⟩ := h t.1 f hf
  rw [Focus.advance] at hd
  split at hd
  · rename_i hk
    obtain ⟨d', hd', hdd⟩ := hmatch.unwind hd
    obtain ⟨e, he⟩ := d'.exists_inside (K := K) (c := c) (b := b)
    have hkind' : t.1 = (f'.inside (c.push (.followBy b))).kind := hk.trans hkind.symm
    have hadvance : (f'.inside (c.push (.followBy b))).advance t = .ok e := by
      rw [Focus.advance, if_pos hkind', Focus.fold, Focus.inside, unwind_append, hd']
      exact he
    refine ⟨q.next e, ?_, hq, d, d', e, rfl, hdd, he, rfl⟩
    rw [feed_unbounded hq, hf']
    change (lift ((f'.inside (c.push (.followBy b))).advance t)).bind _ = _
    rw [hadvance]
    rfl
  · cases hd

theorem focus_start {l : Limits} {f : Focus V K} :
    (start l : ParseState V).focus g k = .ok (some f) ↔ g.focusAt g.root k .top = .ok f := by
  simp only [ParseState.focus, start, accepts, focus, focusAt, bind, Except.bind, pure, Except.pure]
  cases g.acceptsAt g.root k with
  | error e => simp
  | ok a => cases a with
    | false => simp
    | true => cases g.descend k g.size g.root .top <;> simp

section Tracking

variable (h : g.Lawful) (h' : g'.Lawful) (hR : Matches g g' R)
include h h' hR

theorem Nests.tracks (hn : Nests R C p q K) : Tracks g g' R C p q := by
  obtain ⟨d, d', e, hp, hdd, he, hq⟩ := hn
  intro k f hf
  simp only [ParseState.focus, hp] at hf
  obtain ⟨f', hf', hmatch⟩ := hR.resume h h' hdd hf
  refine ⟨f', ?_, hmatch⟩
  have hinside := resume_inside (g := g') (k := k) C d'
  rw [he, hf'] at hinside
  simp only [ParseState.focus, hq]
  exact hinside

/-- While the one parse goes on, the other one does. -/
theorem Tracks.feedAll {p' : ParseState V} (ht : Tracks g g' R (c.push (.followBy b)) p q) (hq : q.limits = .unbounded)
    (hfeed : p.feedAll g ts = .ok p') :
    ∃ q', q.feedAll g' ts = .ok q' ∧ q'.limits = .unbounded ∧ Tracks g g' R (c.push (.followBy b)) p' q' ∧
      (ts ≠ [] → Nests R (c.push (.followBy b)) p' q' K) := by
  induction ts generalizing p q with
  | nil =>
    cases hfeed
    exact ⟨q, rfl, hq, ht, fun hne => absurd rfl hne⟩
  | cons t ts ih =>
    obtain ⟨p₁, hp₁, hrest⟩ := exists_of_bind hfeed
    obtain ⟨q₁, hq₁, hlimits, hn⟩ := ht.feed hq hp₁
    obtain ⟨q', hq', hlimits', ht', hn'⟩ := ih (hn.tracks h h' hR) hlimits hrest
    refine ⟨q', ?_, hlimits', ht', fun _ => ?_⟩
    · rw [ParseState.feedAll, hq₁]
      exact hq'
    · cases ts with
      | nil =>
        cases hrest
        cases hq'
        exact hn
      | cons => exact hn' (List.cons_ne_nil _ _)

variable {B : Slot → Prop} (hB : Loops g g' R B)
include hB

/-- The way down from a round is that of the part, inside one frame more. -/
theorem Loops.focusAt (hb : B b) : ∃ b', B b' ∧ ∀ k f c, g.focusAt g.root k .top = .ok f → ∃ f' : Focus V K,
    g'.focusAt b k c = .ok (f'.inside (c.push (.followBy b'))) ∧ f'.kind = f.kind ∧ f.context.Matches R f'.context := by
  obtain ⟨hnullable, l, r, s, b', hd, hs, hroot, hb'⟩ := hB b hb
  refine ⟨b', hb', fun k f c hf => ?_⟩
  have hk : Starts g'.productions s k := (hR.starts hroot).1 (h.starts_of_focusAt hf)
  have hl : Starts g'.productions l k := (starts_sequence hs).2 (.inl ⟨⟨[], (hB b' hb').1⟩, hk⟩)
  have hb : Starts g'.productions b k := (starts_disjunction hd).2 (.inl hl)
  obtain ⟨f', hf', hmatch⟩ := hR.focusAt h h' hroot .top hf
  refine ⟨f', ?_, hmatch⟩
  rw [h'.focusAt_of_descends hb (.left hd hl), h'.focusAt_of_descends hl (.first hs hk)]
  have happend := focusAt_append (g := g') (s := s) (k := k) (c.push (.followBy b')) .top
  rw [Context.append_top, hf'] at happend
  exact happend

/-- The first item is tracked from the start. -/
theorem Loops.tracks_start (hroot : B g'.root) : ∃ b, B b ∧
    Tracks g g' R (Context.top.push (.followBy b)) (start .unbounded) (start .unbounded) := by
  obtain ⟨b, hb, hdown⟩ := hB.focusAt h h' hR hroot
  refine ⟨b, hb, fun k f hf => ?_⟩
  obtain ⟨f', hf', hmatch⟩ := hdown k f .top (focus_start.1 hf)
  exact ⟨f', focus_start.2 hf', hmatch⟩

/-- Once an item is complete, the next one is tracked, inside one frame more. -/
theorem Loops.tracks_next (hb : B b) (hn : Nests R (c.push (.followBy b)) p q K) (hw : p.finish g = .ok w)
    (hapart : Apart g'.productions (q.pending g')) : ∃ b', B b' ∧
    Tracks g g' R ((c.push (.prepend w)).push (.followBy b')) (start .unbounded) q := by
  obtain ⟨d, d', e, hp, hdd, he, hq⟩ := hn
  obtain ⟨b', hb', hdown⟩ := hB.focusAt h h' hR hb
  refine ⟨b', hb', fun k f hf => ?_⟩
  obtain ⟨f', hf', hmatch⟩ := hdown k f (c.push (.prepend w)) (focus_start.1 hf)
  refine ⟨f', ?_, hmatch⟩
  have hk := h'.starts_of_focusAt hf'
  have hfinish : d'.finish g' = .ok (some w) := by
    rw [← hR.finish_eq h h' hdd]
    unfold ParseState.finish at hw
    rw [hp] at hw
    exact lift_eq_ok_some.1 hw
  -- the item does not take the token, since the next round does and one token decides
  have hnone : d'.resume g' k = .ok none := by
    have hparts : q.pending g' = d'.pending ++ b :: c.pending := by
      rw [ParseState.pending, hq]
      exact Fold.pending_of_inside he
    rw [hparts] at hapart
    rcases h'.resume_of_finish hfinish with ⟨i, hi⟩ | hnone
    · exact absurd hi (hapart.not_meets (h'.nullable_of_finish hfinish) (.here hk))
    · exact hnone
  have hinside := resume_inside (g := g') (k := k) (c.push (.followBy b)) d'
  rw [he, hnone, hfinish] at hinside
  simp only [ParseState.focus, hq]
  refine hinside.trans ((h'.resume_of_starts hk).trans ?_)
  rw [hf']
  rfl

/-- After some items the next one is tracked, inside a frame for each of them and one for what is pending. -/
theorem Loops.exists_tracks (hroot : B g'.root) (items : List (Item V K))
    (hitems : ∀ item ∈ items, item.1 ≠ [] ∧ g.parse .unbounded item.1 = .ok item.2) :
    ∃ (q : ParseState V) (c : Context V) (b : Slot), (start .unbounded : ParseState V).feedAll g' (flattened items) = .ok q ∧
      q.limits = .unbounded ∧ B b ∧ c.depth = items.length ∧ Tracks g g' R (c.push (.followBy b)) (start .unbounded) q := by
  induction items using List.reverseRecOn with
  | nil =>
    obtain ⟨b, hb, ht⟩ := hB.tracks_start h h' hR hroot
    exact ⟨start .unbounded, .top, b, rfl, rfl, hb, by rw [Context.depth]; rfl, ht⟩
  | append_singleton items item ih =>
    obtain ⟨q, c, b, hq, hlimits, hb, hdepth, ht⟩ := ih fun x hx => hitems x (List.mem_append_left _ hx)
    obtain ⟨hne, hparse⟩ := hitems item (List.mem_append_right _ List.mem_cons_self)
    obtain ⟨p, hp, hw⟩ := exists_of_bind hparse
    obtain ⟨q', hq', hlimits', -, hn⟩ := ht.feedAll h h' hR hlimits hp
    have hrun : (start .unbounded : ParseState V).feedAll g' (flattened (items ++ [item])) = .ok q' := by
      rw [flattened_append, feedAll_append, hq, flattened_cons, flattened_nil, List.append_nil]
      exact hq'
    have hstart : Apart g'.productions ((start .unbounded : ParseState V).pending g') := ⟨fun _ _ _ => not_meets_nil, trivial⟩
    obtain ⟨b', hb', ht'⟩ := hB.tracks_next h h' hR hb (hn hne) hw (h'.apart_feedAll hstart hrun)
    refine ⟨q', c.push (.prepend item.2), b', hrun, hlimits', hb', ?_, ht'⟩
    rw [Context.depth, hdepth, List.length_append, List.length_singleton]

/-- The cursor for a token of an item is deeper than in the item alone by the items before it and one. -/
theorem Loops.depth_eq (hroot : B g'.root) {before : List (Item V K)} {us ws : List (K × V)}
    (hitems : ∀ item ∈ before, item.1 ≠ [] ∧ g.parse .unbounded item.1 = .ok item.2)
    (hitem : g.parse .unbounded (us ++ t :: ws) = .ok w) : ∃ p f p' f',
      (start .unbounded : ParseState V).feedAll g us = .ok p ∧ p.focus g t.1 = .ok (some f) ∧
      (start .unbounded : ParseState V).feedAll g' (flattened before ++ us) = .ok p' ∧
      p'.focus g' t.1 = .ok (some f') ∧ f'.depth = before.length + 1 + f.depth := by
  obtain ⟨q, c, b, hq, hlimits, -, hdepth, ht⟩ := hB.exists_tracks h h' hR hroot before hitems
  obtain ⟨p₁, hp₁, -⟩ := exists_of_bind hitem
  rw [feedAll_append] at hp₁
  obtain ⟨p, hp, hrest⟩ := exists_of_bind hp₁
  obtain ⟨p₂, hp₂, -⟩ := exists_of_bind hrest
  obtain ⟨f, -, hf, -⟩ := exists_of_feed hp₂
  obtain ⟨q', hq', -, ht', -⟩ := ht.feedAll h h' hR hlimits hp
  obtain ⟨f', hf', -, hmatch⟩ := ht' t.1 f hf
  refine ⟨p, f, q', _, hp, hf, ?_, hf', ?_⟩
  · rw [feedAll_append, hq]
    exact hq'
  · rw [Focus.depth_inside, Context.depth, hdepth, Focus.depth, Focus.depth, hmatch.depth_eq]

end Tracking
end ValidGrammar
end Predictive
