import Predictive.Proofs.Safety
import Predictive.Proofs.Stopping

/-!
The parts that a parse still waits for, from the innermost outwards. None of them is followed by what may not follow it:
a step down keeps this, and so does a token that is consumed. So a token can go to one of them at most, and it is found.
-/
namespace Predictive

variable {V K : Type}

/-- The part with the number `i` starts with `k`, and all parts before it may be empty. -/
inductive Meets (G : Productions V K) (k : K) : List Nat → Nat → Prop
  | here {s ss} : Starts G s k → Meets G k (s :: ss) 0
  | later {s ss i} : Nullable G s → Meets G k ss i → Meets G k (s :: ss) (i + 1)

/-- No part is followed by what may not follow it. -/
def Apart (G : Productions V K) : List Nat → Prop
  | [] => True
  | s :: ss => (∀ k, Barred G s k → ∀ i, ¬Meets G k ss i) ∧ Apart G ss

/-- The parts that are still to come, from the innermost outwards. -/
def Context.pending : Context V → List Slot
  | .top => []
  | .push (.followBy next) c => next :: pending c
  | .push (.prepend _) c | .push (.apply _) c => pending c

def Fold.pending : Fold V → List Slot
  | done _ => []
  | suspended s => s.next :: s.context.pending

/-- Before the first token, the root is to come. -/
def ParseState.pending [Ord K] (p : ParseState V) (g : ValidGrammar V K) : List Slot :=
  match p.fold with
  | none => [g.root]
  | some d => d.pending

/-- The part with the number `i` accepts a token of the kind `k`, and all parts before it have an empty value. -/
def ValidGrammar.Receives [Ord K] (g : ValidGrammar V K) (ss : List Slot) (k : K) (i : Nat) : Prop :=
  (∃ s, ss[i]? = some s ∧ g.acceptsAt s k = .ok true) ∧
    ∀ j < i, ∀ s, ss[j]? = some s → ∃ e, g.entry s = .ok e ∧ e.emptyValue.isSome = true

section Parts

variable {G : Productions V K} {k : K} {s t : Nat} {ss tail : List Nat} {i j : Nat}

@[simp]
theorem not_meets_nil : ¬Meets G k [] i := nofun

theorem Apart.drop (h : Apart G ss) (n : Nat) : Apart G (ss.drop n) := by
  induction n generalizing ss with
  | zero => exact h
  | succ n ih =>
    cases ss with
    | nil => trivial
    | cons s ss => exact ih h.2

/-- A part may be replaced by one behind which no more is barred. -/
theorem Apart.mono (h : Apart G (s :: ss)) (hb : ∀ k, Barred G t k → Barred G s k) : Apart G (t :: ss) :=
  ⟨fun k hk => h.1 k (hb k hk), h.2⟩

/-- A token can go to one part at most. -/
theorem Apart.unique (h : Apart G ss) (hi : Meets G k ss i) (hj : Meets G k ss j) : i = j := by
  induction hi generalizing j with
  | here hs =>
    cases hj with
    | here => rfl
    | later hn hj => exact (h.1 k (barred_of_nullable hn hs) _ hj).elim
  | later hn hi ih =>
    cases hj with
    | here hs => exact (h.1 k (barred_of_nullable hn hs) _ hi).elim
    | later _ hj => rw [ih h.2 hj]

theorem Meets.starts (h : Meets G k ss i) (hd : ss.drop i = s :: tail) : Starts G s k := by
  induction h with
  | here hs =>
    cases hd
    exact hs
  | later _ _ ih => exact ih hd

variable [Value V] {c c' : Context V}

/-- A step down keeps the parts apart, the one that is entered being followed by those that are pending. -/
theorem Descends.apart (decided : Decided G) (hd : Descends G k s c t c') (h : Apart G (s :: c.pending)) :
    Apart G (t :: c'.pending) := by
  cases hd with
  | left hs => exact h.mono fun _ => .inLeft hs
  | right hs => exact h.mono fun _ => .inRight hs
  | first hs hk =>
    -- what may not follow the first part is no start of the second, nor of what comes if that is empty
    refine ⟨fun j hj i hi => ?_, h.mono fun _ => .second hs hk.productive⟩
    cases hi with
    | here hr => exact decided _ (.follow hs hj hr)
    | later hr hi => exact h.1 j (.first hs hr hj) _ hi
  | second hs _ hv => exact h.mono fun _ => .second hs ⟨[], hv.nullable⟩
  | transform hs => exact h.mono fun _ => .transform hs

end Parts

/-- Folding outwards leaves what is pending as it is. -/
theorem pending_of_unwind [Value V] {c : Context V} {v : V} {d : Fold V}
    (h : unwind v c = (.ok d : Except (ParseFault K) (Fold V))) : d.pending = c.pending := by
  induction c generalizing v with
  | top =>
    cases h
    rfl
  | push frame c ih =>
    cases frame with
    | prepend left => exact ih h
    | apply f =>
      rw [ValidGrammar.unwind_apply] at h
      obtain ⟨w, -, h⟩ := exists_of_bind h
      exact ih h
    | followBy next =>
      cases h
      rfl

/-- What a token that is consumed has gone through. -/
theorem ParseState.exists_of_feed [Value V] [Kind K] {g : ValidGrammar V K} {p q : ParseState V} {t : K × V}
    (h : p.feed g t = .ok q) : ∃ f d, p.focus g t.1 = .ok (some f) ∧ f.advance t = .ok d ∧ q = p.next d := by
  have hlift : ∀ {α : Type} {x : Except (ParseFault K) α} {a}, lift x = .ok a → x = .ok a := by
    intro α x a hx
    cases x <;> cases hx
    rfl
  rw [p.feed_eq] at h
  obtain ⟨_, -, hspare⟩ := exists_of_bind h
  obtain ⟨r, hr, hplace⟩ := exists_of_bind hspare
  obtain ⟨f, hf, hroom⟩ := exists_of_bind hplace
  obtain ⟨_, -, hadvance⟩ := exists_of_bind hroom
  obtain ⟨d, hd, hq⟩ := exists_of_bind hadvance
  cases r with
  | none => cases hf
  | some f' =>
    obtain rfl := Except.ok.inj hf
    exact ⟨f', d, hlift hr, hlift hd, (Except.ok.inj hq).symm⟩

namespace ValidGrammar

theorem get_of_entry [Ord K] {g : ValidGrammar V K} {s : Slot} {e : Entry V K} (h : g.entry s = .ok e) :
    g.entries[s]? = some e := by
  rw [entry] at h
  split at h
  · rename_i e' he
    rw [he, Except.ok.inj h]
  · cases h

theorem exists_of_resume [Value V] [Kind K] {g : ValidGrammar V K} {k : K} {d : Fold V} {f : Focus V K}
    (hf : d.resume g k = .ok (some f)) : ∃ t c, d.seek g k = .ok (some (t, c)) ∧ g.focusAt t k c = .ok f := by
  obtain ⟨r, hr, hfound⟩ := exists_of_bind hf
  rcases r with _ | ⟨t, c⟩
  · cases hfound
  · obtain ⟨f', hf', hfound⟩ := exists_of_bind hfound
    cases hfound
    exact ⟨t, c, hr, hf'⟩

namespace Lawful

variable [Value V] [Kind K] {g : ValidGrammar V K} {k : K} {s t : Slot} {c c' : Context V} {v : V} {d : Fold V}
  {p q : ParseState V} {ss : List Slot} {i : Nat} (h : g.Lawful)
include h

theorem starts_iff_acceptsAt : Starts g.productions s k ↔ g.acceptsAt s k = .ok true :=
  ⟨h.acceptsAt_of_starts, h.starts_of_acceptsAt⟩

theorem nullable_iff_emptyValue :
    Nullable g.productions s ↔ ∃ e, g.entry s = .ok e ∧ e.emptyValue.isSome = true := by
  constructor
  · intro hn
    obtain ⟨e, he, -⟩ := exists_entry (productions_isSome_iff.1 hn.isSome)
    exact ⟨e, entry_of_get he, (h.nullable s e he).2 hn⟩
  · rintro ⟨e, he, hempty⟩
    exact (h.nullable s e (get_of_entry he)).1 hempty

/-- The part that receives a token by its entry and those before it is the one that does by its words. -/
theorem receives_iff : g.Receives ss k i ↔ Meets g.productions k ss i := by
  simp only [Receives, ← h.starts_iff_acceptsAt, ← h.nullable_iff_emptyValue]
  induction ss generalizing i with
  | nil => simp
  | cons t ss ih =>
    cases i with
    | zero =>
      constructor
      · rintro ⟨⟨s, hs, hk⟩, -⟩
        cases hs
        exact .here hk
      · intro hm
        cases hm with
        | here hk => exact ⟨⟨t, rfl, hk⟩, fun j hj => absurd hj (Nat.not_lt_zero j)⟩
    | succ i =>
      constructor
      · rintro ⟨hi, hbefore⟩
        refine .later (hbefore 0 (Nat.succ_pos i) t rfl) (ih.1 ⟨hi, fun j hj s hs => ?_⟩)
        exact hbefore (j + 1) (Nat.succ_lt_succ hj) s hs
      · intro hm
        cases hm with
        | later hn hm =>
          obtain ⟨hi, hbefore⟩ := ih.2 hm
          refine ⟨hi, fun j hj s hs => ?_⟩
          cases j with
          | zero =>
            cases hs
            exact hn
          | succ j => exact hbefore j (Nat.lt_of_succ_lt_succ hj) s hs

/-- The cursor that is found has what every step down keeps. -/
theorem exists_focusAt {P : Slot → Context V → Prop}
    (hstep : ∀ ⦃s c t c'⦄, Descends g.productions k s c t c' → P s c → P t c') (hk : Starts g.productions s k)
    (hs : P s c) : ∃ f, g.focusAt s k c = .ok f ∧ P f.leaf f.context := by
  obtain ⟨n, hn⟩ := h.exists_falls hk
  rw [focusAt, h.acceptsAt_of_starts hk]
  have hlt := lt_size_of_falls hn
  suffices hdescend : ∀ m, n < m → ∃ f, g.descend k m s c = .ok f ∧ P f.leaf f.context from hdescend _ hlt
  clear hlt hk
  induction hn generalizing c with
  | @element s he =>
    intro m hm
    obtain ⟨m, rfl⟩ := Nat.exists_eq_succ_of_ne_zero (Nat.ne_zero_of_lt hm)
    obtain ⟨e, hentry, hf⟩ := entry_of_form (.element _) he
    exact ⟨⟨s, k, c⟩, by simp [descend, bind, Except.bind, pure, Except.pure, hentry, hf], hs⟩
  | step hd _ ih =>
    intro m hm
    obtain ⟨m, rfl⟩ := Nat.exists_eq_succ_of_ne_zero (Nat.ne_zero_of_lt hm)
    obtain ⟨c', hd⟩ := hd c
    rw [h.descend_step hd]
    exact ih (hstep hd hs) m (Nat.lt_of_succ_lt_succ hm)

theorem apart_of_focusAt (hk : Starts g.productions s k) (hs : Apart g.productions (s :: c.pending)) {f : Focus V K}
    (hf : g.focusAt s k c = .ok f) : Apart g.productions f.context.pending := by
  obtain ⟨f', hf', hpending⟩ := h.exists_focusAt (P := fun s c => Apart g.productions (s :: c.pending))
    (fun _ _ _ _ hd hs => hd.apart h.decided hs) hk hs
  obtain rfl := Except.ok.inj (hf.symm.trans hf')
  exact hpending.2

/-- What is found for a token is the first part that receives it, in the context of those behind it. Nothing is found
only if no part does. -/
theorem seek_spec {r : Option (Slot × Context V)} (hs : g.seek k v c = .ok r) :
    (∀ t c', r = some (t, c') → ∃ i, Meets g.productions k c.pending i ∧ c.pending.drop i = t :: c'.pending) ∧
    (r = none → ∀ i, ¬Meets g.productions k c.pending i) := by
  induction c generalizing v with
  | top =>
    cases hs
    exact ⟨by simp, fun _ _ => not_meets_nil⟩
  | push frame c ih =>
    cases frame with
    | prepend left => exact ih hs
    | apply f =>
      rw [seek_apply] at hs
      obtain ⟨w, -, hs⟩ := exists_of_bind hs
      exact ih hs
    | followBy next =>
      rw [seek_followBy] at hs
      obtain ⟨e, he, hs⟩ := exists_of_bind hs
      have he := get_of_entry he
      split at hs
      · rename_i hk
        cases hs
        refine ⟨fun t c' hr => ?_, by simp⟩
        cases hr
        exact ⟨0, .here ((h.first next e he k).1 (FinSet.contains_iff_mem.1 hk)), rfl⟩
      · rename_i hk
        have hnot : ¬Starts g.productions next k := fun hstart =>
          hk (FinSet.contains_iff_mem.2 ((h.first next e he k).2 hstart))
        cases hempty : e.emptyValue with
        | none =>
          rw [hempty] at hs
          cases hs
          refine ⟨by simp, fun _ i hm => ?_⟩
          cases hm with
          | here hstart => exact hnot hstart
          | later hn _ =>
            have hsome := (h.nullable next e he).2 hn
            simp [hempty] at hsome
        | some w =>
          rw [hempty] at hs
          obtain ⟨hfound, hnone⟩ := ih hs
          refine ⟨fun t c' hr => ?_, fun hr i hm => ?_⟩
          · obtain ⟨i, hi, hdrop⟩ := hfound t c' hr
            exact ⟨i + 1, .later ((h.nullable next e he).1 (by rw [hempty]; rfl)) hi, hdrop⟩
          · cases hm with
            | here hstart => exact hnot hstart
            | later _ hm => exact hnone hr _ hm

/-- A token that a parse waits for goes to the one part that receives it. -/
theorem meets_of_resume {f : Focus V K} (hf : d.resume g k = .ok (some f)) :
    ∃ i t c, Meets g.productions k d.pending i ∧ d.pending.drop i = t :: c.pending ∧ g.focusAt t k c = .ok f := by
  obtain ⟨t, c, hr, hfocus⟩ := exists_of_resume hf
  cases d with
  | done v => cases hr
  | suspended s =>
    obtain ⟨i, hi, hdrop⟩ := (h.seek_spec hr).1 t c rfl
    exact ⟨i, t, c, hi, hdrop, hfocus⟩

theorem not_meets_of_resume (hd : d.resume g k = .ok none) : ¬Meets g.productions k d.pending i := by
  obtain ⟨r, hr, hd⟩ := exists_of_bind hd
  rcases r with _ | ⟨t, c⟩
  · cases d with
    | done v => exact not_meets_nil
    | suspended s => exact (h.seek_spec hr).2 rfl i
  · obtain ⟨f, -, hd⟩ := exists_of_bind hd
    cases hd

theorem apart_of_resume (hd : Apart g.productions d.pending) {f : Focus V K} (hf : d.resume g k = .ok (some f)) :
    Apart g.productions f.context.pending := by
  obtain ⟨i, t, c, hi, hdrop, hfocus⟩ := h.meets_of_resume hf
  have hstart := hi.starts hdrop
  exact h.apart_of_focusAt hstart (hdrop ▸ hd.drop i) hfocus

/-- A token that is consumed leaves the parts apart. -/
theorem apart_feed (hp : Apart g.productions (p.pending g)) {x : K × V} (hf : p.feed g x = .ok q) :
    Apart g.productions (q.pending g) := by
  obtain ⟨f, d, hfocus, hd, rfl⟩ := ParseState.exists_of_feed hf
  have hapart : Apart g.productions f.context.pending := by
    unfold ParseState.focus at hfocus
    unfold ParseState.pending at hp
    cases hfold : p.fold with
    | some d' =>
      rw [hfold] at hfocus hp
      exact h.apart_of_resume hp hfocus
    | none =>
      rw [hfold] at hfocus hp
      obtain ⟨b, hb, hfocus⟩ := exists_of_bind hfocus
      cases b with
      | false => cases hfocus
      | true =>
        obtain ⟨f', hf', hfocus⟩ := exists_of_bind hfocus
        cases hfocus
        exact h.apart_of_focusAt (c := .top) (h.starts_of_acceptsAt hb) hp hf'
  rw [Focus.advance] at hd
  split at hd
  · change Apart g.productions d.pending
    rwa [pending_of_unwind hd]
  · cases hd

/-- Whatever tokens are consumed, the parts that are left are apart. -/
theorem apart_feedAll {ts : List (K × V)} (hp : Apart g.productions (p.pending g)) (hf : p.feedAll g ts = .ok q) :
    Apart g.productions (q.pending g) := by
  induction ts generalizing p with
  | nil =>
    cases hf
    exact hp
  | cons t ts ih =>
    obtain ⟨p', hp', hf⟩ := exists_of_bind hf
    exact ih (h.apart_feed hp hp') hf

end Lawful
end ValidGrammar
end Predictive
