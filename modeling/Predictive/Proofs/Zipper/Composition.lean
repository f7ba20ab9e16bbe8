import Predictive.Proofs.Grammar.Outcome
import Predictive.Proofs.Remainder

/-!
Contexts inside one another. What a parse does inside a context it does in the same way whatever lies around: a cursor
gets the outer frames below its own, a token is taken inside if it can be, and only a value that is complete inside
goes on outside. So no outer frame is touched before the inner part is complete.
-/
namespace Predictive

variable {V K : Type}

namespace Context

/-- The frames of `c` around those of `d`. -/
instance : Append (Context V) := ⟨fun c d => c.pushAll d.frames⟩

variable {c d : Context V} {frame : Frame V}

theorem framesOnto_eq (c : Context V) (inner : List (Frame V)) : c.framesOnto inner = c.frames ++ inner := by
  induction c generalizing inner with
  | top => rfl
  | push frame c ih =>
    rw [frames, framesOnto, framesOnto, ih, ih [frame]]
    simp

theorem frames_push : (c.push frame).frames = c.frames ++ [frame] := framesOnto_eq c [frame]

theorem append_top : c ++ (top : Context V) = c := rfl

theorem append_push : c ++ d.push frame = (c ++ d).push frame := by
  change c.pushAll (d.push frame).frames = (c.pushAll d.frames).push frame
  rw [frames_push, pushAll, List.foldl_append]
  rfl

theorem frames_append : (c ++ d).frames = c.frames ++ d.frames := by
  induction d with
  | top => simp [append_top, frames, framesOnto]
  | push frame d ih => rw [append_push, frames_push, frames_push, ih, List.append_assoc]

/-- The slots that the frames name are in the table. -/
def InRange [Ord K] (g : ValidGrammar V K) (c : Context V) : Prop :=
  ∀ next, Frame.followBy next ∈ c.frames → next < g.size

/-- A transformation among the frames gives up with this fault. -/
def GivesUp (c : Context V) (e : ParseFault K) : Prop :=
  ∃ f v text, Frame.apply f ∈ c.frames ∧ f.apply v = .error text ∧ e = .failed text

theorem mem_frames_push {frame' : Frame V} :
    frame' ∈ (c.push frame).frames ↔ frame' ∈ c.frames ∨ frame' = frame := by
  simp [frames_push]

theorem InRange.outer [Ord K] {g : ValidGrammar V K} (h : (c.push frame).InRange g) : c.InRange g :=
  fun next hnext => h next (mem_frames_push.2 (.inl hnext))

theorem InRange.next [Ord K] {g : ValidGrammar V K} {next : Slot} (h : (c.push (.followBy next)).InRange g) :
    next < g.size := h next (mem_frames_push.2 (.inr rfl))

theorem InRange.append [Ord K] {g : ValidGrammar V K} (hc : c.InRange g) (hd : d.InRange g) : (c ++ d).InRange g := by
  intro next hnext
  rw [frames_append] at hnext
  exact (List.mem_append.1 hnext).elim (hc next) (hd next)

theorem GivesUp.push {e : ParseFault K} (h : c.GivesUp e) : (c.push frame).GivesUp e := by
  obtain ⟨f, v, text, hf, hv, rfl⟩ := h
  exact ⟨f, v, text, mem_frames_push.2 (.inl hf), hv, rfl⟩

/-- Where a transformation is run, it gives up or the fault is one of what comes after. -/
theorem givesUp_of_run {α : Type} {f : Transformation V} {v : V} {w : V → Except (ParseFault K) α}
    {e : ParseFault K} (h : (f.run v).bind w = .error e) (hw : ∀ u, w u = .error e → c.GivesUp e) :
    (c.push (.apply f)).GivesUp e := by
  rw [Transformation.run] at h
  cases hv : f.apply v with
  | ok u =>
    rw [hv] at h
    exact (hw u h).push
  | error text =>
    rw [hv] at h
    cases h
    exact ⟨f, v, text, mem_frames_push.2 (.inr rfl), hv, rfl⟩

end Context

/-- The cursor with the frames of `c` around its own. -/
def Focus.inside (c : Context V) (f : Focus V K) : Focus V K := { f with context := c ++ f.context }

/-- What is left of a complete value, with the frames of `c` around: if nothing is, the value goes on in `c`. -/
def Fold.inside [Value V] (c : Context V) : Fold V → Except (ParseFault K) (Fold V)
  | done w => unwind w c
  | suspended s => .ok (.suspended { s with context := c ++ s.context })

namespace ValidGrammar

variable [Kind K] {g : ValidGrammar V K} {s t : Slot} {k : K} {n : Nat} {c d : Context V}

theorem round_append (c d : Context V) :
    g.round k s (c ++ d) = (g.round k s d).map (Sum.map (Focus.inside c) fun p => (p.1, c ++ p.2)) := by
  rw [round, round]
  cases g.entry s with
  | error e => rfl
  | ok e =>
    simp only [bind, Except.bind]
    cases e.form with
    | element j => by_cases hj : j = k <;> simp only [hj] <;> rfl
    | success v => rfl
    | disjunction l r =>
      dsimp only
      cases g.acceptsAt l k with
      | error e => rfl
      | ok b => cases b <;> rfl
    | sequence l r =>
      dsimp only
      cases g.entry l with
      | error e => rfl
      | ok left =>
        simp only [← Context.append_push]
        cases left.emptyValue with
        | none => rfl
        | some v => cases left.first.contains k <;> rfl
    | transform f i =>
      simp only [← Context.append_push]
      rfl

/-- The way down takes no notice of the frames it started from. -/
theorem descend_append (c d : Context V) : g.descend k n s (c ++ d) = (g.descend k n s d).map (Focus.inside c) := by
  induction n generalizing s d with
  | zero => rfl
  | succ n ih =>
    rw [descend_succ, descend_succ, round_append]
    rcases g.round k s d with e | f | ⟨t, d'⟩
    · rfl
    · rfl
    · exact ih d'

theorem focusAt_append (c d : Context V) : g.focusAt s k (c ++ d) = (g.focusAt s k d).map (Focus.inside c) := by
  simp only [focusAt, bind, Except.bind]
  cases g.acceptsAt s k with
  | error e => rfl
  | ok b =>
    cases b with
    | false => rfl
    | true => exact descend_append c d

variable [Value V] {v w : V}

omit [Kind K] in
/-- A value is folded inside first, and goes on outside if it is complete there. -/
theorem unwind_append (v : V) (c d : Context V) :
    (unwind v (c ++ d) : Except (ParseFault K) (Fold V)) = (unwind v d).bind (Fold.inside c) := by
  induction d generalizing v with
  | top => rfl
  | push frame d ih =>
    rw [Context.append_push]
    cases frame with
    | prepend left => exact ih _
    | followBy next => rfl
    | apply f =>
      rw [unwind_apply, unwind_apply]
      cases f.run v (K := K) with
      | error e => rfl
      | ok w => exact ih w

/-- What is pending is closed inside first. -/
theorem close_append (v : V) (c d : Context V) :
    g.close v (c ++ d) = (g.close v d).bind fun r => r.elim (.ok none) fun w => g.close w c := by
  induction d generalizing v with
  | top => rfl
  | push frame d ih =>
    rw [Context.append_push]
    cases frame with
    | prepend left => exact ih _
    | followBy next =>
      rw [close_followBy, close_followBy]
      cases g.entry next with
      | error e => rfl
      | ok e =>
        cases he : e.emptyValue with
        | none => simp [Except.bind, he]
        | some w =>
          simp only [Except.bind, he, Option.elim_some]
          exact ih _
    | apply f =>
      rw [close_apply, close_apply]
      cases f.run v (K := K) with
      | error e => rfl
      | ok w => exact ih w

/-- A token is taken inside if it can be. Otherwise it goes to what is pending outside, with the value that closing all
that is pending inside gives. -/
theorem seek_append (v : V) (c d : Context V) :
    g.seek k v (c ++ d) = (g.seek k v d).bind fun r => r.elim
      ((g.close v d).bind fun o => o.elim (.ok none) fun w => g.seek k w c) fun p => .ok (some (p.1, c ++ p.2)) := by
  induction d generalizing v with
  | top => rfl
  | push frame d ih =>
    rw [Context.append_push]
    cases frame with
    | prepend left => exact ih _
    | followBy next =>
      rw [seek_followBy, seek_followBy, close_followBy]
      cases g.entry next with
      | error e => rfl
      | ok e =>
        simp only [Except.bind]
        by_cases hk : e.first.contains k
        · simp only [if_pos hk, Context.append_push, Option.elim_some]
        · simp only [if_neg hk]
          cases e.emptyValue with
          | none => rfl
          | some w => exact ih _
    | apply f =>
      rw [seek_apply, seek_apply, close_apply]
      cases f.run v (K := K) with
      | error e => rfl
      | ok w => exact ih w

theorem resume_eq (D : Fold V) :
    D.resume g k = (D.seek g k).bind fun r => r.elim (.ok none) fun p => (g.focusAt p.1 k p.2).map some := by
  simp only [Fold.resume, bind, Except.bind]
  rcases D.seek g k with e | _ | ⟨s, c⟩
  · rfl
  · rfl
  · simp only [Option.elim]
    cases g.focusAt s k c <;> rfl

theorem unwind_resume (v : V) (c : Context V) : ((unwind v c).bind fun D => D.resume g k) =
    (g.seek k v c).bind fun r => r.elim (.ok none) fun p => (g.focusAt p.1 k p.2).map some := by
  rw [← unwind_seek]
  cases unwind v c with
  | error e => rfl
  | ok D => exact resume_eq D

/-- A token is taken inside if it can be. Otherwise it goes on outside, with the value that is complete inside if the
input of the inner part ends before it. -/
theorem resume_inside (c : Context V) (D : Fold V) : ((D.inside c).bind fun F => F.resume g k) =
    (D.resume g k).bind fun r => r.elim
      ((D.finish g).bind fun o => o.elim (.ok none) fun w => (unwind w c).bind fun E => E.resume g k)
      fun f => .ok (some (f.inside c)) := by
  cases D with
  | done w => rfl
  | suspended s =>
    rw [Fold.inside, Except.bind, resume_eq, resume_eq, Fold.seek, Fold.seek, Fold.finish]
    rw [← Context.append_push, seek_append]
    rcases g.seek k s.value (s.context.push (.followBy s.next)) with e | _ | ⟨t, d⟩
    · rfl
    · simp only [Except.bind, Option.elim]
      rcases g.close s.value (s.context.push (.followBy s.next)) with e | _ | w
      · rfl
      · rfl
      · exact (unwind_resume w c).symm
    · simp only [Except.bind, Option.elim, focusAt_append]
      cases g.focusAt t k d <;> rfl

/-- The result comes of the outer part, with the result of the inner part for its value. -/
theorem finish_inside (c : Context V) (D : Fold V) : ((D.inside c).bind fun F => F.finish g) =
    (D.finish g).bind fun o => o.elim (.ok none) fun w => (unwind w c).bind fun E => E.finish g := by
  cases D with
  | done w => rfl
  | suspended s =>
    rw [Fold.inside, Except.bind, Fold.finish, Fold.finish]
    rw [← Context.append_push, close_append]
    simp only [unwind_close]

/-- Where no pending part takes the token, all that come before the first one that is not empty have been closed. -/
theorem exists_close_of_seek (h : g.seek k v c = .ok none) : ∃ o, g.close v c = .ok o := by
  induction c generalizing v with
  | top => exact ⟨_, rfl⟩
  | push frame c ih =>
    cases frame with
    | prepend left => exact ih h
    | followBy next =>
      rw [seek_followBy] at h
      rw [close_followBy]
      obtain ⟨e, he, h⟩ := exists_of_bind h
      rw [he, Except.bind]
      split at h
      · cases h
      · cases hempty : e.emptyValue with
        | none => exact ⟨none, rfl⟩
        | some w =>
          rw [hempty] at h
          exact ih h
    | apply f =>
      rw [seek_apply] at h
      rw [close_apply]
      obtain ⟨w, hw, h⟩ := exists_of_bind h
      rw [hw]
      exact ih h

theorem exists_finish_of_resume {D : Fold V} (h : D.resume g k = .ok none) : ∃ o, D.finish g = .ok o := by
  cases D with
  | done w => exact ⟨_, rfl⟩
  | suspended s =>
    rw [resume_eq] at h
    obtain ⟨r, hr, h⟩ := exists_of_bind h
    cases r with
    | none => exact exists_close_of_seek hr
    | some p =>
      simp only [Option.elim] at h
      cases hf : g.focusAt p.1 k p.2 <;> rw [hf] at h <;> cases h

theorem givesUp_of_seek {e : ParseFault K} (hc : c.InRange g) (h : g.seek k v c = .error e) : c.GivesUp e := by
  induction c generalizing v with
  | top => cases h
  | push frame c ih =>
    cases frame with
    | prepend left => exact (ih hc.outer h).push
    | followBy next =>
      obtain ⟨entry, hentry, -⟩ := exists_entry hc.next
      rw [seek_followBy, entry_of_get hentry, Except.bind] at h
      split at h
      · cases h
      · cases hempty : entry.emptyValue with
        | none =>
          rw [hempty] at h
          cases h
        | some w =>
          rw [hempty] at h
          exact (ih hc.outer h).push
    | apply f =>
      rw [seek_apply] at h
      exact Context.givesUp_of_run h fun _ => ih hc.outer

theorem givesUp_of_close {e : ParseFault K} (hc : c.InRange g) (h : g.close v c = .error e) : c.GivesUp e := by
  induction c generalizing v with
  | top => cases h
  | push frame c ih =>
    cases frame with
    | prepend left => exact (ih hc.outer h).push
    | followBy next =>
      obtain ⟨entry, hentry, -⟩ := exists_entry hc.next
      rw [close_followBy, entry_of_get hentry, Except.bind] at h
      cases hempty : entry.emptyValue with
      | none =>
        rw [hempty] at h
        cases h
      | some w =>
        rw [hempty] at h
        exact (ih hc.outer h).push
    | apply f =>
      rw [close_apply] at h
      exact Context.givesUp_of_run h fun _ => ih hc.outer

namespace Lawful

variable (h : g.Lawful)
include h

theorem exists_focusAt_of_accepts (hk : g.acceptsAt s k = .ok true) (c : Context V) :
    ∃ f, g.focusAt s k c = .ok f := by
  obtain ⟨f, hf, -⟩ := h.exists_focusAt (P := fun _ _ => True) (fun _ _ _ _ _ _ => trivial)
    (h.starts_of_acceptsAt hk) (c := c) trivial
  exact ⟨f, hf⟩

/-- Nothing stops the search for a cursor in a context whose slots are in the table, but the transformations there. -/
theorem givesUp_of_resume {e : ParseFault K} (hc : c.InRange g)
    (he : ((unwind v c).bind fun D => D.resume g k) = .error e) : c.GivesUp e := by
  rw [unwind_resume] at he
  cases hseek : g.seek k v c with
  | error e' =>
    rw [hseek] at he
    cases he
    exact givesUp_of_seek hc hseek
  | ok r =>
    rw [hseek] at he
    rcases r with _ | ⟨t, d⟩
    · cases he
    · -- what is found accepts the token
      obtain ⟨i, hi, hdrop⟩ := (h.seek_spec hseek).1 t d rfl
      obtain ⟨f, hf⟩ := h.exists_focusAt_of_accepts (h.acceptsAt_of_starts (hi.starts hdrop)) d
      simp only [Except.bind, Option.elim, hf] at he
      cases he

end Lawful
end ValidGrammar

namespace Grammar

open Store

variable [Kind K] [Value V] {s s' : Store V K} {r : Ref} {held : List Ref} {g : ValidGrammar V K} {c d : Context V}

/-- With a table that comes of a grammar, a cursor that is searched in a context is the one that is searched at the top,
with the frames of the context below its own. With the frames of `c` around those of `d`, a token goes where it goes in
`d` alone, with `c` around it; if it goes nowhere there, it goes where it goes in `c` with the value that `d` comes to,
if `d` can end there. The result is that of `c` with the result of `d`. All this has an answer if no transformation
among the frames gives up. -/
theorem resume_finish_inside (h : Reached s) (hr : s.HasRef r) (hval : validate held r s = .ok (.ok g) s')
    (hc : c.InRange g) (hd : d.InRange g) :
    (∀ i k, g.acceptsAt i k = .ok true → ∃ f f', g.focusAt i k .top = .ok f ∧ g.focusAt i k c = .ok f' ∧
      f'.leaf = f.leaf ∧ f'.context.frames = c.frames ++ f.context.frames) ∧
    (c ++ d).frames = c.frames ++ d.frames ∧
    ∀ v k,
      ((unwind v (c ++ d)).bind fun F => F.resume g k) = ((unwind v d).bind fun D => (D.resume g k).bind fun
        | some f => .ok (some { f with context := c ++ f.context })
        | none => (D.finish g).bind fun
          | some w => (unwind w c).bind fun E => E.resume g k
          | none => .ok none) ∧
      ((unwind v (c ++ d)).bind fun F => F.finish g) = ((unwind v d).bind fun D => (D.finish g).bind fun
        | some w => (unwind w c).bind fun E => E.finish g
        | none => .ok none) ∧
      (∀ D : Fold V, D.resume g k = .ok none → ∃ o, D.finish g = .ok o) ∧
      (∀ e, ((unwind v (c ++ d)).bind fun F => F.resume g k) = .error e → (c ++ d).GivesUp e) ∧
      ∀ e, ((unwind v (c ++ d)).bind fun F => F.finish g) = .error e → (c ++ d).GivesUp e := by
  obtain ⟨i, node, -, htab, hlaw⟩ := h.tabulates hr hval
  refine ⟨fun i k hk => ?_, Context.frames_append,
    fun v k => ⟨?_, ?_, fun D hnone => ?_, fun e he => ?_, fun e he => ?_⟩⟩
  · obtain ⟨f, hf⟩ := hlaw.exists_focusAt_of_accepts hk .top
    refine ⟨f, f.inside c, hf, ?_, rfl, Context.frames_append⟩
    rw [← Context.append_top (c := c), ValidGrammar.focusAt_append, hf]
    rfl
  · rw [ValidGrammar.unwind_append]
    cases unwind v d with
    | error e => rfl
    | ok D =>
      refine (ValidGrammar.resume_inside c D).trans (congrArg (D.resume g k).bind ?_)
      funext r
      cases r with
      | some f => rfl
      | none =>
        refine congrArg (D.finish g).bind ?_
        funext o
        cases o <;> rfl
  · rw [ValidGrammar.unwind_append]
    cases unwind v d with
    | error e => rfl
    | ok D =>
      refine (ValidGrammar.finish_inside c D).trans (congrArg (D.finish g).bind ?_)
      funext o
      cases o <;> rfl
  · exact ValidGrammar.exists_finish_of_resume hnone
  · exact hlaw.givesUp_of_resume (hc.append hd) he
  · rw [ValidGrammar.unwind_close] at he
    exact ValidGrammar.givesUp_of_close (hc.append hd) he

/-- A pair of brackets that is still to be closed, in a list that is turned round before. -/
def outerFrames : Context (List Int64) := (Context.top.push (.followBy 5)).push (.apply (.total List.reverse))

/-- More pairs may follow, and the list goes on behind a number. -/
def innerFrames : Context (List Int64) := (Context.top.push (.prepend [7])).push (.followBy 0)

/-- An opening bracket is taken inside; a closing one is not, and the inner part can end before it. -/
def closesInside (g : ValidGrammar (List Int64) Tag) : Bool :=
  match (unwind [1] innerFrames : Except (ParseFault Tag) (Fold (List Int64))) with
  | .ok D =>
    match D.resume g Tag.opening, D.resume g Tag.closing, D.finish g with
    | .ok (some _), .ok none, .ok (some w) => w = [7, 1, 0] ∧ g.size = 6
    | _, _, _ => false
  | .error _ => false

theorem resume_finish_inside_nested : ∃ g s' D f, validate [] (.node 6) nestedStore = .ok (.ok g) s' ∧
    outerFrames.InRange g ∧ innerFrames.InRange g ∧
    (unwind [1] innerFrames : Except (ParseFault Tag) (Fold (List Int64))) = .ok D ∧
    D.resume g Tag.opening = .ok (some f) ∧
    ((unwind [1] (outerFrames ++ innerFrames)).bind fun F => F.resume g Tag.opening) =
      .ok (some { f with context := outerFrames ++ f.context }) ∧
    ((unwind [1] (outerFrames ++ innerFrames)).bind fun F => F.resume g Tag.closing) =
      (unwind [7, 1, 0] outerFrames).bind fun E => E.resume g Tag.closing := by
  obtain ⟨g, s', hval, hp⟩ := exists_valid (s := nestedStore) [] (.node 6) (fun g _ => closesInside g)
    (by decide +kernel)
  unfold closesInside at hp
  split at hp
  · rename_i D hD
    split at hp
    · rename_i f w hf hnone hw
      obtain ⟨rfl, hsize⟩ := of_decide_eq_true hp
      have houter : outerFrames.InRange g := fun next hnext => by
        obtain rfl : next = 5 := by simpa [outerFrames, Context.frames, Context.framesOnto] using hnext
        rw [hsize]
        decide
      have hinner : innerFrames.InRange g := fun next hnext => by
        obtain rfl : next = 0 := by simpa [innerFrames, Context.frames, Context.framesOnto] using hnext
        rw [hsize]
        decide
      obtain ⟨-, -, hall⟩ := resume_finish_inside reached_nestedStore hasRef_nestedStore hval houter hinner
      obtain ⟨hopening, -⟩ := hall [1] Tag.opening
      obtain ⟨hclosing, -⟩ := hall [1] Tag.closing
      rw [hD] at hopening hclosing
      simp only [Except.bind, hf] at hopening
      simp only [Except.bind, hnone, hw] at hclosing
      exact ⟨g, s', D, f, hval, houter, hinner, hD, hf, hopening, hclosing⟩
    · cases hp
  · cases hp

end Grammar
end Predictive
