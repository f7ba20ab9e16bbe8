import Predictive.Proofs.Zipper.Descent
import Predictive.Zipper.Fold

/-!
What is still to come under a context. The ways to go on are the derivations of the pending parts, and a token that one
of them can take is taken by no other, so it does not matter that the first one found is followed.
-/
namespace Predictive

variable {V K : Type} [Value V] {G : Productions V K} {k : K} {s t : Slot} {c c' : Context V} {v w : V}

/-- With `v` complete under the context, the tokens `ts` lead to the result `w`. -/
def Context.Completes (G : Productions V K) : Context V → V → List (K × V) → V → Prop
  | .top, v, ts, w => ts = [] ∧ w = v
  | .push (.prepend left) c, v, ts, w => Completes G c (prepend left v) ts w
  | .push (.apply f) c, v, ts, w => ∃ u, f.apply v = .ok u ∧ Completes G c u ts w
  | .push (.followBy next) c, v, ts, w =>
    ∃ us ws u, ts = us ++ ws ∧ Derives G next us u ∧ Completes G c (prepend v u) ws w

/-- The tokens `(k, x)` and then `ts` lead to `w` if the slot `s` is entered under `c` and takes the first of them. -/
def Context.Takes (G : Productions V K) (s : Slot) (c : Context V) (k : K) (x : V) (ts : List (K × V)) (w : V) : Prop :=
  ∃ us ws u, ts = us ++ ws ∧ Derives G s ((k, x) :: us) u ∧ c.Completes G u ws w

/-- Nothing that is to come under `c` starts as nothing after `s` may. -/
def Context.Guards (G : Productions V K) (s : Slot) (c : Context V) : Prop :=
  ∀ k, Barred G s k → ∀ v x ts w, ¬c.Completes G v ((k, x) :: ts) w

/-- What comes after a pending part does not start as nothing after it may. -/
def Context.Guarded (G : Productions V K) : Context V → Prop
  | .top => True
  | .push (.prepend _) c | .push (.apply _) c => Guarded G c
  | .push (.followBy next) c => (G next).isSome ∧ c.Guards G next ∧ Guarded G c

/-- What is found for a token of the kind `k` after `v`: the one slot that takes it and the context it is entered in,
or that nothing takes it. -/
def Context.Finds (G : Productions V K) (c : Context V) (v : V) (k : K) :
    Except (ParseFault K) (Option (Slot × Context V)) → Prop
  | .ok (some (s, c')) => Starts G s k ∧ c'.Guards G s ∧ c'.Guarded G ∧
    ∀ x ts w, c.Completes G v ((k, x) :: ts) w ↔ c'.Takes G s k x ts w
  | _ => ∀ x ts w, ¬c.Completes G v ((k, x) :: ts) w

/-- The cursor takes a token of the kind `k`, and what `next` says of the token and what follows it is what is to come
under the cursor. -/
def Focus.Continues (G : Productions V K) (k : K) (next : V → List (K × V) → V → Prop) (f : Focus V K) : Prop :=
  f.kind = k ∧ f.context.Guarded G ∧ ∀ x ts w, next x ts w ↔ f.context.Completes G x ts w

/-- There is a cursor for a token of the kind `k` that goes on as `next` says, or no way to go on. -/
def Focus.Found (G : Productions V K) (k : K) (next : V → List (K × V) → V → Prop) :
    Except (ParseFault K) (Option (Focus V K)) → Prop
  | .ok (some f) => f.Continues G k next
  | _ => ∀ x ts w, ¬next x ts w

open Context

theorem Context.Guards.prepend (h : c.Guards G s) (left : V) : (c.push (.prepend left)).Guards G s :=
  fun k hk _ x ts w => h k hk _ x ts w

theorem Context.Guards.apply (h : c.Guards G s) (f : Transformation V) : (c.push (.apply f)).Guards G s :=
  fun k hk _ x ts w ⟨u, _, hu⟩ => h k hk u x ts w hu

theorem Context.Guards.mono (h : c.Guards G s) (hb : ∀ k, Barred G t k → Barred G s k) : c.Guards G t :=
  fun k hk => h k (hb k hk)

theorem finds_congr {d : Context V} {r : Except (ParseFault K) (Option (Slot × Context V))}
    (hcd : ∀ x ts w', c.Completes G v ((k, x) :: ts) w' ↔ d.Completes G w ((k, x) :: ts) w') :
    c.Finds G v k r ↔ d.Finds G w k r := by
  unfold Finds
  split <;> simp only [hcd]

/-- A token after `v` goes to the pending part, or the pending part is empty. -/
theorem completes_followBy_cons {next : Slot} {x : V} {ts : List (K × V)} :
    (c.push (.followBy next)).Completes G v ((k, x) :: ts) w ↔ (c.push (.prepend v)).Takes G next k x ts w ∨
      ∃ u, Derives G next [] u ∧ c.Completes G (prepend v u) ((k, x) :: ts) w := by
  constructor
  · rintro ⟨us, ws, u, h, hu, hw⟩
    rcases List.cons_eq_append_iff.1 h with ⟨rfl, rfl⟩ | ⟨us, rfl, rfl⟩
    · exact .inr ⟨u, hu, hw⟩
    · exact .inl ⟨us, ws, u, rfl, hu, hw⟩
  · rintro (⟨us, ws, u, rfl, hu, hw⟩ | ⟨u, hu, hw⟩)
    · exact ⟨_, ws, u, rfl, hu, hw⟩
    · exact ⟨[], _, u, rfl, hu, hw⟩

theorem completes_followBy_nil {next : Slot} : (c.push (.followBy next)).Completes G v [] w ↔
    ∃ u, Derives G next [] u ∧ c.Completes G (prepend v u) [] w := by
  constructor
  · rintro ⟨us, ws, u, h, hu, hw⟩
    obtain ⟨rfl, rfl⟩ := List.append_eq_nil_iff.1 h.symm
    exact ⟨u, hu, hw⟩
  · rintro ⟨u, hu, hw⟩
    exact ⟨[], [], u, rfl, hu, hw⟩

namespace ValidGrammar.Lawful

variable [Kind K] {g : ValidGrammar V K} (h : g.Lawful)
include h

/-- A step down loses no way to go on. -/
theorem takes_iff (hd : Descends g.productions k s c t c') {x : V} {ts : List (K × V)} :
    c.Takes g.productions s k x ts w ↔ c'.Takes g.productions t k x ts w := by
  cases hd with
  | left hs hk =>
    refine exists_congr fun us => exists_congr fun ws => exists_congr fun u => ?_
    rw [derives_iff hs]
    refine and_congr_right fun _ => and_congr_left fun _ => or_iff_left fun hr => ?_
    exact h.decided _ (.firstFirst hs hk hr.starts)
  | right hs hl hk =>
    refine exists_congr fun us => exists_congr fun ws => exists_congr fun u => ?_
    rw [derives_iff hs]
    exact and_congr_right fun _ => and_congr_left fun _ => or_iff_right fun hl' => hl hl'.starts
  | first hs hk =>
    constructor
    · rintro ⟨us, ws, u, rfl, hu, hw⟩
      obtain ⟨as, bs, a, b, ha, hb, hab, rfl⟩ := (derives_iff hs).1 hu
      rcases List.cons_eq_append_iff.1 hab with ⟨rfl, rfl⟩ | ⟨as, rfl, rfl⟩
      · exact (h.decided _ (.follow hs (barred_of_nullable ha.nullable hk) hb.starts)).elim
      · exact ⟨as, bs ++ ws, a, by rw [List.append_assoc], ha, bs, ws, b, rfl, hb, hw⟩
    · rintro ⟨as, _, a, rfl, ha, bs, ws, b, rfl, hb, hw⟩
      exact ⟨as ++ bs, ws, prepend a b, by rw [List.append_assoc], .sequence hs ha hb, hw⟩
  | second hs hl hv hk =>
    constructor
    · rintro ⟨us, ws, u, rfl, hu, hw⟩
      obtain ⟨as, bs, a, b, ha, hb, hab, rfl⟩ := (derives_iff hs).1 hu
      rcases List.cons_eq_append_iff.1 hab with ⟨rfl, rfl⟩ | ⟨as, rfl, rfl⟩
      · obtain rfl := h.decided.emptyValue_unique hv ha
        exact ⟨us, ws, b, rfl, hb, hw⟩
      · exact (hl ha.starts).elim
    · rintro ⟨us, ws, b, rfl, hb, hw⟩
      exact ⟨us, ws, _, rfl, .sequence hs hv hb, hw⟩
  | transform hs hk =>
    constructor
    · rintro ⟨us, ws, u, rfl, hu, hw⟩
      obtain ⟨a, ha, hf⟩ := (derives_iff hs).1 hu
      exact ⟨us, ws, a, rfl, ha, u, hf, hw⟩
    · rintro ⟨us, ws, a, rfl, ha, u, hf, hw⟩
      exact ⟨us, ws, u, rfl, .transform hs ha hf, hw⟩

/-- Steps down keep what is to come apart. -/
theorem guards_step (hd : Descends g.productions k s c t c') (hs : c.Guards g.productions s)
    (hc : c.Guarded g.productions) : c'.Guards g.productions t ∧ c'.Guarded g.productions := by
  cases hd with
  | left hp => exact ⟨hs.mono fun _ => .inLeft hp, hc⟩
  | right hp => exact ⟨hs.mono fun _ => .inRight hp, hc⟩
  | first hp hk =>
    have hright := h.lt_of_part hp (List.mem_cons_of_mem _ (List.mem_cons_self ..))
    refine ⟨fun j hj v x ts w hw => ?_, productions_isSome_iff.2 hright, ?_, hc⟩
    · rcases completes_followBy_cons.1 hw with ⟨us, ws, u, rfl, hu, hw⟩ | ⟨u, hu, hw⟩
      · exact h.decided _ (.follow hp hj hu.starts)
      · exact hs j (.first hp hu.nullable hj) _ x ts w hw
    · exact hs.mono fun _ => .second hp hk.productive
  | second hp hl hv => exact ⟨(hs.mono fun _ => .second hp ⟨[], hv.nullable⟩).prepend _, hc⟩
  | transform hp => exact ⟨(hs.mono fun _ => .transform hp).apply _, hc⟩

/-- The focus that is found has all ways to go on that the token leaves. -/
theorem descend_spec {n m : Nat} (hn : Falls g.productions k n s) (hm : n < m) (hs : c.Guards g.productions s)
    (hc : c.Guarded g.productions) :
    ∃ f, g.descend k m s c = .ok f ∧ f.Continues g.productions k (c.Takes g.productions s k) := by
  induction hn generalizing m c with
  | @element s he =>
    obtain ⟨m, rfl⟩ := Nat.exists_eq_succ_of_ne_zero (Nat.ne_zero_of_lt hm)
    obtain ⟨e, hentry, hf⟩ := entry_of_form (.element _) he
    refine ⟨⟨s, k, c⟩, by simp [descend, bind, Except.bind, pure, Except.pure, hentry, hf], rfl, hc, fun x ts w => ?_⟩
    constructor
    · rintro ⟨us, ws, u, rfl, hu, hw⟩
      have hu := (derives_iff he).1 hu
      simp only [Production.Builds, List.cons.injEq, Prod.mk.injEq, true_and] at hu
      obtain ⟨rfl, rfl⟩ := hu
      exact hw
    · intro hw
      exact ⟨[], ts, x, rfl, .element he, hw⟩
  | step hd hn ih =>
    obtain ⟨m, rfl⟩ := Nat.exists_eq_succ_of_ne_zero (Nat.ne_zero_of_lt hm)
    obtain ⟨c', hd⟩ := hd c
    obtain ⟨hs', hc'⟩ := h.guards_step hd hs hc
    obtain ⟨f, hf, hkind, hctx, hiff⟩ := ih (Nat.lt_of_succ_lt_succ hm) hs' hc'
    refine ⟨f, (h.descend_step hd m).trans hf, hkind, hctx, fun x ts w => ?_⟩
    exact (h.takes_iff hd).trans (hiff x ts w)

theorem focusAt_spec (hk : Starts g.productions s k) (hs : c.Guards g.productions s) (hc : c.Guarded g.productions) :
    ∃ f, g.focusAt s k c = .ok f ∧ f.Continues g.productions k (c.Takes g.productions s k) := by
  obtain ⟨n, hn⟩ := h.exists_falls hk
  rw [focusAt, h.acceptsAt_of_starts hk]
  exact h.descend_spec hn (lt_size_of_falls hn) hs hc

theorem seek_finds (hc : c.Guarded g.productions) (v : V) : c.Finds g.productions v k (g.seek k v c) := by
  induction c generalizing v with
  | top => simp [seek, Finds, Completes]
  | push frame c ih =>
    cases frame with
    | prepend left => exact ih hc _
    | apply f =>
      simp only [seek, Transformation.run]
      cases hf : f.apply v with
      | error text =>
        rintro x ts w ⟨u, hu, -⟩
        exact absurd (hf.symm.trans hu) (by simp)
      | ok u => exact (finds_congr fun x ts w => by simp [Completes, hf]).2 (ih hc u)
    | followBy next =>
      obtain ⟨hnext, hguards, hc⟩ := hc
      obtain ⟨e, he, -⟩ := exists_entry (productions_isSome_iff.1 hnext)
      simp only [seek, entry_of_get he]
      by_cases hmem : e.first.contains k = true
      · rw [if_pos hmem]
        have hk := (h.first _ e he k).1 (FinSet.contains_iff_mem.1 hmem)
        refine ⟨hk, hguards.prepend v, hc, fun x ts w => completes_followBy_cons.trans (or_iff_left ?_)⟩
        rintro ⟨u, hu, hw⟩
        exact hguards k (barred_of_nullable hu.nullable hk) _ x ts w hw
      · rw [if_neg hmem]
        have hk : ∀ x ts w, ¬(c.push (.prepend v)).Takes g.productions next k x ts w := by
          rintro x ts w ⟨us, ws, u, -, hu, -⟩
          exact hmem (FinSet.contains_iff_mem.2 ((h.first _ e he k).2 hu.starts))
        cases hv : e.emptyValue with
        | none =>
          intro x ts w hw
          obtain ⟨u, hu, -⟩ := (completes_followBy_cons.1 hw).resolve_left (hk x ts w)
          cases hv.symm.trans ((h.emptyValue_iff he).2 hu)
        | some u =>
          refine (finds_congr fun x ts w => ?_).2 (ih hc (prepend v u))
          rw [completes_followBy_cons, or_iff_right (hk x ts w)]
          simp only [← h.emptyValue_iff he, hv, Option.some.injEq, exists_eq_left']

/-- If nothing follows `v`, all pending parts are empty. -/
theorem close_iff (hc : c.Guarded g.productions) : g.close v c = .ok (some w) ↔ c.Completes g.productions v [] w := by
  induction c generalizing v with
  | top => simp [close, Completes, eq_comm]
  | push frame c ih =>
    cases frame with
    | prepend left => exact ih hc
    | apply f =>
      simp only [close, Transformation.run, Completes]
      cases hf : f.apply v with
      | error text => simp
      | ok u => simpa using ih hc
    | followBy next =>
      obtain ⟨hnext, -, hc⟩ := hc
      obtain ⟨e, he, -⟩ := exists_entry (productions_isSome_iff.1 hnext)
      simp only [close, entry_of_get he]
      simp only [completes_followBy_nil, ← h.emptyValue_iff he]
      cases e.emptyValue with
      | none => simp
      | some u => simpa using ih hc

end ValidGrammar.Lawful

namespace Fold

/-- The tokens `ts` lead on to the result `w`. -/
def Completes (G : Productions V K) : Fold V → List (K × V) → V → Prop
  | done v, ts, w => ts = [] ∧ w = v
  | suspended s, ts, w => (s.context.push (.followBy s.next)).Completes G s.value ts w

def Guarded (G : Productions V K) : Fold V → Prop
  | done _ => True
  | suspended s => (s.context.push (.followBy s.next)).Guarded G

end Fold

/-- Folding outwards takes no token, and changes nothing of what is to come. -/
theorem unwind_spec (hc : c.Guarded G) (v : V) :
    (∀ d, unwind v c = (.ok d : Except (ParseFault K) (Fold V)) →
      d.Guarded G ∧ ∀ ts w, c.Completes G v ts w ↔ d.Completes G ts w) ∧
    ∀ e, unwind v c = (.error e : Except (ParseFault K) (Fold V)) → ∀ ts w, ¬c.Completes G v ts w := by
  induction c generalizing v with
  | top =>
    refine ⟨fun d hd => ?_, fun e he => nomatch he⟩
    cases hd
    exact ⟨trivial, fun ts w => .rfl⟩
  | push frame c ih =>
    cases frame with
    | prepend left => exact ih hc _
    | apply f =>
      simp only [unwind, Transformation.run, Completes]
      cases hf : f.apply v with
      | error text => simp
      | ok u => simpa using ih hc u
    | followBy next =>
      refine ⟨fun d hd => ?_, fun e he => nomatch he⟩
      cases hd
      exact ⟨hc, fun ts w => .rfl⟩

namespace ValidGrammar.Lawful

variable [Kind K] {g : ValidGrammar V K} {d : Fold V} (h : g.Lawful)
include h

/-- A cursor is resumed for every token that leads on, and for no other. -/
theorem resume_found (hd : d.Guarded g.productions) (k : K) :
    Focus.Found g.productions k (fun x ts w => d.Completes g.productions ((k, x) :: ts) w) (d.resume g k) := by
  cases d with
  | done v => exact fun x ts w hw => nomatch hw.1
  | suspended s =>
    have hfinds := h.seek_finds (k := k) hd s.value
    simp only [Fold.resume, Fold.seek]
    generalize g.seek k s.value (s.context.push (.followBy s.next)) = r at hfinds
    match r with
    | .error e => exact hfinds
    | .ok none => exact hfinds
    | .ok (some (t, c)) =>
      obtain ⟨hk, hguards, hc, hiff⟩ := hfinds
      obtain ⟨f, hf, hkind, hctx, hcont⟩ := h.focusAt_spec hk hguards hc
      simp only [bind, Except.bind, hf]
      exact ⟨hkind, hctx, fun x ts w => (hiff x ts w).trans (hcont x ts w)⟩

theorem finish_iff (hd : d.Guarded g.productions) : d.finish g = .ok (some w) ↔ d.Completes g.productions [] w := by
  cases d with
  | done v => simp [Fold.finish, Fold.Completes, eq_comm]
  | suspended s => exact h.close_iff hd

end ValidGrammar.Lawful
end Predictive
