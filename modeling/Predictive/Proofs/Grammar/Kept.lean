import Predictive.Proofs.Grammar.Finality

/-!
What is remembered about a grammar at any moment: it is sound, the traits it ascribes are supported by what the
parts have got, and what is settled is justified. Readings keep this, however they end.
-/
namespace Predictive.Grammar.Store

open Solver (Cell Query Family Memos Memo Pass)

variable {V K : Type} [Value V] [Kind K]

/-- What holds of the memos, `e` passes having been made. -/
structure Kept (s : Store V K) (e : Nat) (m : Memos (FactName.Carrier V K)) : Prop where
  epoch : ∀ c, (Family.memo m c).epoch ≤ e
  fresh : ∀ c, (Family.memo m c).epoch = 0 → Family.memo m c = Memo.fresh
  known : ∀ c, (Family.memo m c).epoch ≠ 0 → Complete s.productions c.place
  sound : ∀ c, SoundFact s.productions c.place c.fact (Family.memo m c).value
  rising : ∀ i p (t : Trait K), s.productions i = some p → t.In (Family.memo m ⟨i, t.fact⟩).value →
    p.Gives (Ascribed (s.whole.value m)) t
  settled : s.Settled m

variable {s : Store V K} {m m' : Memos (FactName.Carrier V K)} {e i i₀ j : Nat} {f : FactName}
  {c d : Cell FactName} {t : Pass (FactName.Carrier V K)}

theorem kept_empty (s : Store V K) : s.Kept 0 ∅ where
  epoch c := by simp [Memo.fresh]
  fresh c _ := Family.memo_empty c
  known c h := by simp [Memo.fresh] at h
  sound c := by
    rw [Family.memo_empty]
    exact soundFact_bottom
  rising i p t _ h := by
    rw [Family.memo_empty] at h
    exact absurd h Trait.not_in_bottom
  settled c h := by simp [Memo.fresh] at h

theorem Kept.sound_value (h : s.Kept e m) : Sound s.productions (s.whole.value m) := Store.sound_value h.sound

theorem below_of_follow {n q : Nat} (h : s.whole.follow f n i = some q) : Below s.productions i q := by
  induction n generalizing i with
  | zero => cases h
  | succ n ih =>
    rw [Family.follow] at h
    split at h
    · exact .head ⟨_, deferred_of_definition ‹_›, by simp [Production.parts]⟩ (ih h)
    · cases h
      exact .refl

theorem below_of_source? (h : s.whole.source? c = some d) : Below s.productions c.place d.place :=
  below_of_follow (Family.source?_eq_some h).2.1

theorem family_within (l : Liveness) (hi : Complete s.productions i₀) :
    (s.family l).Within fun c => Below s.productions i₀ c.place := by
  intro c q σ hc hq r hr d hd
  obtain ⟨p, hp⟩ := Option.isSome_iff_exists.1 (hi _ hc)
  obtain ⟨q', hq', hqq⟩ := (s.family_refines l).rule hq
  rw [(s.family_refines l).source?] at hd
  have hread := (hqq σ).1 r hr
  rw [Production.reads_of_rule ((define_of_production hp).symm.trans hq')] at hread
  exact (hc.trans (Below.part hp (Production.place_of_reads hread))).trans (below_of_source? hd)

theorem family_bounded (s : Store V K) (l : Liveness) : (s.family l).Bounded := by
  refine ⟨(List.range s.nodes.size).flatMap fun i => [⟨i, .first⟩, ⟨i, .emptyValue⟩, ⟨i, .productive⟩,
    ⟨i, .restrictions⟩, ⟨i, .conflicts⟩], ?_, fun c q hq => ?_⟩
  · simp [family, Nat.mul_comm]
  · have hlt : c.place < s.nodes.size := by
      by_contra hn
      simp [family, definition, Array.getElem?_eq_none (Nat.le_of_not_lt hn)] at hq
    obtain ⟨i, f⟩ := c
    rw [List.mem_flatMap]
    exact ⟨i, List.mem_range.2 hlt, by cases f <;> simp⟩

/-- When a rule is computed, the traits that are ascribed to the nodes only become more. -/
theorem Kept.grows (h : s.Kept e m) {p : Production V K} {q : NodeQuery V K (c.fact.Carrier V K)}
    {v : c.fact.Carrier V K} (hp : s.productions c.place = some p) (hq : p.define c.place c.fact = .rule q)
    (hv : q.denote (s.whole.value m) = .ok v) (hc : (Family.memo m' c).value = v)
    (hsame : ∀ d, d ≠ c → (Family.memo m' d).value = (Family.memo m d).value) {t : Trait K}
    (ht : Ascribed (s.whole.value m) j t) : Ascribed (s.whole.value m') j t := by
  cases hs : s.whole.source? ⟨j, t.fact⟩ with
  | none => rwa [Ascribed, ← Family.value_of_no_source m _ hs]
  | some d =>
    obtain ⟨q', g⟩ := d
    obtain rfl : g = t.fact := (Family.source?_eq_some hs).1
    rw [Ascribed, Family.value_of_source? hs] at ht ⊢
    by_cases hd : (⟨q', t.fact⟩ : Cell FactName) = c
    · subst hd
      rw [hc, gives_of_rule hq hv]
      exact h.rising q' p t hp ht
    · rwa [hsame _ hd]

/-- From `m` to `m'` a rule is reached or computed: its value stays, or becomes what the rule gives. -/
structure Touches (s : Store V K) (c : Cell FactName) (m m' : Memos (FactName.Carrier V K)) : Prop where
  unsettled : (Family.memo m c).settled = false
  others : ∀ d, d ≠ c → Family.memo m' d = Family.memo m d
  still : (Family.memo m' c).settled = false
  value : (Family.memo m' c).value = (Family.memo m c).value ∨ ∃ p q, s.productions c.place = some p ∧
    p.define c.place c.fact = .rule q ∧ q.denote (s.whole.value m) = .ok (Family.memo m' c).value

theorem Touches.lasts (h : s.Touches c m m') : Family.Lasts m m' := fun d hd => by
  have hdc : d ≠ c := fun hdc => by
    rw [hdc, h.unsettled] at hd
    cases hd
  rw [h.others d hdc]
  exact ⟨hd, rfl⟩

/-- What is ascribed to the nodes stays ascribed. -/
theorem Touches.ascribed (ht : s.Touches c m m') (h : s.Kept e m) {u : Trait K}
    (hu : Ascribed (s.whole.value m) j u) : Ascribed (s.whole.value m') j u := by
  rcases ht.value with hv | ⟨p, q, hp, hq, hv⟩
  · have hsame : s.whole.value m j u.fact = s.whole.value m' j u.fact := by
      refine Family.value_congr fun d _ => ?_
      by_cases hd : d = c
      · subst hd
        exact hv.symm
      · rw [ht.others d hd]
    rwa [Ascribed, ← hsame]
  · exact h.grows hp hq hv rfl (fun d hd => by rw [ht.others d hd]) hu

/-- The new value says nothing that does not hold, -/
theorem Touches.sound (ht : s.Touches c m m') (h : s.Kept e m) :
    SoundFact s.productions c.place c.fact (Family.memo m' c).value := by
  rcases ht.value with hv | ⟨p, q, hp, hq, hv⟩
  · rw [hv]
    exact h.sound c
  · exact h.sound_value.rule hp hq hv

/-- and what it says is given by what is ascribed to the parts. -/
theorem Touches.gives {u : Trait K} (ht : s.Touches ⟨i, u.fact⟩ m m') (h : s.Kept e m)
    {p : Production V K} (hp : s.productions i = some p) (hu : u.In (Family.memo m' ⟨i, u.fact⟩).value) :
    p.Gives (Ascribed (s.whole.value m)) u := by
  rcases ht.value with hv | ⟨p', q, hp', hq, hv⟩
  · rw [hv] at hu
    exact h.rising i p u hp hu
  · obtain rfl : p = p' := Option.some.inj (hp.symm.trans hp')
    exact (gives_of_rule hq hv).1 hu

theorem Kept.update (h : s.Kept e m) (he : e ≠ 0) (hc : Complete s.productions c.place) (ht : s.Touches c m m')
    (hce : (Family.memo m' c).epoch = e) : s.Kept e m' where
  epoch d := by
    by_cases hdc : d = c
    · subst hdc
      exact Nat.le_of_eq hce
    · rw [ht.others d hdc]
      exact h.epoch d
  fresh d hd := by
    by_cases hdc : d = c
    · subst hdc
      exact absurd (hce.symm.trans hd) he
    · rw [ht.others d hdc] at hd ⊢
      exact h.fresh d hd
  known d hd := by
    by_cases hdc : d = c
    · subst hdc
      exact hc
    · rw [ht.others d hdc] at hd
      exact h.known d hd
  sound d := by
    by_cases hdc : d = c
    · subst hdc
      exact ht.sound h
    · rw [ht.others d hdc]
      exact h.sound d
  rising i p u hp hu := by
    refine Production.Gives.mono ?_ fun j _ _ => ht.ascribed h
    by_cases hdc : (⟨i, u.fact⟩ : Cell FactName) = c
    · subst hdc
      exact ht.gives h hp hu
    · rw [ht.others _ hdc] at hu
      exact h.rising i p u hp hu
  settled d hd := by
    have hdc : d ≠ c := fun hdc => by
      subst hdc
      simp [ht.still] at hd
    rw [ht.others d hdc] at hd
    exact (h.settled d hd).mono (by rw [ht.others d hdc]) ht.lasts

theorem touches_start (hset : (t.memo c).settled = false) (epoch number : Nat) :
    s.Touches c t.memos (t.start epoch number c).memos := by
  have hself : Family.memo (t.start epoch number c).memos c = _ := Pass.memo_start_self
  refine ⟨hset, fun d hd => Pass.memo_start_of_ne hd.symm, ?_, .inl ?_⟩
  · rw [hself]
    exact hset
  · rw [hself]
    rfl

theorem touches_finish (l : Liveness) (hc : Complete s.productions c.place) (epoch number : Nat)
    {q : NodeQuery V K (c.fact.Carrier V K)} {v : c.fact.Carrier V K} (hset : (t.memo c).settled = false)
    (hq : (s.family l).definition c.place c.fact = .rule q)
    (hv : (s.family l).eval (t.start epoch number c).memos epoch q = .ok (v, [])) :
    s.Touches c t.memos ((t.start epoch number c).finish c v).memos := by
  obtain ⟨p, hp⟩ := Option.isSome_iff_exists.1 (hc _ .refl)
  obtain ⟨q', hq', hqq⟩ := (s.family_refines l).rule hq
  obtain ⟨hv', -⟩ := (hqq _).2 _ (Family.eval_ok hv).1
  have hvalue : (s.family l).value (t.start epoch number c).memos = s.whole.value t.memos := by
    rw [(s.family_refines l).value_eq]
    exact funext fun i => funext fun f => Family.value_start_memos i f
  rw [hvalue] at hv'
  have hself : Family.memo ((t.start epoch number c).finish c v).memos c = _ := Pass.memo_finish_self v
  refine ⟨hset, fun d hd => (Pass.memo_finish_of_ne v hd.symm).trans (Pass.memo_start_of_ne hd.symm), ?_,
    .inr ⟨p, q', hp, (define_of_production hp).symm.trans hq', ?_⟩⟩
  · rw [hself, Pass.memo_start_self]
    exact hset
  · rw [hself]
    exact hv'

theorem Kept.start (h : s.Kept (e + 1) t.memos) (hc : Complete s.productions c.place) (number : Nat)
    (hset : (t.memo c).settled = false) : s.Kept (e + 1) (t.start (e + 1) number c).memos := by
  have hself : Family.memo (t.start (e + 1) number c).memos c = _ := Pass.memo_start_self
  refine h.update (Nat.succ_ne_zero e) hc (touches_start hset (e + 1) number) ?_
  rw [hself]

theorem Kept.finish (h : s.Kept (e + 1) t.memos) (l : Liveness) (hc : Complete s.productions c.place)
    (number : Nat) {q : NodeQuery V K (c.fact.Carrier V K)} {v : c.fact.Carrier V K}
    (hset : (t.memo c).settled = false) (hq : (s.family l).definition c.place c.fact = .rule q)
    (hv : (s.family l).eval (t.start (e + 1) number c).memos (e + 1) q = .ok (v, [])) :
    s.Kept (e + 1) ((t.start (e + 1) number c).finish c v).memos := by
  have hself : Family.memo ((t.start (e + 1) number c).finish c v).memos c = _ := Pass.memo_finish_self v
  refine h.update (Nat.succ_ne_zero e) hc (touches_finish l hc (e + 1) number hset hq hv) ?_
  rw [hself, Pass.memo_start_self]

theorem Kept.settle {T : List (Cell FactName)} (h : s.Kept (e + 1) m)
    (hT : ∀ c ∈ T, (Family.memo m c).epoch = e + 1 ∧ s.whole.Justified (Solver.settle T m) c) :
    s.Kept (e + 1) (Solver.settle T m) := by
  have hvalue : ∀ i f, s.whole.value (Solver.settle T m) i f = s.whole.value m i f := fun i f =>
    Family.value_congr fun d _ => Family.value_settle
  refine ⟨fun c => ?_, fun c hc => ?_, fun c hc => ?_, fun c => ?_, fun i p u hp hu => ?_, fun c hc => ?_⟩
  · rw [Family.epoch_settle]
    exact h.epoch c
  · rw [Family.epoch_settle] at hc
    rw [Family.memo_settle_of_not_mem fun hm => by simp [(hT c hm).1] at hc]
    exact h.fresh c hc
  · rw [Family.epoch_settle] at hc
    exact h.known c hc
  · rw [Family.value_settle]
    exact h.sound c
  · rw [Family.value_settle] at hu
    refine (h.rising i p u hp hu).mono fun j _ u hu => ?_
    rwa [Ascribed, hvalue]
  · by_cases hm : c ∈ T
    · exact (hT c hm).2
    · rw [Family.memo_settle_of_not_mem hm] at hc
      exact (h.settled c hc).mono Family.value_settle (Family.lasts_settle T m)

/-- A reading of the facts below `i₀` keeps what holds of the memos. -/
theorem kept_invariant (l : Liveness) (hi : Complete s.productions i₀) :
    (s.family l).Invariant (fun c => Below s.productions i₀ c.place) s.Kept where
  epoch h := h.epoch _
  next h := ⟨fun c => Nat.le_succ_of_le (h.epoch c), h.fresh, h.known, h.sound, h.rising, h.settled⟩
  start hc hf h := h.start (hi.below hc) _ (Family.not_settled_of_not_finished hf)
  finish hc hf hq hv h := h.finish l (hi.below hc) _ (Family.not_settled_of_not_finished hf) hq hv
  settle h hT := h.settle fun c hc => ⟨(hT c hc).1, (s.family_refines l).justified (hT c hc).2.2⟩

end Predictive.Grammar.Store
