import Predictive.Proofs.Grammar.Kept

/-!
What is made stays: nodes are added, self-references and deferred nodes get what they lead to. What is remembered
of the nodes holds all the same.
-/
namespace Predictive

open Grammar

variable {V K : Type}

section Extension

variable {G H : Productions V K} {i : Nat}

theorem Has.extend {t : Trait K} (e : Extends G H) (h : Has G i t) : Has H i t :=
  Has.induct (motive := Has H) (fun _ _ _ hi hp => has_of_gives (e hi) (hp.mono fun _ _ _ h => h.2)) h

variable [Kind K]

theorem Warranted.extend {c : Conflict K} (e : Extends G H) (h : Warranted G i c) : Warranted H i c := by
  cases c with
  | bothAcceptEmpty d =>
    obtain ⟨l, r, hb, hd, hl, hr⟩ := h
    exact ⟨l, r, hb.extend e, e hd, hl.extend e, hr.extend e⟩
  | firstFirstClash d ks =>
    obtain ⟨l, r, hb, hd, hk, hks⟩ := h
    exact ⟨l, r, hb.extend e, e hd, hk, fun k hk => ⟨(hks k hk).1.extend e, (hks k hk).2.extend e⟩⟩
  | followClash d q ks =>
    obtain ⟨l, r, x, hb, hq, hx, hk, hks⟩ := h
    exact ⟨l, r, x, hb.extend e, e hq, hx.extend e, hk,
      fun k hk => ⟨(hks k hk).1.extend e, (hks k hk).2.extend e⟩⟩

theorem SoundFact.extend [Value V] {f : FactName} {v : f.Carrier V K} (e : Extends G H)
    (h : SoundFact G i f v) : SoundFact H i f v := by
  cases f with
  | first => exact fun k hk => (h k hk).extend e
  | emptyValue => exact fun w hw => (h w hw).extend e
  | productive => exact fun hb => (h hb).extend e
  | restrictions =>
    intro a ha
    obtain ⟨x, hx, hks⟩ := h a ha
    exact ⟨x, hx.extend e, fun k hk => (hks k hk).extend e⟩
  | conflicts => exact fun c hc => (h c hc).extend e

end Extension

namespace Grammar.Store

open Solver (Cell Family Memos Memo)

/-- The store `s'` has all that `s` has. -/
structure Grows [Ord K] (s s' : Store V K) : Prop where
  nodes : ∀ (i : Nat) (shape : Shape V K), s.nodes[i]? = some shape →
    s'.nodes[i]? = some shape ∨
      ∃ o t, shape = Shape.deferred o none ∧ s'.nodes[i]? = some (Shape.deferred o (some t))
  knots : ∀ k i, s.nodeOf? (.self k) = some i → s'.nodeOf? (.self k) = some i

section Nodes

variable [Ord K] {s s' s'' : Store V K} {i : Nat}

theorem Grows.refl (s : Store V K) : s.Grows s := ⟨fun _ _ h => .inl h, fun _ _ h => h⟩

theorem Grows.trans (h : s.Grows s') (h' : s'.Grows s'') : s.Grows s'' := by
  refine ⟨fun i shape hi => ?_, fun k i hk => h'.knots k i (h.knots k i hk)⟩
  rcases h.nodes i shape hi with hs | ⟨o, t, rfl, hs⟩
  · exact h'.nodes i shape hs
  · rcases h'.nodes i _ hs with hs' | ⟨_, _, ho, _⟩
    · exact .inr ⟨o, t, rfl, hs'⟩
    · cases ho

theorem Grows.nodeOf? (h : s.Grows s') {r : Ref} (hr : s.nodeOf? r = some i) : s'.nodeOf? r = some i := by
  cases r with
  | node j => exact hr
  | self k => exact h.knots k i hr

theorem Grows.size_le (h : s.Grows s') : s.nodes.size ≤ s'.nodes.size := by
  rcases Nat.eq_zero_or_pos s.nodes.size with h0 | hpos
  · omega
  · have hlt : s.nodes.size - 1 < s.nodes.size := by omega
    have hlt' : s.nodes.size - 1 < s'.nodes.size := by
      rcases h.nodes _ _ (Array.getElem?_eq_getElem hlt) with hs | ⟨_, _, _, hs⟩
      · exact (Array.getElem?_eq_some_iff.1 hs).1
      · exact (Array.getElem?_eq_some_iff.1 hs).1
    omega

theorem Grows.extends (h : s.Grows s') : Extends s.productions s'.productions := by
  intro i p hi
  simp only [productions] at hi ⊢
  cases hn : s.nodes[i]? with
  | none => simp [hn] at hi
  | some shape =>
    simp only [hn] at hi
    rcases h.nodes i shape hn with hs | ⟨o, t, rfl, hs⟩
    · rw [hs]
      cases shape with
      | success v | element k => exact hi
      | disjunction a b | sequence a b =>
        simp only [Option.bind_eq_some_iff, Option.map_eq_some_iff] at hi ⊢
        obtain ⟨l, hl, r, hr, rfl⟩ := hi
        exact ⟨l, h.nodeOf? hl, r, h.nodeOf? hr, rfl⟩
      | transform f a =>
        simp only [Option.map_eq_some_iff] at hi ⊢
        obtain ⟨j, hj, rfl⟩ := hi
        exact ⟨j, h.nodeOf? hj, rfl⟩
      | deferred o target =>
        cases target with
        | none => cases hi
        | some t =>
          simp only [Option.map_eq_some_iff] at hi ⊢
          obtain ⟨j, hj, rfl⟩ := hi
          exact ⟨j, h.nodeOf? hj, rfl⟩
    · cases hi

end Nodes

variable [Value V] [Kind K] {s s' : Store V K} {i e : Nat} {f : FactName} {m : Memos (FactName.Carrier V K)}

theorem Grows.definition (h : s.Grows s') (hi : Complete s.productions i) :
    s'.whole.definition i f = s.whole.definition i f := by
  obtain ⟨p, hp⟩ := Option.isSome_iff_exists.1 (hi i .refl)
  rw [define_of_production hp, define_of_production (h.extends hp)]

theorem Grows.follow (h : s.Grows s') (n : Nat) (hi : Complete s.productions i) :
    s'.whole.follow f n i = s.whole.follow f n i := by
  induction n generalizing i with
  | zero => rfl
  | succ n ih =>
    rw [Family.follow, Family.follow, h.definition hi]
    split
    · exact ih (hi.part (deferred_of_definition ‹_›) (by simp [Production.parts]))
    · rfl

/-- A chain of targets that has an end keeps it. -/
theorem Grows.resolve (h : s.Grows s') (hi : Complete s.productions i) (hr : (s.whole.resolve i f).isSome) :
    s'.whole.resolve i f = s.whole.resolve i f := by
  obtain ⟨q, hq⟩ := Option.isSome_iff_exists.1 hr
  have hle : s.whole.size + 1 ≤ s'.whole.size + 1 := by
    have := h.size_le
    simp only [whole, family]
    omega
  have hq' := hq
  rw [Family.resolve, ← h.follow _ hi] at hq'
  rw [hq]
  exact Family.follow_mono hle hq'

theorem Grows.source? (h : s.Grows s') (hi : Complete s.productions i) (hr : (s.whole.resolve i f).isSome) :
    s'.whole.source? ⟨i, f⟩ = s.whole.source? ⟨i, f⟩ := by
  obtain ⟨q, hq⟩ := Option.isSome_iff_exists.1 hr
  simp only [Family.source?, h.resolve hi hr, hq, h.definition (hi.below (below_of_follow hq))]

theorem Grows.value (h : s.Grows s') (hi : Complete s.productions i) (hr : (s.whole.resolve i f).isSome) :
    s'.whole.value m i f = s.whole.value m i f := by
  obtain ⟨q, hq⟩ := Option.isSome_iff_exists.1 hr
  simp only [Family.value, h.resolve hi hr, hq, h.definition (hi.below (below_of_follow hq))]

theorem Grows.final (h : s.Grows s') (hi : Complete s.productions i) (hf : s.whole.Final m ⟨i, f⟩) :
    s'.whole.Final m ⟨i, f⟩ := by
  refine ⟨by rw [h.resolve hi hf.1]; exact hf.1, fun d hd => hf.2 d ?_⟩
  rwa [h.source? hi hf.1] at hd

theorem Grows.ascribed (h : s.Grows s') (hi : Complete s.productions i) {t : Trait K}
    (ht : Ascribed (s.whole.value m) i t) : Ascribed (s'.whole.value m) i t := by
  cases hr : s.whole.resolve i t.fact with
  | none =>
    rw [Ascribed, Family.value, hr] at ht
    exact absurd ht Trait.not_in_bottom
  | some q => rwa [Ascribed, h.value hi (by simp [hr])]

theorem Grows.justified (h : s.Grows s') {c : Cell FactName} (hc : Complete s.productions c.place)
    (hj : s.whole.Justified m c) : s'.whole.Justified m c := by
  obtain ⟨q, σ, hq, hd, hr⟩ := hj
  obtain ⟨p, hp⟩ := Option.isSome_iff_exists.1 (hc _ .refl)
  refine ⟨q, σ, (h.definition hc).trans hq, hd, fun r hrr => ?_⟩
  obtain ⟨hf, ha⟩ := hr r hrr
  rw [define_of_production hp] at hq
  rw [Production.reads_of_rule hq] at hrr
  have hcomplete := hc.part hp (Production.place_of_reads hrr)
  exact ⟨h.final hcomplete hf, by rwa [h.value hcomplete hf.1]⟩

/-- What is remembered stays true as the store grows. -/
theorem Kept.grow (h : s.Kept e m) (hs : s.Grows s') : s'.Kept e m where
  epoch := h.epoch
  fresh := h.fresh
  known c hc := (h.known c hc).extend hs.extends
  sound c := (h.sound c).extend hs.extends
  rising i p t hp ht := by
    have hc : Complete s.productions i := h.known ⟨i, t.fact⟩ fun h0 => by
      rw [h.fresh _ h0] at ht
      exact Trait.not_in_bottom ht
    obtain ⟨p', hp'⟩ := Option.isSome_iff_exists.1 (hc i .refl)
    obtain rfl : p' = p := Option.some.inj ((hs.extends hp').symm.trans hp)
    exact (h.rising i p' t hp' ht).mono fun j hj _ hu => hs.ascribed (hc.part hp' hj) hu
  settled c hc := hs.justified (h.known c fun h0 => by simp [h.fresh c h0, Memo.fresh] at hc) (h.settled c hc)

end Grammar.Store
end Predictive
