import Predictive.Proofs.Remainder

/-!
Alternatives in another order or grouped otherwise, and sequences grouped otherwise: one token decides in one form if it
does in the other, and tables for both parse the same.
-/
namespace Predictive

variable {V K : Type} {G : Productions V K} {i j l r : Nat} {k : K} {p : Production V K}

/-! What a node is by what its parts are. -/

theorem has_iff_gives {t : Trait K} (hi : G i = some p) : Has G i t ↔ p.Gives (Has G) t :=
  ⟨gives_of_has hi, has_of_gives hi⟩

theorem starts_disjunction (hi : G i = some (.disjunction l r)) : Starts G i k ↔ Starts G l k ∨ Starts G r k := by
  simp only [← has_startsWith_iff]
  exact has_iff_gives hi

theorem nullable_disjunction (hi : G i = some (.disjunction l r)) : Nullable G i ↔ Nullable G l ∨ Nullable G r := by
  simp only [← has_nullable_iff]
  exact has_iff_gives hi

theorem starts_sequence (hi : G i = some (.sequence l r)) :
    Starts G i k ↔ Productive G r ∧ Starts G l k ∨ Nullable G l ∧ Starts G r k := by
  simp only [← has_startsWith_iff, ← has_nullable_iff, ← has_productive_iff]
  exact has_iff_gives hi

theorem nullable_sequence (hi : G i = some (.sequence l r)) : Nullable G i ↔ Nullable G l ∧ Nullable G r := by
  simp only [← has_nullable_iff]
  exact has_iff_gives hi

theorem productive_sequence (hi : G i = some (.sequence l r)) :
    Productive G i ↔ Productive G l ∧ Productive G r := by
  simp only [← has_productive_iff]
  exact has_iff_gives hi

theorem productive_iff_starts : Productive G i ↔ Nullable G i ∨ ∃ k, Starts G i k := by
  constructor
  · rintro ⟨_ | ⟨k, ks⟩, h⟩
    · exact .inl h
    · exact .inr ⟨k, ks, h⟩
  · rintro (h | ⟨k, ks, h⟩)
    · exact ⟨_, h⟩
    · exact ⟨_, h⟩

theorem barred_sequence (hi : G i = some (.sequence l r)) :
    Barred G i k ↔ Nullable G r ∧ Barred G l k ∨ Productive G l ∧ Barred G r k := by
  constructor
  · intro h
    cases h with
    | ofRight h | ofLeft h | inLeft h | inRight h | transform h | deferred h => cases hi.symm.trans h
    | first h hn hb =>
      cases hi.symm.trans h
      exact .inl ⟨hn, hb⟩
    | second h hp hb =>
      cases hi.symm.trans h
      exact .inr ⟨hp, hb⟩
  · rintro (⟨hn, hb⟩ | ⟨hp, hb⟩)
    · exact .first hi hn hb
    · exact .second hi hp hb

theorem clashAt_disjunction (hi : G i = some (.disjunction l r)) :
    ClashAt G i ↔ Nullable G l ∧ Nullable G r ∨ ∃ k, Starts G l k ∧ Starts G r k := by
  constructor
  · rintro (⟨h, hl, hr⟩ | ⟨h, hl, hr⟩ | ⟨h, -⟩)
    · cases hi.symm.trans h
      exact .inl ⟨hl, hr⟩
    · cases hi.symm.trans h
      exact .inr ⟨_, hl, hr⟩
    · cases hi.symm.trans h
  · rintro (⟨hl, hr⟩ | ⟨k, hl, hr⟩)
    · exact .bothEmpty hi hl hr
    · exact .firstFirst hi hl hr

theorem clashAt_sequence (hi : G i = some (.sequence l r)) : ClashAt G i ↔ ∃ k, Barred G l k ∧ Starts G r k := by
  constructor
  · rintro (⟨h, -⟩ | ⟨h, -⟩ | ⟨h, hl, hr⟩)
    · cases hi.symm.trans h
    · cases hi.symm.trans h
    · cases hi.symm.trans h
      exact ⟨_, hl, hr⟩
  · rintro ⟨k, hl, hr⟩
    exact .follow hi hl hr

theorem decidedFrom_iff (hi : G i = some p) : DecidedFrom G i ↔ ¬ClashAt G i ∧ ∀ j ∈ p.parts, DecidedFrom G j := by
  constructor
  · exact fun h => ⟨h i .refl, fun j hj => h.part hi hj⟩
  · rintro ⟨hclash, hparts⟩ n hn
    cases hn using Relation.ReflTransGen.head_induction_on with
    | refl => exact hclash
    | head hd hn =>
      obtain ⟨q, hq, hj⟩ := hd
      cases hi.symm.trans hq
      exact hparts _ hj _ hn

/-- Two nodes have the same alternatives, in another order or grouped otherwise. -/
inductive Reorders (G : Productions V K) : Nat → Nat → Prop
  | swap {i j a b} : G i = some (.disjunction a b) → G j = some (.disjunction b a) → Reorders G i j
  | regroup {i j m n a b c} : G i = some (.disjunction m c) → G m = some (.disjunction a b) →
      G j = some (.disjunction a n) → G n = some (.disjunction b c) → Reorders G i j

/-- Two nodes are sequences of the same three parts, grouped from the left and from the right, of which the first and the
last are productive. -/
inductive Regroups (G : Productions V K) : Nat → Nat → Prop
  | mk {i j m n a b c} : G i = some (.sequence m c) → G m = some (.sequence a b) → G j = some (.sequence a n) →
      G n = some (.sequence b c) → Productive G a → Productive G c → Regroups G i j

theorem Reorders.extend {H : Productions V K} (e : Extends G H) (h : Reorders G i j) : Reorders H i j := by
  cases h with
  | swap hi hj => exact .swap (e hi) (e hj)
  | regroup hi hm hj hn => exact .regroup (e hi) (e hm) (e hj) (e hn)

theorem Regroups.extend {H : Productions V K} (e : Extends G H) (h : Regroups G i j) : Regroups H i j := by
  cases h with
  | mk hi hm hj hn ha hc => exact .mk (e hi) (e hm) (e hj) (e hn) (ha.extend e) (hc.extend e)

/-- Whether one token decides does not depend on the order of alternatives and on how they are grouped. -/
theorem Reorders.decidedFrom_iff (h : Reorders G i j) : DecidedFrom G i ↔ DecidedFrom G j := by
  cases h with
  | swap hi hj =>
    rw [Predictive.decidedFrom_iff hi, Predictive.decidedFrom_iff hj, clashAt_disjunction hi, clashAt_disjunction hj]
    simp only [Production.parts, List.forall_mem_cons]
    grind
  | regroup hi hm hj hn =>
    rw [Predictive.decidedFrom_iff hi, Predictive.decidedFrom_iff hj]
    simp only [Production.parts, List.forall_mem_cons, Predictive.decidedFrom_iff hm, Predictive.decidedFrom_iff hn,
      clashAt_disjunction hi, clashAt_disjunction hj, clashAt_disjunction hm, clashAt_disjunction hn,
      nullable_disjunction hm, nullable_disjunction hn, starts_disjunction hm, starts_disjunction hn]
    grind

/-- Whether one token decides does not depend on how sequences are grouped. -/
theorem Regroups.decidedFrom_iff (h : Regroups G i j) : DecidedFrom G i ↔ DecidedFrom G j := by
  cases h with
  | mk hi hm hj hn ha hc =>
    rw [Predictive.decidedFrom_iff hi, Predictive.decidedFrom_iff hj]
    simp only [Production.parts, List.forall_mem_cons, Predictive.decidedFrom_iff hm, Predictive.decidedFrom_iff hn,
      clashAt_sequence hi, clashAt_sequence hj, clashAt_sequence hm, clashAt_sequence hn, barred_sequence hm,
      starts_sequence hn, ha, hc]
    grind

/-- What an empty sequence is made of. -/
theorem parts_of_empty [Value V] {v : V} (hi : G i = some (.sequence l r)) (h : Derives G i [] v) :
    ∃ x y, v = prepend x y ∧ Derives G l [] x ∧ Derives G r [] y := by
  obtain ⟨us, ws, x, y, hx, hy, hts, hv⟩ := (derives_iff hi).1 h
  obtain ⟨rfl, rfl⟩ := List.append_eq_nil_iff.1 hts.symm
  exact ⟨x, y, hv, hx, hy⟩

theorem missing_sequence [Value V] (hi : G i = some (.sequence l r))
    (h : (∀ x, ¬Derives G l [] x) ∨ ∀ x, ¬Derives G r [] x) (v : V) : ¬Derives G i [] v := by
  intro hv
  obtain ⟨x, y, -, hx, hy⟩ := parts_of_empty hi hv
  exact h.elim (fun hl => hl x hx) fun hr => hr y hy

theorem derives_disjunction [Value V] {ts : List (K × V)} {v : V} (hi : G i = some (.disjunction l r)) :
    Derives G i ts v ↔ Derives G l ts v ∨ Derives G r ts v := derives_iff hi

namespace ValidGrammar

variable [Value V] [Kind K] {g g' : ValidGrammar V K} {R : Slot → Slot → Prop} {a b c e m n a' b' c' n' : Slot}
  {k k' : Context V} {l : Nat} {E : V → V → Prop}

/-- Prepending is associative as far as `E` can tell. -/
def Associates (E : V → V → Prop) : Prop := ∀ x y z : V, E (prepend (prepend x y) z) (prepend x (prepend y z))

omit [Value V] in
theorem not_awaits_sequence {ts : List (K × V)} (hn : g.productions n = some (.sequence b c)) (hb : ¬g.Awaits b ts)
    (hc : Nullable g.productions b → ¬g.Awaits c ts) : ¬g.Awaits n ts := by
  rintro ⟨t, us, rfl, hs⟩
  rcases (starts_sequence hn).1 hs with ⟨-, hs⟩ | ⟨hnull, hs⟩
  · exact hb ⟨t, us, rfl, hs⟩
  · exact hc hnull ⟨t, us, rfl, hs⟩

section

variable (h : g.Lawful) (h' : g'.Lawful) (hR : Matches g g' R)
include h h' hR

theorem Matches.nullable_iff (ha : R a a') : Nullable g.productions a ↔ Nullable g'.productions a' := by
  constructor
  · intro hn
    obtain ⟨v, hv⟩ := h.exists_emptyValue hn
    exact ((hR.empty ha).1 hv).nullable
  · intro hn
    obtain ⟨v, hv⟩ := h'.exists_emptyValue hn
    exact ((hR.empty ha).2 hv).nullable

theorem Matches.productive_iff (ha : R a a') : Productive g.productions a ↔ Productive g'.productions a' := by
  rw [productive_iff_starts, productive_iff_starts, hR.nullable_iff h h' ha]
  simp only [hR.starts ha]

variable (hE : Congruence E g.Uses)
include hE

/-- A value in front of what is pending can be put in front of what is complete. -/
theorem Indistinct.exchange {x x' : V} (assoc : Associates E) (hc : R c c') (hk : Indistinct E g g' l k k')
    (hx : E x x') : Indistinct E g g' l ((k.push (.followBy c)).push (.prepend x))
      ((k'.push (.prepend x')).push (.followBy c')) := by
  have hassoc : ∀ {v v' w w'}, E v v' → E w w' → E (Predictive.prepend (Predictive.prepend x v) w)
      (Predictive.prepend x' (Predictive.prepend v' w')) := fun hv hw =>
    hE.equivalence.trans (assoc ..) (hE.homomorphic hx (hE.homomorphic hv hw))
  intro n v v' ts hv hts
  have hawaits : g.Awaits c ts ↔ g'.Awaits c' ts := hR.awaits_iff hc
  rw [proceed_prepend]
  by_cases hts' : g.Awaits c ts
  · obtain ⟨t, us, rfl, hs⟩ := hts'
    rw [h.proceed_followBy_of_starts hs, h'.proceed_followBy_of_starts ((hR.starts hc).1 hs)]
    refine entersAlike h h' hR hE l n c c' _ _ t us hc hs (Nat.le_of_succ_le hts) fun n w w' us hw hus => ?_
    rw [proceed_prepend, proceed_prepend, proceed_prepend]
    exact hk n _ _ us (hassoc hv hw) hus
  · by_cases hw : ∃ w, Derives g.productions c [] w
    · obtain ⟨w, hw⟩ := hw
      rw [h.proceed_followBy_of_empty hw hts', h'.proceed_followBy_of_empty ((hR.empty hc).1 hw) (hawaits.not.1 hts'),
        proceed_prepend]
      exact hk n _ _ ts (hassoc hv (hE.equivalence.refl w)) hts
    · rw [not_exists] at hw
      rw [h.proceed_followBy_of_missing (hR.bounds hc).1 hw hts', h'.proceed_followBy_of_missing (hR.bounds hc).2
        (fun w => (hR.empty hc).not.1 (hw w)) (hawaits.not.1 hts')]
      exact .error _

/-- If two parts are pending of which the first one is empty, the sequence of both goes on as the second one does. -/
theorem regroup_of_empty (assoc : Associates E) (hn : g'.productions n' = some (.sequence b' c')) (hb : R b b')
    (hc : R c c') (hk : Indistinct E g g' l k k') {i : Nat} {v v' w : V} {ts : List (K × V)} (hv : E v v')
    (hts : ts.length ≤ l) (hw : Derives g.productions b [] w) (htb : ¬g'.Awaits b' ts) :
    Alike E (g.proceed i (prepend v w) (k.push (.followBy c)) ts) (g'.proceed i v' (k'.push (.followBy n')) ts) := by
  have hassoc : ∀ {x x'}, E x x' → E (prepend (prepend v w) x) (prepend v' (prepend w x')) := fun hx =>
    hE.equivalence.trans (assoc ..) (hE.homomorphic hv (hE.homomorphic (hE.equivalence.refl w) hx))
  have hw' := (hR.empty hb).1 hw
  by_cases htc : g.Awaits c ts
  · obtain ⟨t, us, rfl, hs⟩ := htc
    have hs' := (hR.starts hc).1 hs
    have hnot : ¬Starts g'.productions b' t.1 := fun hb => htb ⟨t, us, rfl, hb⟩
    have hsn : Starts g'.productions n' t.1 := (starts_sequence hn).2 (.inr ⟨hw'.nullable, hs'⟩)
    rw [h.proceed_followBy_of_starts hs, h'.proceed_followBy_of_starts hsn,
      h'.enter_of_descends hsn (.second hn hnot hw' hs')]
    refine entersAlike h h' hR hE l i c c' _ _ t us hc hs (Nat.le_of_succ_le hts) fun j x x' us hx hus => ?_
    rw [proceed_prepend, proceed_prepend, proceed_prepend]
    exact hk j _ _ us (hassoc hx) hus
  have htn := not_awaits_sequence hn htb fun _ => (hR.awaits_iff hc).not.1 htc
  by_cases hwc : ∃ x, Derives g.productions c [] x
  · obtain ⟨x, hx⟩ := hwc
    have hn' : Derives g'.productions n' [] (prepend w x) := .sequence hn hw' ((hR.empty hc).1 hx)
    rw [h.proceed_followBy_of_empty hx htc, h'.proceed_followBy_of_empty hn' htn]
    exact hk i _ _ ts (hassoc (hE.equivalence.refl x)) hts
  · rw [not_exists] at hwc
    have hmissing := missing_sequence hn (.inr fun x hx => hwc x ((hR.empty hc).2 hx))
    rw [h.proceed_followBy_of_missing (hR.bounds hc).1 hwc htc,
      h'.proceed_followBy_of_missing (productions_isSome_iff.1 (Option.isSome_of_eq_some hn)) hmissing htn]
    exact .error _

/-- Two parts that are pending one after the other can be pending as one sequence. -/
theorem Indistinct.regroup (assoc : Associates E) (hn : g'.productions n' = some (.sequence b' c')) (hb : R b b')
    (hc : R c c') (hprod : Productive g'.productions c') (hk : Indistinct E g g' l k k') :
    Indistinct E g g' l ((k.push (.followBy c)).push (.followBy b)) (k'.push (.followBy n')) := by
  intro i v v' ts hv hts
  by_cases htb : g.Awaits b ts
  · -- the first of the two goes on, with the other one pending
    obtain ⟨t, us, rfl, hs⟩ := htb
    have hs' := (hR.starts hb).1 hs
    have hsn : Starts g'.productions n' t.1 := (starts_sequence hn).2 (.inl ⟨hprod, hs'⟩)
    rw [h.proceed_followBy_of_starts hs, h'.proceed_followBy_of_starts hsn,
      h'.enter_of_descends hsn (.first hn hs')]
    exact entersAlike h h' hR hE l i b b' _ _ t us hb hs (Nat.le_of_succ_le hts)
      (.exchange h h' hR hE assoc hc hk hv)
  have htb' : ¬g'.Awaits b' ts := (hR.awaits_iff hb).not.1 htb
  by_cases hwb : ∃ w, Derives g.productions b [] w
  · obtain ⟨w, hw⟩ := hwb
    rw [h.proceed_followBy_of_empty hw htb]
    exact regroup_of_empty h h' hR hE assoc hn hb hc hk hv hts hw htb'
  · -- the first of the two is missing
    rw [not_exists] at hwb
    have hwb' : ∀ w, ¬Derives g'.productions b' [] w := fun w hw => hwb w ((hR.empty hb).2 hw)
    have htn := not_awaits_sequence hn htb' fun hnull => ((h'.exists_emptyValue hnull).elim hwb').elim
    rw [h.proceed_followBy_of_missing (hR.bounds hb).1 hwb htb, h'.proceed_followBy_of_missing
      (productions_isSome_iff.1 (Option.isSome_of_eq_some hn)) (missing_sequence hn (.inl hwb')) htn]
    exact .error _

/-- Alternatives may come in another order. -/
theorem parse_alike_of_swapped (hr : g.productions g.root = some (.disjunction a b))
    (hr' : g'.productions g'.root = some (.disjunction b' a')) (ha : R a a') (hb : R b b') (ts : List (K × V)) :
    Alike E (g.parse .unbounded ts) (g'.parse .unbounded ts) := by
  have hempty : ∀ w, Derives g.productions g.root [] w ↔ Derives g'.productions g'.root [] w := fun w => by
    rw [derives_disjunction hr, derives_disjunction hr', hR.empty ha, hR.empty hb, or_comm]
  refine parse_alike h h' (fun k => ?_) (fun w hw => ⟨w, (hempty w).1 hw, hE.equivalence.refl w⟩)
    (fun w hw => ⟨w, (hempty w).2 hw⟩) (fun t ts hs => ?_) ts
  · rw [starts_disjunction hr, starts_disjunction hr', hR.starts ha, hR.starts hb, or_comm]
  · have hs' : Starts g'.productions g'.root t.1 := by
      rwa [starts_disjunction hr', ← hR.starts ha, ← hR.starts hb, or_comm, ← starts_disjunction hr]
    by_cases hsa : Starts g.productions a t.1
    · have hnot : ¬Starts g'.productions b' t.1 := fun hsb =>
        h.decided _ (.firstFirst hr hsa ((hR.starts hb).2 hsb))
      rw [h.enter_of_descends hs (.left hr hsa), h'.enter_of_descends hs' (.right hr' hnot ((hR.starts ha).1 hsa))]
      exact entersAlike h h' hR hE _ 0 a a' _ _ t ts ha hsa (Nat.le_refl _) .top
    · have hsb := ((starts_disjunction hr).1 hs).resolve_left hsa
      rw [h.enter_of_descends hs (.right hr hsa hsb), h'.enter_of_descends hs' (.left hr' ((hR.starts hb).1 hsb))]
      exact entersAlike h h' hR hE _ 0 b b' _ _ t ts hb hsb (Nat.le_refl _) .top

/-- Alternatives may be grouped from the left or from the right. -/
theorem parse_alike_of_reordered (hr : g.productions g.root = some (.disjunction m c))
    (hm : g.productions m = some (.disjunction a b)) (hr' : g'.productions g'.root = some (.disjunction a' n'))
    (hn : g'.productions n' = some (.disjunction b' c')) (ha : R a a') (hb : R b b') (hc : R c c')
    (ts : List (K × V)) : Alike E (g.parse .unbounded ts) (g'.parse .unbounded ts) := by
  have hempty : ∀ w, Derives g.productions g.root [] w ↔ Derives g'.productions g'.root [] w := fun w => by
    rw [derives_disjunction hr, derives_disjunction hr', derives_disjunction hm, derives_disjunction hn, hR.empty ha,
      hR.empty hb, hR.empty hc, or_assoc]
  refine parse_alike h h' (fun k => ?_) (fun w hw => ⟨w, (hempty w).1 hw, hE.equivalence.refl w⟩)
    (fun w hw => ⟨w, (hempty w).2 hw⟩) (fun t ts hs => ?_) ts
  · rw [starts_disjunction hr, starts_disjunction hr', starts_disjunction hm, starts_disjunction hn, hR.starts ha,
      hR.starts hb, hR.starts hc, or_assoc]
  · have hs' : Starts g'.productions g'.root t.1 := by
      rwa [starts_disjunction hr', starts_disjunction hn, ← hR.starts ha, ← hR.starts hb, ← hR.starts hc, ← or_assoc,
        ← starts_disjunction hm, ← starts_disjunction hr]
    by_cases hsa : Starts g.productions a t.1
    · have hsm := (starts_disjunction hm).2 (.inl hsa)
      rw [h.enter_of_descends hs (.left hr hsm), h.enter_of_descends hsm (.left hm hsa),
        h'.enter_of_descends hs' (.left hr' ((hR.starts ha).1 hsa))]
      exact entersAlike h h' hR hE _ 0 a a' _ _ t ts ha hsa (Nat.le_refl _) .top
    have hna := (hR.starts ha).not.1 hsa
    have hsn := ((starts_disjunction hr').1 hs').resolve_left hna
    rw [h'.enter_of_descends hs' (.right hr' hna hsn)]
    by_cases hsb : Starts g.productions b t.1
    · have hsm := (starts_disjunction hm).2 (.inr hsb)
      rw [h.enter_of_descends hs (.left hr hsm), h.enter_of_descends hsm (.right hm hsa hsb),
        h'.enter_of_descends hsn (.left hn ((hR.starts hb).1 hsb))]
      exact entersAlike h h' hR hE _ 0 b b' _ _ t ts hb hsb (Nat.le_refl _) .top
    · have hnm : ¬Starts g.productions m t.1 := fun hsm => ((starts_disjunction hm).1 hsm).elim hsa hsb
      have hsc := ((starts_disjunction hr).1 hs).resolve_left hnm
      rw [h.enter_of_descends hs (.right hr hnm hsc),
        h'.enter_of_descends hsn (.right hn ((hR.starts hb).not.1 hsb) ((hR.starts hc).1 hsc))]
      exact entersAlike h h' hR hE _ 0 c c' _ _ t ts hc hsc (Nat.le_refl _) .top

section Regrouping

variable (assoc : Associates E) (hr : g.productions g.root = some (.sequence m c))
  (hm : g.productions m = some (.sequence a b)) (hr' : g'.productions g'.root = some (.sequence a' n'))
  (hn : g'.productions n' = some (.sequence b' c')) (ha : R a a') (hb : R b b') (hc : R c c')
include hr hm hr' hn ha hb hc

omit hE in
theorem starts_root_of_regrouped (hprod : Productive g.productions c) (i : K) :
    Starts g.productions g.root i ↔ Starts g'.productions g'.root i := by
  have hprod' := (hR.productive_iff h h' hc).1 hprod
  rw [starts_sequence hr, starts_sequence hr', starts_sequence hm, starts_sequence hn, nullable_sequence hm,
    productive_sequence hn, hR.nullable_iff h h' ha, hR.nullable_iff h h' hb, hR.productive_iff h h' hb, hR.starts ha,
    hR.starts hb, hR.starts hc]
  simp only [hprod, hprod', true_and, and_true]
  have hofnull : Nullable g'.productions b' → Productive g'.productions b' := fun hb => ⟨[], hb⟩
  tauto

omit h h' hE in
theorem exists_empty_root_of_regrouped (w' : V) (hw : Derives g'.productions g'.root [] w') :
    ∃ w, Derives g.productions g.root [] w := by
  obtain ⟨x, yz, rfl, hx, hyz⟩ := parts_of_empty hr' hw
  obtain ⟨y, z, rfl, hy, hz⟩ := parts_of_empty hn hyz
  exact ⟨_, .sequence hr (.sequence hm ((hR.empty ha).2 hx) ((hR.empty hb).2 hy)) ((hR.empty hc).2 hz)⟩

include assoc

omit h h' hE in
theorem exists_empty_root'_of_regrouped (w : V) (hw : Derives g.productions g.root [] w) :
    ∃ w', Derives g'.productions g'.root [] w' ∧ E w w' := by
  obtain ⟨xy, z, rfl, hxy, hz⟩ := parts_of_empty hr hw
  obtain ⟨x, y, rfl, hx, hy⟩ := parts_of_empty hm hxy
  exact ⟨_, .sequence hr' ((hR.empty ha).1 hx) (.sequence hn ((hR.empty hb).1 hy) ((hR.empty hc).1 hz)), assoc x y z⟩

/-- The first token is read by the same part, with the same parts pending after it. -/
theorem enter_alike_of_regrouped (hprod : Productive g'.productions c') {t : K × V} {ts : List (K × V)}
    (hs : Starts g.productions g.root t.1) (hs' : Starts g'.productions g'.root t.1) :
    Alike E (g.enter 0 g.root .top t ts) (g'.enter 0 g'.root .top t ts) := by
  by_cases hsa : Starts g.productions a t.1
  · -- the first part is entered, and two are pending
    have hsm : Starts g.productions m t.1 := by
      rcases (starts_sequence hr).1 hs with ⟨-, hsm⟩ | ⟨hm', -⟩
      · exact hsm
      · exact (starts_sequence hm).2 (.inl ⟨⟨[], ((nullable_sequence hm).1 hm').2⟩, hsa⟩)
    rw [h.enter_of_descends hs (.first hr hsm), h.enter_of_descends hsm (.first hm hsa),
      h'.enter_of_descends hs' (.first hr' ((hR.starts ha).1 hsa))]
    exact entersAlike h h' hR hE _ 0 a a' _ _ t ts ha hsa (Nat.le_refl _)
      (.regroup h h' hR hE assoc hn hb hc hprod .top)
  -- the first part is empty
  have hna := (hR.starts ha).not.1 hsa
  obtain ⟨hna', hsn⟩ := ((starts_sequence hr').1 hs').resolve_left fun hs => hna hs.2
  obtain ⟨x, hx⟩ := h.exists_emptyValue ((hR.nullable_iff h h' ha).2 hna')
  rw [h'.enter_of_descends hs' (.second hr' hna ((hR.empty ha).1 hx) hsn)]
  by_cases hsb : Starts g.productions b t.1
  · have hsm : Starts g.productions m t.1 := (starts_sequence hm).2 (.inr ⟨hx.nullable, hsb⟩)
    rw [h.enter_of_descends hs (.first hr hsm), h.enter_of_descends hsm (.second hm hsa hx hsb),
      h'.enter_of_descends hsn (.first hn ((hR.starts hb).1 hsb))]
    exact entersAlike h h' hR hE _ 0 b b' _ _ t ts hb hsb (Nat.le_refl _)
      (.exchange h h' hR hE assoc hc .top (hE.equivalence.refl x))
  -- the second part is empty, too
  have hnb := (hR.starts hb).not.1 hsb
  obtain ⟨hnb', hsc'⟩ := ((starts_sequence hn).1 hsn).resolve_left fun hs => hnb hs.2
  obtain ⟨y, hy⟩ := h.exists_emptyValue ((hR.nullable_iff h h' hb).2 hnb')
  have hnm : ¬Starts g.productions m t.1 := fun hs =>
    ((starts_sequence hm).1 hs).elim (fun hs => hsa hs.2) fun hs => hsb hs.2
  have hsc := (hR.starts hc).2 hsc'
  rw [h.enter_of_descends hs (.second hr hnm (.sequence hm hx hy) hsc),
    h'.enter_of_descends hsn (.second hn hnb ((hR.empty hb).1 hy) hsc')]
  refine entersAlike h h' hR hE _ 0 c c' _ _ t ts hc hsc (Nat.le_refl _) fun j z z' us hz hus => ?_
  rw [proceed_prepend, proceed_prepend, proceed_prepend]
  refine Indistinct.top j _ _ us (hE.equivalence.trans (assoc x y z) ?_) hus
  exact hE.homomorphic (hE.equivalence.refl x) (hE.homomorphic (hE.equivalence.refl y) hz)

/-- Sequences may be grouped from the left or from the right. -/
theorem parse_alike_of_regrouped (hprod : Productive g.productions c) (ts : List (K × V)) :
    Alike E (g.parse .unbounded ts) (g'.parse .unbounded ts) := by
  have hstarts := starts_root_of_regrouped h h' hR hr hm hr' hn ha hb hc hprod
  exact parse_alike h h' hstarts (exists_empty_root'_of_regrouped hR assoc hr hm hr' hn ha hb hc)
    (exists_empty_root_of_regrouped hR hr hm hr' hn ha hb hc)
    (fun t ts hs => enter_alike_of_regrouped h h' hR hE assoc hr hm hr' hn ha hb hc
      ((hR.productive_iff h h' hc).1 hprod) hs ((hstarts t.1).1 hs)) ts

end Regrouping

end

end ValidGrammar
end Predictive
