import Predictive.Proofs.Rearrangement
import Predictive.Proofs.Grammar.Origins

/-!
Grammars that have the same alternatives in another order, or the same parts grouped otherwise, get the same verdict and
parse the same.
-/
namespace Predictive

variable {V K : Type} {G H : Productions V K} {i j l r : Nat} {k : Slot}

theorem Lowers.extend {node : Slot → Option Nat} {p : Production V K} {form : Form V K} (e : Extends G H)
    (h : Lowers G node p form) : Lowers H node p form := by
  cases h with
  | success => exact .success
  | element => exact .element
  | disjunction hl ha hr hb => exact .disjunction (hl.extend e) ha (hr.extend e) hb
  | sequence hl ha hr hb => exact .sequence (hl.extend e) ha (hr.extend e) hb
  | transform hl ha => exact .transform (hl.extend e) ha

theorem Production.Mirrors.not_deferred {names : Nat → Nat → Prop} {p q : Production V K} (h : q.Mirrors names p) :
    p ≠ .deferred j := by
  rintro rfl
  cases h

/-- What mirrors the same is a mirror of the other. -/
theorem Production.Mirrors.match {names names' : Nat → Nat → Prop} {p q q' : Production V K} (h : q.Mirrors names p)
    (h' : q'.Mirrors names' p) : q.Mirrors (fun a a' => ∃ l, names a l ∧ names' a' l) q' := by
  cases h with
  | success =>
    cases h'
    exact .success
  | element =>
    cases h'
    exact .element
  | disjunction hl hr =>
    cases h' with
    | disjunction hl' hr' => exact .disjunction ⟨_, hl, hl'⟩ ⟨_, hr, hr'⟩
  | sequence hl hr =>
    cases h' with
    | sequence hl' hr' => exact .sequence ⟨_, hl, hl'⟩ ⟨_, hr, hr'⟩
  | transform hl =>
    cases h' with
    | transform hl' => exact .transform ⟨_, hl, hl'⟩

namespace Grammar

variable [Value V] [Kind K] {g g' : ValidGrammar V K} {node node' : Slot → Option Nat}

/-- The slots are those of the same node. -/
abbrev Shares (G : Productions V K) (node node' : Slot → Option Nat) (k k' : Slot) : Prop :=
  ∃ n, Names G node k n ∧ Names G node' k' n

namespace Tabulates

theorem resolves (h : Tabulates G i g node) (hk : Names G node k l) : ∃ n p q, Resolves G l n ∧ G n = some p ∧
    g.productions k = some q ∧ q.Mirrors (Names G node) p := by
  obtain ⟨n, hs, hn⟩ := hk
  obtain ⟨q, p, hq, hp, hm⟩ := h.mirrors hn
  refine ⟨n, p, q, ⟨hs, fun j hd => ?_⟩, hp, hq, hm⟩
  exact hm.not_deferred (Option.some.inj (hp.symm.trans hd))

/-- Slots of the same nodes in two tables match. -/
theorem matching (h : Tabulates G i g node) (h' : Tabulates G j g' node') :
    ValidGrammar.Matches g g' (Shares G node node') where
  bounds := by
    rintro s s' ⟨n, hs, hs'⟩
    obtain ⟨-, -, q, -, -, hq, -⟩ := h.resolves hs
    obtain ⟨-, -, q', -, -, hq', -⟩ := h'.resolves hs'
    exact ⟨ValidGrammar.productions_isSome_iff.1 (Option.isSome_of_eq_some hq),
      ValidGrammar.productions_isSome_iff.1 (Option.isSome_of_eq_some hq')⟩
  starts := by
    rintro s s' k ⟨n, hs, hs'⟩
    rw [h.starts_iff hs, h'.starts_iff hs']
  empty := by
    rintro s s' v ⟨n, hs, hs'⟩
    rw [h.derives_iff hs, h'.derives_iff hs']
  mirrors := by
    rintro s s' q ⟨n, hs, hs'⟩ hq
    obtain ⟨l, p, q₁, hl, hp, hq₁, hm⟩ := h.resolves hs
    obtain ⟨l', p', q', hl', hp', hq', hm'⟩ := h'.resolves hs'
    cases hq.symm.trans hq₁
    obtain rfl := hl.unique hl'
    cases hp.symm.trans hp'
    exact ⟨q', hq', hm.match hm'⟩

variable (h : Tabulates G i g node)
include h

theorem exists_disjunction {s : Slot} (hs : Names G node s j) (hj : G j = some (.disjunction l r)) :
    ∃ a b, g.productions s = some (.disjunction a b) ∧ Names G node a l ∧ Names G node b r := by
  rcases h.mirrors_of_node hs hj with ⟨n, hn, -⟩ | ⟨q, hq, hm⟩
  · cases hn
  · cases hm with
    | disjunction ha hb => exact ⟨_, _, hq, ha, hb⟩

theorem exists_sequence {s : Slot} (hs : Names G node s j) (hj : G j = some (.sequence l r)) :
    ∃ a b, g.productions s = some (.sequence a b) ∧ Names G node a l ∧ Names G node b r := by
  rcases h.mirrors_of_node hs hj with ⟨n, hn, -⟩ | ⟨q, hq, hm⟩
  · cases hn
  · cases hm with
    | sequence ha hb => exact ⟨_, _, hq, ha, hb⟩

end Tabulates

section

variable (h : Tabulates G i g node) (h' : Tabulates G j g' node') (hd : DecidedFrom G i) (hd' : DecidedFrom G j)
include h h' hd hd'

/-- Tables of grammars with the same alternatives parse the same. -/
theorem parse_eq_of_reorders (hij : Reorders G i j) (ts : List (K × V)) :
    g.parse .unbounded ts = g'.parse .unbounded ts := by
  cases hij with
  | swap hi hj =>
    obtain ⟨a, b, hr, ha, hb⟩ := h.exists_disjunction h.root hi
    obtain ⟨b', a', hr', hb', ha'⟩ := h'.exists_disjunction h'.root hj
    exact (ValidGrammar.parse_alike_of_swapped (h.lawful hd) (h'.lawful hd') (h.matching h')
      (ValidGrammar.congruence_eq _) hr hr' ⟨_, ha, ha'⟩ ⟨_, hb, hb'⟩ ts).eq
  | regroup hi hm hj hn =>
    obtain ⟨m, c, hr, hm', hc⟩ := h.exists_disjunction h.root hi
    obtain ⟨a, b, hp, ha, hb⟩ := h.exists_disjunction hm' hm
    obtain ⟨a', n, hr', ha', hn'⟩ := h'.exists_disjunction h'.root hj
    obtain ⟨b', c', hp', hb', hc'⟩ := h'.exists_disjunction hn' hn
    exact (ValidGrammar.parse_alike_of_reordered (h.lawful hd) (h'.lawful hd') (h.matching h')
      (ValidGrammar.congruence_eq _) hr hp hr' hp' ⟨_, ha, ha'⟩ ⟨_, hb, hb'⟩ ⟨_, hc, hc'⟩ ts).eq

/-- Tables of sequences of the same parts parse alike, up to what makes prepending associative. -/
theorem parse_alike_of_regroups {E : V → V → Prop} (hE : ValidGrammar.Congruence E g.Uses)
    (assoc : ValidGrammar.Associates E) (hij : Regroups G i j) (ts : List (K × V)) :
    Alike E (g.parse .unbounded ts) (g'.parse .unbounded ts) := by
  cases hij with
  | mk hi hm hj hn _ hprod =>
    obtain ⟨m, c, hr, hm', hc⟩ := h.exists_sequence h.root hi
    obtain ⟨a, b, hp, ha, hb⟩ := h.exists_sequence hm' hm
    obtain ⟨a', n, hr', ha', hn'⟩ := h'.exists_sequence h'.root hj
    obtain ⟨b', c', hp', hb', hc'⟩ := h'.exists_sequence hn' hn
    exact ValidGrammar.parse_alike_of_regrouped (h.lawful hd) (h'.lawful hd') (h.matching h') hE assoc hr hp hr' hp'
      ⟨_, ha, ha'⟩ ⟨_, hb, hb'⟩ ⟨_, hc, hc'⟩ ((h.productive_iff hc).2 hprod) ts

end

namespace Store

/-- Two nodes have the same alternatives, in another order or grouped otherwise. -/
inductive Reordered (s : Store V K) : NodeId → NodeId → Prop
  | swap {i j : Nat} {a b : Ref} : s.nodes[i]? = some (Shape.disjunction a b) →
      s.nodes[j]? = some (Shape.disjunction b a) → Reordered s i j
  | regroup {i j m n : Nat} {a b c : Ref} : s.nodes[i]? = some (Shape.disjunction (.node m) c) →
      s.nodes[m]? = some (Shape.disjunction a b) → s.nodes[j]? = some (Shape.disjunction a (.node n)) →
      s.nodes[n]? = some (Shape.disjunction b c) → Reordered s i j

/-- Two nodes are sequences of the same three parts, grouped from the left and from the right, of which the first and the
last are productive. -/
inductive Regrouped (s : Store V K) : NodeId → NodeId → Prop
  | mk {i j m n x z : Nat} {a b c : Ref} : s.nodes[i]? = some (Shape.sequence (.node m) c) →
      s.nodes[m]? = some (Shape.sequence a b) → s.nodes[j]? = some (Shape.sequence a (.node n)) →
      s.nodes[n]? = some (Shape.sequence b c) → s.nodeOf? a = some x → Productive s.productions x →
      s.nodeOf? c = some z → Productive s.productions z → Regrouped s i j

variable {s s' : Store V K} {a b : Ref} {x y : Nat} {r : Ref} {held : List Ref}

omit [Value V] in
/-- If one of the two nodes is complete, the productions of both say so. -/
theorem Reordered.reorders (h : s.Reordered i j) (hc : Complete s.productions i ∨ Complete s.productions j) :
    Reorders s.productions i j := by
  cases h with
  | @swap a b hi hj =>
    have hparts : ∃ x y, s.nodeOf? a = some x ∧ s.nodeOf? b = some y := by
      rcases hc with hc | hc
      · exact exists_nodes_disjunction hi (hc i .refl)
      · obtain ⟨y, x, hb, ha⟩ := exists_nodes_disjunction hj (hc j .refl)
        exact ⟨x, y, ha, hb⟩
    obtain ⟨x, y, ha, hb⟩ := hparts
    exact .swap (production_disjunction hi ha hb) (production_disjunction hj hb ha)
  | @regroup m n a b c hi hm hj hn =>
    have hparts : ∃ x y z, s.nodeOf? a = some x ∧ s.nodeOf? b = some y ∧ s.nodeOf? c = some z := by
      rcases hc with hc | hc
      · obtain ⟨m', z, hm', hcz⟩ := exists_nodes_disjunction hi (hc i .refl)
        have hcm := hc.part (production_disjunction hi hm' hcz) (List.mem_cons_self ..)
        cases hm'
        obtain ⟨x, y, ha, hb⟩ := exists_nodes_disjunction hm (hcm m .refl)
        exact ⟨x, y, z, ha, hb, hcz⟩
      · obtain ⟨x, n', ha, hn'⟩ := exists_nodes_disjunction hj (hc j .refl)
        have hcn := hc.part (production_disjunction hj ha hn') (List.mem_cons_of_mem _ (List.mem_cons_self ..))
        cases hn'
        obtain ⟨y, z, hb, hcz⟩ := exists_nodes_disjunction hn (hcn n .refl)
        exact ⟨x, y, z, ha, hb, hcz⟩
    obtain ⟨x, y, z, ha, hb, hcz⟩ := hparts
    exact .regroup (production_disjunction hi rfl hcz) (production_disjunction hm ha hb)
      (production_disjunction hj ha rfl) (production_disjunction hn hb hcz)

omit [Value V] in
theorem Regrouped.regroups (h : s.Regrouped i j) (hc : Complete s.productions i ∨ Complete s.productions j) :
    Regroups s.productions i j := by
  cases h with
  | @mk m n x z a b c hi hm hj hn ha hpx hcz hpz =>
    have hparts : ∃ y, s.nodeOf? b = some y := by
      rcases hc with hc | hc
      · have hcm := hc.part (production_sequence hi rfl hcz) (List.mem_cons_self ..)
        obtain ⟨-, y, -, hb⟩ := exists_nodes_sequence hm (hcm m .refl)
        exact ⟨y, hb⟩
      · have hcn := hc.part (production_sequence hj ha rfl) (List.mem_cons_of_mem _ (List.mem_cons_self ..))
        obtain ⟨y, -, hb, -⟩ := exists_nodes_sequence hn (hcn n .refl)
        exact ⟨y, hb⟩
    obtain ⟨y, hb⟩ := hparts
    exact .mk (production_sequence hi rfl hcz) (production_sequence hm ha hb) (production_sequence hj ha rfl)
      (production_sequence hn hb hcz) hpx hpz

end Store

open Store

variable {s s' : Store V K} {r : Ref} {held : List Ref}

/-- A table stays one for its node. -/
theorem Lowered.uphold (h : Lowered s i g node) (hup : s.Upholds s') (hc : Complete s.productions i) :
    Lowered s' i g node where
  root := by
    obtain ⟨n, hs, hn⟩ := h.root
    exact ⟨n, hs.extend hup.extends, hn⟩
  below k n hn := (h.below k n hn).extend hup.extends
  entry k n hn := by
    obtain ⟨e, p, he, hp, hlow, hdesc⟩ := h.entry k n hn
    have hholds := h.holds k e he
    rw [hdesc.origin] at hholds
    have hb := hc.below (h.below k n hn)
    have hlater : Holds s' n e := ⟨hholds.origin, fun f v hv => hup.reads hb (hholds.reads f v hv)⟩
    exact ⟨e, p, he, hup.extends hp, hlow.extend hup.extends, hlater.describes hup.remembers⟩
  node := h.node
  injective := h.injective
  solid k n hn l hd := by
    obtain ⟨e, p, he, hp, -⟩ := h.entry k n hn
    cases (hup.extends hp).symm.trans hd
    exact h.solid k n hn l hp
  holds k e he := by
    have hholds := h.holds k e he
    have hb := hc.below (h.below k _ (h.source_of_entry he))
    exact ⟨hholds.origin, fun f v hv => hup.reads hb (hholds.reads f v hv)⟩

/-- A verdict says whether conflicts are read of the grammar. -/
theorem validate_reads (hv : s.Valid) (hm : s.Remembers) (held : List Ref) (hr : s.HasRef r) :
    Leads Upholds s (validate held r) fun v s' => ∃ i c, s'.Realized r i ∧ s'.Reads i .conflicts c ∧
      (c.isEmpty = true ↔ ∃ g, v = .ok g) := by
  refine (fact_upholds hv hm held .conflicts hr).bind fun found s₁ h₁ ⟨i, hreal, hread⟩ => ?_
  suffices hrest : Leads Learns s₁ _ fun v _ => found.isEmpty = true ↔ ∃ g, v = Except.ok g from
    hrest.mono (fun _ h => h.upholds h₁.valid) fun v s₂ h₂ hiff =>
      ⟨i, found, hreal.grow (h₂.upholds h₁.valid).toGrows, h₂.reads hread, hiff⟩
  split
  · rename_i hempty
    refine (lower_learns h₁.remembers held hreal.1 hreal.2).bind fun g s₂ h₂ _ => ?_
    refine (record_learns h₂.remembers held r _).bind fun _ s₃ h₃ _ => ?_
    exact .pure (.refl h₃.remembers) ⟨fun _ => ⟨g, rfl⟩, fun _ => hempty⟩
  · rename_i hempty
    refine (record_learns h₁.remembers held r _).bind fun _ s₂ h₂ _ => ?_
    exact .pure (.refl h₂.remembers) ⟨fun he => absurd he hempty, fun ⟨g, hg⟩ => by cases hg⟩

/-- No conflicts are read exactly where one token decides. -/
theorem Store.Reads.decidedFrom_iff {c : FinSet (Conflict K)} (hm : s.Remembers) (h : s.Reads i .conflicts c) :
    c.isEmpty = true ↔ DecidedFrom s.productions i := by
  obtain ⟨hexact, hwarranted⟩ := h.correct hm
  constructor
  · intro hempty j hb hj
    obtain ⟨x, hx⟩ := exists_exactConflict hb hj
    rw [FinSet.eq_empty_of_isEmpty hempty] at hexact
    exact FinSet.not_mem_empty (hexact x hx)
  · intro hdecided
    by_contra hne
    obtain ⟨x, hx⟩ := FinSet.isEmpty_eq_false_iff.1 (Bool.eq_false_iff.2 hne)
    obtain ⟨j, hb, hj⟩ := Warranted.clashAt (hwarranted x hx)
    exact hdecided j hb hj

/-- Both are verdicts for, or both are verdicts against. -/
def SameVerdict (v w : Except (Rejection K) (ValidGrammar V K)) : Prop := (∃ g, v = .ok g) ↔ ∃ g, w = .ok g

/-- The tables parse the same. -/
def SameParses (v w : Except (Rejection K) (ValidGrammar V K)) : Prop :=
  ∀ g g', v = .ok g → w = .ok g' → ∀ ts, g.parse .unbounded ts = g'.parse .unbounded ts

/-- The tables parse alike, up to any equivalence that prepending and their transformations respect. -/
def ParseAlike (E : V → V → Prop) (v w : Except (Rejection K) (ValidGrammar V K)) : Prop :=
  ∀ g g', v = .ok g → w = .ok g' → ValidGrammar.Congruence E (fun f => g.Uses f ∨ g'.Uses f) →
    ∀ ts, Alike E (g.parse .unbounded ts) (g'.parse .unbounded ts)

omit [Value V] in
theorem SameVerdict.symm {v w : Except (Rejection K) (ValidGrammar V K)} (h : SameVerdict v w) : SameVerdict w v :=
  Iff.symm h

theorem SameParses.symm {v w : Except (Rejection K) (ValidGrammar V K)} (h : SameParses v w) : SameParses w v :=
  fun g g' hg hg' ts => (h g' g hg' hg ts).symm

theorem SameParses.parseAlike {E : V → V → Prop} {v w : Except (Rejection K) (ValidGrammar V K)}
    (h : SameParses v w) : ParseAlike E v w :=
  fun g g' hg hg' hE ts => h g g' hg hg' ts ▸ .of_refl hE.equivalence.refl _

theorem ParseAlike.sameParses {v w : Except (Rejection K) (ValidGrammar V K)} (h : ParseAlike Eq v w) :
    SameParses v w :=
  fun g g' hg hg' ts => (h g g' hg hg' (ValidGrammar.congruence_eq _) ts).eq

theorem ParseAlike.symm {E : V → V → Prop} {v w : Except (Rejection K) (ValidGrammar V K)} (h : ParseAlike E v w) :
    ParseAlike E w v :=
  fun g g' hg hg' hE ts => (h g' g hg' hg (hE.mono fun _ => Or.symm) ts).symm hE.equivalence.symm

/-- The verdict `v` is right for the node `i`. -/
structure Judged (s : Store V K) (i : Nat) (v : Except (Rejection K) (ValidGrammar V K)) : Prop where
  complete : Complete s.productions i
  decided : (∃ g, v = .ok g) ↔ DecidedFrom s.productions i
  table : ∀ g, v = .ok g → ∃ node, Tabulates s.productions i g node

/-- A verdict is right ever after. -/
theorem exists_judged_of_validate {v : Except (Rejection K) (ValidGrammar V K)} {t : Store V K} (h : Reached s)
    (hr : s.HasRef r) (hval : validate held r s = .ok v s') (hup : s'.Upholds t) :
    ∃ i, t.nodeOf? r = some i ∧ Judged t i v := by
  obtain ⟨hv, hm⟩ := h.sane
  obtain ⟨-, i, c, hi, hread, hiff⟩ := (validate_reads hv hm held hr).of_ok hval
  refine ⟨i, (hi.grow hup.toGrows).1, hi.2.extend hup.extends, ?_, ?_⟩
  · rw [← hiff]
    exact (hup.reads hi.2 hread).decidedFrom_iff hup.remembers
  · rintro g rfl
    obtain ⟨n, node, -, hn, hlow, -⟩ := h.lowered hr hval
    obtain rfl : i = n := Option.some.inj (hi.1.symm.trans hn.1)
    exact ⟨node, (hlow.uphold hup hn.2).toTabulates⟩

theorem judged_of_validate {v : Except (Rejection K) (ValidGrammar V K)} {t : Store V K} (h : Reached s)
    (hr : s.HasRef (.node i)) (hval : validate held (.node i) s = .ok v s') (hup : s'.Upholds t) : Judged t i v := by
  obtain ⟨n, hn, hjudged⟩ := exists_judged_of_validate h hr hval hup
  obtain rfl : i = n := Option.some.inj hn
  exact hjudged

namespace Judged

variable {v w : Except (Rejection K) (ValidGrammar V K)}

theorem reorders (hv : Judged s i v) (hw : Judged s j w) (h : Reorders s.productions i j) :
    SameVerdict v w ∧ SameParses v w := by
  constructor
  · rw [SameVerdict, hv.decided, hw.decided, h.decidedFrom_iff]
  · intro g g' hg hg' ts
    obtain ⟨node, htab⟩ := hv.table g hg
    obtain ⟨node', htab'⟩ := hw.table g' hg'
    exact parse_eq_of_reorders htab htab' (hv.decided.1 ⟨g, hg⟩) (hw.decided.1 ⟨g', hg'⟩) h ts

theorem regroups (hv : Judged s i v) (hw : Judged s j w) (h : Regroups s.productions i j) :
    SameVerdict v w ∧ ∀ E, ValidGrammar.Associates E → ParseAlike E v w := by
  constructor
  · rw [SameVerdict, hv.decided, hw.decided, h.decidedFrom_iff]
  · intro E assoc g g' hg hg' hE ts
    obtain ⟨node, htab⟩ := hv.table g hg
    obtain ⟨node', htab'⟩ := hw.table g' hg'
    exact parse_alike_of_regroups htab htab' (hv.decided.1 ⟨g, hg⟩) (hw.decided.1 ⟨g', hg'⟩)
      (hE.mono fun _ => .inl) assoc h ts

variable {t : Store V K} (hv : Judged s i v) (hw : Judged s j w) (e : Extends t.productions s.productions)
  (hc : Complete t.productions i)
include hv hw e hc

theorem reordered (hij : t.Reordered i j ∨ t.Reordered j i) : SameVerdict v w ∧ SameParses v w := by
  rcases hij with hij | hij
  · exact hv.reorders hw ((hij.reorders (.inl hc)).extend e)
  · obtain ⟨hverdict, hparses⟩ := hw.reorders hv ((hij.reorders (.inr hc)).extend e)
    exact ⟨hverdict.symm, hparses.symm⟩

theorem regrouped (hij : t.Regrouped i j ∨ t.Regrouped j i) :
    SameVerdict v w ∧ ∀ E, ValidGrammar.Associates E → ParseAlike E v w := by
  rcases hij with hij | hij
  · exact hv.regroups hw ((hij.regroups (.inl hc)).extend e)
  · obtain ⟨hverdict, hparses⟩ := hw.regroups hv ((hij.regroups (.inr hc)).extend e)
    exact ⟨hverdict.symm, fun E assoc => (hparses E assoc).symm⟩

end Judged

end Grammar
end Predictive
