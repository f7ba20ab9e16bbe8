import Predictive.Proofs.Grammar.Holding
import Predictive.Proofs.Grammar.Readiness
import Predictive.Proofs.Grammar.Rearranging

/-!
Regrouping changes nothing. A grammar that is put together of the parts of another one, by disjunctions or sequences, holds
what that one holds; once one of the two has got a table, the other gets one, and the tables parse the same.
-/
namespace Predictive.Grammar

open Solver (Family)
open Store

variable {V K : Type} {i j m n : Nat}

namespace Store

section Joints

variable [Ord K] {s : Store V K} {a b c : Ref} {x : Nat} {joints joints' : List NodeId} {parts : List Ref}

/-- The node has these two parts in order. -/
def Forks (s : Store V K) (i : NodeId) (a b : Ref) : Prop :=
  s.nodes[i]? = some (Shape.disjunction a b) ∨ s.nodes[i]? = some (Shape.sequence a b)

theorem Forks.below (h : s.Forks i a b) : s.below i = [a, b] := by
  rcases h with h | h <;> simp [Store.below, h]

theorem Forks.heldBy_node (h : s.Forks i a b) : s.heldBy (.node i) = .facts i :: (a.held ++ b.held) := by
  rcases h with h | h <;> simp [heldBy, h, Shape.heldByNode]

theorem Forks.heldBy_facts (h : s.Forks i a b) : s.heldBy (.facts i) = a.held ++ b.held := by
  rcases h with h | h <;> simp [heldBy, h]

/-- The node `i` is put together of the parts: by itself and some nodes that it has as parts. -/
structure Joins (s : Store V K) (i : NodeId) (joints : List NodeId) (parts : List Ref) : Prop where
  root : i ∈ joints
  hangs : ∀ x ∈ joints, x = i ∨ .node x ∈ s.below i
  forks : ∀ x ∈ joints, ∃ a b, s.Forks x a b
  leads : ∀ x ∈ joints, ∀ r ∈ s.below x, r ∈ parts ∨ ∃ y ∈ joints, r = .node y
  covers : ∀ r ∈ parts, ∃ x ∈ joints, r ∈ s.below x

theorem joins_pair (h : s.Forks i a b) : s.Joins i [i] [a, b] := by
  refine ⟨by simp, by simp, by simpa using ⟨a, b, h⟩, fun x hx r hr => .inl ?_, fun r hr => ⟨i, by simp, ?_⟩⟩
  · obtain rfl := List.mem_singleton.1 hx
    rwa [h.below] at hr
  · rwa [h.below]

theorem joins_left (hi : s.Forks i (.node m) c) (hm : s.Forks m a b) : s.Joins i [i, m] [a, b, c] := by
  refine ⟨by simp, by simp [hi.below], ?_, ?_, ?_⟩
  · simp only [List.mem_cons, List.not_mem_nil, or_false, forall_eq_or_imp, forall_eq]
    exact ⟨⟨_, _, hi⟩, _, _, hm⟩
  · simp [hi.below, hm.below]
  · simp [hi.below, hm.below]

theorem joins_right (hi : s.Forks i a (.node m)) (hm : s.Forks m b c) : s.Joins i [i, m] [a, b, c] := by
  refine ⟨by simp, by simp [hi.below], ?_, ?_, ?_⟩
  · simp only [List.mem_cons, List.not_mem_nil, or_false, forall_eq_or_imp, forall_eq]
    exact ⟨⟨_, _, hi⟩, _, _, hm⟩
  · simp [hi.below, hm.below]
  · simp [hi.below, hm.below]

theorem Joins.hasRef (h : s.Joins i joints parts) : s.HasRef (.node i) := by
  obtain ⟨a, b, hf | hf⟩ := h.forks i h.root
  · exact (Array.getElem?_eq_some_iff.1 hf).1
  · exact (Array.getElem?_eq_some_iff.1 hf).1

theorem Joins.perm {parts' : List Ref} (h : s.Joins i joints parts) (hp : parts.Perm parts') :
    s.Joins i joints parts' :=
  ⟨h.root, h.hangs, h.forks, fun x hx r hr => (h.leads x hx r hr).imp_left hp.mem_iff.1, fun r hr =>
    h.covers r (hp.mem_iff.2 hr)⟩

/-- The joints hold each other and what the parts hold. -/
theorem Joins.wraps (hi : s.Joins i joints parts) : s.Wraps [.node i] joints fun h => ∃ r ∈ parts, h ∈ r.held where
  enters h hh := .inl ⟨i, hi.root, .inl (List.mem_singleton.1 hh)⟩
  leaves g h hg hh := by
    obtain ⟨x, hx, hgx⟩ := hg
    obtain ⟨a, b, hfork⟩ := hi.forks x hx
    have hheld : h = .facts x ∨ ∃ r ∈ s.below x, h ∈ r.held := by
      rw [hfork.below]
      rcases hgx with rfl | rfl
      · rw [hfork.heldBy_node] at hh
        simpa using hh
      · rw [hfork.heldBy_facts] at hh
        exact .inr (by simpa using hh)
    rcases hheld with rfl | ⟨r, hr, hrh⟩
    · exact .inl ⟨x, hx, .inr rfl⟩
    · rcases hi.leads x hx r hr with hp | ⟨y, hy, rfl⟩
      · exact .inr ⟨r, hp, hrh⟩
      · exact .inl ⟨y, hy, .inl (List.mem_singleton.1 hrh)⟩
  keeps h hh := by
    rcases hh with ⟨x, hx, rfl | rfl⟩ | ⟨r, hr, hrh⟩
    · rcases hi.hangs x hx with rfl | hxi
      · exact .inl List.mem_cons_self
      · obtain ⟨a, b, hfork⟩ := hi.forks i hi.root
        refine .inr ⟨.node i, ⟨i, hi.root, .inl rfl⟩, ?_⟩
        rw [hfork.below] at hxi
        rw [hfork.heldBy_node]
        rcases List.mem_pair.1 hxi with rfl | rfl <;> simp [Ref.held]
    · obtain ⟨a, b, hfork⟩ := hi.forks x hx
      exact .inr ⟨.node x, ⟨x, hx, .inl rfl⟩, by simp [hfork.heldBy_node]⟩
    · obtain ⟨x, hx, hrx⟩ := hi.covers r hr
      obtain ⟨a, b, hfork⟩ := hi.forks x hx
      refine .inr ⟨.node x, ⟨x, hx, .inl rfl⟩, ?_⟩
      rw [hfork.below] at hrx
      rw [hfork.heldBy_node]
      rcases List.mem_pair.1 hrx with rfl | rfl <;> simp [hrh]

end Joints

section Readiness

variable [Kind K] {s : Store V K} {l : Liveness} {joints joints' : List NodeId} {parts : List Ref}

theorem Joins.below (hi : s.Joins i joints parts) (hc : Complete s.productions i) {x : Nat} (hx : x ∈ joints) :
    Below s.productions i x := by
  rcases hi.hangs x hx with rfl | hxi
  · exact .refl
  · exact below_of_ref hc .refl hxi rfl

variable (h : s.Ready l i) (hi : s.Joins i joints parts) (hj : s.Joins j joints' parts)
include h hi hj

/-- Each part of a joint is alive, and a joint or below the other grammar. -/
theorem Joins.exists_part {x : Nat} (hx : x ∈ joints') {r : Ref} (hr : r ∈ s.below x) :
    ∃ y, s.deref? l r = some y ∧ (y ∈ joints' ∨ Below s.productions i y) := by
  rcases hj.leads x hx r hr with hp | ⟨y, hy, rfl⟩
  · obtain ⟨x', hx', hr'⟩ := hi.covers r hp
    have hb := hi.below h.complete hx'
    obtain ⟨y, hy⟩ := Option.isSome_iff_exists.1 (h.alive x' hb r hr')
    exact ⟨y, hy, .inr (below_of_ref h.complete hb hr' (nodeOf?_of_deref? hy))⟩
  · exact ⟨y, rfl, .inl hy⟩

/-- A joint is a disjunction or a sequence. -/
theorem Joins.exists_production {x : Nat} (hx : x ∈ joints') : ∃ u v,
    (s.productions x = some (.disjunction u v) ∨ s.productions x = some (.sequence u v)) ∧
    ∀ y ∈ [u, v], y ∈ joints' ∨ Below s.productions i y := by
  obtain ⟨a, b, hfork⟩ := hj.forks x hx
  have hbelow := hfork.below
  obtain ⟨u, hu, hu'⟩ := Joins.exists_part h hi hj hx (by simp [hbelow] : a ∈ s.below x)
  obtain ⟨v, hv, hv'⟩ := Joins.exists_part h hi hj hx (by simp [hbelow] : b ∈ s.below x)
  refine ⟨u, v, ?_, by simp [hu', hv']⟩
  rcases hfork with hfork | hfork
  · exact .inl (production_disjunction hfork (nodeOf?_of_deref? hu) (nodeOf?_of_deref? hv))
  · exact .inr (production_sequence hfork (nodeOf?_of_deref? hu) (nodeOf?_of_deref? hv))

/-- Below what is put together there are the joints and what is below the other grammar. -/
theorem Joins.joint_or_below {x : Nat} (hb : Below s.productions j x) : x ∈ joints' ∨ Below s.productions i x := by
  induction hb with
  | refl => exact .inl hj.root
  | @tail x y _ hy ih =>
    obtain ⟨p, hp, hyp⟩ := hy
    rcases ih with hx | hx
    · obtain ⟨u, v, hx | hx, hparts⟩ := Joins.exists_production h hi hj hx
      · cases hx.symm.trans hp
        exact hparts y hyp
      · cases hx.symm.trans hp
        exact hparts y hyp
    · exact .inr (hx.trans (Below.part hp hyp))

/-- What is put together of the parts of a ready grammar is ready. -/
theorem Ready.rebuild : s.Ready l j := by
  refine ⟨fun x hb => ?_, fun x hb r hr => ?_, fun x hb => ?_, fun x f y hb hp => ?_⟩
  · rcases Joins.joint_or_below h hi hj hb with hx | hx
    · obtain ⟨u, v, hx | hx, -⟩ := Joins.exists_production h hi hj hx <;> simp [hx]
    · exact h.complete x hx
  · rcases Joins.joint_or_below h hi hj hb with hx | hx
    · obtain ⟨y, hy, -⟩ := Joins.exists_part h hi hj hx hr
      exact Option.isSome_of_eq_some hy
    · exact h.alive x hx r hr
  · rcases Joins.joint_or_below h hi hj hb with hx | hx
    · obtain ⟨u, v, hx | hx, -⟩ := Joins.exists_production h hi hj hx <;>
        exact ⟨x, .refl, fun y hy => by cases hx.symm.trans hy⟩
    · exact h.resolves x hx
  · rcases Joins.joint_or_below h hi hj hb with hx | hx
    · obtain ⟨u, v, hx | hx, -⟩ := Joins.exists_production h hi hj hx <;> simp [hx] at hp
    · exact h.settled x f y hx hp

end Readiness

section Shapes

variable [Kind K] {s : Store V K}

theorem Reordered.exists_joins (h : s.Reordered i j) :
    ∃ joints joints' parts, s.Joins i joints parts ∧ s.Joins j joints' parts := by
  cases h with
  | swap hi hj => exact ⟨_, _, _, joins_pair (.inl hi), (joins_pair (.inl hj)).perm (List.Perm.swap ..)⟩
  | regroup hi hm hj hn => exact ⟨_, _, _, joins_left (.inl hi) (.inl hm), joins_right (.inl hj) (.inl hn)⟩

theorem Regrouped.exists_joins (h : s.Regrouped i j) :
    ∃ joints joints' parts, s.Joins i joints parts ∧ s.Joins j joints' parts := by
  cases h with
  | mk hi hm hj hn => exact ⟨_, _, _, joins_left (.inr hi) (.inr hm), joins_right (.inr hj) (.inr hn)⟩

/-- In either direction, both are put together of the same parts. -/
theorem exists_joins (h : (s.Reordered i j ∨ s.Reordered j i) ∨ s.Regrouped i j ∨ s.Regrouped j i) :
    ∃ joints joints' parts, s.Joins i joints parts ∧ s.Joins j joints' parts := by
  rcases h with (h | h) | h | h
  · exact h.exists_joins
  · obtain ⟨joints, joints', parts, hj, hi⟩ := h.exists_joins
    exact ⟨joints', joints, parts, hi, hj⟩
  · exact h.exists_joins
  · obtain ⟨joints, joints', parts, hj, hi⟩ := h.exists_joins
    exact ⟨joints', joints, parts, hi, hj⟩

end Shapes
end Store

variable [Value V] [Kind K] {s s₁ s₂ : Store V K} {held held' : List Ref} {r : Ref}
  {v : Except (Rejection K) (ValidGrammar V K)} {g : ValidGrammar V K}

theorem Later.trans (h : Later s s₁) (h' : Later s₁ s₂) : Later s s₂ := by
  induction h' with
  | refl => exact h
  | call c _ hr ih => exact ih.call c hr

theorem Later.of_validate (hr : s.HasRef r) (hval : validate held r s = .ok v s₁) : Later s s₁ := by
  have hafter : (Call.validate held r).after s = s₁ := by
    simp [Call.after, Call.run, bind, EStateM.bind, hval]
    rfl
  exact hafter ▸ .call _ .refl (by simpa [Call.refs] using hr)

/-- A grammar that has got a table is ready ever after, as long as what was in use then still is. -/
theorem ready_of_later (h : Reached s) (hr : s.HasRef (.node i)) (hval : validate held (.node i) s = .ok (.ok g) s₁)
    (hl : Later s₁ s₂) (hkeep : ∀ r ∈ s₁.names.values ++ held, r ∈ s₂.names.values ++ held') :
    s₂.Ready (s₂.liveness (.node i :: held')) i := by
  obtain ⟨n, hn, hready⟩ := ready_of_validate h hr hval
  cases hn
  have hreached : Reached s₁ := h.trans (.of_validate hr hval)
  obtain ⟨hv₁, hm₁⟩ := hreached.sane
  have hup := hl.upholds hv₁ hm₁
  refine hready.uphold hup fun k d _ hd => hup.toGrows.isAlive (fun r hr => ?_) hd
  have hmem := hkeep r
  simp only [List.mem_append, List.mem_cons] at hr hmem ⊢
  tauto

/-- Once a grammar has got a table, there is a verdict on any other one that is put together of the same parts, as long as
what was in use then still is. -/
theorem exists_verdict_of_joins {joints joints' : List NodeId} {parts : List Ref} (h : Reached s)
    (hr : s.HasRef (.node i)) (hval : validate held (.node i) s = .ok (.ok g) s₁) (hl : Later s₁ s₂)
    (hkeep : ∀ r ∈ s₁.names.values ++ held, r ∈ s₂.names.values ++ held') (hi : s₂.Joins i joints parts)
    (hj : s₂.Joins j joints' parts) : ∃ w s₃, validate held' (.node j) s₂ = .ok w s₃ := by
  have h₂ : Reached s₂ := (h.trans (.of_validate hr hval)).trans hl
  obtain ⟨hv₂, hm₂⟩ := h₂.sane
  have hready := ready_of_later h hr hval hl hkeep
  refine exists_verdict_of_ready hv₂ hm₂ hj.hasRef
    (Ready.rebuild (hready.uphold (.refl hv₂ hm₂) fun k d hk hd => ?_) hi hj)
  -- self-references lead to deferred nodes, and the joints are none
  have hdeferred : d ∉ joints := by
    intro hd
    obtain ⟨o, t, hdef⟩ := hv₂.knots k d hk
    obtain ⟨a, b, hf | hf⟩ := hi.forks d hd
    · cases hdef.symm.trans hf
    · cases hdef.symm.trans hf
  exact Wraps.isAlive (.node i) (.node j) hi.wraps hj.wraps hdeferred hd

/-- Neither the order of alternatives nor the grouping of alternatives or of a sequence with productive ends matters: the
verdicts are the same, and so is what the tables parse, of a sequence if prepending is associative. What makes prepending
associative makes the tables parse alike. Once one of the two has got a table the other one gets one, as long as what was
in use then still is. -/
theorem regrouping_changes_nothing (h : Reached s) (hr : s.HasRef (.node i))
    (hval : validate held (.node i) s = .ok v s₁) (hl : Later s₁ s₂)
    (hij : (s₂.Reordered i j ∨ s₂.Reordered j i) ∨ s₂.Regrouped i j ∨ s₂.Regrouped j i) :
    (∀ w s₃, validate held' (.node j) s₂ = .ok w s₃ → SameVerdict v w ∧
      ((s₂.Reordered i j ∨ s₂.Reordered j i) ∨ Std.Associative (prepend (V := V)) → SameParses v w) ∧
      ∀ E, ValidGrammar.Associates E → ParseAlike E v w) ∧
    ((∃ g, v = .ok g) → (∀ r ∈ s₁.names.values ++ held, r ∈ s₂.names.values ++ held') →
      ∃ g' s₃, validate held' (.node j) s₂ = .ok (.ok g') s₃) := by
  have h₁ : Reached s₁ := h.trans (.of_validate hr hval)
  have h₂ : Reached s₂ := h₁.trans hl
  obtain ⟨hv₁, hm₁⟩ := h₁.sane
  have hup := hl.upholds hv₁ hm₁
  obtain ⟨joints, joints', parts, hi, hj⟩ := exists_joins hij
  have hc := (judged_of_validate h hr hval hup).complete
  have hverdicts : ∀ w s₃, validate held' (.node j) s₂ = .ok w s₃ → SameVerdict v w ∧
      ((s₂.Reordered i j ∨ s₂.Reordered j i) ∨ Std.Associative (prepend (V := V)) → SameParses v w) ∧
      ∀ E, ValidGrammar.Associates E → ParseAlike E v w := by
    intro w s₃ hw
    obtain ⟨hv₂, hm₂⟩ := h₂.sane
    have hup₃ := ((validate_upholds hv₂ hm₂ held' hj.hasRef).of_ok hw).1
    have hi₃ := judged_of_validate h hr hval (hup.trans hup₃)
    have hj₃ := judged_of_validate h₂ hj.hasRef hw (.refl hup₃.valid hup₃.remembers)
    rcases hij with hij | hij
    · obtain ⟨hverdict, hparses⟩ := hi₃.reordered hj₃ hup₃.extends hc hij
      exact ⟨hverdict, fun _ => hparses, fun _ _ => hparses.parseAlike⟩
    · obtain ⟨hverdict, halike⟩ := hi₃.regrouped hj₃ hup₃.extends hc hij
      refine ⟨hverdict, ?_, halike⟩
      rintro (hij | assoc)
      · exact (hi₃.reordered hj₃ hup₃.extends hc hij).2
      · exact (halike Eq assoc.assoc).sameParses
  refine ⟨hverdicts, fun ⟨g, hg⟩ hkeep => ?_⟩
  subst hg
  obtain ⟨w, s₃, hw⟩ := exists_verdict_of_joins h hr hval hl hkeep hi hj
  obtain ⟨g', rfl⟩ := (hverdicts w s₃ hw).1.1 ⟨g, rfl⟩
  exact ⟨g', s₃, hw⟩

/-- Brackets within a pair of tokens, grouped from the left and from the right. -/
def groupedStore : Store (List Int64) Tag :=
  (Call.evaluate [] {} (.save "right" (.sequence (.name "a") (.sequence (.name "b") (.name "c"))))).after
    ((Call.evaluate [] {} (.save "left" (.sequence (.sequence (.save "a" (.element .opening)) (.save "b" nested))
      (.save "c" (.element .closing))))).after {})

/-- The two sequences and their ends are where they were made. -/
def Store.isGrouped (s : Store (List Int64) Tag) : Bool :=
  match s.nodes[10]?, s.nodes[8]?, s.nodes[12]?, s.nodes[11]? with
  | some (Shape.sequence (.node 8) (.node 9)), some (Shape.sequence (.node 0) b),
    some (Shape.sequence (.node 0) (.node 11)), some (Shape.sequence b' (.node 9)) =>
    b == b' && (match s.productions 0, s.productions 9 with
      | some (.element _), some (.element _) => true
      | _, _ => false)
  | _, _, _, _ => false

theorem regrouping_changes_nothing_brackets : ∃ g s₁ g' s₂,
    validate [] (.node 10) groupedStore = .ok (.ok g) s₁ ∧ validate [] (.node 12) s₁ = .ok (.ok g') s₂ ∧
    ∀ ts, g.parse .unbounded ts = g'.parse .unbounded ts := by
  have hreached : Reached groupedStore :=
    .call _ (.call _ .refl (by simp [Call.refs, Scope.refs])) (by simp [Call.refs, Scope.refs])
  have href : groupedStore.HasRef (.node 10) := (by decide +kernel : 10 < groupedStore.nodes.size)
  obtain ⟨g, s₁, hval, hp⟩ := exists_valid (s := groupedStore) [] (.node 10) (fun _ s => s.isGrouped)
    (by decide +kernel)
  have hij : s₁.Regrouped 10 12 := by
    unfold Store.isGrouped at hp
    split at hp
    · rename_i hi hm hj hn
      obtain ⟨hb, hends⟩ := Bool.and_eq_true_iff.1 hp
      obtain rfl := eq_of_beq hb
      split at hends
      · rename_i h0 h9
        exact .mk hi hm hj hn rfl ⟨_, .element h0⟩ rfl ⟨_, .element h9⟩
      · cases hends
    · cases hp
  have assoc : Std.Associative (prepend (V := List Int64)) := ⟨List.append_assoc⟩
  obtain ⟨hverdicts, hok⟩ := regrouping_changes_nothing hreached href hval .refl (.inr (.inl hij))
  obtain ⟨g', s₂, hval'⟩ := hok ⟨g, rfl⟩ fun r hr => hr
  obtain ⟨-, hparses, -⟩ := hverdicts _ _ hval'
  exact ⟨g, s₁, g', s₂, hval, hval', hparses (.inr assoc) g g' rfl rfl⟩

end Predictive.Grammar
