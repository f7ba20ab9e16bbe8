import Predictive.Proofs.Iteration
import Predictive.Proofs.Grammar.Repetition

/-!
What a grammar that may come again parses to. If it gets a table, the table parses the tokens that can be cut into items,
and it gives the value of the items and the end. The grammar that must come once then parses the same but for no items.
-/
namespace Predictive.Grammar

open Store

variable {V K : Type} {i j m n : Nat} {u : Sugar} {e x : V} {a : Ref}

namespace Store

section Nodes

variable [Kind K] {s s' : Store V K}

/-- The node `j` is made of `a` to come again, with `e` at the end. -/
inductive Iterated (s : Store V K) (a : Ref) (e : V) : Sugar → NodeId → Prop
  | many {m b q d k : NodeId} {t : Option Ref} : s.nodes[m]? = some (Shape.deferred (.known (.node b)) t) →
      s.nodes[b]? = some (Shape.disjunction (.node q) (.node d)) →
      s.nodes[q]? = some (Shape.sequence a (.self k)) → s.nodes[d]? = some (Shape.success e) →
      s.nodeOf? (.self k) = some m → Iterated s a e .many m
  | many1 {j m : NodeId} : s.nodes[j]? = some (Shape.sequence a (.node m)) → Iterated s a e .many m →
      Iterated s a e .many1 j

namespace Iterated

theorem grow (h : s.Iterated a e u j) (hs : s.Grows s') : s'.Iterated a e u j := by
  induction h with
  | @many m b q d k t hm hb hq hd hk =>
    obtain ⟨t', hm'⟩ := hs.recursive hm
    exact .many hm' (hs.solid hb (by simp)) (hs.solid hq (by simp)) (hs.solid hd (by simp)) (hs.knots k m hk)
  | many1 hj _ ih => exact .many1 (hs.solid hj (by simp)) ih

/-- What is made of a node is that node with sugar. -/
theorem exists_sugared (h : s.Iterated (.node i) e u j) : ∃ joints, s.Sugared i u joints j := by
  induction h with
  | many hm hb hq hd hk => exact ⟨_, .many hm hb hq hd hk⟩
  | many1 hj _ ih =>
    obtain ⟨joints, hjoints⟩ := ih
    exact ⟨_, .many1 hj hjoints⟩

/-- Once all of it is there, the productions say so. -/
theorem exists_iterates (h : s.Iterated a e u j) (hbodies : s.KeepsBodies) (hc : Complete s.productions j) :
    ∃ i, s.nodeOf? a = some i ∧ Iterates s.productions i e u j := by
  induction h with
  | @many m b q d k t hm hb hq hd hk =>
    have hbody : s.productions m = some (.deferred b) := hbodies.production hm (hc m .refl)
    have hchoice : s.productions b = some (.disjunction q d) := production_disjunction hb rfl rfl
    have hround : (s.productions q).isSome :=
      (hc.part hbody (by simp [Production.parts])).part hchoice (by simp [Production.parts]) q .refl
    obtain ⟨i, y, hi, hy⟩ := exists_nodes_sequence hq hround
    have hend : s.productions d = some (.success e) := by simp only [productions, hd]
    exact ⟨i, hi, .many hbody hchoice (production_sequence hq hi hk) hend⟩
  | @many1 j m hj _ ih =>
    obtain ⟨i, y, hi, hy⟩ := exists_nodes_sequence hj (hc j .refl)
    have hp : s.productions j = some (.sequence i m) := production_sequence hj hi rfl
    obtain ⟨i', hi', hmany⟩ := ih (hc.part hp (by simp [Production.parts]))
    obtain rfl : i = i' := Option.some.inj (hi.symm.trans hi')
    exact ⟨i, hi, .many1 hp hmany⟩

end Iterated
end Nodes
end Store

section Making

variable [Kind K] {s s' : Store V K} {r : Ref} {held : List Ref} {sc : Scope} {ex : Expr V K}

theorem addMany_iterated (h : (addMany a e : Work V K Ref) s = .ok r s') : ∃ m, r = .node m ∧ s'.Iterated a e .many m := by
  cases h
  refine ⟨s.nodes.size + 3, by simp, .many (b := s.nodes.size + 2) (q := s.nodes.size) (d := s.nodes.size + 1)
    (k := s.knots.size) (t := none) ?_ ?_ ?_ ?_ ?_⟩
  · grind
  · grind
  · grind
  · grind
  · simp [nodeOf?]

/-- What the expression with sugar makes is what the expression makes, to come again. -/
theorem evaluate_iterated (hu : u ≠ .optional) (h : (u.expr ex e).evaluate held sc s = .ok r s') :
    ∃ a s₁ j, ex.evaluate held sc s = .ok a s₁ ∧ r = .node j ∧ s'.Iterated a e u j := by
  cases u with
  | optional => exact absurd rfl hu
  | many =>
    obtain ⟨a, s₁, ha, h⟩ := bind_eq_ok h
    obtain ⟨m, hm, hmany⟩ := addMany_iterated h
    exact ⟨a, s₁, m, ha, hm, hmany⟩
  | many1 =>
    obtain ⟨a, s₁, ha, h⟩ := bind_eq_ok h
    obtain ⟨m, s₂, hm, h⟩ := bind_eq_ok h
    obtain ⟨m, rfl, hmany⟩ := addMany_iterated hm
    cases h
    have hgrows : s₂.Grows { s₂ with nodes := s₂.nodes.push (.sequence a (.node m)) } :=
      ⟨fun x shape hx => .inl (by grind), fun _ _ hk => hk⟩
    exact ⟨a, s₁, _, ha, rfl, .many1 (by grind) (hmany.grow hgrows)⟩

end Making

variable [Value V] [Kind K] {s : Store V K} {held : List Ref} {g g' : ValidGrammar V K} {ts : List (K × V)} {v : V}

theorem Later.grows {s' : Store V K} (h : Later s s') (hs : Reached s) : s.Grows s' := by
  obtain ⟨hv, hm⟩ := hs.sane
  exact (h.upholds hv hm).toGrows

/-- A table parses what its node derives. -/
theorem Judged.parse_iff (h : Judged s j (.ok g)) : g.parse .unbounded ts = .ok v ↔ Derives s.productions j ts v := by
  obtain ⟨node, htab⟩ := h.table g rfl
  rw [(htab.lawful (h.decided.1 ⟨g, rfl⟩)).parse_iff, htab.derives_iff htab.root]

/-- Where a grammar with sugar has got a table, there is a verdict on any grammar made of the same one, while the first is
still in use or nothing of it is below what it is made of. -/
theorem exists_verdict_of_kin {y : NodeId} {joints joints' : List NodeId} (h : Tabled s held (.node m))
    (hm : s.Sugared i u joints m) (hkeep : .node m ∈ held ∨ ∀ c ∈ joints, ¬Below s.productions i c)
    (hy : s.Kin i joints' y) : ∃ w s', validate held (.node y) s = .ok w s' := by
  rcases hkeep with hmem | hself
  · obtain ⟨hreached, hready⟩ := h.ready
    have hs := hreached.orderly
    have hbelow := (hm.repeats hs.bodies hready.complete).inner
    have hinner : s.Ready (s.liveness (.node i :: held)) i := (hready.part hbelow).relive fun d _ halive => by
      refine (Grows.refl s).isAlive (fun r hr => ?_) halive
      simp only [List.mem_append, List.mem_cons] at hr ⊢
      rcases hr with hr | rfl | hr
      · exact .inl hr
      · exact .inr (.inr hmem)
      · exact .inr (.inr hr)
    obtain ⟨p, hp⟩ := Option.isSome_iff_exists.1 (hinner.complete i .refl)
    obtain ⟨t, hg, hready'⟩ := hy.realizes hs hinner
    exact exists_verdict_of_realize hs.valid hs.remembers (hy.hasRef (lt_of_production hp)) hg hready'
  · exact (exists_answers_of_tabled h (.sugared hm) hself hy).1

/-- If a grammar to come again gets a table, the table parses the tokens that can be cut into items, in one way only, and
gives the values of the items, put in front of the end one after another, the last one first. The grammar that must come
once gets a table, too, and that parses the same but for no items. There is a verdict on it while the other one is still in
use, or nothing of that one is below what is repeated. -/
theorem repetition_parses_items {s : Store V K} {a : Ref} {e : V} :
    (∀ {u : Sugar} {ex : Expr V K} {held : List Ref} {sc : Scope} {s₀ s₁ : Store V K} {r : Ref}, u ≠ .optional →
      (u.expr ex e).evaluate held sc s₀ = .ok r s₁ → Reached s₁ → Later s₁ s →
        ∃ a s' j, ex.evaluate held sc s₀ = .ok a s' ∧ r = .node j ∧ s.Iterated a e u j) ∧
    (∀ {m : NodeId} {g : ValidGrammar V K}, s.Iterated a e .many m → Answered s validate (.node m) (.ok g) →
      ∃ i, s.nodeOf? a = some i ∧
        (∀ ts v, g.parse .unbounded ts = .ok v ↔ ∃ items, Itemizes s.productions i ts items ∧ v = gathered e items) ∧
        (∀ ts items items', Itemizes s.productions i ts items → Itemizes s.productions i ts items' → items = items') ∧
        ∀ {j : NodeId} {w : Except (Rejection K) (ValidGrammar V K)}, s.Iterated a e .many1 j →
          Answered s validate (.node j) w → ∃ g', w = .ok g' ∧ ∀ ts v, g'.parse .unbounded ts = .ok v ↔
            ∃ items, items ≠ [] ∧ Itemizes s.productions i ts items ∧ v = gathered e items) ∧
    ∀ {i m j : NodeId} {joints : List NodeId} {held : List Ref}, s.Sugared i .many joints m → Tabled s held (.node m) →
      (.node m ∈ held ∨ ∀ c ∈ joints, ¬Below s.productions i c) → s.Iterated (.node i) e .many1 j →
        ∃ w s', validate held (.node j) s = .ok w s' := by
  refine ⟨fun hu h h₁ hl => ?_, fun {m g} hm hg => ?_, fun {i m j joints held} hm h hkeep hj => ?_⟩
  · obtain ⟨a, s', j, ha, hr, hj⟩ := evaluate_iterated hu h
    exact ⟨a, s', j, ha, hr, hj.grow (hl.grows h₁)⟩
  · obtain ⟨hreached, hjudged⟩ := hg.judged
    have hbodies := hreached.orderly.bodies
    obtain ⟨i, hi, hrounds⟩ := hm.exists_iterates hbodies hjudged.complete
    have hdecided : DecidedFrom s.productions m := hjudged.decided.1 ⟨g, rfl⟩
    obtain ⟨hinner, hsuits⟩ := hrounds.repeats.decidedFrom_iff.1 hdecided
    have hnullable : ¬Nullable s.productions i := hsuits.1
    refine ⟨i, hi, fun ts v => ?_, fun ts items items' h h' => hrounds.items_unique hdecided h h', fun {j w} hj hw => ?_⟩
    · rw [hjudged.parse_iff, hrounds.derives_iff_items hnullable]
    · have hjudged' := hw.judged.2
      obtain ⟨i', hi', honce⟩ := hj.exists_iterates hbodies hjudged'.complete
      obtain rfl : i = i' := Option.some.inj (hi.symm.trans hi')
      obtain ⟨g', rfl⟩ := hjudged'.decided.2 (honce.repeats.decidedFrom_iff.2 ⟨hinner, hsuits⟩)
      refine ⟨g', rfl, fun ts v => ?_⟩
      rw [hjudged'.parse_iff, honce.derives_iff_items_of_many1 hnullable]
  · obtain ⟨joints', hj'⟩ := hj.exists_sugared
    exact exists_verdict_of_kin h hm hkeep (.sugared hj')

/-- An element, with a mark behind it or without. -/
def markable : Expr (List Int64) Tag := .save "x" (.sequence (.element .a) (.optional (.element .b) []))

/-- The element to come again, and to come again but at least once. -/
def repeatedStore : Store (List Int64) Tag :=
  (Call.evaluate [] {} (.many1 (.name "x") [9])).after ((Call.evaluate [] {} (.many markable [9])).after {})

/-- The node is made of `a` to come again. -/
def Store.isMany (s : Store (List Int64) Tag) (a : Ref) (v : List Int64) (m : NodeId) : Bool :=
  match s.nodes[m]? with
  | some (Shape.deferred (.known (.node b)) _) =>
    match s.nodes[b]? with
    | some (Shape.disjunction (.node q) (.node d)) =>
      match s.nodes[q]?, s.nodes[d]? with
      | some (Shape.sequence a' (.self k)), some (Shape.success v') =>
        a' == a && v' == v && s.nodeOf? (.self k) == some m
      | _, _ => false
    | _ => false
  | _ => false

theorem iterated_of_isMany {s : Store (List Int64) Tag} {v : List Int64} (h : s.isMany a v m = true) :
    s.Iterated a v .many m := by
  unfold Store.isMany at h
  split at h
  · rename_i b t hm
    split at h
    · rename_i q d hb
      split at h
      · rename_i a' k v' hq hd
        simp only [Bool.and_eq_true, beq_iff_eq] at h
        obtain ⟨⟨rfl, rfl⟩, hk⟩ := h
        exact .many hm hb hq hd hk
      · cases h
    · cases h
  · cases h

/-- The node is made of `a` to come again, but at least once. -/
def Store.isMany1 (s : Store (List Int64) Tag) (a : Ref) (v : List Int64) (j : NodeId) : Bool :=
  match s.nodes[j]? with
  | some (Shape.sequence a' (.node m)) => a' == a && s.isMany a v m
  | _ => false

theorem iterated_of_isMany1 {s : Store (List Int64) Tag} {v : List Int64} (h : s.isMany1 a v j = true) :
    s.Iterated a v .many1 j := by
  unfold Store.isMany1 at h
  split at h
  · rename_i a' m hj
    simp only [Bool.and_eq_true, beq_iff_eq] at h
    obtain ⟨rfl, hm⟩ := h
    exact .many1 hj (iterated_of_isMany hm)
  · cases h

/-- Two elements, the first of them marked. -/
def marks : List (Tag × List Int64) := [(.a, [1]), (.b, [2]), (.a, [3])]

/-- The verdicts on two grammars. -/
def askBoth (x y : NodeId) : Work (List Int64) Tag (Except (Rejection Tag) (ValidGrammar (List Int64) Tag) ×
    Except (Rejection Tag) (ValidGrammar (List Int64) Tag)) := do
  let v ← validate [] (.node x)
  let w ← validate [] (.node y)
  return (v, w)

theorem answered_of_askBoth {s s' : Store (List Int64) Tag} {x y : NodeId} {v w : _} (h₀ : Reached s)
    (hx : s.HasRef (.node x)) (hy : s.HasRef (.node y)) (h : askBoth x y s = .ok (v, w) s') :
    Later s s' ∧ Answered s' validate (.node x) v ∧ Answered s' validate (.node y) w ∧
    ∀ g, v = .ok g → ∃ held, .node x ∈ held ∧ Tabled s' held (.node x) := by
  obtain ⟨v, s₁, hv, h⟩ := bind_eq_ok h
  obtain ⟨w, s₂, hw, h⟩ := bind_eq_ok h
  cases h
  have l₁ := Later.of_validate hx hv
  have hy₁ := l₁.hasRef h₀ hy
  have l₂ := Later.of_validate hy₁ hw
  refine ⟨l₁.trans l₂, ⟨_, _, _, h₀, hx, hv, l₂⟩, ⟨_, _, _, h₀.trans l₁, hy₁, hw, .refl⟩, ?_⟩
  rintro g rfl
  exact ⟨.node x :: s₁.names.values, List.mem_cons_self, [], g, _, _, h₀, hx, hv, l₂, fun r hr =>
    List.mem_append_right _ (List.mem_cons_of_mem _ (by simpa using hr))⟩

/-- The first table parses the marked elements. -/
def parsesMarks (v : Except (Rejection Tag) (ValidGrammar (List Int64) Tag)) : Bool :=
  match v with
  | .ok g => (g.parse .unbounded marks).toOption == some [1, 2, 3, 9]
  | .error _ => false

theorem exists_of_parsesMarks {v : Except (Rejection Tag) (ValidGrammar (List Int64) Tag)} (h : parsesMarks v = true) :
    ∃ g, v = .ok g ∧ g.parse .unbounded marks = .ok [1, 2, 3, 9] := by
  unfold parsesMarks at h
  split at h
  · exact ⟨_, rfl, eq_ok_of_toOption (beq_iff_eq.1 h)⟩
  · cases h

/-- The marked elements are cut into items where one of them starts, and there is no value for no elements. -/
theorem repetition_parses_items_marks : ∃ (s : Store (List Int64) Tag) (g g' : ValidGrammar (List Int64) Tag)
    (items : List (Item (List Int64) Tag)), s.Iterated (.node 4) [9] .many 8 ∧ s.Iterated (.node 4) [9] .many1 13 ∧
    Answered s validate (.node 8) (.ok g) ∧ Answered s validate (.node 13) (.ok g') ∧
    Itemizes s.productions 4 marks items ∧ [1, 2, 3, 9] = gathered [9] items ∧
    g'.parse .unbounded marks = .ok [1, 2, 3, 9] ∧ (∀ v, g'.parse .unbounded [] ≠ .ok v) ∧
    ∃ held w s', validate held (.node 13) s = .ok w s' := by
  obtain ⟨r, s₁, hmade, hr⟩ := exists_ok (s := ({} : Store (List Int64) Tag))
    (w := (Sugar.many.expr markable [9]).evaluate [] {}) (fun r _ => r == .node 8) (by decide +kernel)
  obtain rfl := eq_of_beq hr
  have hafter : (Call.evaluate [] {} (.many markable [9])).after {} = s₁ := by
    have hrun : (Expr.many markable [9]).evaluate [] {} ({} : Store (List Int64) Tag) = .ok (.node 8) s₁ := hmade
    simp [Call.after, Call.run, bind, EStateM.bind, hrun]
    rfl
  have h₁ : Reached s₁ := hafter ▸ .call _ .refl (by simp [Call.refs, Scope.refs])
  have hlater : Later s₁ repeatedStore := by
    rw [repeatedStore, hafter]
    exact .call _ .refl (by simp [Call.refs, Scope.refs])
  have hsize : repeatedStore.nodes.size = 14 := by decide +kernel
  have h8 : repeatedStore.HasRef (.node 8) := (by decide : 8 < 14).trans_eq hsize.symm
  have h13 : repeatedStore.HasRef (.node 13) := (by decide : 13 < 14).trans_eq hsize.symm
  obtain ⟨⟨v, w⟩, s, hask, hp⟩ := exists_ok (s := repeatedStore) (w := askBoth 8 13)
    (fun a s => parsesMarks a.1 && s.isMany1 (.node 4) [9] 13) (by decide +kernel)
  obtain ⟨hparses, hshape⟩ := Bool.and_eq_true_iff.1 hp
  obtain ⟨g, rfl, hmarks⟩ := exists_of_parsesMarks hparses
  obtain ⟨l₂, hg, hw, htabled⟩ := answered_of_askBoth (h₁.trans hlater) h8 h13 hask
  obtain ⟨hmakes, hparse, hverdict⟩ := repetition_parses_items (s := s) (a := .node 4) (e := [9])
  have honce : s.Iterated (.node 4) [9] .many1 13 := iterated_of_isMany1 hshape
  have hmany : s.Iterated (.node 4) [9] .many 8 := by
    obtain ⟨r, s', hinner, hr⟩ := exists_ok (s := ({} : Store (List Int64) Tag)) (w := markable.evaluate [] {})
      (fun r _ => r == .node 4) (by decide +kernel)
    obtain rfl := eq_of_beq hr
    obtain ⟨a, s'', j, ha, hj, hmany⟩ := hmakes (by decide) hmade h₁ (hlater.trans l₂)
    cases hj
    cases hinner.symm.trans ha
    exact hmany
  obtain ⟨i, hi, hiff, -, hmany1⟩ := hparse hmany hg
  cases hi
  obtain ⟨items, hitems, hvalue⟩ := (hiff marks _).1 hmarks
  obtain ⟨g', rfl, hiff'⟩ := hmany1 honce hw
  have hne : items ≠ [] := by
    rintro rfl
    cases hitems.tokens
  obtain ⟨joints, hjoints⟩ := hmany.exists_sugared
  obtain ⟨held, hheld, htabled⟩ := htabled g rfl
  refine ⟨s, g, g', items, hmany, honce, hg, hw, hitems, hvalue, (hiff' _ _).2 ⟨items, hne, hitems, hvalue⟩, fun v hv => ?_,
    held, hverdict hjoints htabled (.inl hheld) honce⟩
  obtain ⟨items', hne', hitems', -⟩ := (hiff' _ _).1 hv
  obtain ⟨item, rest, rfl⟩ := List.exists_cons_of_ne_nil hne'
  obtain ⟨hempty, -⟩ := hitems'.derives item List.mem_cons_self
  exact hempty (List.append_eq_nil_iff.1 hitems'.tokens.symm).1

end Predictive.Grammar
