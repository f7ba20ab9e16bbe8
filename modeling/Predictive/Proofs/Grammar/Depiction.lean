import Predictive.Proofs.Grammar.Rendering
import Predictive.Proofs.Grammar.Unfolding
import Predictive.Proofs.Grammar.Unguarded

/-!
What is written for a grammar: the text of a term that tells how the grammar is made of its nodes. The text tells the
term, and the term tells what the grammar unfolds to.
-/
namespace Predictive.Grammar

open Text

variable {V K : Type}

namespace Store

section Terms

variable [Ord K] {s : Store V K} {l : Liveness} {ns ms order : List NodeId} {r x : Ref} {t u : Term V K} {i k : Nat}

/-- The references met in writing `r`. -/
inductive Involves (s : Store V K) (r : Ref) : Ref → Prop
  | root : Involves s r r
  | part {x y : Ref} {i : NodeId} {shape : Shape V K} : Involves s r x → s.nodeOf? x = some i →
      s.nodes[i]? = some shape → y ∈ shape.written → Involves s r y

theorem Involves.hasRef (h : s.Involves r x) (hv : s.Valid) (hr : s.HasRef r) : s.HasRef x := by
  induction h with
  | root => exact hr
  | part _ _ hshape hy _ => exact hv.parts _ _ hshape _ (Shape.written_subset _ hy)

/-- What is met in writing `r` can be written if it is alive. -/
theorem writable_involves (hv : s.Valid) (hr : s.HasRef r) (halive : ∀ x, s.Involves r x → (s.deref? l x).isSome) :
    s.Writable l (s.Involves r) := by
  intro x hx
  obtain ⟨i, hi⟩ := Option.isSome_iff_exists.1 (halive x hx)
  have hxi := nodeOf?_of_deref? hi
  have hlt := hv.lt_of_nodeOf? (hx.hasRef hv hr) hxi
  have hshape : s.nodes[i]? = some s.nodes[i] := Array.getElem?_eq_getElem hlt
  exact ⟨i, _, hi, hshape, fun y hy => hx.part hxi hshape hy⟩

/-- The term depicts the grammar `r`, read from the left. The deferred nodes `ns` have been met before, in that order,
and `ms` have been met afterwards; the numbers go by the order, from one. -/
inductive Depicts (s : Store V K) (l : Liveness) : List NodeId → Ref → Term V K → List NodeId → Prop
  | success {ns : List NodeId} {r : Ref} {i : NodeId} {v : V} : s.deref? l r = some i →
      s.nodes[i]? = some (.success v) → Depicts s l ns r (.success v) ns
  | element {ns : List NodeId} {r : Ref} {i : NodeId} {k : K} : s.deref? l r = some i →
      s.nodes[i]? = some (.element k) → Depicts s l ns r (.element k) ns
  | disjunction {ns ms ks : List NodeId} {r a b : Ref} {i : NodeId} {t u : Term V K} : s.deref? l r = some i →
      s.nodes[i]? = some (.disjunction a b) → Depicts s l ns a t ms → Depicts s l ms b u ks →
      Depicts s l ns r (.disjunction t u) ks
  | sequence {ns ms ks : List NodeId} {r a b : Ref} {i : NodeId} {t u : Term V K} : s.deref? l r = some i →
      s.nodes[i]? = some (.sequence a b) → Depicts s l ns a t ms → Depicts s l ms b u ks →
      Depicts s l ns r (.sequence t u) ks
  | transform {ns ms : List NodeId} {r a : Ref} {i : NodeId} {f : Transformation V} {t : Term V K} :
      s.deref? l r = some i → s.nodes[i]? = some (.transform f a) → Depicts s l ns a t ms →
      Depicts s l ns r (.transform t) ms
  | name {ns : List NodeId} {r : Ref} {i : NodeId} {k : Nat} {o : Origin V K} {target : Option Ref} :
      s.deref? l r = some i → s.nodes[i]? = some (.deferred o target) → ns[k]? = some i →
      Depicts s l ns r (.name (k + 1)) ns
  | definition {ns ms : List NodeId} {r body : Ref} {i : NodeId} {o : Origin V K} {target : Option Ref}
      {t : Term V K} : s.deref? l r = some i → s.nodes[i]? = some (.deferred o target) → i ∉ ns →
      o.definition? target = some body → Depicts s l (ns ++ [i]) body t ms →
      Depicts s l ns r (.definition (ns.length + 1) t) ms
  | unknown {ns : List NodeId} {r : Ref} {i : NodeId} {o : Origin V K} {target : Option Ref} :
      s.deref? l r = some i → s.nodes[i]? = some (.deferred o target) → i ∉ ns → o.definition? target = none →
      Depicts s l ns r .unknown ns

namespace Depicts

theorem grow (h : s.Depicts l ns r t ms) : ns <+: ms := by
  induction h with
  | success | element | name | unknown => exact List.prefix_rfl
  | disjunction _ _ _ _ iha ihb | sequence _ _ _ _ iha ihb => exact iha.trans ihb
  | transform _ _ _ ih => exact ih
  | definition _ _ _ _ _ ih => exact (List.prefix_append _ _).trans ih

theorem nodup (h : s.Depicts l ns r t ms) (hns : ns.Nodup) : ms.Nodup := by
  induction h with
  | success | element | name | unknown => exact hns
  | disjunction _ _ _ _ iha ihb | sequence _ _ _ _ iha ihb => exact ihb (iha hns)
  | transform _ _ _ ih => exact ih hns
  | definition _ _ hfresh _ _ ih => exact ih (List.nodup_append_comm.2 (List.nodup_cons.2 ⟨hfresh, hns⟩))

/-- Every term met is the picture of something. -/
theorem contains (h : s.Depicts l ns r t ms) (hu : t.Contains u) :
    ∃ ns' x ms', s.Depicts l ns' x u ms' ∧ ms' <+: ms := by
  induction hu with
  | refl => exact ⟨ns, r, ms, h, List.prefix_rfl⟩
  | tail _ hu ih =>
    obtain ⟨ns', x, ms', hx, hms⟩ := ih
    cases hx with
    | success | element | name | unknown => cases hu
    | disjunction _ _ ha hb | sequence _ _ ha hb =>
      rcases List.mem_pair.1 hu with rfl | rfl
      · exact ⟨_, _, _, ha, hb.grow.trans hms⟩
      · exact ⟨_, _, _, hb, hms⟩
    | transform _ _ ha | definition _ _ _ _ ha =>
      obtain rfl := List.mem_singleton.1 hu
      exact ⟨_, _, _, ha, hms⟩

/-- A node that has got a number has got its definition. -/
theorem contains_definition (h : s.Depicts l ns r t ms) (hlow : ns.length ≤ k) (hk : k < ms.length) :
    ∃ u, t.Contains (.definition (k + 1) u) := by
  have hpart : ∀ {t u v : Term V K}, u ∈ t.parts → u.Contains v → t.Contains v := fun hu hv => .head hu hv
  induction h with
  | success | element | name | unknown => exact absurd hk (Nat.not_lt.2 hlow)
  | @disjunction _ ms' _ _ _ _ _ _ _ _ _ ha hb iha ihb | @sequence _ ms' _ _ _ _ _ _ _ _ _ ha hb iha ihb =>
    rcases Nat.lt_or_ge k ms'.length with hlt | hge
    · exact (iha hlow hlt).imp fun _ => hpart List.mem_cons_self
    · exact (ihb hge hk).imp fun _ => hpart (List.mem_pair.2 (.inr rfl))
  | transform _ _ _ ih => exact (ih hlow hk).imp fun _ => hpart (List.mem_singleton_self _)
  | @definition ns _ _ _ _ _ _ t _ _ _ _ _ ih =>
    rcases Nat.lt_or_eq_of_le hlow with hlt | rfl
    · exact (ih (by simpa using Nat.succ_le_of_lt hlt) hk).imp fun _ => hpart (List.mem_singleton_self _)
    · exact ⟨t, .refl⟩

/-- Only nodes that have got their definition are named. -/
theorem closed (h : s.Depicts l [] r t ms) : t.Closed := by
  intro k hk
  obtain ⟨ns', x, ms', hname, hms⟩ := h.contains hk
  cases hname with
  | name _ _ hget =>
    have hlt := (List.getElem?_eq_some_iff.1 hget).1
    exact h.contains_definition (Nat.zero_le _) (hlt.trans_le hms.length_le)

/-- The text gives numbers to the nodes that are met in it. -/
theorem numbered [Shown V] [Shown K] (h : s.Depicts l ns r t ms) : Numbered ns.length t.pieces ms.length := by
  induction h with
  | success | element | unknown => exact .plain .nil
  | disjunction _ _ _ _ iha ihb | sequence _ _ _ _ iha ihb =>
    exact .plain (iha.append (.plain (ihb.append (.plain .nil))))
  | transform _ _ _ ih => exact .plain (ih.append (.plain .nil))
  | name _ _ hget => exact .name (List.getElem?_eq_some_iff.1 hget).1 .nil
  | definition _ _ _ _ _ ih => exact .binder (by simpa using ih)

/-- The picture of a complete grammar denotes it. -/
theorem denotes (h : s.Depicts l ns r t ms) (hi : s.nodeOf? r = some i) (hc : Complete s.productions i)
    (hms : ms <+: order) : t.Denotes s.productions order i := by
  induction h generalizing i with
  | success hr hshape =>
    cases hi.symm.trans (nodeOf?_of_deref? hr)
    exact .success (by simp [productions, hshape])
  | element hr hshape =>
    cases hi.symm.trans (nodeOf?_of_deref? hr)
    exact .element (by simp [productions, hshape])
  | disjunction hr hshape ha hb iha ihb =>
    cases hi.symm.trans (nodeOf?_of_deref? hr)
    obtain ⟨x, y, hx, hy⟩ := exists_nodes_disjunction hshape (hc _ .refl)
    have hp := production_disjunction hshape hx hy
    exact .disjunction hp (iha hx (hc.part hp (by simp [Production.parts])) (hb.grow.trans hms))
      (ihb hy (hc.part hp (by simp [Production.parts])) hms)
  | sequence hr hshape ha hb iha ihb =>
    cases hi.symm.trans (nodeOf?_of_deref? hr)
    obtain ⟨x, y, hx, hy⟩ := exists_nodes_sequence hshape (hc _ .refl)
    have hp := production_sequence hshape hx hy
    exact .sequence hp (iha hx (hc.part hp (by simp [Production.parts])) (hb.grow.trans hms))
      (ihb hy (hc.part hp (by simp [Production.parts])) hms)
  | transform hr hshape ha ih =>
    cases hi.symm.trans (nodeOf?_of_deref? hr)
    obtain ⟨x, hx, hp⟩ := exists_node_transform hshape (hc _ .refl)
    exact .transform hp (ih hx (hc.part hp (by simp [Production.parts])) hms)
  | name hr hshape hget =>
    cases hi.symm.trans (nodeOf?_of_deref? hr)
    obtain ⟨a, x, -, -, hp⟩ := exists_node_deferred hshape (hc _ .refl)
    have hget := getElem?_of_prefix hms hget
    exact .name hp hget
  | definition hr hshape _ hbody ha ih =>
    cases hi.symm.trans (nodeOf?_of_deref? hr)
    obtain ⟨a, x, rfl, hx, hp⟩ := exists_node_deferred hshape (hc _ .refl)
    cases hbody
    have hget := getElem?_of_prefix (ha.grow.trans hms) List.getElem?_concat_length
    exact .definition hp hget (ih hx (hc.part hp (by simp [Production.parts])) hms)
  | unknown hr hshape _ hnone =>
    cases hi.symm.trans (nodeOf?_of_deref? hr)
    obtain ⟨a, x, rfl, -⟩ := exists_node_deferred hshape (hc _ .refl)
    cases hnone

end Depicts
end Terms

end Store

/-- The names are the numbers of the nodes `ns`, which go by their order, from one. -/
structure Rendering.Numbers (w : Rendering) (ns : List NodeId) : Prop where
  size : w.names.size = ns.length
  get : ∀ i k, w.names[i]? = some k ↔ ∃ j, k = j + 1 ∧ ns[j]? = some i

namespace Rendering.Numbers

variable {w : Rendering} {ns : List NodeId} {i x : NodeId} {j : Nat}

theorem empty : ({} : Rendering).Numbers [] := ⟨rfl, by simp⟩

theorem write (h : w.Numbers ns) (s : String) : (w.write s).Numbers ns := ⟨h.size, h.get⟩

theorem not_mem (h : w.Numbers ns) (hi : w.names[i]? = none) : i ∉ ns := by
  intro hmem
  obtain ⟨j, hj⟩ := List.mem_iff_getElem?.1 hmem
  have hnamed := (h.get i (j + 1)).2 ⟨j, rfl, hj⟩
  cases hi.symm.trans hnamed

theorem getElem?_concat_iff : (ns ++ [i])[j]? = some x ↔ ns[j]? = some x ∨ j = ns.length ∧ i = x := by
  rw [List.getElem?_append]
  split
  · rename_i h
    simp [Nat.ne_of_lt h]
  · rename_i h
    rw [List.getElem?_singleton, List.getElem?_eq_none (Nat.le_of_not_lt h)]
    simp
    omega

/-- The node that is met next gets the next number. -/
theorem introduce (h : w.Numbers ns) (hi : w.names[i]? = none) : (w.introduce i).Numbers (ns ++ [i]) := by
  refine ⟨?_, fun x k => ?_⟩
  · rw [Rendering.introduce, Std.TreeMap.size_insert, List.length_append, ← h.size]
    simp [Std.TreeMap.contains_eq_isSome_getElem?, hi]
  · rw [Rendering.introduce, Std.TreeMap.getElem?_insert]
    simp only [getElem?_concat_iff]
    by_cases hx : i = x
    · subst hx
      have hnone : ∀ j, ns[j]? ≠ some i := fun j hj => h.not_mem hi (List.mem_of_getElem? hj)
      simp [hnone, h.size, eq_comm]
    · simp [hx, h.get]

end Rendering.Numbers

namespace Store

section Text

variable [Ord K] [Shown V] [Shown K] {s : Store V K} {l : Liveness} {ns : List NodeId} {r : Ref} {n : Nat}
  {w w' : Rendering}

/-- What is written within `n` levels is the text of a picture, and the names stay those of the nodes that have been met. -/
def Pictures (s : Store V K) (l : Liveness) (n : Nat) : Prop :=
  ∀ ⦃r w w' ns⦄, s.renderFrom l n r w = .ok w' → w.Numbers ns →
    ∃ t ms, s.Depicts l ns r t ms ∧ w'.Numbers ms ∧ w'.text = w.text ++ t.text

theorem Pictures.pair (ih : s.Pictures l n) (hw : w.Numbers ns) (a b : Ref) (sign : String)
    (h : ((s.renderFrom l n a (w.write "(")).bind fun w =>
      (s.renderFrom l n b (w.write sign)).map (·.write ")")) = .ok w') :
    ∃ t ms u ks, s.Depicts l ns a t ms ∧ s.Depicts l ms b u ks ∧ w'.Numbers ks ∧
      w'.text = w.text ++ ("(" ++ t.text ++ sign ++ u.text ++ ")") := by
  obtain ⟨w₁, h₁, h⟩ := exists_of_bind h
  obtain ⟨w₂, h₂, rfl⟩ := exists_of_map h
  obtain ⟨t, ms, ht, hms, htext⟩ := ih h₁ (hw.write "(")
  obtain ⟨u, ks, hu, hks, htext'⟩ := ih h₂ (hms.write sign)
  refine ⟨t, ms, u, ks, ht, hu, hks.write ")", ?_⟩
  simp only [Rendering.write] at htext htext' ⊢
  simp only [htext', htext, String.append_assoc]

theorem pictures (n : Nat) : s.Pictures l n := by
  intro r w w' ns h hw
  induction n generalizing r w w' ns with
  | zero => cases h
  | succ n ih =>
    have hpictures : s.Pictures l n := ih
    cases hr : s.deref? l r with
    | none => simp [renderFrom, hr] at h
    | some i =>
      cases hshape : s.nodes[i]? with
      | none => simp [renderFrom, hr, hshape] at h
      | some shape =>
        simp only [renderFrom, hr, hshape] at h
        cases shape with
        | success v =>
          cases h
          exact ⟨_, ns, .success hr hshape, hw.write _, by rw [Term.text_success]; rfl⟩
        | element k =>
          cases h
          exact ⟨_, ns, .element hr hshape, hw.write _, by rw [Term.text_element]; rfl⟩
        | disjunction a b =>
          obtain ⟨t, ms, u, ks, ht, hu, hks, htext⟩ := hpictures.pair hw a b " | " h
          exact ⟨_, ks, .disjunction hr hshape ht hu, hks, by rw [Term.text_disjunction, htext]⟩
        | sequence a b =>
          obtain ⟨t, ms, u, ks, ht, hu, hks, htext⟩ := hpictures.pair hw a b " ~ " h
          exact ⟨_, ks, .sequence hr hshape ht hu, hks, by rw [Term.text_sequence, htext]⟩
        | transform f a =>
          obtain ⟨w₁, h₁, rfl⟩ := exists_of_map h
          obtain ⟨t, ms, ht, hms, htext⟩ := ih h₁ (hw.write "map(")
          refine ⟨_, ms, .transform hr hshape ht, hms.write ")", ?_⟩
          simp only [Rendering.write] at htext ⊢
          simp only [Term.text_transform, htext, String.append_assoc]
        | deferred o target =>
          cases hname : w.names[i]? with
          | some k =>
            simp only [hname] at h
            cases h
            obtain ⟨j, rfl, hj⟩ := (hw.get i k).1 hname
            exact ⟨_, ns, .name hr hshape hj, hw.write _, by rw [Term.text_name]; rfl⟩
          | none =>
            simp only [hname] at h
            cases hbody : o.definition? target with
            | none =>
              simp only [hbody] at h
              cases h
              exact ⟨_, ns, .unknown hr hshape (hw.not_mem hname) hbody, hw.write _, by rw [Term.text_unknown]; rfl⟩
            | some body =>
              simp only [hbody] at h
              obtain ⟨t, ms, ht, hms, htext⟩ := ih h (hw.introduce hname)
              refine ⟨_, ms, .definition hr hshape (hw.not_mem hname) hbody ht, hms, ?_⟩
              rw [Term.text_definition, htext, Rendering.introduce, hw.size]
              simp only [String.append_assoc]

end Text

end Store

open Store

section Faithfulness

variable [Ord K] [Shown V] [Shown K] {s t : Store V K} {r : Ref} {held : List Ref} {text : String}

/-- A grammar that is written is depicted by a term with that text. -/
theorem exists_depicts_of_render (h : render held r s = .ok text t) :
    ∃ (u : Term V K) (order : List NodeId), u.text = text ∧ s.Depicts (s.liveness (r :: held)) [] r u order := by
  obtain ⟨w, hw, rfl⟩ := exists_of_map (render_eq_ok_iff.1 h).1
  obtain ⟨u, order, hu, -, htext⟩ := pictures _ hw .empty
  exact ⟨u, order, by rw [htext]; simp, hu⟩

/-- Realized grammars that are written alike unfold alike, if no chain of targets below them is endless. -/
def TellsUnfolding (V K : Type) [Ord K] [Shown V] [Shown K] : Prop :=
  ∀ {s s' t t' : Store V K} {r r' : Ref} {held held' : List Ref} {i i' : Nat} {text : String},
    s.Realized r i → s'.Realized r' i' → (∀ j, Below s.productions i j → Ends s.productions j) →
    render held r s = .ok text t → render held' r' s' = .ok text t' → SameUnfolding s.productions i s'.productions i'

/-- Texts tell what grammars unfold to if kinds and values can be read off them. -/
theorem tellsUnfolding_of_legible (hV : Legible V) (hK : Legible K) : TellsUnfolding V K := by
  intro s s' t t' r r' held held' i i' text hi hi' hends h h'
  obtain ⟨u, order, rfl, hu⟩ := exists_depicts_of_render h
  obtain ⟨u', order', htext, hu'⟩ := exists_depicts_of_render h'
  obtain rfl := Term.text_injective hV hK htext
  exact sameUnfolding_of_denotes hu.closed (hu.denotes hi.1 hi.2 List.prefix_rfl)
    (hu'.denotes hi'.1 hi'.2 List.prefix_rfl) hi.2 hends

end Faithfulness

/-- A grammar is written if none of its self-references is dead. What is written numbers the deferred nodes in the order
in which they are met, and names only those that have been numbered before, once. If kinds and values are written as
literals, what is written tells what the grammar unfolds to. -/
theorem render_tells_unfolding :
    (∀ {V K : Type} [Value V] [Kind K] {s : Store V K} {r : Ref} {held : List Ref}, Reached s → s.HasRef r →
      (∀ x, s.Involves r x → (s.deref? (s.liveness (r :: held)) x).isSome) → ∃ text, render held r s = .ok text s) ∧
    (∀ {V K : Type} [Value V] [Kind K] {s t : Store V K} {r : Ref} {held : List Ref} {text : String},
      render held r s = .ok text t → ∃ (u : Term V K) (order : List NodeId), u.text = text ∧
        s.Depicts (s.liveness (r :: held)) [] r u order ∧ order.Nodup ∧
        u.pieces.filterMap Piece.binder? = List.range' 1 order.length ∧
        ∀ before n after, u.pieces = before ++ .name n :: after → before.count (.binder n) = 1) ∧
    TellsUnfolding String Char ∧ TellsUnfolding String String := by
  refine ⟨fun {V K} _ _ {s r held} h hr halive => ?_, fun {V K} _ _ {s t r held text} h => ?_,
    tellsUnfolding_of_legible legible_string legible_char, tellsUnfolding_of_legible legible_string legible_string⟩
  · obtain ⟨text, htext⟩ := exists_render h.sane.1 (writable_involves h.sane.1 hr halive) .root
    exact ⟨text, render_eq_ok_iff.2 ⟨htext, rfl⟩⟩
  · obtain ⟨u, order, htext, hu⟩ := exists_depicts_of_render h
    obtain ⟨-, hbinders⟩ := hu.numbered.binders_eq
    refine ⟨u, order, htext, hu, hu.nodup List.nodup_nil, hbinders, fun before n after heq => ?_⟩
    have hnumbered := hu.numbered
    rw [heq] at hnumbered
    exact hnumbered.count_binder

section Marks

variable [Value V] [Kind K] {e : Expr V K} {j : NodeId}

/-- What is left when the expression is evaluated and then the node realized. -/
def realizedStore (e : Expr V K) (j : NodeId) : Store V K :=
  (Call.realize [] (.node j)).after ((Call.evaluate [] {} e).after {})

/-- Whether both end well, and nothing dead is met in writing any node afterwards. -/
def endsWell (e : Expr V K) (j : NodeId) : Bool :=
  match (Call.evaluate [] {} e).run {} with
  | .ok _ s =>
    match (Call.realize [] (.node j)).run s with
    | .ok _ t =>
      decide (j < s.nodes.size) && t.nodes.toList.all fun shape =>
        shape.written.all fun x => (t.deref? (t.liveness [.node j]) x).isSome
    | .error _ _ => false
  | .error _ _ => false

theorem endsWell_spec (h : endsWell e j = true) :
    Untroubled (realizedStore e j) ∧ (realizedStore e j).Realized (.node j) j ∧ (realizedStore e j).HasRef (.node j) ∧
      ∀ x, (realizedStore e j).Involves (.node j) x →
        ((realizedStore e j).deref? ((realizedStore e j).liveness [.node j]) x).isSome := by
  unfold endsWell at h
  split at h
  · rename_i u s hs
    split at h
    · rename_i u' t ht
      obtain ⟨hlt, halive⟩ := Bool.and_eq_true_iff.1 h
      have hlt : j < s.nodes.size := of_decide_eq_true hlt
      have hj : s.HasRef (.node j) := hlt
      have hs' : (Call.evaluate [] {} e).after {} = s := by rw [Call.after, hs]
      have ht' : realizedStore e j = t := by rw [realizedStore, hs', Call.after, ht]
      have huntroubled : Untroubled s := by
        rw [← hs']
        refine .call _ .empty (by simp [Call.refs, Scope.refs]) fun e' s' he => ?_
        cases hs.symm.trans he
      obtain ⟨hevolves, i, hi⟩ := (realize_evolves huntroubled.reached.sane.1 [] hj).of_ok ht
      obtain rfl := Option.some.inj hi.1
      rw [ht']
      refine ⟨?_, hi, hj.of_le hevolves.size_le, fun x hx => ?_⟩
      · rw [← ht', realizedStore, hs']
        refine .call _ huntroubled (by simpa [Call.refs] using hj) fun e' s' he => ?_
        cases ht.symm.trans he
      · cases hx with
        | root => rfl
        | part _ _ hshape hy =>
          have hmem := List.mem_of_getElem? ((Array.getElem?_toList ..).trans hshape)
          exact List.all_eq_true.1 (List.all_eq_true.1 halive _ hmem) x hy
    · cases h
  · cases h

/-- Two lists of marks, the second of which is the first one again. -/
def tiedMarks : Expr String Char :=
  .sequence (.save "x" (.many (.transform .upper (.element 'a')) "")) (.name "x")

/-- The same with a definition that refers to itself by a name, and other transformations. -/
def namedMarks : Expr String Char :=
  .sequence (.save "x" (.deferred (.disjunction (.sequence (.transform .reverse (.element 'a')) (.name "x"))
    (.success "")))) (.name "x")

/-- The text of both. -/
def marksText : String := "(fix r1. ((map('a') ~ r1) | success(\"\")) ~ r1)"

/-- Both are written alike, the number of the one definition being used outside of its body; so they unfold alike. -/
theorem render_tells_marks :
    render [] (.node 6) (realizedStore tiedMarks 6) = .ok marksText (realizedStore tiedMarks 6) ∧
    render [] (.node 1) (realizedStore namedMarks 1) = .ok marksText (realizedStore namedMarks 1) ∧
    (∃ (u : Term String Char) (order : List NodeId), u.text = marksText ∧ order.Nodup ∧
      u.pieces.filterMap Piece.binder? = List.range' 1 order.length) ∧
    SameUnfolding (realizedStore tiedMarks 6).productions 6 (realizedStore namedMarks 1).productions 1 := by
  obtain ⟨hends, hnumbers, htells, -⟩ := render_tells_unfolding
  obtain ⟨htied, hi, hr, halive⟩ := endsWell_spec (e := tiedMarks) (j := 6) (by decide +kernel)
  obtain ⟨hnamed, hi', hr', halive'⟩ := endsWell_spec (e := namedMarks) (j := 1) (by decide +kernel)
  obtain ⟨text, htext⟩ := hends htied.reached hr halive
  obtain ⟨text', htext'⟩ := hends hnamed.reached hr' halive'
  have htied' : (realizedStore tiedMarks 6).render ((realizedStore tiedMarks 6).liveness [.node 6]) (.node 6) =
      .ok marksText := by decide +kernel
  have hnamed' : (realizedStore namedMarks 1).render ((realizedStore namedMarks 1).liveness [.node 1]) (.node 1) =
      .ok marksText := by decide +kernel
  obtain rfl := Except.ok.inj ((render_eq_ok_iff.1 htext).1.symm.trans htied')
  obtain rfl := Except.ok.inj ((render_eq_ok_iff.1 htext').1.symm.trans hnamed')
  obtain ⟨u, order, hu, -, hnodup, hbinders, -⟩ := hnumbers htext
  exact ⟨htext, htext', ⟨u, order, hu, hnodup, hbinders⟩,
    htells hi hi' (fun n _ => htied.guarded.ends n) htext htext'⟩

end Marks

end Predictive.Grammar
