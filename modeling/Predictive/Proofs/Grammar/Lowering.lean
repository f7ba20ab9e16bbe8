import Predictive.Grammar.Validate
import Predictive.Proofs.Grammar.Reading

/-!
The table for a grammar. Each slot is given to one node that is not deferred, its form says of the slots of the parts
what the production says of the parts, and its facts are those of the node.
-/
namespace Predictive

open Grammar

variable {V K : Type}

/-- The form says of slots what the production says of nodes; `node` has the nodes by slot, and a deferred part
gets the slot of the node that it stands for. -/
inductive Lowers (G : Productions V K) (node : Slot → Option Nat) : Production V K → Form V K → Prop
  | success {v} : Lowers G node (.success v) (.success v)
  | element {k} : Lowers G node (.element k) (.element k)
  | disjunction {l r i j a b} : Stands G l i → node a = some i → Stands G r j → node b = some j →
      Lowers G node (.disjunction l r) (.disjunction a b)
  | sequence {l r i j a b} : Stands G l i → node a = some i → Stands G r j → node b = some j →
      Lowers G node (.sequence l r) (.sequence a b)
  | transform {f l i a} : Stands G l i → node a = some i → Lowers G node (.transform f l) (.transform f a)

theorem Lowers.mono {G : Productions V K} {node node' : Slot → Option Nat} {p : Production V K} {form : Form V K}
    (h : Lowers G node p form) (hn : ∀ k i, node k = some i → node' k = some i) : Lowers G node' p form := by
  cases h with
  | success => exact .success
  | element => exact .element
  | disjunction hl ha hr hb => exact .disjunction hl (hn _ _ ha) hr (hn _ _ hb)
  | sequence hl ha hr hb => exact .sequence hl (hn _ _ ha) hr (hn _ _ hb)
  | transform hl ha => exact .transform hl (hn _ _ ha)

/-- What the entry says of a fact. Of conflicts it says nothing. -/
def Entry.fact? [Ord K] (e : Entry V K) : (f : FactName) → Option (f.Carrier V K)
  | .first => some e.first
  | .emptyValue => some e.emptyValue
  | .productive => some e.productive
  | .restrictions => some e.restrictions
  | .conflicts => none

namespace Grammar

variable {l : Store.Liveness} {i j i₀ : Nat} {r r₀ : Ref} {w w' : Layout} {k : Slot}

namespace Store

section Resolution

variable [Ord K] {s : Store V K}

theorem mem_parts_iff {p : Production V K} (hp : s.productions j = some p) :
    i ∈ p.parts ↔ ∃ r ∈ s.below j, s.nodeOf? r = some i := by
  simp only [productions] at hp
  simp only [below]
  cases hn : s.nodes[j]? with
  | none => simp [hn] at hp
  | some shape =>
    simp only [hn] at hp
    cases shape with
    | success v | element k =>
      cases hp
      simp [Production.parts]
    | disjunction a b | sequence a b =>
      simp only [Option.bind_eq_some_iff, Option.map_eq_some_iff] at hp
      obtain ⟨x, hx, y, hy, rfl⟩ := hp
      simp [Production.parts, hx, hy, eq_comm]
    | transform f a =>
      simp only [Option.map_eq_some_iff] at hp
      obtain ⟨x, hx, rfl⟩ := hp
      simp [Production.parts, hx, eq_comm]
    | deferred o target =>
      cases target with
      | none => cases hp
      | some t =>
        simp only [Option.map_eq_some_iff] at hp
        obtain ⟨x, hx, rfl⟩ := hp
        simp [Production.parts, hx, eq_comm]

/-- What a node refers to is below it. -/
theorem below_of_ref (hc : Complete s.productions i₀) (hb : Below s.productions i₀ j) (hr : r ∈ s.below j)
    (hi : s.nodeOf? r = some i) : Below s.productions i₀ i := by
  obtain ⟨p, hp⟩ := Option.isSome_iff_exists.1 (hc j hb)
  exact hb.trans (Below.part hp ((mem_parts_iff hp).2 ⟨r, hr, hi⟩))

theorem target?_of_deferred {o : Origin V K} {x : Option Ref} (hn : s.nodes[i]? = some (Shape.deferred o x)) :
    s.target? i = x := by
  simp only [target?, hn]

theorem target?_eq_some_iff {t : Ref} :
    s.target? i = some t ↔ ∃ o, s.nodes[i]? = some (Shape.deferred o (some t)) := by
  constructor
  · intro ht
    simp only [target?] at ht
    split at ht
    · rename_i o target hn
      exact ⟨o, ht ▸ hn⟩
    · cases ht
  · rintro ⟨o, hn⟩
    exact target?_of_deferred hn

theorem defers_of_target {t : Ref} (ht : s.target? i = some t) (hj : s.nodeOf? t = some j) :
    Defers s.productions i j := by
  obtain ⟨o, hn⟩ := target?_eq_some_iff.1 ht
  simp [Defers, productions, hn, hj]

theorem not_defers_of_target (ht : s.target? i = none) : ¬Defers s.productions i j := by
  intro h
  simp only [Defers, productions] at h
  simp only [target?] at ht
  cases hn : s.nodes[i]? with
  | none => simp [hn] at h
  | some shape =>
    simp only [hn] at h ht
    cases shape with
    | success v | element k => cases h
    | disjunction a b | sequence a b => simp [Option.bind_eq_some_iff] at h
    | transform f a => simp at h
    | deferred o target =>
      obtain rfl : target = none := ht
      cases h

theorem below_of_target {t : Ref} (ht : s.target? i = some t) : s.below i = [t] := by
  obtain ⟨o, hn⟩ := target?_eq_some_iff.1 ht
  simp [below, hn]

/-- The chain of targets from `i` ends at `j`, and is alive. -/
inductive Follows (s : Store V K) (l : Liveness) : NodeId → NodeId → Prop
  | stop {j : Nat} : s.target? j = none → Follows s l j j
  | step {i n j : Nat} {t : Ref} : s.target? i = some t → s.deref? l t = some n → Follows s l n j → Follows s l i j

theorem Follows.stands (h : s.Follows l i j) : Stands s.productions i j := by
  induction h with
  | stop => exact .refl
  | step ht hn _ ih => exact .head (defers_of_target ht (nodeOf?_of_deref? hn)) ih

theorem Follows.target? (h : s.Follows l i j) : s.target? j = none := by
  induction h with
  | stop ht => exact ht
  | step _ _ _ ih => exact ih

theorem resolveFrom_succ {t : Ref} {fuel : Nat} {chain : Std.TreeSet Nat} (ht : s.target? i = some t) :
    s.resolveFrom l (fuel + 1) chain i =
      match s.deref? l t with
      | none => .error .deadReference
      | some j => if i ∈ chain then .error (.unguarded i) else s.resolveFrom l fuel (chain.insert i) j := by
  rw [resolveFrom.eq_def]
  dsimp only
  split
  · rename_i hnone
    cases ht.symm.trans hnone
  · rename_i hzero
    cases hzero
  · rename_i hsome hsucc
    cases ht.symm.trans hsome
    cases hsucc
    rfl

theorem resolveFrom_ok {fuel : Nat} {chain : Std.TreeSet Nat} (h : s.resolveFrom l fuel chain i = .ok j) :
    s.Follows l i j := by
  induction fuel generalizing i chain with
  | zero =>
    cases ht : s.target? i with
    | none =>
      simp only [resolveFrom, ht, Except.ok.injEq] at h
      subst h
      exact .stop ht
    | some t => simp [resolveFrom, ht] at h
  | succ fuel ih =>
    cases ht : s.target? i with
    | none =>
      simp only [resolveFrom, ht, Except.ok.injEq] at h
      subst h
      exact .stop ht
    | some t =>
      rw [resolveFrom_succ ht] at h
      split at h
      · cases h
      · rename_i j' hj'
        split at h
        · cases h
        · exact .step ht hj' (ih h)

/-- A chain of targets without an end has a dead self-reference in it, or comes into a circle. -/
theorem resolveFrom_fault {fuel : Nat} {chain : Std.TreeSet Nat} (seen : List Nat) {e : Fault}
    (h : s.resolveFrom l fuel chain i = .error e) (hfuel : s.nodes.size < fuel + seen.length) (hnd : seen.Nodup)
    (hchain : ∀ x, x ∈ chain ↔ x ∈ seen)
    (hseen : ∀ x ∈ seen, x < s.nodes.size ∧ Relation.TransGen (Defers s.productions) x i) :
    (∃ j, e = .unguarded j ∧ Stands s.productions i j ∧ Relation.TransGen (Defers s.productions) j j) ∨
      e = .deadReference ∧ ∃ j t, Stands s.productions i j ∧ s.target? j = some t ∧ s.deref? l t = none := by
  induction fuel generalizing i chain seen with
  | zero =>
    have hle := hnd.length_le_of_subset fun x hx => List.mem_range.2 (hseen x hx).1
    rw [List.length_range] at hle
    omega
  | succ fuel ih =>
    cases ht : s.target? i with
    | none => simp [resolveFrom, ht] at h
    | some t =>
      rw [resolveFrom_succ ht] at h
      split at h
      · cases h
        exact .inr ⟨rfl, i, t, .refl, ht, ‹_›⟩
      · rename_i j hj
        have hd := defers_of_target ht (nodeOf?_of_deref? hj)
        split at h
        · rename_i hi
          cases h
          exact .inl ⟨i, rfl, .refl, (hseen i ((hchain i).1 hi)).2⟩
        · rename_i hi
          rw [hchain] at hi
          have hrest := ih (i :: seen) h (by simp; omega) (List.nodup_cons.2 ⟨hi, hnd⟩) (fun x => ?_) ?_
          · rcases hrest with ⟨j', he, hs, hc⟩ | ⟨he, j', t', hs, ht', hdead⟩
            · exact .inl ⟨j', he, .head hd hs, hc⟩
            · exact .inr ⟨he, j', t', .head hd hs, ht', hdead⟩
          · rw [mem_insert_seen, List.mem_cons, hchain]
          · rintro x (_ | ⟨_, hx⟩)
            · exact ⟨lt_of_production hd, .single hd⟩
            · exact ⟨(hseen x hx).1, (hseen x hx).2.tail hd⟩

theorem resolve_fault {e : Fault} (h : s.resolve l i = .error e) :
    (∃ j, e = .unguarded j ∧ Stands s.productions i j ∧ Relation.TransGen (Defers s.productions) j j) ∨
      e = .deadReference ∧ ∃ j t, Stands s.productions i j ∧ s.target? j = some t ∧ s.deref? l t = none :=
  resolveFrom_fault [] h (by simp) List.nodup_nil (by simp) (by simp)

theorem resolve_error {e : Fault} (hr : s.nodeOf? r₀ = some i₀) (hb : Below s.productions i₀ i)
    (h : s.resolve l i = .error e) : s.Broken l r₀ := by
  rcases resolve_fault h with ⟨j, -, hs, hc⟩ | ⟨-, j, t, hs, ht, hdead⟩
  · exact .circular hr (hb.trans (below_of_stands hs)) hc
  · exact .dead hr (hb.trans (below_of_stands hs)) (below_of_target ht ▸ List.mem_singleton_self t) hdead

/-- The slots given out so far: each node has one slot, and is below `i₀` and not deferred. -/
structure Laid (s : Store V K) (i₀ : Nat) (w : Layout) : Prop where
  slots : ∀ (i : Nat) (k : Slot), w.slots[i]? = some k ↔ w.order[k]? = some i
  node : ∀ (k : Slot) (i : Nat), w.order[k]? = some i → Below s.productions i₀ i ∧ s.target? i = none

/-- The layout `w'` has the slots of `w` as they are. -/
def Prolongs (w w' : Layout) : Prop := ∀ (k : Slot) (i : Nat), w.order[k]? = some i → w'.order[k]? = some i

theorem Prolongs.refl (w : Layout) : Prolongs w w := fun _ _ h => h

theorem Prolongs.trans {w'' : Layout} (h : Prolongs w w') (h' : Prolongs w' w'') : Prolongs w w'' :=
  fun k i hk => h' k i (h k i hk)

theorem laid_empty (s : Store V K) (i₀ : Nat) : s.Laid i₀ {} where
  slots i k := by simp
  node k i h := by simp at h

theorem Laid.slot (h : s.Laid i₀ w) (hb : Below s.productions i₀ i) (ht : s.target? i = none) :
    s.Laid i₀ (w.slot i).2 ∧ Prolongs w (w.slot i).2 ∧ (w.slot i).2.order[(w.slot i).1]? = some i := by
  cases hk : w.slots[i]? with
  | some k =>
    simp only [Layout.slot, hk]
    exact ⟨h, .refl w, (h.slots i k).1 hk⟩
  | none =>
    have hnew : ∀ k, w.order[k]? ≠ some i := fun k hi => by
      rw [← h.slots, hk] at hi
      cases hi
    simp only [Layout.slot, hk]
    refine ⟨⟨fun j k => ?_, fun k j hj => ?_⟩, fun k j hj => ?_, by simp⟩
    · rw [Std.TreeMap.getElem?_insert, Array.getElem?_push]
      by_cases hij : i = j
      · subst hij
        simp only [Std.LawfulEqOrd.compare_eq_iff_eq, if_true, Option.some.injEq]
        by_cases hkn : k = w.order.size
        · simp [hkn]
        · simp [hkn, hnew k, Ne.symm hkn]
      · simp only [Std.LawfulEqOrd.compare_eq_iff_eq, hij, if_false, h.slots]
        by_cases hkn : k = w.order.size
        · simp [hkn, hij]
        · simp [hkn]
    · rw [Array.getElem?_push] at hj
      split at hj
      · cases hj
        exact ⟨hb, ht⟩
      · exact h.node k j hj
    · have hlt : k < w.order.size := (Array.getElem?_eq_some_iff.1 hj).1
      rw [Array.getElem?_push, if_neg (Nat.ne_of_lt hlt)]
      exact hj

/-- The reference is alive, and so is the chain of targets that leads to the node with the slot `k`. -/
def Placed (s : Store V K) (l : Liveness) (w : Layout) (r : Ref) (k : Slot) : Prop :=
  ∃ i j, s.deref? l r = some i ∧ s.Follows l i j ∧ w.order[k]? = some j

theorem Placed.prolong (h : s.Placed l w r k) (hp : Prolongs w w') : s.Placed l w' r k := by
  obtain ⟨i, j, hi, hj, ho⟩ := h
  exact ⟨i, j, hi, hj, hp k j ho⟩

theorem Placed.exists_stands (h : s.Placed l w r k) :
    ∃ i j, s.nodeOf? r = some i ∧ Stands s.productions i j ∧ w.order[k]? = some j := by
  obtain ⟨i, j, hi, hj, ho⟩ := h
  exact ⟨i, j, nodeOf?_of_deref? hi, hj.stands, ho⟩

end Resolution

variable [Kind K] {s : Store V K}

/-- A part gets a slot: that of the node which it stands for. -/
theorem slot_ok (h : s.Laid i₀ w) (hb : ∀ i, s.nodeOf? r = some i → Below s.productions i₀ i)
    (hk : s.slot l r w = .ok (k, w')) : s.Laid i₀ w' ∧ Prolongs w w' ∧ s.Placed l w' r k := by
  rw [slot] at hk
  split at hk
  · cases hk
  · rename_i i hi
    have hi' := nodeOf?_of_deref? hi
    cases hres : s.resolve l i with
    | error e =>
      rw [hres] at hk
      cases hk
    | ok j =>
      rw [hres] at hk
      have hfollows := resolveFrom_ok hres
      have hkw : w.slot j = (k, w') := Except.ok.inj hk
      have hslot := h.slot ((hb i hi').trans (below_of_stands hfollows.stands)) hfollows.target?
      rw [hkw] at hslot
      obtain ⟨hl, hp, ho⟩ := hslot
      exact ⟨hl, hp, i, j, hi, hfollows, ho⟩

theorem slot_error {e : Fault} (hr₀ : s.nodeOf? r₀ = some i₀) (hc : Complete s.productions i₀)
    (hb : Below s.productions i₀ j) (hr : r ∈ s.below j) (h : s.slot l r w = .error e) : s.Broken l r₀ := by
  rw [slot] at h
  split at h
  · exact .dead hr₀ hb hr ‹_›
  · rename_i i hi
    cases hres : s.resolve l i with
    | ok j =>
      rw [hres] at h
      cases h
    | error e =>
      exact resolve_error hr₀ (below_of_ref hc hb hr (nodeOf?_of_deref? hi)) hres

/-- Two parts get their slots one after the other. -/
theorem slots_ok {a b : Ref} {both : Slot → Slot → Form V K} {form : Form V K} (h : s.Laid i₀ w)
    (ha : ∀ i, s.nodeOf? a = some i → Below s.productions i₀ i)
    (hb : ∀ i, s.nodeOf? b = some i → Below s.productions i₀ i)
    (hf : ((s.slot l a w).bind fun (ka, w) => (s.slot l b w).map fun (kb, w) => (both ka kb, w)) = .ok (form, w')) :
    s.Laid i₀ w' ∧ Prolongs w w' ∧ ∃ ka kb, form = both ka kb ∧ s.Placed l w' a ka ∧ s.Placed l w' b kb := by
  cases hsa : s.slot l a w with
  | error e => simp [hsa, Except.bind] at hf
  | ok x =>
    obtain ⟨ka, w₁⟩ := x
    cases hsb : s.slot l b w₁ with
    | error e => simp [hsa, hsb, Except.bind, Except.map] at hf
    | ok y =>
      obtain ⟨kb, w₂⟩ := y
      simp only [hsa, hsb, Except.bind, Except.map, Except.ok.injEq, Prod.mk.injEq] at hf
      obtain ⟨rfl, rfl⟩ := hf
      obtain ⟨h₁, hp₁, hpa⟩ := slot_ok h ha hsa
      obtain ⟨h₂, hp₂, hpb⟩ := slot_ok h₁ hb hsb
      exact ⟨h₂, hp₁.trans hp₂, ka, kb, rfl, hpa.prolong hp₂, hpb⟩

/-- A node that is not deferred gets a form that says what its production says, and its parts get slots. -/
theorem form_ok {form : Form V K} (hc : Complete s.productions i₀) (hb : Below s.productions i₀ i)
    (h : s.Laid i₀ w) (hf : s.form l i w = .ok (form, w')) : s.Laid i₀ w' ∧ Prolongs w w' ∧
      (∀ r ∈ s.below i, ∃ k, s.Placed l w' r k) ∧
      ∃ p, s.productions i = some p ∧ Lowers s.productions (w'.order[·]?) p form := by
  have hbelow : ∀ r ∈ s.below i, ∀ j, s.nodeOf? r = some j → Below s.productions i₀ j :=
    fun r hr j hj => below_of_ref hc hb hr hj
  rw [Store.form] at hf
  cases hn : s.nodes[i]? with
  | none => simp [hn] at hf
  | some shape =>
    simp only [below, hn] at hf hbelow ⊢
    simp only [productions, hn]
    cases shape with
    | success v =>
      cases hf
      exact ⟨h, .refl w, by simp, _, rfl, .success⟩
    | element k =>
      cases hf
      exact ⟨h, .refl w, by simp, _, rfl, .element⟩
    | deferred o target => cases hf
    | transform f a =>
      cases ha : s.slot l a w with
      | error e => simp [ha, Except.map] at hf
      | ok x =>
        obtain ⟨ka, w₁⟩ := x
        simp only [ha, Except.map, Except.ok.injEq, Prod.mk.injEq] at hf
        obtain ⟨rfl, rfl⟩ := hf
        obtain ⟨h₁, hp₁, ha⟩ := slot_ok h (hbelow a (by simp)) ha
        obtain ⟨x, i', hx, hs, ho⟩ := ha.exists_stands
        exact ⟨h₁, hp₁, by simpa using ⟨ka, ha⟩, _, by simp [hx], .transform hs ho⟩
    | disjunction a b =>
      obtain ⟨h', hp, ka, kb, rfl, ha, hb⟩ := slots_ok h (hbelow a (by simp)) (hbelow b (by simp)) hf
      obtain ⟨x, i', hx, hxs, hxo⟩ := ha.exists_stands
      obtain ⟨y, j', hy, hys, hyo⟩ := hb.exists_stands
      exact ⟨h', hp, by simpa using ⟨⟨ka, ha⟩, kb, hb⟩, _, by simp [hx, hy], .disjunction hxs hxo hys hyo⟩
    | sequence a b =>
      obtain ⟨h', hp, ka, kb, rfl, ha, hb⟩ := slots_ok h (hbelow a (by simp)) (hbelow b (by simp)) hf
      obtain ⟨x, i', hx, hxs, hxo⟩ := ha.exists_stands
      obtain ⟨y, j', hy, hys, hyo⟩ := hb.exists_stands
      exact ⟨h', hp, by simpa using ⟨⟨ka, ha⟩, kb, hb⟩, _, by simp [hx, hy], .sequence hxs hxo hys hyo⟩

/-- If a node below gets no form, the grammar is not whole. -/
theorem form_error {e : Fault} (hr₀ : s.nodeOf? r₀ = some i₀) (hc : Complete s.productions i₀)
    (hb : Below s.productions i₀ i) (ht : s.target? i = none) (hf : s.form l i w = .error e) : s.Broken l r₀ := by
  have hslot : ∀ r ∈ s.below i, ∀ w e, s.slot l r w = .error e → s.Broken l r₀ :=
    fun r hr w e he => slot_error hr₀ hc hb hr he
  have hsome := hc i hb
  rw [Store.form] at hf
  cases hn : s.nodes[i]? with
  | none => simp [productions, hn] at hsome
  | some shape =>
    simp only [below, hn] at hf hslot
    cases shape with
    | success v => cases hf
    | element k => cases hf
    | deferred o target =>
      obtain rfl : target = none := (target?_of_deferred hn).symm.trans ht
      simp [productions, hn] at hsome
    | transform f a =>
      cases ha : s.slot l a w with
      | error e => exact hslot a (by simp) w e ha
      | ok x => simp [ha, Except.map] at hf
    | disjunction a b | sequence a b =>
      cases ha : s.slot l a w with
      | error e => exact hslot a (by simp) w e ha
      | ok x =>
        cases hb : s.slot l b x.2 with
        | error e => exact hslot b (by simp) x.2 e hb
        | ok y => simp [ha, hb, Except.bind, Except.map] at hf

/-- No node has two slots, so there are no more slots than nodes. -/
theorem Laid.size_le (h : s.Laid i₀ w) (hc : Complete s.productions i₀) : w.order.size ≤ s.nodes.size := by
  have hnd : w.order.toList.Nodup := by
    refine List.nodup_iff_getElem?_ne_getElem?.2 fun a b hab hb heq => ?_
    rw [Array.getElem?_toList, Array.getElem?_toList] at heq
    rw [Array.length_toList] at hb
    have hi := (h.slots _ b).2 (Array.getElem?_eq_getElem hb)
    have hi' := (h.slots _ a).2 (heq.trans (Array.getElem?_eq_getElem hb))
    exact Nat.ne_of_lt hab (Option.some.inj (hi.symm.trans hi')).symm
  have hsub : w.order.toList ⊆ List.range s.nodes.size := by
    intro i hi
    obtain ⟨k, hk⟩ := List.getElem?_of_mem hi
    rw [Array.getElem?_toList] at hk
    obtain ⟨p, hp⟩ := Option.isSome_iff_exists.1 (hc i (h.node k i hk).1)
    exact List.mem_range.2 (lt_of_production hp)
  simpa using hnd.length_le_of_subset hsub

section

variable {n : Nat}

theorem layOutFrom_none (ho : w.order[k]? = none) : s.layOutFrom l n k w = ([], .ok ()) := by
  rw [layOutFrom.eq_def]
  simp only [ho]

theorem layOutFrom_succ (ho : w.order[k]? = some i) : s.layOutFrom l (n + 1) k w =
    match s.form l i w with
    | .error e => ([], .error e)
    | .ok (form, w) => (s.layOutFrom l n (k + 1) w).map ((i, form) :: ·) id := by
  rw [layOutFrom.eq_def]
  dsimp only
  split
  · rename_i hnone
    cases ho.symm.trans hnone
  · rename_i hzero
    cases hzero
  · rename_i hsome hsucc
    cases ho.symm.trans hsome
    cases hsucc
    rfl

/-- The forms are of nodes below `i₀`. If there is one for each slot, they come in the order of the slots and say what
the productions say; if not, the grammar is not whole. -/
theorem layOutFrom_spec (hr₀ : s.nodeOf? r₀ = some i₀) (hc : Complete s.productions i₀) (h : s.Laid i₀ w)
    (hn : s.nodes.size ≤ n + k) :
    (∀ x ∈ (s.layOutFrom l n k w).1, Below s.productions i₀ x.1) ∧
    ((s.layOutFrom l n k w).2 = .ok () → ∃ w', s.Laid i₀ w' ∧ Prolongs w w' ∧
      (s.layOutFrom l n k w).1.map Prod.fst = w'.order.toList.drop k ∧
      ∀ x ∈ (s.layOutFrom l n k w).1, (∀ r ∈ s.below x.1, ∃ k, s.Placed l w' r k) ∧
        ∃ p, s.productions x.1 = some p ∧ Lowers s.productions (w'.order[·]?) p x.2) ∧
    ∀ e, (s.layOutFrom l n k w).2 = .error e → s.Broken l r₀ := by
  induction n generalizing k w with
  | zero =>
    have hsize := h.size_le hc
    have ho : w.order[k]? = none := Array.getElem?_eq_none (by omega)
    rw [layOutFrom_none ho]
    refine ⟨by simp, fun _ => ⟨w, h, .refl w, ?_, by simp⟩, by simp⟩
    rw [List.drop_eq_nil_of_le (by simpa using ho), List.map_nil]
  | succ n ih =>
    cases ho : w.order[k]? with
    | none =>
      rw [layOutFrom_none ho]
      refine ⟨by simp, fun _ => ⟨w, h, .refl w, ?_, by simp⟩, by simp⟩
      rw [List.drop_eq_nil_of_le (by simpa using ho), List.map_nil]
    | some i =>
      obtain ⟨hb, ht⟩ := h.node k i ho
      rw [layOutFrom_succ ho]
      cases hf : s.form l i w with
      | error e => exact ⟨by simp, by simp, fun _ _ => form_error hr₀ hc hb ht hf⟩
      | ok x =>
        obtain ⟨form, w₁⟩ := x
        obtain ⟨h₁, hp₁, hplaced, p, hp, hlow⟩ := form_ok hc hb h hf
        obtain ⟨hbelow, hok, herr⟩ := ih (k := k + 1) h₁ (by omega)
        refine ⟨?_, fun he => ?_, herr⟩
        · rintro x (_ | ⟨_, hx⟩)
          · exact hb
          · exact hbelow x hx
        · obtain ⟨w', h', hp', hfst, hforms⟩ := hok he
          refine ⟨w', h', hp₁.trans hp', ?_, ?_⟩
          · have hk := hp' k i (hp₁ k i ho)
            rw [← Array.getElem?_toList] at hk
            obtain ⟨hlt, hi⟩ := List.getElem?_eq_some_iff.1 hk
            rw [List.drop_eq_getElem_cons hlt, hi, ← hfst]
            rfl
          · rintro x (_ | ⟨_, hx⟩)
            · refine ⟨fun r hr => ?_, p, hp, hlow.mono hp'⟩
              obtain ⟨k', hk'⟩ := hplaced r hr
              exact ⟨k', hk'.prolong hp'⟩
            · exact hforms x hx

end

/-- What comes of laying out a grammar. -/
theorem layOut_ok {root : Slot} {fs : List (NodeId × Form V K)} {outcome : Except Fault Unit}
    (hr₀ : s.nodeOf? r₀ = some i₀) (hc : Complete s.productions i₀)
    (h : s.layOut l r₀ = .ok (root, fs, outcome)) :
    (∀ x ∈ fs, Below s.productions i₀ x.1) ∧
    (outcome = .ok () → ∃ w, s.Laid i₀ w ∧ s.Placed l w r₀ root ∧ fs.map Prod.fst = w.order.toList ∧
      ∀ x ∈ fs, (∀ r ∈ s.below x.1, ∃ k, s.Placed l w r k) ∧
        ∃ p, s.productions x.1 = some p ∧ Lowers s.productions (w.order[·]?) p x.2) ∧
    ∀ e, outcome = .error e → s.Broken l r₀ := by
  cases hslot : s.slot l r₀ {} with
  | error e => simp [layOut, hslot, Except.map] at h
  | ok x =>
    obtain ⟨k, w⟩ := x
    simp only [layOut, hslot, Except.map, Except.ok.injEq, Prod.mk.injEq] at h
    obtain ⟨rfl, hforms⟩ := h
    obtain ⟨hl, -, hroot⟩ := slot_ok (laid_empty s i₀) (fun i hi => by
      obtain rfl := Option.some.inj (hr₀.symm.trans hi)
      exact .refl) hslot
    have hspec := layOutFrom_spec (l := l) (n := s.nodes.size) (k := 0) hr₀ hc hl (by omega)
    rw [hforms] at hspec
    obtain ⟨hbelow, hok, herr⟩ := hspec
    refine ⟨hbelow, fun he => ?_, herr⟩
    obtain ⟨w', h', hp, hfst, hlow⟩ := hok he
    exact ⟨w', h', hroot.prolong hp, hfst, hlow⟩

theorem layOut_error {e : Fault} (hr₀ : s.nodeOf? r₀ = some i₀) (h : s.layOut l r₀ = .error e) :
    s.Broken l r₀ := by
  cases hslot : s.slot l r₀ {} with
  | ok x => simp [layOut, hslot, Except.map] at h
  | error e =>
    rw [slot] at hslot
    split at hslot
    · exact .gone ‹_›
    · rename_i i hi
      obtain rfl := Option.some.inj (hr₀.symm.trans (nodeOf?_of_deref? hi))
      cases hres : s.resolve l i₀ with
      | ok j =>
        rw [hres] at hslot
        cases hslot
      | error e => exact resolve_error hr₀ .refl hres

end Store

open Store

variable [Value V] [Kind K] {s s' : Store V K}

/-- The entry holds the facts of the node `i`. -/
structure Describes (G : Productions V K) (i : Nat) (e : Entry V K) : Prop where
  origin : e.origin = i
  first : Correct G i .first e.first
  emptyValue : Correct G i .emptyValue e.emptyValue
  productive : Correct G i .productive e.productive
  restrictions : Correct G i .restrictions e.restrictions

/-- The table `g` is one for the node `i₀`; `node` has the nodes by slot. -/
structure Tabulates (G : Productions V K) (i₀ : Nat) (g : ValidGrammar V K) (node : Slot → Option Nat) : Prop where
  root : ∃ i, Stands G i₀ i ∧ node g.root = some i
  below : ∀ k i, node k = some i → Below G i₀ i
  entry : ∀ k i, node k = some i → ∃ e p, g.entries[k]? = some e ∧ G i = some p ∧ Lowers G node p e.form ∧
    Describes G i e
  node : ∀ (k : Slot) (e : Entry V K), g.entries[k]? = some e → ∃ i, node k = some i

/-- The entry holds what readings of the node `i` give. -/
structure Holds (s : Store V K) (i : Nat) (e : Entry V K) : Prop where
  origin : e.origin = i
  reads : ∀ f v, e.fact? f = some v → s.Reads i f v

variable {e : Entry V K}

theorem Holds.learn (h : Holds s i e) (hl : s.Learns s') : Holds s' i e :=
  ⟨h.origin, fun f v hv => hl.reads (h.reads f v hv)⟩

theorem Holds.describes (h : Holds s i e) (hm : s.Remembers) : Describes s.productions i e :=
  ⟨h.origin, (h.reads .first _ rfl).correct hm, (h.reads .emptyValue _ rfl).correct hm,
    (h.reads .productive _ rfl).correct hm, (h.reads .restrictions _ rfl).correct hm⟩

/-- The table `g` is one for the node `i₀` of the store: no two slots have the same node, none has a deferred one, and
the entries hold what is read. -/
structure Lowered (s : Store V K) (i₀ : Nat) (g : ValidGrammar V K) (source : Slot → Option Nat) : Prop
    extends Tabulates s.productions i₀ g source where
  injective : ∀ k k' i, source k = some i → source k' = some i → k = k'
  solid : ∀ k i, source k = some i → ∀ j, ¬Defers s.productions i j
  holds : ∀ (k : Slot) (e : Entry V K), g.entries[k]? = some e → Holds s e.origin e

theorem Lowered.learn {g : ValidGrammar V K} {node : Slot → Option Nat} (h : Lowered s i₀ g node) (hl : s.Learns s') :
    Lowered s' i₀ g node where
  toTabulates := hl.productions ▸ h.toTabulates
  injective := h.injective
  solid := hl.productions ▸ h.solid
  holds k e he := (h.holds k e he).learn hl

theorem entry_learns (hm : s.Remembers) (hc : Complete s.productions i) (l : Liveness) (form : Form V K) :
    Leads Learns s (entry l i form) fun e s' => e.form = form ∧ Holds s' i e := by
  have hread : ∀ f s₁, s.Learns s₁ → Leads Learns s₁ (settledFact l i f) fun v s₂ => s₂.Reads i f v :=
    fun f s₁ h₁ => settledFact_learns h₁.remembers (h₁.productions ▸ hc) l f
  refine (hread .first s (.refl hm)).bind fun v₁ s₁ h₁ hv₁ => ?_
  refine (hread .emptyValue s₁ h₁).bind fun v₂ s₂ h₂ hv₂ => ?_
  refine (hread .productive s₂ (h₁.trans h₂)).bind fun v₃ s₃ h₃ hv₃ => ?_
  refine (hread .restrictions s₃ ((h₁.trans h₂).trans h₃)).bind fun v₄ s₄ h₄ hv₄ => ?_
  refine .pure (.refl h₄.remembers) ⟨rfl, rfl, fun f v hv => ?_⟩
  -- what was read first still is when the last fact has been read
  cases f with
  | first =>
    cases hv
    exact ((h₂.trans h₃).trans h₄).reads hv₁
  | emptyValue =>
    cases hv
    exact (h₃.trans h₄).reads hv₂
  | productive =>
    cases hv
    exact h₄.reads hv₃
  | restrictions =>
    cases hv
    exact hv₄
  | conflicts => cases hv

theorem getElem?_of_forall₂ {α β : Type} {P : α → β → Prop} {xs : List α} {ys : List β} (h : List.Forall₂ P xs ys)
    {k : Nat} {x : α} (hx : xs[k]? = some x) : ∃ y, ys[k]? = some y ∧ P x y := by
  induction h generalizing k with
  | nil => simp at hx
  | @cons x' y xs ys hxy _ ih =>
    cases k with
    | zero =>
      cases hx
      exact ⟨y, rfl, hxy⟩
    | succ k => exact ih (by simpa using hx)

/-- Slots that are laid out make up a table, with entries for the forms of their nodes in order. -/
theorem lowered_of_laid {root : Slot} {fs : List (NodeId × Form V K)} {es : List (Entry V K)} (hm : s.Remembers)
    (hl : s.Laid i₀ w) (hroot : ∃ j, Stands s.productions i₀ j ∧ w.order[root]? = some j)
    (hfst : fs.map Prod.fst = w.order.toList)
    (hforms : ∀ x ∈ fs, ∃ p, s.productions x.1 = some p ∧ Lowers s.productions (w.order[·]?) p x.2)
    (hes : List.Forall₂ (fun x e => e.form = x.2 ∧ Holds s x.1 e) fs es) :
    Lowered s i₀ ⟨es.toArray, root⟩ (w.order[·]?) := by
  refine ⟨⟨hroot, fun k i hk => (hl.node k i hk).1, fun k i hk => ?_, fun k e hk => ?_⟩, fun k k' i hk hk' => ?_,
    fun k i hk j hj => not_defers_of_target (hl.node k i hk).2 hj, fun k e hk => ?_⟩
  · rw [← Array.getElem?_toList, ← hfst, List.getElem?_map, Option.map_eq_some_iff] at hk
    obtain ⟨x, hx, rfl⟩ := hk
    obtain ⟨e, he, hform, hholds⟩ := getElem?_of_forall₂ hes hx
    obtain ⟨p, hp, hlow⟩ := hforms x (List.mem_of_getElem? hx)
    exact ⟨e, p, by simpa using he, hp, hform ▸ hlow, hholds.describes hm⟩
  · obtain ⟨x, hx, -⟩ := getElem?_of_forall₂ hes.flip (by simpa using hk)
    refine ⟨x.1, ?_⟩
    rw [← Array.getElem?_toList, ← hfst, List.getElem?_map, hx]
    rfl
  · exact Option.some.inj (((hl.slots i k).2 hk).symm.trans ((hl.slots i k').2 hk'))
  · obtain ⟨x, -, -, hholds⟩ := getElem?_of_forall₂ hes.flip (by simpa using hk)
    rwa [hholds.origin]

/-- The table that is made of a realized grammar is one for it. -/
theorem lower_learns (hm : s.Remembers) (held : List Ref) (hr : s.nodeOf? r = some i)
    (hc : Complete s.productions i) :
    Leads Learns s (lower held r) fun g s' => ∃ source, Lowered s' i g source := by
  refine .get ?_
  refine (Leads.liftExcept (.refl hm)).bind fun x s₁ _ ⟨hs, hx⟩ => ?_
  subst hs
  obtain ⟨root, fs, outcome⟩ := x
  obtain ⟨hbelow, hok, -⟩ := layOut_ok hr hc hx
  refine (Leads.mapM (P := fun (x : NodeId × Form V K) (e : Entry V K) s' => e.form = x.2 ∧ Holds s' x.1 e)
    (.refl hm) (fun _ h => .refl h.remembers) (fun _ _ _ _ h₂ he => ⟨he.1, he.2.learn h₂⟩)
    fun x hx s₂ h₂ => ?_).bind fun es s₂ h₂ hes => ?_
  · exact entry_learns h₂.remembers (h₂.productions ▸ hc.below (hbelow x hx)) _ x.2
  refine (Leads.liftExcept (.refl h₂.remembers)).bind fun _ s₃ _ ⟨hs, ho⟩ => ?_
  subst hs
  obtain ⟨w, hl, hroot, hfst, hforms⟩ := hok ho
  obtain ⟨n, j, hn, hs, hj⟩ := hroot.exists_stands
  obtain rfl := Option.some.inj (hr.symm.trans hn)
  have hl' : s₃.Laid i w := by
    obtain ⟨⟨b, es, rfl⟩, -⟩ := h₂
    exact ⟨hl.slots, hl.node⟩
  rw [← h₂.productions] at hs hforms
  exact .pure (.refl h₂.remembers)
    ⟨_, lowered_of_laid h₂.remembers hl' ⟨j, hs, hj⟩ hfst (fun x hx => (hforms x hx).2) hes⟩

/-- If a node gets no entry, one of its facts is blocked. -/
theorem blocked_of_entry (hm : s.Remembers) (hr : s.nodeOf? r = some i₀) (hc : Complete s.productions i₀)
    (hb : Below s.productions i₀ i) (form : Form V K) : FailsOnly s (entry l i form) fun _ => s.Blocked l r := by
  have hread : ∀ f s₁, s.Learns s₁ → FailsOnly s₁ (settledFact l i f) fun _ => s.Blocked l r := by
    intro f s₁ h₁ e s' he
    have hprod := h₁.productions
    refine h₁.blocked (blocked_of_settledFact h₁.remembers ?_ (hprod ▸ hc) (hprod ▸ hb) e s' he)
    obtain ⟨⟨b, es, rfl⟩, -⟩ := h₁
    exact hr
  have hstep : ∀ f s₁ v s₂, s.Learns s₁ → settledFact l i f s₁ = .ok v s₂ → s.Learns s₂ := by
    intro f s₁ v s₂ h₁ h
    exact h₁.trans ((settledFact_learns h₁.remembers (h₁.productions ▸ hc.below hb) l f).of_ok h).1
  refine (hread .first s (.refl hm)).bind fun v₁ s₁ h₁ => ?_
  have hl₁ := hstep .first s v₁ s₁ (.refl hm) h₁
  refine (hread .emptyValue s₁ hl₁).bind fun v₂ s₂ h₂ => ?_
  have hl₂ := hstep .emptyValue s₁ v₂ s₂ hl₁ h₂
  refine (hread .productive s₂ hl₂).bind fun v₃ s₃ h₃ => ?_
  have hl₃ := hstep .productive s₂ v₃ s₃ hl₂ h₃
  exact (hread .restrictions s₃ hl₃).bind fun v₄ s₄ _ => .pure _

/-- If a realized grammar gets no table, it is blocked. -/
theorem blocked_of_lower (hm : s.Remembers) (held : List Ref) (hr : s.nodeOf? r = some i)
    (hc : Complete s.productions i) :
    FailsOnly s (lower held r) fun _ => s.Blocked (s.liveness (r :: held)) r := by
  refine .get (.bind (fun e s' h => ?_) fun x s₁ h => ?_)
  · obtain ⟨he, rfl⟩ := liftExcept_error h
    exact .broken (layOut_error hr he)
  obtain ⟨-, rfl, hx⟩ := (Leads.liftExcept (Learns.refl hm)).of_ok h
  obtain ⟨root, fs, outcome⟩ := x
  obtain ⟨hbelow, -, herr⟩ := layOut_ok hr hc hx
  have hentry : ∀ x ∈ fs, ∀ s', s₁.Learns s' → Leads Learns s' (entry (s₁.liveness (r :: held)) x.1 x.2)
      fun _ _ => True := fun x hx s' hs' =>
    (entry_learns hs'.remembers (hs'.productions ▸ hc.below (hbelow x hx)) _ x.2).mono (fun _ h => h)
      fun _ _ _ _ => trivial
  refine .bind (.mapM (.refl hm) (fun _ h => .refl h.remembers) hentry fun x hx s' hs' => ?_) fun es s₂ h => ?_
  · intro e s'' he
    have hprod := hs'.productions
    refine hs'.blocked (blocked_of_entry hs'.remembers ?_ (hprod ▸ hc) (hprod ▸ hbelow x hx) x.2 e s'' he)
    obtain ⟨⟨b, es, rfl⟩, -⟩ := hs'
    exact hr
  · refine .bind (fun e s' h => ?_) fun _ s₃ _ => .pure _
    exact .broken (herr e (liftExcept_error h).1)

end Grammar
end Predictive
