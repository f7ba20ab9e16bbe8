import Predictive.Proofs.Grammar.Origins

/-!
Grammars that have got a table are ready for good: everything below them is there and alive, and nothing that has to be
found out can fail. A ready grammar realizes without further work, and there is a verdict on it.
-/
namespace Predictive

open Grammar

variable {V K : Type}

/-- A node that resolves is not deferred to itself. -/
theorem Resolves.not_circular {G : Productions V K} {i j : Nat} (h : Resolves G i j) :
    ¬Relation.TransGen (Defers G) i i := by
  obtain ⟨hs, hj⟩ := h
  induction hs using Relation.ReflTransGen.head_induction_on with
  | refl =>
    intro hc
    obtain ⟨n, hn, -⟩ := Relation.TransGen.head'_iff.1 hc
    exact hj n hn
  | @head x y hxy _ ih =>
    intro hc
    obtain ⟨n, hn, hnx⟩ := Relation.TransGen.head'_iff.1 hc
    -- there is one target only, so the circle goes through it
    have hny : Production.deferred n = Production.deferred y := Option.some.inj (hn.symm.trans hxy)
    cases hny
    exact ih (Relation.TransGen.tail' hnx hxy)

namespace Grammar

open Solver (Family)
open Store

variable [Value V] [Kind K] {s s' : Store V K} {l l' : Liveness} {r : Ref} {held : List Ref} {i n : Nat}
  {g : ValidGrammar V K}

/-- Everything below the node is there and alive, no chain of targets comes back, and it is settled what transformations
make of the empty value. -/
structure Store.Ready (s : Store V K) (l : Liveness) (i : Nat) : Prop where
  complete : Complete s.productions i
  alive : ∀ n, Below s.productions i n → ∀ r ∈ s.below n, (s.deref? l r).isSome
  resolves : ∀ n, Below s.productions i n → ∃ j, Resolves s.productions n j
  settled : ∀ n f m, Below s.productions i n → s.productions n = some (.transform f m) →
    (Family.memo s.book.memos ⟨n, .emptyValue⟩).settled = true

omit [Value V] in
theorem Store.Ready.not_blocked (h : s.Ready l i) : ¬s.Blocked l (.node i) := by
  intro hblocked
  cases hblocked with
  | broken hb =>
    cases hb with
    | gone hgone => cases hgone
    | dead hi hb hr hdead =>
      cases hi
      have halive := h.alive _ hb _ hr
      rw [hdead] at halive
      cases halive
    | circular hi hb hc =>
      cases hi
      obtain ⟨j, hj⟩ := h.resolves _ hb
      exact hj.not_circular hc
  | fallible hi hb hp _ hunsettled =>
    cases hi
    rw [h.settled _ _ _ hb hp] at hunsettled
    cases hunsettled

omit [Value V] in
/-- If all forms are made, each node below stands for one with a form, along targets that are alive. -/
theorem exists_follows_of_layOut {root : Slot} {fs : List (NodeId × Form V K)} (hr : s.nodeOf? r = some i)
    (hc : Complete s.productions i) (h : s.layOut l r = .ok (root, fs, .ok ())) (hb : Below s.productions i n) :
    (∀ r' ∈ s.below n, (s.deref? l r').isSome) ∧ ∃ j, Resolves s.productions n j := by
  obtain ⟨-, hok, -⟩ := layOut_ok hr hc h
  obtain ⟨w, hl, ⟨i', j, hi', hroot, hj⟩, hfst, hforms⟩ := hok rfl
  obtain rfl := Option.some.inj (hr.symm.trans (nodeOf?_of_deref? hi'))
  have hplaced : ∀ (k : Slot) (y : Nat), w.order[k]? = some y → ∀ r' ∈ s.below y, ∃ k', s.Placed l w r' k' := by
    intro k y hy
    rw [← Array.getElem?_toList, ← hfst, List.getElem?_map, Option.map_eq_some_iff] at hy
    obtain ⟨x, hx, rfl⟩ := hy
    exact (hforms x (List.mem_of_getElem? hx)).1
  have hfollows : ∃ (k : Slot) (y : Nat), s.Follows l n y ∧ w.order[k]? = some y := by
    induction hb with
    | refl => exact ⟨root, j, hroot, hj⟩
    | @tail x z _ hz ih =>
      obtain ⟨k, y, hxy, hy⟩ := ih
      obtain ⟨p, hp, hzp⟩ := hz
      obtain ⟨r', hr', hz'⟩ := (mem_parts_iff hp).1 hzp
      cases hxy with
      | stop =>
        obtain ⟨k', x', y', hx', hxy', hy'⟩ := hplaced k _ hy r' hr'
        obtain rfl := Option.some.inj (hz'.symm.trans (nodeOf?_of_deref? hx'))
        exact ⟨k', y', hxy', hy'⟩
      | step ht hn hny =>
        rw [below_of_target ht, List.mem_singleton] at hr'
        subst hr'
        obtain rfl := Option.some.inj (hz'.symm.trans (nodeOf?_of_deref? hn))
        exact ⟨k, y, hny, hy⟩
  obtain ⟨k, y, hny, hy⟩ := hfollows
  refine ⟨fun r' hr' => ?_, y, hny.stands, fun j => not_defers_of_target hny.target?⟩
  cases hny with
  | stop =>
    obtain ⟨k', x, -, hx, -⟩ := hplaced k _ hy r' hr'
    exact Option.isSome_of_eq_some hx
  | step ht hn _ =>
    rw [below_of_target ht, List.mem_singleton] at hr'
    subst hr'
    exact Option.isSome_of_eq_some hn

theorem layOut_of_lower (h : lower held r s = .ok g s') :
    ∃ root fs, s.layOut (s.liveness (r :: held)) r = .ok (root, fs, .ok ()) := by
  obtain ⟨s₀, s₁, hget, h⟩ := bind_eq_ok h
  cases hget
  obtain ⟨⟨root, fs, outcome⟩, s₁, hx, h⟩ := bind_eq_ok h
  obtain ⟨-, -, hx⟩ := (Leads.liftExcept (R := fun _ _ => True) trivial).of_ok hx
  obtain ⟨es, s₂, -, h⟩ := bind_eq_ok h
  obtain ⟨u, s₃, ho, -⟩ := bind_eq_ok h
  obtain ⟨-, -, ho⟩ := (Leads.liftExcept (R := fun _ _ => True) trivial).of_ok ho
  exact ⟨root, fs, ho ▸ hx⟩

/-- A grammar that has got a table is ready. -/
theorem ready_of_validate (h : Reached s) (hr : s.HasRef r) (hval : validate held r s = .ok (.ok g) s') :
    ∃ i, s'.nodeOf? r = some i ∧ s'.Ready (s'.liveness (r :: held)) i := by
  obtain ⟨hv, hm⟩ := h.sane
  obtain ⟨i, source, -, ⟨hi, hc⟩, hlow, -⟩ := h.lowered hr hval
  have hmade : ∃ s₁ s₂, lower held r s₁ = .ok g s₂ ∧ s₁.Learns s' := by
    obtain ⟨found, s₁, hfound, hval⟩ := bind_eq_ok hval
    obtain ⟨h₁, n, hn, -⟩ := (fact_upholds hv hm held .conflicts hr).of_ok hfound
    split at hval
    · obtain ⟨g', s₂, hlower, hval⟩ := bind_eq_ok hval
      obtain ⟨u, s₃, hrecord, hval⟩ := bind_eq_ok hval
      cases hval
      obtain ⟨h₂, -⟩ := (lower_learns h₁.remembers held hn.1 hn.2).of_ok hlower
      exact ⟨s₁, s₂, hlower, h₂.trans ((record_learns h₂.remembers held r _).of_ok hrecord).1⟩
    · obtain ⟨u, s₂, -, hval⟩ := bind_eq_ok hval
      cases hval
  obtain ⟨s₁, s₂, hlower, hl⟩ := hmade
  have hfollows : ∀ n, Below s'.productions i n →
      (∀ r' ∈ s'.below n, (s'.deref? (s'.liveness (r :: held)) r').isSome) ∧ ∃ j, Resolves s'.productions n j := by
    obtain ⟨root, fs, hlay⟩ := layOut_of_lower hlower
    rw [hl.liveness]
    obtain ⟨⟨b, es, rfl⟩, -⟩ := hl
    exact fun n hb => exists_follows_of_layOut (s := s₁) hi hc hlay hb
  refine ⟨i, hi, hc, fun n hb => (hfollows n hb).1, fun n hb => (hfollows n hb).2, fun n f m hb hp => ?_⟩
  have hsolid : ∀ j, ¬Defers s'.productions n j := fun j hd => by
    cases hp.symm.trans hd
  obtain ⟨k, e, he, rfl⟩ := hlow.exists_origin_iff.2 (expands_iff.2 ⟨hb, hsolid⟩)
  have hrule : s'.whole.definition e.origin .emptyValue = .rule (transformRule f (.of m) .emptyValue) :=
    define_of_production hp
  exact ((hlow.holds k e he).reads .emptyValue _ rfl).final.2 _ (Family.source?_of_rule hrule)

omit [Value V] in
/-- A node that has a production leads where it led. -/
theorem Store.Grows.below (hs : s.Grows s') (hp : (s.productions n).isSome) : s'.below n = s.below n := by
  simp only [productions] at hp
  cases hn : s.nodes[n]? with
  | none => simp [hn] at hp
  | some shape =>
    rcases hs.nodes n shape hn with hn' | ⟨o, t, rfl, -⟩
    · simp only [Store.below, hn, hn']
    · simp [hn] at hp

namespace Store.Ready

/-- What is ready stays so while its self-references stay alive. -/
theorem uphold (h : s.Ready l i) (hup : s.Upholds s')
    (hl : ∀ k d, s.nodeOf? (.self k) = some d → l.isAlive d = true → l'.isAlive d = true) : s'.Ready l' i := by
  have hbelow : ∀ n, Below s'.productions i n → Below s.productions i n := fun n hb =>
    h.complete.below_of_extend hup.extends hb
  refine ⟨h.complete.extend hup.extends, fun n hb r hr => ?_, fun n hb => ?_, fun n f m hb hp => ?_⟩
  · rw [hup.toGrows.below (h.complete n (hbelow n hb))] at hr
    obtain ⟨d, hd⟩ := Option.isSome_iff_exists.1 (h.alive n (hbelow n hb) r hr)
    cases r with
    | node j => rfl
    | self k =>
      obtain ⟨hk, halive⟩ := Option.filter_eq_some_iff.1 hd
      exact Option.isSome_of_eq_some (Option.filter_eq_some_iff.2 ⟨hup.toGrows.knots k d hk, hl k d hk halive⟩)
  · obtain ⟨j, hs, hj⟩ := h.resolves n (hbelow n hb)
    refine ⟨j, hs.extend hup.extends, fun m hd => ?_⟩
    obtain ⟨p, hp⟩ := Option.isSome_iff_exists.1 (h.complete j ((hbelow n hb).trans (below_of_stands hs)))
    cases (hup.extends hp).symm.trans hd
    exact hj m hp
  · obtain ⟨p, hp'⟩ := Option.isSome_iff_exists.1 (h.complete n (hbelow n hb))
    cases (hup.extends hp').symm.trans hp
    exact (hup.lasts _ (h.settled n f m (hbelow n hb) hp')).1

end Store.Ready

/-! A ready grammar realizes as it is. -/

section Idle

omit [Value V] in
theorem Walk.deref?_of_kept {w : Walk} {pending : List Ref} (h : s.deref? w.kept r = some n) :
    s.deref? (w.liveness s pending) r = some n := by
  cases r with
  | node j => exact h
  | self k =>
    obtain ⟨hk, halive⟩ := Option.filter_eq_some_iff.1 h
    exact Option.filter_eq_some_iff.2 ⟨hk, by simp [Walk.liveness, halive]⟩

/-- The nodes that have not been seen yet. -/
def Walk.unseen (w : Walk) (s : Store V K) : List Nat := (List.range s.nodes.size).filter fun j => j ∉ w.seen

omit [Value V] in
theorem Walk.length_unseen_le (w : Walk) (s : Store V K) : (w.unseen s).length ≤ s.nodes.size :=
  (List.length_filter_le ..).trans (by simp)

omit [Value V] in
theorem Walk.length_unseen {w : Walk} (hn : n < s.nodes.size) (hw : n ∉ w.seen) :
    (({ w with seen := w.seen.insert n } : Walk).unseen s).length < (w.unseen s).length := by
  have hnd : (n :: ({ w with seen := w.seen.insert n } : Walk).unseen s).Nodup := by
    refine List.nodup_cons.2 ⟨fun hmem => ?_, List.nodup_range.filter _⟩
    simp [unseen] at hmem
  refine hnd.length_le_of_subset fun j hj => ?_
  rcases List.mem_cons.1 hj with rfl | hj
  · simp [unseen, hn, hw]
  · simp only [unseen, List.mem_filter, decide_eq_true_eq, mem_insert_seen, not_or] at hj ⊢
    exact ⟨hj.1, hj.2.2⟩

omit [Value V] in
theorem length_below_le : (s.below n).length ≤ 2 := by
  simp only [Store.below]
  split
  · simp
  · simp
  · simp
  · rename_i o target _
    cases target <;> simp
  · simp

section Alive

variable (hc : Complete s.productions i)
include hc

omit [Value V] in
/-- A walk over a grammar that is bound and alive binds nothing, and the store stays as it is. -/
theorem realizeFrom_idle {fuel : Nat} {pending : List Ref} {w : Walk}
    (halive : ∀ n, Below s.productions i n → ∀ r ∈ s.below n, (s.deref? w.kept r).isSome)
    (hp : ∀ r ∈ pending, ∃ n, s.deref? w.kept r = some n ∧ Below s.productions i n)
    (hfuel : pending.length + 2 * (w.unseen s).length ≤ fuel) :
    ∃ w', realizeFrom fuel pending w s = .ok w' s ∧ w'.bound = w.bound := by
  induction fuel generalizing pending w with
  | zero =>
    obtain rfl : pending = [] := List.length_eq_zero_iff.1 (by omega)
    exact ⟨w, rfl, rfl⟩
  | succ fuel ih =>
    cases pending with
    | nil => exact ⟨w, rfl, rfl⟩
    | cons r pending =>
      obtain ⟨n, hn, hb⟩ := hp r List.mem_cons_self
      have hrest : ∀ r' ∈ pending, ∃ n, s.deref? w.kept r' = some n ∧ Below s.productions i n := fun r' hr' =>
        hp r' (List.mem_cons_of_mem _ hr')
      have hderef : s.deref? (w.liveness s pending) r = some n := Walk.deref?_of_kept hn
      rw [List.length_cons] at hfuel
      by_cases hw : n ∈ w.seen
      · obtain ⟨w', hw', hbound⟩ := ih halive hrest (by omega)
        exact ⟨w', (realizeFrom_skip hderef hw).trans hw', hbound⟩
      · obtain ⟨shape, hshape, hbound⟩ := exists_shape_of_production (hc n hb)
        have hless := Walk.length_unseen (Array.getElem?_eq_some_iff.1 hshape).1 hw
        have htwo := length_below_le (s := s) (n := n)
        rw [realizeFrom_visit hderef hw hshape hbound]
        refine ih halive (fun r' hr' => ?_) (by rw [List.length_append]; omega)
        rcases List.mem_append.1 hr' with hr' | hr'
        · obtain ⟨m, hm⟩ := Option.isSome_iff_exists.1 (halive n hb r' hr')
          exact ⟨m, hm, below_of_ref hc hb hr' (nodeOf?_of_deref? hm)⟩
        · exact hrest r' hr'

omit [Value V] in
theorem realize_idle (hr : s.deref? (s.liveness (r :: held)) r = some i)
    (halive : ∀ n, Below s.productions i n → ∀ x ∈ s.below n, (s.deref? (s.liveness (r :: held)) x).isSome) :
    realize held r s = .ok () s := by
  have hunseen := Walk.length_unseen_le { held := r :: held, kept := s.liveness (r :: held) } s
  have hpending : ∀ x ∈ [r], ∃ n, s.deref? (s.liveness (r :: held)) x = some n ∧ Below s.productions i n :=
    fun x hx => by
      obtain rfl := List.mem_singleton.1 hx
      exact ⟨i, hr, .refl⟩
  have hfuel : [r].length + 2 * (Walk.unseen { held := r :: held, kept := s.liveness (r :: held) } s).length ≤
      2 * (s.nodes.size + s.potential) + 1 := by
    rw [List.length_singleton]
    omega
  obtain ⟨w, hw, hbound⟩ := realizeFrom_idle (w := { held := r :: held, kept := s.liveness (r :: held) }) hc halive
    hpending hfuel
  simp only [realize, get_bind]
  simp only [bind, EStateM.bind, hw, hbound]
  rfl

end Alive

end Idle

section Realized

variable {s₁ : Store V K} (hv : s.Valid) (hm : s.Remembers) (hi : s.HasRef (.node i))
  (hg : realize held (.node i) s = .ok () s₁) (h : s₁.Ready (s₁.liveness (.node i :: held)) i)
include hv hm hi hg h

/-- There is a verdict on a grammar that is ready once it has been realized. -/
theorem exists_verdict_of_realize : ∃ v s', validate held (.node i) s = .ok v s' := by
  cases hval : validate held (.node i) s with
  | ok v s' => exact ⟨v, s', rfl⟩
  | error e s' =>
    rcases blocked_of_validate hv hm hi hval with hg' | ⟨s₂, hg', -, hblocked⟩
    · cases hg.symm.trans hg'
    · cases hg.symm.trans hg'
      exact absurd hblocked h.not_blocked

/-- All facts are told of a grammar that is ready once it has been realized. -/
theorem exists_fact_of_realize (f : FactName) : ∃ v s', fact held f (.node i) s = .ok v s' := by
  cases hf : fact held f (.node i) s with
  | ok v s' => exact ⟨v, s', rfl⟩
  | error e s' =>
    rcases blocked_of_fact hv hm hi hf with hg' | ⟨s₂, hg', -, hblocked⟩
    · cases hg.symm.trans hg'
    · cases hg.symm.trans hg'
      exact absurd hblocked h.not_blocked

end Realized

/-- There is a verdict on a ready grammar. -/
theorem exists_verdict_of_ready (hv : s.Valid) (hm : s.Remembers) (hi : s.HasRef (.node i))
    (h : s.Ready (s.liveness (.node i :: held)) i) : ∃ v s', validate held (.node i) s = .ok v s' :=
  exists_verdict_of_realize hv hm hi (realize_idle h.complete rfl h.alive) h

end Grammar
end Predictive
