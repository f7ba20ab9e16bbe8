import Predictive.Proofs.Grammar.Ambiguity

/-!
What may not follow a node is what goes on behind one of its words: each kind that is ruled out does, and where one
token decides everywhere no other.
-/
namespace Predictive

variable {V K : Type} {G H : Productions V K} {i : Nat} {k : K}

/-- The node has a word that goes on with `k` behind another one of its words. -/
def Continues (G : Productions V K) (i : Nat) (k : K) : Prop := ∃ xs ys, Yields G i xs ∧ Yields G i (xs ++ k :: ys)

theorem Continues.extend (e : Extends G H) (h : Continues G i k) : Continues H i k := by
  obtain ⟨xs, ys, hx, hy⟩ := h
  exact ⟨xs, ys, hx.extend e, hy.extend e⟩

/-- A kind that is barred behind a node goes on behind one of its words. -/
theorem Barred.continues (h : Barred G i k) : Continues G i k := by
  induction h with
  | ofRight hi hl hk =>
    obtain ⟨ys, hr⟩ := hk
    exact ⟨[], ys, .left hi hl, .right hi hr⟩
  | ofLeft hi hr hk =>
    obtain ⟨ys, hl⟩ := hk
    exact ⟨[], ys, .right hi hr, .left hi hl⟩
  | inLeft hi _ ih =>
    obtain ⟨xs, ys, hx, hy⟩ := ih
    exact ⟨xs, ys, .left hi hx, .left hi hy⟩
  | inRight hi _ ih =>
    obtain ⟨xs, ys, hx, hy⟩ := ih
    exact ⟨xs, ys, .right hi hx, .right hi hy⟩
  | first hi hr _ ih =>
    obtain ⟨xs, ys, hx, hy⟩ := ih
    exact ⟨xs, ys, by simpa using hx.sequence hi hr, by simpa using hy.sequence hi hr⟩
  | second hi hl _ ih =>
    -- any word of the first part stands before both
    obtain ⟨as, hl⟩ := hl
    obtain ⟨xs, ys, hx, hy⟩ := ih
    exact ⟨as ++ xs, ys, hl.sequence hi hx, by simpa using hl.sequence hi hy⟩
  | transform hi _ ih =>
    obtain ⟨xs, ys, hx, hy⟩ := ih
    exact ⟨xs, ys, .transform hi hx, .transform hi hy⟩
  | deferred hi _ ih =>
    obtain ⟨xs, ys, hx, hy⟩ := ih
    exact ⟨xs, ys, .deferred hi hx, .deferred hi hy⟩

theorem DecidedFrom.barred_of_continues (h : DecidedFrom G i) (hk : Continues G i k) : Barred G i k := by
  obtain ⟨xs, ys, hx, hy⟩ := hk
  exact h.barred_of_outruns hx hy ⟨ys, .inl rfl⟩

namespace Grammar

open Store

variable [Kind K] [Value V] {s s' : Store V K} {r : Ref} {held : List Ref} {v : FinSet (Restriction K)}
  {cs : FinSet (Conflict K)}

/-- Where there is nothing to report, one token decides everywhere. -/
theorem decidedFrom_of_free (hc : Correct s.productions i .conflicts cs) (hfree : cs.isEmpty = true) :
    DecidedFrom s.productions i := by
  intro j hb hclash
  obtain ⟨c, hmem⟩ := exists_exactConflict hb hclash
  have hmem := hc.1 c hmem
  rw [FinSet.eq_empty_of_isEmpty hfree] at hmem
  exact FinSet.not_mem_empty hmem

/-- The kinds of all entries together are those that are barred. -/
theorem exists_disallowed_iff_barred (h : Correct s.productions i .restrictions v) :
    (∃ e ∈ v, k ∈ e.disallowed) ↔ Barred s.productions i k := by
  obtain ⟨hexact, hwithin⟩ := h
  constructor
  · rintro ⟨e, he, hk⟩
    obtain ⟨x, hx, hstarts⟩ := hwithin e he
    exact barred_of_restricts hx (hstarts k hk)
  · intro hk
    obtain ⟨d, x, hx, hk⟩ := barred_iff.1 hk
    obtain ⟨ks, hks⟩ := exists_finSet (s := s) (Starts s.productions x) fun _ => mem_kinds_of_starts
    exact ⟨⟨d, ks⟩, hexact ⟨d, ks⟩ ⟨x, hx, hks⟩, (hks k).2 hk⟩

/-- After any calls, a kind that may not follow a grammar goes on behind one of its words. If the grammar is found to be
free of conflicts, before or after, no other kind does. The kinds are told unless the grammar does not realize or there
is an obstacle. -/
theorem exists_disallowed_iff_continues (h : Reached s) (hr : s.HasRef r) :
    (∀ v s', restrictions held r s = .ok v s' → ∃ i, s'.Realized r i ∧ ∀ k,
      ((∃ e ∈ v, k ∈ e.disallowed) → ∃ xs ys, Yields s'.productions i xs ∧ Yields s'.productions i (xs ++ [k] ++ ys)) ∧
      (∀ cs : FinSet (Conflict K), Told s s' r .conflicts cs → cs.isEmpty = true → ((∃ e ∈ v, k ∈ e.disallowed) ↔
        ∃ xs ys, Yields s'.productions i xs ∧ Yields s'.productions i (xs ++ [k] ++ ys)))) ∧
    ∀ e s', restrictions held r s = .error e s' →
      realize held r s = .error e s' ∨ s'.Obstacle (s'.liveness (r :: held)) r := by
  obtain ⟨hv, hm⟩ := h.sane
  refine ⟨fun v s' hres => ?_, fun e s' hres => obstacle_of_fact hv hm hr hres⟩
  obtain ⟨h', i, hi, hread⟩ := (fact_upholds hv hm held .restrictions hr).of_ok hres
  simp only [List.append_assoc, List.singleton_append]
  have hwords : ∀ k, (∃ e ∈ v, k ∈ e.disallowed) → Continues s'.productions i k := fun k hk =>
    ((exists_disallowed_iff_barred (hread.correct h'.remembers)).1 hk).continues
  refine ⟨i, hi, fun k => ⟨hwords k, fun cs htold hfree => ⟨hwords k, fun hk => ?_⟩⟩⟩
  -- both facts are read in one store, where one token decides below the grammar
  obtain ⟨t, ht, j, hj, hconflicts⟩ := htold.exists_tells h' (hr.of_le h'.size_le)
  obtain rfl : j = i := Option.some.inj (hj.1.symm.trans (ht.nodeOf? hi.1))
  have hdecided := decidedFrom_of_free (hconflicts.correct ht.remembers) hfree
  refine (exists_disallowed_iff_barred ((ht.reads hi.2 hread).correct ht.remembers)).2 ?_
  exact hdecided.barred_of_continues (Continues.extend ht.extends hk)

/-- Behind brackets another opening one goes on, and no closing one. -/
theorem exists_disallowed_nested : ∃ v s' i, restrictions [] (.node 6) nestedStore = .ok v s' ∧
    s'.Realized (.node 6) i ∧
    (∃ xs ys, Yields s'.productions i xs ∧ Yields s'.productions i (xs ++ [Tag.opening] ++ ys)) ∧
    ¬∃ xs ys, Yields s'.productions i xs ∧ Yields s'.productions i (xs ++ [Tag.closing] ++ ys) := by
  obtain ⟨v, s', hv, hp⟩ := exists_ok (s := nestedStore) (w := restrictions [] (.node 6))
    (fun v s' => (v.toList.map fun e => e.disallowed.toList) == [[Tag.opening]] &&
      match conflicts [] (.node 6) s' with
      | .ok cs _ => (cs : FinSet (Conflict Tag)).isEmpty
      | .error _ _ => false) (by decide +kernel)
  obtain ⟨hkinds, hfree⟩ := Bool.and_eq_true_iff.1 hp
  have hmem : ∀ k, (∃ e ∈ v, k ∈ e.disallowed) ↔ k = Tag.opening := by
    intro k
    calc (∃ e ∈ v, k ∈ e.disallowed)
        ↔ ∃ ks ∈ v.toList.map fun e => e.disallowed.toList, k ∈ ks := by simp [FinSet.mem_def]
      _ ↔ k = Tag.opening := by simp [beq_iff_eq.1 hkinds]
  obtain ⟨i, hi, hk⟩ := (exists_disallowed_iff_continues reached_nestedStore hasRef_nestedStore).1 v s' hv
  split at hfree
  · rename_i cs s₁ hcs
    have hiff := fun k => (hk k).2 cs (.after .refl hcs) hfree
    exact ⟨v, s', i, hv, hi, (hiff .opening).1 ((hmem _).2 rfl), fun h => nomatch (hmem _).1 ((hiff .closing).2 h)⟩
  · cases hfree

end Grammar
end Predictive
