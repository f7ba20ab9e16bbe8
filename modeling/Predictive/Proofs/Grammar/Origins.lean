import Predictive.Proofs.Grammar.Ambiguity

/-!
Where the slots of a table come from: each is one of the nodes that are left below the grammar when deferred nodes are
replaced by those they stand for, and says of it what there is to say.
-/
namespace Predictive

variable {V K : Type} {G : Productions V K} {i j l n : Nat} {p : Production V K}

/-- The node `i` stands for `j`, and `j` is not deferred. -/
def Resolves (G : Productions V K) (i j : Nat) : Prop := Stands G i j ∧ ∀ l, ¬Defers G j l

/-- The nodes met on the way down from `i` when each deferred node is replaced by the node it stands for. -/
inductive Expands (G : Productions V K) (i : Nat) : Nat → Prop
  | root {j : Nat} : Resolves G i j → Expands G i j
  | part {n : Nat} {p : Production V K} {l j : Nat} : Expands G i n → G n = some p → l ∈ p.parts → Resolves G l j →
      Expands G i j

/-- A node stands for one node at most that is not deferred. -/
theorem Resolves.unique (h : Resolves G i j) (h' : Resolves G i l) : j = l := by
  obtain ⟨hs, hj⟩ := h
  obtain ⟨hs', hl⟩ := h'
  induction hs using Relation.ReflTransGen.head_induction_on with
  | refl =>
    rcases Relation.ReflTransGen.cases_head hs' with rfl | ⟨n, hd, -⟩
    · rfl
    · exact (hj n hd).elim
  | head hd _ ih =>
    rcases Relation.ReflTransGen.cases_head hs' with rfl | ⟨n, hd', hs'⟩
    · exact (hl _ hd).elim
    · have hn : Production.deferred n = Production.deferred _ := Option.some.inj (hd'.symm.trans hd)
      cases hn
      exact ih hs'

/-- What a node below stands for is met. -/
theorem expands_of_below (hb : Below G i n) (hj : Resolves G n j) : Expands G i j := by
  induction hb generalizing j with
  | refl => exact .root hj
  | @tail n m hb hm ih =>
    obtain ⟨p, hp, hm⟩ := hm
    by_cases hd : ∃ l, Defers G n l
    · -- a deferred node stands for what its target stands for
      obtain ⟨l, hl⟩ := hd
      cases hp.symm.trans hl
      obtain rfl : m = l := by simpa [Production.parts] using hm
      exact ih ⟨.head hl hj.1, hj.2⟩
    · exact .part (ih ⟨.refl, not_exists.1 hd⟩) hp hm hj

theorem expands_iff : Expands G i j ↔ Below G i j ∧ ∀ l, ¬Defers G j l := by
  constructor
  · intro h
    induction h with
    | root hj => exact ⟨below_of_stands hj.1, hj.2⟩
    | part _ hp hl hj ih => exact ⟨(ih.1.trans (Below.part hp hl)).trans (below_of_stands hj.1), hj.2⟩
  · rintro ⟨hb, hj⟩
    exact expands_of_below hb ⟨.refl, hj⟩

/-- Each part has a child, the slot of the node that it stands for. -/
theorem Lowers.exists_child {source : Slot → Option Nat} {form : Form V K} (h : Lowers G source p form)
    (hl : l ∈ p.parts) : ∃ c ∈ form.children, ∃ j, Stands G l j ∧ source c = some j := by
  cases h with
  | success | element => cases hl
  | disjunction hs ha hs' hb | sequence hs ha hs' hb =>
    rcases List.mem_pair.1 hl with rfl | rfl
    · exact ⟨_, List.mem_cons_self, _, hs, ha⟩
    · exact ⟨_, List.mem_cons_of_mem _ (List.mem_singleton_self _), _, hs', hb⟩
  | transform hs ha =>
    obtain rfl := List.mem_singleton.1 hl
    exact ⟨_, List.mem_singleton_self _, _, hs, ha⟩

/-- Each child is the slot of a node. -/
theorem Lowers.source_of_child {source : Slot → Option Nat} {form : Form V K} {c : Slot} (h : Lowers G source p form)
    (hc : c ∈ form.children) : (source c).isSome := by
  cases h with
  | success | element => cases hc
  | disjunction hs ha hs' hb | sequence hs ha hs' hb =>
    rcases List.mem_pair.1 hc with rfl | rfl
    · exact Option.isSome_of_eq_some ha
    · exact Option.isSome_of_eq_some hb
  | transform hs ha =>
    obtain rfl := List.mem_singleton.1 hc
    exact Option.isSome_of_eq_some ha

namespace Grammar

open Store

variable [Kind K] [Value V] {s s' : Store V K} {r : Ref} {held : List Ref} {g : ValidGrammar V K}
  {source : Slot → Option Nat} {k k' : Slot} {e e' : Entry V K}

namespace Lowered

variable (h : Lowered s i g source)
include h

theorem source_eq : source = fun k => g.entries[k]?.map (·.origin) := by
  funext k
  cases hk : source k with
  | some j =>
    obtain ⟨e, p, he, -, -, hdesc⟩ := h.entry k j hk
    rw [he, Option.map_some, hdesc.origin]
  | none =>
    cases he : g.entries[k]? with
    | none => rfl
    | some e =>
      obtain ⟨j, hj⟩ := h.node k e he
      cases hk.symm.trans hj

theorem source_of_entry (he : g.entries[k]? = some e) : source k = some e.origin := by
  rw [h.source_eq]
  simp [he]

/-- The root is the slot of the node that the grammar resolves to. -/
theorem exists_root : ∃ e, g.entries[g.root]? = some e ∧ Resolves s.productions i e.origin := by
  obtain ⟨j, hs, hj⟩ := h.root
  obtain ⟨e, p, he, -, -, hdesc⟩ := h.entry g.root j hj
  exact ⟨e, he, hdesc.origin ▸ ⟨hs, h.solid g.root j hj⟩⟩

/-- The form of a slot says of the slots of the parts what the production of its node says of the parts. -/
theorem exists_lowers (he : g.entries[k]? = some e) :
    ∃ p, s.productions e.origin = some p ∧ Lowers s.productions source p e.form := by
  obtain ⟨e', p, he', hp, hlow, -⟩ := h.entry k e.origin (h.source_of_entry he)
  cases he.symm.trans he'
  exact ⟨p, hp, hlow⟩

/-- Each part of a node with a slot stands for a node with a slot. -/
theorem exists_slot (he : g.entries[k]? = some e) (hp : s.productions e.origin = some p) (hl : l ∈ p.parts)
    (hj : Resolves s.productions l j) : ∃ c ∈ e.form.children, source c = some j := by
  obtain ⟨p', hp', hlow⟩ := h.exists_lowers he
  cases hp.symm.trans hp'
  obtain ⟨c, hc, j', hs, hj'⟩ := hlow.exists_child hl
  obtain rfl := hj.unique ⟨hs, h.solid c j' hj'⟩
  exact ⟨c, hc, hj'⟩

/-- The nodes with slots are those that are left when no node is deferred. -/
theorem exists_origin_iff :
    (∃ (k : Slot) (e : Entry V K), g.entries[k]? = some e ∧ e.origin = n) ↔ Expands s.productions i n := by
  constructor
  · rintro ⟨k, e, he, rfl⟩
    have hk := h.source_of_entry he
    exact expands_iff.2 ⟨h.below k _ hk, h.solid k _ hk⟩
  · intro hn
    induction hn with
    | root hj =>
      obtain ⟨e, he, hroot⟩ := h.exists_root
      exact ⟨g.root, e, he, hroot.unique hj⟩
    | part _ hp hl hj ih =>
      obtain ⟨k, e, he, rfl⟩ := ih
      obtain ⟨c, -, hc⟩ := h.exists_slot he hp hl hj
      obtain ⟨e', p', he', -, -, hdesc⟩ := h.entry c _ hc
      exact ⟨c, e', he', hdesc.origin⟩

theorem lt_of_child (he : g.entries[k]? = some e) {c : Slot} (hc : c ∈ e.form.children) : c < g.size := by
  obtain ⟨p, -, hlow⟩ := h.exists_lowers he
  obtain ⟨j, hj⟩ := Option.isSome_iff_exists.1 (hlow.source_of_child hc)
  obtain ⟨e', p', he', -⟩ := h.entry c j hj
  exact (Array.getElem?_eq_some_iff.1 he').1

/-- Whenever a fact of the node of a slot is told, it is what the entry says. -/
theorem eq_of_told (hup : s'.Upholds s) (hi : Complete s.productions i) (he : g.entries[k]? = some e) {f : FactName}
    {v w : f.Carrier V K} (hv : e.fact? f = some v) (hw : Told s' s (.node e.origin) f w) : w = v := by
  have hb := h.below k _ (h.source_of_entry he)
  obtain ⟨t, ht, j, hj, hread⟩ := hw.exists_tells hup (lt_of_below hi hb)
  obtain rfl : e.origin = j := Option.some.inj hj.1
  have hentry := ht.reads (hi.below hb) ((h.holds k e he).reads f v hv)
  rw [hread.eq_value, hentry.eq_value]

end Lowered

/-- The table that comes of a grammar is the grammar: each node that is left when deferred nodes are replaced by those
they stand for has one slot, and no other node has any; the root is the slot of the node that the grammar resolves to.
The form of a slot is that of its node, with the slots of the parts for the parts; its facts are what is told of the
node whenever that is asked; and what is derived from the slot is what is derived from the node. -/
theorem validate_keeps_grammar (h : Reached s) (hr : s.HasRef r) (hval : validate held r s = .ok (.ok g) s') :
    ∃ i, s'.Realized r i ∧
      (∀ (k k' : Slot) (e e' : Entry V K), g.entries[k]? = some e → g.entries[k']? = some e' →
        e.origin = e'.origin → k = k') ∧
      (∀ n, (∃ (k : Slot) (e : Entry V K), g.entries[k]? = some e ∧ e.origin = n) ↔ Expands s'.productions i n) ∧
      (∃ e, g.entries[g.root]? = some e ∧ Resolves s'.productions i e.origin) ∧
      ∀ (k : Slot) (e : Entry V K), g.entries[k]? = some e →
        (∀ c ∈ e.form.children, c < g.size) ∧
        (∃ p, s'.productions e.origin = some p ∧
          Lowers s'.productions (fun c => g.entries[c]?.map (·.origin)) p e.form) ∧
        (Describes s'.productions e.origin e ∧
          ∀ f v w, e.fact? f = some v → Told s s' (.node e.origin) f w → w = v) ∧
        (∀ ks, Yields g.productions k ks ↔ Yields s'.productions e.origin ks) ∧
        ∀ ts v, Derives g.productions k ts v ↔ Derives s'.productions e.origin ts v := by
  obtain ⟨i, source, hup, hi, hlow, -⟩ := h.lowered hr hval
  have hsource := hlow.source_eq
  refine ⟨i, hi, fun k k' e e' he he' heq => ?_, fun n => hlow.exists_origin_iff, hlow.exists_root, fun k e he => ?_⟩
  · have hk' := hlow.source_of_entry he'
    rw [← heq] at hk'
    exact hlow.injective k k' _ (hlow.source_of_entry he) hk'
  have hstands : ∃ j, Stands s'.productions e.origin j ∧ source k = some j := ⟨_, .refl, hlow.source_of_entry he⟩
  refine ⟨fun c hc => hlow.lt_of_child he hc, hsource ▸ hlow.exists_lowers he, ⟨?_, fun f v w hv hw => ?_⟩,
    fun ks => hlow.toTabulates.yields_iff hstands, fun ts v => hlow.toTabulates.derives_iff hstands⟩
  · exact (hlow.holds k e he).describes hup.remembers
  · exact hlow.eq_of_told hup hi.2 he hv hw

/-- The nodes of the brackets have slots in this order, the root having the first one; its facts can be asked for. -/
def keepsNested (g : ValidGrammar (List Int64) Tag) (s : Store (List Int64) Tag) : Bool :=
  match first [.node 6] (.node 5) s, g.entries[g.root]? with
  | .ok _ _, some e => e.origin == 5 && g.entries.toList.map (·.origin) == [5, 3, 4, 0, 2, 1]
  | _, _ => false

/-- Of the seven nodes of the brackets all but the last have slots, which is deferred to the one with the first slot.
What may come first there is what is told of that node later. -/
theorem validate_keeps_nested : ∃ g s' i e ks s'', validate [] (.node 6) nestedStore = .ok (.ok g) s' ∧
    s'.Realized (.node 6) i ∧ (∀ n, Expands s'.productions i n ↔ n < 6) ∧ g.entries[g.root]? = some e ∧
    Resolves s'.productions i e.origin ∧ first [.node 6] (.node 5) s' = .ok ks s'' ∧ e.first = ks := by
  obtain ⟨g, s', hval, hp⟩ := exists_valid (s := nestedStore) [] (.node 6) keepsNested (by decide +kernel)
  unfold keepsNested at hp
  split at hp
  · rename_i ks s'' e hks he
    obtain ⟨hroot, horder⟩ := Bool.and_eq_true_iff.1 hp
    have horder : g.entries.toList.map (·.origin) = [5, 3, 4, 0, 2, 1] := beq_iff_eq.1 horder
    obtain ⟨i, hi, -, himage, ⟨e', he', hres⟩, hslots⟩ :=
      validate_keeps_grammar reached_nestedStore hasRef_nestedStore hval
    obtain rfl := Option.some.inj (he.symm.trans he')
    obtain ⟨-, -, ⟨-, htold⟩, -⟩ := hslots g.root e he
    refine ⟨g, s', i, e, ks, s'', hval, hi, fun n => ?_, he, hres, hks, ?_⟩
    · calc Expands s'.productions i n
          ↔ n ∈ g.entries.toList.map (·.origin) := by
            rw [← himage]
            simp [List.mem_iff_getElem?]
        _ ↔ n < 6 := by
            rw [horder]
            simp only [List.mem_cons, List.not_mem_nil, or_false]
            omega
    · rw [← beq_iff_eq.1 hroot] at hks
      exact (htold .first e.first ks rfl (.after .refl hks)).symm
  · cases hp

end Grammar
end Predictive
