import Predictive.Proofs.Parsing
import Predictive.Proofs.Grammar.Exactness

/-!
The table of a grammar without conflicts is lawful, and its slots derive what the nodes derive that they are given to.
-/
namespace Predictive

variable {V K : Type} {G : Productions V K} {i j i₀ : Nat} {k : Slot} {t : K} {ks : List K}

theorem has_of_stands {u : Trait K} (h : Stands G i j) (hu : Has G j u) : Has G i u := by
  induction h using Relation.ReflTransGen.head_induction_on with
  | refl => exact hu
  | head hd _ ih => exact .deferred hd ih

theorem derives_of_stands [Value V] {ts : List (K × V)} {v : V} (h : Stands G i j) (hd : Derives G j ts v) :
    Derives G i ts v := by
  induction h using Relation.ReflTransGen.head_induction_on with
  | refl => exact hd
  | head hd _ ih => exact .deferred hd ih

theorem yields_of_stands (h : Stands G i j) (hy : Yields G j ks) : Yields G i ks := by
  induction h using Relation.ReflTransGen.head_induction_on with
  | refl => exact hy
  | head hd _ ih => exact .deferred hd ih

theorem barred_of_stands (h : Stands G i j) (hb : Barred G j t) : Barred G i t := by
  induction h using Relation.ReflTransGen.head_induction_on with
  | refl => exact hb
  | head hd _ ih => exact .deferred hd ih

/-- Two productions say the same, one of them of slots, the other of the nodes that the slots are for. -/
inductive Production.Mirrors (names : Slot → Nat → Prop) : Production V K → Production V K → Prop
  | success {v} : Mirrors names (.success v) (.success v)
  | element {t : K} : Mirrors names (.element t) (.element t)
  | disjunction {a b l r} : names a l → names b r → Mirrors names (.disjunction a b) (.disjunction l r)
  | sequence {a b l r} : names a l → names b r → Mirrors names (.sequence a b) (.sequence l r)
  | transform {f a l} : names a l → Mirrors names (.transform f a) (.transform f l)

namespace Production.Mirrors

variable {names : Nat → Nat → Prop} {p q : Production V K}

theorem symm (h : q.Mirrors names p) : p.Mirrors (fun i k => names k i) q := by
  cases h with
  | success => exact .success
  | element => exact .element
  | disjunction hl hr => exact .disjunction hl hr
  | sequence hl hr => exact .sequence hl hr
  | transform hl => exact .transform hl

theorem gives {has has' : Nat → Trait K → Prop} {u : Trait K} (h : q.Mirrors names p)
    (hn : ∀ k i, names k i → ∀ u, has k u → has' i u) (hq : q.Gives has u) : p.Gives has' u := by
  cases h with
  | success => cases u <;> exact hq
  | element => cases u <;> exact hq
  | disjunction hl hr => exact hq.imp (hn _ _ hl u) (hn _ _ hr u)
  | sequence hl hr =>
    cases u with
    | startsWith t => exact hq.imp (And.imp (hn _ _ hr _) (hn _ _ hl _)) (And.imp (hn _ _ hl _) (hn _ _ hr _))
    | nullable | productive => exact hq.imp (hn _ _ hl _) (hn _ _ hr _)
  | transform hl => exact hn _ _ hl u hq

theorem exists_of_part (h : q.Mirrors names p) {k : Nat} (hk : k ∈ q.parts) : ∃ i, names k i := by
  cases h with
  | success | element => cases hk
  | disjunction hl hr | sequence hl hr =>
    simp only [parts, List.mem_cons, List.not_mem_nil, or_false] at hk
    rcases hk with rfl | rfl
    · exact ⟨_, hl⟩
    · exact ⟨_, hr⟩
  | transform hl =>
    obtain rfl := List.mem_singleton.1 hk
    exact ⟨_, hl⟩

theorem builds [Value V] {has has' : Nat → List (K × V) → V → Prop} {ts : List (K × V)} {v : V}
    (h : q.Mirrors names p) (hn : ∀ k i, names k i → ∀ us a, has k us a → has' i us a) (hq : q.Builds has ts v) :
    p.Builds has' ts v := by
  cases h with
  | success | element => exact hq
  | disjunction hl hr => exact hq.imp (hn _ _ hl ts v) (hn _ _ hr ts v)
  | sequence hl hr =>
    obtain ⟨us, ws, a, b, ha, hb, hts, hv⟩ := hq
    exact ⟨us, ws, a, b, hn _ _ hl us a ha, hn _ _ hr ws b hb, hts, hv⟩
  | transform hl =>
    obtain ⟨a, ha, hf⟩ := hq
    exact ⟨a, hn _ _ hl ts a ha, hf⟩

theorem spells {has has' : Nat → List K → Prop} (h : q.Mirrors names p)
    (hn : ∀ k i, names k i → ∀ js, has k js → has' i js) (hq : q.Spells has ks) : p.Spells has' ks := by
  cases h with
  | success | element => exact hq
  | disjunction hl hr => exact hq.imp (hn _ _ hl ks) (hn _ _ hr ks)
  | sequence hl hr =>
    obtain ⟨xs, ys, hx, hy, rfl⟩ := hq
    exact ⟨xs, ys, hn _ _ hl xs hx, hn _ _ hr ys hy, rfl⟩
  | transform hl => exact hn _ _ hl ks hq

end Production.Mirrors

/-- The slot `k` is that of the node which `i` stands for. -/
def Names (G : Productions V K) (node : Slot → Option Nat) (k : Slot) (i : Nat) : Prop :=
  ∃ j, Stands G i j ∧ node k = some j

theorem Lowers.mirrors {node : Slot → Option Nat} {p : Production V K} {form : Form V K} (h : Lowers G node p form) :
    form.production.Mirrors (Names G node) p := by
  cases h with
  | success => exact .success
  | element => exact .element
  | disjunction hl ha hr hb => exact .disjunction ⟨_, hl, ha⟩ ⟨_, hr, hb⟩
  | sequence hl ha hr hb => exact .sequence ⟨_, hl, ha⟩ ⟨_, hr, hb⟩
  | transform hl ha => exact .transform ⟨_, hl, ha⟩

namespace Grammar

variable [Value V] [Kind K] {g : ValidGrammar V K} {node : Slot → Option Nat}

namespace Tabulates

variable (h : Tabulates G i₀ g node)
include h

theorem mirrors (hk : node k = some i) :
    ∃ q p, g.productions k = some q ∧ G i = some p ∧ q.Mirrors (Names G node) p := by
  obtain ⟨e, p, he, hp, hlow, -⟩ := h.entry k i hk
  exact ⟨e.form.production, p, by simp [ValidGrammar.productions, he], hp, hlow.mirrors⟩

theorem mirrors_of_slot {q : Production V K} (hk : Names G node k i) (hq : g.productions k = some q) :
    ∃ j p, Stands G i j ∧ G j = some p ∧ q.Mirrors (Names G node) p := by
  obtain ⟨j, hs, hj⟩ := hk
  obtain ⟨q', p, hq', hp, hm⟩ := h.mirrors hj
  cases hq.symm.trans hq'
  exact ⟨j, p, hs, hp, hm⟩

/-- A node with a slot is deferred to one with the same slot, or the slot says what the node says. -/
theorem mirrors_of_node {p : Production V K} (hk : Names G node k i) (hp : G i = some p) :
    (∃ j, p = .deferred j ∧ Names G node k j) ∨
      ∃ q, g.productions k = some q ∧ p.Mirrors (fun i k => Names G node k i) q := by
  obtain ⟨j, hs, hj⟩ := hk
  cases hs using Relation.ReflTransGen.head_induction_on with
  | refl =>
    obtain ⟨q, p', hq, hp', hm⟩ := h.mirrors hj
    cases hp.symm.trans hp'
    exact .inr ⟨q, hq, hm.symm⟩
  | head hd hs =>
    cases hp.symm.trans hd
    exact .inl ⟨_, rfl, j, hs, hj⟩

/-- The slots have the traits of the nodes. -/
theorem has_iff {u : Trait K} (hk : Names G node k i) : Has g.productions k u ↔ Has G i u := by
  constructor
  · intro hu
    refine Has.induct (motive := fun k u => ∀ i, Names G node k i → Has G i u) ?_ hu i hk
    intro k q u hq hg i hk
    obtain ⟨j, p, hs, hp, hm⟩ := h.mirrors_of_slot hk hq
    exact has_of_stands hs (has_of_gives hp (hm.gives (fun _ i hi _ ih => ih.2 i hi) hg))
  · intro hu
    refine Has.induct (motive := fun i u => ∀ k, Names G node k i → Has g.productions k u) ?_ hu k hk
    intro i p u hp hg k hk
    rcases h.mirrors_of_node hk hp with ⟨j, rfl, hj⟩ | ⟨q, hq, hm⟩
    · exact hg.2 k hj
    · exact has_of_gives hq (hm.gives (fun _ k hk _ ih => ih.2 k hk) hg)

/-- The slots derive what the nodes derive. -/
theorem derives_iff {ts : List (K × V)} {v : V} (hk : Names G node k i) :
    Derives g.productions k ts v ↔ Derives G i ts v := by
  constructor
  · intro hd
    refine Derives.induct (motive := fun k ts v => ∀ i, Names G node k i → Derives G i ts v) ?_ hd i hk
    intro k q ts v hq hg i hk
    obtain ⟨j, p, hs, hp, hm⟩ := h.mirrors_of_slot hk hq
    have hbuild := hm.builds (fun _ i hi _ _ ih => ih.2 i hi) hg
    exact derives_of_stands hs ((Predictive.derives_iff hp).2 hbuild)
  · intro hd
    refine Derives.induct (motive := fun i ts v => ∀ k, Names G node k i → Derives g.productions k ts v) ?_ hd k hk
    intro i p ts v hp hg k hk
    rcases h.mirrors_of_node hk hp with ⟨j, rfl, hj⟩ | ⟨q, hq, hm⟩
    · exact hg.2 k hj
    · have hbuild := hm.builds (fun _ k hk _ _ ih => ih.2 k hk) hg
      exact (Predictive.derives_iff hq).2 hbuild

/-- The slots yield what the nodes yield. -/
theorem yields_iff (hk : Names G node k i) : Yields g.productions k ks ↔ Yields G i ks := by
  constructor
  · intro hy
    refine Yields.induct (motive := fun k ks => ∀ i, Names G node k i → Yields G i ks) ?_ hy i hk
    intro k q ks hq hg i hk
    obtain ⟨j, p, hs, hp, hm⟩ := h.mirrors_of_slot hk hq
    have hspell := hm.spells (fun _ i hi _ ih => ih.2 i hi) hg
    exact yields_of_stands hs ((Predictive.yields_iff hp).2 hspell)
  · intro hy
    refine Yields.induct (motive := fun i ks => ∀ k, Names G node k i → Yields g.productions k ks) ?_ hy k hk
    intro i p ks hp hg k hk
    rcases h.mirrors_of_node hk hp with ⟨j, rfl, hj⟩ | ⟨q, hq, hm⟩
    · exact hg.2 k hj
    · have hspell := hm.spells (fun _ k hk _ ih => ih.2 k hk) hg
      exact (Predictive.yields_iff hq).2 hspell

theorem starts_iff (hk : Names G node k i) : Starts g.productions k t ↔ Starts G i t := by
  rw [← has_startsWith_iff, h.has_iff hk, has_startsWith_iff]

theorem nullable_iff (hk : Names G node k i) : Nullable g.productions k ↔ Nullable G i := by
  rw [← has_nullable_iff, h.has_iff hk, has_nullable_iff]

theorem productive_iff (hk : Names G node k i) : Productive g.productions k ↔ Productive G i := by
  rw [← has_productive_iff, h.has_iff hk, has_productive_iff]

/-- What may not follow a slot may not follow the node. -/
theorem barred (hb : Barred g.productions k t) (hk : Names G node k i) : Barred G i t := by
  induction hb generalizing i with
  | ofRight hq hn hs =>
    obtain ⟨j, p, hj, hp, hm⟩ := h.mirrors_of_slot hk hq
    cases hm with
    | disjunction hl hr => exact barred_of_stands hj (.ofRight hp ((h.nullable_iff hl).1 hn) ((h.starts_iff hr).1 hs))
  | ofLeft hq hn hs =>
    obtain ⟨j, p, hj, hp, hm⟩ := h.mirrors_of_slot hk hq
    cases hm with
    | disjunction hl hr => exact barred_of_stands hj (.ofLeft hp ((h.nullable_iff hr).1 hn) ((h.starts_iff hl).1 hs))
  | inLeft hq _ ih =>
    obtain ⟨j, p, hj, hp, hm⟩ := h.mirrors_of_slot hk hq
    cases hm with
    | disjunction hl hr => exact barred_of_stands hj (.inLeft hp (ih hl))
  | inRight hq _ ih =>
    obtain ⟨j, p, hj, hp, hm⟩ := h.mirrors_of_slot hk hq
    cases hm with
    | disjunction hl hr => exact barred_of_stands hj (.inRight hp (ih hr))
  | first hq hn _ ih =>
    obtain ⟨j, p, hj, hp, hm⟩ := h.mirrors_of_slot hk hq
    cases hm with
    | sequence hl hr => exact barred_of_stands hj (.first hp ((h.nullable_iff hr).1 hn) (ih hl))
  | second hq hn _ ih =>
    obtain ⟨j, p, hj, hp, hm⟩ := h.mirrors_of_slot hk hq
    cases hm with
    | sequence hl hr => exact barred_of_stands hj (.second hp ((h.productive_iff hl).1 hn) (ih hr))
  | transform hq _ ih =>
    obtain ⟨j, p, hj, hp, hm⟩ := h.mirrors_of_slot hk hq
    cases hm with
    | transform hl => exact barred_of_stands hj (.transform hp (ih hl))
  | deferred hq =>
    obtain ⟨j, p, hj, hp, hm⟩ := h.mirrors_of_slot hk hq
    cases hm

theorem clashAt (hk : node k = some i) (hc : ClashAt g.productions k) : ClashAt G i := by
  obtain ⟨q, p, hq, hp, hm⟩ := h.mirrors hk
  cases hc with
  | bothEmpty hq' hl hr =>
    cases hq.symm.trans hq'
    cases hm with
    | disjunction ha hb => exact .bothEmpty hp ((h.nullable_iff ha).1 hl) ((h.nullable_iff hb).1 hr)
  | firstFirst hq' hl hr =>
    cases hq.symm.trans hq'
    cases hm with
    | disjunction ha hb => exact .firstFirst hp ((h.starts_iff ha).1 hl) ((h.starts_iff hb).1 hr)
  | follow hq' hl hr =>
    cases hq.symm.trans hq'
    cases hm with
    | sequence ha hb => exact .follow hp (h.barred hl ha) ((h.starts_iff hb).1 hr)

/-- The table of a grammar without conflicts is lawful. -/
theorem lawful (hclash : ∀ j, Below G i₀ j → ¬ClashAt G j) : g.Lawful := by
  have hentry : ∀ (s : Slot) (e : Entry V K), g.entries[s]? = some e → ∃ i, node s = some i ∧ Describes G i e := by
    intro s e he
    obtain ⟨i, hi⟩ := h.node s e he
    obtain ⟨e', p, he', -, -, hdesc⟩ := h.entry s i hi
    obtain rfl := Option.some.inj (he.symm.trans he')
    exact ⟨i, hi, hdesc⟩
  have hlt : ∀ s i, node s = some i → s < g.size := by
    intro s i hi
    obtain ⟨e, p, he, -⟩ := h.entry s i hi
    exact (Array.getElem?_eq_some_iff.1 he).1
  refine ⟨?_, fun s e he c hc => ?_, fun s e he t => ?_, fun s e he => ?_, fun s e v he hv => ?_, fun s hc => ?_⟩
  · obtain ⟨i, -, hi⟩ := h.root
    exact hlt _ i hi
  · obtain ⟨i, hi, -⟩ := hentry s e he
    obtain ⟨q, p, hq, -, hm⟩ := h.mirrors hi
    have hprod : g.productions s = some e.form.production := by simp [ValidGrammar.productions, he]
    cases hq.symm.trans hprod
    obtain ⟨n, j, -, hj⟩ := hm.exists_of_part (e.form.parts_production ▸ hc)
    exact hlt c j hj
  · obtain ⟨i, hi, hdesc⟩ := hentry s e he
    exact (hdesc.first t).trans (h.starts_iff ⟨i, .refl, hi⟩).symm
  · obtain ⟨i, hi, hdesc⟩ := hentry s e he
    exact hdesc.emptyValue.1.trans (h.nullable_iff ⟨i, .refl, hi⟩).symm
  · obtain ⟨i, hi, hdesc⟩ := hentry s e he
    exact (h.derives_iff ⟨i, .refl, hi⟩).2 (hdesc.emptyValue.2 v hv)
  · obtain ⟨e, he, -⟩ := ValidGrammar.exists_entry (ValidGrammar.productions_isSome_iff.1 hc.isSome)
    obtain ⟨i, hi, -⟩ := hentry s e he
    exact hclash i (h.below s i hi) (h.clashAt hi hc)

end Tabulates

open Store

variable {s s' : Store V K} {r : Ref} {held : List Ref}

/-- A table comes of a grammar below which one token decides everywhere. -/
theorem Reached.lowered (h : Reached s) (hr : s.HasRef r) (hval : validate held r s = .ok (.ok g) s') :
    ∃ i source, s.Upholds s' ∧ s'.Realized r i ∧ Lowered s' i g source ∧
      ∀ j, Below s'.productions i j → ¬ClashAt s'.productions j := by
  obtain ⟨hv, hm⟩ := h.sane
  obtain ⟨h', i, hi, hj⟩ := (validate_upholds hv hm held hr).of_ok hval
  obtain ⟨-, source, hlow⟩ := id hj
  refine ⟨i, source, h', hi, hlow, fun j hb hc => ?_⟩
  obtain ⟨e, he⟩ := hj.ok_iff.2 ⟨j, hb, hc⟩
  cases he

/-- After any calls, a table that comes of a grammar accepts the token lists that the grammar derives, each of them with
the values of its derivations. -/
theorem parse_iff_derives (h : Reached s) (hr : s.HasRef r) (hval : validate held r s = .ok (.ok g) s') :
    ∃ i, s'.Realized r i ∧ ∀ ts v, g.parse .unbounded ts = .ok v ↔ Derives s'.productions i ts v := by
  obtain ⟨hv, hm⟩ := h.sane
  obtain ⟨-, i, hi, hj⟩ := (validate_upholds hv hm held hr).of_ok hval
  have hclash : ∀ j, Below s'.productions i j → ¬ClashAt s'.productions j := by
    intro j hb hc
    obtain ⟨e, he⟩ := hj.ok_iff.2 ⟨j, hb, hc⟩
    cases he
  obtain ⟨-, node, htab⟩ := hj
  refine ⟨i, hi, fun ts v => ?_⟩
  rw [(htab.lawful hclash).parse_iff]
  exact htab.derives_iff htab.root

/-- Any number of brackets around nothing. -/
def nested : Expr (List Int64) Tag :=
  .recursive "p" (.disjunction (.sequence (.element .opening) (.sequence (.name "p") (.element .closing))) (.success [0]))

theorem derives_nested : ∃ g s' i, validate [] (.node 6) ((Call.evaluate [] {} nested).after {}) = .ok (.ok g) s' ∧
    s'.Realized (.node 6) i ∧ Derives s'.productions i [(Tag.opening, [1]), (.closing, [2])] [1, 0, 2] ∧
    ∀ v, ¬Derives s'.productions i [(Tag.opening, [1])] v := by
  have hreached : Reached ((Call.evaluate [] {} nested).after {}) := .call _ .refl (by simp [Call.refs, Scope.refs])
  have href : ((Call.evaluate [] {} nested).after {}).HasRef (.node 6) :=
    (by decide +kernel : 6 < ((Call.evaluate [] {} nested).after {}).nodes.size)
  obtain ⟨g, s', hv, hp⟩ := exists_valid (s := (Call.evaluate [] {} nested).after {}) [] (.node 6)
    (fun g _ => (g.parse .unbounded [(.opening, [1]), (.closing, [2])]).toOption == some [1, 0, 2] &&
      !(g.parse .unbounded [(.opening, [1])]).toBool) (by decide +kernel)
  obtain ⟨i, hi, hiff⟩ := parse_iff_derives hreached href hv
  obtain ⟨hok, herr⟩ := Bool.and_eq_true_iff.1 hp
  refine ⟨g, s', i, hv, hi, (hiff _ _).1 (eq_ok_of_toOption (beq_iff_eq.1 hok)), fun v hd => ?_⟩
  rw [(hiff _ _).2 hd] at herr
  cases herr

end Grammar
end Predictive
