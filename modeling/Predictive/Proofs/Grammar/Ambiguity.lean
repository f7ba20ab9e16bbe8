import Predictive.Proofs.Grammar.Table

/-!
Where one token decides everywhere below a node, each of its words can be read in one way only, and has one value.
-/
namespace Predictive

/-- How a word is read: the side taken at each disjunction, and where it is cut at each sequence. -/
inductive Tree where
  | leaf
  | left (t : Tree)
  | right (t : Tree)
  | sequence (cut : Nat) (first second : Tree)
  | through (t : Tree)

variable {V K : Type}

/-- The word `ks` is read at the node `i` as the tree says. -/
inductive Tree.Spans (G : Productions V K) : Tree → Nat → List K → Prop
  | success {i v} : G i = some (.success v) → Spans G leaf i []
  | element {i k} : G i = some (.element k) → Spans G leaf i [k]
  | left {i l r t ks} : G i = some (.disjunction l r) → Spans G t l ks → Spans G (left t) i ks
  | right {i l r t ks} : G i = some (.disjunction l r) → Spans G t r ks → Spans G (right t) i ks
  | sequence {i l r t u ks js} : G i = some (.sequence l r) → Spans G t l ks → Spans G u r js →
      Spans G (sequence ks.length t u) i (ks ++ js)
  | transform {i f j t ks} : G i = some (.transform f j) → Spans G t j ks → Spans G (through t) i ks
  | deferred {i j t ks} : G i = some (.deferred j) → Spans G t j ks → Spans G (through t) i ks

/-- The word `ks` comes of parts that are read as the parts of the tree say. -/
def Production.SpellsBy (reads : Tree → Nat → List K → Prop) : Production V K → Tree → List K → Prop
  | success _, .leaf, ks => ks = []
  | element k, .leaf, ks => ks = [k]
  | disjunction l _, .left t, ks => reads t l ks
  | disjunction _ r, .right t, ks => reads t r ks
  | sequence l r, .sequence n t u, ks => ∃ xs ys, reads t l xs ∧ reads u r ys ∧ ks = xs ++ ys ∧ n = xs.length
  | transform _ j, .through t, ks | deferred j, .through t, ks => reads t j ks
  | _, _, _ => False

variable {G H : Productions V K} {i j l r : Nat} {k : K} {p : Production V K} {ks js as bs cs ds : List K} {t u : Tree}

theorem Tree.Spans.spellsBy (h : t.Spans G i ks) (hi : G i = some p) : p.SpellsBy (Tree.Spans G) t ks := by
  cases h with
  | success h | element h =>
    cases h.symm.trans hi
    rfl
  | left h ht | right h ht | transform h ht | deferred h ht =>
    cases h.symm.trans hi
    exact ht
  | sequence h ht hu =>
    cases h.symm.trans hi
    exact ⟨_, _, ht, hu, rfl, rfl⟩

theorem Tree.Spans.yields (h : t.Spans G i ks) : Yields G i ks := by
  induction h with
  | success h => exact .success h
  | element h => exact .element h
  | left h _ ih => exact .left h ih
  | right h _ ih => exact .right h ih
  | sequence h _ _ ihl ihr => exact .sequence h ihl ihr
  | transform h _ ih => exact .transform h ih
  | deferred h _ ih => exact .deferred h ih

theorem Yields.exists_spans (h : Yields G i ks) : ∃ t : Tree, t.Spans G i ks := by
  induction h with
  | success h => exact ⟨_, .success h⟩
  | element h => exact ⟨_, .element h⟩
  | left h _ ih => exact ih.imp' _ fun _ => .left h
  | right h _ ih => exact ih.imp' _ fun _ => .right h
  | sequence h _ _ ihl ihr =>
    obtain ⟨t, ht⟩ := ihl
    obtain ⟨u, hu⟩ := ihr
    exact ⟨_, .sequence h ht hu⟩
  | transform h _ ih => exact ih.imp' _ fun _ => .transform h
  | deferred h _ ih => exact ih.imp' _ fun _ => .deferred h

/-- One token decides at every node below `i`. -/
def DecidedFrom (G : Productions V K) (i : Nat) : Prop := ∀ j, Below G i j → ¬ClashAt G j

/-- One of the words is the other with more behind it, which starts with `k`. -/
def Outruns (k : K) (ks js : List K) : Prop := ∃ ys, js = ks ++ k :: ys ∨ ks = js ++ k :: ys

theorem Outruns.symm (h : Outruns k ks js) : Outruns k js ks := h.imp fun _ => Or.symm

/-- Two cuts of one word are the same, unless one of them is earlier and the second part goes on from there. -/
theorem eq_or_outruns_of_append_eq (h : as ++ bs = cs ++ ds) :
    (as = cs ∧ bs = ds) ∨ ∃ m, Outruns m as cs ∧ ∃ es, bs = m :: es ∨ ds = m :: es := by
  rcases List.append_eq_append_iff.1 h with ⟨es, hc, hb⟩ | ⟨es, ha, hd⟩
  · cases es with
    | nil => exact .inl ⟨by simpa using hc.symm, hb⟩
    | cons m es => exact .inr ⟨m, ⟨es, .inl hc⟩, es ++ ds, .inl hb⟩
  · cases es with
    | nil => exact .inl ⟨by simpa using ha, hd.symm⟩
    | cons m es => exact .inr ⟨m, ⟨es, .inr ha⟩, es ++ bs, .inr hd⟩

/-- Where one word outruns another, so do their second parts, or already their first parts: then a second part goes on
from there, or is empty and leaves it to what comes behind. -/
theorem outruns_append (h : Outruns k (as ++ bs) (cs ++ ds)) :
    (as = cs ∧ Outruns k bs ds) ∨ ∃ m, Outruns m as cs ∧
      ((∃ es, bs = m :: es ∨ ds = m :: es) ∨ m = k ∧ (bs = [] ∨ ds = [])) := by
  have hword : ∀ {as bs cs ds ys : List K}, cs ++ ds = as ++ bs ++ k :: ys → (as = cs ∧ Outruns k bs ds) ∨
      ∃ m, Outruns m as cs ∧ ((∃ es, bs = m :: es ∨ ds = m :: es) ∨ m = k ∧ (bs = [] ∨ ds = [])) := by
    intro as bs cs ds ys h
    rw [List.append_assoc] at h
    rcases eq_or_outruns_of_append_eq h.symm with ⟨hc, hd⟩ | ⟨m, hm, es, hb | hd⟩
    · exact .inl ⟨hc, ys, .inl hd.symm⟩
    · cases bs with
      | nil => exact .inr ⟨m, hm, .inr ⟨(List.cons.inj hb).1.symm, .inl rfl⟩⟩
      | cons b bs => exact .inr ⟨m, hm, .inl ⟨bs, .inl (by rw [(List.cons.inj hb).1])⟩⟩
    · exact .inr ⟨m, hm, .inl ⟨es, .inr hd⟩⟩
  obtain ⟨ys, h | h⟩ := h
  · exact hword h
  · rcases hword h with ⟨rfl, ho⟩ | ⟨m, hm, hend⟩
    · exact .inl ⟨rfl, ho.symm⟩
    · exact .inr ⟨m, hm.symm, hend.imp (Exists.imp fun _ => Or.symm) (And.imp_right Or.symm)⟩

namespace DecidedFrom

theorem part (h : DecidedFrom G i) (hi : G i = some p) (hj : j ∈ p.parts) : DecidedFrom G j :=
  fun n hn => h n ((Below.part hi hj).trans hn)

/-- The sides of a disjunction have no word in common. -/
theorem not_both (h : DecidedFrom G i) (hi : G i = some (.disjunction l r)) (hl : Yields G l ks) (hr : Yields G r ks) :
    False := by
  cases ks with
  | nil => exact h i .refl (.bothEmpty hi hl hr)
  | cons k ks => exact h i .refl (.firstFirst hi ⟨ks, hl⟩ ⟨ks, hr⟩)

/-- A word of one side of a disjunction outruns one of the other only if that is empty. -/
theorem barred_of_sides (h : DecidedFrom G i) (hi : G i = some (.disjunction l r)) (hl : Yields G l ks)
    (hr : Yields G r js) (ho : Outruns k ks js) : Barred G i k := by
  obtain ⟨ys, rfl | rfl⟩ := ho
  · cases ks with
    | nil => exact .ofRight hi hl ⟨ys, hr⟩
    | cons m ks => exact (h i .refl (.firstFirst hi ⟨ks, hl⟩ ⟨_, hr⟩)).elim
  · cases js with
    | nil => exact .ofLeft hi hr ⟨ys, hl⟩
    | cons m js => exact (h i .refl (.firstFirst hi ⟨_, hl⟩ ⟨js, hr⟩)).elim

/-- A node goes on behind one of its words with a kind that is barred behind it. -/
theorem barred_of_outruns (h : DecidedFrom G i) (hk : Yields G i ks) (hj : Yields G i js) (ho : Outruns k ks js) :
    Barred G i k := by
  induction hk generalizing js k with
  | success hi | element hi =>
    cases ((yields_iff hi).1 hj : js = _)
    simp [Outruns] at ho
  | @left i l r ks hi hl ih =>
    rcases ((yields_iff hi).1 hj : _ ∨ _) with hj | hr
    · exact .inLeft hi (ih (h.part hi (by simp [Production.parts])) hj ho)
    · exact h.barred_of_sides hi hl hr ho
  | @right i l r ks hi hr ih =>
    rcases ((yields_iff hi).1 hj : _ ∨ _) with hl | hj
    · exact h.barred_of_sides hi hl hr ho.symm
    · exact .inRight hi (ih (h.part hi (by simp [Production.parts])) hj ho)
  | @sequence i l r as bs hi hl hr ihl ihr =>
    obtain ⟨cs, ds, hc, hd, rfl⟩ := (yields_iff hi).1 hj
    rcases outruns_append ho with ⟨rfl, ho'⟩ | ⟨m, hm, hend⟩
    · exact .second hi ⟨as, hl⟩ (ihr (h.part hi (by simp [Production.parts])) hd ho')
    have hbarred := ihl (h.part hi (by simp [Production.parts])) hc hm
    rcases hend with ⟨es, rfl | rfl⟩ | ⟨rfl, rfl | rfl⟩
    · exact (h i .refl (.follow hi hbarred ⟨es, hr⟩)).elim
    · exact (h i .refl (.follow hi hbarred ⟨es, hd⟩)).elim
    · exact .first hi hr hbarred
    · exact .first hi hd hbarred
  | transform hi _ ih => exact .transform hi (ih (h.part hi (by simp [Production.parts])) ((yields_iff hi).1 hj) ho)
  | deferred hi _ ih => exact .deferred hi (ih (h.part hi (by simp [Production.parts])) ((yields_iff hi).1 hj) ho)

/-- A word of a sequence is cut in one place only. -/
theorem cut_unique (h : DecidedFrom G i) (hi : G i = some (.sequence l r)) (hl : Yields G l as) (hr : Yields G r bs)
    (hl' : Yields G l cs) (hr' : Yields G r ds) (heq : as ++ bs = cs ++ ds) : as = cs ∧ bs = ds := by
  rcases eq_or_outruns_of_append_eq heq with hcut | ⟨m, hm, es, hm'⟩
  · exact hcut
  have hbarred := (h.part hi (by simp [Production.parts])).barred_of_outruns hl hl' hm
  rcases hm' with rfl | rfl
  · exact (h i .refl (.follow hi hbarred ⟨es, hr⟩)).elim
  · exact (h i .refl (.follow hi hbarred ⟨es, hr'⟩)).elim

/-- A word is read in one way only. -/
theorem tree_unique (h : DecidedFrom G i) (ht : t.Spans G i ks) (hu : u.Spans G i ks) : t = u := by
  induction ht generalizing u with
  | success hi | element hi =>
    have hu := hu.spellsBy hi
    cases u <;> first | rfl | exact hu.elim
  | @left i l r t ks hi ht ih =>
    have hu := hu.spellsBy hi
    cases u with
    | left u => rw [ih (h.part hi (by simp [Production.parts])) hu]
    | right u => exact (h.not_both hi ht.yields (Tree.Spans.yields hu)).elim
    | _ => exact hu.elim
  | @right i l r t ks hi ht ih =>
    have hu := hu.spellsBy hi
    cases u with
    | left u => exact (h.not_both hi (Tree.Spans.yields hu) ht.yields).elim
    | right u => rw [ih (h.part hi (by simp [Production.parts])) hu]
    | _ => exact hu.elim
  | @sequence i l r t t' ks js hi ht ht' ihl ihr =>
    have hu := hu.spellsBy hi
    cases u with
    | sequence n u u' =>
      obtain ⟨xs, ys, hfirst, hsecond, heq, rfl⟩ := hu
      obtain ⟨rfl, rfl⟩ := h.cut_unique hi ht.yields ht'.yields hfirst.yields hsecond.yields heq
      rw [ihl (h.part hi (by simp [Production.parts])) hfirst, ihr (h.part hi (by simp [Production.parts])) hsecond]
    | _ => exact hu.elim
  | transform hi _ ih | deferred hi _ ih =>
    have hu := hu.spellsBy hi
    cases u with
    | through u => rw [ih (h.part hi (by simp [Production.parts])) hu]
    | _ => exact hu.elim

/-- A token list has one value only. -/
theorem value_unique [Value V] {ts : List (K × V)} {v w : V} (h : DecidedFrom G i) (hv : Derives G i ts v)
    (hw : Derives G i ts w) : v = w := by
  induction hv generalizing w with
  | success hi => exact ((derives_iff hi).1 hw).2.symm
  | element hi =>
    cases ((derives_iff hi).1 hw : _ = _)
    rfl
  | left hi hl ih =>
    rcases (derives_iff hi).1 hw with hw | hr
    · exact ih (h.part hi (by simp [Production.parts])) hw
    · exact (h.not_both hi hl.yields hr.yields).elim
  | right hi hr ih =>
    rcases (derives_iff hi).1 hw with hl | hw
    · exact (h.not_both hi hl.yields hr.yields).elim
    · exact ih (h.part hi (by simp [Production.parts])) hw
  | sequence hi hl hr ihl ihr =>
    obtain ⟨us, ws, a, b, ha, hb, heq, rfl⟩ := (derives_iff hi).1 hw
    have hkinds := congrArg (List.map Prod.fst) heq
    rw [List.map_append, List.map_append] at hkinds
    have hcut := (h.cut_unique hi hl.yields hr.yields ha.yields hb.yields hkinds).1
    obtain ⟨rfl, rfl⟩ := List.append_inj heq (by simpa using congrArg List.length hcut)
    rw [ihl (h.part hi (by simp [Production.parts])) ha, ihr (h.part hi (by simp [Production.parts])) hb]
  | transform hi _ hf ih =>
    obtain ⟨a, ha, hf'⟩ := (derives_iff hi).1 hw
    rw [ih (h.part hi (by simp [Production.parts])) ha] at hf
    exact Except.ok.inj (hf.symm.trans hf')
  | deferred hi _ ih => exact ih (h.part hi (by simp [Production.parts])) ((derives_iff hi).1 hw)

end DecidedFrom

/-- A complete system derives no more when it says more elsewhere. -/
theorem Complete.derives [Value V] {ts : List (K × V)} {v : V} (hc : Complete G i) (e : Extends G H)
    (h : Derives H i ts v) : Derives G i ts v := by
  refine h.induct (motive := fun i ts v => Complete G i → Derives G i ts v) ?_ hc
  intro i p ts v hp hbuilds hc
  obtain ⟨q, hq⟩ := Option.isSome_iff_exists.1 (hc i .refl)
  obtain rfl := Option.some.inj ((e hq).symm.trans hp)
  exact (derives_iff hq).2 (Production.Builds.mono hbuilds fun j hj us a hd => hd.2 (hc.part hq hj))

namespace Grammar

open Store

variable [Kind K] [Value V] {s s' : Store V K} {r : Ref} {held : List Ref} {cs : FinSet (Conflict K)}

/-- If no conflicts are reported, after any calls, then at each node below the grammar a word is read in one way only,
and token lists have one value at most, which for the empty one is the value that is told then. -/
theorem conflictFree_unambiguous (h : Reached s) (hr : s.HasRef r) (hcs : conflicts held r s = .ok cs s')
    (hfree : cs.isEmpty = true) : ∃ i, s'.Realized r i ∧ ∀ j, Below s'.productions i j →
      (∀ ks, Yields s'.productions j ks ↔ ∃ t : Tree, t.Spans s'.productions j ks) ∧
      (∀ ks (t u : Tree), t.Spans s'.productions j ks → u.Spans s'.productions j ks → t = u) ∧
      (∀ ts v w, Derives s'.productions j ts v → Derives s'.productions j ts w → v = w) ∧
      ∀ s₁ held₁ a s₂, Later s' s₁ → emptyValue held₁ (.node j) s₁ = .ok (some a) s₂ →
        ∀ w, Derives s'.productions j [] w ↔ w = a := by
  obtain ⟨hv, hm⟩ := h.sane
  obtain ⟨h', i, hi, hread⟩ := (fact_upholds hv hm held .conflicts hr).of_ok hcs
  have hcorrect : Correct s'.productions i .conflicts cs := hread.correct h'.remembers
  have hdecided : DecidedFrom s'.productions i := by
    intro j hb hclash
    obtain ⟨c, hc⟩ := exists_exactConflict hb hclash
    have hmem := hcorrect.1 c hc
    rw [FinSet.eq_empty_of_isEmpty hfree] at hmem
    exact FinSet.not_mem_empty hmem
  refine ⟨i, hi, fun j hb => ?_⟩
  have hj : DecidedFrom s'.productions j := fun n hn => hdecided n (hb.trans hn)
  refine ⟨fun ks => ⟨Yields.exists_spans, fun ⟨t, ht⟩ => ht.yields⟩, fun ks t u => hj.tree_unique,
    fun ts v w => hj.value_unique, fun s₁ held₁ a s₂ hlater ha w => ?_⟩
  -- the node is there in every later store, and derives the same
  have h₁ := hlater.upholds h'.valid h'.remembers
  have hnode : s₁.HasRef (.node j) := Nat.lt_of_lt_of_le (lt_of_below hi.2 hb) h₁.size_le
  obtain ⟨h₂, n, hn, hread₂⟩ := (fact_upholds h₁.valid h₁.remembers held₁ .emptyValue hnode).of_ok ha
  obtain rfl : n = j := Option.some.inj hn.1.symm
  have hvalue : Derives s'.productions n [] a :=
    (hi.2.below hb).derives (h₁.trans h₂).extends ((hread₂.correct h₂.remembers).2 a rfl)
  exact ⟨fun hw => hj.value_unique hw hvalue, fun hw => hw ▸ hvalue⟩

/-- The brackets have been made. -/
def nestedStore : Store (List Int64) Tag := (Call.evaluate [] {} nested).after {}

theorem reached_nestedStore : Reached nestedStore := .call _ .refl (by simp [Call.refs, Scope.refs])

theorem hasRef_nestedStore : nestedStore.HasRef (.node 6) := (by decide +kernel : 6 < nestedStore.nodes.size)

/-- The nodes of the brackets are where they were made. -/
def Store.isNested (s : Store (List Int64) Tag) : Bool :=
  match s.productions 0, s.productions 1, s.productions 2, s.productions 3 with
  | some (.element .opening), some (.element .closing), some (.sequence 6 1), some (.sequence 0 2) =>
    match s.productions 4, s.productions 5, s.productions 6 with
    | some (.success _), some (.disjunction 3 4), some (.deferred 5) => true
    | _, _, _ => false
  | _, _, _, _ => false

/-- Brackets around nothing are read in one way. -/
theorem conflictFree_nested : ∃ cs s', conflicts [] (.node 6) nestedStore = .ok cs s' ∧ cs.isEmpty = true ∧
    ∃! t : Tree, t.Spans s'.productions 6 [Tag.opening, .closing] := by
  obtain ⟨cs, s', hcs, hp⟩ := exists_ok (s := nestedStore) (w := conflicts [] (.node 6))
    (fun cs s' => (cs : FinSet (Conflict Tag)).isEmpty && s'.isNested) (by decide +kernel)
  obtain ⟨hfree, hp⟩ := Bool.and_eq_true_iff.1 hp
  obtain ⟨i, hi, hbelow⟩ := conflictFree_unambiguous reached_nestedStore hasRef_nestedStore hcs hfree
  obtain ⟨-, hunique, -⟩ := hbelow i .refl
  cases hi.1
  unfold Store.isNested at hp
  split at hp
  · rename_i h0 h1 h2 h3
    split at hp
    · rename_i h4 h5 h6
      have hinner : (Tree.through (.right .leaf)).Spans s'.productions 6 [] := .deferred h6 (.right h5 (.success h4))
      have hrest : (Tree.sequence 0 _ .leaf).Spans s'.productions 2 [Tag.closing] := .sequence h2 hinner (.element h1)
      have houter := Tree.Spans.deferred h6 (.left h5 (.sequence h3 (.element h0) hrest))
      exact ⟨cs, s', hcs, hfree, _, houter, fun u hu => hunique _ _ _ hu houter⟩
    · cases hp
  · cases hp

end Grammar
end Predictive
