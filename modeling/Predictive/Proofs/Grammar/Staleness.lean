import Predictive.Proofs.Lookahead
import Predictive.Proofs.Grammar.Exactness

/-!
What restrictions and conflicts are reported, whatever was done before: all exact ones, and perhaps others that were
made of too few kinds and have been carried round in a circle since.
-/
namespace Predictive.Grammar

open Store
open Solver (Cell Family)

variable {V K : Type} [Kind K] {i : Nat}

/-- Nothing that restricts a node below `i` comes back to it. -/
def CarriesStraight (G : Productions V K) (i : Nat) : Prop :=
  ∀ j, Relation.ReflTransGen (Carries G) i j → ¬Relation.TransGen (Carries G) j j

/-- No node below `i` is below one of its parts. -/
def Straight (G : Productions V K) (i : Nat) : Prop :=
  ∀ j p n, Below G i j → G j = some p → n ∈ p.parts → ¬Below G n j

theorem exactConflict_firstFirst_unique {G : Productions V K} {d : NodeId} {ks ks' : FinSet K}
    (h : ExactConflict G i (.firstFirstClash d ks)) (h' : ExactConflict G i (.firstFirstClash d ks')) : ks = ks' := by
  obtain ⟨l, r, -, hd, -, hks⟩ := h
  obtain ⟨l', r', -, hd', -, hks'⟩ := h'
  cases hd.symm.trans hd'
  exact FinSet.ext fun k => (hks k).trans (hks' k).symm

variable [Value V] {s s' : Store V K} {r : Ref} {held : List Ref}

/-- The first three facts of all nodes below `i` are known, and restrictions and conflicts were not looked at there. -/
structure Store.Unread (s : Store V K) (i : Nat) : Prop where
  complete : Complete s.productions i
  known : ∀ j (t : Trait K), Below s.productions i j → s.whole.Final s.book.memos ⟨j, t.fact⟩
  unread : ∀ j, Below s.productions i j →
    (Family.memo s.book.memos ⟨j, .restrictions⟩).epoch = 0 ∧ (Family.memo s.book.memos ⟨j, .conflicts⟩).epoch = 0

/-- At some time before, the first three facts of all nodes below `i` were known, and restrictions and conflicts had
not been looked at there. -/
def InOrder (s : Store V K) (i : Nat) : Prop := ∃ s₀, Reached s₀ ∧ s₀.Unread i ∧ Later s₀ s

theorem Store.Unread.clear (h : s.Unread i) (hm : s.Remembers) : s.Clear i s.book.memos := by
  refine ⟨h.known, fun ⟨j, f⟩ hj => ?_⟩
  have hfresh : ∀ {c : Cell FactName}, (Family.memo s.book.memos c).epoch = 0 →
      (Family.memo s.book.memos c).value = Fact.bottom := fun hc => by
    rw [hm.fresh _ hc]
    rfl
  cases f with
  | first | emptyValue | productive => trivial
  | restrictions =>
    rw [hfresh (h.unread j hj).1]
    exact exactFact_bottom
  | conflicts =>
    rw [hfresh (h.unread j hj).2]
    exact exactFact_bottom

/-- Whatever is done after the first three facts are known, what is remembered stays exact. -/
theorem InOrder.clear (h : InOrder s i) : Complete s.productions i ∧ s.Clear i s.book.memos := by
  obtain ⟨s₀, hs₀, hunread, hlater⟩ := h
  obtain ⟨hv, hm⟩ := hs₀.sane
  have hup := hlater.upholds hv hm
  exact ⟨hunread.complete.extend hup.extends, hup.clear i hunread.complete (hunread.clear hm)⟩

/-- A reading of restrictions or conflicts is exact, if they were not looked at too early or nothing comes back. -/
theorem Reached.fact_exact (h : Reached s) (hr : s.HasRef r) {f : FactName} {v : f.Carrier V K}
    (hf : Grammar.fact held f r s = .ok v s') : ∃ i, s'.Realized r i ∧ Correct s'.productions i f v ∧
      (InOrder s i → ExactFact s'.productions i f v) ∧
      (f = .restrictions → CarriesStraight s'.productions i → ExactFact s'.productions i f v) ∧
      (f = .conflicts → Straight s'.productions i → ExactFact s'.productions i f v) := by
  obtain ⟨hv, hm⟩ := h.sane
  obtain ⟨h', i, hi, hread⟩ := (fact_upholds hv hm held f hr).of_ok hf
  have hk : s'.Kept s'.book.epoch s'.book.memos := h'.remembers
  refine ⟨i, hi, hread.correct h'.remembers, fun horder => ?_, ?_, ?_⟩
  · obtain ⟨hcomplete, hclear⟩ := horder.clear
    rw [hread.eq_value]
    exact (h'.clear i hcomplete hclear).value .refl f
  · rintro rfl hstraight
    rw [hread.eq_value]
    exact hk.settled.exact_restrictions hk.sound_value hi.2 hstraight hread.final
  · rintro rfl hstraight
    rw [hread.eq_value]
    exact hk.settled.exact_conflicts hk.sound_value hi.2 hstraight hread.final

/-- After any calls, all exact restrictions and conflicts are reported, and every other one falls short of an exact one.
There is no other if the first three facts of all nodes were known before restrictions and conflicts were looked at,
or if nothing comes back to where it was. -/
theorem restrictions_conflicts_exact (h : Reached s) (hr : s.HasRef r) :
    (∀ v s', restrictions held r s = .ok v s' → ∃ i, s'.Realized r i ∧
      (∀ e, ExactRestriction s'.productions i e → e ∈ v) ∧
      (∀ e ∈ v, ∃ x, Restricts s'.productions i e.origin x ∧ ∀ k ∈ e.disallowed, Starts s'.productions x k) ∧
      (InOrder s i ∨ CarriesStraight s'.productions i → ∀ e, e ∈ v ↔ ExactRestriction s'.productions i e)) ∧
    ∀ v s', conflicts held r s = .ok v s' → ∃ i, s'.Realized r i ∧
      (∀ c, ExactConflict s'.productions i c → c ∈ v) ∧ (∀ c ∈ v, Warranted s'.productions i c) ∧
      (InOrder s i ∨ Straight s'.productions i → (∀ c, c ∈ v ↔ ExactConflict s'.productions i c) ∧
        ∀ d ks ks', .firstFirstClash d ks ∈ v → .firstFirstClash d ks' ∈ v → ks = ks') := by
  refine ⟨fun v s' hf => ?_, fun v s' hf => ?_⟩
  · obtain ⟨i, hi, ⟨hall, hsound⟩, horder, hstraight, -⟩ := h.fact_exact hr hf
    refine ⟨i, hi, hall, hsound, fun hcond e => ⟨?_, hall e⟩⟩
    rcases hcond with hc | hc
    · exact horder hc e
    · exact hstraight rfl hc e
  · obtain ⟨i, hi, ⟨hall, hsound⟩, horder, -, hstraight⟩ := h.fact_exact hr hf
    refine ⟨i, hi, hall, hsound, fun hcond => ?_⟩
    have hexact : ∀ c ∈ (v : FinSet (Conflict K)), ExactConflict s'.productions i c := by
      rcases hcond with hc | hc
      · exact horder hc
      · exact hstraight rfl hc
    exact ⟨fun c => ⟨hexact c, hall c⟩, fun d ks ks' hks hks' =>
      exactConflict_firstFirst_unique (hexact _ hks) (hexact _ hks')⟩

/-- Whether a reading of `c` yields what does not change any more. -/
def Store.isFinal (s : Store V K) (c : Cell FactName) : Bool :=
  (s.whole.resolve c.place c.fact).isSome &&
    match s.whole.source? c with
    | some d => (Family.memo s.book.memos d).settled
    | none => true

/-- Whether the first three facts of all nodes are known, and no restrictions and conflicts were looked at. -/
def Store.isUnread (s : Store V K) : Bool :=
  (List.range s.nodes.size).all fun j =>
    match s.productions j with
    | none => false
    | some p => p.parts.all (· < s.nodes.size) &&
      [FactName.first, .emptyValue, .productive].all (fun f => s.isFinal ⟨j, f⟩) &&
      [FactName.restrictions, .conflicts].all fun f => (Family.memo s.book.memos ⟨j, f⟩).epoch == 0

theorem Store.final_of_isFinal {c : Cell FactName} (h : s.isFinal c = true) : s.whole.Final s.book.memos c := by
  obtain ⟨hresolve, hsource⟩ := Bool.and_eq_true_iff.1 h
  refine ⟨hresolve, fun d hd => ?_⟩
  rwa [hd] at hsource

theorem Store.unread_of_isUnread (h : s.isUnread = true) (hi : i < s.nodes.size) : s.Unread i := by
  have hnode : ∀ j < s.nodes.size, ∃ p, s.productions j = some p ∧ (∀ n ∈ p.parts, n < s.nodes.size) ∧
      (∀ t : Trait K, s.whole.Final s.book.memos ⟨j, t.fact⟩) ∧
      (Family.memo s.book.memos ⟨j, .restrictions⟩).epoch = 0 ∧ (Family.memo s.book.memos ⟨j, .conflicts⟩).epoch = 0 := by
    intro j hj
    have hcheck := List.all_eq_true.1 h j (List.mem_range.2 hj)
    split at hcheck
    · cases hcheck
    · rename_i p hp
      simp only [List.all_cons, List.all_nil, Bool.and_true, Bool.and_eq_true, beq_iff_eq, List.all_eq_true,
        decide_eq_true_eq] at hcheck
      obtain ⟨⟨hparts, hfirst, hempty, hproductive⟩, hunread⟩ := hcheck
      refine ⟨p, hp, hparts, fun t => ?_, hunread⟩
      cases t with
      | startsWith k => exact final_of_isFinal hfirst
      | nullable => exact final_of_isFinal hempty
      | productive => exact final_of_isFinal hproductive
  have hlt : ∀ j, Below s.productions i j → j < s.nodes.size := by
    intro j hj
    induction hj with
    | refl => exact hi
    | tail _ hstep ih =>
      obtain ⟨p, hp, hn⟩ := hstep
      obtain ⟨p', hp', hparts, -⟩ := hnode _ ih
      cases hp.symm.trans hp'
      exact hparts _ hn
  refine ⟨fun j hj => ?_, fun j t hj => ?_, fun j hj => ?_⟩
  · obtain ⟨p, hp, -⟩ := hnode j (hlt j hj)
    exact Option.isSome_iff_exists.2 ⟨p, hp⟩
  · obtain ⟨-, -, -, hfinal, -⟩ := hnode j (hlt j hj)
    exact hfinal t
  · obtain ⟨-, -, -, -, hunread⟩ := hnode j (hlt j hj)
    exact hunread

/-- Calls about grammars that are there from the start can all be made. -/
theorem Reached.calls {cs : List (Call V K)} (h : Reached s) (hr : ∀ c ∈ cs, ∀ r ∈ c.refs, s.HasRef r) :
    Reached (cs.foldl (fun s c => c.after s) s) := by
  induction cs generalizing s with
  | nil => exact h
  | cons c cs ih =>
    obtain ⟨hv, hm⟩ := h.sane
    have hc := hr c List.mem_cons_self
    have hsize := (c.upholds hv hm hc).size_le
    exact ih (h.call c hc) fun d hd r hrd => (hr d (List.mem_cons_of_mem c hd) r hrd).of_le hsize

/-- An item and more of the same, or nothing, twice in a row. -/
def tangled : Expr Unit Tag :=
  .recursive "s" (.sequence (.disjunction (.sequence (.element .a) (.name "s")) (.success ()))
    (.disjunction (.sequence (.element .b) (.name "s")) (.success ())))

def tangledStore : Store Unit Tag := (Call.evaluate [] {} tangled).after {}

theorem reached_tangledStore : Reached tangledStore := .call _ .refl (by simp [Call.refs, Scope.refs])

theorem hasRef_tangledStore {j : Nat} (hj : j ≤ 9) : tangledStore.HasRef (.node j) :=
  Nat.lt_of_le_of_lt hj (by decide +kernel : 9 < tangledStore.nodes.size)

/-- Which facts are asked for, each of them about all nodes. -/
def tangledCalls (fs : List FactName) : List (Call Unit Tag) :=
  (List.range 10).flatMap fun j => fs.map fun f => .fact [.node 9] f (.node j)

/-- The first three facts of all nodes have been asked for. -/
def tangledReady : Store Unit Tag :=
  (tangledCalls [.first, .emptyValue, .productive]).foldl (fun s c => c.after s) tangledStore

theorem reached_tangledReady : Reached tangledReady := by
  refine reached_tangledStore.calls fun c hc r hr => ?_
  obtain ⟨j, hj, hc⟩ := List.mem_flatMap.1 hc
  obtain ⟨f, -, rfl⟩ := List.mem_map.1 hc
  obtain rfl : r = .node j := by simpa [Call.refs] using hr
  exact hasRef_tangledStore (Nat.le_of_lt_succ (List.mem_range.1 hj))

/-- In the right order the restrictions and conflicts of the tangled grammar are told exactly. -/
theorem restrictions_conflicts_tangledReady :
    (∃ v s' i, restrictions [] (.node 9) tangledReady = .ok v s' ∧ s'.Realized (.node 9) i ∧ v.size = 2 ∧
      ∀ e, e ∈ v ↔ ExactRestriction s'.productions i e) ∧
    ∃ v s' i, conflicts [] (.node 9) tangledReady = .ok v s' ∧ s'.Realized (.node 9) i ∧ v.size = 1 ∧
      ∀ c, c ∈ v ↔ ExactConflict s'.productions i c := by
  have hready : 9 < tangledReady.nodes.size ∧ tangledReady.isUnread = true := by decide +kernel
  have href : tangledReady.HasRef (.node 9) := hready.1
  have horder : InOrder tangledReady 9 := ⟨_, reached_tangledReady,
    unread_of_isUnread hready.2 href, .refl⟩
  obtain ⟨hrestrictions, hconflicts⟩ := restrictions_conflicts_exact reached_tangledReady href
  constructor
  · obtain ⟨v, s', hv, hp⟩ := exists_ok (s := tangledReady) (w := restrictions [] (.node 9))
      (fun v _ => (v : FinSet (Restriction Tag)).size == 2) (by decide +kernel)
    obtain ⟨i, hi, -, -, hexact⟩ := hrestrictions v s' hv
    cases hi.1
    exact ⟨v, s', 9, hv, hi, eq_of_beq hp, hexact (.inl horder)⟩
  · obtain ⟨v, s', hv, hp⟩ := exists_ok (s := tangledReady) (w := conflicts [] (.node 9))
      (fun v _ => (v : FinSet (Conflict Tag)).size == 1) (by decide +kernel)
    obtain ⟨i, hi, -, -, hexact⟩ := hconflicts v s' hv
    cases hi.1
    exact ⟨v, s', 9, hv, hi, eq_of_beq hp, (hexact (.inl horder)).1⟩

/-- The nodes of the tangled grammar are where they were made. -/
def Store.isTangled (s : Store Unit Tag) : Bool :=
  match s.productions 0, s.productions 1, s.productions 2, s.productions 3 with
  | some (.element .a), some (.sequence 0 9), some (.success _), some (.disjunction 1 2) =>
    match s.productions 6, s.productions 7, s.productions 8, s.productions 9 with
    | some (.success _), some (.disjunction _ 6), some (.sequence 3 7), some (.deferred 8) => true
    | _, _, _, _ => false
  | _, _, _, _ => false

/-- Asked for first, the restrictions have one that was made before any kind was known. -/
theorem restrictions_tangled_not_exact : ∃ v s' i, restrictions [] (.node 9) tangledStore = .ok v s' ∧
    s'.Realized (.node 9) i ∧ ∃ e ∈ v, ¬ExactRestriction s'.productions i e := by
  obtain ⟨v, s', hv, hp⟩ := exists_ok (s := tangledStore) (w := restrictions [] (.node 9))
    (fun v s' => (v : FinSet (Restriction Tag)).contains ⟨3, ∅⟩ && s'.isTangled) (by decide +kernel)
  obtain ⟨hentry, hp⟩ := Bool.and_eq_true_iff.1 hp
  obtain ⟨i, hi, -⟩ := reached_tangledStore.fact (hasRef_tangledStore (Nat.le_refl 9)) hv
  unfold Store.isTangled at hp
  split at hp
  · rename_i h0 h1 h2 h3
    split at hp
    · rename_i h6 h7 h8 h9
      refine ⟨v, s', i, hv, hi, ⟨3, ∅⟩, FinSet.contains_iff_mem.1 hentry, fun ⟨x, hx, hk⟩ => ?_⟩
      have hs : Nullable s'.productions 9 :=
        .deferred h9 (.sequence h8 (.right h3 (.success h2)) (.right h7 (.success h6)))
      obtain ⟨l, r, hd, hside⟩ := hx.disjunction
      cases h3.symm.trans hd
      rcases hside with ⟨rfl, -⟩ | ⟨rfl, hn⟩
      · exact FinSet.not_mem_empty ((hk .a).2 ⟨_, .sequence h1 (.element h0) hs⟩)
      · have hn := gives_of_has h1 (has_nullable_iff.2 hn)
        exact gives_of_has h0 hn.1
    · cases hp
  · cases hp

end Predictive.Grammar
