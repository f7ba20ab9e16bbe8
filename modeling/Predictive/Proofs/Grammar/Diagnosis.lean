import Predictive.Proofs.Grammar.Rendering
import Predictive.Proofs.Grammar.Searching

/-!
What is said of a grammar points at its nodes. A conflict names a disjunction that is there, and a sequence whose left
part leads to it; the restrictions come from disjunctions that are there. So each conflict of a report is followed by the
place it comes from.
-/
namespace Predictive.Grammar

open Store

variable {V K : Type} [Kind K] {s s' : Store V K} {r : Ref} {held : List Ref} {i d q : NodeId}

namespace Store

/-- The node `d` is a disjunction that is met on the way down from `r`. -/
def HasDisjunction (s : Store V K) (r : Ref) (d : NodeId) : Prop :=
  s.Reaches r d ∧ ∃ a b, s.nodes[d]? = some (.disjunction a b)

/-- The conflict is one of nodes that are met on the way down from `r`, and about kinds that there are. -/
structure Points (s : Store V K) (r : Ref) (c : Conflict K) : Prop where
  disjunction : s.HasDisjunction r c.disjunction
  sequence : ∀ q, c.sequence? = some q →
    s.Reaches r q ∧ ∃ a b, s.nodes[q]? = some (.sequence a b) ∧ s.Reaches a c.disjunction
  kinds : ∀ ks, c.kinds? = some ks → ∃ k, k ∈ ks

theorem Realized.hasDisjunction {x y : Nat} (hi : s.Realized r i) (hb : Below s.productions i d)
    (hd : s.productions d = some (.disjunction x y)) : s.HasDisjunction r d := by
  obtain ⟨a, b, hn, -⟩ := disjunction_of_production hd
  exact ⟨hi.reaches_iff.2 hb, a, b, hn⟩

theorem Realized.hasDisjunction_of_restricts {x : Nat} (hi : s.Realized r i) (h : Restricts s.productions i d x) :
    s.HasDisjunction r d := by
  obtain ⟨_, _, hd, -⟩ := h.disjunction
  exact hi.hasDisjunction (below_of_restricts h) hd

/-- Whatever a conflict was made from, it points at nodes. -/
theorem Realized.points {c : Conflict K} (hi : s.Realized r i) (h : Warranted s.productions i c) : s.Points r c := by
  cases c with
  | bothAcceptEmpty d =>
    obtain ⟨x, y, hb, hd, -⟩ := h
    exact ⟨hi.hasDisjunction hb hd, nofun, nofun⟩
  | firstFirstClash d ks =>
    obtain ⟨x, y, hb, hd, hks, -⟩ := h
    refine ⟨hi.hasDisjunction hb hd, nofun, fun ks' heq => ?_⟩
    cases heq
    exact hks
  | followClash d q ks =>
    obtain ⟨x, y, z, hb, hq, hz, hks, -⟩ := h
    obtain ⟨a, b, hn, ha, -⟩ := sequence_of_production hq
    have hleft : s.Realized a x := ⟨ha, hi.2.below (hb.trans (Below.part hq (by simp [Production.parts])))⟩
    have hd := hleft.hasDisjunction_of_restricts hz
    refine ⟨⟨?_, hd.2⟩, fun q' heq => ?_, fun ks' heq => ?_⟩
    · exact hi.reaches_iff.2 ((hb.trans (Below.part hq (by simp [Production.parts]))).trans (below_of_restricts hz))
    · cases heq
      exact ⟨hi.reaches_iff.2 hb, a, b, hn, hd.1⟩
    · cases heq
      exact hks

/-- Where nodes are bound, what is written is what the search goes through. -/
theorem written_eq_below {shape : Shape V K} (hn : s.nodes[i]? = some shape) (hbound : ∀ o, shape ≠ .deferred o none) :
    shape.written = s.below i := by
  cases shape with
  | success v | element k | disjunction a b | sequence a b | transform f a =>
    simp only [Shape.written, Shape.parts, Store.below, hn]
  | deferred o target =>
    cases target with
    | none => exact absurd rfl (hbound o)
    | some t => simp only [Shape.written, Origin.definition?, Store.below, hn]

theorem isSome_deref?_of_subset {held' : List Ref} {x : Ref} (hsub : held ⊆ held')
    (h : (s.deref? (s.liveness held) x).isSome) : (s.deref? (s.liveness held') x).isSome := by
  rw [Option.isSome_iff_ne_none] at h ⊢
  exact fun hdead => h (deref?_eq_none_of_subset hsub hdead)

/-- Whatever is met below a grammar that is alive and bound can be written. -/
theorem Alive.writable {held' : List Ref} (h : s.Alive held r) (hi : s.Realized r i) (hsub : r :: held ⊆ held') :
    s.Writable (s.liveness held') (s.Visits r) := by
  intro x hx
  obtain ⟨j, hj⟩ := Option.isSome_iff_exists.1 (isSome_deref?_of_subset hsub (h x hx))
  have hxj := nodeOf?_of_deref? hj
  obtain ⟨shape, hshape, hbound⟩ := exists_shape_of_production (hi.2 j (hi.reaches_iff.1 (hx.reaches hxj)))
  refine ⟨j, shape, hj, hshape, fun y hy => hx.of_below hxj ?_⟩
  rwa [← written_eq_below hshape hbound]

end Store

/-- Work that leaves the store as it is does so for all elements of a list. -/
theorem mapM_eq_ok {α β : Type} {f : α → Work V K β} {g : α → β} {xs : List α} (h : ∀ x ∈ xs, f x s = .ok (g x) s) :
    xs.mapM f s = .ok (xs.map g) s := by
  induction xs with
  | nil => rfl
  | cons x xs ih =>
    have hx := h x List.mem_cons_self
    have hxs := ih fun y hy => h y (List.mem_cons_of_mem _ hy)
    simp only [List.mapM_cons, bind, EStateM.bind, hx, hxs, List.map_cons]
    rfl

namespace Rejection

variable [Value V] {e : Rejection K} {c : Conflict K}

/-- The line of a conflict in a report, and the text `place` below it. -/
def located (c : Conflict K) (place : String) : String := "  - " ++ c.message ++ "\n" ++ "      at " ++ place ++ "\n"

/-- What stands in a report where the conflict `c` comes from: the text of a handle of its disjunction. -/
def Places (s : Store V K) (held : List Ref) (r : Ref) (c : Conflict K) (place : String) : Prop :=
  ∃ x, s.deref? (s.liveness (r :: held)) x = some c.disjunction ∧ s.render (s.liveness (x :: r :: held)) x = .ok place

/-- While the grammar is alive, the place of each conflict that points at nodes is found and written. -/
theorem exists_describe (hv : s.Valid) (hr : s.HasRef e.grammar) (hi : s.Realized e.grammar i)
    (halive : s.Alive held e.grammar) (hc : s.Points e.grammar c) :
    ∃ place, e.describe held c s = .ok (located c place) s ∧ Places s held e.grammar c place := by
  have hg := realize_of_alive hi halive
  rcases subtree_of_realize hv hr hg c.disjunction with ⟨x, hx, hvisits, hderef⟩ | ⟨-, hnone⟩ | ⟨-, hdead⟩
  · obtain ⟨place, hplace⟩ := exists_render hv (halive.writable hi (List.subset_cons_self x _)) hvisits
    refine ⟨place, ?_, x, hderef, hplace⟩
    have hrender : render (e.grammar :: held) x s = .ok place s := render_eq_ok_iff.2 ⟨hplace, rfl⟩
    simp only [describe, bind, EStateM.bind, hx, hrender]
    rfl
  · exact absurd hc.disjunction.1 hnone
  · exact absurd halive hdead

/-- While the grammar is alive, a report tells the place of each conflict. -/
theorem exists_report (hv : s.Valid) (hr : s.HasRef e.grammar) (hi : s.Realized e.grammar i)
    (halive : s.Alive held e.grammar) (hc : ∀ c ∈ e.conflicts, s.Points e.grammar c) :
    ∃ place : Conflict K → String, (∀ c ∈ e.conflicts, Places s held e.grammar c (place c)) ∧
      e.report held s =
        .ok (e.message ++ "\n" ++ String.join (e.conflicts.toList.map fun c => located c (place c))) s := by
  have hplace : ∀ c, ∃ place, c ∈ e.conflicts →
      e.describe held c s = .ok (located c place) s ∧ Places s held e.grammar c place := fun c => by
    by_cases hmem : c ∈ e.conflicts
    · exact (exists_describe hv hr hi halive (hc c hmem)).imp fun _ h _ => h
    · exact ⟨"", fun h => absurd h hmem⟩
  choose place hplace using hplace
  refine ⟨place, fun c hmem => (hplace c hmem).2, ?_⟩
  have hlines : e.conflicts.toList.mapM (e.describe held) s =
      .ok (e.conflicts.toList.map fun c => located c (place c)) s :=
    mapM_eq_ok fun c hmem => (hplace c (FinSet.mem_def.2 hmem)).1
  simp only [report, bind, EStateM.bind, hlines]
  rfl

end Rejection

variable [Value V] {e : Rejection K}

/-- A rejection is about the grammar that was looked at. -/
theorem grammar_of_validate (h : validate held r s = .ok (.error e) s') : e.grammar = r := by
  obtain ⟨found, s₁, -, h⟩ := bind_eq_ok h
  split at h
  · obtain ⟨g, s₂, -, h⟩ := bind_eq_ok h
    obtain ⟨u, s₃, -, h⟩ := bind_eq_ok h
    cases h
  · obtain ⟨u, s₂, -, h⟩ := bind_eq_ok h
    cases h
    rfl

/-- At any time at which a rejected grammar realizes, its conflicts point at nodes, and the report tells where. -/
theorem report_of_realize {t u u' : Store V K} {held' : List Ref} (h : Reached s) (hr : s.HasRef r)
    (hval : validate held r s = .ok (.error e) t) (hlater : Later t u) (hg : realize held' r u = .ok () u') :
    (∀ c ∈ e.conflicts, u.Points r c) ∧
      ∃ place : Conflict K → String, (∀ c ∈ e.conflicts, Rejection.Places u held' r c (place c)) ∧
        e.report held' u = .ok (e.message ++ "\n" ++
          String.join (e.conflicts.toList.map fun c => Rejection.located c (place c))) u := by
  obtain ⟨hv, hm⟩ := h.sane
  obtain rfl := grammar_of_validate hval
  obtain ⟨ht, i, hi, ⟨-, hwarranted⟩, -⟩ := (validate_upholds hv hm held hr).of_ok hval
  have hu := hlater.upholds ht.valid ht.remembers
  have hiu := hi.grow hu.toGrows
  have hru : u.HasRef e.grammar := hr.of_le (Nat.le_trans ht.size_le hu.size_le)
  obtain ⟨-, halive⟩ := alive_of_realize_again hu.valid hu.remembers hru hiu hg
  have hpoints : ∀ c ∈ e.conflicts, u.Points e.grammar c := fun c hc => hiu.points ((hwarranted c hc).extend hu.extends)
  exact ⟨hpoints, Rejection.exists_report hu.valid hru hiu halive hpoints⟩

/-- What is said of a grammar that realizes points at nodes that are met below it. The node `id` is found if it is one of
them, and is not if it is none. Only a grammar that does not realize any more is not searched to the end: a self-reference
below is dead by then, which takes a name that has let go of something meanwhile. Conflicts and restrictions come from
disjunctions below the grammar. At any time at which a rejected grammar realizes, the report on it tells the place of each
conflict. -/
theorem diagnostics_point_at_nodes (h : Reached s) (hr : s.HasRef r) (hg : realize held r s = .ok () s') :
    (s'.releases = s.releases → s'.Alive held r) ∧
    (∀ id, (∃ x, subtree held r id s = .ok (some x) s' ∧ s'.Reaches r id ∧
        s'.deref? (s'.liveness (r :: held)) x = some id) ∨
      (subtree held r id s = .ok none s' ∧ ¬s'.Reaches r id) ∨
      (subtree held r id s = .error .deadReference s' ∧ ¬s'.Alive held r ∧ ∀ u, realize held r s' ≠ .ok () u)) ∧
    (∀ cs t, conflicts held r s = .ok cs t → ∀ c ∈ cs, t.Points r c) ∧
    (∀ es t, restrictions held r s = .ok es t → ∀ e ∈ es, t.HasDisjunction r e.origin) ∧
    ∀ e t, validate held r s = .ok (.error e) t → e.grammar = r ∧ e.conflicts.isEmpty = false ∧
      (s'.Alive held r → realize held r t = .ok () t) ∧
      ∀ held' u u', Later t u → realize held' r u = .ok () u' → (∀ c ∈ e.conflicts, u.Points r c) ∧
        ∃ place : Conflict K → String, (∀ c ∈ e.conflicts, Rejection.Places u held' r c (place c)) ∧
          e.report held' u = .ok (e.message ++ "\n" ++
            String.join (e.conflicts.toList.map fun c => Rejection.located c (place c))) u := by
  obtain ⟨hv, hm⟩ := h.sane
  refine ⟨alive_of_realize hv hm hr hg, fun id => ?_, fun cs t hcs c hc => ?_, fun es t hes e he => ?_,
    fun e t hval => ?_⟩
  · rcases subtree_of_realize hv hr hg id with ⟨x, hx, hvisits, hderef⟩ | hnone | ⟨herror, hdead⟩
    · exact .inl ⟨x, hx, hvisits.reaches (nodeOf?_of_deref? hderef), hderef⟩
    · exact .inr (.inl hnone)
    · obtain ⟨he, i, hi⟩ := (realize_evolves hv held hr).of_ok hg
      refine .inr (.inr ⟨herror, hdead, fun u hu => hdead ?_⟩)
      exact (alive_of_realize_again he.valid (he.upholds hm).remembers (hr.of_le he.size_le) hi hu).2
  · obtain ⟨i, hi, -, hwarranted⟩ := h.fact (f := .conflicts) hr hcs
    exact hi.points (hwarranted c hc)
  · obtain ⟨i, hi, -, hrestricts⟩ := h.fact (f := .restrictions) hr hes
    obtain ⟨x, hx, -⟩ := hrestricts e he
    exact hi.hasDisjunction_of_restricts hx
  · obtain rfl := grammar_of_validate hval
    obtain ⟨-, i, hi, -, hsome⟩ := (validate_upholds hv hm held hr).of_ok hval
    refine ⟨rfl, hsome, fun halive => ?_, fun held' u u' hlater hg' => report_of_realize h hr hval hlater hg'⟩
    obtain ⟨s₁, hg₁, hl⟩ := exists_realize_of_validate hv hm hr hval
    cases hg.symm.trans hg₁
    exact realize_of_alive hi (hl.alive halive)

/-- Marks, of which the last one cannot be told from the others. -/
def clashingMarks : Expr Unit Tag :=
  .recursive "s" (.disjunction (.element .a) (.sequence (.optional (.element .a) ()) (.name "s")))

def clashingStore : Store Unit Tag := (Call.evaluate [] {} clashingMarks).after {}

theorem reached_clashingStore : Reached clashingStore := .call _ .refl (by simp [Call.refs, Scope.refs])

theorem hasRef_clashingStore : clashingStore.HasRef (.node 6) := (by decide +kernel : 6 < clashingStore.nodes.size)

/-- Whether the grammar is rejected for conflicts of these disjunctions, in these sequences. -/
def isRejectedFor (ds : List NodeId) (qs : List (Option NodeId)) :
    Except (Rejection Tag) (ValidGrammar Unit Tag) → Bool
  | .ok _ => false
  | .error e => e.conflicts.toList.map Conflict.disjunction == ds && e.conflicts.toList.map Conflict.sequence? == qs

/-- Both disjunctions are found and reported with their places, the inner one with the sequence that it starts. -/
theorem diagnostics_point_at_nodes_marks : ∃ s' x e t, ∃ place : Conflict Tag → String,
    realize [] (.node 6) clashingStore = .ok () s' ∧ subtree [] (.node 6) 3 clashingStore = .ok (some x) s' ∧
    subtree [] (.node 6) 7 clashingStore = .ok none s' ∧ validate [] (.node 6) clashingStore = .ok (.error e) t ∧
    e.conflicts.toList.map Conflict.disjunction = [5, 3] ∧
    e.conflicts.toList.map Conflict.sequence? = [none, some 4] ∧ (∀ c ∈ e.conflicts, t.Points (.node 6) c) ∧
    e.report [] t = .ok (e.message ++ "\n" ++
      String.join (e.conflicts.toList.map fun c => Rejection.located c (place c))) t := by
  obtain ⟨_, s', hg, hkeep⟩ := exists_ok (s := clashingStore) (w := realize [] (.node 6))
    (fun _ s' => s'.releases == clashingStore.releases) (by decide +kernel)
  obtain ⟨found, t₁, hfound, hsome⟩ := exists_ok (s := clashingStore) (w := subtree [] (.node 6) 3)
    (fun found _ => found.isSome) (by decide +kernel)
  obtain ⟨missed, t₂, hmissed, hnone⟩ := exists_ok (s := clashingStore) (w := subtree [] (.node 6) 7)
    (fun missed _ => missed.isNone) (by decide +kernel)
  obtain ⟨v, t, hval, hrejected⟩ := exists_ok (s := clashingStore) (w := validate [] (.node 6))
    (fun v _ => isRejectedFor [5, 3] [none, some 4] v) (by decide +kernel)
  obtain ⟨halive, hsearch, -, -, hreport⟩ := diagnostics_point_at_nodes reached_clashingStore hasRef_clashingStore hg
  obtain ⟨x, hx⟩ : ∃ x, subtree [] (.node 6) 3 clashingStore = .ok (some x) s' := by
    rcases hsearch 3 with ⟨x, hx, -⟩ | ⟨hx, -⟩ | ⟨hx, -⟩
    · exact ⟨x, hx⟩
    · cases hfound.symm.trans hx
      cases hsome
    · cases hfound.symm.trans hx
  have hmiss : subtree [] (.node 6) 7 clashingStore = .ok none s' := by
    rcases hsearch 7 with ⟨x, hx, -⟩ | ⟨hx, -⟩ | ⟨hx, -⟩
    · cases hmissed.symm.trans hx
      cases hnone
    · exact hx
    · cases hmissed.symm.trans hx
  cases v with
  | ok g => cases hrejected
  | error e =>
    obtain ⟨hds, hqs⟩ := Bool.and_eq_true_iff.1 hrejected
    obtain ⟨-, -, hagain, hall⟩ := hreport e t hval
    obtain ⟨hpoints, place, -, htext⟩ := hall [] t t .refl (hagain (halive (eq_of_beq hkeep)))
    exact ⟨s', x, e, t, place, hg, hx, hmiss, hval, eq_of_beq hds, eq_of_beq hqs, hpoints, htext⟩

/-- The first part leads back to a definition that only the name `p` holds. When the second part is realized, the name
is given to something else. -/
def forgetfulStore : Store Unit Tag :=
  (Call.evaluate [] {} (.sequence (.name "q") (.save "d" (.deferred (.save "p" (.element .b)))))).after
    ((Call.evaluate [] {} (.save "p" (.recursive "s" (.save "q" (.sequence (.element .a) (.name "s")))))).after {})

/-- The grammar realizes, but the self-reference in its first part is dead by then, and the second part is not found. -/
theorem subtree_forgetful_dead : Reached forgetfulStore ∧ forgetfulStore.HasRef (.node 4) ∧
    ∃ s', realize [] (.node 4) forgetfulStore = .ok () s' ∧ s'.Reaches (.node 4) 3 ∧
      subtree [] (.node 4) 3 forgetfulStore = .error .deadReference s' := by
  have hreached : Reached forgetfulStore :=
    .call _ (.call _ .refl (by simp [Call.refs, Scope.refs])) (by simp [Call.refs, Scope.refs])
  have hr : forgetfulStore.HasRef (.node 4) := (by decide +kernel : 4 < forgetfulStore.nodes.size)
  obtain ⟨_, s', hg, hbelow⟩ := exists_ok (s := forgetfulStore) (w := realize [] (.node 4))
    (fun _ s' => s'.below 4 == [.node 1, .node 3]) (by decide +kernel)
  obtain ⟨e, t, hdead, -⟩ := exists_error (s := forgetfulStore) (w := subtree [] (.node 4) 3)
    (fun _ _ => true) (by decide +kernel)
  refine ⟨hreached, hr, s', hg, ?_, ?_⟩
  · have hpart : Ref.node 3 ∈ s'.below 4 := by
      rw [eq_of_beq hbelow]
      exact List.mem_pair.2 (.inr rfl)
    exact .part (.root rfl) hpart rfl
  · rcases subtree_of_realize hreached.sane.1 hr hg 3 with ⟨x, hx, -⟩ | ⟨hx, -⟩ | ⟨hx, -⟩
    · cases hdead.symm.trans hx
    · cases hdead.symm.trans hx
    · exact hx

end Predictive.Grammar
