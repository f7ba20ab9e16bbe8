import Predictive.Proofs.Grammar.Lowering

/-!
Whatever has been done with a store before, and however it ended, the store is valid and remembers what it should: no
order of calls spoils what later ones find out.
-/
namespace Predictive.Grammar

open Store

variable {V K : Type} [Kind K] {s s' : Store V K} {r : Ref} {i : Nat}

theorem blocked_of_record (s : Store V K) (held : List Ref) (r : Ref) (event : NodeId → Event K) :
    FailsOnly s (record do return event (← deref held r)) fun s' => s'.Blocked (s'.liveness (r :: held)) r := by
  refine .get ?_
  split
  · refine .bind (.bind (fun e s' h => ?_) fun _ _ _ => .pure _) fun e s' _ => fun _ _ h => nomatch h
    obtain ⟨-, hgone⟩ := deref_error h
    exact .broken (.gone hgone)
  · exact .pure _

variable [Value V]

/-- What a verdict says of the node `i`: there is no conflict, and the table is one for it, or there is one. -/
def Judges (s : Store V K) (i : Nat) : Except (Rejection K) (ValidGrammar V K) → Prop
  | .ok g => Correct s.productions i .conflicts (∅ : FinSet (Conflict K)) ∧ ∃ node, Lowered s i g node
  | .error e => Correct s.productions i .conflicts e.conflicts ∧ e.conflicts.isEmpty = false

/-- An event about the grammar `r` is recorded. -/
theorem record_learns (hm : s.Remembers) (held : List Ref) (r : Ref) (event : NodeId → Event K) :
    Leads Learns s (record do return event (← deref held r) : Work V K Unit) fun _ _ => True := by
  refine record_leads (.refl hm) (fun _ es h => .of_kept h.remembers (fun _ hi => hi) (.refl _) es) ?_
  exact (deref_leads (.refl hm) held r).bind fun _ s' h _ => .pure (.refl h.remembers) trivial

theorem validate_upholds (hv : s.Valid) (hm : s.Remembers) (held : List Ref) (hr : s.HasRef r) :
    Leads Upholds s (validate held r) fun v s' => ∃ i, s'.Realized r i ∧ Judges s' i v := by
  refine (fact_upholds hv hm held .conflicts hr).bind fun found s₁ h₁ ⟨i, hreal, hread⟩ => ?_
  have hcorrect := hread.correct h₁.remembers
  suffices hrest : Leads Learns s₁ _ fun v s₂ => Judges s₂ i v from
    hrest.mono (fun _ h => h.upholds h₁.valid) fun v s₂ h₂ hj => ⟨i, hreal.grow (h₂.upholds h₁.valid).toGrows, hj⟩
  split
  · rename_i hempty
    rw [FinSet.eq_empty_of_isEmpty hempty] at hcorrect
    refine (lower_learns h₁.remembers held hreal.1 hreal.2).bind fun g s₂ h₂ ⟨node, hg⟩ => ?_
    refine (record_learns h₂.remembers held r _).bind fun _ s₃ h₃ _ => ?_
    rw [← h₂.productions, ← h₃.productions] at hcorrect
    exact .pure (.refl h₃.remembers) ⟨hcorrect, node, hg.learn h₃⟩
  · rename_i hempty
    refine (record_learns h₁.remembers held r _).bind fun _ s₂ h₂ _ => ?_
    rw [← h₂.productions] at hcorrect
    exact .pure (.refl h₂.remembers) ⟨hcorrect, Bool.eq_false_iff.2 hempty⟩

/-- A verdict is given after the grammar has been realized. -/
theorem exists_realize_of_validate {held : List Ref} {v : Except (Rejection K) (ValidGrammar V K)} (hv : s.Valid)
    (hm : s.Remembers) (hr : s.HasRef r) (h : validate held r s = .ok v s') :
    ∃ s₁, realize held r s = .ok () s₁ ∧ s₁.Learns s' := by
  obtain ⟨found, s₂, hfound, h⟩ := bind_eq_ok h
  obtain ⟨s₁, hg, hl⟩ := exists_realize_of_fact hv hm hr hfound
  obtain ⟨h₂, i, ⟨hi, hc⟩, -⟩ := (fact_upholds hv hm held .conflicts hr).of_ok hfound
  refine ⟨s₁, hg, hl.trans ?_⟩
  split at h
  · obtain ⟨g, s₃, hlower, h⟩ := bind_eq_ok h
    obtain ⟨u, s₄, hrecord, h⟩ := bind_eq_ok h
    cases h
    obtain ⟨hl₃, -⟩ := (lower_learns h₂.remembers held hi hc).of_ok hlower
    exact hl₃.trans ((record_learns hl₃.remembers held r _).of_ok hrecord).1
  · obtain ⟨u, s₃, hrecord, h⟩ := bind_eq_ok h
    cases h
    exact ((record_learns h₂.remembers held r _).of_ok hrecord).1

/-- There is a verdict on a grammar that realizes, unless it is blocked. -/
theorem blocked_of_validate {held : List Ref} {e : Fault} (hv : s.Valid) (hm : s.Remembers) (hr : s.HasRef r)
    (h : validate held r s = .error e s') : realize held r s = .error e s' ∨
      ∃ s₁, realize held r s = .ok () s₁ ∧ s₁.Learns s' ∧ s₁.Blocked (s₁.liveness (r :: held)) r := by
  rcases bind_eq_error h with h | ⟨found, s₂, hfound, h⟩
  · exact blocked_of_fact hv hm hr h
  obtain ⟨s₁, hg, hl⟩ := exists_realize_of_fact hv hm hr hfound
  obtain ⟨h₂, i, ⟨hi, hc⟩, -⟩ := (fact_upholds hv hm held .conflicts hr).of_ok hfound
  refine .inr ⟨s₁, hg, ?_⟩
  suffices hrest : s₂.Learns s' ∧ ∃ t, s₂.Learns t ∧ t.Blocked (t.liveness (r :: held)) r by
    obtain ⟨hl', t, hlt, hblocked⟩ := hrest
    rw [(hl.trans hlt).liveness] at hblocked
    exact ⟨hl.trans hl', (hl.trans hlt).blocked hblocked⟩
  split at h
  · rcases bind_eq_error h with h | ⟨g, s₃, hlower, h⟩
    · exact ⟨(lower_learns h₂.remembers held hi hc).of_error h, s₂, .refl h₂.remembers,
        blocked_of_lower h₂.remembers held hi hc e s' h⟩
    · obtain ⟨hl₃, -⟩ := (lower_learns h₂.remembers held hi hc).of_ok hlower
      rcases bind_eq_error h with h | ⟨_, s₄, -, h⟩
      · have hl' := hl₃.trans ((record_learns hl₃.remembers held r _).of_error h)
        exact ⟨hl', s', hl', blocked_of_record s₃ held r _ e s' h⟩
      · cases h
  · rcases bind_eq_error h with h | ⟨_, s₃, -, h⟩
    · have hl' := (record_learns h₂.remembers held r _).of_error h
      exact ⟨hl', s', hl', blocked_of_record s₂ held r _ e s' h⟩
    · cases h

/-- There is a verdict on a grammar that realizes, unless there is an obstacle. -/
theorem obstacle_of_validate {held : List Ref} {e : Fault} (hv : s.Valid) (hm : s.Remembers) (hr : s.HasRef r)
    (h : validate held r s = .error e s') :
    realize held r s = .error e s' ∨ s'.Obstacle (s'.liveness (r :: held)) r := by
  refine (blocked_of_validate hv hm hr h).imp_right fun ⟨s₁, _, hl, hblocked⟩ => ?_
  rw [hl.liveness]
  exact hl.obstacle hblocked.obstacle

theorem subtree_upholds (hv : s.Valid) (hm : s.Remembers) (held : List Ref) (hr : s.HasRef r) (id : NodeId) :
    Leads Upholds s (subtree held r id) fun _ _ => True := by
  refine ((realize_evolves hv held hr).mono (fun _ h => h.upholds hm) fun _ _ _ _ => trivial).bind
    fun _ s₁ h₁ _ => .get ?_
  exact (Leads.liftExcept (.refl h₁.valid h₁.remembers)).mono (fun _ h => h) fun _ _ _ _ => trivial

theorem render_upholds (hv : s.Valid) (hm : s.Remembers) (held : List Ref) (r : Ref) :
    Leads Upholds s (render held r) fun _ _ => True := by
  refine .get ?_
  split
  · exact .pure (.refl hv hm) trivial
  · exact .throw (.refl hv hm) _

theorem report_upholds (hv : s.Valid) (hm : s.Remembers) (held : List Ref) (e : Rejection K) (hr : s.HasRef e.grammar) :
    Leads Upholds s (e.report held : Work V K String) fun _ _ => True := by
  refine (Leads.mapM (P := fun _ _ _ => True) (.refl hv hm) (fun _ h => .refl h.valid h.remembers)
    (fun _ _ _ _ _ _ => trivial) fun c _ s₁ h₁ => ?_).bind fun _ s₂ h₂ _ => .pure (.refl h₂.valid h₂.remembers) trivial
  refine (subtree_upholds h₁.valid h₁.remembers held (hr.of_le h₁.size_le) c.disjunction).bind fun found s₂ h₂ _ => ?_
  split
  · exact .pure (.refl h₂.valid h₂.remembers) trivial
  · exact (render_upholds h₂.valid h₂.remembers _ _).bind fun _ s₃ h₃ _ => .pure (.refl h₃.valid h₃.remembers) trivial

/-- What can be asked of a store. -/
inductive Call (V K : Type) [Ord K] where
  | evaluate (held : List Ref) (sc : Scope) (e : Expr V K)
  | setName (x : String) (r : Ref)
  | forget (x : String)
  | realize (held : List Ref) (r : Ref)
  | fact (held : List Ref) (f : FactName) (r : Ref)
  | validate (held : List Ref) (r : Ref)
  | subtree (held : List Ref) (r : Ref) (id : NodeId)
  | report (held : List Ref) (e : Rejection K)
  | listen (b : Bool)
  /-- The events are taken. -/
  | take

namespace Call

/-- The grammars that a call is about. -/
def refs : Call V K → List Ref
  | evaluate _ sc _ => sc.refs
  | setName _ r | realize _ r | fact _ _ r | validate _ r | subtree _ r _ => [r]
  | report _ e => [e.grammar]
  | forget _ | listen _ | take => []

def run : Call V K → Work V K Unit
  | evaluate held sc e => do let _ ← e.evaluate held sc
  | setName x r => Grammar.setName x r
  | forget x => modify fun s => { s with names := s.names.erase x }
  | realize held r => Grammar.realize held r
  | fact held f r => do let _ ← Grammar.fact held f r
  | validate held r => do let _ ← Grammar.validate held r
  | subtree held r id => do let _ ← Grammar.subtree held r id
  | report held e => do let _ ← e.report held
  | listen b => modify fun s => { s with listening := b }
  | take => modify fun s => { s with events := #[] }

/-- What a call leaves of a store, also when it stops at a fault. -/
def after (c : Call V K) (s : Store V K) : Store V K :=
  match c.run s with
  | .ok _ s' | .error _ s' => s'

end Call

/-- The store is what some calls have left of `s`, each of them about grammars that were there. -/
inductive Later (s : Store V K) : Store V K → Prop
  | refl : Later s s
  | call {s' : Store V K} (c : Call V K) : Later s s' → (∀ r ∈ c.refs, s'.HasRef r) → Later s (c.after s')

/-- What some calls have left of nothing. -/
abbrev Reached (s : Store V K) : Prop := Later {} s

theorem upholds_of_names (hv : s.Valid) (hm : s.Remembers) (names : Std.TreeMap String Ref) (listening : Bool)
    (events : Array (Event K)) (hnames : ∀ (x : String) (r : Ref), names[x]? = some r → s.HasRef r) :
    s.Upholds { s with names, listening, events } :=
  have hg : s.Grows { s with names, listening, events } := ⟨fun _ _ hi => .inl hi, fun _ _ hk => hk⟩
  ⟨hg, ⟨hv.parts, hv.knots, hnames, hv.older⟩, Kept.grow hm hg, fun _ hi hc => hc.grow hi hg, .refl _⟩

theorem Call.run_upholds (hv : s.Valid) (hm : s.Remembers) (c : Call V K) (hr : ∀ r ∈ c.refs, s.HasRef r) :
    Leads Upholds s c.run fun _ _ => True := by
  have hdiscard : ∀ {α : Type} {w : Work V K α} {post : α → Store V K → Prop}, Leads Upholds s w post →
      Leads Upholds s (do let _ ← w) fun _ _ => True := fun h =>
    h.bind fun _ s' h' _ => .pure (.refl h'.valid h'.remembers) trivial
  cases c with
  | evaluate held sc e =>
    exact hdiscard ((evaluate_adds e held hv hr).mono (fun _ h => h.evolves.upholds hm) fun _ _ _ h => h)
  | setName x r =>
    exact (setName_adds hv (hr r (by simp [refs])) x).mono (fun _ h => h.evolves.upholds hm) fun _ _ _ h => h
  | forget x =>
    refine ⟨upholds_of_names hv hm _ s.listening s.events fun y r' hy => hv.names y r' ?_, trivial⟩
    rw [Std.TreeMap.getElem?_erase] at hy
    split at hy
    · cases hy
    · exact hy
  | realize held r =>
    exact (realize_evolves hv held (hr r (by simp [refs]))).mono (fun _ h => h.upholds hm) fun _ _ _ _ => trivial
  | fact held f r => exact hdiscard (fact_upholds hv hm held f (hr r (by simp [refs])))
  | validate held r => exact hdiscard (validate_upholds hv hm held (hr r (by simp [refs])))
  | subtree held r id => exact hdiscard (subtree_upholds hv hm held (hr r (by simp [refs])) id)
  | report held e => exact hdiscard (report_upholds hv hm held e (hr _ (by simp [refs])))
  | listen b => exact ⟨upholds_of_names hv hm s.names b s.events hv.names, trivial⟩
  | take => exact ⟨upholds_of_names hv hm s.names s.listening #[] hv.names, trivial⟩

/-- A call upholds what there is, however it ends. -/
theorem Call.upholds (hv : s.Valid) (hm : s.Remembers) (c : Call V K) (hr : ∀ r ∈ c.refs, s.HasRef r) :
    s.Upholds (c.after s) := by
  have hup := c.run_upholds hv hm hr
  cases hrun : c.run s with
  | ok u s' =>
    simp only [after, hrun]
    exact (hup.of_ok hrun).1
  | error e s' =>
    simp only [after, hrun]
    exact hup.of_error hrun

theorem Later.upholds (hv : s.Valid) (hm : s.Remembers) (h : Later s s') : s.Upholds s' := by
  induction h with
  | refl => exact .refl hv hm
  | call c _ hr ih => exact ih.trans (c.upholds ih.valid ih.remembers hr)

theorem Reached.sane (h : Reached s) : s.Valid ∧ s.Remembers :=
  have hup := Later.upholds valid_empty (kept_empty _) h
  ⟨hup.valid, hup.remembers⟩

/-- The fact `f` of the grammar `r` is told to be `v`, in calls that lead to `s` or in calls that follow on `s'`. -/
inductive Told (s s' : Store V K) (r : Ref) (f : FactName) (v : f.Carrier V K) : Prop
  | before {s₀ s₁ : Store V K} {held : List Ref} : Reached s₀ → s₀.HasRef r → fact held f r s₀ = .ok v s₁ →
      Later s₁ s → Told s s' r f v
  | after {s₀ s₁ : Store V K} {held : List Ref} : Later s' s₀ → fact held f r s₀ = .ok v s₁ → Told s s' r f v

/-- What is told at any time is what is read in a store that has all that `s'` has. -/
theorem Told.exists_tells {f : FactName} {v : f.Carrier V K} (h : Told s s' r f v) (hup : s.Upholds s')
    (hr : s'.HasRef r) : ∃ t, s'.Upholds t ∧ Tells r f v t := by
  cases h with
  | before hreached hr₀ hf hlater =>
    obtain ⟨hv, hm⟩ := hreached.sane
    obtain ⟨h₁, i, hi, hread⟩ := (fact_upholds hv hm _ f hr₀).of_ok hf
    have h' := (hlater.upholds h₁.valid h₁.remembers).trans hup
    exact ⟨s', .refl hup.valid hup.remembers, i, hi.grow h'.toGrows, h'.reads hi.2 hread⟩
  | after hlater hf =>
    have h₀ := hlater.upholds hup.valid hup.remembers
    obtain ⟨h₁, htells⟩ := (fact_upholds h₀.valid h₀.remembers _ f (hr.of_le h₀.size_le)).of_ok hf
    exact ⟨_, h₀.trans h₁, htells⟩

end Predictive.Grammar
