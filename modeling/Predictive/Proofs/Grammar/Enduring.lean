import Predictive.Proofs.Grammar.Guarding

/-!
What realizing keeps, every call keeps: only realizing binds nodes, and what else a call does leaves the nodes as they
are.
-/
namespace Predictive.Grammar

open Store

variable {V K α β : Type} [Kind K] {s s' : Store V K} {r : Ref} {rs : List Ref} {held : List Ref}
  {F : Fault → Prop} {P : Store V K → Prop}

/-- What `P` says of a store it says after `w`, unless `w` stops at a fault that is not of `F`. -/
def Preserves (F : Fault → Prop) (P : Store V K → Prop) (w : Work V K α) : Prop :=
  ∀ s, P s → (∀ a s', w s = .ok a s' → P s') ∧ ∀ e s', w s = .error e s' → F e → P s'

namespace Preserves

variable {w : Work V K α} {k : α → Work V K β}

theorem pure (a : α) : Preserves F P (Pure.pure a : Work V K α) := by
  refine fun s hP => ⟨fun b s' h => ?_, fun e s' h => nomatch h⟩
  cases h
  exact hP

theorem bind (h : Preserves F P w) (hk : ∀ a, Preserves F P (k a)) : Preserves F P (w >>= k) := by
  refine fun s hP => ⟨fun b s' hb => ?_, fun e s' he hF => ?_⟩
  · obtain ⟨a, s₁, hw, hb⟩ := bind_eq_ok hb
    exact (hk a s₁ ((h s hP).1 a s₁ hw)).1 b s' hb
  · rcases bind_eq_error he with hw | ⟨a, s₁, hw, he⟩
    · exact (h s hP).2 e s' hw hF
    · exact (hk a s₁ ((h s hP).1 a s₁ hw)).2 e s' he hF

theorem mapM {f : β → Work V K α} (h : ∀ x, Preserves F P (f x)) (xs : List β) : Preserves F P (xs.mapM f) := by
  induction xs with
  | nil => exact .pure []
  | cons x xs ih =>
    rw [List.mapM_cons]
    exact (h x).bind fun y => ih.bind fun ys => .pure _

theorem discard (h : Preserves F P w) : Preserves F P (do let _ ← w) := h.bind fun _ => .pure ()

/-- What holds wherever `w` may lead holds after it. -/
theorem of_leads {R : Store V K → Store V K → Prop} (h : ∀ s, P s → Leads R s w fun _ _ => True)
    (hR : ∀ s s', P s → R s s' → P s') : Preserves F P w := fun s hP =>
  ⟨fun _ s' ha => hR s s' hP ((h s hP).of_ok ha).1, fun _ s' he _ => hR s s' hP ((h s hP).of_error he)⟩

end Preserves

variable [Value V]

/-- What `P` says of stores endures where nothing is bound, and where a grammar is realized without a fault other than
those of `F`. -/
structure Enduring (F : Fault → Prop) (P : Store V K → Prop) : Prop where
  valid : ∀ {s}, P s → s.Valid
  remembers : ∀ {s}, P s → s.Remembers
  same : ∀ {s s'}, P s → s.Upholds s' → s.SameTargets s' → P s'
  realize : ∀ (held : List Ref) {r s}, P s → s.HasRef r → (∀ s', Grammar.realize held r s = .ok () s' → P s') ∧
    ∀ e s', Grammar.realize held r s = .error e s' → F e → P s'

/-- `P` holds, and the nodes of `rs` are there. -/
def Provides (P : Store V K → Prop) (rs : List Ref) (s : Store V K) : Prop := P s ∧ ∀ r ∈ rs, s.HasRef r

namespace Enduring

variable (h : Enduring F P)
include h

theorem learn (hP : Provides P rs s) (hl : s.Learns s') : Provides P rs s' := by
  have hup := hl.upholds (h.valid hP.1)
  refine ⟨h.same hP.1 hup ?_, fun r hr => (hP.2 r hr).of_le hup.size_le⟩
  obtain ⟨⟨b, es, rfl⟩, -⟩ := hl
  exact fun _ => rfl

theorem preserves_realize (held : List Ref) (r : Ref) :
    Preserves F (Provides P [r]) (Grammar.realize held r : Work V K Unit) := by
  intro s ⟨hP, hrs⟩
  have hr := hrs r List.mem_cons_self
  have hevolves := realize_evolves (h.valid hP) held hr
  refine ⟨fun u s' hg => ⟨(h.realize held hP hr).1 s' hg, fun r' hr' => ?_⟩,
    fun e s' hg hF => ⟨(h.realize held hP hr).2 e s' hg hF, fun r' hr' => ?_⟩⟩
  · exact (hrs r' hr').of_le (hevolves.of_ok hg).1.size_le
  · exact (hrs r' hr').of_le (hevolves.of_error hg).size_le

/-- Work that realizes a grammar first, and learns of its nodes after that. -/
theorem preserves_of_learns {w : Work V K α} (held : List Ref) (r : Ref)
    (hok : ∀ {s s' a}, s.Valid → s.Remembers → s.HasRef r → w s = .ok a s' →
      ∃ s₁, Grammar.realize held r s = .ok () s₁ ∧ s₁.Learns s')
    (herror : ∀ {s s' e}, s.Valid → s.Remembers → s.HasRef r → w s = .error e s' →
      Grammar.realize held r s = .error e s' ∨ ∃ s₁, Grammar.realize held r s = .ok () s₁ ∧ s₁.Learns s' ∧
        s₁.Blocked (s₁.liveness (r :: held)) r) : Preserves F (Provides P [r]) w := by
  intro s hP
  have hr := hP.2 r List.mem_cons_self
  obtain ⟨hrealized, hfault⟩ := h.preserves_realize held r s hP
  constructor
  · intro a s' hw
    obtain ⟨s₁, hg, hl⟩ := hok (h.valid hP.1) (h.remembers hP.1) hr hw
    exact h.learn (hrealized () s₁ hg) hl
  · intro e s' hw hF
    rcases herror (h.valid hP.1) (h.remembers hP.1) hr hw with hg | ⟨s₁, hg, hl, -⟩
    · exact hfault e s' hg hF
    · exact h.learn (hrealized () s₁ hg) hl

theorem preserves_fact (held : List Ref) (f : FactName) (r : Ref) :
    Preserves F (Provides P [r]) (fact held f r : Work V K (f.Carrier V K)) :=
  h.preserves_of_learns held r exists_realize_of_fact blocked_of_fact

theorem preserves_validate (held : List Ref) (r : Ref) :
    Preserves F (Provides P [r]) (validate held r : Work V K (Except (Rejection K) (ValidGrammar V K))) :=
  h.preserves_of_learns held r exists_realize_of_validate blocked_of_validate

theorem preserves_subtree (held : List Ref) (r : Ref) (id : NodeId) :
    Preserves F (Provides P [r]) (subtree held r id : Work V K (Option Ref)) := by
  refine (h.preserves_realize held r).bind fun _ => .of_leads (R := Eq) (fun s _ => .get ?_) fun _ _ hP hs => hs ▸ hP
  exact (Leads.liftExcept rfl).mono (fun _ h => h) fun _ _ _ _ => trivial

theorem preserves_report (held : List Ref) (e : Rejection K) :
    Preserves F (Provides P [e.grammar]) (e.report held : Work V K String) := by
  have hrender : ∀ r, Preserves F (Provides P [e.grammar]) (render (e.grammar :: held) r : Work V K String) := by
    refine fun r => .of_leads (R := Eq) (fun s _ => .get ?_) fun _ _ hP hs => hs ▸ hP
    split
    · exact .pure rfl trivial
    · exact .throw rfl _
  refine (Preserves.mapM (fun c => ?_) _).bind fun _ => .pure _
  refine (h.preserves_subtree held e.grammar c.disjunction).bind fun found => ?_
  cases found with
  | none => exact .pure _
  | some r => exact (hrender r).bind fun _ => .pure _

/-- A call that binds nothing keeps `P`. -/
theorem preserves_of_sameTargets {c : Call V K} (hsame : ∀ s, Leads SameTargets s c.run fun _ _ => True) :
    Preserves F (Provides P c.refs) c.run := by
  intro s ⟨hP, hrs⟩
  have hup := c.run_upholds (h.valid hP) (h.remembers hP) hrs
  refine ⟨fun u s' hs => ?_, fun e s' hs _ => ?_⟩
  · obtain ⟨hup, -⟩ := hup.of_ok hs
    exact ⟨h.same hP hup ((hsame s).of_ok hs).1, fun r hr => (hrs r hr).of_le hup.size_le⟩
  · have hup := hup.of_error hs
    exact ⟨h.same hP hup ((hsame s).of_error hs), fun r hr => (hrs r hr).of_le hup.size_le⟩

theorem preserves_run (c : Call V K) : Preserves F (Provides P c.refs) c.run := by
  cases c with
  | evaluate held sc e =>
    refine h.preserves_of_sameTargets fun s => ?_
    exact (evaluate_allowance e held sc).bind fun _ _ _ _ => .pure (fun _ => rfl) trivial
  | setName x r | forget x | listen b | take => exact h.preserves_of_sameTargets fun s => ⟨fun _ => rfl, trivial⟩
  | realize held r => exact h.preserves_realize held r
  | fact held f r => exact (h.preserves_fact held f r).discard
  | validate held r => exact (h.preserves_validate held r).discard
  | subtree held r id => exact (h.preserves_subtree held r id).discard
  | report held e => exact (h.preserves_report held e).discard

/-- What endures holds after any call that is stopped at no other fault than those of `F`. -/
theorem after {c : Call V K} (hP : P s) (hr : ∀ r ∈ c.refs, s.HasRef r)
    (hF : ∀ e s', c.run s = .error e s' → F e) : P (c.after s) := by
  obtain ⟨hok, herror⟩ := h.preserves_run c s ⟨hP, hr⟩
  cases hs : c.run s with
  | ok u s' =>
    simp only [Call.after, hs]
    exact (hok u s' hs).1
  | error e s' =>
    simp only [Call.after, hs]
    exact (herror e s' hs (hF e s' hs)).1

end Enduring

/-- The store is as it should be, targets are there, and bodies are what nodes are bound to. -/
structure Store.Orderly (s : Store V K) : Prop where
  valid : s.Valid
  remembers : s.Remembers
  tied : s.Tied
  bodies : s.KeepsBodies

theorem orderly_of_passes (h : s.Orderly) (h' : s.Evolves s') (hp : Passes r s s') : s'.Orderly :=
  ⟨h'.valid, (h'.upholds h.remembers).remembers, hp.tied h.tied, hp.bodies h.bodies⟩

theorem enduring_orderly : Enduring (fun _ => True) (Store.Orderly (V := V) (K := K)) where
  valid h := h.valid
  remembers h := h.remembers
  same h hup hsame :=
    ⟨hup.valid, hup.remembers, hsame.tied hup.toGrows h.tied, hsame.keepsBodies hup.toGrows h.bodies⟩
  realize held r s h hr := by
    have hevolves := realize_evolves h.valid held hr
    have hconcludes := realize_concludes h.valid h.remembers h.tied held hr
    refine ⟨fun s' hg => ?_, fun e s' hg _ => ?_⟩
    · rw [hg] at hconcludes
      exact orderly_of_passes h (hevolves.of_ok hg).1 hconcludes.1
    · rw [hg] at hconcludes
      exact orderly_of_passes h (hevolves.of_error hg) hconcludes.1

theorem Reached.orderly (h : Reached s) : s.Orderly := by
  induction h with
  | refl =>
    refine ⟨valid_empty, kept_empty _, fun i t ht => ?_, fun i b t hi => ?_⟩
    · cases ht
    · simp at hi
  | call c _ hr ih => exact enduring_orderly.after ih hr fun _ _ _ => trivial

end Predictive.Grammar
