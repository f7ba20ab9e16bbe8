import Predictive.Proofs.Grammar.Guarding

/-!
What a walk keeps alive. A node that has been seen is held by the nodes that led to it. So while no name lets go of a
node, a grammar that has been realized is alive all the way down, and can be walked over again.
-/
namespace Predictive.Grammar

open Store

variable {V K : Type}

namespace Store

section Names

variable [Ord K] {s s' s'' : Store V K} {h : Holding} {held : List Ref} {r : Ref}

theorem mem_values_iff {names : Std.TreeMap String Ref} : r ∈ names.values ↔
    ∃ x : String, names[x]? = some r := by
  have hvalues : names.values = names.toList.map Prod.snd := by
    change names.foldr (fun _ r rs => r :: rs) [] = _
    rw [Std.TreeMap.foldr_eq_foldr_toList, List.map_eq_foldr]
  simp only [hvalues, List.mem_map, Prod.exists, exists_eq_right, Std.TreeMap.mem_toList_iff_getElem?_eq_some]

/-- A name holds it. -/
def Named (s : Store V K) (h : Holding) : Prop := ∃ (x : String) (r : Ref), s.names[x]? = some r ∧ h ∈ r.held

theorem mem_inUse_iff : h ∈ s.inUse held ↔ s.Named h ∨ ∃ r ∈ held, h ∈ r.held := by
  simp only [inUse, List.flatMap_append, List.mem_append, List.mem_flatMap, mem_values_iff, Named]
  refine or_congr_left ⟨?_, ?_⟩
  · rintro ⟨r, ⟨x, hx⟩, hr⟩
    exact ⟨x, r, hx, hr⟩
  · rintro ⟨x, r, hx, hr⟩
    exact ⟨r, ⟨x, hx⟩, hr⟩

/-- A name that lets go of a node is counted. -/
def Retains (s s' : Store V K) : Prop :=
  s.releases ≤ s'.releases ∧ (s'.releases = s.releases → ∀ h, s.Named h → s'.Named h)

theorem Retains.of_same (hn : s'.names = s.names) (hr : s'.releases = s.releases) : s.Retains s' := by
  refine ⟨Nat.le_of_eq hr.symm, fun _ h hh => ?_⟩
  rwa [Named, hn]

theorem Retains.refl (s : Store V K) : s.Retains s := .of_same rfl rfl

theorem Retains.trans (h : s.Retains s') (h' : s'.Retains s'') : s.Retains s'' := by
  refine ⟨Nat.le_trans h.1 h'.1, fun heq g hg => ?_⟩
  have hle := h.1
  have hle' := h'.1
  exact h'.2 (by omega) g (h.2 (by omega) g hg)

instance : IsTrans (Store V K) Retains := ⟨fun _ _ _ => .trans⟩

theorem Retains.inUse (h : s.Retains s') (heq : s'.releases = s.releases) : s.inUse held ⊆ s'.inUse held := by
  intro g hg
  rw [mem_inUse_iff] at hg ⊢
  exact hg.imp_left (h.2 heq g)

end Names

end Store

section Evaluation

variable [Ord K] {s : Store V K}

theorem setName_retains (x : String) (r : Ref) : Leads Retains s (setName x r : Work V K Unit) fun _ _ => True := by
  refine ⟨⟨Nat.le_add_right _ _, fun heq h ⟨y, r', hy, hh⟩ => ?_⟩, trivial⟩
  refine ⟨y, r', ?_, hh⟩
  rw [Std.TreeMap.getElem?_insert]
  split
  · -- the name has held something before, which is counted
    rename_i hxy
    obtain rfl : x = y := Std.LawfulEqOrd.compare_eq_iff_eq.1 hxy
    simp only [hy, Option.elim_some] at heq
    have hpos := List.length_pos_of_mem hh
    omega
  · exact hy

theorem defineKnot_retains {make : Work V K Ref} (knot : Nat) (h : Leads Retains s make fun _ _ => True) :
    Leads Retains s (defineKnot knot make) fun _ _ => True := by
  rcases defineKnot_cases knot make s with ⟨r, s₁, hm, hd⟩ | ⟨s₁, hm, hd⟩ | ⟨e, s₁, hm, hd⟩
  · exact .of_eq_ok hd ((h.of_ok hm).1.trans (.of_same rfl rfl)) trivial
  · exact .of_eq_error hd ((h.of_error hm).trans (.of_same rfl rfl))
  · exact .of_eq_error hd (h.of_error hm)

theorem rounds_retains {step : Nat → Ref → Work V K Ref} (n i : Nat) (r : Ref)
    (h : ∀ i r s, Leads Retains s (step i r) fun _ _ => True) :
    Leads Retains s (rounds step n i r) fun _ _ => True := by
  induction n generalizing s i r with
  | zero => exact .pure (.refl s) trivial
  | succ n ih => exact (h i r s).bind fun r' s₁ _ _ => ih (i + 1) r'

/-- Evaluating an expression loses hold of a node only where a name is given away. -/
theorem evaluate_retains (e : Expr V K) (held : List Ref) (sc : Scope) :
    Leads Retains s (e.evaluate held sc) fun _ _ => True := by
  have hadd : ∀ {s : Store V K} (shape : Shape V K), Leads Retains s (add shape) fun _ _ => True := fun _ =>
    ⟨.of_same rfl rfl, trivial⟩
  have haddMany : ∀ {s : Store V K} (inner : Ref) (v : V), Leads Retains s (addMany inner v) fun _ _ => True :=
    fun _ _ => ⟨.of_same rfl rfl, trivial⟩
  induction e generalizing s held sc with
  | success v | element k | indexed kind | deferred e _ => exact hadd _
  | disjunction l r ihl ihr | sequence l r ihl ihr =>
    exact (ihl held sc).bind fun a s₁ _ _ => (ihr (a :: held) sc).bind fun b s₂ _ _ => hadd _
  | transform f e ih => exact (ih held sc).bind fun a s₁ _ _ => hadd _
  | optional e v ih => exact (ih held sc).bind fun a s₁ _ _ => (hadd _).bind fun b s₂ _ _ => hadd _
  | many e v ih => exact (ih held sc).bind fun a s₁ _ _ => haddMany a v
  | many1 e v ih => exact (ih held sc).bind fun a s₁ _ _ => (haddMany a v).bind fun b s₂ _ _ => hadd _
  | recursive x body ih =>
    have hopen : Leads Retains s (openKnot : Work V K Nat) fun _ _ => True := ⟨.of_same rfl rfl, trivial⟩
    exact hopen.bind fun knot s₁ _ _ => defineKnot_retains knot (ih held _)
  | name x =>
    simp only [Expr.evaluate, lookup]
    split
    · exact .pure (.refl s) trivial
    · refine .get ?_
      split
      · exact .pure (.refl s) trivial
      · exact .throw (.refl s) _
  | save x e ih =>
    exact (ih held sc).bind fun r s₁ _ _ => (setName_retains x r).bind fun _ s₂ _ _ => .pure (.refl s₂) trivial
  | touch e ih =>
    exact (ih held sc).bind fun r s₁ _ _ => (deref_leads (.refl s₁) _ r).bind fun _ s₂ _ _ => .pure (.refl s₂) trivial
  | repeated n x start step ihs iht =>
    exact (ihs held sc).bind fun r s₁ _ _ => rounds_retains n 0 r fun i r' s' => iht held _
  | malformed => exact .throw (.refl s) _

/-- While no name lets go of a node, working out a target leaves the walk as it is. -/
theorem produce_retains (w : Walk) (pending : List Ref) (o : Origin V K) :
    Leads Retains s (produce w pending o) fun x s' => s'.releases = s.releases → x.2 = w := by
  cases o with
  | known body => exact .pure (.refl s) fun _ => rfl
  | delayed e sc =>
    refine .get ((Leads.adaptExcept (evaluate_retains e _ sc)).bind fun t s₁ _ _ => .get ?_)
    split
    · exact .pure (.refl s₁) fun _ => rfl
    · rename_i hne
      exact .get (.pure (.refl s₁) fun heq => absurd heq hne)

theorem bindTarget_retains (w : Walk) (pending : List Ref) (i : NodeId) (o : Origin V K) :
    Leads Retains s (bindTarget w pending i o) fun x s' =>
      s'.releases = s.releases → x.2 = { w with bound := w.bound + 1 } := by
  refine (produce_retains w (.node i :: pending) o).bind fun x s₁ h₁ hx => .get ?_
  split
  · exact .throw (.refl s₁) _
  · have hset : s₁.Retains (s₁.setTarget i x.1) := .of_same rfl rfl
    refine (Leads.modify hset).bind fun _ s₂ _ he => .get ?_
    subst he
    refine (Leads.liftExcept (.refl _)).bind fun _ s₃ _ ⟨he, _⟩ => ?_
    subst he
    exact .pure (.refl _) fun heq => by rw [hx heq]

end Evaluation

namespace Store

section Walking

variable [Ord K] {s s' : Store V K} {held pending : List Ref} {r x : Ref} {i j m : Nat} {l : Liveness} {w : Walk}

/-- What is held by a set that keeps itself, by what is in use and by what is alive, is alive. -/
theorem isAlive_of_sustains {A : Holding → Prop} (hi : i < s.nodes.size) (hA : ∀ h, A h → h ∈ s.inUse held ∨
    (∃ g, A g ∧ h ∈ s.heldBy g) ∨ ∃ m, (s.liveness held).isAlive m = true ∧ h ∈ s.heldBy (.node m))
    (hAi : A (.node i)) : (s.liveness held).isAlive i = true := by
  refine isAlive_iff.2 ⟨hi, fun h => A h ∨ ∃ B, s.Sustains (s.inUse held) B ∧ B h, fun h hh => ?_, .inl hAi⟩
  rcases hh with hAh | ⟨B, hB, hBh⟩
  · rcases hA h hAh with huse | ⟨g, hg, hgh⟩ | ⟨m, hm, hmh⟩
    · exact .inl huse
    · exact .inr ⟨g, .inl hg, hgh⟩
    · obtain ⟨-, B, hB, hBm⟩ := isAlive_iff.1 hm
      exact .inr ⟨.node m, .inr ⟨B, hB, hBm⟩, hmh⟩
  · exact (hB h hBh).imp_right fun ⟨g, hg, hgh⟩ => ⟨g, .inr ⟨B, hB, hg⟩, hgh⟩

theorem mem_heldBy_of_below (hj : .node j ∈ s.below m) : .node j ∈ s.heldBy (.node m) := by
  obtain ⟨shape, hm, hj⟩ := heldByNode_of_below hj
  simp only [heldBy, hm, List.mem_cons, List.mem_flatMap]
  exact .inr ⟨.node j, hj, List.mem_singleton_self _⟩

/-- The reference is in use, or a node that is alive leads to it. -/
def Secured (s : Store V K) (held : List Ref) (r : Ref) : Prop :=
  r ∈ held ∨ ∃ m, (s.liveness held).isAlive m = true ∧ r ∈ s.below m

theorem Secured.mem_heldBy {h : Holding} (hr : s.Secured held r) (hh : h ∈ r.held) :
    h ∈ s.inUse held ∨ ∃ m, (s.liveness held).isAlive m = true ∧ h ∈ s.heldBy (.node m) := by
  rcases hr with hr | ⟨m, hm, hr⟩
  · exact .inl (mem_inUse_iff.2 (.inr ⟨r, hr, hh⟩))
  · cases r with
    | node j =>
      obtain rfl := List.mem_singleton.1 hh
      exact .inr ⟨m, hm, mem_heldBy_of_below hr⟩
    | self k => cases hh

/-- Using what is secured keeps nothing alive that is not alive without it. -/
theorem isAlive_of_secured (hp : ∀ r ∈ pending, s.Secured held r)
    (hi : (s.liveness (pending ++ held)).isAlive i = true) : (s.liveness held).isAlive i = true := by
  obtain ⟨hlt, A, hsus, hAi⟩ := isAlive_iff.1 hi
  refine isAlive_of_sustains hlt (fun h hh => ?_) hAi
  rcases hsus h hh with huse | hheld
  · rcases mem_inUse_iff.1 huse with hn | ⟨r, hr, hrh⟩
    · exact .inl (mem_inUse_iff.2 (.inl hn))
    · rcases List.mem_append.1 hr with hr | hr
      · exact ((hp r hr).mem_heldBy hrh).imp_right .inr
      · exact .inl (mem_inUse_iff.2 (.inr ⟨r, hr, hrh⟩))
  · exact .inr (.inl hheld)

/-- The walk has hold of what it has seen and of what is pending. -/
structure Grips (s : Store V K) (held pending : List Ref) (w : Walk) : Prop where
  kept : ∀ i, w.kept.isAlive i = true → (s.liveness held).isAlive i = true
  seen : ∀ i ∈ w.seen, (s.liveness held).isAlive i = true
  pending : ∀ r ∈ pending, s.Secured held r
  held : w.held = held

namespace Grips

theorem skip (h : s.Grips held (r :: pending) w) : s.Grips held pending w :=
  ⟨h.kept, h.seen, fun r' hr' => h.pending r' (List.mem_cons_of_mem _ hr'), h.held⟩

/-- What the walk comes to is alive without the walk. -/
theorem isAlive (h : s.Grips held (r :: pending) w) (hr : s.deref? (w.liveness s pending) r = some i)
    (hi : i < s.nodes.size) : (s.liveness held).isAlive i = true := by
  cases r with
  | node j =>
    cases hr
    refine isAlive_of_sustains (A := (· = .node i)) hi (fun g hg => ?_) rfl
    subst hg
    exact ((h.pending _ List.mem_cons_self).mem_heldBy (List.mem_singleton_self _)).imp_right .inr
  | self k =>
    obtain ⟨-, hlive⟩ := Option.filter_eq_some_iff.1 hr
    simp only [Walk.liveness, Bool.or_eq_true, Bool.and_eq_true] at hlive
    rcases hlive with (⟨-, hseen⟩ | hkept) | hcounted
    · exact h.seen i hseen
    · exact h.kept i hkept
    · rw [h.held] at hcounted
      exact isAlive_of_secured h.skip.pending hcounted

theorem see (h : s.Grips held (r :: pending) w) (hr : s.deref? (w.liveness s pending) r = some i)
    (hi : i < s.nodes.size) : s.Grips held pending { w with seen := w.seen.insert i } where
  held := h.held
  kept := h.kept
  seen j hj := by
    rcases mem_insert_seen.1 hj with rfl | hj
    · exact h.isAlive hr hi
    · exact h.seen j hj
  pending := h.skip.pending

theorem expand (h : s.Grips held pending w) (hi : i ∈ w.seen) : s.Grips held (s.below i ++ pending) w where
  held := h.held
  kept := h.kept
  seen := h.seen
  pending r hr := (List.mem_append.1 hr).elim (fun hr => .inr ⟨i, h.seen i hi, hr⟩) (h.pending r)

theorem grow (h : s.Grips held pending w) (hs : s.Grows s') (hn : s.Retains s') (heq : s'.releases = s.releases) :
    s'.Grips held pending w :=
  have hlive : ∀ i, (s.liveness held).isAlive i = true → (s'.liveness held).isAlive i = true := fun _ hi =>
    hs.isAlive_of_inUse (hn.inUse heq) hi
  ⟨fun i hi => hlive i (h.kept i hi), fun i hi => hlive i (h.seen i hi),
    fun r hr => (h.pending r hr).imp_right fun ⟨m, hm, hr⟩ => ⟨m, hlive m hm, hs.below_subset hr⟩, h.held⟩

end Grips

end Walking

end Store

variable [Kind K] {s s' : Store V K} {held pending : List Ref} {r x : Ref} {i : Nat} {w w' : Walk}

/-- While no name lets go of a node, all that a walk has seen stays alive. -/
theorem realizeFrom_grips (fuel : Nat) {n : Nat} (hs : s.Valid) (hp : ∀ r ∈ pending, s.HasRef r)
    (hn : n ≤ s.releases) (h : s.releases = n → s.Grips held pending w) :
    Leads Retains s (realizeFrom fuel pending w) fun w' s' => s'.releases = n → s'.Grips held [] w' := by
  induction fuel generalizing s pending w with
  | zero =>
    cases pending with
    | nil => exact .pure (.refl s) h
    | cons r pending => exact .throw (.refl s) _
  | succ fuel ih =>
    cases pending with
    | nil => exact .pure (.refl s) h
    | cons r pending =>
      have hrest : ∀ r' ∈ pending, s.HasRef r' := fun r' hr' => hp r' (List.mem_cons_of_mem _ hr')
      have hsee : ∀ i shape, s.deref? (w.liveness s pending) r = some i → s.nodes[i]? = some shape →
          s.releases = n → s.Grips held pending { w with seen := w.seen.insert i } := fun i _ hderef hshape heq =>
        (h heq).see hderef (Array.getElem?_eq_some_iff.1 hshape).1
      have hmem : ∀ i, i ∈ ({ w with seen := w.seen.insert i } : Walk).seen := by simp
      rcases realizeFrom_cases fuel hs (hp r List.mem_cons_self) pending w with ⟨-, heq⟩ |
        ⟨i, shape, hderef, hshape, ⟨-, heq⟩ | ⟨-, o, rfl, heq⟩ | ⟨-, -, heq⟩⟩
      · exact .of_eq_error heq (.refl s)
      · exact (ih hs hrest hn fun heq => (h heq).skip).congr heq
      · -- the node is bound on the visit, which may be when a name lets go of something
        have hbinds : Leads Retains s (bindTarget { w with seen := w.seen.insert i } pending i o) fun x s₁ =>
            s.Evolves s₁ ∧ (s₁.releases = s.releases → x.2 = _) ∧
              s₁.nodes[i]? = some (.deferred o (some x.1)) ∧ s₁.HasRef x.1 ∧ x.2.seen = _ :=
          ((bindTarget_retains _ pending i o).and (bindTarget_evolves hs hshape _ pending)).mono (fun _ h => h.1)
            fun _ _ h₁ hx => ⟨h₁.2, hx⟩
        refine Leads.congr (hbinds.bind fun x s₁ h₁ hx => ?_) heq
        obtain ⟨he, hsame, hi₁, ht, -⟩ := hx
        refine ih he.valid (fun r' hr' => ?_) (Nat.le_trans hn h₁.1) fun heq => ?_
        · rcases List.mem_cons.1 hr' with rfl | hr'
          · exact ht
          · exact (hrest r' hr').of_le he.size_le
        · have hle := h₁.1
          have heq₁ : s₁.releases = s.releases := by omega
          have hgrips := ((hsee i _ hderef hshape (by omega)).grow he.toGrows h₁ heq₁).expand (hmem i)
          have hbelow : s₁.below i = [x.1] := by simp [Store.below, hi₁]
          rw [hbelow] at hgrips
          rw [hsame heq₁]
          exact ⟨hgrips.kept, hgrips.seen, hgrips.pending, hgrips.held⟩
      · refine (ih hs (fun r' hr' => ?_) hn fun heq => (hsee i shape hderef hshape heq).expand (hmem i)).congr heq
        exact (List.mem_append.1 hr').elim (hasRef_below hs) (hrest r')

/-- Where nothing is pending, all that is met has been seen. -/
theorem Walk.Explores.covers (h : w.Explores s []) (hr : w.Covers s r) (hx : s.Visits r x) : w.Covers s x := by
  have hbelow : ∀ i ∈ w.seen, ∀ x ∈ s.below i, w.Covers s x := fun i hi x hx =>
    ((h i hi).2.2 x hx).resolve_left List.not_mem_nil
  have hseen : ∀ i, s.Reaches r i → i ∈ w.seen := by
    intro i hi
    induction hi with
    | root hi =>
      obtain ⟨j, hj, hrj⟩ := hr
      obtain rfl := Option.some.inj (hrj.symm.trans hi)
      exact hj
    | part _ hx hj ih =>
      obtain ⟨j', hj', hxj⟩ := hbelow _ ih _ hx
      obtain rfl := Option.some.inj (hxj.symm.trans hj)
      exact hj'
  rcases hx with rfl | ⟨i, hi, hx⟩
  · exact hr
  · exact hbelow i (hseen i hi) x hx

variable [Value V]

/-- A grammar realizes in a walk, after which an event may be recorded. -/
theorem walk_of_realize (hv : s.Valid) (hm : s.Remembers) (hr : s.HasRef r) (hg : realize held r s = .ok () s') :
    ∃ w s₁, realizeFrom (2 * (s.nodes.size + s.potential) + 1) [r]
      { held := r :: held, kept := s.liveness (r :: held) } s = .ok w s₁ ∧ s₁.Learns s' ∧ (w.bound = 0 → s' = s₁) := by
  obtain ⟨s₀, s₀', hget, hg⟩ := bind_eq_ok hg
  cases hget
  obtain ⟨w, s₁, hwalk, hend⟩ := bind_eq_ok hg
  have hevolves := ((realizeFrom_evolves _ hv (List.forall_mem_singleton.2 hr) _).of_ok hwalk).1
  have hm₁ := (hevolves.upholds hm).remembers
  refine ⟨w, s₁, hwalk, ?_⟩
  split at hend
  · rename_i hbound
    exact ⟨((record_learns hm₁ (r :: held) r fun i => .realized i w.seen.size w.bound).of_ok hend).1,
      fun hzero => absurd hzero hbound⟩
  · cases hend
    exact ⟨.refl hm₁, fun _ => rfl⟩

namespace Store

omit [Value V] in
theorem Visits.of_below (h : s.Visits r x) (hx : s.nodeOf? x = some i) {y : Ref} (hy : y ∈ s.below i) :
    s.Visits r y :=
  .inr ⟨i, h.reaches hx, hy⟩

/-- No self-reference that is met on the way down from `r` is dead while `r` is in use. -/
def Alive (s : Store V K) (held : List Ref) (r : Ref) : Prop :=
  ∀ x, s.Visits r x → (s.deref? (s.liveness (r :: held)) x).isSome

theorem Learns.alive (h : s.Learns s') (ha : s.Alive held r) : s'.Alive held r := by
  intro x hx
  rw [h.liveness]
  obtain ⟨⟨b, es, rfl⟩, -⟩ := h
  exact ha x (hx.grow ⟨fun _ _ hi => .inl hi, fun _ _ hk => hk⟩)

end Store

/-- A grammar that has been realized is alive, if no name has let go of a node meanwhile. -/
theorem alive_of_realize (hv : s.Valid) (hm : s.Remembers) (hr : s.HasRef r) (hg : realize held r s = .ok () s')
    (hkeep : s'.releases = s.releases) : s'.Alive held r := by
  obtain ⟨w, s₁, hwalk, hl, -⟩ := walk_of_realize hv hm hr hg
  have hpending : ∀ r' ∈ [r], s.HasRef r' := List.forall_mem_singleton.2 hr
  have hgrips : s.Grips (r :: held) [r] { held := r :: held, kept := s.liveness (r :: held) } :=
    ⟨fun i hi => hi, fun i hi => absurd hi (by simp), fun r' hr' => .inl (List.mem_cons.2 (.inl (List.mem_singleton.1 hr'))),
      rfl⟩
  obtain ⟨-, hcovers, hexplores⟩ := (realizeFrom_evolves _ hv hpending _).of_ok hwalk
  have hseen := (hexplores fun i hi => absurd hi (by simp))
  have hsame : s₁.releases = s.releases := by
    obtain ⟨⟨b, es, rfl⟩, -⟩ := hl
    exact hkeep
  have hlast := ((realizeFrom_grips _ hv hpending (Nat.le_refl _) fun _ => hgrips).of_ok hwalk).2 hsame
  refine hl.alive fun x hx => ?_
  obtain ⟨i, hi, hxi⟩ := hseen.covers (hcovers r (.inl List.mem_cons_self)) hx
  cases x with
  | node j => rfl
  | self k => exact Option.isSome_of_eq_some (Option.filter_eq_some_iff.2 ⟨hxi, hlast.seen i hi⟩)

omit [Value V] in
/-- A walk over a grammar that is bound leaves the store as it is. -/
theorem realizeFrom_still {fuel : Nat} (hc : Complete s.productions i)
    (hp : ∀ x ∈ pending, ∀ n, s.nodeOf? x = some n → Below s.productions i n)
    (h : realizeFrom fuel pending w s = .ok w' s') : s' = s ∧ w'.bound = w.bound := by
  induction fuel generalizing pending w with
  | zero =>
    cases pending with
    | nil =>
      cases h
      exact ⟨rfl, rfl⟩
    | cons x pending => cases h
  | succ fuel ih =>
    cases pending with
    | nil =>
      cases h
      exact ⟨rfl, rfl⟩
    | cons x pending =>
      have hrest : ∀ x' ∈ pending, ∀ n, s.nodeOf? x' = some n → Below s.productions i n := fun x' hx' =>
        hp x' (List.mem_cons_of_mem _ hx')
      cases hx : s.deref? (w.liveness s pending) x with
      | none =>
        rw [realizeFrom_dead hx] at h
        cases h
      | some n =>
        have hb := hp x List.mem_cons_self n (nodeOf?_of_deref? hx)
        by_cases hw : n ∈ w.seen
        · rw [realizeFrom_skip hx hw] at h
          exact ih hrest h
        · obtain ⟨shape, hshape, hbound⟩ := exists_shape_of_production (hc n hb)
          rw [realizeFrom_visit hx hw hshape hbound] at h
          have hbelow : ∀ x' ∈ s.below n ++ pending, ∀ m, s.nodeOf? x' = some m → Below s.productions i m := by
            intro x' hx' m hm
            rcases List.mem_append.1 hx' with hx' | hx'
            · exact below_of_ref hc hb hx' hm
            · exact hrest x' hx' m hm
          exact ih (w := { w with seen := w.seen.insert n }) hbelow h

/-- A grammar that is realized once more is left as it is, and is alive. -/
theorem alive_of_realize_again (hv : s.Valid) (hm : s.Remembers) (hr : s.HasRef r) (hi : s.Realized r i)
    (hg : realize held r s = .ok () s') : s' = s ∧ s.Alive held r := by
  obtain ⟨w, s₁, hwalk, -, hsame⟩ := walk_of_realize hv hm hr hg
  have hpending : ∀ x ∈ [r], ∀ n, s.nodeOf? x = some n → Below s.productions i n := fun x hx n hn => by
    obtain rfl := List.mem_singleton.1 hx
    obtain rfl := Option.some.inj (hi.1.symm.trans hn)
    exact .refl
  obtain ⟨hstill, hbound⟩ := realizeFrom_still hi.2 hpending hwalk
  have hs' : s' = s := (hsame hbound).trans hstill
  subst hs'
  exact ⟨rfl, alive_of_realize hv hm hr hg rfl⟩

omit [Value V] in
/-- A grammar that is alive and bound realizes as it is. -/
theorem realize_of_alive (hi : s.Realized r i) (h : s.Alive held r) : realize held r s = .ok () s := by
  obtain ⟨n, hn⟩ := Option.isSome_iff_exists.1 (h r (.inl rfl))
  obtain rfl := Option.some.inj (hi.1.symm.trans (nodeOf?_of_deref? hn))
  exact realize_idle hi.2 hn fun m hb x hx => h x (.inr ⟨m, hi.reaches_iff.2 hb, hx⟩)

end Predictive.Grammar
