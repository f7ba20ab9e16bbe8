import Mathlib.Data.Fintype.Card
import Predictive.Proofs.Lookahead
import Predictive.Zipper.Focus

/-!
The way down to the element that consumes the next token. In a table whose facts are those of its derivations and where
one token decides, it is there for every token that can come first, and no slot is met twice.
-/
namespace Predictive

variable {V K : Type}

def Form.production : Form V K → Production V K
  | success v => .success v
  | element k => .element k
  | disjunction l r => .disjunction l r
  | sequence l r => .sequence l r
  | transform f i => .transform f i

theorem Form.production_injective {form form' : Form V K} (h : form.production = form'.production) : form = form' := by
  cases form <;> cases form' <;> simp_all [Form.production]

theorem Form.parts_production (form : Form V K) : form.production.parts = form.children := by
  cases form <;> rfl

namespace ValidGrammar

/-- A table as a system of productions, one for each slot. -/
def productions [Ord K] (g : ValidGrammar V K) : Productions V K := fun s => g.entries[s]?.map (·.form.production)

/-- Slots name entries, the facts of the entries are those of their derivations, and one token decides. -/
structure Lawful [Value V] [Kind K] (g : ValidGrammar V K) : Prop where
  root : g.root < g.size
  children : ∀ (s : Slot) (e : Entry V K), g.entries[s]? = some e → ∀ c ∈ e.form.children, c < g.size
  first : ∀ (s : Slot) (e : Entry V K), g.entries[s]? = some e → ∀ k, k ∈ e.first ↔ Starts g.productions s k
  nullable : ∀ (s : Slot) (e : Entry V K), g.entries[s]? = some e →
    (e.emptyValue.isSome = true ↔ Nullable g.productions s)
  emptyValue : ∀ (s : Slot) (e : Entry V K) (v : V), g.entries[s]? = some e → e.emptyValue = some v →
    Derives g.productions s [] v
  decided : Decided g.productions

end ValidGrammar

section

variable [Value V] {G : Productions V K} {k : K} {s t : Slot} {c c' : Context V}

/-- One step down from `s` towards an element of the kind `k`, from the context `c` into another. -/
inductive Descends (G : Productions V K) (k : K) : Slot → Context V → Slot → Context V → Prop
  | left {s l r c} : G s = some (.disjunction l r) → Starts G l k → Descends G k s c l c
  | right {s l r c} : G s = some (.disjunction l r) → ¬Starts G l k → Starts G r k → Descends G k s c r c
  | first {s l r c} : G s = some (.sequence l r) → Starts G l k → Descends G k s c l (c.push (.followBy r))
  | second {s l r v c} : G s = some (.sequence l r) → ¬Starts G l k → Derives G l [] v → Starts G r k →
      Descends G k s c r (c.push (.prepend v))
  | transform {s f i c} : G s = some (.transform f i) → Starts G i k → Descends G k s c i (c.push (.apply f))

/-- The element below `s` that consumes `k` is `n` steps down. -/
inductive Falls (G : Productions V K) (k : K) : Nat → Slot → Prop
  | element {s : Slot} : G s = some (.element k) → Falls G k 0 s
  | step {n : Nat} {s t : Slot} : (∀ c, ∃ c', Descends G k s c t c') → Falls G k n t → Falls G k (n + 1) s

theorem Descends.starts (h : Descends G k s c t c') : Starts G t k := by
  cases h <;> assumption

theorem Descends.production (h : Descends G k s c t c') : ∃ p, G s = some p ∧ t ∈ p.parts := by
  cases h with
  | left h | right h | first h | second h | transform h => exact ⟨_, h, by simp [Production.parts]⟩

/-- There is only one way down. -/
theorem Descends.unique {t' : Slot} {d d' : Context V} (h : Descends G k s c t c') (h' : Descends G k s d t' d') :
    t = t' := by
  cases h <;> cases h' <;> simp_all

theorem Falls.unique {n m : Nat} (h : Falls G k n s) (h' : Falls G k m s) : n = m := by
  induction h generalizing m with
  | element hs =>
    cases h' with
    | element => rfl
    | step hd =>
      obtain ⟨c', hd⟩ := hd .top
      cases hd with
      | left h | right h | first h | second h | transform h => cases hs.symm.trans h
  | step hd hn ih =>
    obtain ⟨c', hd⟩ := hd .top
    cases h' with
    | element hs =>
      cases hd with
      | left h | right h | first h | second h | transform h => cases hs.symm.trans h
    | step hd' hm =>
      obtain ⟨d', hd'⟩ := hd' .top
      obtain rfl := hd.unique hd'
      rw [ih hm]

theorem Falls.exists_le {n : Nat} (h : Falls G k n s) : ∀ m ≤ n, ∃ t, Falls G k m t := by
  induction h with
  | element h =>
    intro m hm
    obtain rfl : m = 0 := by omega
    exact ⟨_, .element h⟩
  | @step n s t hd hn ih =>
    intro m hm
    rcases Nat.eq_or_lt_of_le hm with rfl | hm
    · exact ⟨s, .step hd hn⟩
    · exact ih m (by omega)

theorem Falls.isSome {n : Nat} (h : Falls G k n s) : (G s).isSome := by
  cases h with
  | element h => rw [h]; rfl
  | step hd =>
    obtain ⟨c', hd⟩ := hd .top
    obtain ⟨p, hp, -⟩ := hd.production
    rw [hp]
    rfl

end

namespace ValidGrammar

variable {s t : Slot} {k : K}

section

variable [Ord K] {g : ValidGrammar V K}

theorem productions_isSome_iff : (g.productions s).isSome ↔ s < g.size := by
  simp [productions, size]

theorem entry_of_get {e : Entry V K} (he : g.entries[s]? = some e) : g.entry s = .ok e := by
  rw [entry, he]

theorem exists_entry (hs : s < g.size) : ∃ e, g.entries[s]? = some e ∧ g.productions s = some e.form.production := by
  have he : g.entries[s]? = some g.entries[s] := Array.getElem?_eq_getElem hs
  exact ⟨_, he, by rw [productions, he]; rfl⟩

theorem entry_of_form (form : Form V K) (hs : g.productions s = some form.production) :
    ∃ e, g.entry s = .ok e ∧ e.form = form := by
  obtain ⟨e, he, hf⟩ := Option.map_eq_some_iff.1 hs
  exact ⟨e, entry_of_get he, Form.production_injective hf⟩

theorem lt_of_starts (hk : Starts g.productions s k) : s < g.size := by
  obtain ⟨ks, hk⟩ := hk
  exact productions_isSome_iff.1 hk.isSome

/-- No slot is met twice on the way down, so it is shorter than the table. -/
theorem lt_size_of_falls [Value V] {n : Nat} (h : Falls g.productions k n s) : n < g.size := by
  have hslot : ∀ m : Fin (n + 1), ∃ t : Fin g.size, Falls g.productions k m t := fun m => by
    obtain ⟨t, ht⟩ := h.exists_le m (by omega)
    exact ⟨⟨t, productions_isSome_iff.1 ht.isSome⟩, ht⟩
  choose slot hslot using hslot
  have hinj : Function.Injective slot := fun a b hab => by
    have hb := hslot b
    rw [← hab] at hb
    exact Fin.ext ((hslot a).unique hb)
  have hcard := Fintype.card_le_of_injective slot hinj
  rw [Fintype.card_fin, Fintype.card_fin] at hcard
  omega

end

/-- One round of the descent from `s`: the element is found, or where to go on is. -/
def round [Kind K] (g : ValidGrammar V K) (k : K) (s : Slot) (c : Context V) :
    Except (ParseFault K) (Focus V K ⊕ Slot × Context V) := do
  match (← g.entry s).form with
  | .element e => if e = k then return .inl ⟨s, e, c⟩ else throw (.wrongElement k e)
  | .success _ => throw (.emptyElement k s)
  | .disjunction l r => if ← g.acceptsAt l k then return .inr (l, c) else return .inr (r, c)
  | .sequence l r =>
    let left ← g.entry l
    match left.emptyValue with
    | some v => if left.first.contains k then return .inr (l, c.push (.followBy r)) else return .inr (r, c.push (.prepend v))
    | none => return .inr (l, c.push (.followBy r))
  | .transform f i => return .inr (i, c.push (.apply f))

/-- The descent is one round after another. -/
theorem descend_succ [Kind K] (g : ValidGrammar V K) (k : K) (n : Nat) (s : Slot) (c : Context V) :
    g.descend k (n + 1) s c = (g.round k s c).bind (Sum.elim .ok fun p => g.descend k n p.1 p.2) := by
  rw [descend, round]
  cases g.entry s with
  | error e => rfl
  | ok e =>
    simp only [bind, Except.bind]
    cases e.form with
    | element j => by_cases hj : j = k <;> simp only [hj] <;> rfl
    | success v => rfl
    | disjunction l r =>
      dsimp only
      cases g.acceptsAt l k with
      | error e => rfl
      | ok b => cases b <;> rfl
    | sequence l r =>
      dsimp only
      cases g.entry l with
      | error e => rfl
      | ok left =>
        dsimp only
        cases left.emptyValue with
        | none => rfl
        | some v => cases left.first.contains k <;> rfl
    | transform f i => rfl

namespace Lawful

variable [Value V] [Kind K] {g : ValidGrammar V K} (h : g.Lawful)
include h

theorem lt_of_part {p : Production V K} (hs : g.productions s = some p) (ht : t ∈ p.parts) : t < g.size := by
  obtain ⟨e, he, rfl⟩ := Option.map_eq_some_iff.1 hs
  rw [Form.parts_production] at ht
  exact h.children s e he t ht

theorem exists_emptyValue (hn : Nullable g.productions s) : ∃ v, Derives g.productions s [] v := by
  obtain ⟨e, he, -⟩ := exists_entry (productions_isSome_iff.1 hn.isSome)
  obtain ⟨v, hv⟩ := Option.isSome_iff_exists.1 ((h.nullable s e he).2 hn)
  exact ⟨v, h.emptyValue s e v he hv⟩

theorem emptyValue_iff {e : Entry V K} {v : V} (he : g.entries[s]? = some e) :
    e.emptyValue = some v ↔ Derives g.productions s [] v := by
  constructor
  · exact h.emptyValue s e v he
  · intro hv
    obtain ⟨w, hw⟩ := Option.isSome_iff_exists.1 ((h.nullable s e he).2 hv.nullable)
    rw [hw, h.decided.emptyValue_unique hv (h.emptyValue s e w he hw)]

theorem acceptsAt_of_starts (hk : Starts g.productions s k) : g.acceptsAt s k = .ok true := by
  obtain ⟨e, he, -⟩ := exists_entry (lt_of_starts hk)
  rw [ValidGrammar.acceptsAt, entry_of_get he, Except.map, FinSet.contains_iff_mem.2 ((h.first s e he k).2 hk)]

theorem acceptsAt_of_not_starts (hs : s < g.size) (hk : ¬Starts g.productions s k) : g.acceptsAt s k = .ok false := by
  obtain ⟨e, he, -⟩ := exists_entry hs
  have hmem : e.first.contains k = false := by
    rw [Bool.eq_false_iff, ne_eq, FinSet.contains_iff_mem, h.first s e he]
    exact hk
  rw [ValidGrammar.acceptsAt, entry_of_get he, Except.map, hmem]

/-- A step down is the round that is taken. -/
theorem round_of_descends {c c' : Context V} (hd : Descends g.productions k s c t c') :
    g.round k s c = .ok (.inr (t, c')) := by
  cases hd with
  | left hs hk =>
    obtain ⟨e, he, hf⟩ := entry_of_form (.disjunction _ _) hs
    simp [round, bind, Except.bind, pure, Except.pure, he, hf, h.acceptsAt_of_starts hk]
  | right hs hl hk =>
    obtain ⟨e, he, hf⟩ := entry_of_form (.disjunction _ _) hs
    have hlt := h.lt_of_part hs (List.mem_cons_self ..)
    simp [round, bind, Except.bind, pure, Except.pure, he, hf, h.acceptsAt_of_not_starts hlt hl]
  | first hs hk =>
    obtain ⟨e, he, hf⟩ := entry_of_form (.sequence _ _) hs
    obtain ⟨left, hleft, -⟩ := exists_entry (lt_of_starts hk)
    have hmem := (h.first _ _ hleft k).2 hk
    simp only [round, bind, Except.bind, he, hf, entry_of_get hleft, FinSet.contains_iff_mem.2 hmem]
    cases left.emptyValue <;> rfl
  | second hs hl hv hk =>
    obtain ⟨e, he, hf⟩ := entry_of_form (.sequence _ _) hs
    obtain ⟨left, hleft, -⟩ := exists_entry (h.lt_of_part hs (List.mem_cons_self ..))
    have hmem := (h.first _ _ hleft k).not.2 hl
    have hempty := (h.emptyValue_iff hleft).2 hv
    simp [round, bind, Except.bind, pure, Except.pure, he, hf, entry_of_get hleft, hempty, hmem]
  | transform hs hk =>
    obtain ⟨e, he, hf⟩ := entry_of_form (.transform _ _) hs
    simp [round, bind, Except.bind, pure, Except.pure, he, hf]

theorem descend_step {c c' : Context V} (hd : Descends g.productions k s c t c') (n : Nat) :
    g.descend k (n + 1) s c = g.descend k n t c' := by
  rw [descend_succ, h.round_of_descends hd]
  rfl

/-- For every token that can come first there is an element that consumes it. -/
theorem exists_falls (hk : Starts g.productions s k) : ∃ n, Falls g.productions k n s := by
  rw [← has_startsWith_iff] at hk
  generalize ht : Trait.startsWith k = t at hk
  induction hk with
  | emptySuccess | anySuccess | anyElement | emptySequence | anySequence => cases ht
  | element hs =>
    cases ht
    exact ⟨0, .element hs⟩
  | left hs hl ih =>
    subst ht
    obtain ⟨n, hn⟩ := ih rfl
    exact ⟨n + 1, .step (fun c => ⟨c, .left hs hl.means⟩) hn⟩
  | right hs hr ih =>
    subst ht
    obtain ⟨n, hn⟩ := ih rfl
    have hl : ¬Starts g.productions _ k := fun hl => h.decided _ (.firstFirst hs hl hr.means)
    exact ⟨n + 1, .step (fun c => ⟨c, .right hs hl hr.means⟩) hn⟩
  | first hs _ hl _ ih =>
    cases ht
    obtain ⟨n, hn⟩ := ih rfl
    exact ⟨n + 1, .step (fun c => ⟨_, .first hs hl.means⟩) hn⟩
  | second hs hl hr _ ih =>
    cases ht
    obtain ⟨n, hn⟩ := ih rfl
    have hnot : ¬Starts g.productions _ k := fun hk =>
      h.decided _ (.follow hs (barred_of_nullable hl.means hk) hr.means)
    obtain ⟨v, hv⟩ := h.exists_emptyValue hl.means
    exact ⟨n + 1, .step (fun c => ⟨_, .second hs hnot hv hr.means⟩) hn⟩
  | transform hs hj ih =>
    subst ht
    obtain ⟨n, hn⟩ := ih rfl
    exact ⟨n + 1, .step (fun c => ⟨_, .transform hs hj.means⟩) hn⟩
  | deferred hs =>
    obtain ⟨e, -, he⟩ := Option.map_eq_some_iff.1 hs
    cases hf : e.form <;> simp [hf, Form.production] at he

end Lawful
end ValidGrammar
end Predictive
