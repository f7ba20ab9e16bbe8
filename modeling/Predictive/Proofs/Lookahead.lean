import Predictive.Proofs.Derivation

/-! What one token decides: how a derivation of a token list with a given first kind must go on. -/
namespace Predictive

variable {V K : Type} {G : Productions V K} {i j l r : Nat} {k : K} {p : Production V K}

theorem gives_of_has {t : Trait K} (hi : G i = some p) (h : Has G i t) : p.Gives (Has G) t := by
  refine Has.induct (motive := fun i t => ∀ p, G i = some p → p.Gives (Has G) t) ?_ h p hi
  intro i q t hq hg p hp
  obtain rfl := Option.some.inj (hq.symm.trans hp)
  exact hg.mono fun _ _ _ h => h.1

theorem Starts.productive (h : Starts G i k) : Productive G i := by
  obtain ⟨ks, h⟩ := h
  exact ⟨k :: ks, h⟩

theorem Starts.gives (hi : G i = some p) (h : Starts G i k) : p.Gives (Has G) (.startsWith k) :=
  gives_of_has hi (has_startsWith_iff.2 h)

theorem Yields.isSome {ks : List K} (h : Yields G i ks) : (G i).isSome := by
  cases h with
  | success h | element h | left h | right h | sequence h | transform h | deferred h =>
    exact Option.isSome_of_eq_some h

theorem ClashAt.isSome (h : ClashAt G i) : (G i).isSome := by
  cases h with
  | bothEmpty h | firstFirst h | follow h => exact Option.isSome_of_eq_some h

/-- Nothing after a node that may be empty may start as the node itself can. -/
theorem barred_of_nullable (hn : Nullable G i) (hk : Starts G i k) : Barred G i k := by
  refine Has.induct (motive := fun i t => t = .nullable → Has G i (.startsWith k) → Barred G i k) ?_
    (has_nullable_iff.2 hn) rfl (has_startsWith_iff.2 hk)
  rintro i p t hi hg rfl hk
  have hk := gives_of_has hi hk
  cases p with
  | success v => exact hk.elim
  | element k => exact hg.elim
  | disjunction l r =>
    rcases hg with ⟨hl, ihl⟩ | ⟨hr, ihr⟩
    · rcases hk with hk | hk
      · exact .inLeft hi (ihl rfl hk)
      · exact .ofRight hi hl.means hk.means
    · rcases hk with hk | hk
      · exact .ofLeft hi hr.means hk.means
      · exact .inRight hi (ihr rfl hk)
  | sequence l r =>
    obtain ⟨⟨hl, ihl⟩, hr, ihr⟩ := hg
    rcases hk with ⟨-, hk⟩ | ⟨-, hk⟩
    · exact .first hi hr.means (ihl rfl hk)
    · exact .second hi ⟨[], hl.means⟩ (ihr rfl hk)
  | transform f j => exact .transform hi (hg.2 rfl hk)
  | deferred j => exact .deferred hi (hg.2 rfl hk)

/-- The kinds `ks` come of parts that yield what `has` says. -/
def Production.Spells (has : Nat → List K → Prop) : Production V K → List K → Prop
  | success _, ks => ks = []
  | element k, ks => ks = [k]
  | disjunction l r, ks => has l ks ∨ has r ks
  | sequence l r, ks => ∃ xs ys, has l xs ∧ has r ys ∧ ks = xs ++ ys
  | transform _ j, ks | deferred j, ks => has j ks

variable {ks : List K}

theorem Production.Spells.mono {has has' : Nat → List K → Prop} (hp : p.Spells has ks)
    (h : ∀ j ∈ p.parts, ∀ js, has j js → has' j js) : p.Spells has' ks := by
  cases p with
  | success v | element k => exact hp
  | disjunction l r => exact hp.imp (h l (by simp [parts]) ks) (h r (by simp [parts]) ks)
  | sequence l r =>
    obtain ⟨xs, ys, hl, hr, rfl⟩ := hp
    exact ⟨xs, ys, h l (by simp [parts]) xs hl, h r (by simp [parts]) ys hr, rfl⟩
  | transform f j | deferred j => exact h j (by simp [parts]) ks hp

theorem yields_iff (hi : G i = some p) : Yields G i ks ↔ p.Spells (Yields G) ks := by
  constructor
  · intro h
    cases h with
    | success h | element h =>
      cases h.symm.trans hi
      rfl
    | left h hl =>
      cases h.symm.trans hi
      exact .inl hl
    | right h hr =>
      cases h.symm.trans hi
      exact .inr hr
    | sequence h hl hr =>
      cases h.symm.trans hi
      exact ⟨_, _, hl, hr, rfl⟩
    | transform h hj | deferred h hj =>
      cases h.symm.trans hi
      exact hj
  · intro h
    cases p with
    | success v =>
      obtain rfl := h
      exact .success hi
    | element k =>
      obtain rfl := h
      exact .element hi
    | disjunction l r => exact h.elim (.left hi) (.right hi)
    | sequence l r =>
      obtain ⟨xs, ys, hl, hr, rfl⟩ := h
      exact .sequence hi hl hr
    | transform f j => exact .transform hi h
    | deferred j => exact .deferred hi h

/-- Induction over how a word comes about, one case for all rules. -/
theorem Yields.induct {motive : Nat → List K → Prop}
    (step : ∀ i p ks, G i = some p → p.Spells (fun j js => Yields G j js ∧ motive j js) ks → motive i ks)
    (h : Yields G i ks) : motive i ks := by
  induction h with
  | success h => exact step _ _ _ h rfl
  | element h => exact step _ _ _ h rfl
  | left h hl ih => exact step _ _ _ h (.inl ⟨hl, ih⟩)
  | right h hr ih => exact step _ _ _ h (.inr ⟨hr, ih⟩)
  | sequence h hl hr ihl ihr => exact step _ _ _ h ⟨_, _, ⟨hl, ihl⟩, ⟨hr, ihr⟩, rfl⟩
  | transform h hj ih | deferred h hj ih => exact step _ _ _ h ⟨hj, ih⟩

section Values

variable [Value V] {ts : List (K × V)} {v w : V}

/-- What a production derives, if its parts derive what `has` says. -/
def Production.Builds (has : Nat → List (K × V) → V → Prop) : Production V K → List (K × V) → V → Prop
  | success a, ts, v => ts = [] ∧ v = a
  | element k, ts, v => ts = [(k, v)]
  | disjunction l r, ts, v => has l ts v ∨ has r ts v
  | sequence l r, ts, v => ∃ us ws a b, has l us a ∧ has r ws b ∧ ts = us ++ ws ∧ v = prepend a b
  | transform f j, ts, v => ∃ a, has j ts a ∧ f.apply a = .ok v
  | deferred j, ts, v => has j ts v

theorem Production.Builds.mono {has has' : Nat → List (K × V) → V → Prop} (hp : p.Builds has ts v)
    (h : ∀ j ∈ p.parts, ∀ us a, has j us a → has' j us a) : p.Builds has' ts v := by
  cases p with
  | success a | element k => exact hp
  | disjunction l r => exact hp.imp (h l (by simp [parts]) ts v) (h r (by simp [parts]) ts v)
  | sequence l r =>
    obtain ⟨us, ws, a, b, hl, hr, rfl, rfl⟩ := hp
    exact ⟨us, ws, a, b, h l (by simp [parts]) us a hl, h r (by simp [parts]) ws b hr, rfl, rfl⟩
  | transform f j =>
    obtain ⟨a, hj, hf⟩ := hp
    exact ⟨a, h j (by simp [parts]) ts a hj, hf⟩
  | deferred j => exact h j (by simp [parts]) ts v hp

theorem derives_iff (hi : G i = some p) : Derives G i ts v ↔ p.Builds (Derives G) ts v := by
  constructor
  · intro h
    cases h with
    | success h | element h =>
      obtain rfl := Option.some.inj (h.symm.trans hi)
      simp [Production.Builds]
    | left h hl =>
      obtain rfl := Option.some.inj (h.symm.trans hi)
      exact .inl hl
    | right h hr =>
      obtain rfl := Option.some.inj (h.symm.trans hi)
      exact .inr hr
    | sequence h hl hr =>
      obtain rfl := Option.some.inj (h.symm.trans hi)
      exact ⟨_, _, _, _, hl, hr, rfl, rfl⟩
    | transform h hj hf =>
      obtain rfl := Option.some.inj (h.symm.trans hi)
      exact ⟨_, hj, hf⟩
    | deferred h hj =>
      obtain rfl := Option.some.inj (h.symm.trans hi)
      exact hj
  · intro h
    cases p with
    | success a =>
      obtain ⟨rfl, rfl⟩ := h
      exact .success hi
    | element k =>
      obtain rfl := h
      exact .element hi
    | disjunction l r => exact h.elim (.left hi) (.right hi)
    | sequence l r =>
      obtain ⟨us, ws, a, b, hl, hr, rfl, rfl⟩ := h
      exact .sequence hi hl hr
    | transform f j =>
      obtain ⟨a, hj, hf⟩ := h
      exact .transform hi hj hf
    | deferred j => exact .deferred hi h

/-- Induction over a derivation, one case for all rules. -/
theorem Derives.induct {motive : Nat → List (K × V) → V → Prop}
    (step : ∀ i p ts v, G i = some p → p.Builds (fun j us a => Derives G j us a ∧ motive j us a) ts v → motive i ts v)
    (h : Derives G i ts v) : motive i ts v := by
  induction h with
  | success h => exact step _ _ _ _ h ⟨rfl, rfl⟩
  | element h => exact step _ _ _ _ h rfl
  | left h hl ih => exact step _ _ _ _ h (.inl ⟨hl, ih⟩)
  | right h hr ih => exact step _ _ _ _ h (.inr ⟨hr, ih⟩)
  | sequence h hl hr ihl ihr => exact step _ _ _ _ h ⟨_, _, _, _, ⟨hl, ihl⟩, ⟨hr, ihr⟩, rfl, rfl⟩
  | transform h hj hf ih => exact step _ _ _ _ h ⟨_, ⟨hj, ih⟩, hf⟩
  | deferred h hj ih => exact step _ _ _ _ h ⟨hj, ih⟩

theorem Derives.starts {x : V} (h : Derives G i ((k, x) :: ts) v) : Starts G i k := ⟨_, h.yields⟩

theorem Derives.nullable (h : Derives G i [] v) : Nullable G i := h.yields

/-- One token of lookahead decides everywhere. -/
def Decided (G : Productions V K) : Prop := ∀ i, ¬ClashAt G i

variable (decided : Decided G)
include decided

/-- The empty value is unique. -/
theorem Decided.emptyValue_unique (hv : Derives G i [] v) (hw : Derives G i [] w) : v = w := by
  generalize hts : ([] : List (K × V)) = ts at hv
  induction hv generalizing w with
  | success hi => exact ((derives_iff hi).1 hw).2.symm
  | element => cases hts
  | left hi hl ih =>
    subst hts
    rcases (derives_iff hi).1 hw with hw | hr
    · exact ih hw rfl
    · exact (decided _ (.bothEmpty hi hl.nullable hr.nullable)).elim
  | right hi hr ih =>
    subst hts
    rcases (derives_iff hi).1 hw with hl | hw
    · exact (decided _ (.bothEmpty hi hl.nullable hr.nullable)).elim
    · exact ih hw rfl
  | sequence hi _ _ ihl ihr =>
    obtain ⟨hl, hr⟩ := List.append_eq_nil_iff.1 hts.symm
    obtain ⟨us, ws, a, b, ha, hb, h, rfl⟩ := (derives_iff hi).1 hw
    obtain ⟨rfl, rfl⟩ := List.append_eq_nil_iff.1 h.symm
    rw [ihl ha hl.symm, ihr hb hr.symm]
  | transform hi _ hf ih =>
    obtain ⟨a, ha, hf'⟩ := (derives_iff hi).1 hw
    rw [ih ha hts] at hf
    exact Except.ok.inj (hf.symm.trans hf')
  | deferred hi _ ih => exact ih ((derives_iff hi).1 hw) hts

end Values

end Predictive
