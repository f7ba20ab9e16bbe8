import Predictive.Proofs.Safety

/-!
Tables of one shape with values of different types: what one of them makes of tokens, the other one makes of tokens with
related values, if the relation respects how values are made.
-/
namespace Predictive

variable {V W K : Type} {strict : Prop}

/-- Related values are made of related values. -/
def Homomorphic [Value V] [Value W] (ρ : V → W → Prop) : Prop :=
  ∀ ⦃a a' b b'⦄, ρ a a' → ρ b b' → ρ (prepend a b) (prepend a' b')

/-- If the first result is a value, so is the second one, and they are related. If it is an error, the second one is the
same, should that be asked for. -/
def Follows {E α β : Type} (strict : Prop) (R : α → β → Prop) : Except E α → Except E β → Prop
  | .ok a, r => ∃ b, r = .ok b ∧ R a b
  | .error e, r => strict → r = .error e

/-- Where `f` gives a value, `f'` gives a related one for a related argument. -/
def Transformation.Maps (strict : Prop) (ρ : V → W → Prop) (f : Transformation V) (f' : Transformation W) : Prop :=
  ∀ v v', ρ v v' → Follows strict ρ (f.apply v) (f'.apply v')

inductive Form.Maps (strict : Prop) (ρ : V → W → Prop) : Form V K → Form W K → Prop
  | success {v v'} : ρ v v' → Maps strict ρ (.success v) (.success v')
  | element (k : K) : Maps strict ρ (.element k) (.element k)
  | disjunction (l r : Slot) : Maps strict ρ (.disjunction l r) (.disjunction l r)
  | sequence (l r : Slot) : Maps strict ρ (.sequence l r) (.sequence l r)
  | transform {f : Transformation V} {f' : Transformation W} (i : Slot) : f.Maps strict ρ f' →
      Maps strict ρ (.transform f i) (.transform f' i)

structure Entry.Maps [Ord K] (strict : Prop) (ρ : V → W → Prop) (e : Entry V K) (e' : Entry W K) : Prop where
  form : e.form.Maps strict ρ e'.form
  first : e'.first = e.first
  emptyValue : Option.Rel ρ e.emptyValue e'.emptyValue

/-- The tables have the same shape and facts, with values of `g'` related to those of `g`. -/
structure ValidGrammar.Maps [Ord K] (strict : Prop) (ρ : V → W → Prop) (g : ValidGrammar V K) (g' : ValidGrammar W K) :
    Prop where
  root : g'.root = g.root
  size : g'.size = g.size
  entries : ∀ (s : Slot) (e : Entry V K), g.entries[s]? = some e → ∃ e', g'.entries[s]? = some e' ∧ e.Maps strict ρ e'

/-- Tokens of one kind with related values. -/
structure TokenMaps (ρ : V → W → Prop) (t : K × V) (t' : K × W) : Prop where
  kind : t'.1 = t.1
  value : ρ t.2 t'.2

inductive Frame.Maps (strict : Prop) (ρ : V → W → Prop) : Frame V → Frame W → Prop
  | followBy (next : Slot) : Maps strict ρ (.followBy next) (.followBy next)
  | prepend {v v'} : ρ v v' → Maps strict ρ (.prepend v) (.prepend v')
  | apply {f : Transformation V} {f' : Transformation W} : f.Maps strict ρ f' → Maps strict ρ (.apply f) (.apply f')

inductive Context.Maps (strict : Prop) (ρ : V → W → Prop) : Context V → Context W → Prop
  | top : Maps strict ρ .top .top
  | push {frame frame' c c'} : frame.Maps strict ρ frame' → Maps strict ρ c c' →
      Maps strict ρ (c.push frame) (c'.push frame')

structure Focus.Maps (strict : Prop) (ρ : V → W → Prop) (f : Focus V K) (f' : Focus W K) : Prop where
  leaf : f'.leaf = f.leaf
  kind : f'.kind = f.kind
  context : f.context.Maps strict ρ f'.context

inductive Fold.Maps (strict : Prop) (ρ : V → W → Prop) : Fold V → Fold W → Prop
  | done {v v'} : ρ v v' → Maps strict ρ (.done v) (.done v')
  | suspended {v v'} (next : Slot) {c c'} : ρ v v' → c.Maps strict ρ c' →
      Maps strict ρ (.suspended ⟨v, next, c⟩) (.suspended ⟨v', next, c'⟩)

structure ParseState.Maps (strict : Prop) (ρ : V → W → Prop) (p : ParseState V) (p' : ParseState W) : Prop where
  limits : p'.limits = p.limits
  position : p'.position = p.position
  fold : Option.Rel (Fold.Maps strict ρ) p.fold p'.fold

/-- The same, and if the first parse is rejected, the second one is rejected in the same way. -/
def Heeds {α β : Type} (strict : Prop) (R : α → β → Prop) : Except (Stop K) α → Except (Stop K) β → Prop
  | .ok a, r => ∃ b, r = .ok b ∧ R a b
  | .error (.rejected e), r => r = .error (.rejected e)
  | .error (.fault f), r => strict → r = .error (.fault f)

theorem Follows.bind {E α β γ δ : Type} {R : α → β → Prop} {S : γ → δ → Prop} {r : Except E α} {r' : Except E β}
    {w : α → Except E γ} {w' : β → Except E δ} (h : Follows strict R r r')
    (hw : ∀ a b, R a b → Follows strict S (w a) (w' b)) : Follows strict S (r.bind w) (r'.bind w') := by
  cases r with
  | error e =>
    intro hs
    rw [h hs]
    rfl
  | ok a =>
    obtain ⟨b, rfl, hab⟩ := h
    exact hw a b hab

theorem Follows.map {E α β γ δ : Type} {R : α → β → Prop} {S : γ → δ → Prop} {r : Except E α} {r' : Except E β}
    {w : α → γ} {w' : β → δ} (h : Follows strict R r r') (hw : ∀ a b, R a b → S (w a) (w' b)) :
    Follows strict S (r.map w) (r'.map w') := by
  cases r with
  | error e =>
    intro hs
    rw [h hs]
    rfl
  | ok a =>
    obtain ⟨b, rfl, hab⟩ := h
    exact ⟨w' b, rfl, hw a b hab⟩

theorem Heeds.bind {α β γ δ : Type} {R : α → β → Prop} {S : γ → δ → Prop} {r : Except (Stop K) α}
    {r' : Except (Stop K) β} {w : α → Except (Stop K) γ} {w' : β → Except (Stop K) δ} (h : Heeds strict R r r')
    (hw : ∀ a b, R a b → Heeds strict S (w a) (w' b)) : Heeds strict S (r.bind w) (r'.bind w') := by
  match r with
  | .error (.rejected e) =>
    obtain rfl := h
    rfl
  | .error (.fault e) =>
    intro hs
    rw [h hs]
    rfl
  | .ok a =>
    obtain ⟨b, rfl, hab⟩ := h
    exact hw a b hab

theorem Follows.lift {α β : Type} {R : α → β → Prop} {r : Except (ParseFault K) α} {r' : Except (ParseFault K) β}
    (h : Follows strict R r r') : Heeds strict R (ParseState.lift r) (ParseState.lift r') := by
  cases r with
  | error e =>
    intro hs
    rw [h hs]
    rfl
  | ok a =>
    obtain ⟨b, rfl, hab⟩ := h
    exact ⟨b, rfl, hab⟩

theorem heeds_refl {α : Type} (r : Except (Stop K) α) : Heeds strict Eq r r := by
  match r with
  | .error (.rejected e) => rfl
  | .error (.fault e) => exact fun _ => rfl
  | .ok a => exact ⟨a, rfl, rfl⟩

variable {ρ : V → W → Prop} {s : Slot} {k : K} {c : Context V} {c' : Context W}

theorem Context.Maps.depth (hc : c.Maps strict ρ c') : c'.depth = c.depth := by
  induction hc with
  | top => rw [Context.depth, Context.depth]
  | push _ _ ih => rw [Context.depth, Context.depth, ih]

theorem Transformation.Maps.run {f : Transformation V} {f' : Transformation W} (hf : f.Maps strict ρ f') {v : V} {v' : W}
    (hv : ρ v v') : Follows (E := ParseFault K) strict ρ (f.run v) (f'.run v') := by
  have hw := hf v v' hv
  rw [Transformation.run, Transformation.run]
  cases hfv : f.apply v with
  | error text =>
    rw [hfv] at hw
    intro hs
    rw [hw hs]
  | ok w =>
    rw [hfv] at hw
    obtain ⟨w', hw', hrel⟩ := hw
    exact ⟨w', by rw [hw'], hrel⟩

/-- What a round of one table leads to, and what it leads to in the other one. -/
inductive RoundMaps (strict : Prop) (ρ : V → W → Prop) :
    Focus V K ⊕ Slot × Context V → Focus W K ⊕ Slot × Context W → Prop
  | found {f f'} : f.Maps strict ρ f' → RoundMaps strict ρ (.inl f) (.inl f')
  | onwards (t : Slot) {c c'} : c.Maps strict ρ c' → RoundMaps strict ρ (.inr (t, c)) (.inr (t, c'))

namespace ValidGrammar.Maps

variable [Kind K] {g : ValidGrammar V K} {g' : ValidGrammar W K} (hg : g.Maps strict ρ g')
include hg

theorem entry (s : Slot) : Follows strict (Entry.Maps strict ρ) (g.entry s) (g'.entry s) := by
  rw [ValidGrammar.entry, ValidGrammar.entry]
  cases he : g.entries[s]? with
  | none =>
    have hsize : g'.entries.size = g.entries.size := hg.size
    have hnone : g'.entries[s]? = none := by
      rw [Array.getElem?_eq_none_iff] at he ⊢
      omega
    intro _
    rw [hnone, hg.size]
  | some e =>
    obtain ⟨e', he', hmaps⟩ := hg.entries s e he
    exact ⟨e', by rw [he'], hmaps⟩

theorem acceptsAt (s : Slot) (k : K) : Follows strict Eq (g.acceptsAt s k) (g'.acceptsAt s k) :=
  (hg.entry s).map fun e e' he => by rw [he.first]

theorem round (k : K) (s : Slot) (hc : c.Maps strict ρ c') :
    Follows strict (RoundMaps strict ρ) (g.round k s c) (g'.round k s c') := by
  refine (hg.entry s).bind fun e e' he => ?_
  obtain ⟨hform, -, -⟩ := he
  generalize e.form = form, e'.form = form' at hform
  cases hform with
  | success hv => exact fun _ => rfl
  | element j =>
    dsimp only
    split
    · exact ⟨_, rfl, .found ⟨rfl, rfl, hc⟩⟩
    · exact fun _ => rfl
  | disjunction l r =>
    refine (hg.acceptsAt l k).bind fun a b hab => ?_
    subst hab
    cases a
    · exact ⟨_, rfl, .onwards r hc⟩
    · exact ⟨_, rfl, .onwards l hc⟩
  | sequence l r =>
    refine (hg.entry l).bind fun e e' he => ?_
    obtain ⟨-, hfirst, hempty⟩ := he
    rw [hfirst]
    generalize e.emptyValue = v, e'.emptyValue = v' at hempty
    cases hempty with
    | none => exact ⟨_, rfl, .onwards l (.push (.followBy r) hc)⟩
    | some hv =>
      dsimp only
      split
      · exact ⟨_, rfl, .onwards l (.push (.followBy r) hc)⟩
      · exact ⟨_, rfl, .onwards r (.push (.prepend hv) hc)⟩
  | transform i hf => exact ⟨_, rfl, .onwards i (.push (.apply hf) hc)⟩

theorem descend (k : K) (n : Nat) (s : Slot) (hc : c.Maps strict ρ c') :
    Follows strict (Focus.Maps strict ρ) (g.descend k n s c) (g'.descend k n s c') := by
  induction n generalizing s c c' with
  | zero => exact fun _ => rfl
  | succ n ih =>
    rw [g.descend_succ, g'.descend_succ]
    refine (hg.round k s hc).bind fun a b hab => ?_
    cases hab with
    | found hf => exact ⟨_, rfl, hf⟩
    | onwards t hc => exact ih t hc

theorem focusAt (k : K) (s : Slot) (hc : c.Maps strict ρ c') :
    Follows strict (Focus.Maps strict ρ) (g.focusAt s k c) (g'.focusAt s k c') := by
  refine (hg.acceptsAt s k).bind fun a b hab => ?_
  subst hab
  cases a
  · exact fun _ => rfl
  · rw [hg.size]
    exact hg.descend k g.size s hc

section

variable [Value V] [Value W] (hom : Homomorphic ρ) {v : V} {v' : W}
include hom

omit hg [Kind K] in
/-- Folding outwards. -/
theorem unwind (hc : c.Maps strict ρ c') (hv : ρ v v') :
    Follows (E := ParseFault K) strict (Fold.Maps strict ρ) (unwind v c) (unwind v' c') := by
  induction hc generalizing v v' with
  | top => exact ⟨_, rfl, .done hv⟩
  | push hframe hc ih =>
    cases hframe with
    | followBy next => exact ⟨_, rfl, .suspended next hv hc⟩
    | prepend hleft => exact ih (hom hleft hv)
    | apply hf =>
      rw [unwind_apply, unwind_apply]
      exact (hf.run hv).bind fun a b hab => ih hab

theorem seek (hc : c.Maps strict ρ c') (k : K) (hv : ρ v v') :
    Follows strict (Option.Rel fun p p' => p'.1 = p.1 ∧ p.2.Maps strict ρ p'.2) (g.seek k v c) (g'.seek k v' c') := by
  induction hc generalizing v v' with
  | top => exact ⟨_, rfl, .none⟩
  | push hframe hc ih =>
    cases hframe with
    | followBy next =>
      rw [seek_followBy, seek_followBy]
      refine (hg.entry next).bind fun e e' he => ?_
      obtain ⟨-, hfirst, hempty⟩ := he
      rw [hfirst]
      split
      · exact ⟨_, rfl, .some ⟨rfl, .push (.prepend hv) hc⟩⟩
      · generalize e.emptyValue = w, e'.emptyValue = w' at hempty
        cases hempty with
        | none => exact ⟨_, rfl, .none⟩
        | some hw => exact ih (hom hv hw)
    | prepend hleft => exact ih (hom hleft hv)
    | apply hf =>
      rw [seek_apply, seek_apply]
      exact (hf.run hv).bind fun a b hab => ih hab

theorem close (hc : c.Maps strict ρ c') (hv : ρ v v') :
    Follows strict (Option.Rel ρ) (g.close v c) (g'.close v' c') := by
  induction hc generalizing v v' with
  | top => exact ⟨_, rfl, .some hv⟩
  | push hframe hc ih =>
    cases hframe with
    | followBy next =>
      rw [close_followBy, close_followBy]
      refine (hg.entry next).bind fun e e' he => ?_
      obtain ⟨-, -, hempty⟩ := he
      generalize e.emptyValue = w, e'.emptyValue = w' at hempty
      cases hempty with
      | none => exact ⟨_, rfl, .none⟩
      | some hw => exact ih (hom hv hw)
    | prepend hleft => exact ih (hom hleft hv)
    | apply hf =>
      rw [close_apply, close_apply]
      exact (hf.run hv).bind fun a b hab => ih hab

theorem resume {d : Fold V} {d' : Fold W} (hd : d.Maps strict ρ d') (k : K) :
    Follows strict (Option.Rel (Focus.Maps strict ρ)) (d.resume g k) (d'.resume g' k) := by
  cases hd with
  | done hv => exact ⟨_, rfl, .none⟩
  | suspended next hv hc =>
    refine (hg.seek hom (.push (.followBy next) hc) k hv).bind fun a b hab => ?_
    cases hab with
    | none => exact ⟨_, rfl, .none⟩
    | some hp =>
      obtain ⟨hslot, hctx⟩ := hp
      dsimp only
      rw [hslot]
      refine (hg.focusAt k _ hctx).bind fun f f' hf => ⟨_, rfl, .some hf⟩

theorem foldFinish {d : Fold V} {d' : Fold W} (hd : d.Maps strict ρ d') :
    Follows strict (Option.Rel ρ) (d.finish g) (d'.finish g') := by
  cases hd with
  | done hv => exact ⟨_, rfl, .some hv⟩
  | suspended next hv hc => exact hg.close hom (.push (.followBy next) hc) hv

variable {p : ParseState V} {p' : ParseState W} {t : K × V} {t' : K × W} {ts : List (K × V)} {ts' : List (K × W)}

theorem focus (hp : p.Maps strict ρ p') (k : K) :
    Follows strict (Option.Rel (Focus.Maps strict ρ)) (p.focus g k) (p'.focus g' k) := by
  obtain ⟨-, -, hfold⟩ := hp
  unfold ParseState.focus
  generalize p.fold = fold, p'.fold = fold' at hfold
  cases hfold with
  | some hd => exact hg.resume hom hd k
  | none =>
    rw [ValidGrammar.accepts, ValidGrammar.accepts, hg.root]
    refine (hg.acceptsAt g.root k).bind fun a b hab => ?_
    subst hab
    cases a
    · exact ⟨_, rfl, .none⟩
    · rw [ValidGrammar.focus, ValidGrammar.focus, hg.root]
      exact (hg.focusAt k _ .top).bind fun f f' hf => ⟨_, rfl, .some hf⟩

omit hg in
theorem advance {f : Focus V K} {f' : Focus W K} (hf : f.Maps strict ρ f') (ht : TokenMaps ρ t t') :
    Follows strict (Fold.Maps strict ρ) (f.advance t) (f'.advance t') := by
  rw [Focus.advance, Focus.advance, hf.kind, ht.kind]
  split
  · exact unwind hom hf.context ht.value
  · exact fun _ => rfl

/-- Where a token is consumed or rejected, so is one with a related value. -/
theorem feed (hp : p.Maps strict ρ p') (ht : TokenMaps ρ t t') :
    Heeds strict (ParseState.Maps strict ρ) (p.feed g t) (p'.feed g' t') := by
  rw [p.feed_eq, p'.feed_eq, ht.kind]
  have hspare : p'.spare = (p.spare : Except (Stop K) Unit) := by
    unfold ParseState.spare
    rw [hp.limits, hp.position]
  rw [hspare]
  refine (heeds_refl _).bind fun _ _ _ => (hg.focus hom hp t.1).lift.bind fun r r' hr => ?_
  have hplace : Heeds strict (Focus.Maps strict ρ) (p.place t.1 r) (p'.place t.1 r') := by
    cases hr with
    | none => exact congrArg (fun n => Except.error (Stop.rejected (ParseError.unexpectedToken n t.1))) hp.position
    | some hf => exact ⟨_, rfl, hf⟩
  refine hplace.bind fun f f' hf => ?_
  have hroom : p'.room f' = p.room f := by
    unfold ParseState.room
    rw [hp.limits, hp.position, Focus.depth, Focus.depth, hf.context.depth]
  rw [hroom]
  refine (heeds_refl _).bind fun _ _ _ => (advance hom hf ht).lift.bind fun d d' hd => ⟨_, rfl, ?_⟩
  exact ⟨hp.limits, congrArg (· + 1) hp.position, .some hd⟩

theorem finish (hp : p.Maps strict ρ p') : Heeds strict ρ (p.finish g) (p'.finish g') := by
  obtain ⟨-, hposition, hfold⟩ := hp
  have hend : Follows strict (Option.Rel ρ) (p.outcome g) (p'.outcome g') := by
    unfold ParseState.outcome
    generalize p.fold = fold, p'.fold = fold' at hfold
    cases hfold with
    | some hd => exact hg.foldFinish hom hd
    | none =>
      rw [hg.root]
      exact (hg.entry g.root).map fun e e' he => he.emptyValue
  rw [p.finish_eq, p'.finish_eq]
  refine hend.lift.bind fun r r' hr => ?_
  cases hr with
  | none => exact congrArg (fun n => Except.error (Stop.rejected (ParseError.unexpectedEnd n))) hposition
  | some hv => exact ⟨_, rfl, hv⟩

theorem feedAll (hp : p.Maps strict ρ p') (hts : List.Forall₂ (TokenMaps ρ) ts ts') :
    Heeds strict (ParseState.Maps strict ρ) (p.feedAll g ts) (p'.feedAll g' ts') := by
  induction hts generalizing p p' with
  | nil => exact ⟨_, rfl, hp⟩
  | cons ht _ ih => exact (hg.feed hom hp ht).bind fun q q' hq => ih hq

/-- A parse gives a related value, or is rejected in the same way; it is stopped in the same way, should that be asked for. -/
theorem parse (limits : Limits) (hts : List.Forall₂ (TokenMaps ρ) ts ts') :
    Heeds strict ρ (g.parse limits ts) (g'.parse limits ts') :=
  (hg.feedAll hom ⟨rfl, rfl, .none⟩ hts).bind fun _ _ hq => hg.finish hom hq

end

end ValidGrammar.Maps
end Predictive
