import Mathlib.Order.Bounds.Basic
import Predictive.Proofs.Parsing
import Predictive.Proofs.Image

/-!
Where a parse is rejected: at the first token with which no word that the grammar yields goes on, or at the end.
-/
namespace Predictive

variable {V K : Type}

/-- The kinds `ks` are a beginning of a word that the node `i` yields. -/
def Viable (G : Productions V K) (i : Nat) (ks : List K) : Prop := ∃ js, Yields G i (ks ++ js)

/-- The production without its values. -/
def Production.erase : Production V K → Production Unit K
  | success _ => .success ()
  | element k => .element k
  | disjunction l r => .disjunction l r
  | sequence l r => .sequence l r
  | transform _ j => .transform .identity j
  | deferred j => .deferred j

/-- The productions without their values: what is left of the results is how they come about. -/
def Productions.erase (G : Productions V K) : Productions Unit K := fun i => (G i).map Production.erase

def Form.erase : Form V K → Form Unit K
  | success _ => .success ()
  | element k => .element k
  | disjunction l r => .disjunction l r
  | sequence l r => .sequence l r
  | transform _ i => .transform .identity i

def Entry.erase [Ord K] (e : Entry V K) : Entry Unit K :=
  { e with form := e.form.erase, emptyValue := e.emptyValue.map fun _ => () }

def ValidGrammar.erase [Ord K] (g : ValidGrammar V K) : ValidGrammar Unit K := ⟨g.entries.map Entry.erase, g.root⟩

section Productions

variable {G : Productions V K} {i l r j : Nat} {k : K} {ks : List K}

theorem erase_eq_some {q : Production Unit K} (h : G.erase i = some q) : ∃ p, G i = some p ∧ p.erase = q :=
  Option.map_eq_some_iff.1 h

theorem disjunction_of_erase (h : G.erase i = some (.disjunction l r)) : G i = some (.disjunction l r) := by
  obtain ⟨p, hp, he⟩ := erase_eq_some h
  cases p <;> cases he
  exact hp

theorem sequence_of_erase (h : G.erase i = some (.sequence l r)) : G i = some (.sequence l r) := by
  obtain ⟨p, hp, he⟩ := erase_eq_some h
  cases p <;> cases he
  exact hp

theorem transform_of_erase {f : Transformation Unit} (h : G.erase i = some (.transform f j)) :
    (∃ f', G i = some (.transform f' j)) ∧ f.IsTotal := by
  obtain ⟨p, hp, he⟩ := erase_eq_some h
  cases p <;> cases he
  exact ⟨⟨_, hp⟩, Transformation.isTotal_total id⟩

theorem deferred_of_erase (h : G.erase i = some (.deferred j)) : G i = some (.deferred j) := by
  obtain ⟨p, hp, he⟩ := erase_eq_some h
  cases p <;> cases he
  exact hp

theorem total_erase : Total G.erase i := fun _ _ _ hj _ => (transform_of_erase hj).2

theorem Production.spells_erase {has : Nat → List K → Prop} (p : Production V K) :
    p.erase.Spells has ks ↔ p.Spells has ks := by
  cases p <;> rfl

/-- The words do not depend on values. -/
theorem yields_erase : Yields G.erase i ks ↔ Yields G i ks := by
  constructor
  · intro h
    refine h.induct fun i q ks hq hspells => ?_
    obtain ⟨p, hp, rfl⟩ := erase_eq_some hq
    exact (yields_iff hp).2 (p.spells_erase.1 (hspells.mono fun _ _ _ h => h.2))
  · intro h
    refine h.induct fun i p ks hp hspells => ?_
    have hq : G.erase i = some p.erase := by
      rw [Productions.erase, hp]
      rfl
    exact (yields_iff hq).2 (p.spells_erase.2 (hspells.mono fun _ _ _ h => h.2))

theorem starts_erase : Starts G.erase i k ↔ Starts G i k := exists_congr fun _ => yields_erase

theorem nullable_erase : Nullable G.erase i ↔ Nullable G i := yields_erase

theorem productive_erase : Productive G.erase i ↔ Productive G i := exists_congr fun _ => yields_erase

theorem barred_of_erase (h : Barred G.erase i k) : Barred G i k := by
  induction h with
  | ofRight hi hl hk => exact .ofRight (disjunction_of_erase hi) (nullable_erase.1 hl) (starts_erase.1 hk)
  | ofLeft hi hr hk => exact .ofLeft (disjunction_of_erase hi) (nullable_erase.1 hr) (starts_erase.1 hk)
  | inLeft hi _ ih => exact .inLeft (disjunction_of_erase hi) ih
  | inRight hi _ ih => exact .inRight (disjunction_of_erase hi) ih
  | first hi hr _ ih => exact .first (sequence_of_erase hi) (nullable_erase.1 hr) ih
  | second hi hl _ ih => exact .second (sequence_of_erase hi) (productive_erase.1 hl) ih
  | transform hi _ ih =>
    obtain ⟨⟨f, hi⟩, -⟩ := transform_of_erase hi
    exact .transform hi ih
  | deferred hi _ ih => exact .deferred (deferred_of_erase hi) ih

theorem clashAt_of_erase (h : ClashAt G.erase i) : ClashAt G i := by
  cases h with
  | bothEmpty hi hl hr => exact .bothEmpty (disjunction_of_erase hi) (nullable_erase.1 hl) (nullable_erase.1 hr)
  | firstFirst hi hl hr => exact .firstFirst (disjunction_of_erase hi) (starts_erase.1 hl) (starts_erase.1 hr)
  | follow hi hl hr => exact .follow (sequence_of_erase hi) (barred_of_erase hl) (starts_erase.1 hr)

end Productions

theorem Form.production_erase (form : Form V K) : form.erase.production = form.production.erase := by
  cases form <;> rfl

theorem Form.maps_erase (form : Form V K) : form.Maps False (fun _ _ => True) form.erase := by
  cases form with
  | success v => exact .success trivial
  | element k => exact .element k
  | disjunction l r => exact .disjunction l r
  | sequence l r => exact .sequence l r
  | transform f i =>
    refine .transform i fun v _ _ => ?_
    cases f.apply v with
    | ok w => exact ⟨(), rfl, trivial⟩
    | error text => exact False.elim

theorem Form.children_erase (form : Form V K) : form.erase.children = form.children := by
  cases form <;> rfl

namespace ValidGrammar

variable [Kind K] {g : ValidGrammar V K} {k : K} {ks : List K}

theorem getElem?_erase (s : Slot) : g.erase.entries[s]? = g.entries[s]?.map Entry.erase := Array.getElem?_map

theorem exists_of_erase {s : Slot} {e : Entry Unit K} (h : g.erase.entries[s]? = some e) :
    ∃ e', g.entries[s]? = some e' ∧ e'.erase = e := by
  rw [getElem?_erase] at h
  exact Option.map_eq_some_iff.1 h

theorem size_erase (g : ValidGrammar V K) : g.erase.size = g.size := Array.size_map

theorem productions_erase (g : ValidGrammar V K) : g.erase.productions = g.productions.erase := by
  funext s
  simp only [productions, getElem?_erase, Productions.erase, Option.map_map]
  congr 1
  funext e
  exact e.form.production_erase

/-- Without its values a table derives what it yields, since all its transformations give values. -/
theorem total_productions_erase (g : ValidGrammar V K) (s : Slot) : Total g.erase.productions s := by
  rw [productions_erase]
  exact total_erase

theorem yields_productions_erase (g : ValidGrammar V K) (ks : List K) :
    Yields g.erase.productions g.erase.root ks ↔ Yields g.productions g.root ks := by
  rw [productions_erase]
  exact yields_erase

theorem maps_erase : g.Maps False (fun _ _ => True) g.erase where
  root := rfl
  size := size_erase g
  entries s e he := ⟨e.erase, by rw [getElem?_erase, he]; rfl, e.form.maps_erase, rfl, by
    rw [Entry.erase]
    cases e.emptyValue with
    | none => exact .none
    | some v => exact .some trivial⟩

omit [Kind K] in
theorem tokenMaps_erase (ts : List (K × V)) :
    List.Forall₂ (TokenMaps fun _ _ => True) ts (ts.map (Prod.map id fun _ => ())) := by
  rw [List.forall₂_map_right_iff]
  exact List.forall₂_same.2 fun t _ => ⟨rfl, trivial⟩

/-- A lawful table stays so without its values, whether or not its transformations give any. -/
theorem Lawful.erase [Value V] (h : g.Lawful) : g.erase.Lawful where
  root := by
    rw [size_erase]
    exact h.root
  children s e he := by
    obtain ⟨e, he', rfl⟩ := exists_of_erase he
    rw [size_erase, Entry.erase, e.form.children_erase]
    exact h.children s e he'
  first s e he k := by
    obtain ⟨e, he', rfl⟩ := exists_of_erase he
    rw [productions_erase, starts_erase]
    exact h.first s e he' k
  nullable s e he := by
    obtain ⟨e, he', rfl⟩ := exists_of_erase he
    rw [productions_erase, nullable_erase, Entry.erase, Option.isSome_map]
    exact h.nullable s e he'
  emptyValue s e v he hv := by
    obtain ⟨e, he', rfl⟩ := exists_of_erase he
    obtain ⟨w, hw, -⟩ := Option.map_eq_some_iff.1 hv
    have hnullable := (h.emptyValue s e w he' hw).nullable
    rw [productions_erase]
    obtain ⟨u, hu⟩ := (nullable_iff_derives total_erase).1 (nullable_erase.2 hnullable)
    exact hu
  decided s hs := by
    rw [productions_erase] at hs
    exact h.decided s (clashAt_of_erase hs)

end ValidGrammar

/-- How a token list of the kinds `ks` is rejected, if the words that the node `i` yields decide. -/
def Blames (G : Productions V K) (i : Nat) (ks : List K) : ParseError K → Prop
  | .unexpectedToken p k => IsLeast {n | n < ks.length ∧ ¬Viable G i (ks.take (n + 1))} p ∧ ks[p]? = some k
  | .unexpectedEnd p => (∀ n < ks.length, Viable G i (ks.take (n + 1))) ∧ ¬Yields G i ks ∧ p = ks.length
  | .tokenLimitExceeded _ | .depthLimitExceeded _ _ => False

section Words

variable {G : Productions V K} {i : Nat} {ks : List K} {e e' : ParseError K}

theorem Viable.take (h : Viable G i ks) (n : Nat) : Viable G i (ks.take n) := by
  obtain ⟨js, h⟩ := h
  refine ⟨ks.drop n ++ js, ?_⟩
  rwa [← List.append_assoc, List.take_append_drop]

theorem Yields.viable (h : Yields G i ks) : Viable G i ks := ⟨[], by rwa [List.append_nil]⟩

theorem Blames.not_yields (h : Blames G i ks e) : ¬Yields G i ks := by
  intro hy
  cases e with
  | unexpectedToken p k => exact h.1.1.2 (hy.viable.take _)
  | unexpectedEnd p => exact h.2.1 hy
  | tokenLimitExceeded l | depthLimitExceeded p l => exact h

/-- There is one way to reject at most. -/
theorem Blames.unique (h : Blames G i ks e) (h' : Blames G i ks e') : e = e' := by
  cases e with
  | unexpectedToken p k =>
    obtain ⟨hp, hk⟩ := h
    cases e' with
    | unexpectedToken p' k' =>
      obtain ⟨hp', hk'⟩ := h'
      obtain rfl := hp.unique hp'
      rw [Option.some.inj (hk.symm.trans hk')]
    | unexpectedEnd p' => exact (hp.1.2 (h'.1 p hp.1.1)).elim
    | tokenLimitExceeded l | depthLimitExceeded p l => exact h'.elim
  | unexpectedEnd p =>
    obtain ⟨hviable, -, rfl⟩ := h
    cases e' with
    | unexpectedToken p' k' => exact (h'.1.1.2 (hviable p' h'.1.1.1)).elim
    | unexpectedEnd p' => rw [h'.2.2]
    | tokenLimitExceeded l | depthLimitExceeded p l => exact h'.elim
  | tokenLimitExceeded l | depthLimitExceeded p l => exact h.elim

theorem blames_congr {W : Type} {H : Productions W K} {j : Nat} (hy : ∀ ks, Yields G i ks ↔ Yields H j ks) :
    Blames G i ks e ↔ Blames H j ks e := by
  have hv : ∀ ks, Viable G i ks ↔ Viable H j ks := fun ks => exists_congr fun js => hy _
  cases e <;> simp only [Blames, hv, hy]

end Words

section Total

variable [Value V] [Kind K] {g : ValidGrammar V K} {k : K} {s : Slot} {c : Context V} {p q : ParseState V}
  {ts : List (K × V)} {e : ParseError K}

/-- What is pending derives something, and what is to be applied gives a value for every argument. -/
def Frame.Fruitful (g : ValidGrammar V K) : Frame V → Prop
  | followBy next => ∃ us u, Derives g.productions next us u
  | prepend _ => True
  | apply f => f.IsTotal ∧ ∃ s i, g.productions s = some (.transform f i)

/-- Whatever is complete under a fruitful context, some tokens lead on to a result. -/
theorem exists_completes (hc : c.All (Frame.Fruitful g)) (v : V) : ∃ ts w, c.Completes g.productions v ts w := by
  induction c generalizing v with
  | top => exact ⟨[], v, rfl, rfl⟩
  | push frame c ih =>
    obtain ⟨hframe, hc⟩ := hc
    cases frame with
    | prepend left => exact ih hc _
    | apply f =>
      obtain ⟨u, hu⟩ := hframe.1 v
      obtain ⟨ts, w, hw⟩ := ih hc u
      exact ⟨ts, w, u, hu, hw⟩
    | followBy next =>
      obtain ⟨us, u, hu⟩ := hframe
      obtain ⟨ts, w, hw⟩ := ih hc (prepend v u)
      exact ⟨us ++ ts, w, us, ts, u, rfl, hu, hw⟩

theorem exists_foldCompletes {d : Fold V} (hd : d.All (Frame.Fruitful g)) : ∃ ts w, d.Completes g.productions ts w := by
  cases d with
  | done v => exact ⟨[], v, rfl, rfl⟩
  | suspended s => exact exists_completes hd s.value

/-- A token list that is not consumed has a token that is not. -/
theorem exists_of_feedAll {stop : Stop K} (h : p.feedAll g ts = .error stop) :
    ∃ us t ws q, ts = us ++ t :: ws ∧ p.feedAll g us = .ok q ∧ q.feed g t = .error stop := by
  induction ts generalizing p with
  | nil => cases h
  | cons t ts ih =>
    rw [ParseState.feedAll] at h
    cases hf : p.feed g t with
    | error e =>
      rw [hf] at h
      cases h
      exact ⟨[], t, ts, p, rfl, rfl, hf⟩
    | ok q =>
      rw [hf] at h
      obtain ⟨us, u, ws, q', rfl, hq', hu⟩ := ih h
      refine ⟨t :: us, u, ws, q', rfl, ?_, hu⟩
      rw [ParseState.feedAll, hf]
      exact hq'

/-- How feeding a token ends without limits. -/
theorem feed_cases (g : ValidGrammar V K) (hp : p.limits = .unbounded) (t : K × V) :
    (∃ d, p.feed g t = .ok (p.next d)) ∨ p.feed g t = .error (.rejected (.unexpectedToken p.position t.1)) ∨
      ∃ f, p.feed g t = .error (.fault f) := by
  have hspare : (p.spare : Except (Stop K) Unit) = .ok () := by rw [ParseState.spare, hp]; rfl
  have hroom : ∀ f : Focus V K, p.room f = .ok () := fun f => by rw [ParseState.room, hp]; rfl
  rw [p.feed_eq, hspare]
  rcases p.focus g t.1 with e | _ | f
  · exact .inr (.inr ⟨e, rfl⟩)
  · exact .inr (.inl rfl)
  · simp only [ParseState.lift, Except.bind, ParseState.place, hroom]
    cases f.advance t with
    | error e => exact .inr (.inr ⟨e, rfl⟩)
    | ok d => exact .inl ⟨d, rfl⟩

/-- How the end of the input is taken. -/
theorem finish_cases (g : ValidGrammar V K) (p : ParseState V) :
    (∃ v, p.finish g = .ok v) ∨ p.finish g = .error (.rejected (.unexpectedEnd p.position)) ∨
      ∃ f, p.finish g = .error (.fault f) := by
  rw [p.finish_eq]
  rcases p.outcome g with e | _ | v
  · exact .inr (.inr ⟨e, rfl⟩)
  · exact .inr (.inl rfl)
  · exact .inl ⟨v, rfl⟩

theorem keeps_fruitful [Nonempty V] (total : ∀ s, Total g.productions s) : g.Keeps (Frame.Fruitful g) where
  grounded frame hframe := by
    cases frame with
    | followBy next =>
      obtain ⟨us, u, hu⟩ := hframe
      exact ValidGrammar.productions_isSome_iff.1 hu.yields.isSome
    | prepend v => trivial
    | apply f => exact hframe.2
  followBy s l r k hs hk := by
    have hgives := hk.gives hs
    have hr : Productive g.productions r := by
      rcases hgives with ⟨hr, -⟩ | ⟨-, hr⟩
      · exact hr.means
      · exact Starts.productive hr.means
    exact (productive_iff_derives (total r)).1 hr
  prepend _ := trivial
  apply s f i hs := ⟨total s hs .refl, s, i, hs⟩

namespace ValidGrammar.Lawful

variable (h : g.Lawful)
include h

/-- What a parse that goes on has consumed is lost in none of the ways to go on. -/
theorem feedAll_spec (hp : p.Open g) (hq : p.feedAll g ts = .ok q) : q.Open g ∧
    (∀ us w, p.Completes g (ts ++ us) w ↔ q.Completes g us w) ∧ q.position = p.position + ts.length ∧
      (p.fold.isSome ∨ ts ≠ [] → q.fold.isSome) := by
  induction ts generalizing p with
  | nil =>
    cases hq
    exact ⟨hp, fun us w => .rfl, rfl, fun hfold => hfold.resolve_right (· rfl)⟩
  | cons t ts ih =>
    rw [ParseState.feedAll] at hq
    cases hf : p.feed g t with
    | error e =>
      rw [hf] at hq
      cases hq
    | ok p' =>
      rw [hf] at hq
      obtain ⟨hp', hiff⟩ := (h.feed_spec hp t.2).1 p' hf
      obtain ⟨hq, hiff', hposition, hfold⟩ := ih hp' hq
      refine ⟨hq, fun us w => (hiff (ts ++ us) w).trans (hiff' us w), ?_⟩
      rcases feed_cases g hp.limits t with ⟨d, hd⟩ | hd | ⟨e, hd⟩
      · cases hf.symm.trans hd
        refine ⟨?_, fun _ => hfold (.inl rfl)⟩
        simp only [hposition, ParseState.next, List.length_cons]
        omega
      · cases hf.symm.trans hd
      · cases hf.symm.trans hd

/-- From the start, what is consumed is a beginning of what the root derives. -/
theorem start_spec (hq : (start .unbounded : ParseState V).feedAll g ts = .ok q) : q.Open g ∧
    (∀ us w, Derives g.productions g.root (ts ++ us) w ↔ q.Completes g us w) ∧ q.position = ts.length ∧
      (ts ≠ [] → ∃ d, q.fold = some d) := by
  have hstart : (start .unbounded : ParseState V).Open g := ⟨rfl, fun _ hd => nomatch hd⟩
  obtain ⟨hq, hiff, hposition, hfold⟩ := h.feedAll_spec hstart hq
  exact ⟨hq, hiff, hposition.trans (Nat.zero_add _), fun hts => Option.isSome_iff_exists.1 (hfold (.inr hts))⟩

variable [Nonempty V] (total : ∀ s, Total g.productions s)
include total

/-- A parse has only gone on while something could still be derived. -/
theorem viable_of_feedAll (hts : ts ≠ []) (hq : (start .unbounded : ParseState V).feedAll g ts = .ok q) :
    Viable g.productions g.root (ts.map Prod.fst) := by
  obtain ⟨-, hiff, -, hfold⟩ := h.start_spec hq
  have hall := h.safely_start (keeps_fruitful total) .unbounded ts
  rw [hq] at hall
  obtain ⟨d, hd⟩ := hfold hts
  obtain ⟨us, w, hw⟩ := exists_foldCompletes (hall d hd)
  have hw : q.Completes g us w := by rwa [ParseState.Completes, hd]
  have hyields := ((hiff us w).2 hw).yields
  rw [List.map_append] at hyields
  exact ⟨_, hyields⟩

theorem not_viable_of_feed {t : K × V} (hq : (start .unbounded : ParseState V).feedAll g ts = .ok q)
    (ht : q.feed g t = .error (.rejected e)) : ¬Viable g.productions g.root (ts.map Prod.fst ++ [t.1]) := by
  rintro ⟨js, hjs⟩
  obtain ⟨hopen, hiff, -, -⟩ := h.start_spec hq
  obtain ⟨a⟩ := ‹Nonempty V›
  have hkinds : (ts ++ t :: js.map fun j => (j, a)).map Prod.fst = ts.map Prod.fst ++ [t.1] ++ js := by
    simp [Function.comp_def]
  obtain ⟨w, hw⟩ := hjs.derives (total g.root) hkinds
  exact (h.feed_spec hopen t.2).2 _ ht _ w ((hiff _ w).1 hw)

/-- A parse is rejected as the words tell. -/
theorem blames_of_rejected (hp : g.parse .unbounded ts = .error (.rejected e)) :
    Blames g.productions g.root (ts.map Prod.fst) e := by
  have hbefore : ∀ {us ws : List (K × V)} {q : ParseState V}, ts = us ++ ws →
      (start .unbounded : ParseState V).feedAll g us = .ok q → ∀ n < us.length,
        Viable g.productions g.root ((ts.map Prod.fst).take (n + 1)) := by
    intro us ws q hts hq n hn
    have hviable := h.viable_of_feedAll total (List.ne_nil_of_length_pos (by omega)) hq
    have htake : (ts.map Prod.fst).take (n + 1) = (us.map Prod.fst).take (n + 1) := by
      rw [hts, List.map_append, List.take_append_of_le_length]
      rwa [List.length_map]
    exact htake ▸ hviable.take (n + 1)
  rw [parse] at hp
  cases hfeed : (start .unbounded : ParseState V).feedAll g ts with
  | ok q =>
    rw [hfeed] at hp
    obtain ⟨hopen, hiff, hposition, -⟩ := h.start_spec hfeed
    rcases finish_cases g q with ⟨v, hv⟩ | hv | ⟨f, hv⟩
    · cases hv.symm.trans hp
    · cases hv.symm.trans hp
      refine ⟨fun n hn => ?_, fun hy => ?_, ?_⟩
      · exact hbefore (List.append_nil ts).symm hfeed n (by simpa using hn)
      · obtain ⟨w, hw⟩ := hy.derives (total g.root) rfl
        have hfinish := (h.finish_spec hopen).2 ((hiff [] w).1 (by rwa [List.append_nil]))
        cases hfinish.symm.trans hp
      · rw [List.length_map]
        exact hposition
    · cases hv.symm.trans hp
  | error stop =>
    rw [hfeed] at hp
    cases hp
    obtain ⟨us, t, ws, q, rfl, hq, ht⟩ := exists_of_feedAll hfeed
    obtain ⟨hopen, -, hposition, -⟩ := h.start_spec hq
    have hnot := h.not_viable_of_feed total hq ht
    rcases feed_cases g hopen.limits t with ⟨d, hd⟩ | hd | ⟨f, hd⟩
    · cases ht.symm.trans hd
    · cases ht.symm.trans hd
      rw [hposition]
      refine ⟨⟨⟨by simp, ?_⟩, fun n hn => ?_⟩, by simp⟩
      · have htake : ((us ++ t :: ws).map Prod.fst).take (us.length + 1) = us.map Prod.fst ++ [t.1] := by
          simp [List.take_append]
        rwa [htake]
      · by_contra hlt
        exact hn.2 (hbefore rfl hq n (by omega))
    · cases ht.symm.trans hd

end ValidGrammar.Lawful
end Total

namespace ValidGrammar.Lawful

variable [Value V] [Kind K] {g : ValidGrammar V K} {ts : List (K × V)} (h : g.Lawful)
include h

/-- Whatever its transformations do, a parse only goes on while something could still be yielded. -/
theorem viable_of_start {q : ParseState V} (hts : ts ≠ [])
    (hq : (start .unbounded : ParseState V).feedAll g ts = .ok q) :
    Viable g.productions g.root (ts.map Prod.fst) := by
  have hstart : (start .unbounded : ParseState V).Maps False (fun _ (_ : Unit) => True) (start .unbounded) := ⟨rfl, rfl, .none⟩
  have hfeed : Heeds False (ParseState.Maps False fun _ (_ : Unit) => True) ((start .unbounded : ParseState V).feedAll g ts) _ :=
    maps_erase.feedAll (fun _ _ _ _ _ _ => trivial) hstart (tokenMaps_erase ts)
  rw [hq] at hfeed
  obtain ⟨q', hq', -⟩ := hfeed
  obtain ⟨js, hjs⟩ := h.erase.viable_of_feedAll (total_productions_erase g) (by simpa using hts) hq'
  refine ⟨js, (yields_productions_erase g _).1 ?_⟩
  simpa [Function.comp_def] using hjs

/-- A parse is stopped by a transformation, or rejected exactly as the words tell. -/
theorem rejected_iff (ts : List (K × V)) : (∃ f, g.parse .unbounded ts = .error (.fault f) ∧ g.Fails f) ∨
    ∀ stop, g.parse .unbounded ts = .error stop ↔
      ∃ e, stop = .rejected e ∧ Blames g.productions g.root (ts.map Prod.fst) e := by
  have hsafe := h.safely_parse h.keeps_grounded .unbounded ts
  match hp : g.parse .unbounded ts with
  | .ok v =>
    refine .inr fun stop => ⟨fun he => (nomatch he), fun ⟨e, _, he⟩ => ?_⟩
    exact (he.not_yields (h.parse_iff.1 hp).yields).elim
  | .error (.rejected e) =>
    have hparse := (maps_erase (g := g)).parse (fun _ _ _ _ _ _ => trivial) .unbounded (tokenMaps_erase ts)
    rw [hp] at hparse
    have hblames := h.erase.blames_of_rejected (total_productions_erase g) hparse
    rw [blames_congr (yields_productions_erase g)] at hblames
    have hblames : Blames g.productions g.root (ts.map Prod.fst) e := by simpa [Function.comp_def] using hblames
    refine .inr fun stop => ⟨fun he => ?_, fun ⟨e', hstop, he⟩ => ?_⟩
    · cases he
      exact ⟨e, rfl, hblames⟩
    · rw [hstop, hblames.unique he]
  | .error (.fault f) =>
    rw [hp] at hsafe
    exact .inl ⟨f, rfl, hsafe⟩

end ValidGrammar.Lawful
end Predictive
