import Predictive.Proofs.Safety
import Predictive.Proofs.Grammar.Ambiguity

/-! Limits end a parse early, at a place that the parse without limits determines, and change nothing else. -/
namespace Predictive

variable {V K : Type}

namespace Limits

/-- The limit on tokens leaves one more after `n`. -/
def Leaves (l : Limits) (n : Nat) : Prop := ∀ m, l.maxTokens = some m → n < m

/-- The limit on depth allows `n`. -/
def Allows (l : Limits) (n : Nat) : Prop := ∀ m, l.maxDepth = some m → n ≤ m

/-- Each limit of `l'` is raised or removed, compared with `l`. -/
structure Loosens (l' l : Limits) : Prop where
  tokens : ∀ m', l'.maxTokens = some m' → ∃ m ≤ m', l.maxTokens = some m
  depth : ∀ m', l'.maxDepth = some m' → ∃ m ≤ m', l.maxDepth = some m

variable {l l' : Limits} {n : Nat}

theorem Leaves.loosen (h : l.Leaves n) (hl : l'.Loosens l) : l'.Leaves n := by
  intro m' hm'
  obtain ⟨m, hle, hm⟩ := hl.tokens m' hm'
  exact Nat.lt_of_lt_of_le (h m hm) hle

theorem Allows.loosen (h : l.Allows n) (hl : l'.Loosens l) : l'.Allows n := by
  intro m' hm'
  obtain ⟨m, hle, hm⟩ := hl.depth m' hm'
  exact Nat.le_trans (h m hm) hle

end Limits

variable [Kind K] [Value V]

namespace ParseState

/-- The same point of a parse, within other limits. -/
def within (p : ParseState V) (l : Limits) : ParseState V := { p with limits := l }

/-- A parse within the limits `l` ends with the token `t` at the place `i`, where the parse without limits is at `p`: the
limit on tokens comes first, the token itself second, the depth of its cursor third. -/
inductive Halts (g : ValidGrammar V K) (l : Limits) (i : Nat) (p : ParseState V) (t : K × V) : Stop K → Prop
  | tokens {m : Nat} (hm : l.maxTokens = some m) (h : m ≤ i) : Halts g l i p t (.rejected (.tokenLimitExceeded m))
  | token (hl : l.Leaves i) (h : p.feed g t = .error (.rejected (.unexpectedToken i t.1))) :
      Halts g l i p t (.rejected (.unexpectedToken i t.1))
  | depth {m : Nat} {f : Focus V K} (hl : l.Leaves i) (hf : p.focus g t.1 = .ok (some f)) (hm : l.maxDepth = some m)
      (h : m < f.depth) : Halts g l i p t (.rejected (.depthLimitExceeded i m))
  | fault {e : ParseFault K} (hl : l.Leaves i) (hf : ∀ f, p.focus g t.1 = .ok (some f) → l.Allows f.depth)
      (h : p.feed g t = .error (.fault e)) : Halts g l i p t (.fault e)

variable {g : ValidGrammar V K} {l l' : Limits} {p q : ParseState V} {t : K × V} {ts us : List (K × V)} {stop : Stop K}

theorem feed_of_leaves (h : p.limits.Leaves p.position) : p.feed g t = (lift (p.focus g t.1)).bind fun r =>
    (p.place t.1 r).bind fun f => (p.room f).bind fun _ => (lift (f.advance t)).bind fun d => .ok (p.next d) := by
  have hspare : (p.spare : Except (Stop K) Unit) = .ok () := by
    unfold spare
    split
    · rename_i m hm
      exact if_neg (Nat.not_le_of_lt (h m hm))
    · rfl
  rw [p.feed_eq, hspare]
  rfl

omit [Kind K] [Value V] in
theorem room_of_allows {f : Focus V K} (h : p.limits.Allows f.depth) : p.room f = .ok () := by
  unfold room
  split
  · rename_i m hm
    exact if_neg (Nat.not_lt_of_le (h m hm))
  · rfl

theorem feed_unbounded (hp : p.limits = .unbounded) : p.feed g t = (lift (p.focus g t.1)).bind fun r =>
    (p.place t.1 r).bind fun f => (lift (f.advance t)).bind fun d => .ok (p.next d) := by
  have hroom : ∀ f : Focus V K, p.room f = .ok () := fun f => room_of_allows (by simp [hp, Limits.unbounded, Limits.Allows])
  rw [feed_of_leaves (by simp [hp, Limits.unbounded, Limits.Leaves])]
  simp only [hroom]
  rfl

/-- Where the limits allow the token and its cursor, they make no difference. -/
theorem feed_within (hp : p.limits = .unbounded) (hl : l.Leaves p.position)
    (ha : ∀ f, p.focus g t.1 = .ok (some f) → l.Allows f.depth) :
    (p.within l).feed g t = (p.feed g t).map (·.within l) := by
  rw [feed_unbounded hp, feed_of_leaves (p := p.within l) hl]
  change (lift (p.focus g t.1)).bind _ = _
  rcases hf : p.focus g t.1 with e | _ | f
  · rfl
  · rfl
  · change (room (p.within l) f).bind _ = _
    rw [room_of_allows (p := p.within l) (ha f hf)]
    change (lift (f.advance t)).bind _ = ((lift (f.advance t)).bind _).map _
    cases f.advance t <;> rfl

/-- Without limits a token is taken, or no part receives it, or a transformation gives up. -/
theorem feed_unbounded_cases (hp : p.limits = .unbounded) :
    (∃ d, p.feed g t = .ok (p.next d)) ∨
    (p.focus g t.1 = .ok none ∧ p.feed g t = .error (.rejected (.unexpectedToken p.position t.1))) ∨
    ∃ e, p.feed g t = .error (.fault e) := by
  rw [feed_unbounded hp]
  rcases p.focus g t.1 with e | _ | f
  · exact .inr (.inr ⟨e, rfl⟩)
  · exact .inr (.inl ⟨rfl, rfl⟩)
  · change (∃ d, (lift (f.advance t)).bind _ = _) ∨ _ ∨ ∃ e, (lift (f.advance t)).bind _ = _
    rcases f.advance t with e | d
    · exact .inr (.inr ⟨e, rfl⟩)
    · exact .inl ⟨d, rfl⟩

theorem Halts.feed {i : Nat} (h : Halts g l i p t stop) (hp : p.limits = .unbounded) (hi : p.position = i) :
    (p.within l).feed g t = .error stop := by
  subst hi
  cases h with
  | @tokens m hm h =>
    have hspare : (p.within l).spare = .error (.rejected (.tokenLimitExceeded m) : Stop K) := by
      simp only [spare, within, hm]
      exact if_pos h
    rw [feed_eq, hspare]
    rfl
  | token hl h =>
    have hnone : p.focus g t.1 = .ok none := by
      rcases feed_unbounded_cases (g := g) (t := t) hp with ⟨d, hd⟩ | ⟨hnone, -⟩ | ⟨e, he⟩
      · cases hd.symm.trans h
      · exact hnone
      · cases he.symm.trans h
    rw [feed_within hp hl (by simp [hnone]), h]
    rfl
  | depth hl hf hm h =>
    rw [feed_of_leaves (p := p.within l) hl]
    change (lift (p.focus g t.1)).bind _ = _
    rw [hf]
    change (room (p.within l) _).bind _ = _
    simp only [room, within, hm, if_pos h]
    rfl
  | fault hl hf h =>
    rw [feed_within hp hl hf, h]
    rfl

/-- A token that does not end the parse is taken, with limits and without. -/
theorem exists_feed (hp : p.limits = .unbounded) (h : ∀ stop, ¬Halts g l p.position p t stop) :
    ∃ d, p.feed g t = .ok (p.next d) ∧ (p.within l).feed g t = .ok ((p.next d).within l) := by
  have hl : l.Leaves p.position := fun m hm => Nat.lt_of_not_le fun hle => h _ (.tokens hm hle)
  have ha : ∀ f, p.focus g t.1 = .ok (some f) → l.Allows f.depth := fun f hf m hm =>
    Nat.le_of_not_lt fun hlt => h _ (.depth hl hf hm hlt)
  rcases feed_unbounded_cases (g := g) (t := t) hp with ⟨d, hd⟩ | ⟨-, hrejected⟩ | ⟨e, he⟩
  · exact ⟨d, hd, by rw [feed_within hp hl ha, hd]; rfl⟩
  · exact (h _ (.token hl hrejected)).elim
  · exact (h _ (.fault hl ha he)).elim

/-- Where looser limits end a parse, so do tighter ones. -/
theorem Halts.tighten {i : Nat} (h : Halts g l' i p t stop) (hl : l'.Loosens l) : ∃ other, Halts g l i p t other := by
  by_contra hno
  have hleaves : l.Leaves i := fun m hm => Nat.lt_of_not_le fun hle => hno ⟨_, .tokens hm hle⟩
  have hallows : ∀ f, p.focus g t.1 = .ok (some f) → l.Allows f.depth := fun f hf m hm =>
    Nat.le_of_not_lt fun hlt => hno ⟨_, .depth hleaves hf hm hlt⟩
  cases h with
  | tokens hm h => exact Nat.not_lt_of_le h (hleaves.loosen hl _ hm)
  | token _ h => exact hno ⟨_, .token hleaves h⟩
  | depth _ hf hm h => exact Nat.not_lt_of_le ((hallows _ hf).loosen hl _ hm) h
  | fault _ _ h => exact hno ⟨_, .fault hleaves hallows h⟩

theorem feedAll_append : p.feedAll g (ts ++ us) = (p.feedAll g ts).bind fun q => q.feedAll g us := by
  induction ts generalizing p with
  | nil => rfl
  | cons t ts ih =>
    simp only [List.cons_append, feedAll]
    cases p.feed g t with
    | error stop => rfl
    | ok q => exact ih

theorem feedAll_singleton : p.feedAll g [t] = p.feed g t := by
  simp only [feedAll]
  cases p.feed g t <;> rfl

end ParseState

namespace ValidGrammar

open ParseState

variable {g : ValidGrammar V K} {l l' : Limits} {ts : List (K × V)} {i n : Nat} {stop : Stop K}

/-- The parse without limits takes the first `i` tokens, and within `l` the next one ends the parse. -/
def CutAt (g : ValidGrammar V K) (l : Limits) (ts : List (K × V)) (i : Nat) (stop : Stop K) : Prop :=
  ∃ p t, (start .unbounded : ParseState V).feedAll g (ts.take i) = .ok p ∧ ts[i]? = some t ∧ p.Halts g l i t stop

/-- Up to the first cut the parses with limits and without are at the same point. -/
theorem exists_feedAll_take (h : ∀ i < n, ∀ stop, ¬g.CutAt l ts i stop) (hn : n ≤ ts.length) :
    ∃ p : ParseState V, p.limits = .unbounded ∧ p.position = n ∧
      (start .unbounded : ParseState V).feedAll g (ts.take n) = .ok p ∧
      (start l : ParseState V).feedAll g (ts.take n) = .ok (p.within l) := by
  induction n with
  | zero => exact ⟨start .unbounded, rfl, rfl, by simp [feedAll], by simp [feedAll, start, within]⟩
  | succ n ih =>
    obtain ⟨p, hp, rfl, hrun, hwithin⟩ := ih (fun i hi => h i (by omega)) (by omega)
    have ht : ts[p.position]? = some ts[p.position] := List.getElem?_eq_getElem _
    obtain ⟨d, hd, hd'⟩ := exists_feed (g := g) (l := l) (t := ts[p.position]) hp fun stop hstop =>
      h p.position (by omega) stop ⟨p, _, hrun, ht, hstop⟩
    refine ⟨p.next d, hp, rfl, ?_, ?_⟩
    · rw [List.take_succ_eq_append_getElem hn, feedAll_append, hrun]
      exact feedAll_singleton.trans hd
    · rw [List.take_succ_eq_append_getElem hn, feedAll_append, hwithin]
      exact feedAll_singleton.trans hd'

theorem parse_of_cut (h : g.CutAt l ts i stop) (hfirst : ∀ j < i, ∀ other, ¬g.CutAt l ts j other) :
    g.parse l ts = .error stop := by
  obtain ⟨p, t, hp, ht, hhalts⟩ := h
  obtain ⟨hi, rfl⟩ := List.getElem?_eq_some_iff.1 ht
  obtain ⟨q, hq, hposition, hrun, hwithin⟩ := exists_feedAll_take hfirst (Nat.le_of_lt hi)
  cases hrun.symm.trans hp
  have hsplit : ts = ts.take i ++ ([ts[i]] ++ ts.drop (i + 1)) := by simp
  have hall : (start l : ParseState V).feedAll g ts = .error stop := by
    rw [hsplit, feedAll_append, hwithin]
    change (p.within l).feedAll g _ = _
    rw [feedAll_append, feedAll_singleton, hhalts.feed hq hposition]
    rfl
  rw [parse, hall]
  rfl

theorem parse_of_no_cut (h : ∀ i stop, ¬g.CutAt l ts i stop) : g.parse l ts = g.parse .unbounded ts := by
  obtain ⟨p, -, -, hrun, hwithin⟩ := exists_feedAll_take (fun i _ => h i) (Nat.le_refl ts.length)
  rw [List.take_length] at hrun hwithin
  rw [parse, parse, hrun, hwithin]
  rfl

theorem not_cutAt_of_parse {v : V} (h : g.parse l ts = .ok v) : ∀ i stop, ¬g.CutAt l ts i stop := by
  classical
  by_contra hcut
  push Not at hcut
  obtain ⟨stop, hstop⟩ := Nat.find_spec hcut
  have hparse := parse_of_cut hstop fun j hj other hother => Nat.find_min hcut hj ⟨other, hother⟩
  cases hparse.symm.trans h

/-- What is parsed without limits is parsed within a limit on depth if no cursor for one of its tokens is deeper. -/
theorem parse_within_depth {v : V} {m : Nat} (h : g.parse .unbounded ts = .ok v) :
    (∃ w, g.parse { maxDepth := some m } ts = .ok w) ↔ ∀ i p t f,
      (start .unbounded : ParseState V).feedAll g (ts.take i) = .ok p → ts[i]? = some t →
      p.focus g t.1 = .ok (some f) → f.depth ≤ m := by
  have htokens : ∀ i, ({ maxDepth := some m } : Limits).Leaves i := fun i n hn => nomatch hn
  constructor
  · rintro ⟨w, hw⟩ i p t f hp ht hf
    by_contra hdeep
    exact not_cutAt_of_parse hw i _ ⟨p, t, hp, ht, .depth (htokens i) hf rfl (Nat.lt_of_not_le hdeep)⟩
  · intro hdepth
    refine ⟨v, (parse_of_no_cut ?_).trans h⟩
    rintro i stop ⟨p, t, hp, ht, hhalts⟩
    have hno : ∀ stop, p.feed g t ≠ .error stop := fun stop hstop => by
      obtain ⟨hi, rfl⟩ := List.getElem?_eq_some_iff.1 ht
      have hsplit : ts = ts.take i ++ ([ts[i]] ++ ts.drop (i + 1)) := by simp
      rw [parse, hsplit, feedAll_append, hp] at h
      change (p.feedAll g _).bind _ = _ at h
      rw [feedAll_append, feedAll_singleton, hstop] at h
      cases h
    cases hhalts with
    | tokens hm => cases hm
    | token _ h => exact hno _ h
    | depth _ hf hm hlt =>
      cases hm
      exact Nat.not_lt_of_le (hdepth i p t _ hp ht hf) hlt
    | fault _ _ h => exact hno _ h

/-- The first cut, where there is one, is the result of a parse within limits, and otherwise limits make no difference.
So a value stays the same when a limit is raised or removed. -/
theorem parse_cut_short (g : ValidGrammar V K) (l : Limits) (ts : List (K × V)) :
    (∀ i stop, g.CutAt l ts i stop → (∀ j < i, ∀ other, ¬g.CutAt l ts j other) → g.parse l ts = .error stop) ∧
    ((∀ i stop, ¬g.CutAt l ts i stop) → g.parse l ts = g.parse .unbounded ts) ∧
    ∀ l' v, l'.Loosens l → g.parse l ts = .ok v → g.parse l' ts = .ok v := by
  refine ⟨fun i stop => parse_of_cut, parse_of_no_cut, fun l' v hl hv => ?_⟩
  have hno := not_cutAt_of_parse hv
  have hno' : ∀ i stop, ¬g.CutAt l' ts i stop := by
    rintro i stop ⟨p, t, hp, ht, hhalts⟩
    obtain ⟨other, hother⟩ := hhalts.tighten hl
    exact hno i other ⟨p, t, hp, ht, hother⟩
  rw [parse_of_no_cut hno', ← parse_of_no_cut hno, hv]

/-- The second bracket takes the parse below the first level; one pair of brackets is no longer than two tokens. -/
def deepens (g : ValidGrammar (List Int64) Tag) : Bool :=
  match (start .unbounded : ParseState (List Int64)).feed g (Tag.opening, [1]) with
  | .ok p =>
    match (start { maxDepth := some 1 } : ParseState (List Int64)).feed g (Tag.opening, [1]), p.focus g Tag.opening,
      g.parse { maxTokens := some 2 } [(Tag.opening, [1]), (.closing, [2])] with
    | .ok _, .ok (some f), .ok v => v = [1, 0, 2] ∧ f.depth = 3
    | _, _, _ => false
  | _ => false

theorem parse_cut_short_nested : ∃ g s', Grammar.validate [] (.node 6) Grammar.nestedStore = .ok (.ok g) s' ∧
    g.parse { maxDepth := some 1 } [(Tag.opening, [1]), (.opening, [2])] = .error (.rejected (.depthLimitExceeded 1 1)) ∧
    g.parse { maxTokens := some 2 } [(Tag.opening, [1]), (.closing, [2])] = .ok [1, 0, 2] ∧
    g.parse .unbounded [(Tag.opening, [1]), (.closing, [2])] = .ok [1, 0, 2] := by
  obtain ⟨g, s', hval, hp⟩ := Grammar.exists_valid (s := Grammar.nestedStore) [] (.node 6) (fun g _ => deepens g)
    (by decide +kernel)
  unfold deepens at hp
  split at hp
  · rename_i p hfeed
    split at hp
    · rename_i q f v hwithin hf hv
      obtain ⟨rfl, hdepth⟩ := of_decide_eq_true hp
      obtain ⟨hcut, -, -⟩ := parse_cut_short g { maxDepth := some 1 } [(Tag.opening, [1]), (.opening, [2])]
      refine ⟨g, s', hval, hcut 1 _ ⟨p, (.opening, [2]), ?_, rfl, ?_⟩ ?_, hv, ?_⟩
      · exact feedAll_singleton.trans hfeed
      · exact .depth (by simp [Limits.Leaves]) hf rfl (by omega)
      · rintro j hj other ⟨p', t, hp', ht, hhalts⟩
        obtain rfl : j = 0 := by omega
        cases ht
        cases hp'
        cases (hhalts.feed rfl rfl).symm.trans hwithin
      · obtain ⟨-, -, hloose⟩ := parse_cut_short g { maxTokens := some 2 } [(Tag.opening, [1]), (.closing, [2])]
        exact hloose .unbounded _ ⟨by simp [Limits.unbounded], by simp [Limits.unbounded]⟩ hv
    · cases hp
  · cases hp

end ValidGrammar
end Predictive
