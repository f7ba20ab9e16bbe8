import Predictive.Proofs.Grammar.Continuation
import Predictive.Proofs.Grammar.Sugaring

/-!
The verdict on a grammar with sugar is told by the verdict on the grammar and by three of its facts. Once one of them has got
a table, there is a verdict on all of them.
-/
namespace Predictive.Grammar

open Store

variable {V K : Type} {i n : Nat} {u : Sugar}

variable [Value V] [Kind K] {s : Store V K} {r : Ref} {held : List Ref} {α : Type}

/-- In calls that lead to `s`, `call` has given the answer `a` about the grammar `r`. -/
def Answered (s : Store V K) (call : List Ref → Ref → Work V K α) (r : Ref) (a : α) : Prop :=
  ∃ held s₀ s₁, Reached s₀ ∧ s₀.HasRef r ∧ call held r s₀ = .ok a s₁ ∧ Later s₁ s

/-- The grammar has got a table in calls that lead to `s`, and what was in use then still is. -/
def Tabled (s : Store V K) (held' : List Ref) (r : Ref) : Prop :=
  ∃ held g s₀ s₁, Reached s₀ ∧ s₀.HasRef r ∧ validate held r s₀ = .ok (.ok g) s₁ ∧ Later s₁ s ∧
    ∀ r' ∈ s₁.names.values ++ held, r' ∈ s.names.values ++ held'

theorem Answered.exists_judged {v : Except (Rejection K) (ValidGrammar V K)} (h : Answered s validate r v) :
    Reached s ∧ ∃ i, s.nodeOf? r = some i ∧ Judged s i v := by
  obtain ⟨held, s₀, s₁, h₀, hr, hval, hl⟩ := h
  have h₁ : Reached s₁ := h₀.trans (.of_validate hr hval)
  obtain ⟨hv₁, hm₁⟩ := h₁.sane
  exact ⟨h₁.trans hl, exists_judged_of_validate h₀ hr hval (hl.upholds hv₁ hm₁)⟩

theorem Answered.judged {v : Except (Rejection K) (ValidGrammar V K)} (h : Answered s validate (.node i) v) :
    Reached s ∧ Judged s i v := by
  obtain ⟨hreached, n, hn, hjudged⟩ := h.exists_judged
  obtain rfl : i = n := Option.some.inj hn
  exact ⟨hreached, hjudged⟩

theorem Answered.tabled {g : ValidGrammar V K} (h : Answered s validate r (.ok g)) : ∃ held, Tabled s held r := by
  obtain ⟨held, s₀, s₁, h₀, hr, hval, hl⟩ := h
  exact ⟨s₁.names.values ++ held, held, g, s₀, s₁, h₀, hr, hval, hl, fun r' hr' => List.mem_append_right _ hr'⟩

theorem Answered.correct {f : FactName} {a : f.Carrier V K} (h : Answered s (fact · f ·) (.node i) a) :
    Correct s.productions i f a := by
  obtain ⟨held, s₀, s₁, h₀, hr, hf, hl⟩ := h
  obtain ⟨hv, hm⟩ := h₀.sane
  obtain ⟨hup, n, hn, hread⟩ := (fact_upholds hv hm held f hr).of_ok hf
  obtain rfl : i = n := Option.some.inj hn.1
  have hup' := hl.upholds hup.valid hup.remembers
  exact (hup'.reads hn.2 hread).correct hup'.remembers

theorem Later.of_fact {s' : Store V K} {f : FactName} {a : f.Carrier V K} (hr : s.HasRef r)
    (hf : fact held f r s = .ok a s') : Later s s' := by
  have hafter : (Call.fact held f r).after s = s' := by
    simp [Call.after, Call.run, bind, EStateM.bind, hf]
    rfl
  exact hafter ▸ .call _ .refl (by simpa [Call.refs] using hr)

theorem Later.hasRef {s' : Store V K} (hl : Later s s') (h : Reached s) (hr : s.HasRef r) : s'.HasRef r := by
  obtain ⟨hv, hm⟩ := h.sane
  exact hr.of_le (hl.upholds hv hm).size_le

theorem Tabled.ready {x : NodeId} (h : Tabled s held (.node x)) :
    Reached s ∧ s.Ready (s.liveness (.node x :: held)) x := by
  obtain ⟨held₀, g, s₀, s₁, h₀, hr, hval, hl, hkeep⟩ := h
  have h₁ : Reached s₁ := h₀.trans (.of_validate hr hval)
  exact ⟨h₁.trans hl, ready_of_later h₀ hr hval hl hkeep⟩

/-- Once one of them has got a table, there is a verdict on any grammar made of `i` with sugar or without, and any fact is
told of it. -/
theorem exists_answers_of_tabled {x y : NodeId} {joints joints' : List NodeId} (h : Tabled s held (.node x))
    (hx : s.Kin i joints x) (hself : ∀ c ∈ joints, ¬Below s.productions i c) (hy : s.Kin i joints' y) :
    (∃ w s', validate held (.node y) s = .ok w s') ∧ ∀ f, ∃ a s', fact held f (.node y) s = .ok a s' := by
  obtain ⟨hreached, hready⟩ := h.ready
  have hs := hreached.orderly
  have hinner := hx.inner_ready hs.bodies hready hself
  obtain ⟨p, hp⟩ := Option.isSome_iff_exists.1 (hinner.complete i .refl)
  have href := hy.hasRef (lt_of_production hp)
  obtain ⟨t, hg, hready'⟩ := hy.realizes hs hinner
  exact ⟨exists_verdict_of_realize hs.valid hs.remembers href hg hready',
    exists_fact_of_realize hs.valid hs.remembers href hg hready'⟩

/-- Of a decided grammar it is told what suits sugar. -/
theorem suits_iff {ev : Option V} {ks : FinSet K} {rs : FinSet (Restriction K)}
    (hev : Correct s.productions i .emptyValue ev) (hks : Correct s.productions i .first ks)
    (hrs : Correct s.productions i .restrictions rs) (hu : u ≠ .optional) :
    u.Suits s.productions i ↔ ev = none ∧ ∀ e ∈ rs, ∀ k ∈ ks, k ∉ e.disallowed := by
  have hbarred : ∀ k, (∃ e ∈ rs, k ∈ e.disallowed) ↔ Barred s.productions i k := fun k =>
    exists_disallowed_iff_barred hrs
  have hnullable : ¬Nullable s.productions i ↔ ev = none := by
    rw [← hev.1, Option.not_isSome_iff_eq_none]
  have hstarts : (∀ k, Barred s.productions i k → ¬Starts s.productions i k) ↔
      ∀ e ∈ rs, ∀ k ∈ ks, k ∉ e.disallowed := by
    constructor
    · exact fun h e he k hk hd => h k ((hbarred k).1 ⟨e, he, hd⟩) ((hks k).1 hk)
    · intro h k hk hs
      obtain ⟨e, he, hd⟩ := (hbarred k).2 hk
      exact h e he k ((hks k).2 hs) hd
  cases u with
  | optional => exact absurd rfl hu
  | many | many1 => exact and_congr hnullable hstarts

/-- What is made with sugar gets a table exactly if what it is made of does, and that does not match nothing; if it may
come again, nothing that a round starts with may be barred behind a round. It does not matter whether it must come once.
Where one of them has got a table, there is an answer to all that is asked of the others. -/
theorem repetition_validates_iff {s : Store V K} {i : NodeId} :
    (∀ {u : Sugar} {e : Expr V K} {x : V} {held : List Ref} {sc : Scope} {s₀ : Store V K} {r : Ref},
      (u.expr e x).evaluate held sc s₀ = .ok r s → ∃ a s₁, e.evaluate held sc s₀ = .ok a s₁ ∧
        (a = .node i → ∃ joints j, r = .node j ∧ s.Sugared i u joints j)) ∧
    (∀ {v w : Except (Rejection K) (ValidGrammar V K)} {ev : Option V} {joints : List NodeId} {j : NodeId},
      s.Sugared i .optional joints j → Answered s validate (.node i) v → Answered s emptyValue (.node i) ev →
        Answered s validate (.node j) w → ((∃ g, w = .ok g) ↔ (∃ g, v = .ok g) ∧ ev = none)) ∧
    (∀ {u : Sugar} {v w : Except (Rejection K) (ValidGrammar V K)} {ev : Option V} {ks : FinSet K}
      {rs : FinSet (Restriction K)} {joints : List NodeId} {j : NodeId}, u ≠ .optional → s.Sugared i u joints j →
        Answered s validate (.node i) v → Answered s emptyValue (.node i) ev →
        Answered s first (.node i) ks → Answered s restrictions (.node i) rs →
        Answered s validate (.node j) w →
        ((∃ g, w = .ok g) ↔ (∃ g, v = .ok g) ∧ ev = none ∧ ∀ e ∈ rs, ∀ k ∈ ks, k ∉ e.disallowed)) ∧
    (∀ {w w' : Except (Rejection K) (ValidGrammar V K)} {joints joints' : List NodeId} {j j' : NodeId},
      s.Sugared i .many joints j → s.Sugared i .many1 joints' j' → Answered s validate (.node j) w →
        Answered s validate (.node j') w' → SameVerdict w' w) ∧
    ∀ {held : List Ref} {joints joints' : List NodeId} {x y : NodeId}, s.Kin i joints x →
      (∀ c ∈ joints, ¬Below s.productions i c) → s.Kin i joints' y → Tabled s held (.node x) →
      (∃ w s', validate held (.node y) s = .ok w s') ∧ ∀ f, ∃ a s', fact held f (.node y) s = .ok a s' := by
  have hiff : ∀ {u : Sugar} {w : Except (Rejection K) (ValidGrammar V K)} {joints : List NodeId} {j : NodeId},
      s.Sugared i u joints j → Answered s validate (.node j) w →
        ((∃ g, w = .ok g) ↔ DecidedFrom s.productions i ∧ u.Suits s.productions i) := fun hj hw => by
    obtain ⟨hreached, hw⟩ := hw.judged
    rw [hw.decided, (hj.repeats hreached.orderly.bodies hw.complete).decidedFrom_iff]
  refine ⟨fun h => ?_, fun hj hv hev hw => ?_, fun hu hj hv hev hks hrs hw => ?_, fun hj hj' hw hw' => ?_,
    fun hx hself hy h => exists_answers_of_tabled h hx hself hy⟩
  · obtain ⟨a, s₁, he, hj⟩ := evaluate_sugared h
    exact ⟨a, s₁, he, hj i⟩
  · rw [hiff hj hw, hv.judged.2.decided]
    have hempty := Answered.correct (f := .emptyValue) hev
    exact and_congr_right fun _ => (not_congr hempty.1.symm).trans Option.not_isSome_iff_eq_none
  · have hempty := Answered.correct (f := .emptyValue) hev
    have hfirst := Answered.correct (f := .first) hks
    have hbarred := Answered.correct (f := .restrictions) hrs
    rw [hiff hj hw, hv.judged.2.decided, suits_iff hempty hfirst hbarred hu]
  · exact (hiff hj' hw').trans (hiff hj hw).symm

/-- An element that may be doubled, left out and repeated. -/
def doubledStore : Store (List Int64) Tag :=
  (Call.evaluate [] {} (.disjunction
    (.optional (.save "x" (.sequence (.element .a) (.optional (.element .a) []))) [])
    (.many (.name "x") []))).after {}

/-- The nodes before `n` lead to each other only. -/
def Store.isClosedBefore (s : Store (List Int64) Tag) (n : Nat) : Bool :=
  (List.range n).all fun m => (s.below m).all fun
    | .node d => d < n
    | .self _ => false

theorem lt_of_isClosedBefore {s : Store (List Int64) Tag} {m : Nat} (h : s.isClosedBefore n = true) (hi : i < n)
    (hb : Below s.productions i m) : m < n := by
  induction hb with
  | refl => exact hi
  | @tail x y _ hy ih =>
    obtain ⟨p, hp, hyp⟩ := hy
    obtain ⟨r, hr, hy⟩ := (mem_parts_iff hp).1 hyp
    have hr' := List.all_eq_true.1 (List.all_eq_true.1 h x (List.mem_range.2 ih)) r hr
    cases r with
    | node d =>
      cases hy
      exact of_decide_eq_true hr'
    | self k => cases hr'

/-- The nodes of the repeated grammar are where they were made. -/
def Store.isDoubled (s : Store (List Int64) Tag) : Bool :=
  match s.nodes[6]?, s.nodes[5]?, s.nodes[10]?, s.nodes[9]?, s.nodes[7]?, s.nodes[8]? with
  | some (Shape.disjunction (.node 4) (.node 5)), some (Shape.success _), some (Shape.deferred (.known (.node 9)) _),
    some (Shape.disjunction (.node 7) (.node 8)), some (Shape.sequence (.node 4) (.self k)), some (Shape.success _) =>
    s.nodeOf? (.self k) == some 10
  | _, _, _, _, _, _ => false

theorem sugared_of_isDoubled {s : Store (List Int64) Tag} (h : s.isDoubled = true) :
    s.Sugared 4 .optional [6, 5] 6 ∧ s.Sugared 4 .many [10, 9, 7, 8] 10 := by
  unfold Store.isDoubled at h
  split at h
  · rename_i h6 h5 h10 h9 h7 h8
    exact ⟨.optional h6 h5, .many h10 h9 h7 h8 (beq_iff_eq.1 h)⟩
  · cases h

/-- What is told of the element and of it with sugar. -/
def askDoubled : Work (List Int64) Tag (Except (Rejection Tag) (ValidGrammar (List Int64) Tag) × Option (List Int64) ×
    FinSet Tag × FinSet (Restriction Tag) × Except (Rejection Tag) (ValidGrammar (List Int64) Tag) ×
    Except (Rejection Tag) (ValidGrammar (List Int64) Tag)) := do
  let v ← validate [] (.node 4)
  let ev ← emptyValue [] (.node 4)
  let ks ← first [] (.node 4)
  let rs ← restrictions [] (.node 4)
  let w ← validate [] (.node 6)
  let w' ← validate [] (.node 10)
  return (v, ev, ks, rs, w, w')

theorem answered_of_askDoubled {s s₇ : Store (List Int64) Tag} {v w w' : _} {ev : Option (List Int64)} {ks : FinSet Tag}
    {rs : FinSet (Restriction Tag)} (h₀ : Reached s) (hsize : ∀ n ≤ 10, s.HasRef (.node n))
    (h : askDoubled s = .ok (v, ev, ks, rs, w, w') s₇) :
    Answered s₇ validate (.node 4) v ∧ Answered s₇ emptyValue (.node 4) ev ∧
    Answered s₇ first (.node 4) ks ∧ Answered s₇ restrictions (.node 4) rs ∧
    Answered s₇ validate (.node 6) w ∧ Answered s₇ validate (.node 10) w' := by
  obtain ⟨v, s₁, hv, h⟩ := bind_eq_ok h
  obtain ⟨ev, s₂, hev, h⟩ := bind_eq_ok h
  obtain ⟨ks, s₃, hks, h⟩ := bind_eq_ok h
  obtain ⟨rs, s₄, hrs, h⟩ := bind_eq_ok h
  obtain ⟨w, s₅, hw, h⟩ := bind_eq_ok h
  obtain ⟨w', s₆, hw', h⟩ := bind_eq_ok h
  cases h
  have hi₀ := hsize 4 (by decide)
  have l₁ := Later.of_validate hi₀ hv
  have h₁ : Reached s₁ := h₀.trans l₁
  have hi₁ := l₁.hasRef h₀ hi₀
  have l₂ := Later.of_fact hi₁ hev
  have h₂ : Reached s₂ := h₁.trans l₂
  have hi₂ := l₂.hasRef h₁ hi₁
  have l₃ := Later.of_fact hi₂ hks
  have h₃ : Reached s₃ := h₂.trans l₃
  have hi₃ := l₃.hasRef h₂ hi₂
  have l₄ := ((l₁.trans l₂).trans l₃).trans (Later.of_fact hi₃ hrs)
  have hj₄ := l₄.hasRef h₀ (hsize 6 (by decide))
  have l₅ := Later.of_validate hj₄ hw
  have hj₅ := (l₄.trans l₅).hasRef h₀ (hsize 10 (by decide))
  have l₆ := Later.of_validate hj₅ hw'
  have l₃₆ := ((Later.of_fact hi₃ hrs).trans l₅).trans l₆
  exact ⟨⟨_, _, _, h₀, hi₀, hv, (l₂.trans l₃).trans l₃₆⟩, ⟨_, _, _, h₁, hi₁, hev, l₃.trans l₃₆⟩,
    ⟨_, _, _, h₂, hi₂, hks, l₃₆⟩, ⟨_, _, _, h₃, hi₃, hrs, l₅.trans l₆⟩, ⟨_, _, _, h₀.trans l₄, hj₄, hw, l₆⟩,
    ⟨_, _, _, (h₀.trans l₄).trans l₅, hj₅, hw', .refl⟩⟩

/-- The element may be left out, but where it may come again a round could be doubled by the next one. -/
theorem repetition_validates_iff_doubled : ∃ (s : Store (List Int64) Tag) (v w w' : _) (ks : FinSet Tag)
    (rs : FinSet (Restriction Tag)), s.Sugared 4 .optional [6, 5] 6 ∧ s.Sugared 4 .many [10, 9, 7, 8] 10 ∧
    Answered s validate (.node 4) v ∧ Answered s first (.node 4) ks ∧
    Answered s restrictions (.node 4) rs ∧ Answered s validate (.node 6) w ∧
    Answered s validate (.node 10) w' ∧ (∃ g, v = .ok g) ∧ (∃ g, w = .ok g) ∧ (¬∃ g, w' = .ok g) ∧
    (∃ e ∈ rs, ∃ k ∈ ks, k ∈ e.disallowed) ∧ ∃ held a s', fact held .conflicts (.node 10) s = .ok a s' := by
  have hreached : Reached doubledStore := .call _ .refl (by simp [Call.refs, Scope.refs])
  have hnodes : doubledStore.nodes.size = 12 := by decide +kernel
  have hsize : ∀ n ≤ 10, doubledStore.HasRef (.node n) := fun n hn =>
    (Nat.lt_of_le_of_lt hn (by decide) : n < 12).trans_eq hnodes.symm
  obtain ⟨⟨v, ev, ks, rs, w, w'⟩, s, h, hp⟩ := exists_ok (s := doubledStore) (w := askDoubled)
    (fun a s => a.2.2.2.2.1.isOk && !a.2.2.2.2.2.isOk && s.isDoubled && s.isClosedBefore 5) (by decide +kernel)
  obtain ⟨hv, hev, hks, hrs, hw, hw'⟩ := answered_of_askDoubled hreached hsize h
  simp only [Bool.and_eq_true, Bool.not_eq_true'] at hp
  obtain ⟨⟨⟨hwell, hwrong⟩, hdoubled⟩, hclosed⟩ := hp
  obtain ⟨hoptional, hmany⟩ := sugared_of_isDoubled hdoubled
  have hyes : ∃ g, w = .ok g := by
    cases w with
    | ok g => exact ⟨g, rfl⟩
    | error e => cases hwell
  have hno : ¬∃ g, w' = .ok g := by
    rintro ⟨g, rfl⟩
    cases hwrong
  obtain ⟨-, hiff, hiff', -, hanswers⟩ := repetition_validates_iff (s := s) (i := 4)
  obtain ⟨hgood, hempty⟩ := (hiff hoptional hv hev hw).1 hyes
  have hself : ∀ c ∈ [6, 5], ¬Below s.productions 4 c := fun c hc hb => by
    have hlt := lt_of_isClosedBefore hclosed (by decide) hb
    simp only [List.mem_cons, List.not_mem_nil, or_false] at hc
    omega
  have htold : ∃ held a s', fact held .conflicts (.node 10) s = .ok a s' := by
    obtain ⟨g, rfl⟩ := hyes
    obtain ⟨held, htabled⟩ := hw.tabled
    exact ⟨held, (hanswers (.sugared hoptional) hself (.sugared hmany) htabled).2 .conflicts⟩
  refine ⟨s, v, w, w', ks, rs, hoptional, hmany, hv, hks, hrs, hw, hw', hgood, hyes, hno, ?_, htold⟩
  by_contra hnone
  push Not at hnone
  exact hno ((hiff' (by decide) hmany hv hev hks hrs hw').2 ⟨hgood, hempty, hnone⟩)

end Predictive.Grammar
