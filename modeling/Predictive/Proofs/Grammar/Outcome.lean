import Predictive.Proofs.Viability
import Predictive.Proofs.Zipper.Pending
import Predictive.Proofs.Grammar.Ambiguity

/-!
What parses with the table of a grammar can come to: the way down ends, nothing but a transformation stops a parse, it
is rejected as early as can be, and there is never a second place for a token.
-/
namespace Predictive

variable {V K : Type}

/-- The result is a value or a rejection, unless a transformation below the node `i` gives up. -/
def Answers {α : Type} (G : Productions V K) (i : Nat) : Except (Stop K) α → Prop
  | .ok _ | .error (.rejected _) => True
  | .error (.fault f) => (∃ text, f = .failed text) ∧ ¬Total G i

namespace Grammar

open Store
open ValidGrammar (start)

variable [Kind K] [Value V] {G : Productions V K} {i : Nat} {g : ValidGrammar V K} {node : Slot → Option Nat}

/-- Where a transformation of the table gives up, so does one of the grammar. -/
theorem Tabulates.fails {f : ParseFault K} (h : Tabulates G i g node) (hf : g.Fails f) :
    (∃ text, f = .failed text) ∧ ¬Total G i := by
  obtain ⟨k, t, inner, v, text, hk, hv, rfl⟩ := hf
  refine ⟨⟨text, rfl⟩, fun total => ?_⟩
  obtain ⟨e, he, -⟩ := ValidGrammar.exists_entry (ValidGrammar.productions_isSome_iff.1 (Option.isSome_of_eq_some hk))
  obtain ⟨j, hj⟩ := h.node k e he
  obtain ⟨q, p, hq, hp, hm⟩ := h.mirrors hj
  cases hk.symm.trans hq
  cases hm with
  | transform hl =>
    obtain ⟨w, hw⟩ := total hp (h.below k j hj) v
    cases hv.symm.trans hw

theorem Tabulates.answers {α : Type} {P : α → Prop} {result : Except (Stop K) α} (h : Tabulates G i g node)
    (hr : g.Safely P result) : Answers G i result := by
  match result with
  | .ok a => trivial
  | .error (.rejected e) => trivial
  | .error (.fault f) => exact h.fails hr

variable {s s' : Store V K} {r : Ref} {held : List Ref}

/-- The table of a grammar that is found to be without conflicts is lawful. -/
theorem Reached.tabulates (h : Reached s) (hr : s.HasRef r) (hval : validate held r s = .ok (.ok g) s') :
    ∃ i node, s'.Realized r i ∧ Tabulates s'.productions i g node ∧ g.Lawful := by
  obtain ⟨i, node, -, hi, hlow, hdecided⟩ := h.lowered hr hval
  exact ⟨i, node, hi, hlow.toTabulates, hlow.toTabulates.lawful hdecided⟩

/-- With a table that comes of a grammar, from wherever a token is accepted the way down meets no slot twice and no
success, and ends at an element that takes the token. So parses, and the states they pass through, always have an
answer. -/
theorem descent_ends_parse_answers (h : Reached s) (hr : s.HasRef r) (hval : validate held r s = .ok (.ok g) s') :
    ∃ i, s'.Realized r i ∧
      (∀ t k c, g.acceptsAt t k = .ok true → ∃ route f, g.Route k t c route f ∧ g.focusAt t k c = .ok f ∧
        route.Nodup ∧ route.length ≤ g.size ∧ (∀ u ∈ route, ∃ e, g.entry u = .ok e ∧ ∀ v, e.form ≠ .success v) ∧
        route.getLast? = some f.leaf ∧ f.kind = k ∧ ∃ e, g.entry f.leaf = .ok e ∧ e.form = .element k) ∧
      (∀ limits ts, Answers s'.productions i (g.parse limits ts)) ∧
      ∀ limits ts p, (start limits : ParseState V).feedAll g ts = .ok p →
        (∀ t, Answers s'.productions i (p.feed g t)) ∧ Answers s'.productions i (p.finish g) := by
  obtain ⟨i, node, hi, htab, hlaw⟩ := h.tabulates hr hval
  have hkeeps := hlaw.keeps_grounded
  refine ⟨i, hi, fun t k c hk => ?_, fun limits ts => htab.answers (hlaw.safely_parse hkeeps limits ts),
    fun limits ts p hp => ?_⟩
  · obtain ⟨route, f, hroute, hf, hnodup, hlength, -⟩ := hlaw.exists_route hk c
    obtain ⟨⟨hlast, hkind, hleaf⟩, hform⟩ := hroute.ends
    exact ⟨route, f, hroute, hf, hnodup, hlength, hform, hlast, hkind, hleaf⟩
  · have hstart := hlaw.safely_start hkeeps limits ts
    rw [hp] at hstart
    exact ⟨fun t => htab.answers (hlaw.safely_feed hkeeps hstart t), htab.answers (hlaw.safely_finish hkeeps hstart)⟩

/-- An opening bracket is accepted, but it is no word, and a closing one is rejected at once. -/
def opensFirst (g : ValidGrammar (List Int64) Tag) : Bool :=
  match g.acceptsAt g.root .opening, g.parse .unbounded [(.closing, [1])], g.parse .unbounded [(.opening, [1])] with
  | .ok true, .error (.rejected (.unexpectedToken 0 .closing)), .error (.rejected (.unexpectedEnd 1)) => true
  | _, _, _ => false

theorem exists_validate_nested : ∃ g s', validate [] (.node 6) nestedStore = .ok (.ok g) s' ∧
    g.acceptsAt g.root Tag.opening = .ok true ∧
    g.parse .unbounded [(.closing, [1])] = .error (.rejected (.unexpectedToken 0 .closing)) ∧
    g.parse .unbounded [(.opening, [1])] = .error (.rejected (.unexpectedEnd 1)) := by
  obtain ⟨g, s', hv, hp⟩ := exists_valid (s := nestedStore) [] (.node 6) (fun g _ => opensFirst g)
    (by decide +kernel)
  unfold opensFirst at hp
  split at hp
  · rename_i hk hclosing hopening
    exact ⟨g, s', hv, hk, hclosing, hopening⟩
  · cases hp

theorem descent_ends_nested : ∃ g s' route f, validate [] (.node 6) nestedStore = .ok (.ok g) s' ∧
    g.Route Tag.opening g.root .top route f ∧ route.Nodup ∧ f.kind = .opening := by
  obtain ⟨g, s', hval, hk, -⟩ := exists_validate_nested
  obtain ⟨i, -, hroute, -⟩ := descent_ends_parse_answers reached_nestedStore hasRef_nestedStore hval
  obtain ⟨route, f, hroute, -, hnodup, -, -, -, hkind, -⟩ := hroute g.root .opening .top hk
  exact ⟨g, s', route, f, hval, hroute, hnodup, hkind⟩

/-- A parse without limits is rejected at the first token with which the tokens so far are no beginning of a word of the
grammar, and at the end if there is no such token but no word either. It has no other error, unless a transformation
gives up. After one token or more it can still be completed. -/
theorem parse_rejects_earliest (h : Reached s) (hr : s.HasRef r) (hval : validate held r s = .ok (.ok g) s') :
    ∃ i, s'.Realized r i ∧
      (∀ ts : List (K × V),
        (∃ text, g.parse .unbounded ts = .error (.fault (.failed text)) ∧ ¬Total s'.productions i) ∨
        ((∀ p k, g.parse .unbounded ts = .error (.rejected (.unexpectedToken p k)) ↔
            IsLeast {n | n < ts.length ∧ ¬Viable s'.productions i ((ts.map Prod.fst).take (n + 1))} p ∧
              (ts.map Prod.fst)[p]? = some k) ∧
          (∀ p, g.parse .unbounded ts = .error (.rejected (.unexpectedEnd p)) ↔
            (∀ n < ts.length, Viable s'.productions i ((ts.map Prod.fst).take (n + 1))) ∧
              ¬Yields s'.productions i (ts.map Prod.fst) ∧ p = ts.length) ∧
          ∀ stop, g.parse .unbounded ts = .error stop →
            (∃ p k, stop = .rejected (.unexpectedToken p k)) ∨ ∃ p, stop = .rejected (.unexpectedEnd p))) ∧
      ∀ ts q, ts ≠ [] → (start .unbounded : ParseState V).feedAll g ts = .ok q →
        Viable s'.productions i (ts.map Prod.fst) ∧
          (Total s'.productions i → ∃ us v, (q.feedAll g us).bind (fun p => p.finish g) = .ok v) := by
  obtain ⟨i, node, hi, htab, hlaw⟩ := h.tabulates hr hval
  have hyields : ∀ ks, Yields g.productions g.root ks ↔ Yields s'.productions i ks := fun ks => htab.yields_iff htab.root
  refine ⟨i, hi, fun ts => ?_, fun ts q hts hq => ?_⟩
  · rcases hlaw.rejected_iff ts with ⟨f, hf, hfails⟩ | hiff
    · obtain ⟨⟨text, rfl⟩, htotal⟩ := htab.fails hfails
      exact .inl ⟨text, hf, htotal⟩
    · right
      have hrejected : ∀ e, g.parse .unbounded ts = .error (.rejected e) ↔ Blames s'.productions i (ts.map Prod.fst) e := by
        intro e
        rw [hiff, ← blames_congr hyields]
        simp
      refine ⟨fun p k => ?_, fun p => ?_, fun stop hstop => ?_⟩
      · simpa [Blames] using hrejected (.unexpectedToken p k)
      · simpa [Blames] using hrejected (.unexpectedEnd p)
      · obtain ⟨e, rfl, he⟩ := (hiff stop).1 hstop
        cases e with
        | unexpectedToken p k => exact .inl ⟨p, k, rfl⟩
        | unexpectedEnd p => exact .inr ⟨p, rfl⟩
        | tokenLimitExceeded l | depthLimitExceeded p l => exact he.elim
  · obtain ⟨js, hjs⟩ := hlaw.viable_of_start hts hq
    rw [hyields] at hjs
    refine ⟨⟨js, hjs⟩, fun total => ?_⟩
    obtain ⟨⟨k, a⟩, ts', rfl⟩ := List.exists_cons_of_ne_nil hts
    have hkinds : ((k, a) :: ts' ++ js.map fun j => (j, a)).map Prod.fst = ((k, a) :: ts').map Prod.fst ++ js := by
      simp [Function.comp_def]
    obtain ⟨v, hv⟩ := hjs.derives total hkinds
    obtain ⟨hopen, hiff, -⟩ := hlaw.start_spec hq
    exact ⟨_, v, (hlaw.feedAll_iff hopen).2 ((hiff _ v).1 ((htab.derives_iff htab.root).2 hv))⟩

/-- A closing bracket is no beginning, and an opening one is, but no word. -/
theorem parse_rejects_earliest_nested : ∃ g s' i, validate [] (.node 6) nestedStore = .ok (.ok g) s' ∧
    s'.Realized (.node 6) i ∧ ¬Viable s'.productions i [Tag.closing] ∧ Viable s'.productions i [Tag.opening] ∧
    ¬Yields s'.productions i [Tag.opening] := by
  obtain ⟨g, s', hval, -, htoken, hend⟩ := exists_validate_nested
  obtain ⟨i, hi, hparse, -⟩ := parse_rejects_earliest reached_nestedStore hasRef_nestedStore hval
  have hclosing : ¬Viable s'.productions i [Tag.closing] := by
    rcases hparse [(.closing, [1])] with ⟨text, htext, -⟩ | ⟨hiff, -⟩
    · cases htoken.symm.trans htext
    · exact ((hiff 0 .closing).1 htoken).1.1.2
  rcases hparse [(.opening, [1])] with ⟨text, htext, -⟩ | ⟨-, hiff, -⟩
  · cases hend.symm.trans htext
  · obtain ⟨hviable, hno, -⟩ := (hiff 1).1 hend
    exact ⟨g, s', i, hval, hi, hclosing, hviable 0 Nat.zero_lt_one, hno⟩

/-- Whatever tokens a parse has consumed, within any limits, a token can go to one of the pending parts at most, those
before it being left empty. The parse goes on there, with the parts behind still pending. It does not go on only if no
part receives the token or a transformation gives up. -/
theorem pending_receives_unique (h : Reached s) (hr : s.HasRef r) (hval : validate held r s = .ok (.ok g) s')
    {limits : Limits} {ts : List (K × V)} {p : ParseState V} {d : Fold V}
    (hp : (start limits : ParseState V).feedAll g ts = .ok p) (hd : p.fold = some d) (k : K) :
    (∀ i j, g.Receives d.pending k i → g.Receives d.pending k j → i = j) ∧
    (∀ f, d.resume g k = .ok (some f) → ∃ i t c, g.Receives d.pending k i ∧ d.pending.drop i = t :: c.pending ∧
      g.focusAt t k c = .ok f) ∧
    (d.resume g k = .ok none → ∀ i, ¬g.Receives d.pending k i) ∧
    ∀ e, d.resume g k = .error e → ∃ text, e = .failed text := by
  obtain ⟨i, node, -, htab, hlaw⟩ := h.tabulates hr hval
  have hstart : Apart g.productions ((start limits : ParseState V).pending g) := ⟨fun _ _ _ => not_meets_nil, trivial⟩
  have hapart : Apart g.productions d.pending := by
    have hleft := hlaw.apart_feedAll hstart hp
    rwa [ParseState.pending, hd] at hleft
  have hsafe := hlaw.safely_start hlaw.keeps_grounded limits ts
  rw [hp] at hsafe
  simp only [hlaw.receives_iff]
  refine ⟨fun i j hi hj => hapart.unique hi hj, fun f hf => hlaw.meets_of_resume hf,
    fun hnone i => hlaw.not_meets_of_resume hnone, fun e he => ?_⟩
  have hresume := hlaw.safe_resume hlaw.keeps_grounded (hsafe d hd) k
  rw [he] at hresume
  exact (htab.fails hresume).1

/-- An item and a mark; between them another such pair may stand, after a mark of its own. -/
def chained : Expr Unit Tag :=
  .recursive "s"
    (.sequence (.sequence (.element .a) (.optional (.sequence (.element .b) (.name "s")) ())) (.element .c))

/-- The chains have been made. -/
def chainedStore : Store Unit Tag := (Call.evaluate [] {} chained).after {}

theorem reached_chainedStore : Reached chainedStore := .call _ .refl (by simp [Call.refs, Scope.refs])

theorem hasRef_chainedStore : chainedStore.HasRef (.node 8) := (by decide +kernel : 8 < chainedStore.nodes.size)

/-- After an item, a mark and an item three parts are pending, the first of which may be empty; the second takes the
mark that is left. -/
def awaitsMark (g : ValidGrammar Unit Tag) : Bool :=
  match (start .unbounded : ParseState Unit).feedAll g [(Tag.a, ()), (.b, ()), (.a, ())] with
  | .ok ⟨_, _, some d⟩ =>
    match d.resume g Tag.c, g.acceptsAt 2 Tag.c, g.entry 4 with
    | .ok (some _), .ok true, .ok e => d.pending == [4, 2, 2] && e.emptyValue.isSome
    | _, _, _ => false
  | _ => false

/-- The last item may stand alone: its mark is the second part that is pending, and the mark after it is not reached. -/
theorem pending_receives_chained : ∃ g s' p d f, validate [] (.node 8) chainedStore = .ok (.ok g) s' ∧
    (start .unbounded : ParseState Unit).feedAll g [(Tag.a, ()), (.b, ()), (.a, ())] = .ok p ∧ p.fold = some d ∧
    d.pending.length = 3 ∧ d.resume g Tag.c = .ok (some f) ∧ g.Receives d.pending .c 1 ∧
    ∀ i, g.Receives d.pending .c i → i = 1 := by
  obtain ⟨g, s', hval, hp⟩ := exists_valid (s := chainedStore) [] (.node 8) (fun g _ => awaitsMark g)
    (by decide +kernel)
  unfold awaitsMark at hp
  split at hp
  · rename_i limits position d hfeed
    split at hp
    · rename_i f e hf hk he
      obtain ⟨hpending, hempty⟩ := Bool.and_eq_true_iff.1 hp
      have hpending : d.pending = [4, 2, 2] := beq_iff_eq.1 hpending
      obtain ⟨hunique, -⟩ := pending_receives_unique reached_chainedStore hasRef_chainedStore hval hfeed rfl Tag.c
      have hreceives : g.Receives d.pending Tag.c 1 := by
        rw [hpending]
        refine ⟨⟨2, rfl, hk⟩, fun j hj s hs => ?_⟩
        obtain rfl : j = 0 := by omega
        cases hs
        exact ⟨e, he, hempty⟩
      exact ⟨g, s', _, d, f, hval, hfeed, rfl, by rw [hpending]; rfl, hf, hreceives,
        fun i hi => hunique i 1 hi hreceives⟩
    · cases hp
  · cases hp

end Grammar
end Predictive
