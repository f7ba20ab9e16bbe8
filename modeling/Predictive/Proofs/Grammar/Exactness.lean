import Predictive.Proofs.Grammar.History

/-!
What the facts and the verdict of a grammar mean, whatever was done before: they are those of its derivations.
-/
namespace Predictive.Grammar

open Store

variable {V K : Type} [Kind K] {s s' : Store V K} {r : Ref} {i j : Nat} {held : List Ref}

/-- Any kinds of elements of a store make up a set. -/
theorem exists_finSet (P : K → Prop) (h : ∀ k, P k → k ∈ s.kinds) : ∃ ks : FinSet K, ∀ k, k ∈ ks ↔ P k := by
  classical
  refine ⟨.ofList (s.kinds.filter P), fun k => ?_⟩
  rw [FinSet.mem_ofList, List.mem_filter, decide_eq_true_eq]
  exact ⟨fun hk => hk.2, fun hk => ⟨h k hk, hk⟩⟩

theorem mem_kinds_of_starts {k : K} (h : Starts s.productions i k) : k ∈ s.kinds :=
  mem_kinds_of_has (has_startsWith_iff.2 h)

/-- Where one token does not decide, there is a conflict to report. -/
theorem exists_exactConflict (hb : Below s.productions i j) (h : ClashAt s.productions j) :
    ∃ c, ExactConflict s.productions i c := by
  cases h with
  | @bothEmpty l r hj hl hr => exact ⟨.bothAcceptEmpty j, l, r, hb, hj, hl, hr⟩
  | @firstFirst l r k hj hl hr =>
    obtain ⟨ks, hks⟩ := exists_finSet (s := s) (fun k => Starts s.productions l k ∧ Starts s.productions r k)
      fun k hk => mem_kinds_of_starts hk.1
    exact ⟨.firstFirstClash j ks, l, r, hb, hj, ⟨k, (hks k).2 ⟨hl, hr⟩⟩, hks⟩
  | @follow l r k hj hl hr =>
    obtain ⟨d, x, hx, hk⟩ := barred_iff.1 hl
    obtain ⟨ks, hks⟩ := exists_finSet (s := s) (fun k => Starts s.productions x k ∧ Starts s.productions r k)
      fun k hk => mem_kinds_of_starts hk.1
    exact ⟨.followClash d j ks, l, r, x, hb, hj, hx, ⟨k, (hks k).2 ⟨hk, hr⟩⟩, hks⟩

/-- Whatever is reported is a place where one token does not decide. -/
theorem Warranted.clashAt {G : Productions V K} {c : Conflict K} (h : Warranted G i c) :
    ∃ j, Below G i j ∧ ClashAt G j := by
  cases c with
  | bothAcceptEmpty d =>
    obtain ⟨l, r, hb, hd, hl, hr⟩ := h
    exact ⟨d, hb, .bothEmpty hd hl hr⟩
  | firstFirstClash d ks =>
    obtain ⟨l, r, hb, hd, ⟨k, hk⟩, hks⟩ := h
    exact ⟨d, hb, .firstFirst hd (hks k hk).1 (hks k hk).2⟩
  | followClash d q ks =>
    obtain ⟨l, r, x, hb, hq, hx, ⟨k, hk⟩, hks⟩ := h
    exact ⟨q, hb, .follow hq (barred_of_restricts hx (hks k hk).1) (hks k hk).2⟩

/-- A call that ends well with what `p` asks for. -/
theorem exists_ok {α : Type} {w : Work V K α} (p : α → Store V K → Bool)
    (h : (match w s with | .ok a s' => p a s' | .error _ _ => false) = true) : ∃ a s', w s = .ok a s' ∧ p a s' = true := by
  split at h
  · exact ⟨_, _, ‹_›, h⟩
  · cases h

/-- A call that stops as `p` asks for. -/
theorem exists_error {α : Type} {w : Work V K α} (p : Fault → Store V K → Bool)
    (h : (match w s with | .error e s' => p e s' | .ok _ _ => false) = true) :
    ∃ e s', w s = .error e s' ∧ p e s' = true := by
  split at h
  · exact ⟨_, _, ‹_›, h⟩
  · cases h

theorem eq_ok_of_toOption {ε α : Type} {x : Except ε α} {a : α} (h : x.toOption = some a) : x = .ok a := by
  cases x with
  | error e => cases h
  | ok b => exact congrArg Except.ok (Option.some.inj h)

/-- Whether no node is a transformation. -/
def Store.isPlain (s : Store V K) : Bool :=
  s.nodes.all fun
    | .transform _ _ => false
    | _ => true

theorem total_of_isPlain (h : s.isPlain = true) : Total s.productions i := by
  intro j f n hj
  simp only [isPlain, Array.all_eq_true] at h
  simp only [productions] at hj
  cases hn : s.nodes[j]? with
  | none => simp [hn] at hj
  | some shape =>
    obtain ⟨hlt, hshape⟩ := Array.getElem?_eq_some_iff.1 hn
    have hplain := h j hlt
    rw [hshape] at hplain
    cases shape with
    | transform g a => cases hplain
    | success v | element k => simp [hn] at hj
    | disjunction a b | sequence a b => simp [hn, Option.bind_eq_some_iff] at hj
    | deferred o t => cases t <;> simp [hn] at hj

variable [Value V]

/-- A grammar that is found to be without conflicts, with a table as `p` asks for. -/
theorem exists_valid (held : List Ref) (r : Ref) (p : ValidGrammar V K → Store V K → Bool)
    (h : (match validate held r s with | .ok (.ok g) s' => p g s' | _ => false) = true) :
    ∃ g s', validate held r s = .ok (.ok g) s' ∧ p g s' = true := by
  split at h
  · exact ⟨_, _, ‹_›, h⟩
  · cases h

theorem Reached.fact (h : Reached s) (hr : s.HasRef r) {f : FactName} {v : f.Carrier V K}
    (hf : Grammar.fact held f r s = .ok v s') : ∃ i, s'.Realized r i ∧ Correct s'.productions i f v := by
  obtain ⟨hv, hm⟩ := h.sane
  obtain ⟨h', i, hi, hread⟩ := (fact_upholds hv hm held f hr).of_ok hf
  exact ⟨i, hi, hread.correct h'.remembers⟩

/-- A list with a mark after each item, or nothing; what comes before an item is the list itself. -/
def leftRecursive : Expr Unit Tag :=
  .recursive "s" (.disjunction (.sequence (.name "s") (.element .a)) (.success ()))

/-- The grammar has been made, and its body asked for what may not follow. -/
def leftRecursiveStore : Store Unit Tag :=
  (Call.fact [] .restrictions (.node 3)).after ((Call.evaluate [] {} leftRecursive).after {})

theorem reached_leftRecursiveStore : Reached leftRecursiveStore :=
  .call _ (.call _ .refl (by simp [Call.refs, Scope.refs])) fun r hr => by
    obtain rfl : r = .node 3 := by simpa [Call.refs] using hr
    exact (by decide +kernel : 3 < ((Call.evaluate [] {} leftRecursive).after {}).nodes.size)

theorem hasRef_leftRecursiveStore : leftRecursiveStore.HasRef (.node 4) :=
  (by decide +kernel : 4 < leftRecursiveStore.nodes.size)

theorem Judges.ok_iff {v : Except (Rejection K) (ValidGrammar V K)} (h : Judges s i v) :
    (∃ e, v = .error e) ↔ ∃ j, Below s.productions i j ∧ ClashAt s.productions j := by
  cases v with
  | ok g =>
    refine ⟨fun ⟨e, he⟩ => (nomatch he), fun ⟨j, hb, hj⟩ => ?_⟩
    obtain ⟨c, hc⟩ := exists_exactConflict hb hj
    exact absurd (h.1.1 c hc) FinSet.not_mem_empty
  | error e =>
    refine ⟨fun _ => ?_, fun _ => ⟨e, rfl⟩⟩
    obtain ⟨⟨-, hw⟩, hne⟩ := h
    obtain ⟨c, hc⟩ := FinSet.isEmpty_eq_false_iff.1 hne
    exact Warranted.clashAt (hw c hc)

end Predictive.Grammar
