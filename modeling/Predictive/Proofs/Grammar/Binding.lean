import Predictive.Proofs.Grammar.Homomorphism

/-!
What a deferred node is bound to stays, and what its target was made of does not matter any more. Nothing is final that
depends on a deferred node before it is bound.
-/
namespace Predictive

variable {V K : Type}

namespace Grammar

open Solver (Cell Definition Family)
open Store (Liveness)

theorem Expr.Twin.refl (e : Expr V K) : e.Twin Eq e := by
  induction e with
  | success v => exact .success rfl
  | element k => exact .element k
  | disjunction l r ihl ihr => exact .disjunction ihl ihr
  | sequence l r ihl ihr => exact .sequence ihl ihr
  | transform f e ih => exact .transform (.refl f) ih
  | optional e v ih => exact .optional ih rfl
  | many e v ih => exact .many ih rfl
  | many1 e v ih => exact .many1 ih rfl
  | recursive x e ih => exact .recursive x ih
  | deferred e ih => exact .deferred ih
  | name x => exact .name x
  | save x e ih => exact .save x ih
  | touch e ih => exact .touch ih
  | repeated n x start step ihs iht => exact .repeated n x ihs iht
  | indexed kind => exact .indexed kind
  | malformed => exact .malformed

theorem Shape.Twin.refl (shape : Shape V K) : shape.Twin Eq shape := by
  cases shape with
  | success v => exact .success rfl
  | element k => exact .element k
  | disjunction l r => exact .disjunction l r
  | sequence l r => exact .sequence l r
  | transform f i => exact .transform i (.refl f)
  | deferred o target =>
    cases target with
    | some t => exact .bound t rfl
    | none =>
      cases o with
      | known body => exact .unbound (.known body)
      | delayed e scope => exact .unbound (.delayed scope (.refl e))

variable [Kind K]

namespace Store

/-- The store with `o` for the origin of the deferred node `i`. -/
def setOrigin (s : Store V K) (i : NodeId) (o : Origin V K) : Store V K :=
  { s with nodes := s.nodes.modify i fun
    | .deferred _ target => .deferred o target
    | shape => shape }

variable {s : Store V K} {i : NodeId} {o : Origin V K} {t : Ref}

/-- The origin of a node that is bound does not matter, except for what it holds. -/
theorem Twin.setOrigin (h : s.Twin Eq s) {o' : Origin V K} (hi : s.nodes[i]? = some (.deferred o (some t)))
    (ho : o'.refs = o.refs) : s.Twin Eq (s.setOrigin i o') where
  nodes := by
    change List.Forall₂ _ s.nodes.toList (s.nodes.modify i _).toList
    refine List.forall₂_iff_get.2 ⟨by simp, fun j hj hj' => ?_⟩
    simp only [List.get_eq_getElem, Array.getElem_toList, Array.getElem_modify]
    split
    · rename_i hij
      subst hij
      obtain ⟨_, hi⟩ := Array.getElem?_eq_some_iff.1 hi
      simp only [hi]
      exact .bound t ho
    · exact .refl _
  knots := rfl
  names := rfl
  releases := rfl
  book := h.book
  listening := rfl
  events := rfl
  targets := h.targets

end Store

variable {s s' : Store V K}

theorem Call.Twin.refl (c : Call V K) : c.Twin Eq c := by
  cases c with
  | evaluate held sc e => exact .evaluate held sc (.refl e)
  | setName x r => exact .setName x r
  | forget x => exact .forget x
  | realize held r => exact .realize held r
  | fact held f r => exact .fact held f r
  | validate held r => exact .validate held r
  | subtree held r id => exact .subtree held r id
  | report held e => exact .report held e
  | listen b => exact .listen b
  | take => exact .take

variable [Value V]

theorem Later.twin (h : Later s s') (hs : s.Twin Eq s) : s'.Twin Eq s' := by
  induction h with
  | refl => exact hs
  | call c _ _ ih => exact (Call.Twin.refl c).after homomorphic_eq ih

/-- What is left of `s` when the calls are made one after another. -/
def Call.afterAll (cs : List (Call V K)) (s : Store V K) : Store V K := cs.foldl (fun s c => c.after s) s

theorem Call.afterAll_twin (h : s.Twin Eq s') (cs : List (Call V K)) :
    (afterAll cs s).Twin Eq (afterAll cs s') := by
  induction cs generalizing s s' with
  | nil => exact h
  | cons c cs ih => exact ih ((Call.Twin.refl c).after homomorphic_eq h)

/-- The cell `d` may be read to compute the cell `c`, or `c` stands for `d`. -/
inductive Store.Needs (s : Store V K) (l : Liveness) (c : Cell FactName) : Cell FactName → Prop
  | rule {q : NodeQuery V K (c.fact.Carrier V K)} {d : Cell FactName} {σ} (h : s.definition l c.place c.fact = .rule q)
      (hd : d ∈ q.reads σ) : Needs s l c d
  | target {v : c.fact.Carrier V K} {j : NodeId} (h : s.definition l c.place c.fact = .deferred v (some j)) :
      Needs s l c ⟨j, c.fact⟩

/-- The cell is one of a deferred node without a target. -/
def Store.Unbound (s : Store V K) (c : Cell FactName) : Prop := ∃ o, s.nodes[c.place]? = some (.deferred o none)

theorem Store.Needs.below {l : Liveness} {c d : Cell FactName} (h : s.Needs l c d)
    (hc : Complete s.productions c.place) : Below s.productions c.place d.place := by
  obtain ⟨p, hp⟩ := Option.isSome_iff_exists.1 (hc _ .refl)
  cases h with
  | rule hq hd =>
    obtain ⟨q', hq', hqq⟩ := (s.family_refines l).rule hq
    have hread := (hqq _).1 d hd
    rw [Production.reads_of_rule ((define_of_production hp).symm.trans hq')] at hread
    exact Below.part hp (Production.place_of_reads hread)
  | target hj =>
    rcases (s.family_refines l).2 c.place c.fact with hd | ⟨q, q', hq, -, -⟩
    · exact Below.part (deferred_of_definition (hd.symm.trans hj)) (by simp [Production.parts])
    · cases hq.symm.trans hj

/-- What is final depends, directly or not, on no deferred node that is not bound. -/
theorem not_unbound_of_settled (hm : s.Remembers) {l : Liveness} {c d : Cell FactName}
    (hc : (Family.memo s.book.memos c).settled = true) (hd : Relation.ReflTransGen (s.Needs l) c d) : ¬s.Unbound d := by
  have hepoch : (Family.memo s.book.memos c).epoch ≠ 0 := fun h0 => by
    rw [hm.fresh c h0] at hc
    cases hc
  have hbelow : Below s.productions c.place d.place := by
    induction hd with
    | refl => exact .refl
    | tail _ hneeds ih => exact ih.trans (hneeds.below ((hm.known c hepoch).below ih))
  rintro ⟨o, ho⟩
  have hsome := hm.known c hepoch d.place hbelow
  simp [Store.productions, ho] at hsome

theorem Store.Needs.conflicts_sequence {live : Liveness} {i j : NodeId} {l r : Ref}
    (hi : s.nodes[i]? = some (Shape.sequence l r)) (hl : s.deref? live l = some j) :
    s.Needs live ⟨i, .conflicts⟩ ⟨j, .conflicts⟩ := by
  refine .rule (q := sequenceRule i (s.part live l) (s.part live r) .conflicts) (σ := fun _ _ => Fact.bottom) ?_ ?_
  · simp only [Store.definition, hi]
  · simp [sequenceRule, Part.conflicts, Store.part, hl]

/-- The conflicts of the brackets have been found. -/
def settledStore : Store (List Int64) Tag := (Call.fact [] .conflicts (.node 6)).after nestedStore

/-- The outermost node is bound, and the rest of what is in brackets starts with it. -/
def Store.isBoundNested (s : Store (List Int64) Tag) : Bool :=
  match s.nodes[6]?, s.nodes[2]? with
  | some (Shape.deferred _ (some _)), some (Shape.sequence l _) => s.deref? (s.liveness [.node 6]) l == some 6
  | _, _ => false

end Grammar
end Predictive
