import Mathlib.Data.List.Forall2
import Predictive.Grammar.Validate
import Predictive.Proofs.Solver.Twin
import Predictive.Proofs.Grammar.Making
import Predictive.Proofs.Image

/-!
Two stores of the same nodes with related values. What does not look at values is the same in both, and the facts of their
nodes are computed alike.
-/
namespace Predictive

variable {V W K α β γ δ : Type}

/-- Both functions give related values for related arguments, or both give up in the same words. -/
def Transformation.Twin (ρ : V → W → Prop) (f : Transformation V) (f' : Transformation W) : Prop :=
  ∀ v v', ρ v v' → Alike ρ (f.apply v) (f'.apply v')

theorem Transformation.Twin.refl (f : Transformation V) : f.Twin Eq f := by
  rintro v _ rfl
  exact .refl _

theorem homomorphic_eq [Value V] : Homomorphic (Eq : V → V → Prop) := by
  rintro a _ b _ rfl rfl
  rfl

namespace Grammar

open Solver (Definition Query Cell)

/-- What the target of a deferred node is made of. -/
def Origin.refs : Origin V K → List Ref
  | .known body => [body]
  | .delayed _ scope => scope.refs

section Shapes

variable (ρ : V → W → Prop)

inductive Expr.Twin : Expr V K → Expr W K → Prop
  | success {v v'} : ρ v v' → Twin (.success v) (.success v')
  | element (k : K) : Twin (.element k) (.element k)
  | disjunction {l l' r r'} : Twin l l' → Twin r r' → Twin (.disjunction l r) (.disjunction l' r')
  | sequence {l l' r r'} : Twin l l' → Twin r r' → Twin (.sequence l r) (.sequence l' r')
  | transform {f : Transformation V} {f' : Transformation W} {e e'} : f.Twin ρ f' → Twin e e' →
      Twin (.transform f e) (.transform f' e')
  | optional {e e' v v'} : Twin e e' → ρ v v' → Twin (.optional e v) (.optional e' v')
  | many {e e' v v'} : Twin e e' → ρ v v' → Twin (.many e v) (.many e' v')
  | many1 {e e' v v'} : Twin e e' → ρ v v' → Twin (.many1 e v) (.many1 e' v')
  | recursive (x : String) {e e'} : Twin e e' → Twin (.recursive x e) (.recursive x e')
  | deferred {e e'} : Twin e e' → Twin (.deferred e) (.deferred e')
  | name (x : String) : Twin (.name x) (.name x)
  | save (x : String) {e e'} : Twin e e' → Twin (.save x e) (.save x e')
  | touch {e e'} : Twin e e' → Twin (.touch e) (.touch e')
  | repeated (n : Nat) (x : String) {e e' d d'} : Twin e e' → Twin d d' → Twin (.repeated n x e d) (.repeated n x e' d')
  | indexed (kind : Nat → K) : Twin (.indexed kind) (.indexed kind)
  | malformed : Twin .malformed .malformed

inductive Origin.Twin : Origin V K → Origin W K → Prop
  | known (body : Ref) : Twin (.known body) (.known body)
  | delayed {e e'} (scope : Scope) : e.Twin ρ e' → Twin (.delayed e scope) (.delayed e' scope)

/-- Of a deferred node with a target no more matters than what it holds. -/
inductive Shape.Twin : Shape V K → Shape W K → Prop
  | success {v v'} : ρ v v' → Twin (.success v) (.success v')
  | element (k : K) : Twin (.element k) (.element k)
  | disjunction (l r : Ref) : Twin (.disjunction l r) (.disjunction l r)
  | sequence (l r : Ref) : Twin (.sequence l r) (.sequence l r)
  | transform {f : Transformation V} {f' : Transformation W} (i : Ref) : f.Twin ρ f' →
      Twin (.transform f i) (.transform f' i)
  | unbound {o o'} : o.Twin ρ o' → Twin (.deferred o none) (.deferred o' none)
  | bound {o o'} (t : Ref) : o'.refs = o.refs → Twin (.deferred o (some t)) (.deferred o' (some t))

/-- Facts are the same, except for empty values. -/
def FactName.Twin [Ord K] : (f : FactName) → f.Carrier V K → f.Carrier W K → Prop
  | .first => Eq
  | .emptyValue => Option.Rel ρ
  | .productive => Eq
  | .restrictions => Eq
  | .conflicts => Eq

/-- The stores are the same but for the values in them. Targets that nodes are bound to are there. -/
structure Store.Twin [Kind K] (s : Store V K) (s' : Store W K) : Prop where
  nodes : List.Forall₂ (Shape.Twin ρ) s.nodes.toList s'.nodes.toList
  knots : s'.knots = s.knots
  names : s'.names = s.names
  releases : s'.releases = s.releases
  book : s.book.Twin (FactName.Twin ρ) s'.book
  listening : s'.listening = s.listening
  events : s'.events = s.events
  targets : ∀ (i : Nat) o t, s.nodes[i]? = some (Shape.deferred o (some t)) → (s.nodeOf? t).isSome

end Shapes

variable {ρ : V → W → Prop}

theorem Expr.Twin.weight {e : Expr V K} {e' : Expr W K} (h : e.Twin ρ e') : e'.weight = e.weight := by
  induction h <;> simp_all only [Expr.weight]

theorem Origin.Twin.refs {o : Origin V K} {o' : Origin W K} (h : o.Twin ρ o') : o'.refs = o.refs := by
  cases h <;> rfl

theorem Shape.heldByNode_deferred (o : Origin V K) (t : Option Ref) :
    (Shape.deferred o t).heldByNode = o.refs ++ t.toList := by
  cases o <;> rfl

theorem Shape.Twin.heldByNode {shape : Shape V K} {shape' : Shape W K} (h : shape.Twin ρ shape') :
    shape'.heldByNode = shape.heldByNode := by
  cases h with
  | success | element | disjunction | sequence | transform => rfl
  | unbound ho => rw [heldByNode_deferred, heldByNode_deferred, ho.refs]
  | bound t ho => rw [heldByNode_deferred, heldByNode_deferred, ho]

theorem forall₂_getElem? {R : α → β → Prop} {xs : List α} {ys : List β} (h : List.Forall₂ R xs ys) (i : Nat) :
    Option.Rel R xs[i]? ys[i]? := by
  induction h generalizing i with
  | nil => exact .none
  | cons hxy _ ih =>
    cases i with
    | zero => exact .some hxy
    | succ i => exact ih i

variable [Kind K]

theorem respects_fact : Solver.Respects (FactName.Twin (K := K) ρ) where
  bottom f := by
    cases f with
    | emptyValue => exact .none
    | first | productive | restrictions | conflicts => exact rfl
  agrees f a b a' b' ha hb := by
    cases f with
    | emptyValue => cases ha <;> cases hb <;> rfl
    | first | productive | restrictions | conflicts => cases ha; cases hb; rfl

namespace Store.Twin

variable {s : Store V K} {s' : Store W K} (h : s.Twin ρ s')
include h

theorem size : s'.nodes.size = s.nodes.size := h.nodes.length_eq.symm

theorem node (i : Nat) : Option.Rel (Shape.Twin ρ) s.nodes[i]? s'.nodes[i]? := by
  simpa using forall₂_getElem? h.nodes i

theorem nodeOf? (r : Ref) : s'.nodeOf? r = s.nodeOf? r := by
  cases r with
  | node i => rfl
  | self k => rw [Store.nodeOf?, Store.nodeOf?, h.knots]

theorem deref? (l : Liveness) (r : Ref) : s'.deref? l r = s.deref? l r := by
  cases r with
  | node i => rfl
  | self k => rw [Store.deref?, Store.deref?, h.nodeOf?]

theorem heldBy : s'.heldBy = s.heldBy := by
  funext x
  cases x with
  | node i =>
    have hi := h.node i
    rw [Store.heldBy, Store.heldBy]
    generalize s.nodes[i]? = shape, s'.nodes[i]? = shape' at hi
    cases hi with
    | none => rfl
    | some hi => dsimp only; rw [hi.heldByNode]
  | facts i =>
    have hi := h.node i
    rw [Store.heldBy, Store.heldBy]
    generalize s.nodes[i]? = shape, s'.nodes[i]? = shape' at hi
    cases hi with
    | none => rfl
    | some hi =>
      cases hi with
      | bound t => simp only [h.nodeOf?]
      | success | element | disjunction | sequence | transform | unbound => rfl

theorem release (n : Nat) (pending : List Holding) (holders : Holders) :
    s'.release n pending holders = s.release n pending holders := by
  induction n generalizing pending holders with
  | zero => rfl
  | succ n ih =>
    cases pending with
    | nil => rfl
    | cons x pending =>
      rw [Store.release, Store.release, h.heldBy]
      exact ih _ _

theorem holders (held : List Ref) : s'.holders held = s.holders held := by
  rw [Store.holders, Store.holders, h.names, h.size, h.heldBy]
  exact h.release _ _ _

theorem liveness (held : List Ref) : s'.liveness held = s.liveness held := by
  rw [Store.liveness, Store.liveness]
  simp only [h.holders]

theorem target? (i : NodeId) : s'.target? i = s.target? i := by
  have hi := h.node i
  rw [Store.target?, Store.target?]
  generalize s.nodes[i]? = shape, s'.nodes[i]? = shape' at hi
  cases hi with
  | none => rfl
  | some hi => cases hi <;> rfl

theorem below (i : NodeId) : s'.below i = s.below i := by
  have hi := h.node i
  rw [Store.below, Store.below]
  generalize s.nodes[i]? = shape, s'.nodes[i]? = shape' at hi
  cases hi with
  | none => rfl
  | some hi => cases hi <;> rfl

theorem searchFrom (l : Liveness) (id : NodeId) (n : Nat) (pending : List Ref) (seen : Std.TreeSet Nat) :
    s'.searchFrom l id n pending seen = s.searchFrom l id n pending seen := by
  induction n generalizing pending seen with
  | zero => cases pending <;> rfl
  | succ n ih =>
    cases pending with
    | nil => rfl
    | cons r pending =>
      unfold Store.searchFrom
      simp only [h.deref?, h.below, ih]

theorem search (l : Liveness) (r : Ref) (id : NodeId) : s'.search l r id = s.search l r id := by
  rw [Store.search, Store.search, h.size, h.searchFrom]

theorem resolveFrom (l : Liveness) (n : Nat) (chain : Std.TreeSet Nat) (i : NodeId) :
    s'.resolveFrom l n chain i = s.resolveFrom l n chain i := by
  induction n generalizing chain i with
  | zero =>
    unfold Store.resolveFrom
    rw [h.target?]
    cases s.target? i <;> rfl
  | succ n ih =>
    unfold Store.resolveFrom
    rw [h.target?]
    cases s.target? i with
    | none => rfl
    | some t =>
      dsimp only
      rw [h.deref?]
      cases s.deref? l t with
      | none => rfl
      | some j =>
        dsimp only
        rw [ih]

theorem resolve (l : Liveness) (i : NodeId) : s'.resolve l i = s.resolve l i := by
  rw [Store.resolve, Store.resolve, h.size, h.resolveFrom]

theorem potential : s'.potential = s.potential := by
  rw [Store.potential, Store.potential, ← Array.foldl_toList, ← Array.foldl_toList]
  refine (List.rel_foldl (P := Eq) (R := Shape.Twin ρ) (fun n n' hn shape shape' hshape => ?_) rfl h.nodes).symm
  subst hn
  cases hshape with
  | unbound ho =>
    cases ho with
    | known => rfl
    | delayed scope he => exact congrArg (n + ·) he.weight.symm
  | @bound o o' t ho => cases o <;> cases o' <;> rfl
  | success | element | disjunction | sequence | transform => rfl

end Store.Twin

/-- The facts of a part of either store. -/
def Part.Twin (ρ : V → W → Prop) (p : Part V K) (p' : Part W K) : Prop :=
  ∀ f, (p f).Twin (FactName.Twin ρ) (FactName.Twin ρ f) (p' f)

section Rules

open Solver.Query.Twin (bind_same)

variable {l r : Part V K} {l' r' : Part W K} (hl : l.Twin ρ l') (hr : r.Twin ρ r') (i : NodeId)
include hl

theorem transformRule_twin {g : Transformation V} {g' : Transformation W} (hg : g.Twin ρ g') :
    (transformRule g l).Twin ρ (transformRule g' l') := by
  intro f
  cases f with
  | emptyValue =>
    refine (hl .emptyValue).bind fun v v' hv => ?_
    cases hv with
    | none => exact .done .none
    | some hv =>
      have happly := hg _ _ hv
      dsimp only
      generalize g.apply _ = r, g'.apply _ = r' at happly
      cases happly with
      | ok hw => exact .done (.some hw)
      | error text => exact .fail _
  | first | productive | restrictions | conflicts => exact hl _

include hr

theorem disjunctionRule_twin : (disjunctionRule i l r).Twin ρ (disjunctionRule i l' r') := by
  intro f
  cases f with
  | first => exact bind_same (hl .first) fun _ => bind_same (hr .first) fun _ => .done rfl
  | emptyValue =>
    refine (hl .emptyValue).bind fun v v' hv => ?_
    cases hv with
    | none => exact hr .emptyValue
    | some hv => exact .done (.some hv)
  | productive =>
    refine bind_same (hl .productive) fun b => ?_
    cases b with
    | false => exact hr .productive
    | true => exact .done rfl
  | restrictions =>
    have rest : ∀ below : FinSet (Restriction K), Query.Twin (FactName.Twin ρ) Eq
        (do if (← r.emptyValue).isSome then return FinSet.insert ⟨i, ← l.first⟩ below else return below)
        (do if (← r'.emptyValue).isSome then return FinSet.insert ⟨i, ← l'.first⟩ below else return below) := by
      refine fun below => (hr .emptyValue).bind fun w w' hw => ?_
      cases hw with
      | none => exact .done rfl
      | some => exact bind_same (hl .first) fun _ => .done rfl
    refine bind_same (hl .restrictions) fun _ => bind_same (hr .restrictions) fun _ => ?_
    refine (hl .emptyValue).bind fun v v' hv => ?_
    cases hv with
    | none => exact rest _
    | some => exact bind_same (hr .first) fun _ => rest _
  | conflicts =>
    refine bind_same (hl .conflicts) fun _ => bind_same (hr .conflicts) fun _ => ?_
    have rest : ∀ below : FinSet (Conflict K), Query.Twin (FactName.Twin ρ) Eq
        (do
          let shared := (← l.first) ∩ (← r.first)
          return if shared.isEmpty then below else FinSet.insert (.firstFirstClash i shared) below)
        (do
          let shared := (← l'.first) ∩ (← r'.first)
          return if shared.isEmpty then below else FinSet.insert (.firstFirstClash i shared) below) :=
      fun below => bind_same (hl .first) fun _ => bind_same (hr .first) fun _ => .done rfl
    refine (hl .emptyValue).bind fun v v' hv => ?_
    cases hv with
    | none => exact rest _
    | some =>
      refine (hr .emptyValue).bind fun w w' hw => ?_
      cases hw with
      | none => exact rest _
      | some => exact rest _

theorem sequenceRule_twin [Value V] [Value W] (hom : Homomorphic ρ) : (sequenceRule i l r).Twin ρ (sequenceRule i l' r') := by
  intro f
  cases f with
  | first =>
    have rest : ∀ kinds : FinSet K, Query.Twin (FactName.Twin ρ) Eq
        (do if (← l.emptyValue).isSome then return kinds ∪ (← r.first) else return kinds)
        (do if (← l'.emptyValue).isSome then return kinds ∪ (← r'.first) else return kinds) := by
      refine fun kinds => (hl .emptyValue).bind fun v v' hv => ?_
      cases hv with
      | none => exact .done rfl
      | some => exact bind_same (hr .first) fun _ => .done rfl
    refine bind_same (hr .productive) fun b => ?_
    cases b with
    | false => exact rest _
    | true => exact bind_same (hl .first) fun _ => rest _
  | emptyValue =>
    refine (hl .emptyValue).bind fun v v' hv => ?_
    cases hv with
    | none => exact .done .none
    | some hv =>
      refine (hr .emptyValue).bind fun w w' hw => ?_
      cases hw with
      | none => exact .done .none
      | some hw => exact .done (.some (hom hv hw))
  | productive =>
    refine bind_same (hl .productive) fun b => ?_
    cases b with
    | false => exact .done rfl
    | true => exact hr .productive
  | restrictions =>
    have rest : ∀ below : FinSet (Restriction K), Query.Twin (FactName.Twin ρ) Eq
        (do if ← l.productive then return below ∪ (← r.restrictions) else return below)
        (do if ← l'.productive then return below ∪ (← r'.restrictions) else return below) := by
      refine fun below => bind_same (hl .productive) fun b => ?_
      cases b with
      | false => exact .done rfl
      | true => exact bind_same (hr .restrictions) fun _ => .done rfl
    refine (hr .emptyValue).bind fun v v' hv => ?_
    cases hv with
    | none => exact rest _
    | some => exact bind_same (hl .restrictions) fun _ => rest _
  | conflicts =>
    exact bind_same (hl .conflicts) fun _ => bind_same (hr .conflicts) fun _ => bind_same (hr .first) fun _ =>
      bind_same (hl .restrictions) fun _ => .done rfl

end Rules

namespace Store.Twin

variable {s : Store V K} {s' : Store W K} (h : s.Twin ρ s')
include h

theorem part (l : Liveness) (r : Ref) : Part.Twin ρ (s.part l r) (s'.part l r) := by
  intro f
  rw [Store.part, Store.part, h.deref?]
  cases s.deref? l r with
  | none => exact .fail _
  | some i => exact .look i f

theorem family [Value V] [Value W] (hom : Homomorphic ρ) (l : Liveness) : (s.family l).Twin (FactName.Twin ρ) (s'.family l) where
  size := congrArg (5 * ·) h.size
  definition i f := by
    have hi := h.node i
    change Definition.Twin (FactName.Twin ρ) f (s.definition l i f) (s'.definition l i f)
    rw [Store.definition, Store.definition]
    generalize s.nodes[i]? = shape, s'.nodes[i]? = shape' at hi
    cases hi with
    | none => exact .deferred none (respects_fact.bottom f)
    | some hi =>
      cases hi with
      | success hv =>
        refine .constant ?_
        cases f with
        | emptyValue => exact .some hv
        | first | productive | restrictions | conflicts => rfl
      | element k =>
        refine .constant ?_
        cases f with
        | emptyValue => exact .none
        | first | productive | restrictions | conflicts => rfl
      | disjunction a b => exact .rule (disjunctionRule_twin (h.part l a) (h.part l b) i f)
      | sequence a b => exact .rule (sequenceRule_twin (h.part l a) (h.part l b) i hom f)
      | transform a hg => exact .rule (transformRule_twin (h.part l a) hg f)
      | unbound => exact .deferred none (respects_fact.bottom f)
      | bound t =>
        dsimp only
        rw [h.nodeOf?]
        exact .deferred _ (respects_fact.bottom f)

end Store.Twin

end Grammar
end Predictive
