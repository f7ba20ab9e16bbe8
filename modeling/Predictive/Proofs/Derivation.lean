import Mathlib.Logic.Relation
import Predictive.Transformation

/-! Grammars as systems of productions: what they derive, and the traits of a node that decide how it is read. -/
namespace Predictive

/-- What a node stands for, its parts being given by number. -/
inductive Production (V K : Type) where
  | success (v : V)
  | element (k : K)
  | disjunction (left right : Nat)
  | sequence (left right : Nat)
  | transform (f : Transformation V) (inner : Nat)
  | deferred (target : Nat)

def Production.parts {V K : Type} : Production V K → List Nat
  | success _ | element _ => []
  | disjunction l r | sequence l r => [l, r]
  | transform _ j | deferred j => [j]

abbrev Productions (V K : Type) := Nat → Option (Production V K)

variable {V K : Type}

/-- The node `i` derives the tokens `ts` with the value `v`. -/
inductive Derives [Value V] (G : Productions V K) : Nat → List (K × V) → V → Prop
  | success {i v} : G i = some (.success v) → Derives G i [] v
  | element {i k w} : G i = some (.element k) → Derives G i [(k, w)] w
  | left {i l r ts v} : G i = some (.disjunction l r) → Derives G l ts v → Derives G i ts v
  | right {i l r ts v} : G i = some (.disjunction l r) → Derives G r ts v → Derives G i ts v
  | sequence {i l r ts us a b} : G i = some (.sequence l r) → Derives G l ts a → Derives G r us b →
      Derives G i (ts ++ us) (prepend a b)
  | transform {i f j ts v w} : G i = some (.transform f j) → Derives G j ts v → f.apply v = .ok w →
      Derives G i ts w
  | deferred {i j ts v} : G i = some (.deferred j) → Derives G j ts v → Derives G i ts v

/-- The node `i` derives tokens of the kinds `ks`, whatever becomes of their values. -/
inductive Yields (G : Productions V K) : Nat → List K → Prop
  | success {i v} : G i = some (.success v) → Yields G i []
  | element {i k} : G i = some (.element k) → Yields G i [k]
  | left {i l r ks} : G i = some (.disjunction l r) → Yields G l ks → Yields G i ks
  | right {i l r ks} : G i = some (.disjunction l r) → Yields G r ks → Yields G i ks
  | sequence {i l r ks js} : G i = some (.sequence l r) → Yields G l ks → Yields G r js →
      Yields G i (ks ++ js)
  | transform {i f j ks} : G i = some (.transform f j) → Yields G j ks → Yields G i ks
  | deferred {i j ks} : G i = some (.deferred j) → Yields G j ks → Yields G i ks

def Nullable (G : Productions V K) (i : Nat) : Prop := Yields G i []

def Productive (G : Productions V K) (i : Nat) : Prop := ∃ ks, Yields G i ks

def Starts (G : Productions V K) (i : Nat) (k : K) : Prop := ∃ ks, Yields G i (k :: ks)

/-- The nodes met on the way down from `i`, itself included. -/
def Below (G : Productions V K) : Nat → Nat → Prop :=
  Relation.ReflTransGen fun i j => ∃ p, G i = some p ∧ j ∈ p.parts

/-- The node `i` is deferred and stands for `j`. -/
def Defers (G : Productions V K) (i j : Nat) : Prop := G i = some (.deferred j)

/-- The node `j` is met on the way from `i` along targets. -/
def Stands (G : Productions V K) : Nat → Nat → Prop := Relation.ReflTransGen (Defers G)

/-- The transformations below `i` give a value for every argument. -/
def Total (G : Productions V K) (i : Nat) : Prop :=
  ∀ ⦃j f n⦄, G j = some (.transform f n) → Below G i j → f.IsTotal

/-- What follows the node `i` must not start as `x` can: `x` is a side of the disjunction `d`, whose other
side may be empty, and nothing needs to stand between `d` and the end of `i`. -/
inductive Restricts (G : Productions V K) : Nat → Nat → Nat → Prop
  | ofRight {d l r} : G d = some (.disjunction l r) → Nullable G l → Restricts G d d r
  | ofLeft {d l r} : G d = some (.disjunction l r) → Nullable G r → Restricts G d d l
  | inLeft {i l r d x} : G i = some (.disjunction l r) → Restricts G l d x → Restricts G i d x
  | inRight {i l r d x} : G i = some (.disjunction l r) → Restricts G r d x → Restricts G i d x
  | first {i l r d x} : G i = some (.sequence l r) → Nullable G r → Restricts G l d x → Restricts G i d x
  | second {i l r d x} : G i = some (.sequence l r) → Productive G l → Restricts G r d x →
      Restricts G i d x
  | transform {i f j d x} : G i = some (.transform f j) → Restricts G j d x → Restricts G i d x
  | deferred {i j d x} : G i = some (.deferred j) → Restricts G j d x → Restricts G i d x

/-- What restricts the part `j` restricts the node `i`. -/
inductive Carries (G : Productions V K) : Nat → Nat → Prop
  | left {i l r} : G i = some (.disjunction l r) → Carries G i l
  | right {i l r} : G i = some (.disjunction l r) → Carries G i r
  | first {i l r} : G i = some (.sequence l r) → Nullable G r → Carries G i l
  | second {i l r} : G i = some (.sequence l r) → Productive G l → Carries G i r
  | transform {i f j} : G i = some (.transform f j) → Carries G i j
  | deferred {i j} : G i = some (.deferred j) → Carries G i j

/-- The kinds with which nothing after the node `i` may start. -/
inductive Barred (G : Productions V K) : Nat → K → Prop
  | ofRight {i l r k} : G i = some (.disjunction l r) → Nullable G l → Starts G r k → Barred G i k
  | ofLeft {i l r k} : G i = some (.disjunction l r) → Nullable G r → Starts G l k → Barred G i k
  | inLeft {i l r k} : G i = some (.disjunction l r) → Barred G l k → Barred G i k
  | inRight {i l r k} : G i = some (.disjunction l r) → Barred G r k → Barred G i k
  | first {i l r k} : G i = some (.sequence l r) → Nullable G r → Barred G l k → Barred G i k
  | second {i l r k} : G i = some (.sequence l r) → Productive G l → Barred G r k → Barred G i k
  | transform {i f j k} : G i = some (.transform f j) → Barred G j k → Barred G i k
  | deferred {i j k} : G i = some (.deferred j) → Barred G j k → Barred G i k

/-- One token of lookahead does not decide how to go on at the node `j`. -/
inductive ClashAt (G : Productions V K) (j : Nat) : Prop
  | bothEmpty {l r} : G j = some (.disjunction l r) → Nullable G l → Nullable G r → ClashAt G j
  | firstFirst {l r k} : G j = some (.disjunction l r) → Starts G l k → Starts G r k → ClashAt G j
  | follow {l r k} : G j = some (.sequence l r) → Barred G l k → Starts G r k → ClashAt G j

/-- What can be said of a node by looking at one token. -/
inductive Trait (K : Type) where
  | startsWith (k : K)
  | nullable
  | productive

/-- The traits of a node by those of its parts: the least family that the rules allow. -/
inductive Has (G : Productions V K) : Nat → Trait K → Prop
  | emptySuccess {i v} : G i = some (.success v) → Has G i .nullable
  | anySuccess {i v} : G i = some (.success v) → Has G i .productive
  | element {i k} : G i = some (.element k) → Has G i (.startsWith k)
  | anyElement {i k} : G i = some (.element k) → Has G i .productive
  | left {i l r t} : G i = some (.disjunction l r) → Has G l t → Has G i t
  | right {i l r t} : G i = some (.disjunction l r) → Has G r t → Has G i t
  | first {i l r k} : G i = some (.sequence l r) → Has G r .productive → Has G l (.startsWith k) →
      Has G i (.startsWith k)
  | second {i l r k} : G i = some (.sequence l r) → Has G l .nullable → Has G r (.startsWith k) →
      Has G i (.startsWith k)
  | emptySequence {i l r} : G i = some (.sequence l r) → Has G l .nullable → Has G r .nullable →
      Has G i .nullable
  | anySequence {i l r} : G i = some (.sequence l r) → Has G l .productive → Has G r .productive →
      Has G i .productive
  | transform {i f j t} : G i = some (.transform f j) → Has G j t → Has G i t
  | deferred {i j t} : G i = some (.deferred j) → Has G j t → Has G i t

/-- What one rule gives a node with the production `p`, when its parts have the traits `has`. -/
def Production.Gives (has : Nat → Trait K → Prop) : Production V K → Trait K → Prop
  | success _, .startsWith _ => False
  | success _, _ => True
  | element k, .startsWith j => j = k
  | element _, .nullable => False
  | element _, .productive => True
  | disjunction l r, t => has l t ∨ has r t
  | sequence l r, .startsWith k =>
    (has r .productive ∧ has l (.startsWith k)) ∨ (has l .nullable ∧ has r (.startsWith k))
  | sequence l r, t => has l t ∧ has r t
  | transform _ j, t | deferred j, t => has j t

variable {G : Productions V K} {i j d x : Nat} {k : K}

theorem Production.Gives.mono {p : Production V K} {has has' : Nat → Trait K → Prop} {t : Trait K}
    (hp : p.Gives has t) (h : ∀ j ∈ p.parts, ∀ t, has j t → has' j t) : p.Gives has' t := by
  cases p with
  | success v => cases t <;> exact hp
  | element k => cases t <;> exact hp
  | disjunction l r => exact hp.imp (h l (by simp [parts]) t) (h r (by simp [parts]) t)
  | sequence l r =>
    have hl := h l (by simp [parts])
    have hr := h r (by simp [parts])
    cases t with
    | startsWith k => exact hp.imp (And.imp (hr _) (hl _)) (And.imp (hl _) (hr _))
    | nullable | productive => exact hp.imp (hl _) (hr _)
  | transform f j => exact h j (by simp [parts]) t hp
  | deferred j => exact h j (by simp [parts]) t hp

theorem has_of_gives {p : Production V K} {t : Trait K} (hi : G i = some p)
    (h : p.Gives (Has G) t) : Has G i t := by
  cases p with
  | success v =>
    cases t with
    | startsWith k => exact h.elim
    | nullable => exact .emptySuccess hi
    | productive => exact .anySuccess hi
  | element k =>
    cases t with
    | startsWith j => exact h ▸ .element hi
    | nullable => exact h.elim
    | productive => exact .anyElement hi
  | disjunction l r => exact h.elim (.left hi) (.right hi)
  | sequence l r =>
    cases t with
    | startsWith k => exact h.elim (fun h => .first hi h.1 h.2) (fun h => .second hi h.1 h.2)
    | nullable => exact .emptySequence hi h.1 h.2
    | productive => exact .anySequence hi h.1 h.2
  | transform f j => exact .transform hi h
  | deferred j => exact .deferred hi h

/-- Induction over the traits of a node, one case for all rules. -/
theorem Has.induct {motive : Nat → Trait K → Prop}
    (step : ∀ i p t, G i = some p → p.Gives (fun j u => Has G j u ∧ motive j u) t → motive i t)
    {t : Trait K} (h : Has G i t) : motive i t := by
  induction h with
  | emptySuccess h | anySuccess h | anyElement h => exact step _ _ _ h trivial
  | element h => exact step _ _ _ h rfl
  | left h hl ih => exact step _ _ _ h (.inl ⟨hl, ih⟩)
  | right h hr ih => exact step _ _ _ h (.inr ⟨hr, ih⟩)
  | first h hr hl ihr ihl => exact step _ _ _ h (.inl ⟨⟨hr, ihr⟩, hl, ihl⟩)
  | second h hl hr ihl ihr => exact step _ _ _ h (.inr ⟨⟨hl, ihl⟩, hr, ihr⟩)
  | emptySequence h hl hr ihl ihr | anySequence h hl hr ihl ihr => exact step _ _ _ h ⟨⟨hl, ihl⟩, hr, ihr⟩
  | transform h hj ih | deferred h hj ih => exact step _ _ _ h ⟨hj, ih⟩

theorem Yields.productive {ks : List K} (h : Yields G i ks) : Has G i .productive := by
  induction h with
  | success h => exact .anySuccess h
  | element h => exact .anyElement h
  | left h _ ih => exact .left h ih
  | right h _ ih => exact .right h ih
  | sequence h _ _ ihl ihr => exact .anySequence h ihl ihr
  | transform h _ ih => exact .transform h ih
  | deferred h _ ih => exact .deferred h ih

theorem Yields.nullable {ks : List K} (h : Yields G i ks) (hk : ks = []) : Has G i .nullable := by
  induction h with
  | success h => exact .emptySuccess h
  | element => cases hk
  | left h _ ih => exact .left h (ih hk)
  | right h _ ih => exact .right h (ih hk)
  | sequence h _ _ ihl ihr =>
    obtain ⟨hl, hr⟩ := List.append_eq_nil_iff.1 hk
    exact .emptySequence h (ihl hl) (ihr hr)
  | transform h _ ih => exact .transform h (ih hk)
  | deferred h _ ih => exact .deferred h (ih hk)

theorem Yields.startsWith {ks js : List K} (h : Yields G i ks) (hk : ks = k :: js) :
    Has G i (.startsWith k) := by
  induction h generalizing js with
  | success => cases hk
  | element h =>
    cases hk
    exact .element h
  | left h _ ih => exact .left h (ih hk)
  | right h _ ih => exact .right h (ih hk)
  | sequence h hl hr ihl ihr =>
    rcases List.append_eq_cons_iff.1 hk with ⟨he, hr'⟩ | ⟨us, hl', _⟩
    · exact .second h (hl.nullable he) (ihr hr')
    · exact .first h hr.productive (ihl hl')
  | transform h _ ih => exact .transform h (ih hk)
  | deferred h _ ih => exact .deferred h (ih hk)

/-- What a trait says of the words that a node yields. -/
def Trait.Means (G : Productions V K) (i : Nat) : Trait K → Prop
  | startsWith k => Starts G i k
  | nullable => Nullable G i
  | productive => Productive G i

theorem Has.means {t : Trait K} (h : Has G i t) : t.Means G i := by
  induction h with
  | emptySuccess h => exact .success h
  | anySuccess h => exact ⟨[], .success h⟩
  | element h => exact ⟨[], .element h⟩
  | anyElement h => exact ⟨_, .element h⟩
  | @left _ _ _ t h _ ih =>
    cases t with
    | nullable => exact .left h ih
    | startsWith k | productive => exact ih.imp fun _ => .left h
  | @right _ _ _ t h _ ih =>
    cases t with
    | nullable => exact .right h ih
    | startsWith k | productive => exact ih.imp fun _ => .right h
  | first h _ _ ihr ihl =>
    obtain ⟨js, hr⟩ := ihr
    obtain ⟨ks, hl⟩ := ihl
    exact ⟨ks ++ js, .sequence h hl hr⟩
  | second h _ _ ihl ihr => exact ihr.imp fun _ hr => .sequence h ihl hr
  | emptySequence h _ _ ihl ihr => exact .sequence h ihl ihr
  | anySequence h _ _ ihl ihr =>
    obtain ⟨ks, hl⟩ := ihl
    obtain ⟨js, hr⟩ := ihr
    exact ⟨ks ++ js, .sequence h hl hr⟩
  | @transform _ _ _ t h _ ih =>
    cases t with
    | nullable => exact .transform h ih
    | startsWith k | productive => exact ih.imp fun _ => .transform h
  | @deferred _ _ t h _ ih =>
    cases t with
    | nullable => exact .deferred h ih
    | startsWith k | productive => exact ih.imp fun _ => .deferred h

theorem has_nullable_iff : Has G i .nullable ↔ Nullable G i := ⟨Has.means, fun h => h.nullable rfl⟩

theorem has_productive_iff : Has G i .productive ↔ Productive G i :=
  ⟨Has.means, fun ⟨_, h⟩ => h.productive⟩

theorem has_startsWith_iff : Has G i (.startsWith k) ↔ Starts G i k :=
  ⟨Has.means, fun ⟨_, h⟩ => h.startsWith rfl⟩

theorem barred_of_restricts (h : Restricts G i d x) (hx : Starts G x k) : Barred G i k := by
  induction h with
  | ofRight h hl => exact .ofRight h hl hx
  | ofLeft h hr => exact .ofLeft h hr hx
  | inLeft h _ ih => exact .inLeft h (ih hx)
  | inRight h _ ih => exact .inRight h (ih hx)
  | first h hr _ ih => exact .first h hr (ih hx)
  | second h hl _ ih => exact .second h hl (ih hx)
  | transform h _ ih => exact .transform h (ih hx)
  | deferred h _ ih => exact .deferred h (ih hx)

/-- The barred kinds are those with which the restricting sides start. -/
theorem barred_iff : Barred G i k ↔ ∃ d x, Restricts G i d x ∧ Starts G x k := by
  refine ⟨fun h => ?_, fun ⟨_, _, h, hx⟩ => barred_of_restricts h hx⟩
  induction h with
  | ofRight h hl hk => exact ⟨_, _, .ofRight h hl, hk⟩
  | ofLeft h hr hk => exact ⟨_, _, .ofLeft h hr, hk⟩
  | inLeft h _ ih => exact ih.imp fun _ => Exists.imp fun _ => And.imp_left (.inLeft h)
  | inRight h _ ih => exact ih.imp fun _ => Exists.imp fun _ => And.imp_left (.inRight h)
  | first h hr _ ih => exact ih.imp fun _ => Exists.imp fun _ => And.imp_left (.first h hr)
  | second h hl _ ih => exact ih.imp fun _ => Exists.imp fun _ => And.imp_left (.second h hl)
  | transform h _ ih => exact ih.imp fun _ => Exists.imp fun _ => And.imp_left (.transform h)
  | deferred h _ ih => exact ih.imp fun _ => Exists.imp fun _ => And.imp_left (.deferred h)

theorem Restricts.carry (hc : Carries G i j) (h : Restricts G j d x) : Restricts G i d x := by
  cases hc with
  | left hi => exact .inLeft hi h
  | right hi => exact .inRight hi h
  | first hi hr => exact .first hi hr h
  | second hi hl => exact .second hi hl h
  | transform hi => exact .transform hi h
  | deferred hi => exact .deferred hi h

theorem Restricts.disjunction (h : Restricts G i d x) :
    ∃ l r, G d = some (.disjunction l r) ∧ (x = l ∧ Nullable G r ∨ x = r ∧ Nullable G l) := by
  induction h with
  | ofRight h hl => exact ⟨_, _, h, .inr ⟨rfl, hl⟩⟩
  | ofLeft h hr => exact ⟨_, _, h, .inl ⟨rfl, hr⟩⟩
  | inLeft _ _ ih | inRight _ _ ih | first _ _ _ ih | second _ _ _ ih | transform _ _ ih
  | deferred _ _ ih => exact ih

theorem Below.part {p : Production V K} (hi : G i = some p) (hj : j ∈ p.parts) : Below G i j :=
  .single ⟨p, hi, hj⟩

theorem Carries.part (h : Carries G i j) : ∃ p, G i = some p ∧ j ∈ p.parts := by
  cases h with
  | left h | right h | first h | second h | transform h | deferred h => exact ⟨_, h, by simp [Production.parts]⟩

theorem below_of_stands (h : Stands G i j) : Below G i j :=
  Relation.ReflTransGen.mono (fun _ _ h => ⟨_, h, by simp [Production.parts]⟩) _ _ h

theorem below_of_restricts (h : Restricts G i d x) : Below G i d := by
  induction h with
  | ofRight | ofLeft => exact .refl
  | inLeft h _ ih => exact .head ⟨_, h, by simp [Production.parts]⟩ ih
  | inRight h _ ih => exact .head ⟨_, h, by simp [Production.parts]⟩ ih
  | first h _ _ ih => exact .head ⟨_, h, by simp [Production.parts]⟩ ih
  | second h _ _ ih => exact .head ⟨_, h, by simp [Production.parts]⟩ ih
  | transform h _ ih => exact .head ⟨_, h, by simp [Production.parts]⟩ ih
  | deferred h _ ih => exact .head ⟨_, h, by simp [Production.parts]⟩ ih

theorem Total.part {p : Production V K} (h : Total G i) (hi : G i = some p) (hj : j ∈ p.parts) :
    Total G j := fun _ _ _ hn hb => h hn ((Below.part hi hj).trans hb)

section Values

variable [Value V]

theorem Derives.yields {ts : List (K × V)} {v : V} (h : Derives G i ts v) :
    Yields G i (ts.map Prod.fst) := by
  induction h with
  | success h => exact .success h
  | element h => exact .element h
  | left h _ ih => exact .left h ih
  | right h _ ih => exact .right h ih
  | sequence h _ _ ihl ihr =>
    rw [List.map_append]
    exact .sequence h ihl ihr
  | transform h _ _ ih => exact .transform h ih
  | deferred h _ ih => exact .deferred h ih

/-- With total transformations every token list of the right kinds has a value. -/
theorem Yields.derives {ks : List K} (h : Yields G i ks) (total : Total G i)
    {ts : List (K × V)} (hts : ts.map Prod.fst = ks) : ∃ v, Derives G i ts v := by
  induction h generalizing ts with
  | success h =>
    rw [List.map_eq_nil_iff.1 hts]
    exact ⟨_, .success h⟩
  | element h =>
    obtain ⟨⟨_, w⟩, rest, rfl, rfl, hr⟩ := List.map_eq_cons_iff.1 hts
    rw [List.map_eq_nil_iff.1 hr]
    exact ⟨w, .element h⟩
  | left h _ ih =>
    obtain ⟨v, hv⟩ := ih (total.part h (by simp [Production.parts])) hts
    exact ⟨v, .left h hv⟩
  | right h _ ih =>
    obtain ⟨v, hv⟩ := ih (total.part h (by simp [Production.parts])) hts
    exact ⟨v, .right h hv⟩
  | sequence h _ _ ihl ihr =>
    obtain ⟨us, ws, rfl, hu, hw⟩ := List.map_eq_append_iff.1 hts
    obtain ⟨a, ha⟩ := ihl (total.part h (by simp [Production.parts])) hu
    obtain ⟨b, hb⟩ := ihr (total.part h (by simp [Production.parts])) hw
    exact ⟨_, .sequence h ha hb⟩
  | transform h _ ih =>
    obtain ⟨v, hv⟩ := ih (total.part h (by simp [Production.parts])) hts
    obtain ⟨w, hw⟩ := total h .refl v
    exact ⟨w, .transform h hv hw⟩
  | deferred h _ ih =>
    obtain ⟨v, hv⟩ := ih (total.part h (by simp [Production.parts])) hts
    exact ⟨v, .deferred h hv⟩

/-! With total transformations, derivations with values tell the same as words. -/

variable (total : Total G i)
include total

theorem nullable_iff_derives : Nullable G i ↔ ∃ v, Derives G i [] v :=
  ⟨fun h => h.derives total rfl, fun ⟨_, h⟩ => h.yields⟩

theorem productive_iff_derives [Nonempty V] : Productive G i ↔ ∃ ts v, Derives G i ts v := by
  obtain ⟨a⟩ := ‹Nonempty V›
  refine ⟨fun ⟨ks, h⟩ => ?_, fun ⟨ts, v, h⟩ => ⟨_, h.yields⟩⟩
  have hkinds : (ks.map fun k => (k, a)).map Prod.fst = ks := by simp [Function.comp_def]
  obtain ⟨v, hv⟩ := h.derives total hkinds
  exact ⟨_, v, hv⟩

theorem starts_iff_derives [Nonempty V] : Starts G i k ↔ ∃ w ts v, Derives G i ((k, w) :: ts) v := by
  obtain ⟨a⟩ := ‹Nonempty V›
  refine ⟨fun ⟨ks, h⟩ => ?_, fun ⟨w, ts, v, h⟩ => ⟨_, h.yields⟩⟩
  have hkinds : ((k, a) :: ks.map fun k => (k, a)).map Prod.fst = k :: ks := by simp [Function.comp_def]
  obtain ⟨v, hv⟩ := h.derives total hkinds
  exact ⟨a, _, v, hv⟩

end Values

/-! A system that says more. -/

section Extension

variable {H : Productions V K}

/-- Every production of `G` is one of `H`. -/
def Extends (G H : Productions V K) : Prop := ∀ ⦃i p⦄, G i = some p → H i = some p

theorem Yields.extend {ks : List K} (e : Extends G H) (h : Yields G i ks) : Yields H i ks := by
  induction h with
  | success h => exact .success (e h)
  | element h => exact .element (e h)
  | left h _ ih => exact .left (e h) ih
  | right h _ ih => exact .right (e h) ih
  | sequence h _ _ ihl ihr => exact .sequence (e h) ihl ihr
  | transform h _ ih => exact .transform (e h) ih
  | deferred h _ ih => exact .deferred (e h) ih

theorem Starts.extend (e : Extends G H) (h : Starts G i k) : Starts H i k := h.imp fun _ => .extend e

theorem Productive.extend (e : Extends G H) (h : Productive G i) : Productive H i :=
  h.imp fun _ => .extend e

theorem Nullable.extend (e : Extends G H) (h : Nullable G i) : Nullable H i := Yields.extend e h

theorem Derives.extend [Value V] {ts : List (K × V)} {v : V} (e : Extends G H) (h : Derives G i ts v) :
    Derives H i ts v := by
  induction h with
  | success h => exact .success (e h)
  | element h => exact .element (e h)
  | left h _ ih => exact .left (e h) ih
  | right h _ ih => exact .right (e h) ih
  | sequence h _ _ ihl ihr => exact .sequence (e h) ihl ihr
  | transform h _ hf ih => exact .transform (e h) ih hf
  | deferred h _ ih => exact .deferred (e h) ih

theorem Restricts.extend (e : Extends G H) (h : Restricts G i d x) : Restricts H i d x := by
  induction h with
  | ofRight h hl => exact .ofRight (e h) (hl.extend e)
  | ofLeft h hr => exact .ofLeft (e h) (hr.extend e)
  | inLeft h _ ih => exact .inLeft (e h) ih
  | inRight h _ ih => exact .inRight (e h) ih
  | first h hr _ ih => exact .first (e h) (hr.extend e) ih
  | second h hl _ ih => exact .second (e h) (hl.extend e) ih
  | transform h _ ih => exact .transform (e h) ih
  | deferred h _ ih => exact .deferred (e h) ih

theorem Below.extend (e : Extends G H) (h : Below G i j) : Below H i j :=
  Relation.ReflTransGen.mono (fun _ _ ⟨p, hp, hj⟩ => ⟨p, e hp, hj⟩) _ _ h

/-- Everything below `i` has a production. -/
def Complete (G : Productions V K) (i : Nat) : Prop := ∀ j, Below G i j → (G j).isSome

theorem Stands.extend (e : Extends G H) (h : Stands G i j) : Stands H i j :=
  Relation.ReflTransGen.mono (fun _ _ hd => e hd) _ _ h

theorem Complete.below (h : Complete G i) (hj : Below G i j) : Complete G j := fun _ hk => h _ (hj.trans hk)

theorem Complete.part {p : Production V K} (h : Complete G i) (hi : G i = some p) (hj : j ∈ p.parts) :
    Complete G j := h.below (.part hi hj)

theorem Complete.below_of_extend (h : Complete G i) (e : Extends G H) (hj : Below H i j) : Below G i j := by
  induction hj with
  | refl => exact .refl
  | tail _ hc ih =>
    obtain ⟨p, hp, hj⟩ := hc
    obtain ⟨q, hq⟩ := Option.isSome_iff_exists.1 (h _ ih)
    obtain rfl : q = p := Option.some.inj ((e hq).symm.trans hp)
    exact ih.tail ⟨q, hq, hj⟩

theorem Complete.extend (h : Complete G i) (e : Extends G H) : Complete H i := fun j hj => by
  obtain ⟨p, hp⟩ := Option.isSome_iff_exists.1 (h j (h.below_of_extend e hj))
  exact e hp ▸ rfl

end Extension

end Predictive
