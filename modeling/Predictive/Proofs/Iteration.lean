import Predictive.Proofs.Repetition
import Predictive.Proofs.Grammar.Ambiguity

/-!
What a repeated grammar derives: items one after another, each of them derived by what is repeated, with their values put
in front of the value at the end, the last one first. Where one token decides, there is one way only to cut tokens into
items.
-/
namespace Predictive

variable {V K : Type} {G : Productions V K} {i j m : Nat} {e : V} {u : Sugar}

/-- The node is the grammar `i` round by round, at least once if the sugar says so, and `e` stands at the end. -/
inductive Iterates (G : Productions V K) (i : Nat) (e : V) : Sugar → Nat → Prop
  | many {m b q d : Nat} : G m = some (.deferred b) → G b = some (.disjunction q d) → G q = some (.sequence i m) →
      G d = some (.success e) → Iterates G i e .many m
  | many1 {j m : Nat} : G j = some (.sequence i m) → Iterates G i e .many m → Iterates G i e .many1 j

theorem Iterates.repeats (h : Iterates G i e u j) : Repeats G i u j := by
  induction h with
  | many hm hb hq hd => exact .many hm hb hq hd
  | many1 hj _ ih => exact .many1 hj ih

/-- The tokens of a round, and their value. -/
abbrev Item (V K : Type) := List (K × V) × V

/-- The tokens of the items, one after another. -/
def flattened (items : List (Item V K)) : List (K × V) := (items.map Prod.fst).flatten

/-- The values of the items put in front of `e`, the last one first. -/
def gathered [Value V] (e : V) (items : List (Item V K)) : V := items.foldr (fun item w => prepend item.2 w) e

@[simp]
theorem flattened_nil : flattened ([] : List (Item V K)) = [] := rfl

@[simp]
theorem flattened_cons (item : Item V K) (items : List (Item V K)) :
    flattened (item :: items) = item.1 ++ flattened items := rfl

theorem flattened_append (items items' : List (Item V K)) :
    flattened (items ++ items') = flattened items ++ flattened items' := by
  simp [flattened]

variable [Value V] {ts : List (K × V)} {v : V} {items items' : List (Item V K)}

/-- The tokens are those of the items, none of which is empty, and each is derived by the node `i`. -/
structure Itemizes (G : Productions V K) (i : Nat) (ts : List (K × V)) (items : List (Item V K)) : Prop where
  tokens : ts = flattened items
  derives : ∀ item ∈ items, item.1 ≠ [] ∧ Derives G i item.1 item.2

theorem ne_nil_of_derives {us : List (K × V)} {a : V} (hi : ¬Nullable G i) (h : Derives G i us a) : us ≠ [] := by
  rintro rfl
  exact hi h.nullable

theorem Itemizes.nil : Itemizes G i [] ([] : List (Item V K)) := ⟨rfl, fun _ hitem => nomatch hitem⟩

theorem Itemizes.cons {us : List (K × V)} {a : V} (hus : us ≠ []) (ha : Derives G i us a) (h : Itemizes G i ts items) :
    Itemizes G i (us ++ ts) ((us, a) :: items) := by
  refine ⟨?_, List.forall_mem_cons.2 ⟨⟨hus, ha⟩, h.derives⟩⟩
  rw [h.tokens]
  rfl

theorem Itemizes.tail {item : Item V K} (h : Itemizes G i ts (item :: items)) : Itemizes G i (flattened items) items :=
  ⟨rfl, (List.forall_mem_cons.1 h.derives).2⟩

namespace Iterates

/-- Each way to cut the tokens into items is a derivation. -/
theorem derives_of_items (h : Iterates G i e .many m) (hitems : Itemizes G i ts items) :
    Derives G m ts (gathered e items) := by
  cases h with
  | many hm hb hq hd =>
    rw [hitems.tokens]
    induction items generalizing ts with
    | nil => exact .deferred hm (.right hb (.success hd))
    | cons item items ih =>
      obtain ⟨-, hitem⟩ := hitems.derives item List.mem_cons_self
      exact .deferred hm (.left hb (.sequence hq hitem (ih hitems.tail)))

/-- A derivation goes round by round. -/
theorem exists_items (h : Iterates G i e .many m) (hi : ¬Nullable G i) (hv : Derives G m ts v) :
    ∃ items, Itemizes G i ts items ∧ v = gathered e items := by
  cases h with
  | @many m b q d hm hb hq hd =>
    suffices hrounds : ∀ n ts v, Derives G n ts v → (n = m ∨ n = b ∨ n = q) →
        ∃ items, Itemizes G i ts items ∧ v = gathered e items from hrounds m ts v hv (.inl rfl)
    intro n ts v hv
    refine Derives.induct (motive := fun n ts v => (n = m ∨ n = b ∨ n = q) →
      ∃ items, Itemizes G i ts items ∧ v = gathered e items) ?_ hv
    -- from a round one comes to an item and to the rounds behind it
    rintro n p ts v hn hbuilds (rfl | rfl | rfl)
    · cases hm.symm.trans hn
      exact hbuilds.2 (.inr (.inl rfl))
    · cases hb.symm.trans hn
      rcases hbuilds with ⟨-, hround⟩ | ⟨hend, -⟩
      · exact hround (.inr (.inr rfl))
      · obtain ⟨rfl, rfl⟩ := (derives_iff hd).1 hend
        exact ⟨[], .nil, rfl⟩
    · cases hq.symm.trans hn
      obtain ⟨us, ws, a, w, ⟨ha, -⟩, ⟨-, hrest⟩, rfl, rfl⟩ := hbuilds
      obtain ⟨items, hitems, rfl⟩ := hrest (.inl rfl)
      exact ⟨(us, a) :: items, hitems.cons (ne_nil_of_derives hi ha) ha, rfl⟩

theorem derives_iff_items (h : Iterates G i e .many m) (hi : ¬Nullable G i) :
    Derives G m ts v ↔ ∃ items, Itemizes G i ts items ∧ v = gathered e items := by
  constructor
  · exact h.exists_items hi
  · rintro ⟨items, hitems, rfl⟩
    exact h.derives_of_items hitems

/-- The grammar that must come once derives the same, but for no items. -/
theorem derives_iff_items_of_many1 (h : Iterates G i e .many1 j) (hi : ¬Nullable G i) :
    Derives G j ts v ↔ ∃ items, items ≠ [] ∧ Itemizes G i ts items ∧ v = gathered e items := by
  cases h with
  | many1 hj hm =>
    rw [derives_iff hj]
    constructor
    · rintro ⟨us, ws, a, w, ha, hw, rfl, rfl⟩
      obtain ⟨items, hitems, rfl⟩ := hm.exists_items hi hw
      exact ⟨(us, a) :: items, List.cons_ne_nil _ _, hitems.cons (ne_nil_of_derives hi ha) ha, rfl⟩
    · rintro ⟨items, hne, hitems, rfl⟩
      obtain ⟨item, rest, rfl⟩ := List.exists_cons_of_ne_nil hne
      obtain ⟨-, hitem⟩ := hitems.derives item List.mem_cons_self
      exact ⟨item.1, flattened rest, item.2, gathered e rest, hitem, hm.derives_of_items hitems.tail, hitems.tokens, rfl⟩

/-- There is one way only to cut tokens into items. -/
theorem items_unique (h : Iterates G i e .many m) (hdecided : DecidedFrom G m) (hitems : Itemizes G i ts items)
    (hitems' : Itemizes G i ts items') : items = items' := by
  cases h with
  | @many m b q d hm hb hq hd =>
    have hrounds : Iterates G i e .many m := .many hm hb hq hd
    have hround : DecidedFrom G q := (hdecided.part hm (by simp [Production.parts])).part hb (by simp [Production.parts])
    have hinner : DecidedFrom G i := hround.part hq (by simp [Production.parts])
    have htokens : flattened items = flattened items' := hitems.tokens.symm.trans hitems'.tokens
    clear hdecided
    induction items generalizing items' ts with
    | nil =>
      cases items' with
      | nil => rfl
      | cons item items' =>
        obtain ⟨hne, -⟩ := hitems'.derives item List.mem_cons_self
        exact absurd (List.append_eq_nil_iff.1 htokens.symm).1 hne
    | cons item items ih =>
      obtain ⟨hne, hitem⟩ := hitems.derives item List.mem_cons_self
      cases items' with
      | nil => exact absurd (List.append_eq_nil_iff.1 htokens).1 hne
      | cons item' items' =>
        obtain ⟨-, hitem'⟩ := hitems'.derives item' List.mem_cons_self
        have hrest := (hrounds.derives_of_items hitems.tail).yields
        have hrest' := (hrounds.derives_of_items hitems'.tail).yields
        -- the first items have the same kinds, so they are cut off at the same place
        have hkinds : item.1.map Prod.fst ++ (flattened items).map Prod.fst =
            item'.1.map Prod.fst ++ (flattened items').map Prod.fst := by
          rw [← List.map_append, ← List.map_append]
          exact congrArg _ htokens
        obtain ⟨hcut, -⟩ := hround.cut_unique hq hitem.yields hrest hitem'.yields hrest' hkinds
        have hlength : item.1.length = item'.1.length := by simpa using congrArg List.length hcut
        obtain ⟨hfirst, hbehind⟩ := List.append_inj htokens hlength
        have hvalue : item.2 = item'.2 := hinner.value_unique hitem (hfirst ▸ hitem')
        rw [ih hitems.tail ⟨hbehind, hitems'.tail.derives⟩ hbehind, Prod.ext hfirst hvalue]

end Iterates
end Predictive
