import Predictive.Proofs.Zipper.Nesting
import Predictive.Proofs.Grammar.Iteration

/-!
How deep a parse of a repeated grammar gets. Each item that is complete leaves a frame, so the depth counts the items before
a token besides the depth of the token in its item. Within a limit on depth no more items are parsed than the limit says.
-/
namespace Predictive

namespace ValidGrammar

variable {V K : Type} [Value V] [Kind K] {g g' : ValidGrammar V K} {R : Slot → Slot → Prop} {s : Slot}

/-- The table, read from another slot. -/
def reroot (g : ValidGrammar V K) (s : Slot) : ValidGrammar V K := { g with root := s }

theorem Lawful.reroot (h : g.Lawful) (hs : s < g.size) : (g.reroot s).Lawful := { h with root := hs }

theorem Matches.reroot (h : Matches g g' R) : Matches (g.reroot s) g' R := ⟨h.bounds, h.starts, h.empty, h.mirrors⟩

end ValidGrammar

namespace Grammar

open Store
open ValidGrammar (start Loops)

variable {V K : Type} [Value V] [Kind K]

section Tables

variable {G : Productions V K} {g g' : ValidGrammar V K} {node node' : Slot → Option Nat} {i j m : Nat} {e : V} {b : Slot}
  {k : K}

namespace Tabulates

variable (h : Tabulates G j g node)
include h

theorem names_of_deferred {n : Nat} (hb : Names G node b m) (hm : G m = some (.deferred n)) : Names G node b n := by
  rcases h.mirrors_of_node hb hm with ⟨n', hn', hb'⟩ | ⟨q, -, hq⟩
  · cases hn'
    exact hb'
  · cases hq

theorem exists_element (hb : Names G node b i) (hi : G i = some (.element k)) : g.productions b = some (.element k) := by
  rcases h.mirrors_of_node hb hi with ⟨n', hn', -⟩ | ⟨q, hq, hm⟩
  · cases hn'
  · cases hm
    exact hq

/-- The slots of a repeated grammar are rounds of it, or may be left out. -/
theorem exists_round (hb : Names G node b m) (hm : Iterates G i e .many m) : Nullable g.productions b ∧ ∃ l r s b',
    g.productions b = some (.disjunction l r) ∧ g.productions l = some (.sequence s b') ∧ Names G node s i ∧
    Names G node b' m := by
  cases hm with
  | many hm hbody hq hd =>
    obtain ⟨l, r, hlr, hl, -⟩ := h.exists_disjunction (h.names_of_deferred hb hm) hbody
    obtain ⟨s, b', hsb, hs, hb'⟩ := h.exists_sequence hl hq
    exact ⟨(h.nullable_iff hb).2 (nullable_many hm hbody hd), l, r, s, b', hlr, hsb, hs, hb'⟩

end Tabulates

omit [Kind K] in
/-- The item of an element that comes again. -/
def single (k : K) (v : V) : Item V K := ([(k, v)], v)

omit [Kind K] in
theorem itemizes_singles (hi : G i = some (.element k)) (vs : List V) :
    Itemizes G i (vs.map (k, ·)) (vs.map (single k)) := by
  induction vs with
  | nil => exact .nil
  | cons v vs ih => exact ih.cons (List.cons_ne_nil _ _) (.element hi)

variable (h' : Tabulates G m g' node') (hdecided : DecidedFrom G m) (hm : Iterates G i e .many m)
include h' hdecided hm

/-- The cursor for a token is deeper than in a table for the item alone by the items before and one. -/
theorem exists_focus_of_items (hlaw : g.Lawful) (hmatch : ValidGrammar.Matches g g' (Shares G node node'))
    (hroot : Names G node g.root i) (hderives : ∀ us v, Derives g.productions g.root us v ↔ Derives G i us v)
    {ts us ws : List (K × V)} {before after : List (Item V K)} {t : K × V} {x : V}
    (hitems : Itemizes G i ts (before ++ (us ++ t :: ws, x) :: after)) : ∃ p f p' f',
      (start .unbounded : ParseState V).feedAll g us = .ok p ∧ p.focus g t.1 = .ok (some f) ∧
      (start .unbounded : ParseState V).feedAll g' (flattened before ++ us) = .ok p' ∧
      p'.focus g' t.1 = .ok (some f') ∧ f'.depth = before.length + 1 + f.depth := by
  have hloops : Loops g g' (Shares G node node') fun b => Names G node' b m := fun b hb => by
    obtain ⟨hnullable, l, r, s, b', hlr, hsb, hs, hb'⟩ := h'.exists_round hb hm
    exact ⟨hnullable, l, r, s, b', hlr, hsb, ⟨i, hroot, hs⟩, hb'⟩
  have hparse : ∀ item ∈ before ++ (us ++ t :: ws, x) :: after, item.1 ≠ [] ∧ g.parse .unbounded item.1 = .ok item.2 :=
    fun item hitem => by
      obtain ⟨hne, hitem⟩ := hitems.derives item hitem
      exact ⟨hne, hlaw.parse_iff.2 ((hderives _ _).2 hitem)⟩
  have hbefore := fun item hitem => hparse item (List.mem_append_left _ hitem)
  obtain ⟨-, hitem⟩ := hparse (us ++ t :: ws, x) (List.mem_append_right _ List.mem_cons_self)
  exact hloops.depth_eq hlaw (h'.lawful hdecided) hmatch h'.root hbefore hitem

/-- The cursor for an element that comes again is as deep as the number of elements up to it. -/
theorem depth_of_element (hi : G i = some (.element k)) {vs : List V} (v : V) {p : ParseState V} {f : Focus V K}
    (hp : (start .unbounded : ParseState V).feedAll g' (vs.map (k, ·)) = .ok p) (hf : p.focus g' k = .ok (some f)) :
    f.depth = vs.length + 1 := by
  obtain ⟨-, l, r, s, b', -, -, hs, -⟩ := h'.exists_round h'.root hm
  have helement := h'.exists_element hs hi
  -- the element alone is parsed from the slot that it has in the table
  have hlaw : (g'.reroot s).Lawful :=
    (h'.lawful hdecided).reroot (ValidGrammar.productions_isSome_iff.1 (Option.isSome_of_eq_some helement))
  have hitems : Itemizes G i ((vs ++ [v]).map (k, ·)) (vs.map (single k) ++ ([] ++ (k, v) :: [], v) :: []) := by
    have hsingles := itemizes_singles hi (vs ++ [v])
    rw [List.map_append (f := single k)] at hsingles
    exact hsingles
  obtain ⟨p₀, f₀, p', f', hp₀, hf₀, hp', hf', hdepth⟩ := exists_focus_of_items h' hdecided hm hlaw (h'.matching h').reroot hs
    (fun us v => h'.derives_iff hs) hitems
  rw [← (itemizes_singles hi vs).tokens, List.append_nil] at hp'
  cases hp.symm.trans hp'
  cases hf.symm.trans hf'
  cases hp₀
  cases (ValidGrammar.focus_start.1 hf₀).symm.trans (hlaw.focusAt_of_element helement)
  rw [hdepth, List.length_map, Focus.depth, Context.depth]

/-- Within a limit on depth as many elements are parsed as the limit says. -/
theorem parse_elements_iff (hi : G i = some (.element k)) (vs : List V) (l : Nat) :
    (∃ w, g'.parse { maxDepth := some l } (vs.map (k, ·)) = .ok w) ↔ vs.length ≤ l := by
  have hlaw := h'.lawful hdecided
  have hparse : g'.parse .unbounded (vs.map (k, ·)) = .ok (gathered e (vs.map (single k))) := by
    rw [hlaw.parse_iff, h'.derives_iff h'.root]
    exact hm.derives_of_items (itemizes_singles hi vs)
  rw [ValidGrammar.parse_within_depth hparse]
  constructor
  · intro hlimit
    rcases List.eq_nil_or_concat' vs with rfl | ⟨ws, v, rfl⟩
    · exact Nat.zero_le l
    · obtain ⟨q, hq, -⟩ := exists_of_bind hparse
      rw [List.map_append, ParseState.feedAll_append] at hq
      obtain ⟨p, hp, hq⟩ := exists_of_bind hq
      obtain ⟨p', hp', -⟩ := exists_of_bind hq
      obtain ⟨f, -, hf, -⟩ := ParseState.exists_of_feed hp'
      have hle := hlimit ws.length p (k, v) f (by simpa using hp) (by simp) hf
      rw [depth_of_element h' hdecided hm hi v hp hf] at hle
      rwa [List.length_append, List.length_singleton]
  · intro hle n p t f hp ht hf
    obtain ⟨hn, rfl⟩ := List.getElem?_eq_some_iff.1 ht
    rw [List.length_map] at hn
    rw [← List.map_take] at hp
    rw [List.getElem_map] at hf
    rw [depth_of_element h' hdecided hm hi vs[n] hp hf, List.length_take]
    omega

end Tables

variable {s : Store V K} {a : Ref} {e : V} {m : NodeId} {g' : ValidGrammar V K}

/-- If a grammar to come again gets a table, so does what is repeated, if there is a verdict on it. Of tokens that are parsed,
the cursor for one of them is deeper than if its item is parsed alone by the number of items before and one. So of an
element that comes again there are parsed as many as a limit on depth says, and no more. -/
theorem repetition_counts_depth (hm : s.Iterated a e .many m) (hg' : Answered s validate (.node m) (.ok g')) :
    ∃ i, s.nodeOf? a = some i ∧
    (∀ v, Answered s validate a v → ∃ g, v = .ok g ∧ ∀ ts w, g'.parse .unbounded ts = .ok w →
      (∃ items, Itemizes s.productions i ts items) ∧ ∀ items, Itemizes s.productions i ts items →
        ∀ before us t ws x after, items = before ++ (us ++ t :: ws, x) :: after → ∃ p f p' f',
          (start .unbounded : ParseState V).feedAll g us = .ok p ∧ p.focus g t.1 = .ok (some f) ∧
          (start .unbounded : ParseState V).feedAll g' (flattened before ++ us) = .ok p' ∧
          p'.focus g' t.1 = .ok (some f') ∧ f'.depth = before.length + 1 + f.depth) ∧
    (∀ k, s.productions i = some (.element k) → ∀ (vs : List V) l,
      (∃ w, g'.parse { maxDepth := some l } (vs.map (k, ·)) = .ok w) ↔ vs.length ≤ l) ∧
    ∀ {i : NodeId} {joints : List NodeId} {held : List Ref}, s.Sugared i .many joints m → Tabled s held (.node m) →
      (.node m ∈ held ∨ ∀ c ∈ joints, ¬Below s.productions i c) → ∃ v s', validate held (.node i) s = .ok v s' := by
  obtain ⟨hreached, hjudged⟩ := hg'.judged
  obtain ⟨i, hi, hrounds⟩ := hm.exists_iterates hreached.orderly.bodies hjudged.complete
  obtain ⟨node', htab'⟩ := hjudged.table g' rfl
  have hdecided : DecidedFrom s.productions m := hjudged.decided.1 ⟨g', rfl⟩
  obtain ⟨hinner, hnullable, -⟩ := hrounds.repeats.decidedFrom_iff.1 hdecided
  refine ⟨i, hi, fun v hv => ?_, fun k hk vs l => parse_elements_iff htab' hdecided hrounds hk vs l,
    fun hm h hkeep => exists_verdict_of_kin h hm hkeep .plain⟩
  obtain ⟨-, i', hi', hjudged'⟩ := hv.exists_judged
  obtain rfl : i = i' := Option.some.inj (hi.symm.trans hi')
  obtain ⟨g, rfl⟩ := hjudged'.decided.2 hinner
  obtain ⟨node, htab⟩ := hjudged'.table g rfl
  refine ⟨g, rfl, fun ts w hparse => ?_⟩
  obtain ⟨items, hitems, -⟩ := hrounds.exists_items hnullable (hjudged.parse_iff.1 hparse)
  refine ⟨⟨items, hitems⟩, fun items hitems before us t ws x after heq => ?_⟩
  exact exists_focus_of_items htab' hdecided hrounds (htab.lawful hinner) (htab.matching htab') htab.root
    (fun us v => htab.derives_iff htab.root) (heq ▸ hitems)

/-- An element to come again. -/
def elementsStore : Store (List Int64) Tag := (Call.evaluate [] {} (.many (.element .a) [9])).after {}

/-- Some elements. -/
def elements (n : Nat) : List (Tag × List Int64) := (List.replicate n [1]).map (Tag.a, ·)

theorem repetition_counts_depth_elements : ∃ (s : Store (List Int64) Tag) (g g' : ValidGrammar (List Int64) Tag),
    s.Iterated (.node 0) [9] .many 4 ∧ Answered s validate (.node 4) (.ok g') ∧ Answered s validate (.node 0) (.ok g) ∧
    (∃ p f p' f', (start .unbounded : ParseState (List Int64)).feedAll g [] = .ok p ∧ p.focus g .a = .ok (some f) ∧
      (start .unbounded : ParseState (List Int64)).feedAll g' (elements 2) = .ok p' ∧ p'.focus g' .a = .ok (some f') ∧
      f'.depth = 3 + f.depth) ∧
    (∃ w, g'.parse { maxDepth := some 3 } (elements 3) = .ok w) ∧
    (¬∃ w, g'.parse { maxDepth := some 2 } (elements 3) = .ok w) ∧
    ∃ held v s', validate held (.node 0) s = .ok v s' := by
  have hreached : Reached elementsStore := .call _ .refl (by simp [Call.refs, Scope.refs])
  have hsize : elementsStore.nodes.size = 5 := by decide +kernel
  have h4 : elementsStore.HasRef (.node 4) := (by decide : 4 < 5).trans_eq hsize.symm
  have h0 : elementsStore.HasRef (.node 0) := (by decide : 0 < 5).trans_eq hsize.symm
  obtain ⟨⟨w, v⟩, s, hask, hp⟩ := exists_ok (s := elementsStore) (w := askBoth 4 0)
    (fun a s => a.1.isOk && s.isMany (.node 0) [9] 4) (by decide +kernel)
  obtain ⟨hok, hshape⟩ := Bool.and_eq_true_iff.1 hp
  obtain ⟨g', rfl⟩ : ∃ g', w = .ok g' := by
    cases w with
    | ok g' => exact ⟨g', rfl⟩
    | error e => cases hok
  have hmany := iterated_of_isMany hshape
  obtain ⟨l, hw, hv, htabled⟩ := answered_of_askBoth hreached h4 h0 hask
  obtain ⟨i, hi, hdepth, hlimit, hverdict⟩ := repetition_counts_depth hmany hw
  cases hi
  have helement : s.productions 0 = some (.element .a) := by
    have hn : elementsStore.nodes[0]? = some (Shape.element .a) := rfl
    simp only [Store.productions, (l.grows hreached).solid hn (by simp)]
  have hthree : ∃ w, g'.parse { maxDepth := some 3 } (elements 3) = .ok w := (hlimit .a helement _ 3).2 (by decide)
  obtain ⟨g, rfl, hfocus⟩ := hdepth v hv
  obtain ⟨joints, hjoints⟩ := hmany.exists_sugared
  obtain ⟨held, hheld, htabled⟩ := htabled g' rfl
  refine ⟨s, g, g', hmany, hw, hv, ?_, hthree, fun h => ?_, held, hverdict hjoints htabled (.inl hheld)⟩
  · obtain ⟨hreached, hjudged⟩ := hw.judged
    obtain ⟨i, hi, hrounds⟩ := hmany.exists_iterates hreached.orderly.bodies hjudged.complete
    cases hi
    have hsingles := itemizes_singles helement (List.replicate 3 [1])
    obtain ⟨-, hfocus⟩ := hfocus (elements 3) _ (hjudged.parse_iff.2 (hrounds.derives_of_items hsingles))
    exact hfocus _ hsingles ((List.replicate 2 [1]).map (single .a)) [] (.a, [1]) [] [1] [] rfl
  · have hle := (hlimit .a helement _ 2).1 h
    simp at hle

end Grammar
end Predictive
