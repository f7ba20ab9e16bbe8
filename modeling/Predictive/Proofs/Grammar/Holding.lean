import Predictive.Grammar.Liveness
import Predictive.Proofs.Grammar.Growth

/-!
What is alive. Counting holders and letting go of what has none leaves the largest set of holdings that keeps itself: each
of its members is in use or held by a member.
-/
namespace Predictive.Grammar

deriving instance DecidableEq for Holding

theorem Holding.index_injective : Function.Injective Holding.index := by
  intro h h' heq
  cases h <;> cases h' <;> simp only [index] at heq
  · exact congrArg node (Nat.mul_left_cancel Nat.two_pos heq)
  · omega
  · omega
  · exact congrArg facts (Nat.mul_left_cancel Nat.two_pos (Nat.succ.inj heq))

namespace Store

variable {V K : Type} [Ord K] {s s' : Store V K} {n : Holders} {h : Holding} {use live pending rest l : List Holding}
  {held held' : List Ref} {i : Nat}

/-- Each number says how often its holding occurs in the list. -/
def Counts (n : Holders) (l : List Holding) : Prop := ∀ h, h.index < n.size → n[h.index]? = some (l.count h)

theorem Counts.congr {l' : List Holding} (hc : Counts n l) (hl : l.Perm l') : Counts n l' := fun h hlt =>
  (hc h hlt).trans (by rw [hl.count_eq])

theorem getElem?_countIn (n : Holders) (g h : Holding) :
    (countIn n g)[h.index]? = if g = h then n[h.index]?.map (· + 1) else n[h.index]? := by
  rw [countIn, Array.getElem?_modify]
  simp only [Holding.index_injective.eq_iff]

theorem Counts.countIn (hc : Counts n l) (g : Holding) : Counts (countIn n g) (l ++ [g]) := by
  intro h hlt
  rw [Store.countIn, Array.size_modify] at hlt
  rw [getElem?_countIn, hc h hlt, List.count_append, List.count_singleton]
  by_cases hgh : g = h
  · simp [hgh]
  · simp [hgh]

/-- What is counted is counted once for each time it is held. -/
theorem Counts.foldl (hc : Counts n l) (hs : List Holding) :
    Counts (hs.foldl Store.countIn n) (l ++ hs) ∧ (hs.foldl Store.countIn n).size = n.size := by
  induction hs generalizing n l with
  | nil => simpa using hc
  | cons g hs ih =>
    obtain ⟨hc', hsize⟩ := ih (hc.countIn g)
    rw [List.append_assoc] at hc'
    exact ⟨hc', hsize.trans (by simp [Store.countIn])⟩

/-- Those pending are the live ones without a holder; what is not live has none either. -/
structure Queued (live pending : List Holding) (n : Holders) : Prop where
  nodup : pending.Nodup
  mem : ∀ h, h ∈ pending ↔ h ∈ live ∧ n[h.index]? = some 0
  gone : ∀ h, h.index < n.size → h ∉ live → n[h.index]? = some 0

/-- Lets go of one holding. -/
def letGo (x : List Holding × Holders) (g : Holding) : List Holding × Holders :=
  let n := x.2.modify g.index (· - 1)
  (if n[g.index]? = some 0 then g :: x.1 else x.1, n)

theorem size_letGo (x : List Holding × Holders) (g : Holding) : (letGo x g).2.size = x.2.size := Array.size_modify

theorem getElem?_letGo (x : List Holding × Holders) (g h : Holding) :
    (letGo x g).2[h.index]? = if g = h then x.2[h.index]?.map (· - 1) else x.2[h.index]? := by
  rw [letGo, Array.getElem?_modify]
  simp only [Holding.index_injective.eq_iff]

theorem Counts.letGo {g : Holding} (hc : Counts n (l ++ g :: rest)) : Counts (letGo (pending, n) g).2 (l ++ rest) := by
  intro h hlt
  rw [size_letGo] at hlt
  rw [getElem?_letGo, hc h hlt]
  by_cases hgh : g = h
  · subst hgh
    simp
  · simp [hgh]

theorem Queued.letGo {g : Holding} (hq : Queued live pending n) (hc : Counts n (l ++ g :: rest)) :
    Queued live (Store.letGo (pending, n) g).1 (Store.letGo (pending, n) g).2 := by
  -- what still has a holder is live and not pending
  have hheld : g.index < n.size → n[g.index]? ≠ some 0 := by
    intro hlt h0
    rw [hc g hlt] at h0
    simp at h0
  have hother : ∀ h, g ≠ h → (Store.letGo (pending, n) g).2[h.index]? = n[h.index]? := fun h hgh => by
    rw [getElem?_letGo, if_neg hgh]
  by_cases h0 : (Store.letGo (pending, n) g).2[g.index]? = some 0
  · have hlt : g.index < n.size := by
      rw [← size_letGo (pending, n) g]
      exact (Array.getElem?_eq_some_iff.1 h0).1
    have hlive : g ∈ live := by
      by_contra hg
      exact hheld hlt (hq.gone g hlt hg)
    have hpending : (Store.letGo (pending, n) g).1 = g :: pending := if_pos h0
    rw [hpending]
    refine ⟨List.nodup_cons.2 ⟨fun hg => hheld hlt ((hq.mem g).1 hg).2, hq.nodup⟩, fun h => ?_, fun h hh hnl => ?_⟩
    · by_cases hgh : g = h
      · subst hgh
        simp [hlive, h0]
      · rw [hother h hgh, List.mem_cons, hq.mem]
        simp [Ne.symm hgh]
    · have hgh : g ≠ h := fun hgh => hnl (hgh ▸ hlive)
      rw [size_letGo] at hh
      rw [hother h hgh]
      exact hq.gone h hh hnl
  · have hpending : (Store.letGo (pending, n) g).1 = pending := if_neg h0
    rw [hpending]
    refine ⟨hq.nodup, fun h => ?_, fun h hh hnl => ?_⟩
    · by_cases hgh : g = h
      · subst hgh
        rw [hq.mem]
        refine and_congr_right fun _ => ⟨fun hz => absurd hz (hheld (Array.getElem?_eq_some_iff.1 hz).1), fun hz =>
          absurd hz h0⟩
      · rw [hother h hgh, hq.mem]
    · rw [size_letGo] at hh
      by_cases hgh : g = h
      · subst hgh
        exact absurd (hq.gone g hh hnl) (hheld hh)
      · rw [hother h hgh]
        exact hq.gone h hh hnl

theorem Queued.foldl (hq : Queued live pending n) (hc : Counts n (l ++ rest)) :
    let x := rest.foldl Store.letGo (pending, n)
    Queued live x.1 x.2 ∧ Counts x.2 l ∧ x.2.size = n.size := by
  induction rest generalizing pending n with
  | nil => exact ⟨hq, by simpa using hc, rfl⟩
  | cons g rest ih =>
    obtain ⟨hq', hc', hsize⟩ := ih (hq.letGo hc) hc.letGo
    exact ⟨hq', hc', hsize.trans (size_letGo ..)⟩

/-- All holdings of a store. -/
def holdings (s : Store V K) : List Holding := (List.range s.nodes.size).flatMap fun i => [.node i, .facts i]

/-- What is in use: the names and what else is held. -/
def inUse (s : Store V K) (held : List Ref) : List Holding := (s.names.values ++ held).flatMap Ref.held

theorem mem_holdings : h ∈ s.holdings ↔ h.index < 2 * s.nodes.size := by
  simp only [holdings, List.mem_flatMap, List.mem_range, List.mem_cons, List.not_mem_nil, or_false]
  cases h with
  | node i =>
    simp [Holding.index]
  | facts i =>
    simp [Holding.index]
    omega

theorem nodup_holdings : s.holdings.Nodup := by
  refine List.nodup_flatMap.2 ⟨fun i _ => by simp, List.nodup_range.imp fun hij => ?_⟩
  simp [Function.onFun, List.Disjoint, hij]

theorem index_lt_of_mem_heldBy {g : Holding} (hg : g ∈ s.heldBy h) : h.index < 2 * s.nodes.size := by
  rw [← mem_holdings]
  by_contra hh
  rw [mem_holdings] at hh
  cases h with
  | node i | facts i =>
    simp only [Holding.index] at hh
    have hn : s.nodes[i]? = none := Array.getElem?_eq_none (by omega)
    simp [heldBy, hn] at hg

/-- The holders before anything has gone. -/
def counted (s : Store V K) (held : List Ref) : Holders :=
  (s.inUse held ++ s.holdings.flatMap s.heldBy).foldl countIn (Array.replicate (2 * s.nodes.size) 0)

theorem counts_counted (s : Store V K) (held : List Ref) :
    Counts (s.counted held) (s.inUse held ++ s.holdings.flatMap s.heldBy) ∧
      (s.counted held).size = 2 * s.nodes.size := by
  have hempty : Counts (Array.replicate (2 * s.nodes.size) 0) [] := fun h hh => by
    rw [Array.size_replicate] at hh
    simp [hh]
  obtain ⟨hc, hsize⟩ := hempty.foldl (s.inUse held ++ s.holdings.flatMap s.heldBy)
  exact ⟨hc, hsize.trans Array.size_replicate⟩

theorem holders_eq (s : Store V K) (held : List Ref) : s.holders held = s.release s.holdings.length
    (s.holdings.filter fun h => (s.counted held)[h.index]? = some 0) (s.counted held) := by
  have hcounted : s.counted held = s.holdings.foldl (fun n h => (s.heldBy h).foldl countIn n)
      ((s.names.values ++ held).foldl (fun n r => r.held.foldl countIn n)
        (Array.replicate (2 * s.nodes.size) 0)) := by
    rw [counted, inUse, List.foldl_append, List.foldl_flatMap, List.foldl_flatMap]
  rw [hcounted]
  rfl

/-- The set keeps itself: each of its members is in use or held by a member. -/
def Sustains (s : Store V K) (use : List Holding) (A : Holding → Prop) : Prop :=
  ∀ h, A h → h ∈ use ∨ ∃ g, A g ∧ h ∈ s.heldBy g

theorem Queued.take (hq : Queued live (h :: pending) n) (hlive : live.Nodup) : Queued (live.erase h) pending n := by
  obtain ⟨-, h0⟩ := (hq.mem h).1 List.mem_cons_self
  obtain ⟨hnp, hnd⟩ := List.nodup_cons.1 hq.nodup
  refine ⟨hnd, fun g => ?_, fun g hg hng => ?_⟩
  · have hg := hq.mem g
    rw [List.mem_cons] at hg
    rw [hlive.mem_erase_iff]
    constructor
    · intro hp
      obtain ⟨hgl, hg0⟩ := hg.1 (.inr hp)
      exact ⟨⟨fun he => hnp (he ▸ hp), hgl⟩, hg0⟩
    · rintro ⟨⟨hne, hgl⟩, hg0⟩
      exact (hg.2 ⟨hgl, hg0⟩).resolve_left hne
  · rw [hlive.mem_erase_iff] at hng
    by_cases hgh : g = h
    · exact hgh ▸ h0
    · exact hq.gone g hg fun hgl => hng ⟨hgh, hgl⟩

theorem Counts.take (hc : Counts n (use ++ live.flatMap s.heldBy)) (hh : h ∈ live) :
    Counts n ((use ++ (live.erase h).flatMap s.heldBy) ++ s.heldBy h) := by
  refine hc.congr ?_
  rw [List.append_assoc]
  refine List.Perm.append_left use ?_
  exact ((List.perm_cons_erase hh).flatMap_right s.heldBy).trans (by simpa using List.perm_append_comm)

/-- What has no holder left is in no set that keeps itself. -/
theorem Counts.not_sustained {A : Holding → Prop} (hc : Counts n (use ++ live.flatMap s.heldBy))
    (h0 : n[h.index]? = some 0) (hsus : s.Sustains use A) (hA : ∀ g, A g → g ∈ live) : ¬A h := by
  intro hh
  have hcount := (hc h (Array.getElem?_eq_some_iff.1 h0).1).symm.trans h0
  rw [Option.some.injEq, List.count_eq_zero, List.mem_append, not_or] at hcount
  rcases hsus h hh with hu | ⟨f, hf, hfh⟩
  · exact hcount.1 hu
  · exact hcount.2 (List.mem_flatMap.2 ⟨f, hA f hf, hfh⟩)

/-- Letting go never reaches a set that keeps itself, and in the end all that is live has a holder. -/
theorem release_spec {fuel : Nat} (hq : Queued live pending n) (hc : Counts n (use ++ live.flatMap s.heldBy))
    (hlive : live.Nodup) (hfuel : live.length ≤ fuel) :
    ∃ live', Queued live' [] (s.release fuel pending n) ∧
      Counts (s.release fuel pending n) (use ++ live'.flatMap s.heldBy) ∧ live' ⊆ live ∧
      (s.release fuel pending n).size = n.size ∧
      ∀ A, s.Sustains use A → (∀ h, A h → h ∈ live) → ∀ h, A h → h ∈ live' := by
  induction fuel generalizing live pending n with
  | zero =>
    obtain rfl := List.length_eq_zero_iff.1 (Nat.le_zero.1 hfuel)
    obtain rfl : pending = [] := List.eq_nil_iff_forall_not_mem.2 fun h hp => by
      cases ((hq.mem h).1 hp).1
    exact ⟨[], hq, hc, fun _ h => h, rfl, fun A _ hA => hA⟩
  | succ fuel ih =>
    cases pending with
    | nil => exact ⟨live, hq, hc, fun _ h => h, rfl, fun A _ hA => hA⟩
    | cons h pending =>
      obtain ⟨hh, h0⟩ := (hq.mem h).1 List.mem_cons_self
      obtain ⟨hq₁, hc₁, hsize⟩ := (hq.take hlive).foldl (hc.take hh)
      have hlen := List.length_erase_of_mem hh
      obtain ⟨live', hq', hc', hsub, hsize', hA⟩ := ih hq₁ hc₁ (hlive.erase h) (by omega)
      refine ⟨live', hq', hc', fun g hg => List.mem_of_mem_erase (hsub hg), hsize'.trans hsize, fun A hsus hAl =>
        hA A hsus fun g hg => hlive.mem_erase_iff.2 ⟨fun hgh => ?_, hAl g hg⟩⟩
      exact hc.not_sustained h0 hsus hAl (hgh ▸ hg)

/-- What has a holder in the end is the largest set of holdings that keeps itself. -/
theorem holders_spec (s : Store V K) (held : List Ref) :
    ∃ live, (∀ h, h ∈ live ↔ ((s.holders held)[h.index]?.getD 0 != 0) = true) ∧ live ⊆ s.holdings ∧
      s.Sustains (s.inUse held) (· ∈ live) ∧
      ∀ A, s.Sustains (s.inUse held) A → (∀ h, A h → h ∈ s.holdings) → ∀ h, A h → h ∈ live := by
  obtain ⟨hc, hsize⟩ := s.counts_counted held
  have hq : Queued s.holdings (s.holdings.filter fun h => (s.counted held)[h.index]? = some 0) (s.counted held) := by
    refine ⟨nodup_holdings.filter _, fun h => by simp, fun h hh hnl => absurd ?_ hnl⟩
    rw [mem_holdings, ← hsize]
    exact hh
  obtain ⟨live, hq', hc', hsub, hsize', hA⟩ := release_spec hq hc nodup_holdings (Nat.le_refl _)
  rw [← holders_eq] at hq' hc' hsize'
  have hbound : ∀ h ∈ live, h.index < (s.holders held).size := fun h hl => by
    rw [hsize', hsize]
    exact mem_holdings.1 (hsub hl)
  have hlive : ∀ h, h ∈ live ↔ ((s.holders held)[h.index]?.getD 0 != 0) = true := by
    intro h
    by_cases hh : h.index < (s.holders held).size
    · have hmem := hq'.mem h
      have hgone := hq'.gone h hh
      rw [hc' h hh] at hmem hgone ⊢
      simp only [List.not_mem_nil, false_iff, not_and] at hmem
      simp only [Option.getD_some, bne_iff_ne]
      exact ⟨fun hl h0 => hmem hl (congrArg some h0), fun h0 => by
        by_contra hl
        exact h0 (Option.some.inj (hgone hl))⟩
    · rw [Array.getElem?_eq_none (Nat.le_of_not_lt hh)]
      exact ⟨fun hl => absurd (hbound h hl) hh, by simp⟩
  refine ⟨live, hlive, hsub, fun h hh => ?_, hA⟩
  have hne := (hlive h).1 hh
  rw [hc' h (hbound h hh), Option.getD_some, bne_iff_ne] at hne
  rcases List.mem_append.1 (List.count_pos_iff.1 (Nat.pos_of_ne_zero hne)) with hu | hm
  · exact .inl hu
  · obtain ⟨g, hg, hgh⟩ := List.mem_flatMap.1 hm
    exact .inr ⟨g, hg, hgh⟩

/-- A node is alive exactly if it is in a set that keeps itself. -/
theorem isAlive_iff : (s.liveness held).isAlive i = true ↔
    i < s.nodes.size ∧ ∃ A, s.Sustains (s.inUse held) A ∧ A (.node i) := by
  have hindex : ∀ {i}, .node i ∈ s.holdings ↔ i < s.nodes.size := fun {i} => by
    rw [mem_holdings, Holding.index]
    omega
  obtain ⟨live, hlive, hsub, hsus, hlargest⟩ := s.holders_spec held
  have halive : (s.liveness held).isAlive i = true ↔ .node i ∈ live := (hlive (.node i)).symm
  rw [halive]
  constructor
  · intro hi
    exact ⟨hindex.1 (hsub hi), (· ∈ live), hsus, hi⟩
  · rintro ⟨hi, A, hA, hAi⟩
    refine hlargest (fun h => A h ∧ h ∈ s.holdings) (fun h hh => ?_) (fun h hh => hh.2) _ ⟨hAi, hindex.2 hi⟩
    rcases hA h hh.1 with hu | ⟨g, hg, hgh⟩
    · exact .inl hu
    · exact .inr ⟨g, ⟨hg, mem_holdings.2 (index_lt_of_mem_heldBy hgh)⟩, hgh⟩

/-- What is held stays held: a deferred node that gets a target holds that as well. -/
theorem Grows.heldBy (hs : s.Grows s') : s.heldBy h ⊆ s'.heldBy h := by
  intro g hg
  cases h with
  | node i =>
    cases hn : s.nodes[i]? with
    | none => simp [Store.heldBy, hn] at hg
    | some shape =>
      rcases hs.nodes i shape hn with hn' | ⟨o, t, rfl, hn'⟩
      · simpa only [Store.heldBy, hn, hn'] using hg
      · simp only [Store.heldBy, hn, hn', List.mem_cons] at hg ⊢
        refine hg.imp_right fun hg => ?_
        cases o with
        | known body =>
          simp only [Shape.heldByNode, List.flatMap_cons, List.mem_append] at hg ⊢
          exact hg.imp_right fun hnil => by simp at hnil
        | delayed e sc =>
          simp only [Shape.heldByNode, List.flatMap_append, List.mem_append] at hg ⊢
          exact hg.imp_right fun hnil => by simp at hnil
  | facts i =>
    cases hn : s.nodes[i]? with
    | none => simp [Store.heldBy, hn] at hg
    | some shape =>
      rcases hs.nodes i shape hn with hn' | ⟨o, t, rfl, -⟩
      · cases shape with
        | success v | element k | disjunction a b | sequence a b | transform f a =>
          simpa only [Store.heldBy, hn, hn'] using hg
        | deferred o target =>
          cases target with
          | none => simp [Store.heldBy, hn] at hg
          | some t =>
            simp only [Store.heldBy, hn, hn', List.mem_map, Option.mem_toList] at hg ⊢
            obtain ⟨j, hj, rfl⟩ := hg
            exact ⟨j, hs.nodeOf? hj, rfl⟩
      · simp [Store.heldBy, hn] at hg

theorem Grows.isAlive_of_inUse (hs : s.Grows s') (hu : s.inUse held ⊆ s'.inUse held')
    (hi : (s.liveness held).isAlive i = true) : (s'.liveness held').isAlive i = true := by
  obtain ⟨hlt, A, hsus, hA⟩ := isAlive_iff.1 hi
  refine isAlive_iff.2 ⟨Nat.lt_of_lt_of_le hlt hs.size_le, A, fun h hh => ?_, hA⟩
  rcases hsus h hh with hin | ⟨g, hg, hgh⟩
  · exact .inl (hu hin)
  · exact .inr ⟨g, hg, hs.heldBy hgh⟩

/-- What has been alive stays alive while what was in use still is. -/
theorem Grows.isAlive (hs : s.Grows s') (hu : ∀ r ∈ s.names.values ++ held, r ∈ s'.names.values ++ held')
    (hi : (s.liveness held).isAlive i = true) : (s'.liveness held').isAlive i = true := by
  refine hs.isAlive_of_inUse (fun h hh => ?_) hi
  obtain ⟨r, hr, hrh⟩ := List.mem_flatMap.1 hh
  exact List.mem_flatMap.2 ⟨r, hu r hr, hrh⟩

theorem mem_inUse_cons {r : Ref} {held : List Ref} : h ∈ s.inUse (r :: held) ↔ h ∈ r.held ∨ h ∈ s.inUse held := by
  simp only [inUse, List.flatMap_append, List.flatMap_cons, List.mem_append]
  tauto

/-- What is held on behalf of the joints. -/
def OfJoint (joints : List NodeId) (h : Holding) : Prop := ∃ x ∈ joints, h = .node x ∨ h = .facts x

/-- The joints hold each other and what is of `inner`, and no more. Whoever holds `use` keeps all of it. -/
structure Wraps (s : Store V K) (use : List Holding) (joints : List NodeId) (inner : Holding → Prop) : Prop where
  enters : ∀ h ∈ use, OfJoint joints h ∨ inner h
  leaves : ∀ g h, OfJoint joints g → h ∈ s.heldBy g → OfJoint joints h ∨ inner h
  keeps : ∀ h, OfJoint joints h ∨ inner h → h ∈ use ∨ ∃ g, OfJoint joints g ∧ h ∈ s.heldBy g

namespace Wraps

variable {r : Ref} {joints joints' : List NodeId} {inner : Holding → Prop}

/-- A node that is alone wraps itself. -/
theorem self (s : Store V K) (i : NodeId) : s.Wraps [.node i] [] (· = .node i) where
  enters h hh := .inr (List.mem_singleton.1 hh)
  leaves g h hg := nomatch hg
  keeps h hh := by
    rcases hh with ⟨x, hx, -⟩ | rfl
    · cases hx
    · exact .inl List.mem_cons_self

theorem isAlive_joint (hw : s.Wraps r.held joints inner) {x : NodeId} (hx : x ∈ joints) (hlt : x < s.nodes.size) :
    (s.liveness (r :: held)).isAlive x = true := by
  refine isAlive_iff.2 ⟨hlt, OfJoint joints, fun h hh => ?_, x, hx, .inl rfl⟩
  exact (hw.keeps h (.inl hh)).imp_left fun huse => mem_inUse_cons.2 (.inl huse)

/-- What is kept alive with some joints, these apart, is kept alive with others around the same. -/
theorem isAlive (r r' : Ref) (hi : s.Wraps r.held joints inner) (hj : s.Wraps r'.held joints' inner) {d : NodeId}
    (hd : d ∉ joints) (h : (s.liveness (r :: held)).isAlive d = true) : (s.liveness (r' :: held)).isAlive d = true := by
  obtain ⟨hlt, A, hsus, hA⟩ := isAlive_iff.1 h
  have hinner : ∀ h, inner h → h ∈ s.inUse (r' :: held) ∨
      ∃ g, (A g ∧ ¬OfJoint joints g ∨ OfJoint joints' g) ∧ h ∈ s.heldBy g := by
    intro h hh
    rcases hj.keeps h (.inr hh) with huse | ⟨g, hg, hgh⟩
    · exact .inl (mem_inUse_cons.2 (.inl huse))
    · exact .inr ⟨g, .inr hg, hgh⟩
  refine isAlive_iff.2 ⟨hlt, fun h => A h ∧ ¬OfJoint joints h ∨ OfJoint joints' h, fun h hh => ?_, .inl ⟨hA, ?_⟩⟩
  · rcases hh with ⟨hAh, hnot⟩ | hjoint
    · rcases hsus h hAh with huse | ⟨g, hg, hgh⟩
      · rcases mem_inUse_cons.1 huse with hr | huse
        · exact hinner h ((hi.enters h hr).resolve_left hnot)
        · exact .inl (mem_inUse_cons.2 (.inr huse))
      · by_cases hgj : OfJoint joints g
        · exact hinner h ((hi.leaves g h hgj hgh).resolve_left hnot)
        · exact .inr ⟨g, .inl ⟨hg, hgj⟩, hgh⟩
    · rcases hj.keeps h (.inl hjoint) with huse | ⟨g, hg, hgh⟩
      · exact .inl (mem_inUse_cons.2 (.inl huse))
      · exact .inr ⟨g, .inr hg, hgh⟩
  · rintro ⟨x, hx, hdx | hdx⟩
    · cases hdx
      exact hd hx
    · cases hdx

end Wraps

end Store
end Predictive.Grammar
