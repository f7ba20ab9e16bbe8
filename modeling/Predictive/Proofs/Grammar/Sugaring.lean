import Predictive.Proofs.Repetition
import Predictive.Proofs.Grammar.Enduring
import Predictive.Proofs.Grammar.Regrouping

/-!
Grammars that are made of another one with sugar. What is put around it binds nothing but itself, so a grammar that is ready
realizes with sugar, and stays ready when the sugar is taken off.
-/
namespace Predictive

/-- The expression with sugar. -/
def Sugar.expr {V K : Type} (e : Grammar.Expr V K) (v : V) : Sugar → Grammar.Expr V K
  | optional => .optional e v
  | many => .many e v
  | many1 => .many1 e v

namespace Grammar

open Store

variable {V K : Type} {i j n : Nat} {u : Sugar} {joints : List NodeId}

namespace Store

section Nodes

variable [Kind K] {s s' : Store V K}

theorem Grows.solid (hs : s.Grows s') {shape : Shape V K} (hn : s.nodes[i]? = some shape)
    (hsolid : ∀ o, shape ≠ .deferred o none) : s'.nodes[i]? = some shape := by
  rcases hs.nodes i shape hn with hn' | ⟨o, t, rfl, -⟩
  · exact hn'
  · exact absurd rfl (hsolid o)

/-- A recursive node keeps its body. -/
theorem Grows.recursive (hs : s.Grows s') {b : Ref} {t : Option Ref}
    (hn : s.nodes[i]? = some (.deferred (.known b) t)) : ∃ t', s'.nodes[i]? = some (.deferred (.known b) t') := by
  rcases hs.nodes i _ hn with hn' | ⟨_, t', ho, hn'⟩
  · exact ⟨t, hn'⟩
  · cases ho
    exact ⟨t', hn'⟩

/-- Once a recursive node is bound it stands for its body. -/
theorem KeepsBodies.production (h : s.KeepsBodies) {b : NodeId} {t : Option Ref}
    (hn : s.nodes[i]? = some (Shape.deferred (.known (.node b)) t)) (hp : (s.productions i).isSome) :
    s.productions i = some (.deferred b) := by
  cases t with
  | none => simp [productions, hn] at hp
  | some r =>
    obtain rfl := h i (.node b) r hn
    simp only [productions, hn, nodeOf?, Option.map_some]

/-- The node `j` is the node `i` with some sugar. The joints are what has been put around `i`, `j` itself among them. -/
inductive Sugared (s : Store V K) (i : NodeId) : Sugar → List NodeId → NodeId → Prop
  | optional {j d : NodeId} {v : V} : s.nodes[j]? = some (Shape.disjunction (.node i) (.node d)) →
      s.nodes[d]? = some (Shape.success v) → Sugared s i .optional [j, d] j
  | many {m b q d k : NodeId} {v : V} {t : Option Ref} : s.nodes[m]? = some (Shape.deferred (.known (.node b)) t) →
      s.nodes[b]? = some (Shape.disjunction (.node q) (.node d)) →
      s.nodes[q]? = some (Shape.sequence (.node i) (.self k)) → s.nodes[d]? = some (Shape.success v) →
      s.nodeOf? (.self k) = some m → Sugared s i .many [m, b, q, d] m
  | many1 {j m : NodeId} {joints : List NodeId} : s.nodes[j]? = some (Shape.sequence (.node i) (.node m)) →
      Sugared s i .many joints m → Sugared s i .many1 (j :: joints) j

namespace Sugared

theorem grow (h : s.Sugared i u joints j) (hs : s.Grows s') : s'.Sugared i u joints j := by
  induction h with
  | optional hj hd => exact .optional (hs.solid hj (by simp)) (hs.solid hd (by simp))
  | @many m b q d k v t hm hb hq hd hk =>
    obtain ⟨t', hm'⟩ := hs.recursive hm
    exact .many hm' (hs.solid hb (by simp)) (hs.solid hq (by simp)) (hs.solid hd (by simp)) (hs.knots k m hk)
  | many1 hj _ ih => exact .many1 (hs.solid hj (by simp)) ih

theorem mem_joints (h : s.Sugared i u joints j) : j ∈ joints := by
  cases h <;> exact List.mem_cons_self

theorem lt (h : s.Sugared i u joints j) : ∀ x ∈ joints, x < s.nodes.size := by
  induction h with
  | optional hj hd =>
    simp only [List.forall_mem_cons]
    exact ⟨(Array.getElem?_eq_some_iff.1 hj).1, (Array.getElem?_eq_some_iff.1 hd).1, by simp⟩
  | many hm hb hq hd hk =>
    simp only [List.forall_mem_cons]
    exact ⟨(Array.getElem?_eq_some_iff.1 hm).1, (Array.getElem?_eq_some_iff.1 hb).1,
      (Array.getElem?_eq_some_iff.1 hq).1, (Array.getElem?_eq_some_iff.1 hd).1, by simp⟩
  | many1 hj _ ih => exact List.forall_mem_cons.2 ⟨(Array.getElem?_eq_some_iff.1 hj).1, ih⟩

theorem hasRef (h : s.Sugared i u joints j) : s.HasRef (.node j) := h.lt j h.mem_joints

/-- What a joint may be. It leads to `i` and to joints. -/
inductive Joint (s : Store V K) (i : NodeId) (joints : List NodeId) : Shape V K → Prop
  | stop (v : V) : Joint s i joints (.success v)
  | leave {d : NodeId} : d ∈ joints → Joint s i joints (.disjunction (.node i) (.node d))
  | choose {q d : NodeId} : q ∈ joints → d ∈ joints → Joint s i joints (.disjunction (.node q) (.node d))
  | start {m : NodeId} : m ∈ joints → Joint s i joints (.sequence (.node i) (.node m))
  | again {k m : NodeId} : s.nodeOf? (.self k) = some m → m ∈ joints → Joint s i joints (.sequence (.node i) (.self k))
  | round {b : NodeId} {t : Option Ref} : b ∈ joints → (∀ r, t = some r → r = .node b) →
      Joint s i joints (.deferred (.known (.node b)) t)

theorem Joint.mono {shape : Shape V K} {joints' : List NodeId} (h : Joint s i joints shape) (hsub : joints ⊆ joints') :
    Joint s i joints' shape := by
  cases h with
  | stop v => exact .stop v
  | leave hd => exact .leave (hsub hd)
  | choose hq hd => exact .choose (hsub hq) (hsub hd)
  | start hm => exact .start (hsub hm)
  | again hk hm => exact .again hk (hsub hm)
  | round hb ht => exact .round (hsub hb) ht

/-- What a joint holds is `i`, or a joint. -/
theorem Joint.held {shape : Shape V K} (h : Joint s i joints shape) {r : Ref} (hr : r ∈ shape.heldByNode) {g : Holding}
    (hg : g ∈ r.held) : OfJoint joints g ∨ g = .node i := by
  have hjoint : ∀ d ∈ joints, g ∈ Ref.held (.node d) → OfJoint joints g := fun d hd hgd =>
    ⟨d, hd, .inl (List.mem_singleton.1 hgd)⟩
  cases h with
  | stop v => cases hr
  | leave hd | start hd =>
    rcases List.mem_pair.1 hr with rfl | rfl
    · exact .inr (List.mem_singleton.1 hg)
    · exact .inl (hjoint _ hd hg)
  | choose hq hd =>
    rcases List.mem_pair.1 hr with rfl | rfl
    · exact .inl (hjoint _ hq hg)
    · exact .inl (hjoint _ hd hg)
  | again hk hm =>
    rcases List.mem_pair.1 hr with rfl | rfl
    · exact .inr (List.mem_singleton.1 hg)
    · cases hg
  | round hb ht =>
    rcases List.mem_cons.1 hr with rfl | hr
    · exact .inl (hjoint _ hb hg)
    · obtain rfl := ht r (Option.mem_toList.1 hr)
      exact .inl (hjoint _ hb hg)

/-- A joint has the reference for a part. -/
def Hangs (s : Store V K) (joints : List NodeId) (r : Ref) : Prop :=
  ∃ x ∈ joints, ∃ shape, s.nodes[x]? = some shape ∧ r ∈ shape.heldByNode

theorem hangs (h : s.Sugared i u joints j) :
    Hangs s joints (.node i) ∧ ∀ x ∈ joints, x = j ∨ Hangs s joints (.node x) := by
  induction h with
  | @optional j d v hj hd =>
    simp only [List.forall_mem_cons]
    exact ⟨⟨j, by simp, _, hj, by simp [Shape.heldByNode]⟩, .inl trivial,
      .inr ⟨j, by simp, _, hj, by simp [Shape.heldByNode]⟩, by simp⟩
  | @many m b q d k v t hm hb hq hd hk =>
    simp only [List.forall_mem_cons]
    exact ⟨⟨q, by simp, _, hq, by simp [Shape.heldByNode]⟩, .inl trivial,
      .inr ⟨m, by simp, _, hm, by simp [Shape.heldByNode]⟩, .inr ⟨b, by simp, _, hb, by simp [Shape.heldByNode]⟩,
      .inr ⟨b, by simp, _, hb, by simp [Shape.heldByNode]⟩, by simp⟩
  | @many1 j m joints hj hmany ih =>
    have hstart : ∀ r ∈ [Ref.node i, .node m], Hangs s (j :: joints) r := fun r hr => ⟨j, by simp, _, hj, hr⟩
    refine ⟨hstart _ (by simp), List.forall_mem_cons.2 ⟨.inl rfl, fun x hx => .inr ?_⟩⟩
    rcases ih.2 x hx with rfl | ⟨y, hy, hrest⟩
    · exact hstart _ (by simp)
    · exact ⟨y, List.mem_cons_of_mem _ hy, hrest⟩

section

variable (h : s.Sugared i u joints j) (hbodies : s.KeepsBodies)
include h hbodies

theorem exists_joint : ∀ x ∈ joints, ∃ shape, s.nodes[x]? = some shape ∧ Joint s i joints shape := by
  induction h with
  | optional hj hd =>
    simp only [List.forall_mem_cons]
    exact ⟨⟨_, hj, .leave (by simp)⟩, ⟨_, hd, .stop _⟩, by simp⟩
  | @many m b q d k v t hm hb hq hd hk =>
    have ht : ∀ r, t = some r → r = .node b := fun r hr => hbodies m (.node b) r (hr ▸ hm)
    simp only [List.forall_mem_cons]
    exact ⟨⟨_, hm, .round (by simp) ht⟩, ⟨_, hb, .choose (by simp) (by simp)⟩, ⟨_, hq, .again hk (by simp)⟩,
      ⟨_, hd, .stop _⟩, by simp⟩
  | many1 hj hmany ih =>
    refine List.forall_mem_cons.2 ⟨⟨_, hj, .start (List.mem_cons_of_mem _ hmany.mem_joints)⟩, fun x hx => ?_⟩
    obtain ⟨shape, hn, hshape⟩ := ih x hx
    exact ⟨shape, hn, hshape.mono (List.subset_cons_self ..)⟩

theorem leads {x : Nat} (hx : x ∈ joints) {r : Ref} (hr : r ∈ s.below x) :
    r = .node i ∨ ∃ d ∈ joints, s.nodeOf? r = some d := by
  obtain ⟨shape, hn, hshape⟩ := h.exists_joint hbodies x hx
  simp only [Store.below, hn] at hr
  cases hshape with
  | stop v => cases hr
  | leave hd | start hd =>
    rcases List.mem_pair.1 hr with rfl | rfl
    · exact .inl rfl
    · exact .inr ⟨_, hd, rfl⟩
  | choose hq hd =>
    rcases List.mem_pair.1 hr with rfl | rfl
    · exact .inr ⟨_, hq, rfl⟩
    · exact .inr ⟨_, hd, rfl⟩
  | again hk hm =>
    rcases List.mem_pair.1 hr with rfl | rfl
    · exact .inl rfl
    · exact .inr ⟨_, hm, hk⟩
  | round hb ht =>
    obtain rfl := ht r (Option.mem_toList.1 hr)
    exact .inr ⟨_, hb, rfl⟩

/-- The joints hold each other and `i`. -/
theorem wraps : s.Wraps [.node j] joints (· = .node i) where
  enters g hg := .inl ⟨j, h.mem_joints, .inl (List.mem_singleton.1 hg)⟩
  leaves g g' hg hgg' := by
    obtain ⟨x, hx, hgx⟩ := hg
    obtain ⟨shape, hn, hshape⟩ := h.exists_joint hbodies x hx
    rcases hgx with rfl | rfl
    · simp only [heldBy, hn, List.mem_cons, List.mem_flatMap] at hgg'
      rcases hgg' with rfl | ⟨r, hr, hrg⟩
      · exact .inl ⟨x, hx, .inr rfl⟩
      · exact hshape.held hr hrg
    · have hparts : ∀ {l r : Ref}, shape.heldByNode = [l, r] → g' ∈ l.held ++ r.held →
          OfJoint joints g' ∨ g' = .node i := fun {l r} hlr hg' => by
        rcases List.mem_append.1 hg' with hg' | hg'
        · exact hshape.held (by simp [hlr]) hg'
        · exact hshape.held (by simp [hlr]) hg'
      simp only [heldBy, hn] at hgg'
      cases hshape with
      | stop v => cases hgg'
      | leave hd | choose hq hd | start hm | again hk hm => exact hparts rfl hgg'
      | @round b t hb ht =>
        cases t with
        | none => cases hgg'
        | some r =>
          obtain rfl := ht r rfl
          exact .inl ⟨b, hb, .inr (List.mem_singleton.1 hgg')⟩
  keeps g hg := by
    have hheld : ∀ {x : Nat}, Hangs s joints (.node x) → ∃ g, OfJoint joints g ∧ .node x ∈ s.heldBy g := by
      rintro x ⟨y, hy, shape, hn, hx⟩
      refine ⟨.node y, ⟨y, hy, .inl rfl⟩, ?_⟩
      simp only [heldBy, hn]
      exact List.mem_cons_of_mem _ (List.mem_flatMap.2 ⟨_, hx, List.mem_cons_self⟩)
    rcases hg with ⟨x, hx, rfl | rfl⟩ | rfl
    · rcases h.hangs.2 x hx with rfl | hx
      · exact .inl List.mem_cons_self
      · exact .inr (hheld hx)
    · obtain ⟨shape, hn, -⟩ := h.exists_joint hbodies x hx
      exact .inr ⟨.node x, ⟨x, hx, .inl rfl⟩, by simp [heldBy, hn]⟩
    · exact .inr (hheld h.hangs.1)

/-- What is not bound among the joints has a body, and its chain of targets, once bound, ends there. -/
theorem known {x : Nat} (hx : x ∈ joints) {o : Origin V K} {t : Option Ref}
    (hn : s.nodes[x]? = some (Shape.deferred o t)) : ∃ b, o = .known (.node b) := by
  obtain ⟨shape, hn', hshape⟩ := h.exists_joint hbodies x hx
  cases hn.symm.trans hn'
  cases hshape
  exact ⟨_, rfl⟩

theorem not_transform {x m : Nat} {f : Transformation V} (hx : x ∈ joints) :
    s.productions x ≠ some (.transform f m) := by
  obtain ⟨shape, hn, hshape⟩ := h.exists_joint hbodies x hx
  intro hp
  simp only [productions, hn] at hp
  cases hshape with
  | stop v => cases hp
  | leave hd | choose hq hd | start hm | again hk hm => simp [Option.bind_eq_some_iff] at hp
  | @round b t hb ht => cases t <;> simp at hp

/-- Once all of it is there, the productions say so. -/
theorem repeats (hc : Complete s.productions j) : Repeats s.productions i u j := by
  have hstop : ∀ {d : Nat} {v : V}, s.nodes[d]? = some (.success v) → s.productions d = some (.success v) :=
    fun hd => by simp only [productions, hd]
  induction h with
  | optional hj hd => exact .optional (production_disjunction hj rfl rfl) (hstop hd)
  | @many m b q d k v t hm hb hq hd hk =>
    exact .many (hbodies.production hm (hc m .refl)) (production_disjunction hb rfl rfl) (production_sequence hq rfl hk)
      (hstop hd)
  | many1 hj hmany ih =>
    have hp := production_sequence hj rfl rfl
    exact .many1 hp (ih (hc.part hp (by simp [Production.parts])))

/-- The chain of targets from a joint is no longer than from a deferred node to its body. -/
theorem ends : ∀ x ∈ joints, Ends s.productions x := by
  have hsolid : ∀ {x : Nat} {shape : Shape V K}, s.nodes[x]? = some shape → (∀ o t, shape ≠ .deferred o t) →
      ∀ y, ¬Defers s.productions x y := fun {x shape} hn hshape y => by
    refine not_defers_of_target ?_
    simp only [target?, hn]
    split
    · rename_i o t ho
      exact absurd (Option.some.inj ho) (hshape o t)
    · rfl
  induction h with
  | optional hj hd =>
    exact List.forall_mem_cons.2 ⟨⟨_, .refl, hsolid hj (by simp)⟩,
      List.forall_mem_cons.2 ⟨⟨_, .refl, hsolid hd (by simp)⟩, by simp⟩⟩
  | @many m b q d k v t hm hb hq hd hk =>
    have hbody : Ends s.productions b := ⟨b, .refl, hsolid hb (by simp)⟩
    have hstart : Ends s.productions m := by
      cases t with
      | none => exact ⟨m, .refl, fun y => not_defers_of_target (target?_of_deferred hm)⟩
      | some r =>
        obtain rfl := hbodies m (.node b) r hm
        exact hbody.of_stands (.single (defers_of_target (target?_of_deferred hm) rfl))
    exact List.forall_mem_cons.2 ⟨hstart, List.forall_mem_cons.2 ⟨hbody,
      List.forall_mem_cons.2 ⟨⟨_, .refl, hsolid hq (by simp)⟩,
        List.forall_mem_cons.2 ⟨⟨_, .refl, hsolid hd (by simp)⟩, by simp⟩⟩⟩⟩
  | many1 hj hmany ih => exact List.forall_mem_cons.2 ⟨⟨_, .refl, hsolid hj (by simp)⟩, ih⟩

/-- Below the grammar with sugar there are the joints and what is below `i`. -/
theorem joint_or_below (hc : Complete s.productions i) (hn : s.Reaches (.node j) n) :
    n ∈ joints ∨ Below s.productions i n := by
  induction hn with
  | root hr =>
    cases hr
    exact .inl h.mem_joints
  | part _ hr hd ih =>
    rcases ih with hx | hx
    · rcases h.leads hbodies hx hr with rfl | ⟨d, hjoint, hd'⟩
      · cases hd
        exact .inr .refl
      · cases hd'.symm.trans hd
        exact .inl hjoint
    · exact .inr (below_of_ref hc hx hr hd)

end

end Sugared
end Nodes

section Readiness

variable [Kind K] {s t : Store V K} {l l' : Liveness} {held : List Ref} {r : Ref} {e : Fault}

/-- A node whose production is known is bound, if it can be at all. -/
theorem Grows.target?_ne_none {o : Origin V K} {x : Option Ref} (hs : s.Grows t) (hc : (s.productions n).isSome)
    (hn : t.nodes[n]? = some (.deferred o x)) : s.target? n ≠ none := by
  intro hfree
  cases hshape : s.nodes[n]? with
  | none => simp [productions, hshape] at hc
  | some shape =>
    rcases hs.nodes n shape hshape with hn' | ⟨o', t', rfl, -⟩
    · cases hn'.symm.trans hn
      obtain rfl : x = none := (target?_of_deferred hshape).symm.trans hfree
      simp [productions, hshape] at hc
    · simp [productions, hshape] at hc

variable [Value V]

omit [Value V] in
theorem Ready.part {x : Nat} (h : s.Ready l x) (hb : Below s.productions x i) : s.Ready l i :=
  ⟨h.complete.below hb, fun n hn => h.alive n (hb.trans hn), fun n hn => h.resolves n (hb.trans hn),
    fun n f m hn => h.settled n f m (hb.trans hn)⟩

omit [Value V] in
/-- What is ready stays so while what is below stays alive. -/
theorem Ready.relive (h : s.Ready l i)
    (hl : ∀ d, Below s.productions i d → l.isAlive d = true → l'.isAlive d = true) : s.Ready l' i := by
  refine ⟨h.complete, fun n hn r hr => ?_, h.resolves, h.settled⟩
  obtain ⟨d, hd⟩ := Option.isSome_iff_exists.1 (h.alive n hn r hr)
  cases r with
  | node x => rfl
  | self k =>
    obtain ⟨hk, halive⟩ := Option.filter_eq_some_iff.1 hd
    have hb := below_of_ref h.complete hn hr hk
    exact Option.isSome_of_eq_some (Option.filter_eq_some_iff.2 ⟨hk, hl d hb halive⟩)

section

variable (hj : t.Sugared i u joints j) (ht : t.Orderly) (h : s.Ready (s.liveness (.node j :: held)) i)
  (hup : s.Upholds t)
include hj ht h hup

/-- Below a grammar with sugar, the inner one being ready, nothing but joints is bound. -/
theorem Sugared.not_woken : ¬Woken s t (.node j) := by
  rintro ⟨n, e, sc, x, hreach, hn, hfree⟩
  rcases hj.joint_or_below ht.bodies (h.complete.extend hup.extends) hreach with hx | hb
  · obtain ⟨b, hb⟩ := hj.known ht.bodies hx hn
    cases hb
  · have hb' := h.complete.below_of_extend hup.extends hb
    exact Grows.target?_ne_none hup.toGrows (h.complete n hb') hn hfree

variable (hp : Passes (.node j) s t)
include hp

theorem Sugared.ready : t.Ready (t.liveness (.node j :: held)) i := by
  have hnames := hp.names.resolve_right (hj.not_woken ht h hup)
  exact h.uphold hup fun k d _ hd => hup.toGrows.isAlive (fun r hr => by rwa [hnames]) hd

/-- What is met on the way is alive. -/
theorem Sugared.alive (hr : t.Visits (.node j) r) : (t.deref? (t.liveness (.node j :: held)) r).isSome := by
  have hready := hj.ready ht h hup hp
  rcases hr with rfl | ⟨x, hx, hr⟩
  · rfl
  · rcases hj.joint_or_below ht.bodies hready.complete hx with hx | hb
    · rcases hj.leads ht.bodies hx hr with rfl | ⟨d, hd, hrd⟩
      · rfl
      · cases r with
        | node y => rfl
        | self k =>
          have halive : (t.liveness (.node j :: held)).isAlive d = true :=
            (hj.wraps ht.bodies).isAlive_joint hd (hj.lt d hd)
          exact Option.isSome_of_eq_some (Option.filter_eq_some_iff.2 ⟨hrd, halive⟩)
    · exact hready.alive x hb r hr

/-- No chain of targets comes back. -/
theorem Sugared.ends_of_reaches (hn : t.Reaches (.node j) n) : Ends t.productions n := by
  have hready := hj.ready ht h hup hp
  rcases hj.joint_or_below ht.bodies hready.complete hn with hx | hb
  · exact hj.ends ht.bodies n hx
  · exact hready.resolves n hb

/-- Nothing stands against realizing. -/
theorem Sugared.not_hindered : ¬Hindered s t (.node j :: held) (.node j) e := by
  have hready := hj.ready ht h hup hp
  have hbody : ∀ {n : Nat} {o : Origin V K}, t.Reaches (.node j) n → t.nodes[n]? = some (.deferred o none) →
      ∃ b, o = .known (.node b) := fun {n o} hn hi => by
    rcases hj.joint_or_below ht.bodies hready.complete hn with hx | hb
    · exact hj.known ht.bodies hx hi
    · exact absurd (target?_of_deferred hi) (Grows.target?_ne_none (.refl t) (hready.complete n hb) hi)
  intro hhindered
  cases hhindered with
  | dead hr hdead =>
    have halive := hj.alive ht h hup hp hr
    rw [hdead] at halive
    cases halive
  | target hn hi hu hproduce hdead =>
    obtain ⟨b, rfl⟩ := hbody hn hi
    cases hproduce
    cases hdead
  | thunk hn hi hu hproduce =>
    obtain ⟨b, rfl⟩ := hbody hn hi
    cases hproduce

end

/-- A ready grammar realizes with sugar, and is ready then. -/
theorem Sugared.realizes (hs : s.Orderly) (hj : s.Sugared i u joints j)
    (h : s.Ready (s.liveness (.node j :: held)) i) :
    ∃ t, realize held (.node j) s = .ok () t ∧ t.Ready (t.liveness (.node j :: held)) j := by
  have hconcludes := realize_concludes hs.valid hs.remembers hs.tied held hj.hasRef
  have hevolves := realize_evolves hs.valid held hj.hasRef
  cases hg : realize held (.node j) s with
  | ok x t =>
    rw [hg] at hconcludes
    obtain ⟨hp, -⟩ := hconcludes
    obtain ⟨h', i', hi'⟩ := hevolves.of_ok hg
    have hup := h'.upholds hs.remembers
    have ht := orderly_of_passes hs h' hp
    have hjt := hj.grow hup.toGrows
    obtain rfl : j = i' := Option.some.inj hi'.1
    have hready := hjt.ready ht h hup hp
    refine ⟨t, rfl, hi'.2, fun n hn r hr => ?_, fun n hn => ?_, fun n f m hn hpn => ?_⟩
    · exact hjt.alive ht h hup hp (.inr ⟨n, hi'.reaches_iff.2 hn, hr⟩)
    · exact hjt.ends_of_reaches ht h hup hp (hi'.reaches_iff.2 hn)
    · rcases hjt.joint_or_below ht.bodies hready.complete (hi'.reaches_iff.2 hn) with hx | hb
      · exact absurd hpn (hjt.not_transform ht.bodies hx)
      · exact hready.settled n f m hb hpn
  | error e t =>
    rw [hg] at hconcludes
    obtain ⟨hp, hwhy, -⟩ := hconcludes
    have h' := hevolves.of_error hg
    have hup := h'.upholds hs.remembers
    have ht := orderly_of_passes hs h' hp
    have hjt := hj.grow hup.toGrows
    rcases hwhy with ⟨n, j', -, hn, -, hc⟩ | hhindered
    · exact absurd hc (hjt.ends_of_reaches ht h hup hp hn).not_circles
    · exact absurd hhindered (hjt.not_hindered ht h hup hp)

/-- The grammar `i` itself, or with some sugar. -/
inductive Kin (s : Store V K) (i : NodeId) : List NodeId → NodeId → Prop
  | plain : Kin s i [] i
  | sugared {u : Sugar} {joints : List NodeId} {j : NodeId} : s.Sugared i u joints j → Kin s i joints j

omit [Value V] in
theorem Kin.hasRef (h : s.Kin i joints j) (hi : s.HasRef (.node i)) : s.HasRef (.node j) := by
  cases h with
  | plain => exact hi
  | sugared hj => exact hj.hasRef

omit [Value V] in
/-- If a grammar with sugar is ready, so is the inner one, provided that nothing of the sugar is below it. -/
theorem Kin.inner_ready (hj : s.Kin i joints j) (hbodies : s.KeepsBodies) (h : s.Ready (s.liveness (.node j :: held)) j)
    (hself : ∀ x ∈ joints, ¬Below s.productions i x) : s.Ready (s.liveness (.node i :: held)) i := by
  cases hj with
  | plain => exact h
  | sugared hj =>
    refine (h.part (hj.repeats hbodies h.complete).inner).relive fun d hd halive => ?_
    exact Wraps.isAlive (.node j) (.node i) (hj.wraps hbodies) (.self s i) (fun hx => hself d hx hd) halive

/-- If a grammar is ready, it realizes with and without sugar, and is ready then. -/
theorem Kin.realizes (hs : s.Orderly) (hj : s.Kin i joints j) (h : s.Ready (s.liveness (.node i :: held)) i) :
    ∃ t, realize held (.node j) s = .ok () t ∧ t.Ready (t.liveness (.node j :: held)) j := by
  cases hj with
  | plain => exact ⟨s, realize_idle h.complete rfl h.alive, h⟩
  | sugared hj =>
    have hwraps := hj.wraps hs.bodies
    exact hj.realizes hs (h.relive fun d _ halive =>
      Wraps.isAlive (.node i) (.node j) (.self s i) hwraps (by simp) halive)

end Readiness
end Store

section Making

variable [Kind K] {s s' : Store V K} {r : Ref} {v : V} {held : List Ref} {sc : Scope} {e : Expr V K}

theorem addMany_sugared (h : (addMany (.node i) v : Work V K Ref) s = .ok r s') :
    ∃ m joints, r = .node m ∧ s'.Sugared i .many joints m := by
  cases h
  refine ⟨s.nodes.size + 3, _, by simp, .many (b := s.nodes.size + 2) (q := s.nodes.size) (d := s.nodes.size + 1)
    (k := s.knots.size) (v := v) (t := none) ?_ ?_ ?_ ?_ ?_⟩
  · grind
  · grind
  · grind
  · grind
  · simp [nodeOf?]

/-- What the expression with sugar makes is what the expression makes, with sugar. -/
theorem evaluate_sugared (h : (u.expr e v).evaluate held sc s = .ok r s') : ∃ a s₁, e.evaluate held sc s = .ok a s₁ ∧
    ∀ i, a = .node i → ∃ joints j, r = .node j ∧ s'.Sugared i u joints j := by
  cases u with
  | optional =>
    obtain ⟨a, s₁, he, h⟩ := bind_eq_ok h
    obtain ⟨d, s₂, hd, h⟩ := bind_eq_ok h
    refine ⟨a, s₁, he, fun i hi => ?_⟩
    subst hi
    cases hd
    cases h
    exact ⟨_, _, rfl, .optional (d := s₁.nodes.size) (v := v) (by grind) (by grind)⟩
  | many =>
    obtain ⟨a, s₁, he, h⟩ := bind_eq_ok h
    refine ⟨a, s₁, he, fun i hi => ?_⟩
    subst hi
    obtain ⟨m, joints, hm, hmany⟩ := addMany_sugared h
    exact ⟨joints, m, hm, hmany⟩
  | many1 =>
    obtain ⟨a, s₁, he, h⟩ := bind_eq_ok h
    obtain ⟨m, s₂, hm, h⟩ := bind_eq_ok h
    refine ⟨a, s₁, he, fun i hi => ?_⟩
    subst hi
    obtain ⟨m, joints, rfl, hmany⟩ := addMany_sugared hm
    cases h
    have hgrows : s₂.Grows { s₂ with nodes := s₂.nodes.push (.sequence (.node i) (.node m)) } :=
      ⟨fun x shape hx => .inl (by grind), fun _ _ hk => hk⟩
    exact ⟨_, _, rfl, .many1 (by grind) (hmany.grow hgrows)⟩

end Making

end Grammar
end Predictive
