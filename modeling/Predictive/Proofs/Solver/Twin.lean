import Predictive.Proofs.Solver.Evaluation

/-! Two families of one shape with related values: readings take the same way through both, and yield related values. -/
namespace Predictive

/-- Both results are values, and related, or both are the same error. -/
inductive Alike {ε α β : Type} (R : α → β → Prop) : Except ε α → Except ε β → Prop
  | ok {a b} : R a b → Alike R (.ok a) (.ok b)
  | error (e : ε) : Alike R (.error e) (.error e)

namespace Alike

variable {ε α β γ δ : Type} {R : α → β → Prop} {S : γ → δ → Prop} {r : Except ε α} {r' : Except ε β}

theorem of_refl {R : α → α → Prop} (hR : ∀ a, R a a) (r : Except ε α) : Alike R r r := by
  cases r with
  | ok a => exact .ok (hR a)
  | error e => exact .error e

theorem refl (r : Except ε α) : Alike Eq r r := of_refl Eq.refl r

theorem symm {R : α → α → Prop} (hR : ∀ {a b}, R a b → R b a) {r r' : Except ε α} (h : Alike R r r') :
    Alike R r' r := by
  cases h with
  | ok hab => exact .ok (hR hab)
  | error e => exact .error e

theorem eq {r r' : Except ε α} (h : Alike Eq r r') : r = r' := by
  cases h with
  | ok hab => rw [hab]
  | error e => rfl

theorem exists_ok {a : α} (h : Alike R (.ok a) r') : ∃ b, r' = .ok b ∧ R a b := by
  cases h with
  | ok hab => exact ⟨_, rfl, hab⟩

theorem bind {w : α → Except ε γ} {w' : β → Except ε δ} (h : Alike R r r')
    (hw : ∀ a b, R a b → Alike S (w a) (w' b)) : Alike S (r.bind w) (r'.bind w') := by
  cases h with
  | ok hab => exact hw _ _ hab
  | error e => exact .error e

theorem map {w : α → γ} {w' : β → δ} (h : Alike R r r') (hw : ∀ a b, R a b → S (w a) (w' b)) :
    Alike S (r.map w) (r'.map w') := by
  cases h with
  | ok hab => exact .ok (hw _ _ hab)
  | error e => exact .error e

end Alike

/-- Related values, with the same thing beside them. -/
structure Beside {α β γ : Type} (R : α → β → Prop) (x : α × γ) (x' : β × γ) : Prop where
  left : R x.1 x'.1
  right : x'.2 = x.2

namespace Solver

variable {φ : Type} {τ τ' : φ → Type} {ε α β γ δ : Type}

section Shapes

variable (R : ∀ f, τ f → τ' f → Prop)

/-- Whatever related values the queries read, they go on alike. -/
inductive Query.Twin (S : α → β → Prop) : Query τ ε α → Query τ' ε β → Prop
  | done {a b} : S a b → Twin S (.done a) (.done b)
  | fail (e : ε) : Twin S (.fail e) (.fail e)
  | read (p : Nat) (f : φ) {next next'} : (∀ v v', R f v v' → Twin S (next v) (next' v')) →
      Twin S (.read p f next) (.read p f next')

inductive Definition.Twin (f : φ) : Definition τ ε f → Definition τ' ε f → Prop
  | constant {v v'} : R f v v' → Twin f (.constant v) (.constant v')
  | rule {q q'} : q.Twin R (R f) q' → Twin f (.rule q) (.rule q')
  | deferred {v v'} (target : Option Nat) : R f v v' → Twin f (.deferred v target) (.deferred v' target)

structure Family.Twin (F : Family τ ε) (F' : Family τ' ε) : Prop where
  size : F'.size = F.size
  definition : ∀ p f, (F.definition p f).Twin R f (F'.definition p f)

structure Memo.Twin (S : α → β → Prop) (m : Memo α) (m' : Memo β) : Prop where
  value : S m.value m'.value
  epoch : m'.epoch = m.epoch
  active : m'.active = m.active
  done : m'.done = m.done
  settled : m'.settled = m.settled

/-- The relation holds where approximations start, and does not tell apart values that say the same. -/
structure Respects [∀ f, Fact (τ f)] [∀ f, Fact (τ' f)] : Prop where
  bottom : ∀ f, R f Fact.bottom Fact.bottom
  agrees : ∀ f {a b a' b'}, R f a a' → R f b b' → Fact.agrees a' b' = Fact.agrees a b

variable [Ord φ] [Std.TransOrd φ] [Std.LawfulEqOrd φ] [∀ f, Fact (τ f)] [∀ f, Fact (τ' f)]

def Memos.Twin (m : Memos τ) (m' : Memos τ') : Prop := ∀ c, (Family.memo m c).Twin (R c.fact) (Family.memo m' c)

structure Pass.Twin (s : Pass τ) (s' : Pass τ') : Prop where
  memos : Memos.Twin R s.memos s'.memos
  changed : s'.changed = s.changed
  touched : s'.touched = s.touched
  runs : s'.runs = s.runs

structure Book.Twin (b : Book τ) (b' : Book τ') : Prop where
  memos : Memos.Twin R b.memos b'.memos
  epoch : b'.epoch = b.epoch

end Shapes

variable {R : ∀ f, τ f → τ' f → Prop} {S : α → β → Prop} {F : Family τ ε} {F' : Family τ' ε} {c : Cell φ} {f : φ}
  {n p epoch number : Nat}

theorem Query.Twin.bind {S' : γ → δ → Prop} {q : Query τ ε α} {q' : Query τ' ε β} {k : α → Query τ ε γ}
    {k' : β → Query τ' ε δ} (h : q.Twin R S q') (hk : ∀ a b, S a b → (k a).Twin R S' (k' b)) :
    (q >>= k).Twin R S' (q' >>= k') := by
  induction h with
  | done hab => exact hk _ _ hab
  | fail e => exact .fail e
  | read p f _ ih => exact .read p f ih

theorem Query.Twin.bind_same {S : γ → δ → Prop} {q : Query τ ε α} {q' : Query τ' ε α} {k : α → Query τ ε γ}
    {k' : α → Query τ' ε δ} (h : q.Twin R Eq q') (hk : ∀ a, (k a).Twin R S (k' a)) :
    (q >>= k).Twin R S (q' >>= k') :=
  h.bind fun a _ hab => hab ▸ hk a

theorem Query.Twin.look (p : Nat) (f : φ) : (Query.look p f : Query τ ε (τ f)).Twin R (R f) (Query.look p f) :=
  .read p f fun _ _ => .done

namespace Family.Twin

variable (h : F.Twin R F')
include h

theorem follow (n p : Nat) : F'.follow f n p = F.follow f n p := by
  induction n generalizing p with
  | zero => rfl
  | succ n ih =>
    have hd := h.definition p f
    rw [Family.follow, Family.follow]
    generalize F.definition p f = d, F'.definition p f = d' at hd
    cases hd with
    | constant | rule => rfl
    | deferred target =>
      cases target with
      | none => rfl
      | some q => exact ih q

theorem resolve (p : Nat) (f : φ) : F'.resolve p f = F.resolve p f := by
  rw [Family.resolve, Family.resolve, h.size, h.follow]

end Family.Twin

variable [Ord φ] [Std.TransOrd φ] [Std.LawfulEqOrd φ] [∀ f, Fact (τ f)] [∀ f, Fact (τ' f)]
  {m : Memos τ} {m' : Memos τ'} {s : Pass τ} {s' : Pass τ'} {b : Book τ} {b' : Book τ'}

theorem Memo.Twin.isFinished {k : Memo α} {k' : Memo β} (h : k.Twin S k') (epoch : Nat) :
    k'.isFinished epoch = k.isFinished epoch := by
  rw [Memo.isFinished, Memo.isFinished, h.settled, h.epoch, h.done]

theorem Memo.Twin.isReady {k : Memo α} {k' : Memo β} (h : k.Twin S k') (epoch : Nat) :
    k'.isReady epoch = k.isReady epoch := by
  rw [Memo.isReady, Memo.isReady, h.settled, h.epoch, h.done, h.active]

theorem Memos.Twin.insert (h : Memos.Twin R m m') {k : Memo (τ c.fact)} {k' : Memo (τ' c.fact)}
    (hk : k.Twin (R c.fact) k') : Memos.Twin R (m.insert c k) (m'.insert c k') := by
  intro d
  by_cases hd : c = d
  · subst hd
    rwa [Family.memo_insert_self, Family.memo_insert_self]
  · rw [Family.memo_insert_of_ne _ _ hd, Family.memo_insert_of_ne _ _ hd]
    exact h d

theorem Memos.Twin.empty (hR : Respects R) : Memos.Twin R ∅ ∅ := by
  intro c
  rw [Family.memo_empty, Family.memo_empty]
  exact ⟨hR.bottom _, rfl, rfl, rfl, rfl⟩

theorem Memos.Twin.settle (h : Memos.Twin R m m') (cells : List (Cell φ)) :
    Memos.Twin R (settle cells m) (settle cells m') := by
  induction cells generalizing m m' with
  | nil => exact h
  | cons c cells ih => exact ih (h.insert ⟨(h c).value, (h c).epoch, (h c).active, (h c).done, rfl⟩)

theorem Pass.Twin.start (h : s.Twin R s') (epoch number : Nat) (c : Cell φ) :
    (s.start epoch number c).Twin R (s'.start epoch number c) := by
  have hc := h.memos c
  refine ⟨h.memos.insert ⟨hc.value, rfl, rfl, rfl, hc.settled⟩, h.changed, ?_, ?_⟩
  · simp only [Pass.start, hc.epoch, h.touched]
  · simp only [Pass.start, hc.epoch, h.runs]

theorem Pass.Twin.finish (hR : Respects R) (h : s.Twin R s') {v : τ c.fact} {v' : τ' c.fact} (hv : R c.fact v v') :
    (s.finish c v).Twin R (s'.finish c v') := by
  have hc := h.memos c
  refine ⟨h.memos.insert ⟨hv, hc.epoch, rfl, rfl, hc.settled⟩, ?_, h.touched, h.runs⟩
  simp only [Pass.finish, h.changed, hR.agrees c.fact hv hc.value]

namespace Family.Twin

variable (h : F.Twin R F')
include h

omit [Std.TransOrd φ] in
theorem view (hm : Memos.Twin R m m') (epoch p : Nat) (f : φ) :
    Alike (Beside (R f)) (F.view m epoch p f) (F'.view m' epoch p f) := by
  rw [Family.view, Family.view, h.resolve]
  cases F.resolve p f with
  | none => exact .error _
  | some q =>
    have hd := h.definition q f
    dsimp only
    generalize F.definition q f = d, F'.definition q f = d' at hd
    have hknown := hm ⟨q, f⟩
    cases hd with
    | constant hv => exact .ok ⟨hv, rfl⟩
    | deferred _ hv => exact .ok ⟨hv, rfl⟩
    | rule => exact .ok ⟨hknown.value, by rw [hknown.isReady]⟩

omit [Std.TransOrd φ] in
theorem eval (hm : Memos.Twin R m m') (epoch : Nat) {q : Query τ ε α} {q' : Query τ' ε β} (hq : q.Twin R S q') :
    Alike (Beside S) (F.eval m epoch q) (F'.eval m' epoch q') := by
  induction hq with
  | done hab => exact .ok ⟨hab, rfl⟩
  | fail e => exact .error _
  | read p f _ ih =>
    have hview := h.view hm epoch p f
    rw [Family.eval, Family.eval]
    generalize F.view m epoch p f = r, F'.view m' epoch p f = r' at hview
    cases hview with
    | error e => exact .error e
    | @ok x x' hx =>
      obtain ⟨hv, hmissing⟩ := hx
      have hrest := ih _ _ hv
      dsimp only
      generalize F.eval m epoch _ = r, F'.eval m' epoch _ = r' at hrest
      cases hrest with
      | error e => exact .error e
      | ok hy => exact .ok ⟨hy.left, by rw [hmissing, hy.right]⟩

omit [Std.TransOrd φ] in
theorem isFinished (hs : s.Twin R s') (epoch : Nat) : F'.isFinished epoch s' = F.isFinished epoch s := by
  funext c
  have hd := h.definition c.place c.fact
  rw [Family.isFinished, Family.isFinished]
  generalize F.definition c.place c.fact = d, F'.definition c.place c.fact = d' at hd
  cases hd with
  | constant | deferred => rfl
  | rule => exact (hs.memos c).isFinished epoch

variable (hR : Respects R)
include hR

theorem run (hs : s.Twin R s') (epoch number : Nat) (c : Cell φ) :
    (F'.run epoch number c s').1 = (F.run epoch number c s).1 ∧
      (F.run epoch number c s).2.Twin R (F'.run epoch number c s').2 := by
  have hd := h.definition c.place c.fact
  rw [Family.run, Family.run]
  generalize F.definition c.place c.fact = d, F'.definition c.place c.fact = d' at hd
  cases hd with
  | constant | deferred => exact ⟨rfl, hs⟩
  | rule hq =>
    have hstart := hs.start epoch number c
    have heval := h.eval hstart.memos epoch hq
    dsimp only
    generalize F.eval (s.start epoch number c).memos epoch _ = r, F'.eval _ epoch _ = r' at heval
    cases heval with
    | error e => exact ⟨rfl, hstart⟩
    | @ok x x' hx =>
      obtain ⟨v, missing⟩ := x
      obtain ⟨v', missing'⟩ := x'
      obtain ⟨hv, hmissing : missing' = missing⟩ := hx
      subst hmissing
      cases missing' with
      | nil => exact ⟨rfl, hstart.finish hR hv⟩
      | cons d ds => exact ⟨rfl, hstart⟩

theorem work (epoch number n : Nat) (stack : List (Cell φ)) (hs : s.Twin R s') :
    (F'.work epoch number n stack s').1 = (F.work epoch number n stack s).1 ∧
      (F.work epoch number n stack s).2.Twin R (F'.work epoch number n stack s').2 := by
  induction n generalizing stack s s' with
  | zero =>
    unfold Family.work
    rw [h.isFinished hs]
    cases stack.dropWhile (F.isFinished epoch s) <;> exact ⟨rfl, hs⟩
  | succ n ih =>
    unfold Family.work
    rw [h.isFinished hs]
    cases stack.dropWhile (F.isFinished epoch s) with
    | nil => exact ⟨rfl, hs⟩
    | cons c rest =>
      obtain ⟨hresult, hrun⟩ := h.run hR hs epoch number c
      dsimp only
      generalize F.run epoch number c s = x, F'.run epoch number c s' = x' at hresult hrun
      obtain ⟨result, t⟩ := x
      obtain ⟨result', t'⟩ := x'
      obtain rfl : result' = result := hresult
      rcases result' with e | _ | ⟨d, ds⟩
      · exact ⟨rfl, hrun⟩
      · exact ih rest hrun
      · exact ih _ hrun

theorem passes (root : Cell φ) (n made : Nat) (runs : List (Run φ)) (hb : b.Twin R b') :
    (F'.passes root n made runs b').1 = (F.passes root n made runs b).1 ∧
      (F.passes root n made runs b).2.Twin R (F'.passes root n made runs b').2 := by
  induction n generalizing made runs b b' with
  | zero => exact ⟨rfl, hb⟩
  | succ n ih =>
    unfold Family.passes
    rw [h.size, hb.epoch]
    have hpass : Pass.Twin R { memos := b.memos, runs } { memos := b'.memos, runs } := ⟨hb.memos, rfl, rfl, rfl⟩
    obtain ⟨hresult, hwork⟩ := h.work hR (b.epoch + 1) (made + 1) (2 * F.size) [root] hpass
    dsimp only
    generalize F.work (b.epoch + 1) (made + 1) (2 * F.size) [root] _ = x, F'.work _ _ _ [root] _ = x' at hresult hwork
    obtain ⟨result, t⟩ := x
    obtain ⟨result', t'⟩ := x'
    obtain rfl : result' = result := hresult
    cases result' with
    | error e => exact ⟨rfl, hwork.memos, rfl⟩
    | ok =>
      dsimp only at hwork ⊢
      rw [hwork.changed, hwork.touched, hwork.runs]
      split
      · exact ih (made + 1) t.runs ⟨hwork.memos, rfl⟩
      · exact ⟨rfl, hwork.memos.settle _, rfl⟩

/-- A reading of both takes the same effort and yields related values, or fails for the same reason. -/
theorem get (limit p : Nat) (f : φ) (hb : b.Twin R b') :
    Alike (Beside (R f)) (F.get limit p f b).1 (F'.get limit p f b').1 ∧
      (F.get limit p f b).2.Twin R (F'.get limit p f b').2 := by
  rw [Family.get, Family.get, h.resolve]
  cases F.resolve p f with
  | none => exact ⟨.error _, hb⟩
  | some q =>
    have hd := h.definition q f
    dsimp only
    generalize F.definition q f = d, F'.definition q f = d' at hd
    cases hd with
    | constant hv => exact ⟨.ok ⟨hv, rfl⟩, hb⟩
    | deferred _ hv => exact ⟨.ok ⟨hv, rfl⟩, hb⟩
    | rule =>
      obtain ⟨hresult, hpasses⟩ := h.passes hR ⟨q, f⟩ limit 0 [] hb
      dsimp only
      generalize F.passes ⟨q, f⟩ limit 0 [] b = x, F'.passes ⟨q, f⟩ limit 0 [] b' = x' at hresult hpasses
      obtain ⟨result, t⟩ := x
      obtain ⟨result', t'⟩ := x'
      obtain rfl : result' = result := hresult
      cases result' with
      | error e => exact ⟨.error e, hpasses⟩
      | ok effort => exact ⟨.ok ⟨(hpasses.memos ⟨q, f⟩).value, rfl⟩, hpasses⟩

end Family.Twin

end Solver
end Predictive
