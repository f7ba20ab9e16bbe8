import Predictive.Kind

/-! What keeps a grammar from being read with one token of lookahead, and how it is reported. -/
namespace Predictive

/-- Nodes are numbered in the order of their creation, from zero; texts count from one. -/
abbrev NodeId := Nat

namespace NodeId

def number (n : NodeId) : Nat := n + 1

def text (n : NodeId) : String := "#" ++ n.number.repr

def debugText (n : NodeId) : String := "NodeId(" ++ n.number.repr ++ ")"

end NodeId

/-- Whatever follows the disjunction `origin`, which may be empty, must not start with a disallowed kind. -/
structure Restriction (K : Type) [Ord K] where
  origin : NodeId
  disallowed : FinSet K

inductive Conflict (K : Type) [Ord K] where
  /-- Both alternatives may be empty. -/
  | bothAcceptEmpty (disjunction : NodeId)
  /-- Both alternatives can start with the same kinds. -/
  | firstFirstClash (disjunction : NodeId) (kinds : FinSet K)
  /-- The disjunction may be empty, and what follows it in `sequence` can start as it can. -/
  | followClash (disjunction sequence : NodeId) (kinds : FinSet K)

namespace Restriction

variable {K : Type} [Ord K]

instance [DecidableEq K] : DecidableEq (Restriction K)
  | ⟨o, d⟩, ⟨o', d'⟩ => decidable_of_iff (o = o' ∧ d = d') (by simp)

instance : Ord (Restriction K) := ⟨compareLex (compareOn origin) (compareOn disallowed)⟩

instance [Std.TransOrd K] : Std.TransOrd (Restriction K) :=
  inferInstanceAs (Std.TransCmp (compareLex (compareOn origin) (compareOn disallowed)))

instance [Std.LawfulEqOrd K] : Std.LawfulEqOrd (Restriction K) where
  compare_self := Ordering.then_eq_eq.2
    ⟨Std.LawfulEqOrd.compare_eq_iff_eq (α := Nat).2 rfl, Std.LawfulEqOrd.compare_eq_iff_eq (α := FinSet K).2 rfl⟩
  eq_of_compare {a b} h := by
    obtain ⟨ho, hd⟩ := Ordering.then_eq_eq.1 h
    cases a; cases b
    cases Std.LawfulEqOrd.eq_of_compare (α := Nat) ho
    cases Std.LawfulEqOrd.eq_of_compare (α := FinSet K) hd
    rfl

end Restriction

namespace Conflict

variable {K : Type} [Ord K]

def disjunction : Conflict K → NodeId
  | bothAcceptEmpty d | firstFirstClash d _ | followClash d _ _ => d

def sequence? : Conflict K → Option NodeId
  | followClash _ s _ => some s
  | _ => none

def kinds? : Conflict K → Option (FinSet K)
  | bothAcceptEmpty _ => none
  | firstFirstClash _ ks | followClash _ _ ks => some ks

/-- Conflicts are ordered by what they are about, then by their parts in order. -/
def rank : Conflict K → Nat
  | bothAcceptEmpty _ => 0
  | firstFirstClash _ _ => 1
  | followClash _ _ _ => 2

instance [DecidableEq K] : DecidableEq (Conflict K)
  | bothAcceptEmpty d, bothAcceptEmpty d' => decidable_of_iff (d = d') (by simp)
  | firstFirstClash d ks, firstFirstClash d' ks' => decidable_of_iff (d = d' ∧ ks = ks') (by simp)
  | followClash d s ks, followClash d' s' ks' => decidable_of_iff (d = d' ∧ s = s' ∧ ks = ks') (by simp)
  | bothAcceptEmpty _, firstFirstClash _ _ | bothAcceptEmpty _, followClash _ _ _
  | firstFirstClash _ _, bothAcceptEmpty _ | firstFirstClash _ _, followClash _ _ _
  | followClash _ _ _, bothAcceptEmpty _ | followClash _ _ _, firstFirstClash _ _ => isFalse nofun

def order : Conflict K → Conflict K → Ordering :=
  compareLex (compareOn rank) (compareLex (compareOn disjunction)
    (compareLex (compareOn fun c => c.sequence?.getD 0) (compareOn fun c => c.kinds?.getD ∅)))

instance : Ord (Conflict K) := ⟨order⟩

instance [Std.TransOrd K] : Std.TransOrd (Conflict K) := by
  unfold Std.TransOrd
  change Std.TransCmp order
  unfold order
  infer_instance

instance [Std.LawfulEqOrd K] : Std.LawfulEqOrd (Conflict K) where
  compare_self {a} := by
    change order a a = .eq
    simp [order, compareLex, compareOn]
  eq_of_compare {a b} h := by
    obtain ⟨hr, h⟩ := Ordering.then_eq_eq.1 h
    obtain ⟨hd, h⟩ := Ordering.then_eq_eq.1 h
    obtain ⟨hs, hk⟩ := Ordering.then_eq_eq.1 h
    have hr := Std.LawfulEqOrd.eq_of_compare (α := Nat) hr
    have hd := Std.LawfulEqOrd.eq_of_compare (α := Nat) hd
    have hs := Std.LawfulEqOrd.eq_of_compare (α := Nat) hs
    have hk := Std.LawfulEqOrd.eq_of_compare (α := FinSet K) hk
    cases a <;> cases b <;> simp_all [rank, disjunction, sequence?, kinds?]

variable [Shown K]

def message : Conflict K → String
  | bothAcceptEmpty d =>
    "disjunction " ++ NodeId.text d ++ ": both alternatives accept the empty sequence"
  | firstFirstClash d ks =>
    "disjunction " ++ NodeId.text d ++ ": both alternatives can start with " ++ shown ks
  | followClash d s ks =>
    "disjunction " ++ NodeId.text d ++ ": may be empty but is followed by " ++ shown ks ++
      " in sequence " ++ NodeId.text s

instance : Shown (Conflict K) where
  shown
    | bothAcceptEmpty d => "BothAcceptEmpty \x7b disjunction: " ++ NodeId.debugText d ++ " \x7d"
    | firstFirstClash d ks =>
      "FirstFirstClash \x7b disjunction: " ++ NodeId.debugText d ++ ", kinds: " ++ shown ks ++ " \x7d"
    | followClash d s ks =>
      "FollowClash \x7b disjunction: " ++ NodeId.debugText d ++ ", sequence: " ++ NodeId.debugText s ++
        ", kinds: " ++ shown ks ++ " \x7d"

end Conflict
end Predictive
