import Mathlib.Data.List.Nodup
import Mathlib.Logic.Relation
import Predictive.Proofs.Quoting

/-!
Grammars as terms with numbered definitions, and the texts of such terms. A text is that of one term only, though
nothing marks the end of a definition: what follows it cannot go on with it.
-/
namespace Predictive.Grammar

open Text

variable {V K : Type}

/-- A grammar as it is written. -/
inductive Term (V K : Type) where
  | success (v : V)
  | element (k : K)
  | disjunction (left right : Term V K)
  | sequence (left right : Term V K)
  | transform (inner : Term V K)
  /-- A deferred node where it is met first. -/
  | definition (n : Nat) (body : Term V K)
  /-- A deferred node where it is met again. -/
  | name (n : Nat)
  /-- A deferred node without a known definition. -/
  | unknown

/-- What a text is put together of. -/
inductive Piece where
  | plain (s : String)
  | binder (n : Nat)
  | name (n : Nat)
  deriving DecidableEq

namespace Piece

def text : Piece → String
  | plain s => s
  | binder n => "fix r" ++ n.repr ++ ". "
  | name n => "r" ++ n.repr

/-- The number that the piece gives to a definition. -/
def binder? : Piece → Option Nat
  | binder n => some n
  | plain _ | name _ => none

end Piece

/-- Numbers are given in order, and none is named before it is given: there are `m` of them before and `n` after. -/
inductive Numbered : Nat → List Piece → Nat → Prop
  | nil {n : Nat} : Numbered n [] n
  | plain {m n : Nat} {s : String} {ps : List Piece} : Numbered m ps n → Numbered m (.plain s :: ps) n
  | binder {m n : Nat} {ps : List Piece} : Numbered (m + 1) ps n → Numbered m (.binder (m + 1) :: ps) n
  | name {k m n : Nat} {ps : List Piece} : k < m → Numbered m ps n → Numbered m (.name (k + 1) :: ps) n

namespace Numbered

variable {k l m n : Nat} {ps qs before after : List Piece}

theorem append (h : Numbered l ps m) (h' : Numbered m qs n) : Numbered l (ps ++ qs) n := by
  induction h with
  | nil => exact h'
  | plain _ ih => exact .plain (ih h')
  | binder _ ih => exact .binder (ih h')
  | name hk _ ih => exact .name hk (ih h')

theorem exists_of_append (h : Numbered l (ps ++ qs) n) : ∃ m, Numbered l ps m ∧ Numbered m qs n := by
  induction ps generalizing l with
  | nil => exact ⟨l, .nil, h⟩
  | cons p ps ih =>
    cases h with
    | plain h => exact (ih h).imp fun _ h => ⟨.plain h.1, h.2⟩
    | binder h => exact (ih h).imp fun _ h => ⟨.binder h.1, h.2⟩
    | name hk h => exact (ih h).imp fun _ h => ⟨.name hk h.1, h.2⟩

theorem binders_eq (h : Numbered m ps n) : m ≤ n ∧ ps.filterMap Piece.binder? = List.range' (m + 1) (n - m) := by
  induction h with
  | nil => simp
  | plain _ ih => exact ih
  | @binder m n ps _ ih =>
    obtain ⟨hle, heq⟩ := ih
    refine ⟨Nat.le_of_succ_le hle, ?_⟩
    change (m + 1) :: ps.filterMap Piece.binder? = _
    rw [heq, ← Nat.succ_sub_succ n m, Nat.succ_sub hle, List.range'_succ]
  | name _ _ ih => exact ih

/-- Where a number is named, it has been given once. -/
theorem count_binder (h : Numbered 0 (before ++ .name n :: after) m) : before.count (.binder n) = 1 := by
  obtain ⟨l, hbefore, hname⟩ := h.exists_of_append
  have hcount : before.count (.binder n) = (before.filterMap Piece.binder?).count n := by
    rw [List.count_filterMap, List.count]
    refine List.countP_congr fun p _ => ?_
    cases p <;> simp [Piece.binder?]
  rw [hcount, hbefore.binders_eq.2]
  cases hname with
  | name hk _ =>
    refine List.count_eq_one_of_mem List.nodup_range' (List.mem_range'_1.2 ?_)
    omega

end Numbered

namespace Term

/-- What a term is made of, the body of a definition among it. -/
def parts : Term V K → List (Term V K)
  | success _ | element _ | name _ | unknown => []
  | disjunction l r | sequence l r => [l, r]
  | transform t | definition _ t => [t]

/-- The term `u` is met on the way down from `t`, itself included. -/
def Contains : Term V K → Term V K → Prop := Relation.ReflTransGen fun t u => u ∈ t.parts

section Texts

variable [Shown V] [Shown K]

def pieces : Term V K → List Piece
  | success v => [.plain ("success(" ++ shown v ++ ")")]
  | element k => [.plain (shown k)]
  | disjunction l r => .plain "(" :: (l.pieces ++ .plain " | " :: (r.pieces ++ [.plain ")"]))
  | sequence l r => .plain "(" :: (l.pieces ++ .plain " ~ " :: (r.pieces ++ [.plain ")"]))
  | transform t => .plain "map(" :: (t.pieces ++ [.plain ")"])
  | definition n t => .binder n :: t.pieces
  | name n => [.name n]
  | unknown => [.plain "<deferred>"]

def text (t : Term V K) : String := String.join (t.pieces.map Piece.text)

variable (l r t : Term V K) (v : V) (k : K) (n : Nat)

@[simp] theorem text_success : (success v : Term V K).text = "success(" ++ shown v ++ ")" := by
  simp [text, pieces, Piece.text]

@[simp] theorem text_element : (element k : Term V K).text = shown k := by simp [text, pieces, Piece.text]

@[simp] theorem text_disjunction : (disjunction l r).text = "(" ++ l.text ++ " | " ++ r.text ++ ")" := by
  simp [text, pieces, Piece.text, String.append_assoc]

@[simp] theorem text_sequence : (sequence l r).text = "(" ++ l.text ++ " ~ " ++ r.text ++ ")" := by
  simp [text, pieces, Piece.text, String.append_assoc]

@[simp] theorem text_transform : (transform t).text = "map(" ++ t.text ++ ")" := by
  simp [text, pieces, Piece.text, String.append_assoc]

@[simp] theorem text_definition : (definition n t).text = "fix r" ++ n.repr ++ ". " ++ t.text := by
  simp [text, pieces, Piece.text]

@[simp] theorem text_name : (name n : Term V K).text = "r" ++ n.repr := by simp [text, pieces, Piece.text]

@[simp] theorem text_unknown : (unknown : Term V K).text = "<deferred>" := by simp [text, pieces, Piece.text]

section Reading

variable {l l' r r' t u : Term V K} {x y : List Char}

theorem success_append (v : V) : (success v : Term V K).text.toList ++ x =
    's' :: 'u' :: 'c' :: 'c' :: 'e' :: 's' :: 's' :: '(' :: ((shown v).toList ++ ')' :: x) := by simp

theorem disjunction_append : (disjunction l r).text.toList ++ x =
    '(' :: (l.text.toList ++ ' ' :: '|' :: ' ' :: (r.text.toList ++ ')' :: x)) := by simp

theorem sequence_append : (sequence l r).text.toList ++ x =
    '(' :: (l.text.toList ++ ' ' :: '~' :: ' ' :: (r.text.toList ++ ')' :: x)) := by simp

theorem transform_append : (transform t).text.toList ++ x =
    'm' :: 'a' :: 'p' :: '(' :: (t.text.toList ++ ')' :: x) := by simp

theorem definition_append (n : Nat) : (definition n t).text.toList ++ x =
    'f' :: 'i' :: 'x' :: ' ' :: 'r' :: (Nat.toDigits 10 n ++ '.' :: ' ' :: (t.text.toList ++ x)) := by simp

theorem name_append (n : Nat) : (name n : Term V K).text.toList ++ x = 'r' :: (Nat.toDigits 10 n ++ x) := by simp

/-- The character with which the text of a term begins, quotes being single ones. -/
def opening : Term V K → Char
  | success _ => 's'
  | element _ => '\''
  | disjunction _ _ | sequence _ _ => '('
  | transform _ => 'm'
  | definition _ _ => 'f'
  | name _ => 'r'
  | unknown => '<'

/-- A single quote for any quote. -/
def single (c : Char) : Char := if c = '"' then '\'' else c

theorem single_head (hK : Legible K) (t : Term V K) (x : List Char) :
    (t.text.toList ++ x).head?.map single = some t.opening := by
  cases t with
  | element k =>
    obtain ⟨q, cs, hq, hcs⟩ := hK.quote k
    rw [text_element, hcs]
    rcases hq with rfl | rfl <;> rfl
  | success v | disjunction l r | sequence l r | transform t | definition n t | name n | unknown =>
    simp [opening, single]

/-- Texts that begin alike are those of terms of one sort, or of pairs. -/
theorem opening_eq (hK : Legible K) (h : t.text.toList ++ x = u.text.toList ++ y) : t.opening = u.opening := by
  have ht := single_head hK t x
  rw [h, single_head hK u y] at ht
  exact (Option.some.inj ht).symm

/-- Where `t` and `u` are read off the same text, they are the same, and so is what follows. It must not go on with a
digit, since the text may end with a name. -/
def Agrees (t u : Term V K) : Prop :=
  ∀ ⦃x y⦄, Stops Char.isDigit x → Stops Char.isDigit y → t.text.toList ++ x = u.text.toList ++ y → t = u ∧ x = y

/-- The sides of a pair are read back, and the sign between them. -/
theorem Agrees.pair {sign sign' : Char} (hl : l.Agrees l') (hr : r.Agrees r')
    (h : l.text.toList ++ ' ' :: sign :: ' ' :: (r.text.toList ++ ')' :: x) =
      l'.text.toList ++ ' ' :: sign' :: ' ' :: (r'.text.toList ++ ')' :: y)) :
    l = l' ∧ sign = sign' ∧ r = r' ∧ x = y := by
  obtain ⟨rfl, hrest⟩ := hl (stops_cons rfl) (stops_cons rfl) h
  simp only [List.cons.injEq, true_and] at hrest
  obtain ⟨rfl, hright⟩ := hrest
  obtain ⟨rfl, hend⟩ := hr (stops_cons rfl) (stops_cons rfl) hright
  exact ⟨rfl, rfl, rfl, (List.cons.inj hend).2⟩

/-- A term is read back, whatever else may be read. -/
theorem agrees (hV : Legible V) (hK : Legible K) (t u : Term V K) : t.Agrees u := by
  induction t generalizing u with
  | success v =>
    intro x y _ _ h
    cases u with
    | success w =>
      simp only [success_append, List.cons.injEq, true_and] at h
      obtain ⟨rfl, hend⟩ := hV.cancel v w _ _ h
      exact ⟨rfl, (List.cons.inj hend).2⟩
    | _ => exact absurd (opening_eq hK h) (by simp [opening])
  | element k =>
    intro x y _ _ h
    cases u with
    | element j =>
      rw [text_element, text_element] at h
      exact (hK.cancel k j x y h).imp_left (congrArg element)
    | _ => exact absurd (opening_eq hK h) (by simp [opening])
  | disjunction l r ihl ihr =>
    intro x y _ _ h
    cases u with
    | disjunction l' r' =>
      rw [disjunction_append, disjunction_append] at h
      obtain ⟨rfl, -, rfl, hxy⟩ := (ihl l').pair (ihr r') (List.cons.inj h).2
      exact ⟨rfl, hxy⟩
    | sequence l' r' =>
      rw [disjunction_append, sequence_append] at h
      obtain ⟨-, hsign, -⟩ := (ihl l').pair (ihr r') (List.cons.inj h).2
      exact absurd hsign (by decide)
    | _ => exact absurd (opening_eq hK h) (by simp [opening])
  | sequence l r ihl ihr =>
    intro x y _ _ h
    cases u with
    | disjunction l' r' =>
      rw [disjunction_append, sequence_append] at h
      obtain ⟨-, hsign, -⟩ := (ihl l').pair (ihr r') (List.cons.inj h).2
      exact absurd hsign (by decide)
    | sequence l' r' =>
      rw [sequence_append, sequence_append] at h
      obtain ⟨rfl, -, rfl, hxy⟩ := (ihl l').pair (ihr r') (List.cons.inj h).2
      exact ⟨rfl, hxy⟩
    | _ => exact absurd (opening_eq hK h) (by simp [opening])
  | transform t ih =>
    intro x y _ _ h
    cases u with
    | transform u =>
      simp only [transform_append, List.cons.injEq, true_and] at h
      obtain ⟨rfl, hend⟩ := ih u (stops_cons rfl) (stops_cons rfl) h
      exact ⟨rfl, (List.cons.inj hend).2⟩
    | _ => exact absurd (opening_eq hK h) (by simp [opening])
  | definition n t ih =>
    intro x y hx hy h
    cases u with
    | definition m u =>
      simp only [definition_append, List.cons.injEq, true_and] at h
      obtain ⟨rfl, hrest⟩ := toDigits_cancel (stops_cons rfl) (stops_cons rfl) h
      simp only [List.cons.injEq, true_and] at hrest
      -- nothing ends the definition: what follows it follows its body
      exact (ih u hx hy hrest).imp_left (congrArg (definition n))
    | _ => exact absurd (opening_eq hK h) (by simp [opening])
  | name n =>
    intro x y hx hy h
    cases u with
    | name m =>
      rw [name_append, name_append] at h
      exact (toDigits_cancel hx hy (List.cons.inj h).2).imp_left (congrArg name)
    | _ => exact absurd (opening_eq hK h) (by simp [opening])
  | unknown =>
    intro x y _ _ h
    cases u with
    | unknown => exact ⟨rfl, List.append_cancel_left h⟩
    | _ => exact absurd (opening_eq hK h) (by simp [opening])

/-- No two terms have one text. -/
theorem text_injective (hV : Legible V) (hK : Legible K) (h : t.text = u.text) : t = u := by
  have hnil : Stops Char.isDigit [] := fun _ hc => by cases hc
  exact (agrees hV hK t u hnil hnil (by rw [h])).1

end Reading

end Texts

end Term

end Predictive.Grammar
