import Mathlib.Data.List.TakeWhile
import Predictive.Text.Shown

/-!
Texts that tell where they end. A quoted literal is read back up to its closing quote, since no escape begins with a
quote and none begins another one; a number is read back up to the first character that is not a digit.
-/
namespace Predictive.Text

variable {p : Char → Bool} {l l' x y : List Char} {q c d : Char} {b m n : Nat}

/-- The text goes on with something else than `p`. -/
def Stops (p : Char → Bool) (x : List Char) : Prop := ∀ c ∈ x.head?, p c = false

theorem stops_cons (h : p c = false) : Stops p (c :: x) := by
  intro d hd
  cases hd
  exact h

theorem takeWhile_eq_nil_of_stops (h : Stops p x) : x.takeWhile p = [] := by
  cases x with
  | nil => rfl
  | cons c x => exact List.takeWhile_cons_of_neg (by simp [h c rfl])

/-- What is of one sort as far as it goes is read back if something of another sort follows. -/
theorem run_cancel (hl : ∀ c ∈ l, p c = true) (hl' : ∀ c ∈ l', p c = true) (hx : Stops p x) (hy : Stops p y)
    (h : l ++ x = l' ++ y) : l = l' ∧ x = y := by
  have htake := congrArg (List.takeWhile p) h
  rw [List.takeWhile_append_of_pos hl, List.takeWhile_append_of_pos hl', takeWhile_eq_nil_of_stops hx,
    takeWhile_eq_nil_of_stops hy, List.append_nil, List.append_nil] at htake
  subst htake
  exact ⟨rfl, List.append_cancel_left h⟩

theorem digitChar_injective (hm : m < 16) (hn : n < 16) (h : m.digitChar = n.digitChar) : m = n := by
  have hall : ∀ m < 16, ∀ n < 16, m.digitChar = n.digitChar → m = n := by decide
  exact hall m hm n hn h

/-- A number is known by its digits. -/
theorem toDigits_injective (hb : 1 < b) (hb' : b ≤ 16) (h : Nat.toDigits b m = Nat.toDigits b n) : m = n := by
  have hlength : ∀ k, b ≤ k → 2 ≤ (Nat.toDigits b k).length := fun k hk => by
    rw [Nat.toDigits_of_base_le hb hk, List.length_append]
    exact Nat.succ_le_succ Nat.length_toDigits_pos
  induction m using Nat.strong_induction_on generalizing n with
  | _ m ih =>
    rcases Nat.lt_or_ge m b with hm | hm <;> rcases Nat.lt_or_ge n b with hn | hn
    · rw [Nat.toDigits_of_lt_base hm, Nat.toDigits_of_lt_base hn] at h
      exact digitChar_injective (hm.trans_le hb') (hn.trans_le hb') (List.singleton_inj.1 h)
    · have := hlength n hn
      rw [← h, Nat.toDigits_of_lt_base hm] at this
      exact absurd this (Nat.lt_irrefl 1)
    · have := hlength m hm
      rw [h, Nat.toDigits_of_lt_base hn] at this
      exact absurd this (Nat.lt_irrefl 1)
    · rw [Nat.toDigits_of_base_le hb hm, Nat.toDigits_of_base_le hb hn] at h
      obtain ⟨hhigh, hlow⟩ := List.append_inj' h rfl
      have hmod : ∀ k, k % b < 16 := fun k => (Nat.mod_lt k (Nat.zero_lt_of_lt hb)).trans_le hb'
      have hdiv := ih (m / b) (Nat.div_lt_self (Nat.zero_lt_of_lt (hb.trans_le hm)) hb) hhigh
      have hlow := digitChar_injective (hmod m) (hmod n) (List.singleton_inj.1 hlow)
      rw [← Nat.div_add_mod m b, ← Nat.div_add_mod n b, hdiv, hlow]

/-- No digit is a closing brace. -/
theorem digitChar_ne_brace (n : Nat) : n.digitChar ≠ '\x7d' := Nat.digitChar_ne '\x7d' rfl

theorem ne_brace_of_mem_toDigits (hb : 1 < b) (hc : c ∈ Nat.toDigits b n) : c ≠ '\x7d' := by
  induction n using Nat.strong_induction_on with
  | _ n ih =>
    rcases Nat.lt_or_ge n b with hn | hn
    · rw [Nat.toDigits_of_lt_base hn] at hc
      obtain rfl := List.mem_singleton.1 hc
      exact digitChar_ne_brace n
    · rw [Nat.toDigits_of_base_le hb hn] at hc
      rcases List.mem_append.1 hc with hc | hc
      · exact ih (n / b) (Nat.div_lt_self (Nat.zero_lt_of_lt (hb.trans_le hn)) hb) hc
      · obtain rfl := List.mem_singleton.1 hc
        exact digitChar_ne_brace _

/-- A number is read back if no digit follows. -/
theorem toDigits_cancel (hx : Stops Char.isDigit x) (hy : Stops Char.isDigit y)
    (h : Nat.toDigits 10 m ++ x = Nat.toDigits 10 n ++ y) : m = n ∧ x = y := by
  have hdigits : ∀ n c, c ∈ Nat.toDigits 10 n → c.isDigit = true := fun n c hc =>
    Nat.isDigit_of_mem_toDigits (by decide) (Nat.le_refl 10) hc
  obtain ⟨heq, hxy⟩ := run_cancel (hdigits m) (hdigits n) hx hy h
  exact ⟨toDigits_injective (by decide) (by decide) heq, hxy⟩

/-- What a character stands for after a backslash, unless it opens a number. -/
def unmark : Char → Char
  | 'n' => '\n'
  | 'r' => '\r'
  | 't' => '\t'
  | '0' => '\x00'
  | c => c

/-- The quotes of kinds and values. -/
def IsQuote (q : Char) : Prop := q = '"' ∨ q = '\''

/-- A character is written as it is, or by a mark after a backslash, or by number. -/
theorem escape_cases (hq : IsQuote q) (c : Char) :
    (escape q c = [c] ∧ c ≠ '\\' ∧ c ≠ q) ∨ (∃ mark, mark ≠ 'u' ∧ unmark mark = c ∧ escape q c = ['\\', mark]) ∨
      escape q c = '\\' :: 'u' :: '\x7b' :: (Nat.toDigits 16 c.toNat ++ ['\x7d']) := by
  unfold escape
  split
  · rename_i h
    refine .inr (.inl ⟨c, ?_, ?_, rfl⟩)
    · rcases h with rfl | rfl
      · rcases hq with rfl | rfl <;> decide
      · decide
    · rcases h with rfl | rfl
      · rcases hq with rfl | rfl <;> rfl
      · rfl
  · rename_i h
    split
    · exact .inr (.inl ⟨'n', by decide, by simp [unmark, *], rfl⟩)
    split
    · exact .inr (.inl ⟨'r', by decide, by simp [unmark, *], rfl⟩)
    split
    · exact .inr (.inl ⟨'t', by decide, by simp [unmark, *], rfl⟩)
    split
    · exact .inr (.inl ⟨'0', by decide, by simp [unmark, *], rfl⟩)
    split
    · exact .inr (.inr rfl)
    · exact .inl ⟨rfl, fun hc => h (.inr hc), fun hc => h (.inl hc)⟩

/-- What a character is written as is not the closing quote. -/
theorem escape_ne_quote (hq : IsQuote q) (c : Char) : escape q c ++ x ≠ q :: y := by
  have hslash : '\\' ≠ q := by rcases hq with rfl | rfl <;> decide
  rcases escape_cases hq c with ⟨he, -, hc⟩ | ⟨mark, -, -, he⟩ | he <;> rw [he] <;> intro h
  · exact hc (List.cons.inj h).1
  · exact hslash (List.cons.inj h).1
  · exact hslash (List.cons.inj h).1

/-- A character is read back, whatever follows. -/
theorem escape_cancel (hq : IsQuote q) (h : escape q c ++ x = escape q d ++ y) : c = d ∧ x = y := by
  rcases escape_cases hq c with ⟨hc, hslash, -⟩ | ⟨mark, hu, hmark, hc⟩ | hc <;>
    rcases escape_cases hq d with ⟨hd, hslash', -⟩ | ⟨mark', hu', hmark', hd⟩ | hd <;> rw [hc, hd] at h
  · exact List.cons.inj h
  · exact absurd (List.cons.inj h).1 hslash
  · exact absurd (List.cons.inj h).1 hslash
  · exact absurd (List.cons.inj h).1.symm hslash'
  · obtain ⟨rfl, hxy⟩ := List.cons.inj (List.cons.inj h).2
    exact ⟨hmark.symm.trans hmark', hxy⟩
  · exact absurd (List.cons.inj (List.cons.inj h).2).1 hu
  · exact absurd (List.cons.inj h).1.symm hslash'
  · exact absurd (List.cons.inj (List.cons.inj h).2).1.symm hu'
  · simp only [List.cons_append, List.append_assoc, List.nil_append, List.cons.injEq, true_and] at h
    have hbrace : ∀ n c, c ∈ Nat.toDigits 16 n → (c != '\x7d') = true := fun n c hc =>
      bne_iff_ne.2 (ne_brace_of_mem_toDigits (by decide) hc)
    obtain ⟨hdigits, hxy⟩ := run_cancel (hbrace _) (hbrace _) (stops_cons rfl) (stops_cons rfl) h
    exact ⟨Char.toNat_inj.1 (toDigits_injective (by decide) (Nat.le_refl 16) hdigits), (List.cons.inj hxy).2⟩

/-- What is between the quotes is read back, whatever follows. -/
theorem escaped_cancel (hq : IsQuote q) (h : l.flatMap (escape q) ++ q :: x = l'.flatMap (escape q) ++ q :: y) :
    l = l' ∧ x = y := by
  induction l generalizing l' with
  | nil =>
    cases l' with
    | nil => exact ⟨rfl, (List.cons.inj h).2⟩
    | cons d l' =>
      rw [List.flatMap_cons, List.append_assoc] at h
      exact absurd h.symm (escape_ne_quote hq d)
  | cons c l ih =>
    rw [List.flatMap_cons, List.append_assoc] at h
    cases l' with
    | nil => exact absurd h (escape_ne_quote hq c)
    | cons d l' =>
      rw [List.flatMap_cons, List.append_assoc] at h
      obtain ⟨rfl, hrest⟩ := escape_cancel hq h
      obtain ⟨rfl, hxy⟩ := ih hrest
      exact ⟨rfl, hxy⟩

theorem quoted_cancel (hq : IsQuote q) (h : (quoted q l).toList ++ x = (quoted q l').toList ++ y) : l = l' ∧ x = y := by
  simp only [quoted, String.toList_ofList, List.cons_append, List.append_assoc, List.nil_append, List.cons.injEq,
    true_and] at h
  exact escaped_cancel hq h

/-- What is shown begins with a quote and is read back, whatever follows. -/
structure Legible (α : Type) [Shown α] : Prop where
  quote : ∀ a : α, ∃ q cs, IsQuote q ∧ (shown a).toList = q :: cs
  cancel : ∀ (a b : α) (x y : List Char), (shown a).toList ++ x = (shown b).toList ++ y → a = b ∧ x = y

theorem legible_char : Legible Char where
  quote c := ⟨'\'', _, .inr rfl, String.toList_ofList⟩
  cancel c d x y h := by
    obtain ⟨heq, hxy⟩ := quoted_cancel (.inr rfl) h
    exact ⟨List.singleton_inj.1 heq, hxy⟩

theorem legible_string : Legible String where
  quote s := ⟨'"', _, .inl rfl, String.toList_ofList⟩
  cancel s t x y h := by
    obtain ⟨heq, hxy⟩ := quoted_cancel (.inl rfl) h
    exact ⟨String.toList_inj.1 heq, hxy⟩

end Predictive.Text
