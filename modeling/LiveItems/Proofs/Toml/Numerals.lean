import Mathlib.Algebra.Group.Int.Defs
import Mathlib.Algebra.GroupWithZero.Nat
import LiveItems.Toml.Scalar
set_option autoImplicit false

namespace LiveItems.Toml

variable {isDigit : Char → Bool} {cs ds : List Char} {c : Char} {n : Int}

/-- The text has these digits, with or without one underscore between two of them. -/
inductive Digits (isDigit : Char → Bool) : List Char → List Char → Prop where
  | last {c : Char} (digit : isDigit c = true) : Digits isDigit [c] [c]
  | next {c : Char} {cs ds : List Char} (digit : isDigit c = true) (rest : Digits isDigit cs ds) :
      Digits isDigit (c :: cs) (c :: ds)
  | grouped {c : Char} {cs ds : List Char} (digit : isDigit c = true)
      (rest : Digits isDigit cs ds) : Digits isDigit (c :: '_' :: cs) (c :: ds)

theorem Digits.head (digits : Digits isDigit cs ds) :
    ∃ c rest, cs = c :: rest ∧ isDigit c = true := by
  cases digits with
  | last digit => exact ⟨_, _, rfl, digit⟩
  | next digit _ => exact ⟨_, _, rfl, digit⟩
  | grouped digit _ => exact ⟨_, _, rfl, digit⟩

theorem Digits.mem (digits : Digits isDigit cs ds) : ∀ c ∈ cs, isDigit c = true ∨ c = '_' := by
  induction digits with
  | last digit => exact fun c hc => .inl (List.mem_singleton.1 hc ▸ digit)
  | next digit _ ih =>
    intro c hc
    rcases List.mem_cons.1 hc with rfl | hc
    · exact .inl digit
    · exact ih c hc
  | grouped digit _ ih =>
    intro c hc
    rcases List.mem_cons.1 hc with rfl | hc
    · exact .inl digit
    · rcases List.mem_cons.1 hc with rfl | hc
      · exact .inr rfl
      · exact ih c hc

theorem ungroup_digits (underscore : isDigit '_' = false) (digits : Digits isDigit cs ds) :
    ungroup isDigit cs = some ds := by
  induction digits with
  | last digit => rw [ungroup, if_pos digit]
  | @next c cs ds digit rest ih =>
    obtain ⟨c', rest', rfl, digit'⟩ := rest.head
    have other : c' ≠ '_' := by
      rintro rfl
      rw [underscore] at digit'
      exact Bool.false_ne_true digit'
    rw [ungroup, if_pos digit, ih]
    · rfl
    · simp
    · simpa using other
  | grouped digit _ ih =>
    rw [ungroup, if_pos digit, ih]
    rfl

inductive Radix where
  | hexadecimal
  | octal
  | binary

namespace Radix

def mark : Radix → Char
  | hexadecimal => 'x'
  | octal => 'o'
  | binary => 'b'

def size : Radix → Nat
  | hexadecimal => 16
  | octal => 8
  | binary => 2

end Radix

/-- The text writes the integer. A decimal number does not begin with a needless zero. -/
inductive Writes : List Char → Int → Prop where
  | unsigned {cs ds : List Char} (digits : Digits Char.isDigit cs ds)
      (canonical : ds.head? = some '0' → ds = ['0']) : Writes cs (ofDigits 10 ds)
  | plus {cs ds : List Char} (digits : Digits Char.isDigit cs ds)
      (canonical : ds.head? = some '0' → ds = ['0']) : Writes ('+' :: cs) (ofDigits 10 ds)
  | minus {cs ds : List Char} (digits : Digits Char.isDigit cs ds)
      (canonical : ds.head? = some '0' → ds = ['0']) : Writes ('-' :: cs) (-ofDigits 10 ds)
  | based {cs ds : List Char} (radix : Radix) (digits : Digits (isDigitOf radix.size) cs ds) :
      Writes ('0' :: radix.mark :: cs) (ofDigits radix.size ds)

def isPunctuation (c : Char) : Bool := !(c.isAlphanum || c == '_')

/-- A numeral begins with a digit or a sign, and has no other signs. -/
structure Numeric (cs : List Char) : Prop where
  begins : ∃ c rest, cs = c :: rest ∧ (c.isDigit ∨ c = '+' ∨ c = '-')
  plain : ∀ c ∈ cs.tail, isPunctuation c = false

theorem isPunctuation_of_isDigit (digit : c.isDigit = true) : isPunctuation c = false := by
  simp [isPunctuation, Char.isAlphanum, digit]

theorem isPunctuation_of_isDigitOf {base : Nat} (digit : isDigitOf base c = true) :
    isPunctuation c = false := by
  have numeral : '0'.val ≤ c.val ∧ c.val ≤ '9'.val → c.isDigit = true := fun range =>
    Bool.and_eq_true_iff.2 ⟨decide_eq_true range.1, decide_eq_true range.2⟩
  have lower : 'a'.val ≤ c.val ∧ c.val ≤ 'f'.val → c.isLower = true := fun range =>
    Bool.and_eq_true_iff.2 ⟨decide_eq_true range.1,
      decide_eq_true (UInt32.le_trans range.2 (by decide))⟩
  have upper : 'A'.val ≤ c.val ∧ c.val ≤ 'F'.val → c.isUpper = true := fun range =>
    decide_eq_true ⟨range.1, UInt32.le_trans range.2 (by decide)⟩
  have alphanumeric : (c.isUpper || c.isLower || c.isDigit) = true := by
    unfold isDigitOf hexDigit? at digit
    split at digit
    · simp [numeral ‹_›]
    · split at digit
      · simp [lower ‹_›]
      · split at digit
        · simp [upper ‹_›]
        · exact absurd digit (by simp)
  change (!((c.isUpper || c.isLower || c.isDigit) || c == '_')) = false
  rw [alphanumeric]
  rfl

theorem Digits.plain (proper : ∀ c, isDigit c = true → isPunctuation c = false)
    (digits : Digits isDigit cs ds) : ∀ c ∈ cs, isPunctuation c = false := by
  intro c hc
  rcases digits.mem c hc with digit | rfl
  · exact proper c digit
  · rfl

theorem Writes.numeric (writes : Writes cs n) : Numeric cs := by
  have decimal : ∀ {cs ds}, Digits Char.isDigit cs ds → ∀ c ∈ cs, isPunctuation c = false :=
    fun digits => digits.plain fun c => isPunctuation_of_isDigit
  cases writes with
  | unsigned digits _ =>
    obtain ⟨c, rest, rfl, digit⟩ := digits.head
    exact ⟨⟨c, rest, rfl, .inl digit⟩, fun d hd => decimal digits d (List.mem_cons_of_mem c hd)⟩
  | plus digits _ => exact ⟨⟨_, _, rfl, .inr (.inl rfl)⟩, decimal digits⟩
  | minus digits _ => exact ⟨⟨_, _, rfl, .inr (.inr rfl)⟩, decimal digits⟩
  | based radix digits =>
    refine ⟨⟨_, _, rfl, .inl rfl⟩, fun d hd => ?_⟩
    rcases List.mem_cons.1 hd with rfl | hd
    · cases radix <;> rfl
    · exact digits.plain (fun c => isPunctuation_of_isDigitOf) d hd

theorem word?_eq (word : -2 ^ 63 ≤ n ∧ n < 2 ^ 63) : word? n = some n := if_pos word

theorem wholeDigits?_digits (digits : Digits Char.isDigit cs ds)
    (canonical : ds.head? = some '0' → ds = ['0']) : wholeDigits? cs = some ds := by
  rw [wholeDigits?, ungroup_digits rfl digits]
  cases ds with
  | nil => rfl
  | cons d rest =>
    by_cases zero : d = '0'
    · subst zero
      rw [(List.cons.inj (canonical rfl)).2]
      rfl
    · simp only [Option.bind_eq_bind, Option.bind_some]
      split
      · rename_i same
        exact absurd (List.cons.inj same).1 zero
      · rfl

theorem splitSign_digits (digits : Digits Char.isDigit cs ds) : splitSign cs = (false, cs) := by
  obtain ⟨c, rest, rfl, digit⟩ := digits.head
  unfold splitSign
  split
  · rename_i same
    exact absurd ((List.cons.inj same).1 ▸ digit) (by decide)
  · rename_i same
    exact absurd ((List.cons.inj same).1 ▸ digit) (by decide)
  · rfl

theorem decimalInteger?_digits (digits : Digits Char.isDigit cs ds)
    (canonical : ds.head? = some '0' → ds = ['0']) {text : List Char} {negative : Bool}
    (signed : splitSign text = (negative, cs))
    (value : n = if negative then -(ofDigits 10 ds : Int) else ofDigits 10 ds)
    (word : -2 ^ 63 ≤ n ∧ n < 2 ^ 63) : decimalInteger? text = some n := by
  rw [decimalInteger?, signed]
  simp only [wholeDigits?_digits digits canonical, Option.bind_eq_bind, Option.bind_some, ← value]
  exact word?_eq word

/-- The mark of a radix is not a digit. -/
theorem integer?_eq_decimal (digits : Digits Char.isDigit cs ds) :
    integer? cs = decimalInteger? cs := by
  have unmarked : ∀ (d c : Char) (rest : List Char), c.isDigit = false → c ≠ '_' →
      cs ≠ d :: c :: rest := by
    rintro d c rest letter other rfl
    rcases digits.mem c (by simp) with digit | same
    · exact Bool.false_ne_true (letter.symm.trans digit)
    · exact other same
  unfold integer?
  split
  · exact absurd rfl (unmarked _ _ _ rfl (by decide))
  · exact absurd rfl (unmarked _ _ _ rfl (by decide))
  · exact absurd rfl (unmarked _ _ _ rfl (by decide))
  · rfl

theorem integer?_of_writes (writes : Writes cs n) (word : -2 ^ 63 ≤ n ∧ n < 2 ^ 63) :
    integer? cs = some n := by
  cases writes with
  | unsigned digits canonical =>
    rw [integer?_eq_decimal digits]
    exact decimalInteger?_digits digits canonical (splitSign_digits digits) rfl word
  | @plus cs ds digits canonical =>
    have signed : splitSign ('+' :: cs) = (false, cs) := rfl
    exact decimalInteger?_digits digits canonical signed rfl word
  | @minus cs ds digits canonical =>
    have signed : splitSign ('-' :: cs) = (true, cs) := rfl
    exact decimalInteger?_digits digits canonical signed rfl word
  | @based cs ds radix digits =>
    have based : integer? ('0' :: radix.mark :: cs) = basedInteger? radix.size cs := by
      cases radix <;> rfl
    have underscore : isDigitOf radix.size '_' = false := by
      cases radix <;> rfl
    rw [based, basedInteger?, ungroup_digits underscore digits, Option.bind_eq_bind,
      Option.bind_some]
    exact word?_eq word

theorem digits_of_all (nonempty : cs ≠ []) (all : ∀ c ∈ cs, isDigit c = true) :
    Digits isDigit cs cs := by
  induction cs with
  | nil => exact absurd rfl nonempty
  | cons c cs ih =>
    have first := all c List.mem_cons_self
    cases cs with
    | nil => exact .last first
    | cons d cs => exact .next first (ih (by simp) fun d hd => all d (List.mem_cons_of_mem c hd))

theorem digitValue_of_isDigit (digit : c.isDigit = true) : digitValue c = c.toNat - '0'.toNat := by
  have decimal : '0' ≤ c ∧ c ≤ '9' := by
    simpa [Char.isDigit, Char.le_def] using digit
  rw [digitValue, hexDigit?, if_pos decimal, Option.getD_some]

theorem ofDigits_ten (all : ∀ c ∈ ds, c.isDigit = true) :
    ofDigits 10 ds = Nat.ofDigitChars 10 ds 0 := by
  rw [ofDigits, Nat.ofDigitChars_eq_foldl]
  generalize 0 = n
  induction ds generalizing n with
  | nil => rfl
  | cons d ds ih =>
    rw [List.foldl_cons, List.foldl_cons, digitValue_of_isDigit (all d List.mem_cons_self),
      Nat.mul_comm]
    exact ih (fun c hc => all c (List.mem_cons_of_mem d hc)) _

/-- The digits of a positive number do not begin with zero. -/
theorem toDigits_ne_zero_cons {m : Nat} (positive : m ≠ 0) (rest : List Char) :
    Nat.toDigits 10 m ≠ '0' :: rest := by
  induction m using Nat.strongRecOn generalizing rest with
  | ind m ih =>
    by_cases small : m < 10
    · have digit : ∀ m < 10, m ≠ 0 → m.digitChar ≠ '0' := by decide
      rw [Nat.toDigits_of_lt_base small]
      exact fun same => digit m small positive (List.cons.inj same).1
    · rw [Nat.toDigits_of_base_le (by omega) (by omega)]
      intro same
      rcases List.append_eq_cons_iff.1 same with ⟨none, -⟩ | ⟨more, front, -⟩
      · exact Nat.toDigits_ne_nil none
      · exact ih (m / 10) (by omega) (by omega) more front

theorem writes_toDigits (m : Nat) : Writes (Nat.toDigits 10 m) m := by
  have all : ∀ c ∈ Nat.toDigits 10 m, c.isDigit = true := fun c hc =>
    Nat.isDigit_of_mem_toDigits (by omega) (by omega) hc
  have value : ofDigits 10 (Nat.toDigits 10 m) = m := by
    rw [ofDigits_ten all, Nat.ofDigitChars_ten_toDigits]
  have canonical : (Nat.toDigits 10 m).head? = some '0' → Nat.toDigits 10 m = ['0'] := by
    intro first
    by_cases zero : m = 0
    · subst zero
      rfl
    · obtain ⟨rest, same⟩ := List.head?_eq_some_iff.1 first
      exact absurd same (toDigits_ne_zero_cons zero rest)
  have writes := Writes.unsigned (digits_of_all Nat.toDigits_ne_nil all) canonical
  rwa [value] at writes

theorem Numeric.not_mem_tail (numeric : Numeric cs) (punctuation : isPunctuation c = true) :
    c ∉ cs.tail := fun hc => Bool.false_ne_true ((numeric.plain c hc).symm.trans punctuation)

theorem Numeric.afterDate?_eq (numeric : Numeric cs) : afterDate? cs = none := by
  unfold afterDate?
  split
  · exact absurd (by simp) (numeric.not_mem_tail (c := '-') rfl)
  · rfl

theorem Numeric.afterTime?_eq (numeric : Numeric cs) : afterTime? cs = none := by
  unfold afterTime?
  split
  · exact absurd (by simp) (numeric.not_mem_tail (c := ':') rfl)
  · rfl

theorem Numeric.ne_word (numeric : Numeric cs) {letter : Char} (rest : List Char)
    (other : letter.isDigit = false ∧ letter ≠ '+' ∧ letter ≠ '-') : cs ≠ letter :: rest := by
  rintro rfl
  obtain ⟨c, rest, same, digit | sign | sign⟩ := numeric.begins
  · rw [(List.cons.inj same).1, digit] at other
    exact absurd other.1 (by decide)
  · exact other.2.1 ((List.cons.inj same).1.trans sign)
  · exact other.2.2 ((List.cons.inj same).1.trans sign)

theorem ofToken?_of_writes (writes : Writes cs n) (word : -2 ^ 63 ≤ n ∧ n < 2 ^ 63) :
    Scalar.ofToken? cs = some (.integer n) := by
  have numeric := writes.numeric
  have noTime : ¬(isTime cs = true ∨ isDateTime cs = true) := by
    rw [isTime, isDateTime, numeric.afterTime?_eq, numeric.afterDate?_eq]
    decide
  have noTrue : cs ≠ "true".toList := numeric.ne_word _ (by decide)
  have noFalse : cs ≠ "false".toList := numeric.ne_word _ (by decide)
  rw [Scalar.ofToken?, if_neg noTrue, if_neg noFalse, if_neg noTime, integer?_of_writes writes word]

def Stops (p : Char → Bool) (rest : List Char) : Prop := ∀ c ∈ rest.head?, p c = false

theorem stops_cons {p : Char → Bool} {rest : List Char} (stop : p c = false) :
    Stops p (c :: rest) := fun _ head => Option.some.inj head ▸ stop

theorem takeWhile_append {p : Char → Bool} {rest : List Char} (all : cs.all p = true)
    (stops : Stops p rest) : (cs ++ rest).takeWhile p = cs := by
  rw [List.takeWhile_append_of_pos (List.all_eq_true.1 all)]
  cases rest with
  | nil => simp
  | cons c rest => rw [List.takeWhile_cons_of_neg (by simp [stops c rfl]), List.append_nil]

theorem dropWhile_append {p : Char → Bool} {rest : List Char} (all : cs.all p = true)
    (stops : Stops p rest) : (cs ++ rest).dropWhile p = rest := by
  rw [List.dropWhile_append_of_pos (List.all_eq_true.1 all)]
  cases rest with
  | nil => rfl
  | cons c rest => rw [List.dropWhile_cons_of_neg (by simp [stops c rfl])]

theorem Numeric.isToken (numeric : Numeric cs) : cs.all isToken = true := by
  obtain ⟨first, rest, rfl, begins⟩ := numeric.begins
  refine List.all_eq_true.2 fun c hc => ?_
  rcases List.mem_cons.1 hc with rfl | hc
  · rcases begins with digit | rfl | rfl
    · simp [Toml.isToken, Char.isAlphanum, digit]
    · rfl
    · rfl
  · have plain := numeric.plain c hc
    simp only [isPunctuation, Bool.not_eq_false'] at plain
    rw [Toml.isToken, plain]
    rfl

theorem readToken_of_writes (writes : Writes cs n) (word : -2 ^ 63 ≤ n ∧ n < 2 ^ 63)
    {rest : List Char} (stops : Stops isToken rest) :
    readToken (cs ++ rest) = some (.integer n, rest) := by
  have numeric := writes.numeric
  have noDate : isDate cs = false := by
    rw [isDate, numeric.afterDate?_eq]
    rfl
  simp only [readToken, takeWhile_append numeric.isToken stops,
    dropWhile_append numeric.isToken stops, noDate, ofToken?_of_writes writes word]
  rfl

end LiveItems.Toml
