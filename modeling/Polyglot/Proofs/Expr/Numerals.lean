import Polyglot.Proofs.Double.Shortest
import Polyglot.Proofs.Expr.Lexemes

/-!
# Numbers are read back

A numeral is written part by part, and each part ends where the next one begins, so that all parts
are got back. What is written for a number is such a numeral: for an integer its digits, for a float
the digits of a decimal with the point among them or with an exponent. The value of that numeral is
the value of the decimal, which is rounded to the float.

- `Source.Numeral.write`: the text of a numeral; `Source.numeral_write`: its parts are got back.
- `Decimal.exists_numeral`: the numeral that a decimal is written as.
- `Source.outcome_readNumber`: a numeral is read as what it denotes.
- `Source.literal_intNumeral`, `Source.exists_numeral_float`: the numerals of numbers denote them.
-/

namespace Polyglot

namespace Source

/-! ## Numerals -/

namespace Numeral

/-- The sign of a number. -/
def sign (negative : Bool) : List Char := if negative then ['-'] else []

/-- The digits after the point. -/
def writeFraction : Option (List Char) → List Char
  | none => []
  | some digits => '.' :: digits

/-- The exponent. -/
def writeExponent : Option (Bool × List Char) → List Char
  | none => []
  | some e => 'e' :: (sign e.1 ++ e.2)

/-- The text of a numeral. -/
def write (n : Numeral) : List Char :=
  sign n.negative ++ (n.whole ++ (writeFraction n.fraction ++ writeExponent n.exponent))

/-- A numeral with digits in all the places where they belong. -/
structure Proper (n : Numeral) : Prop where
  ne_nil : n.whole ≠ []
  whole : ∀ c ∈ n.whole, c.isDigit = true
  fraction : ∀ digits ∈ n.fraction, ∀ c ∈ digits, c.isDigit = true
  exponent : ∀ e ∈ n.exponent, e.2 ≠ [] ∧ ∀ c ∈ e.2, c.isDigit = true

/-- All digits, as one number. -/
def coeff (n : Numeral) : Nat := Nat.ofDigitChars 10 (n.whole ++ n.fraction.getD []) 0

/-- The exponent of the last digit. -/
def exp (n : Numeral) : Int :=
  (match n.exponent with
    | none => 0
    | some (negative, digits) =>
      let magnitude : Int := Nat.ofDigitChars 10 digits 0
      if negative then -magnitude else magnitude) - (n.fraction.getD []).length

/-- A numeral with a point or an exponent denotes a float. -/
theorem Proper.literal_eq {n : Numeral} (h : n.Proper)
    (hfloat : n.fraction.isSome ∨ n.exponent.isSome) (text : List Char) :
    n.literal text = .ok (.float
      (Double.ofMagnitude n.negative (Decimal.strip n.coeff n.exp).nearestMagnitude)) := by
  obtain ⟨negative, whole, fraction, exponent⟩ := n
  cases exponent with
  | none =>
    cases fraction with
    | none => simp at hfloat
    | some digits => rfl
  | some e =>
    have hne : e.2.isEmpty = false := by
      have := (h.exponent e rfl).1
      simpa using this
    cases fraction <;> simp [literal, hne, Double.ofDecimalText, coeff, exp]

end Numeral

open Numeral

theorem leadingMinus_sign {negative : Bool} {text : List Char} (h : ∀ c ∈ text.head?, c ≠ '-') :
    leadingMinus (sign negative ++ text) = (negative, text) := by
  cases negative with
  | true => rfl
  | false =>
    cases text with
    | nil => rfl
    | cons c cs =>
      rw [sign, if_neg Bool.false_ne_true, List.nil_append, leadingMinus]
      exact fun _ heq => h c rfl (List.cons.inj heq).1

theorem exponentSign_sign {negative : Bool} {text : List Char}
    (h : ∀ c ∈ text.head?, c ≠ '-' ∧ c ≠ '+') :
    exponentSign (sign negative ++ text) = (negative, text) := by
  cases negative with
  | true => rfl
  | false =>
    cases text with
    | nil => rfl
    | cons c cs =>
      rw [sign, if_neg Bool.false_ne_true, List.nil_append, exponentSign]
      · exact fun _ heq => (h c rfl).2 (List.cons.inj heq).1
      · exact fun _ heq => (h c rfl).1 (List.cons.inj heq).1

theorem numeralFraction_write {fraction : Option (List Char)} {rest : List Char}
    (h : ∀ digits ∈ fraction, ∀ c ∈ digits, c.isDigit = true)
    (hrest : ∀ c ∈ rest.head?, c.isDigit = false ∧ c ≠ '.') :
    numeralFraction (writeFraction fraction ++ rest) = (fraction, rest) := by
  cases fraction with
  | none =>
    cases rest with
    | nil => rfl
    | cons c cs =>
      rw [writeFraction, List.nil_append, numeralFraction]
      exact fun _ heq => (hrest c rfl).2 (List.cons.inj heq).1
  | some digits =>
    rw [writeFraction, List.cons_append, numeralFraction,
      span_append (h digits rfl) fun c hc => (hrest c hc).1]

theorem numeralExponent_write {exponent : Option (Bool × List Char)} {rest : List Char}
    (h : ∀ e ∈ exponent, e.2 ≠ [] ∧ ∀ c ∈ e.2, c.isDigit = true) (hrest : Apart rest) :
    numeralExponent (writeExponent exponent ++ rest) = (exponent, rest) := by
  cases exponent with
  | none =>
    cases rest with
    | nil => rfl
    | cons c cs =>
      -- these marks could go on an identifier
      have hne : ∀ d, isIdentChar d = true → c ≠ d :=
        fun d hd => (ne_of_class hd (hrest c rfl).1).symm
      rw [writeExponent, List.nil_append, numeralExponent]
      · exact fun _ heq => hne 'e' (by decide +kernel) (List.cons.inj heq).1
      · exact fun _ heq => hne 'E' (by decide +kernel) (List.cons.inj heq).1
  | some e =>
    obtain ⟨hne, hdigits⟩ := h e rfl
    have hhead : ∀ c ∈ (e.2 ++ rest).head?, c ≠ '-' ∧ c ≠ '+' := by
      obtain ⟨d, ds, hds⟩ := List.exists_cons_of_ne_nil hne
      rw [hds]
      rintro _ ⟨⟩
      have hd : d.isDigit = true := hdigits d (hds ▸ List.mem_cons_self)
      exact ⟨ne_of_class hd (by decide), ne_of_class hd (by decide)⟩
    rw [writeExponent, List.cons_append, List.append_assoc, numeralExponent]
    · rw [exponentSign_sign hhead]
      dsimp only
      rw [span_append hdigits hrest.isDigit_eq_false]

/-- The parts of a numeral are got back from its text. -/
theorem numeral_write {n : Numeral} (h : n.Proper) {rest : List Char} (hrest : Apart rest) :
    numeral (n.write ++ rest) = (n, rest) := by
  obtain ⟨d, ds, hds⟩ := List.exists_cons_of_ne_nil h.ne_nil
  have hd : d.isDigit = true := h.whole d (hds ▸ List.mem_cons_self)
  -- each part ends at the mark of the next one, or where the numeral does
  have hexponent : ∀ c ∈ (writeExponent n.exponent ++ rest).head?, c.isDigit = false ∧ c ≠ '.' := by
    cases n.exponent with
    | none => exact fun c hc => ⟨hrest.isDigit_eq_false c hc, (hrest c hc).2⟩
    | some e =>
      rintro _ ⟨⟩
      decide
  have hfraction : ∀ c ∈ (writeFraction n.fraction ++ (writeExponent n.exponent ++ rest)).head?,
      c.isDigit = false := by
    cases n.fraction with
    | none => exact fun c hc => (hexponent c hc).1
    | some digits =>
      rintro _ ⟨⟩
      decide
  have hsign : ∀ c ∈ (n.whole ++ (writeFraction n.fraction ++
      (writeExponent n.exponent ++ rest))).head?, c ≠ '-' := by
    rw [hds]
    rintro _ ⟨⟩
    exact ne_of_class hd (by decide)
  rw [write, List.append_assoc, List.append_assoc, List.append_assoc, numeral,
    leadingMinus_sign hsign]
  dsimp only
  rw [span_append h.whole hfraction]
  dsimp only
  rw [numeralFraction_write h.fraction hexponent]
  dsimp only
  rw [numeralExponent_write h.exponent hrest]

/-- A numeral is read as what it denotes. -/
theorem outcome_readNumber {n : Numeral} (h : n.Proper) {rest : List Char} (hrest : Apart rest) :
    outcome (readNumber (n.write ++ rest)) =
      (n.literal n.write).toOption.map fun value => (.lit value, rest) := by
  have hnumeral := numeral_write h hrest
  have htake : (n.write ++ rest).take ((n.write ++ rest).length - rest.length) = n.write := by
    simp
  unfold readNumber
  split
  · rename_i hnil
    rw [hnumeral] at hnil
    exact absurd hnil h.ne_nil
  · dsimp only
    split
    · rename_i error herror
      rw [hnumeral, htake] at herror
      simp [herror, Except.toOption]
    · rename_i value hvalue
      rw [hnumeral, htake] at hvalue
      simp [hvalue, Except.toOption, hnumeral]

/-! ## Integers -/

/-- The numeral of an integer. -/
def intNumeral (n : Int) : Numeral := ⟨decide (n < 0), Nat.toDigits 10 n.natAbs, none, none⟩

theorem proper_intNumeral (n : Int) : (intNumeral n).Proper where
  ne_nil := Nat.toDigits_ne_nil
  whole _ := isDigit_of_mem_toDigits
  fraction := nofun
  exponent := nofun

theorem write_intNumeral (n : Int) : (intNumeral n).write = (toString n).toList := by
  cases n with
  | ofNat k =>
    have htext : toString (Int.ofNat k) = toString k := rfl
    rw [htext, Nat.toString_eq_ofList_toDigits, String.toList_ofList]
    simp [intNumeral, Numeral.write, sign, writeFraction, writeExponent]
  | negSucc k =>
    have htext : toString (Int.negSucc k) = "-" ++ toString (k + 1) := rfl
    rw [htext, Nat.toString_eq_ofList_toDigits, String.toList_append, String.toList_ofList]
    simp [intNumeral, Numeral.write, sign, writeFraction, writeExponent]

/-- An integer is its magnitude with its sign. -/
theorem signed_natAbs (n : Int) :
    (if decide (n < 0) = true then -(n.natAbs : Int) else n.natAbs) = n := by
  split <;> rename_i hneg <;> simp only [decide_eq_true_eq] at hneg <;> omega

/-- The numeral of an integer of 64 bits denotes it. -/
theorem literal_intNumeral {n : Int} (h : -2 ^ 63 ≤ n ∧ n < 2 ^ 63) :
    (intNumeral n).literal (intNumeral n).write = .ok (.int n) := by
  simp only [Numeral.literal, intNumeral, Nat.ofDigitChars_ten_toDigits, signed_natAbs]
  exact if_pos h

end Source

/-! ## Decimals -/

namespace Decimal

open Source Source.Numeral

/-- Digits with the point among them are digits before a point and digits after it, of the same
value together. -/
theorem exists_point {digits : List Char} (hne : digits ≠ [])
    (hdigits : ∀ c ∈ digits, c.isDigit = true) (lead : Int) :
    ∃ whole fraction : List Char, whole ≠ [] ∧ (∀ c ∈ whole ++ fraction, c.isDigit = true) ∧
      positionalText digits lead = whole ++ '.' :: fraction ∧
      (Nat.ofDigitChars 10 (whole ++ fraction) 0 * 10 ^ (-(fraction.length : Int)) : ℚ) =
        Nat.ofDigitChars 10 digits 0 * 10 ^ (lead + 1 - digits.length) := by
  have hzeros : ∀ k, ∀ c ∈ List.replicate k '0', c.isDigit = true := by
    intro k c hc
    rw [(List.mem_replicate.1 hc).2]
    decide
  unfold positionalText
  dsimp only
  split_ifs with hlead hwhole
  · -- the point comes first
    refine ⟨['0'], List.replicate (-lead - 1).toNat '0' ++ digits, by simp, ?_, rfl, ?_⟩
    · intro c hc
      rw [← List.append_assoc] at hc
      exact (List.mem_append.1 hc).elim (hzeros ((-lead - 1).toNat + 1) c) (hdigits c)
    · have hexp : -(((-lead - 1).toNat + digits.length : Nat) : Int) =
          lead + 1 - digits.length := by omega
      rw [List.length_append, List.length_replicate, hexp, ← List.append_assoc,
        Nat.ofDigitChars_append, Nat.ofDigitChars_append, Nat.ofDigitChars_replicate_zero]
      simp [Nat.ofDigitChars]
  · -- the point comes last
    obtain ⟨k, hk⟩ : ∃ k : Nat, lead.toNat + 1 = digits.length + k :=
      ⟨_, (Nat.add_sub_of_le hwhole).symm⟩
    refine ⟨digits ++ List.replicate k '0', ['0'], by simp [hne], ?_, ?_, ?_⟩
    · intro c hc
      rw [List.append_assoc] at hc
      refine (List.mem_append.1 hc).elim (hdigits c) fun hc => hzeros (k + 1) c ?_
      rwa [List.replicate_succ']
    · rw [hk, Nat.add_sub_cancel_left]
    · have hexp : lead + 1 - digits.length = (k : Int) := by omega
      have hzero : Nat.ofDigitChars 10 ['0'] (10 ^ k * Nat.ofDigitChars 10 digits 0) =
          10 * (10 ^ k * Nat.ofDigitChars 10 digits 0) := by simp [Nat.ofDigitChars]
      rw [Nat.ofDigitChars_append, Nat.ofDigitChars_append, Nat.ofDigitChars_replicate_zero, hzero,
        hexp]
      simp
      ring
  · -- the point stands between two digits
    have hsplit : digits.take (lead.toNat + 1) ++ digits.drop (lead.toNat + 1) = digits :=
      List.take_append_drop _ _
    have hexp : -((digits.length - (lead.toNat + 1) : Nat) : Int) = lead + 1 - digits.length := by
      omega
    refine ⟨digits.take (lead.toNat + 1), digits.drop (lead.toNat + 1), by simp [hne], ?_, rfl, ?_⟩
    · rwa [hsplit]
    · rw [hsplit, List.length_drop, hexp]

/-- So they make a numeral of this value. -/
theorem exists_numeral_positional (negative : Bool) {digits : List Char} (hne : digits ≠ [])
    (hdigits : ∀ c ∈ digits, c.isDigit = true) (lead : Int) :
    ∃ n : Numeral, n.Proper ∧ n.fraction.isSome ∧ n.negative = negative ∧
      n.write = sign negative ++ positionalText digits lead ∧
      (n.coeff * 10 ^ n.exp : ℚ) =
        Nat.ofDigitChars 10 digits 0 * 10 ^ (lead + 1 - digits.length) := by
  obtain ⟨whole, fraction, hwhole, hall, htext, hvalue⟩ := exists_point hne hdigits lead
  refine ⟨⟨negative, whole, some fraction, none⟩,
    ⟨hwhole, fun c hc => hall c (List.mem_append_left _ hc), ?_, nofun⟩, rfl, rfl, ?_, ?_⟩
  · rintro _ ⟨⟩ c hc
    exact hall c (List.mem_append_right _ hc)
  · simp [Numeral.write, writeFraction, writeExponent, htext]
  · simpa only [Numeral.coeff, Numeral.exp, Option.getD_some, zero_sub] using hvalue

/-- Digits with an exponent make one, too. -/
theorem exists_numeral_exponent (negative : Bool) {digits : List Char} (hne : digits ≠ [])
    (hdigits : ∀ c ∈ digits, c.isDigit = true) (lead : Int) :
    ∃ n : Numeral, n.Proper ∧ n.exponent.isSome ∧ n.negative = negative ∧
      n.write = sign negative ++ exponentText digits lead ∧
      (n.coeff * 10 ^ n.exp : ℚ) =
        Nat.ofDigitChars 10 digits 0 * 10 ^ (lead + 1 - digits.length) := by
  have hlead : (toString lead).toList =
      sign (decide (lead < 0)) ++ Nat.toDigits 10 lead.natAbs := by
    rw [← write_intNumeral]
    simp [intNumeral, Numeral.write, writeFraction, writeExponent]
  have hproper : ∀ e ∈ some (decide (lead < 0), Nat.toDigits 10 lead.natAbs),
      e.2 ≠ [] ∧ ∀ c ∈ e.2, c.isDigit = true := by
    rintro _ ⟨⟩
    exact ⟨Nat.toDigits_ne_nil, fun _ => isDigit_of_mem_toDigits⟩
  obtain ⟨d, ds, rfl⟩ := List.exists_cons_of_ne_nil hne
  have hd : ∀ c ∈ [d], c.isDigit = true :=
    fun c hc => hdigits c (List.mem_singleton.1 hc ▸ List.mem_cons_self)
  cases ds with
  | nil =>
    refine ⟨⟨negative, [d], none, some (decide (lead < 0), Nat.toDigits 10 lead.natAbs)⟩,
      ⟨by simp, hd, nofun, hproper⟩, rfl, rfl, ?_, ?_⟩
    · simp only [exponentText, hlead]
      simp [Numeral.write, writeFraction, writeExponent]
    · simp only [Numeral.coeff, Numeral.exp, Option.getD_none, Nat.ofDigitChars_ten_toDigits,
        signed_natAbs]
      simp
  | cons d' ds =>
    refine ⟨⟨negative, [d], some (d' :: ds), some (decide (lead < 0), Nat.toDigits 10 lead.natAbs)⟩,
      ⟨by simp, hd, ?_, hproper⟩, rfl, rfl, ?_, ?_⟩
    · rintro _ ⟨⟩ c hc
      exact hdigits c (List.mem_cons_of_mem _ hc)
    · simp only [exponentText, hlead]
      simp [Numeral.write, writeFraction, writeExponent]
    · have hexp : lead - ((d' :: ds).length : Int) = lead + 1 - (d :: d' :: ds).length := by
        simp only [List.length_cons]
        push_cast
        ring
      simp only [Numeral.coeff, Numeral.exp, Option.getD_some, Nat.ofDigitChars_ten_toDigits,
        signed_natAbs, hexp, List.singleton_append]

/-- The text of a decimal is a numeral of its value that denotes a float. -/
theorem exists_numeral (d : Decimal) (negative : Bool) :
    ∃ n : Numeral, n.Proper ∧ (n.fraction.isSome ∨ n.exponent.isSome) ∧ n.negative = negative ∧
      n.write = sign negative ++ d.text ∧ (n.coeff * 10 ^ n.exp : ℚ) = d.value := by
  have hne : d.digits ≠ [] := Nat.toDigits_ne_nil
  have hdigits : ∀ c ∈ d.digits, c.isDigit = true := fun _ => isDigit_of_mem_toDigits
  have hvalue : (Nat.ofDigitChars 10 d.digits 0 *
      10 ^ (d.exp + d.digits.length - 1 + 1 - d.digits.length) : ℚ) = d.value := by
    rw [digits, Nat.ofDigitChars_ten_toDigits, value]
    congr 2
    ring
  unfold text
  dsimp only
  split
  · obtain ⟨n, hproper, hfloat, hneg, hwrite, heq⟩ :=
      exists_numeral_positional negative hne hdigits (d.exp + d.digits.length - 1)
    exact ⟨n, hproper, .inl hfloat, hneg, hwrite, heq.trans hvalue⟩
  · obtain ⟨n, hproper, hfloat, hneg, hwrite, heq⟩ :=
      exists_numeral_exponent negative hne hdigits (d.exp + d.digits.length - 1)
    exact ⟨n, hproper, .inr hfloat, hneg, hwrite, heq.trans hvalue⟩

end Decimal

/-! ## Floats -/

namespace Source

open Numeral

theorem text_of_isFinite {x : Double} (h : x.isFinite = true) :
    x.text.toList = sign x.signBit ++ (Double.shortest x.magnitude).text := by
  have hnan : x.isNaN = false := by
    simp only [Double.isFinite, decide_eq_true_eq] at h
    simp only [Double.isNaN, decide_eq_false_iff_not]
    omega
  rw [Double.text, hnan, h]
  cases x.signBit <;> simp [sign]

/-- The text of a finite float is a numeral that denotes it, with its sign and to the last bit. -/
theorem exists_numeral_float {x : Double} (h : x.isFinite = true) :
    ∃ n : Numeral, n.Proper ∧ n.write = x.text.toList ∧
      n.literal n.write = .ok (.float x) := by
  have hmagnitude : x.magnitude < Double.infinityMagnitude := by
    simpa [Double.isFinite] using h
  obtain ⟨n, hproper, hfloat, hneg, hwrite, hvalue⟩ :=
    (Double.shortest x.magnitude).exists_numeral x.signBit
  refine ⟨n, hproper, by rw [hwrite, text_of_isFinite h], ?_⟩
  rw [hproper.literal_eq hfloat, (Double.normal_shortest _).strip_eq hvalue,
    Double.nearestMagnitude_shortest hmagnitude, hneg, Double.ofMagnitude_magnitude]

end Source

end Polyglot
