import Mathlib.Data.Nat.Digits.Lemmas

/-!
# Sumeru - Numbers and their numerals

The two directions of the C library: {lit}`ui2a` of {lit}`tinyprintf.c` writes a number in a
base, and {lit}`strntoumax`, behind {lit}`strtol` and {lit}`sscanf`, reads one.
A string is the list of its characters without the zero byte at its end; a pointer into
it is the rest of the list.

Main results:

- Theorem {lit}`ui2a_eq`: {lit}`ui2a` writes the digits of the number, the highest first.
- Theorem {lit}`readDigits_digits`: the reader of digits gets the number back.
- Theorem {lit}`strntoumax_text`: blanks, a sign and a prefix in front of a numeral are read as
  such.
-/

namespace Sumeru

/-! ## Characters -/

/-- A byte of a string. -/
abbrev Octet := BitVec 8

/-- The byte of an ASCII character. -/
def ascii (c : Char) : Octet := BitVec.ofNat 8 c.toNat

/-- {lit}`isspace` of {lit}`ctype.h`. -/
def isspace (c : Octet) : Bool :=
  c == ascii ' ' || c == ascii '\n' || c == ascii '\t' || c == ascii '\r'

/-- {lit}`digitval`; {lit}`none` is -1. -/
def digitval (c : Octet) : Option ℕ :=
  if ascii '0' ≤ c ∧ c ≤ ascii '9' then some (c.toNat - (ascii '0').toNat)
  else if ascii 'A' ≤ c ∧ c ≤ ascii 'Z' then some (c.toNat - (ascii 'A').toNat + 10)
  else if ascii 'a' ≤ c ∧ c ≤ ascii 'z' then some (c.toNat - (ascii 'a').toNat + 10)
  else none

/-- The character of a digit, as {lit}`ui2a` computes it. -/
def digitChar (uc : Bool) (dgt : ℕ) : Octet :=
  BitVec.ofNat 8 (dgt + if dgt < 10 then (ascii '0').toNat
    else (if uc then (ascii 'A').toNat else (ascii 'a').toNat) - 10)

/-- A digit is read back from its character. -/
theorem digitval_digitChar (uc : Bool) {d : ℕ} (hd : d < 36) :
    digitval (digitChar uc d) = some d := by
  have hall : ∀ uc : Bool, ∀ d : Fin 36, digitval (digitChar uc d) = some d.val := by decide
  exact hall uc ⟨d, hd⟩

/-- No digit is a blank, a sign or the end of a string. -/
theorem digitChar_ne (uc : Bool) {d : ℕ} (hd : d < 36) :
    digitChar uc d ≠ 0#8 ∧ isspace (digitChar uc d) = false ∧ digitChar uc d ≠ ascii '-' ∧
      digitChar uc d ≠ ascii '+' := by
  have hall : ∀ uc : Bool, ∀ d : Fin 36, digitChar uc d ≠ 0#8 ∧
      isspace (digitChar uc d) = false ∧ digitChar uc d ≠ ascii '-' ∧
      digitChar uc d ≠ ascii '+' := by decide
  exact hall uc ⟨d, hd⟩

/-! ## strntoumax.c -/

/-- The loop over the blanks in front. -/
def skipBlanks : List Octet → ℕ → List Octet × ℕ
  | c :: s, n + 1 => if isspace c then skipBlanks s n else (c :: s, n + 1)
  | s, n => (s, n)

/-- The optional sign. -/
def readSign : List Octet → ℕ → Bool × List Octet × ℕ
  | c :: s, n + 1 =>
      if c = ascii '-' ∨ c = ascii '+' then (c == ascii '-', s, n) else (false, c :: s, n + 1)
  | s, n => (false, s, n)

/-- The prefix {lit}`0x`. -/
def hexPrefixed (s : List Octet) (n : ℕ) : Bool :=
  2 ≤ n ∧ s.getD 0 0#8 = ascii '0' ∧ (s.getD 1 0#8 = ascii 'x' ∨ s.getD 1 0#8 = ascii 'X')

/-- The prefix that tells the base. -/
def readPrefix (base : ℕ) (s : List Octet) (n : ℕ) : ℕ × List Octet × ℕ :=
  if base = 0 then
    if hexPrefixed s n then (16, s.drop 2, n - 2)
    else if 1 ≤ n ∧ s.getD 0 0#8 = ascii '0' then (8, s.drop 1, n - 1)
    else (10, s, n)
  else if base = 16 then
    if hexPrefixed s n then (16, s.drop 2, n - 2) else (16, s, n)
  else (base, s, n)

/-- The loop over the digits; {lit}`uintmax_t` is {lit}`long unsigned int`. -/
def readDigits (base : ℕ) (v : BitVec 32) : List Octet → ℕ → BitVec 32 × List Octet
  | c :: s, n + 1 =>
      match digitval c with
      | some d =>
          if d < base then readDigits base (v * BitVec.ofNat 32 base + BitVec.ofNat 32 d) s n
          else (v, c :: s)
      | none => (v, c :: s)
  | s, _ => (v, s)

/-- {lit}`strntoumax`: the number and {lit}`*endptr`. -/
def strntoumax (s : List Octet) (base n : ℕ) : BitVec 32 × List Octet :=
  let (s, n) := skipBlanks s n
  let (minus, s, n) := readSign s n
  let (base, s, n) := readPrefix base s n
  let (v, s) := readDigits base 0#32 s n
  (if minus then -v else v, s)

/-- {lit}`strtol` and {lit}`strtoul` with {lit}`endptr`: {lit}`long` has the 32 bits of
{lit}`uintmax_t`. -/
def strtol (s : List Octet) (base : ℕ) : BitVec 32 × List Octet :=
  strntoumax s base (2 ^ 32 - 1)

/-! ## ui2a and i2a -/

/-- The loop that finds the place value of the first digit. -/
def placeValue (base num : ℕ) : ℕ → ℕ → ℕ
  | 0, d => d
  | fuel + 1, d => if base ≤ num / d then placeValue base num fuel (d * base % 2 ^ 32) else d

/-- The loop that writes the digits; {lit}`n` counts those that are written. -/
def digitLoop (base : ℕ) : ℕ → ℕ → ℕ → ℕ → List ℕ
  | 0, _, _, _ => []
  | fuel + 1, num, d, n =>
      if d = 0 then []
      else
        let dgt := num / d
        let num := num % d
        let d := d / base
        if n ≠ 0 ∨ 0 < dgt ∨ d = 0 then dgt :: digitLoop base fuel num d (n + 1)
        else digitLoop base fuel num d n

/-- {lit}`ui2a`: the string in {lit}`p->bf`.  A number of 32 bits has at most 32 digits. -/
def ui2a (num : BitVec 32) (base : ℕ) (uc : Bool) : List Octet :=
  (digitLoop base 33 num.toNat (placeValue base num.toNat 32 1) 0).map (digitChar uc)

/-- {lit}`i2a`: the sign and the string. -/
def i2a (num : BitVec 32) (base : ℕ) (uc : Bool) : Option Octet × List Octet :=
  if num.slt 0#32 then (some (ascii '-'), ui2a (-num) base uc) else (none, ui2a num base uc)

/-! ## Digits -/

section Digits

variable {base num k fuel n : ℕ}

/-- The digits of a number, the highest first. -/
def numeral (base num : ℕ) : List ℕ := if num = 0 then [0] else (Nat.digits base num).reverse

/-- The lowest {lit}`k` digits of a number, the highest first. -/
def lowDigits (base : ℕ) : ℕ → ℕ → List ℕ
  | 0, _ => []
  | k + 1, num => num / base ^ k :: lowDigits base k (num % base ^ k)

/-- The value of digits, the highest first. -/
def digitsValue (base : ℕ) (ds : List ℕ) : ℕ := Nat.ofDigits base ds.reverse

/-- The first digit counts most. -/
theorem digitsValue_cons (d : ℕ) (ds : List ℕ) :
    digitsValue base (d :: ds) = d * base ^ ds.length + digitsValue base ds := by
  rw [digitsValue, List.reverse_cons, Nat.ofDigits_append, Nat.ofDigits_singleton,
    List.length_reverse, digitsValue, Nat.add_comm, Nat.mul_comm]

/-- Leading zeros do not count. -/
theorem digitsValue_replicate (z : ℕ) (ds : List ℕ) :
    digitsValue base (List.replicate z 0 ++ ds) = digitsValue base ds := by
  induction z with
  | zero => rfl
  | succ z ih => rw [List.replicate_succ, List.cons_append, digitsValue_cons, ih, zero_mul, zero_add]

/-- A numeral of {lit}`k` digits has {lit}`k` digits. -/
theorem lowDigits_length : ∀ k num, (lowDigits base k num).length = k
  | 0, _ => rfl
  | k + 1, num => by rw [lowDigits, List.length_cons, lowDigits_length k]

/-- Digits are below the base. -/
theorem lowDigits_lt (hbase : 0 < base) :
    ∀ k num, num < base ^ k → ∀ d ∈ lowDigits base k num, d < base
  | 0, _, _, _, hd => by simp [lowDigits] at hd
  | k + 1, num, hnum, d, hd => by
      have hpos : 0 < base ^ k := Nat.pow_pos hbase
      rw [lowDigits, List.mem_cons] at hd
      obtain rfl | hd := hd
      · rw [Nat.div_lt_iff_lt_mul hpos, ← Nat.pow_succ']
        exact hnum
      · exact lowDigits_lt hbase k _ (Nat.mod_lt _ hpos) d hd

/-- The digits of a number have its value. -/
theorem digitsValue_lowDigits (hbase : 0 < base) :
    ∀ k num, num < base ^ k → digitsValue base (lowDigits base k num) = num
  | 0, num, hnum => by
      rw [Nat.pow_zero, Nat.lt_one_iff] at hnum
      rw [hnum]
      rfl
  | k + 1, num, _ => by
      rw [lowDigits, digitsValue_cons, lowDigits_length,
        digitsValue_lowDigits hbase k _ (Nat.mod_lt _ (Nat.pow_pos hbase)), Nat.mul_comm]
      exact Nat.div_add_mod num (base ^ k)

/-- If the highest of them is not zero, the lowest digits are all there are. -/
theorem lowDigits_eq_numeral (hbase : 2 ≤ base) (hlow : k = 0 ∨ base ^ k ≤ num)
    (hnum : num < base ^ (k + 1)) : lowDigits base (k + 1) num = numeral base num := by
  have hpos : 0 < base := by omega
  rw [numeral]
  split_ifs with hzero
  · obtain rfl | hle := hlow
    · simp [hzero, lowDigits]
    · have hk : 0 < base ^ k := Nat.pow_pos hpos
      omega
  · have hvalue := digitsValue_lowDigits hpos (k + 1) num hnum
    have hdigits := Nat.digits_ofDigits base (by omega) (lowDigits base (k + 1) num).reverse
      (fun d hd => lowDigits_lt hpos _ _ hnum d (List.mem_reverse.mp hd)) fun hne => by
        simp only [lowDigits, List.reverse_cons, List.getLast_append_singleton, ne_eq,
          Nat.div_eq_zero_iff, not_or, not_lt]
        refine ⟨(Nat.pow_pos hpos).ne', ?_⟩
        obtain rfl | hle := hlow
        · simpa using Nat.one_le_iff_ne_zero.mpr hzero
        · exact hle
    rw [digitsValue] at hvalue
    rw [hvalue] at hdigits
    rw [hdigits, List.reverse_reverse]

/-! ## What ui2a writes -/

/-- The place value of the first digit. -/
theorem placeValue_eq (hbase : 2 ≤ base) (hnum : num < 2 ^ 32) (j : ℕ)
    (hlow : j = 0 ∨ base ^ j ≤ num) (hfuel : num < base ^ (j + fuel + 1)) :
    ∃ k, k ≤ j + fuel ∧ placeValue base num fuel (base ^ j) = base ^ k ∧
      (k = 0 ∨ base ^ k ≤ num) ∧ num < base ^ (k + 1) := by
  induction fuel generalizing j with
  | zero => exact ⟨j, le_rfl, rfl, hlow, hfuel⟩
  | succ fuel ih =>
      have hpos : 0 < base ^ j := Nat.pow_pos (by omega)
      rw [placeValue]
      split_ifs with hmore
      · rw [Nat.le_div_iff_mul_le hpos, ← Nat.pow_succ'] at hmore
        rw [← Nat.pow_succ, Nat.mod_eq_of_lt (by omega)]
        obtain ⟨k, hk, hrest⟩ := ih (j + 1) (Or.inr hmore)
          (by rwa [show j + 1 + fuel + 1 = j + (fuel + 1) + 1 by omega])
        exact ⟨k, by omega, hrest⟩
      · rw [Nat.le_div_iff_mul_le hpos, ← Nat.pow_succ', not_le] at hmore
        exact ⟨j, by omega, rfl, hlow, hmore⟩

/-- From a place value on that is written, all lower digits are. -/
theorem digitLoop_eq (hbase : 2 ≤ base) (hfuel : k < fuel)
    (hfirst : n ≠ 0 ∨ k = 0 ∨ base ^ k ≤ num) :
    digitLoop base fuel num (base ^ k) n = lowDigits base (k + 1) num := by
  induction k generalizing fuel num n with
  | zero =>
      obtain ⟨f, rfl⟩ := Nat.exists_eq_succ_of_ne_zero (show fuel ≠ 0 by omega)
      have hone : 1 / base = 0 := Nat.div_eq_of_lt (by omega)
      have hend : ∀ num n, digitLoop base f num 0 n = [] := fun num n => by
        cases f <;> simp [digitLoop]
      simp [digitLoop, lowDigits, hone, Nat.mod_one, hend]
  | succ k ih =>
      obtain ⟨f, rfl⟩ := Nat.exists_eq_succ_of_ne_zero (show fuel ≠ 0 by omega)
      have hpos : 0 < base ^ (k + 1) := Nat.pow_pos (by omega)
      have hdown : base ^ (k + 1) / base = base ^ k := by
        rw [Nat.pow_succ, Nat.mul_div_cancel _ (by omega)]
      have hwritten : n ≠ 0 ∨ 0 < num / base ^ (k + 1) ∨ base ^ k = 0 := by
        obtain hn | hk | hle := hfirst
        · exact Or.inl hn
        · omega
        · exact Or.inr (Or.inl (Nat.div_pos hle hpos))
      simp only [digitLoop, if_neg hpos.ne', hdown, if_pos hwritten]
      rw [ih (by omega) (Or.inl (Nat.succ_ne_zero n))]
      rfl

/-- {lit}`ui2a` writes the digits of the number, the highest first. -/
theorem ui2a_eq (num : BitVec 32) (hbase : 2 ≤ base) (uc : Bool) :
    ui2a num base uc = (numeral base num.toNat).map (digitChar uc) := by
  have hnum := num.isLt
  have hlt : num.toNat < base ^ (0 + 32 + 1) :=
    calc num.toNat < 2 ^ 32 := hnum
      _ ≤ 2 ^ 33 := by decide
      _ ≤ base ^ (0 + 32 + 1) := Nat.pow_le_pow_left hbase 33
  obtain ⟨k, hk, hplace, hlow, hhigh⟩ := @placeValue_eq base _ 32 hbase hnum 0 (Or.inl rfl) hlt
  rw [Nat.pow_zero] at hplace
  rw [ui2a, hplace, digitLoop_eq hbase (by omega) (Or.inr hlow),
    lowDigits_eq_numeral hbase hlow hhigh]

/-! ## What strntoumax reads -/

/-- No digit follows, in any base. -/
def NoDigit (rest : List Octet) : Prop := ∀ c ∈ rest.head?, digitval c = none

/-- The loop over digits reads them all and stops behind them. -/
theorem readDigits_digits {ds : List ℕ} {rest : List Octet} (uc : Bool) (hbase : base ≤ 36)
    (hds : ∀ d ∈ ds, d < base) (hrest : NoDigit rest) (v : ℕ) (hn : ds.length ≤ n) :
    readDigits base (BitVec.ofNat 32 v) (ds.map (digitChar uc) ++ rest) n =
      (BitVec.ofNat 32 (v * base ^ ds.length + digitsValue base ds), rest) := by
  induction ds generalizing v n with
  | nil =>
      have hstop : readDigits base (BitVec.ofNat 32 v) rest n = (BitVec.ofNat 32 v, rest) := by
        cases rest with
        | nil => simp [readDigits]
        | cons c rest =>
            cases n with
            | zero => rfl
            | succ n => simp only [readDigits, hrest c rfl]
      simpa [digitsValue] using hstop
  | cons d ds ih =>
      obtain ⟨hd, hds⟩ := List.forall_mem_cons.mp hds
      rw [List.length_cons] at hn
      obtain ⟨n', rfl⟩ := Nat.exists_eq_succ_of_ne_zero (show n ≠ 0 by omega)
      have hval := digitval_digitChar uc (show d < 36 by omega)
      have hrest' := ih hds (v * base + d) (show ds.length ≤ n' by omega)
      simp only [List.map_cons, List.cons_append, readDigits, hval, if_pos hd,
        ← BitVec.ofNat_mul, ← BitVec.ofNat_add]
      rw [hrest', digitsValue_cons, List.length_cons]
      congr 2
      ring

/-- The text of a number: blanks, a sign, a prefix and digits. -/
structure NumberText where
  blanks : ℕ
  sign : Option Octet
  hexPrefix : Option Octet
  digits : List ℕ
  uc : Bool

namespace NumberText

/-- The characters of the prefix. -/
def lead (t : NumberText) : List Octet :=
  match t.hexPrefix with
  | some x => [ascii '0', x]
  | none => []

/-- The characters. -/
def text (t : NumberText) : List Octet :=
  List.replicate t.blanks (ascii ' ') ++
    (t.sign.toList ++ (t.lead ++ t.digits.map (digitChar t.uc)))

/-- The text is one of a number in the base. -/
structure IsNumber (t : NumberText) (base : ℕ) : Prop where
  known : base = 8 ∨ base = 10 ∨ base = 16
  sign : ∀ c ∈ t.sign, c = ascii '-' ∨ c = ascii '+'
  hexPrefix : ∀ x ∈ t.hexPrefix, base = 16 ∧ (x = ascii 'x' ∨ x = ascii 'X')
  digits : t.digits ≠ [] ∧ ∀ d ∈ t.digits, d < base

/-- The number that is written. -/
def value (t : NumberText) (base : ℕ) : BitVec 32 :=
  if t.sign = some (ascii '-') then -BitVec.ofNat 32 (digitsValue base t.digits)
  else BitVec.ofNat 32 (digitsValue base t.digits)

end NumberText

/-- Blanks are skipped as far as the length allows. -/
theorem skipBlanks_replicate (z : ℕ) {s : List Octet} (hs : ∀ c ∈ s.head?, isspace c = false)
    (hn : z ≤ n) : skipBlanks (List.replicate z (ascii ' ') ++ s) n = (s, n - z) := by
  induction z generalizing n with
  | zero =>
      cases s with
      | nil => simp [skipBlanks]
      | cons c s =>
          cases n with
          | zero => simp [skipBlanks]
          | succ n => simp [skipBlanks, hs c rfl]
  | succ z ih =>
      obtain ⟨n', rfl⟩ := Nat.exists_eq_succ_of_ne_zero (show n ≠ 0 by omega)
      have hblank : isspace (ascii ' ') = true := by decide
      rw [List.replicate_succ, List.cons_append, skipBlanks, if_pos hblank, ih (by omega)]
      congr 1
      omega

/-- A sign is read if there is one. -/
theorem readSign_toList {sign : Option Octet} (hsign : ∀ c ∈ sign, c = ascii '-' ∨ c = ascii '+')
    {s : List Octet} (hs : ∀ c ∈ s.head?, c ≠ ascii '-' ∧ c ≠ ascii '+')
    (hn : sign.toList.length ≤ n) :
    readSign (sign.toList ++ s) n =
      (sign == some (ascii '-'), s, n - sign.toList.length) := by
  cases sign with
  | none =>
      cases s with
      | nil => simp [readSign]
      | cons c s =>
          cases n with
          | zero => simp [readSign]
          | succ n => simp [readSign, hs c rfl]
  | some c =>
      obtain ⟨n', rfl⟩ := Nat.exists_eq_succ_of_ne_zero (show n ≠ 0 by simp at hn; omega)
      simp [readSign, hsign c rfl]

/-- A digit below the base is read as such. -/
theorem digitval_head {ds : List ℕ} {rest : List Octet} {uc : Bool} (hds : ∀ d ∈ ds, d < base)
    (hbase : base ≤ 36) (hrest : NoDigit rest) :
    ∀ c ∈ (ds.map (digitChar uc) ++ rest).head?, ∀ d ∈ digitval c, d < base := by
  intro c hc d hd
  cases ds with
  | nil =>
      rw [hrest c hc] at hd
      cases hd
  | cons e ds =>
      obtain rfl := Option.some.inj hc
      have he := hds e List.mem_cons_self
      rw [digitval_digitChar uc (by omega)] at hd
      obtain rfl := Option.some.inj hd
      exact he

/-- Digits are not taken for a prefix. -/
theorem hexPrefixed_digits {ds : List ℕ} {rest : List Octet} {uc : Bool} (hne : ds ≠ [])
    (hds : ∀ d ∈ ds, d < 16) (hrest : NoDigit rest) :
    hexPrefixed (ds.map (digitChar uc) ++ rest) n = false := by
  obtain ⟨d, ds, rfl⟩ := List.exists_cons_of_ne_nil hne
  have hx : digitval (ascii 'x') = some 33 ∧ digitval (ascii 'X') = some 33 := by decide
  have hsecond : ∀ c ∈ (ds.map (digitChar uc) ++ rest).head?, c ≠ ascii 'x' ∧ c ≠ ascii 'X' := by
    intro c hc
    have hlt := digitval_head (List.forall_mem_cons.mp hds).2 (by omega) hrest c hc 33
    constructor
    · rintro rfl
      exact absurd (hlt hx.1) (by omega)
    · rintro rfl
      exact absurd (hlt hx.2) (by omega)
  have hzero : (0#8 : Octet) ≠ ascii 'x' ∧ (0#8 : Octet) ≠ ascii 'X' := by decide
  have hget : (ds.map (digitChar uc) ++ rest).getD 0 0#8 ≠ ascii 'x' ∧
      (ds.map (digitChar uc) ++ rest).getD 0 0#8 ≠ ascii 'X' := by
    cases hl : ds.map (digitChar uc) ++ rest with
    | nil => exact hzero
    | cons c l => exact hsecond c (by rw [hl]; rfl)
  simp only [hexPrefixed, List.map_cons, List.cons_append, List.getD_cons_succ, hget, or_self,
    and_false, decide_false]

/-- The prefix of a number is skipped. -/
theorem readPrefix_lead {t : NumberText} (ht : t.IsNumber base) {rest : List Octet}
    (hrest : NoDigit rest) (hn : t.lead.length ≤ n) :
    readPrefix base (t.lead ++ (t.digits.map (digitChar t.uc) ++ rest)) n =
      (base, t.digits.map (digitChar t.uc) ++ rest, n - t.lead.length) := by
  cases hx : t.hexPrefix with
  | some x =>
      obtain ⟨rfl, hx'⟩ := ht.hexPrefix x hx
      have hlead : t.lead = [ascii '0', x] := by simp [NumberText.lead, hx]
      have htwo : 2 ≤ n := by simpa [hlead] using hn
      have hpre : ∀ s, hexPrefixed ([ascii '0', x] ++ s) n = true := fun s => by
        simp [hexPrefixed, htwo, hx']
      rw [hlead, readPrefix, if_neg (by decide), if_pos rfl, if_pos (hpre _)]
      rfl
  | none =>
      obtain ⟨hne, hds⟩ := ht.digits
      have hlead : t.lead = [] := by simp [NumberText.lead, hx]
      rw [hlead]
      obtain rfl | rfl | rfl := ht.known
      · rfl
      · rfl
      · simp [readPrefix, hexPrefixed_digits hne hds hrest]

/-- A numeral starts with a digit. -/
theorem head_digits {t : NumberText} (ht : t.IsNumber base) (rest : List Octet) :
    ∀ c ∈ (t.lead ++ (t.digits.map (digitChar t.uc) ++ rest)).head?,
      isspace c = false ∧ c ≠ ascii '-' ∧ c ≠ ascii '+' := by
  intro c hc
  cases hx : t.hexPrefix with
  | some x =>
      have hlead : t.lead = [ascii '0', x] := by simp [NumberText.lead, hx]
      rw [hlead] at hc
      obtain rfl := Option.some.inj hc
      decide
  | none =>
      have hlead : t.lead = [] := by simp [NumberText.lead, hx]
      obtain ⟨hne, hds⟩ := ht.digits
      obtain ⟨d, ds, hd⟩ := List.exists_cons_of_ne_nil hne
      have hbase : base ≤ 16 := by
        obtain h | h | h := ht.known <;> omega
      have hlt := hds d (by rw [hd]; exact List.mem_cons_self)
      rw [hlead, hd] at hc
      obtain rfl := Option.some.inj hc
      exact (digitChar_ne t.uc (by omega)).2

/-- Blanks, a sign and a prefix in front of a numeral are read as such. -/
theorem strntoumax_text {t : NumberText} (ht : t.IsNumber base) {rest : List Octet}
    (hrest : NoDigit rest) (hn : t.text.length ≤ n) :
    strntoumax (t.text ++ rest) base n = (t.value base, rest) := by
  have hhead := head_digits ht rest
  have hbase : base ≤ 36 := by
    obtain h | h | h := ht.known <;> omega
  have hblank : ∀ c ∈ (t.sign.toList ++
      (t.lead ++ (t.digits.map (digitChar t.uc) ++ rest))).head?, isspace c = false := by
    intro c hc
    cases hs : t.sign with
    | none =>
        rw [hs] at hc
        exact (hhead c hc).1
    | some x =>
        rw [hs] at hc
        obtain rfl := Option.some.inj hc
        obtain rfl | rfl := ht.sign x hs <;> decide
  simp only [NumberText.text, List.length_append, List.length_replicate, List.length_map] at hn
  rw [strntoumax, NumberText.text, List.append_assoc, List.append_assoc, List.append_assoc,
    skipBlanks_replicate t.blanks hblank (by omega)]
  simp only
  rw [readSign_toList ht.sign (fun c hc => (hhead c hc).2) (by omega)]
  simp only
  rw [readPrefix_lead ht hrest (by omega)]
  simp only
  rw [readDigits_digits t.uc hbase ht.digits.2 hrest 0 (by omega), Nat.zero_mul, Nat.zero_add,
    NumberText.value]
  simp

end Digits

end Sumeru
