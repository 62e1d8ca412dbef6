import Sumeru.Libc.Numerals
import Sumeru.Library.ByteMemory

/-!
# Sumeru - tinyprintf.c

The {lit}`printf` family writes to a {lit}`FILE`, of which it knows the method that takes one
character.  A format is described by its items: characters, and conversions with flags, a
width and a value.

Main results:

- Theorem {lit}`printf_output`: {lit}`printf` sends the text of the items to the file.
- Theorem {lit}`vsnprintf_output`: {lit}`vsnprintf` writes what fits, ends it with a zero byte and
  returns the length of the whole text.
- Theorem {lit}`strtol_number`: {lit}`strtol` reads a printed number back.
-/

namespace Sumeru

/-! ## Files -/

/-- A {lit}`FILE`: the write method for one character, and whether the character was taken. -/
structure Sink (σ : Type) where
  put : σ → Octet → σ × Bool

namespace Sink

variable {σ : Type} (io : Sink σ)

/-- {lit}`putf`, and its result added to {lit}`written`. -/
def putf (r : σ × BitVec 32) (c : Octet) : σ × BitVec 32 :=
  let w := io.put r.1 c
  (w.1, r.2 + if w.2 then 1#32 else 0#32)

/-- Characters one after the other. -/
def putAll (r : σ × BitVec 32) (s : List Octet) : σ × BitVec 32 := s.foldl io.putf r

/-- A text is sent part by part. -/
theorem putAll_append (r : σ × BitVec 32) (s t : List Octet) :
    io.putAll r (s ++ t) = io.putAll (io.putAll r s) t :=
  List.foldl_append

@[simp] theorem putAll_nil (r : σ × BitVec 32) : io.putAll r [] = r := rfl

/-- A text is sent from its first character on. -/
theorem putAll_cons (r : σ × BitVec 32) (c : Octet) (s : List Octet) :
    io.putAll r (c :: s) = io.putAll (io.putf r c) s :=
  rfl

/-- The file gets the characters. -/
theorem putAll_fst (r : σ × BitVec 32) (s : List Octet) :
    (io.putAll r s).1 = s.foldl (fun f c => (io.put f c).1) r.1 := by
  induction s generalizing r with
  | nil => rfl
  | cons c s ih => rw [putAll_cons, ih]; rfl

/-- If the file takes them all, they are counted. -/
theorem putAll_snd (hio : ∀ f c, (io.put f c).2 = true) (r : σ × BitVec 32) (s : List Octet) :
    (io.putAll r s).2 = r.2 + BitVec.ofNat 32 s.length := by
  induction s generalizing r with
  | nil => exact (BitVec.add_zero r.2).symm
  | cons c s ih =>
      rw [putAll_cons, ih, List.length_cons, BitVec.ofNat_add, BitVec.add_comm (BitVec.ofNat 32 _),
        ← BitVec.add_assoc]
      simp [putf, hio]

end Sink

/-! ## The functions -/

/-- {lit}`struct param` without the buffer.  At {lit}`sign`, {lit}`none` is 0. -/
structure Param where
  width : BitVec 32
  lz : Bool
  sign : Option Octet
  alt : Bool
  base : ℕ
  uc : Bool

/-- {lit}`a2d`; {lit}`none` is -1. -/
def a2d (c : Octet) : Option ℕ :=
  if ascii '0' ≤ c ∧ c ≤ ascii '9' then some (c.toNat - (ascii '0').toNat)
  else if ascii 'a' ≤ c ∧ c ≤ ascii 'f' then some (c.toNat - (ascii 'a').toNat + 10)
  else if ascii 'A' ≤ c ∧ c ≤ ascii 'F' then some (c.toNat - (ascii 'A').toNat + 10)
  else none

/-- {lit}`a2i`: the character behind the number, the rest of the string and the number. -/
def a2i (base : ℕ) (ch : Octet) (num : BitVec 32) : List Octet → Octet × List Octet × BitVec 32
  | [] =>
      match a2d ch with
      | some digit =>
          if base < digit then (ch, [], num)
          else (0#8, [], num * BitVec.ofNat 32 base + BitVec.ofNat 32 digit)
      | none => (ch, [], num)
  | c :: src =>
      match a2d ch with
      | some digit =>
          if base < digit then (ch, c :: src, num)
          else a2i base c (num * BitVec.ofNat 32 base + BitVec.ofNat 32 digit) src
      | none => (ch, c :: src, num)

/-- The filling that is left behind the characters of a string. -/
def fillLeft : List Octet → ℤ → ℤ
  | _ :: bf, n => if 0 < n then fillLeft bf (n - 1) else n
  | [], n => n

/-- {lit}`putchw` with the string {lit}`bf`. -/
def putchw {σ : Type} (io : Sink σ) (p : Param) (bf : List Octet) (r : σ × BitVec 32) :
    σ × BitVec 32 :=
  let n := fillLeft bf p.width.toInt
  let n := if p.sign.isSome then n - 1 else n
  let n := if p.alt ∧ p.base = 16 then n - 2 else if p.alt ∧ p.base = 8 then n - 1 else n
  let r := if ¬p.lz then io.putAll r (List.replicate n.toNat (ascii ' ')) else r
  let r := match p.sign with
    | some c => io.putf r c
    | none => r
  let r :=
    if p.alt ∧ p.base = 16 then
      io.putf (io.putf r (ascii '0')) (if p.uc then ascii 'X' else ascii 'x')
    else if p.alt ∧ p.base = 8 then io.putf r (ascii '0')
    else r
  let r := if p.lz then io.putAll r (List.replicate n.toNat (ascii '0')) else r
  io.putAll r bf

/-- An element of the {lit}`va_list`. -/
inductive Arg where
  | word (v : BitVec 32)
  | str (s : List Octet)

/-- {lit}`va_arg` for a word; {lit}`none` is undefined. -/
def Arg.nextWord : List Arg → Option (BitVec 32 × List Arg)
  | .word v :: args => some (v, args)
  | _ => none

/-- {lit}`va_arg` for a string; {lit}`none` is undefined. -/
def Arg.nextStr : List Arg → Option (List Octet × List Arg)
  | .str s :: args => some (s, args)
  | _ => none

/-- The loop over the flags, with the character behind them. -/
def readFlags (p : Param) : List Octet → Param × Octet × List Octet
  | [] => (p, 0#8, [])
  | ch :: fmt =>
      if ch = ascii '0' then readFlags { p with lz := true } fmt
      else if ch = ascii '#' then readFlags { p with alt := true } fmt
      else (p, ch, fmt)

/-- The width. -/
def readWidth (r : Param × Octet × List Octet) : Param × Octet × List Octet :=
  if ascii '0' ≤ r.2.1 ∧ r.2.1 ≤ ascii '9' then
    let (ch, fmt, width) := a2i 10 r.2.1 0#32 r.2.2
    ({ r.1 with width := width }, ch, fmt)
  else r

/-- An {lit}`l`, which is ignored. -/
def readLong (r : Param × Octet × List Octet) : Param × Octet × List Octet :=
  if r.2.1 = ascii 'l' then (r.1, r.2.2.headD 0#8, r.2.2.tail) else r

/-- What stands between {lit}`%` and the conversion, with the character of the conversion. -/
def readSpec (p : Param) (fmt : List Octet) : Param × Octet × List Octet :=
  readLong (readWidth
    (readFlags { p with lz := false, alt := false, width := 0#32, sign := none } fmt))

/-- The {lit}`switch` over the conversions. -/
def convert {σ : Type} (io : Sink σ) (p : Param) (ch : Octet) (args : List Arg)
    (r : σ × BitVec 32) : Option (Param × List Arg × (σ × BitVec 32)) :=
  if ch = ascii 'u' then do
    let p := { p with base := 10 }
    let (v, args) ← Arg.nextWord args
    some (p, args, putchw io p (ui2a v p.base p.uc) r)
  else if ch = ascii 'd' ∨ ch = ascii 'i' then do
    let p := { p with base := 10 }
    let (v, args) ← Arg.nextWord args
    let (sign, bf) := i2a v p.base p.uc
    let p := { p with sign := sign <|> p.sign }
    some (p, args, putchw io p bf r)
  else if ch = ascii 'x' ∨ ch = ascii 'X' then do
    let p := { p with base := 16, uc := ch == ascii 'X' }
    let (v, args) ← Arg.nextWord args
    some (p, args, putchw io p (ui2a v p.base p.uc) r)
  else if ch = ascii 'o' then do
    let p := { p with base := 8 }
    let (v, args) ← Arg.nextWord args
    some (p, args, putchw io p (ui2a v p.base p.uc) r)
  else if ch = ascii 'c' then do
    let (v, args) ← Arg.nextWord args
    some (p, args, io.putf r (v.setWidth 8))
  else if ch = ascii 's' then do
    let (s, args) ← Arg.nextStr args
    some (p, args, putchw io p s r)
  else if ch = ascii '%' then some (p, args, io.putf r ch)
  else some (p, args, r)

/-- Reading a number consumes characters. -/
theorem a2i_length_le (base : ℕ) (ch : Octet) (num : BitVec 32) (src : List Octet) :
    (a2i base ch num src).2.1.length ≤ src.length := by
  induction src generalizing ch num with
  | nil =>
      rw [a2i]
      cases a2d ch with
      | none => simp
      | some d =>
          simp only
          split_ifs <;> simp
  | cons c src ih =>
      rw [a2i]
      cases a2d ch with
      | none => simp
      | some d =>
          simp only
          split_ifs
          · simp
          · exact (ih _ _).trans (Nat.le_succ _)

/-- Reading flags consumes characters. -/
theorem readFlags_length_le (p : Param) (fmt : List Octet) :
    (readFlags p fmt).2.2.length ≤ fmt.length := by
  induction fmt generalizing p with
  | nil => simp [readFlags]
  | cons c fmt ih =>
      rw [readFlags]
      split_ifs
      · exact (ih _).trans (Nat.le_succ _)
      · exact (ih _).trans (Nat.le_succ _)
      · simp

/-- Reading a width consumes characters. -/
theorem readWidth_length_le (r : Param × Octet × List Octet) :
    (readWidth r).2.2.length ≤ r.2.2.length := by
  rw [readWidth]
  split_ifs
  · exact a2i_length_le ..
  · exact le_rfl

/-- Reading {lit}`l` consumes characters. -/
theorem readLong_length_le (r : Param × Octet × List Octet) :
    (readLong r).2.2.length ≤ r.2.2.length := by
  rw [readLong]
  split_ifs
  · simp
  · exact le_rfl

/-- Reading a conversion consumes characters. -/
theorem readSpec_length_le (p : Param) (fmt : List Octet) :
    (readSpec p fmt).2.2.length ≤ fmt.length :=
  (readLong_length_le _).trans ((readWidth_length_le _).trans (readFlags_length_le _ _))

/-- {lit}`tfp_format`.  Of {lit}`p` only the fields {lit}`base` and {lit}`uc` matter, which keep their
values from one conversion to the next. -/
def tfpFormat {σ : Type} (io : Sink σ) (p : Param) (args : List Arg) (r : σ × BitVec 32) :
    List Octet → Option (σ × BitVec 32)
  | [] => some r
  | ch :: fmt =>
      if ch ≠ ascii '%' then tfpFormat io p args (io.putf r ch) fmt
      else
        let spec := readSpec p fmt
        if spec.2.1 = 0#8 then some r
        else do
          let (p, args, r) ← convert io spec.1 spec.2.1 args r
          tfpFormat io p args r spec.2.2
termination_by fmt => fmt.length
decreasing_by
  · simp
  · exact Nat.lt_succ_of_le (readSpec_length_le ..)

/-! ## vsnprintf and memfile.c -/

/-- {lit}`struct MemFile`, and the memory that it writes to. -/
structure MemFile where
  mem : ByteMemory
  buffer : ℕ
  bytesWritten : BitVec 32
  size : BitVec 32

/-- {lit}`memfile_write` for one character. -/
def memfileWrite (f : MemFile) (c : Octet) : MemFile × Bool :=
  let f := { f with bytesWritten := f.bytesWritten + 1#32 }
  if f.bytesWritten ≤ f.size then
    ({ f with mem := f.mem.setByte f.buffer c, buffer := f.buffer + 1 }, true)
  else (f, false)

/-- {lit}`MemFile_methods`. -/
def memFileMethods : Sink MemFile := ⟨memfileWrite⟩

/-- {lit}`vsnprintf`: the memory and the result. -/
def vsnprintf (p : Param) (m : ByteMemory) (str : ℕ) (size : BitVec 32) (fmt : List Octet)
    (args : List Arg) : Option (ByteMemory × BitVec 32) := do
  let (state, _) ← tfpFormat memFileMethods p args (⟨m, str, 0#32, size - 1#32⟩, 0#32) fmt
  some (state.mem.setByte state.buffer 0#8, state.bytesWritten)

/-! ## Items of a format -/

/-- The conversions of numbers. -/
inductive NumberKind where
  | d | i | u | x | upperX | o
deriving DecidableEq

namespace NumberKind

def char : NumberKind → Octet
  | d => ascii 'd'
  | i => ascii 'i'
  | u => ascii 'u'
  | x => ascii 'x'
  | upperX => ascii 'X'
  | o => ascii 'o'

def base : NumberKind → ℕ
  | d | i | u => 10
  | x | upperX => 16
  | o => 8

def Signed : NumberKind → Prop
  | d | i => True
  | u | x | upperX | o => False

instance : DecidablePred Signed
  | d | i => isTrue trivial
  | u | x | upperX | o => isFalse id

end NumberKind

/-- Flags, width and {lit}`l` of a conversion. -/
structure Spec where
  flags : List Octet
  width : ℕ
  long : Bool

namespace Spec

/-- The flags are known, and the width is an {lit}`int`. -/
structure Valid (f : Spec) : Prop where
  flags : ∀ c ∈ f.flags, c = ascii '0' ∨ c = ascii '#'
  width : f.width < 2 ^ 31

def zero (f : Spec) : Bool := f.flags.contains (ascii '0')

def alt (f : Spec) : Bool := f.flags.contains (ascii '#')

/-- The characters. -/
def chars (f : Spec) : List Octet :=
  f.flags ++ ((if f.width = 0 then [] else (numeral 10 f.width).map (digitChar false)) ++
    if f.long then [ascii 'l'] else [])

/-- A sign, a prefix and a string filled up to the width. -/
def pad (f : Spec) (sign lead body : List Octet) : List Octet :=
  let fill := f.width - (sign.length + lead.length + body.length)
  if f.zero then sign ++ lead ++ List.replicate fill (ascii '0') ++ body
  else List.replicate fill (ascii ' ') ++ sign ++ lead ++ body

end Spec

/-- An item of a format and the argument that it takes. -/
inductive Item where
  | char (c : Octet)
  | percent (f : Spec)
  | number (f : Spec) (k : NumberKind) (v : BitVec 32)
  | character (f : Spec) (v : BitVec 32)
  | string (f : Spec) (s : List Octet)

namespace Item

/-- A {lit}`#` of a string would be taken for the base of the conversion before it. -/
def Valid : Item → Prop
  | char c => c ≠ ascii '%'
  | percent f => f.Valid
  | number f _ _ => f.Valid
  | character f _ => f.Valid
  | string f _ => f.Valid ∧ f.alt = false

/-- The characters of the item in the format. -/
def format : Item → List Octet
  | char c => [c]
  | percent f => ascii '%' :: (f.chars ++ [ascii '%'])
  | number f k _ => ascii '%' :: (f.chars ++ [k.char])
  | character f _ => ascii '%' :: (f.chars ++ [ascii 'c'])
  | string f _ => ascii '%' :: (f.chars ++ [ascii 's'])

/-- The argument of the item. -/
def arg : Item → List Arg
  | char _ => []
  | percent _ => []
  | number _ _ v => [.word v]
  | character _ v => [.word v]
  | string _ s => [.str s]

/-- The sign of a number. -/
def sign (k : NumberKind) (v : BitVec 32) : Option Octet :=
  if k.Signed ∧ v.toInt < 0 then some (ascii '-') else none

/-- The absolute value of a number. -/
def magnitude (k : NumberKind) (v : BitVec 32) : ℕ :=
  if k.Signed then v.toInt.natAbs else v.toNat

/-- The prefix of the alternate form. -/
def lead (k : NumberKind) : List Octet :=
  match k with
  | .x => [ascii '0', ascii 'x']
  | .upperX => [ascii '0', ascii 'X']
  | .o => [ascii '0']
  | .d | .i | .u => []

/-- What the item prints. -/
def text : Item → List Octet
  | char c => [c]
  | percent _ => [ascii '%']
  | number f k v =>
      f.pad (sign k v).toList (if f.alt then lead k else [])
        ((numeral k.base (magnitude k v)).map (digitChar (k == .upperX)))
  | character _ v => [v.setWidth 8]
  | string f s => f.pad [] [] s

end Item

/-! ## Numerals -/

/-- Digits of a numeral are below the base. -/
theorem numeral_lt {base num : ℕ} (hbase : 2 ≤ base) : ∀ d ∈ numeral base num, d < base := by
  intro d hd
  rw [numeral] at hd
  split_ifs at hd
  · obtain rfl := List.mem_singleton.mp hd
    omega
  · exact Nat.digits_lt_base (by omega) (List.mem_reverse.mp hd)

/-- A numeral has at least one digit. -/
theorem numeral_ne_nil (base num : ℕ) : numeral base num ≠ [] := by
  rw [numeral]
  split_ifs with hzero
  · simp
  · rw [ne_eq, List.reverse_eq_nil_iff]
    exact Nat.digits_ne_nil_iff_ne_zero.mpr hzero

/-- A numeral does not start with 0. -/
theorem numeral_eq_cons {base num : ℕ} (hnum : num ≠ 0) :
    ∃ d ds, numeral base num = d :: ds ∧ d ≠ 0 := by
  obtain ⟨d, ds, h⟩ := List.exists_cons_of_ne_nil (numeral_ne_nil base num)
  refine ⟨d, ds, h, ?_⟩
  rw [numeral, if_neg hnum] at h
  have hlast : (Nat.digits base num).getLast? = some d := by
    rw [← List.head?_reverse, h, List.head?_cons]
  have hne : Nat.digits base num ≠ [] := by
    intro hnil
    rw [hnil] at hlast
    cases hlast
  have hpos := Nat.getLast_digit_ne_zero base hnum
  rw [List.getLast?_eq_some_getLast hne] at hlast
  obtain rfl := Option.some.inj hlast
  exact hpos

/-- A numeral has the value of its number. -/
theorem digitsValue_numeral {base num : ℕ} : digitsValue base (numeral base num) = num := by
  rw [digitsValue, numeral]
  split_ifs with hzero
  · simp [hzero]
  · rw [List.reverse_reverse, Nat.ofDigits_digits]

/-! ## Padding -/

section Format

variable {σ : Type} {io : Sink σ} {p : Param} {args : List Arg} {r : σ × BitVec 32}
  {fmt : List Octet} {f : Spec}

/-- The blanks and zeros that are missing to the width. -/
theorem fillLeft_eq (bf : List Octet) (w : ℕ) :
    fillLeft bf (w : ℤ) = ((w - bf.length : ℕ) : ℤ) := by
  induction bf generalizing w with
  | nil => rfl
  | cons c bf ih =>
      rw [fillLeft]
      split_ifs with hpos
      · rw [show (w : ℤ) - 1 = ((w - 1 : ℕ) : ℤ) by omega, ih, List.length_cons]
        omega
      · rw [List.length_cons]
        omega

/-- The prefix that {lit}`putchw` prints. -/
def Param.lead (p : Param) : List Octet :=
  if p.alt ∧ p.base = 16 then [ascii '0', if p.uc then ascii 'X' else ascii 'x']
  else if p.alt ∧ p.base = 8 then [ascii '0']
  else []

/-- {lit}`putchw` prints the sign, the prefix and the string, filled up to the width. -/
theorem putchw_eq (hf : f.width < 2 ^ 31) (hwidth : p.width = BitVec.ofNat 32 f.width)
    (hlz : p.lz = f.zero) (bf : List Octet) :
    putchw io p bf r = io.putAll r (f.pad p.sign.toList p.lead bf) := by
  have hint : p.width.toInt = (f.width : ℤ) := by
    rw [hwidth, BitVec.toInt_ofNat']
    exact Int.bmod_eq_of_le (by omega) (by omega)
  have hsign : ∀ r, (match p.sign with
      | some c => io.putf r c
      | none => r) = io.putAll r p.sign.toList := by
    intro r
    cases p.sign <;> rfl
  have hlead : ∀ r, (if p.alt = true ∧ p.base = 16 then
        io.putf (io.putf r (ascii '0')) (if p.uc = true then ascii 'X' else ascii 'x')
      else if p.alt = true ∧ p.base = 8 then io.putf r (ascii '0') else r) =
      io.putAll r p.lead := by
    intro r
    rw [Param.lead]
    split_ifs <;> rfl
  have hfill : ∀ n : ℤ, n = ((f.width - bf.length : ℕ) : ℤ) →
      (if p.alt = true ∧ p.base = 16 then (if p.sign.isSome = true then n - 1 else n) - 2
        else if p.alt = true ∧ p.base = 8 then (if p.sign.isSome = true then n - 1 else n) - 1
        else if p.sign.isSome = true then n - 1 else n).toNat =
        f.width - (p.sign.toList.length + p.lead.length + bf.length) := by
    rintro n rfl
    rw [Param.lead]
    cases p.sign <;> split_ifs <;> simp at * <;> omega
  simp only [putchw, hsign, hlead, hint, fillLeft_eq, hfill _ rfl, hlz, Spec.pad]
  cases f.zero <;> simp [Sink.putAll_append]

/-! ## Parsing -/

/-- A character that ends flags, width and {lit}`l`. -/
structure EndsSpec (c : Octet) : Prop where
  digit : ∀ d ∈ a2d c, 10 < d
  hash : c ≠ ascii '#'
  long : c ≠ ascii 'l'
  nul : c ≠ 0#8

/-- A digit is recognised. -/
theorem a2d_digitChar (uc : Bool) {d : ℕ} (hd : d < 16) : a2d (digitChar uc d) = some d := by
  have hall : ∀ uc : Bool, ∀ d : Fin 16, a2d (digitChar uc d) = some d.val := by decide
  exact hall uc ⟨d, hd⟩

/-- A character that is no digit up to 10 is not decimal. -/
theorem not_decimal_of_a2d {c : Octet} (hc : ∀ d ∈ a2d c, 10 < d) :
    ¬(ascii '0' ≤ c ∧ c ≤ ascii '9') := by
  intro hdec
  have hlt := hc (c.toNat - (ascii '0').toNat) (by rw [a2d, if_pos hdec]; rfl)
  have hhigh : c.toNat ≤ (ascii '9').toNat := BitVec.le_def.mp hdec.2
  have hval : (ascii '0').toNat = 48 ∧ (ascii '9').toNat = 57 := by decide
  omega

/-- A decimal number is read up to the first other character. -/
theorem a2i_digits {c : Octet} (hc : ∀ d ∈ a2d c, 10 < d) {d : ℕ} {ds : List ℕ}
    (hds : ∀ e ∈ d :: ds, e < 10) (num : ℕ) (rest : List Octet) :
    a2i 10 (digitChar false d) (BitVec.ofNat 32 num) (ds.map (digitChar false) ++ c :: rest) =
      (c, rest, BitVec.ofNat 32 (num * 10 ^ (ds.length + 1) + digitsValue 10 (d :: ds))) := by
  have hstop : ∀ num, a2i 10 c num rest = (c, rest, num) := by
    intro num
    cases hd : a2d c with
    | none => cases rest <;> simp [a2i, hd]
    | some e => cases rest <;> simp [a2i, hd, hc e hd]
  induction ds generalizing d num with
  | nil =>
      have hd := hds d List.mem_cons_self
      have hle : ¬10 < d := by omega
      simp only [List.map_nil, List.nil_append, a2i, a2d_digitChar false (show d < 16 by omega),
        if_neg hle, hstop, ← BitVec.ofNat_mul, ← BitVec.ofNat_add]
      simp [digitsValue]
  | cons e ds ih =>
      obtain ⟨hd, hds⟩ := List.forall_mem_cons.mp hds
      have hle : ¬10 < d := by omega
      simp only [List.map_cons, List.cons_append, a2i, a2d_digitChar false (show d < 16 by omega),
        if_neg hle, ← BitVec.ofNat_mul, ← BitVec.ofNat_add]
      rw [ih hds, digitsValue_cons d]
      congr 3
      rw [List.length_cons]
      ring

/-- The flags are read up to the first other character. -/
theorem readFlags_flags {flags : List Octet} (hflags : ∀ c ∈ flags, c = ascii '0' ∨ c = ascii '#')
    {c : Octet} (hzero : c ≠ ascii '0') (hhash : c ≠ ascii '#') (p : Param) (rest : List Octet) :
    readFlags p (flags ++ c :: rest) =
      ({ p with lz := p.lz || flags.contains (ascii '0'), alt := p.alt || flags.contains (ascii '#') },
        c, rest) := by
  induction flags generalizing p with
  | nil => simp [readFlags, hzero, hhash]
  | cons x flags ih =>
      obtain ⟨hx, hmore⟩ := List.forall_mem_cons.mp hflags
      have hne : ascii '0' ≠ ascii '#' := by decide
      obtain rfl | rfl := hx
      · rw [List.cons_append, readFlags, if_pos rfl, ih hmore]
        simp [hne.symm]
      · rw [List.cons_append, readFlags, if_neg hne.symm, if_pos rfl, ih hmore]
        simp [hne]

/-- Flags, width and {lit}`l` are read as they are written. -/
theorem readSpec_chars (hf : f.Valid) {c : Octet} (hc : EndsSpec c) (p : Param)
    (rest : List Octet) :
    readSpec p (f.chars ++ c :: rest) =
      ({ p with lz := f.zero, alt := f.alt, width := BitVec.ofNat 32 f.width, sign := none },
        c, rest) := by
  have hlong : ∀ p : Param, readLong
      (p, ((if f.long then [ascii 'l'] else []) ++ c :: rest).headD 0#8,
        ((if f.long then [ascii 'l'] else []) ++ c :: rest).tail) = (p, c, rest) := by
    intro p
    cases f.long <;> simp [readLong, hc.long]
  obtain ⟨x, t, hx, hend⟩ : ∃ x t, (if f.long then [ascii 'l'] else []) ++ c :: rest = x :: t ∧
      (∀ d ∈ a2d x, 10 < d) ∧ x ≠ ascii '#' := by
    cases f.long with
    | true => exact ⟨ascii 'l', c :: rest, rfl, by decide, by decide⟩
    | false => exact ⟨c, rest, rfl, hc.digit, hc.hash⟩
  rw [hx] at hlong
  have hdec := not_decimal_of_a2d hend.1
  have hx0 : x ≠ ascii '0' := by
    rintro rfl
    exact hdec (by decide)
  rw [readSpec, Spec.chars, List.append_assoc, List.append_assoc, hx]
  split_ifs with hwidth
  · rw [List.nil_append, readFlags_flags hf.flags hx0 hend.2, readWidth, if_neg hdec]
    have hl := hlong { p with lz := f.zero, alt := f.alt, width := 0#32, sign := none }
    simpa [hwidth, Spec.zero, Spec.alt] using hl
  · obtain ⟨d, ds, hnum, hd⟩ : ∃ d ds, numeral 10 f.width = d :: ds ∧ d ≠ 0 :=
      numeral_eq_cons hwidth
    have hds : ∀ e ∈ d :: ds, e < 10 := by
      rw [← hnum]
      exact numeral_lt (by omega)
    have hdigit : ∀ d : Fin 10, (ascii '0' ≤ digitChar false d ∧ digitChar false d ≤ ascii '9') ∧
        digitChar false d ≠ ascii '#' ∧ (d.val ≠ 0 → digitChar false d ≠ ascii '0') := by decide
    obtain ⟨hin, hh, h0⟩ := hdigit ⟨d, hds d List.mem_cons_self⟩
    have hvalue : digitsValue 10 (d :: ds) = f.width := by
      rw [← hnum, digitsValue_numeral]
    rw [hnum, List.map_cons, List.cons_append, readFlags_flags hf.flags (h0 hd) hh, readWidth,
      if_pos hin]
    have ha2i := a2i_digits hend.1 hds 0 t
    rw [Nat.zero_mul, Nat.zero_add, hvalue] at ha2i
    have hl := hlong
      { p with lz := f.zero, alt := f.alt, width := BitVec.ofNat 32 f.width, sign := none }
    simp only [ha2i]
    simpa [Spec.zero, Spec.alt] using hl

/-! ## Conversions -/

/-- Every conversion has a base of at least two. -/
theorem NumberKind.two_le_base (k : NumberKind) : 2 ≤ k.base := by
  cases k <;> decide

/-- {lit}`i2a` writes sign and absolute value. -/
theorem i2a_eq (v : BitVec 32) (uc : Bool) {k : NumberKind} (hk : k.Signed) :
    i2a v 10 uc = (Item.sign k v, (numeral 10 (Item.magnitude k v)).map (digitChar uc)) := by
  have hslt : v.slt 0#32 = decide (v.toInt < 0) := by
    rw [BitVec.slt_eq_decide]
    rfl
  rw [i2a, Item.sign, Item.magnitude, if_pos hk, hslt]
  by_cases hneg : v.toInt < 0
  · have habs : (-v).toNat = v.toInt.natAbs := by
      have hlt := v.isLt
      rw [BitVec.toInt_eq_toNat_cond] at hneg ⊢
      rw [BitVec.toNat_neg]
      split_ifs at hneg ⊢ <;> omega
    simp [hneg, hk, ui2a_eq (-v) (show 2 ≤ 10 by decide), habs]
  · have habs : v.toNat = v.toInt.natAbs := by
      have hlt := v.isLt
      rw [BitVec.toInt_eq_toNat_cond] at hneg ⊢
      split_ifs at hneg ⊢ <;> omega
    simp [hneg, ui2a_eq v (show 2 ≤ 10 by decide), habs]

/-- Decimal and octal digits have no case. -/
theorem map_digitChar {base num : ℕ} (hbase : 2 ≤ base ∧ base ≤ 10) (uc : Bool) :
    (numeral base num).map (digitChar uc) = (numeral base num).map (digitChar false) := by
  refine List.map_congr_left fun d hd => ?_
  have hlt := numeral_lt hbase.1 d hd
  have hall : ∀ uc : Bool, ∀ d : Fin 10, digitChar uc d = digitChar false d := by decide
  exact hall uc ⟨d, by omega⟩

/-- What the parameters are when a conversion starts. -/
structure Param.Starts (p : Param) (f : Spec) : Prop where
  lz : p.lz = f.zero
  alt : p.alt = f.alt
  width : p.width = BitVec.ofNat 32 f.width
  sign : p.sign = none

/-- The digits of a number are printed with sign and prefix. -/
theorem putchw_number (hf : f.Valid) {q : Param} {k : NumberKind} {v : BitVec 32} {uc : Bool}
    (hlz : q.lz = f.zero) (halt : q.alt = f.alt) (hwidth : q.width = BitVec.ofNat 32 f.width)
    (hsign : q.sign = Item.sign k v) (hbase : q.base = k.base)
    (huc : k.base ≤ 10 ∨ q.uc = (k == .upperX) ∧ uc = (k == .upperX)) :
    putchw io q ((numeral k.base (Item.magnitude k v)).map (digitChar uc)) r =
      io.putAll r (Item.number f k v).text := by
  have hlead : q.lead = if f.alt then Item.lead k else [] := by
    rw [Param.lead, halt, hbase]
    cases k <;> cases f.alt <;> simp [NumberKind.base, Item.lead] at huc ⊢ <;> simp [huc]
  have hbody : (numeral k.base (Item.magnitude k v)).map (digitChar uc) =
      (numeral k.base (Item.magnitude k v)).map (digitChar (k == .upperX)) := by
    obtain hle | ⟨-, rfl⟩ := huc
    · rw [map_digitChar ⟨k.two_le_base, hle⟩ uc, map_digitChar ⟨k.two_le_base, hle⟩ (k == .upperX)]
    · rfl
  rw [putchw_eq hf.width hwidth hlz, hsign, hlead, hbody, Item.text]

/-- A number is converted. -/
theorem convert_number (hf : f.Valid) (k : NumberKind) (v : BitVec 32) (args : List Arg)
    (hp : p.Starts f) :
    ∃ p', convert io p k.char (.word v :: args) r =
      some (p', args, io.putAll r (Item.number f k v).text) := by
  have hword : ∀ k : NumberKind, ¬k.Signed → ∀ q : Param, q.lz = p.lz → q.alt = p.alt →
      q.width = p.width → q.sign = p.sign → q.base = k.base →
      (k.base ≤ 10 ∨ q.uc = (k == .upperX)) →
      putchw io q (ui2a v k.base q.uc) r = io.putAll r (Item.number f k v).text := by
    intro k hk q hlz halt hwidth hsign hbase huc
    have hnum : Item.magnitude k v = v.toNat ∧ Item.sign k v = none := by
      simp [Item.sign, Item.magnitude, hk]
    rw [ui2a_eq v k.two_le_base, ← hnum.1]
    refine putchw_number hf (hlz.trans hp.lz) (halt.trans hp.alt) (hwidth.trans hp.width) ?_ hbase
      (huc.imp_right fun h => ⟨h, h⟩)
    rw [hsign, hp.sign, hnum.2]
  have hint : ∀ k : NumberKind, k.Signed → ∃ p', convert io p k.char (.word v :: args) r =
      some (p', args, io.putAll r (Item.number f k v).text) := by
    intro k hk
    have hbase : k.base = 10 := by cases k <;> first | rfl | exact absurd hk id
    have hconvert : convert io p k.char (.word v :: args) r =
        some ({ p with base := 10, sign := (i2a v 10 p.uc).1 <|> p.sign }, args,
          putchw io { p with base := 10, sign := (i2a v 10 p.uc).1 <|> p.sign }
            (i2a v 10 p.uc).2 r) := by
      cases k <;> first | rfl | exact absurd hk id
    have h2a := i2a_eq v p.uc hk
    rw [← hbase] at h2a
    rw [hconvert, ← hbase, h2a]
    have hput : putchw io { p with base := k.base, sign := Item.sign k v <|> p.sign }
        ((numeral k.base (Item.magnitude k v)).map (digitChar p.uc)) r =
        io.putAll r (Item.number f k v).text :=
      putchw_number hf hp.lz hp.alt hp.width (by simp [hp.sign]) rfl (Or.inl hbase.le)
    exact ⟨_, congrArg (fun w => some (_, args, w)) hput⟩
  cases k with
  | d => exact hint .d trivial
  | i => exact hint .i trivial
  | u =>
      exact ⟨{ p with base := 10 }, congrArg (fun w => some (_, args, w))
        (hword .u id { p with base := 10 } rfl rfl rfl rfl rfl (Or.inl (by decide)))⟩
  | x =>
      exact ⟨{ p with base := 16, uc := false }, congrArg (fun w => some (_, args, w))
        (hword .x id { p with base := 16, uc := false } rfl rfl rfl rfl rfl (Or.inr rfl))⟩
  | upperX =>
      exact ⟨{ p with base := 16, uc := true }, congrArg (fun w => some (_, args, w))
        (hword .upperX id { p with base := 16, uc := true } rfl rfl rfl rfl rfl (Or.inr rfl))⟩
  | o =>
      exact ⟨{ p with base := 8 }, congrArg (fun w => some (_, args, w))
        (hword .o id { p with base := 8 } rfl rfl rfl rfl rfl (Or.inl (by decide)))⟩

/-- One item. -/
theorem tfpFormat_item (t : Item) (ht : t.Valid) (p : Param) (args : List Arg)
    (r : σ × BitVec 32) (fmt : List Octet) :
    ∃ p', tfpFormat io p (t.arg ++ args) r (t.format ++ fmt) =
      tfpFormat io p' args (io.putAll r t.text) fmt := by
  have hspec : ∀ (f : Spec) (c : Octet) (args : List Arg), f.Valid → EndsSpec c →
      tfpFormat io p args r (ascii '%' :: (f.chars ++ [c]) ++ fmt) =
        (convert io { p with
            lz := f.zero, alt := f.alt, width := BitVec.ofNat 32 f.width, sign := none }
          c args r).bind fun x => tfpFormat io x.1 x.2.1 x.2.2 fmt := by
    intro f c args hf hc
    have hread := readSpec_chars hf hc p fmt
    rw [List.cons_append, List.append_assoc, List.singleton_append, tfpFormat]
    simp only [ne_eq, not_true_eq_false, if_false, hread, if_neg hc.nul]
    rfl
  cases t with
  | char c =>
      refine ⟨p, ?_⟩
      have hc : c ≠ ascii '%' := ht
      rw [Item.format, List.singleton_append, tfpFormat, if_pos hc]
      rfl
  | percent f =>
      rw [Item.format, hspec f _ _ ht ⟨by decide, by decide, by decide, by decide⟩]
      exact ⟨_, rfl⟩
  | number f k v =>
      have hends : EndsSpec k.char := by
        cases k <;> exact ⟨by decide, by decide, by decide, by decide⟩
      obtain ⟨p', hconv⟩ := @convert_number _ io
        { p with lz := f.zero, alt := f.alt, width := BitVec.ofNat 32 f.width, sign := none } r f ht
        k v args ⟨rfl, rfl, rfl, rfl⟩
      refine ⟨p', ?_⟩
      rw [Item.format, hspec f _ _ ht hends, Item.arg, List.singleton_append, hconv]
      rfl
  | character f v =>
      rw [Item.format, hspec f _ _ ht ⟨by decide, by decide, by decide, by decide⟩]
      exact ⟨_, rfl⟩
  | string f s =>
      obtain ⟨hf, halt⟩ := ht
      rw [Item.format, hspec f _ _ hf ⟨by decide, by decide, by decide, by decide⟩]
      have hput : putchw io
          { p with lz := f.zero, alt := f.alt, width := BitVec.ofNat 32 f.width, sign := none } s r =
          io.putAll r (f.pad [] [] s) := by
        rw [putchw_eq hf.width rfl rfl]
        simp [Param.lead, halt]
      exact ⟨_, congrArg (fun w => tfpFormat io _ args w fmt) hput⟩

/-- {lit}`tfp_format` sends the text of the items to the file, one character after the other. -/
theorem tfpFormat_items (items : List Item) (hvalid : ∀ t ∈ items, t.Valid) (p : Param)
    (args : List Arg) (r : σ × BitVec 32) :
    tfpFormat io p (items.flatMap Item.arg ++ args) r (items.flatMap Item.format) =
      some (io.putAll r (items.flatMap Item.text)) := by
  induction items generalizing p r with
  | nil => rw [List.flatMap_nil, List.flatMap_nil, tfpFormat]; rfl
  | cons t items ih =>
      obtain ⟨ht, hitems⟩ := List.forall_mem_cons.mp hvalid
      simp only [List.flatMap_cons, List.append_assoc]
      obtain ⟨p', hitem⟩ := @tfpFormat_item _ io t ht p (items.flatMap Item.arg ++ args) r
        (items.flatMap Item.format)
      rw [hitem, ih hitems, Sink.putAll_append]

end Format

/-- {lit}`printf` sends the text of the items to the file, whatever the file does with it.  Its
result is the length of the text if the file takes every character. -/
theorem printf_output {σ : Type} (io : Sink σ) (items : List Item)
    (hvalid : ∀ t ∈ items, t.Valid) (p : Param) (f : σ) :
    ∃ r, tfpFormat io p (items.flatMap Item.arg) (f, 0#32) (items.flatMap Item.format) = some r ∧
      r.1 = (items.flatMap Item.text).foldl (fun f c => (io.put f c).1) f ∧
      ((∀ f c, (io.put f c).2 = true) →
        r.2 = BitVec.ofNat 32 (items.flatMap Item.text).length) := by
  have hformat := @tfpFormat_items _ io items hvalid p [] (f, 0#32)
  rw [List.append_nil] at hformat
  refine ⟨_, hformat, io.putAll_fst _ _, fun hio => ?_⟩
  rw [io.putAll_snd hio, BitVec.zero_add]

/-- The items of {lit}`n=%05d`, for -42. -/
def sampleItems : List Item :=
  [.char (ascii 'n'), .char (ascii '='), .number ⟨[ascii '0'], 5, false⟩ .d (-42#32)]

/-- The items of the sample are valid. -/
theorem sampleItems_valid : ∀ t ∈ sampleItems, t.Valid := by
  simp only [sampleItems, List.forall_mem_cons, Item.Valid]
  exact ⟨by decide, by decide, ⟨by decide, by decide⟩, by simp⟩

/-- A file that appends. -/
def appendSink : Sink (List Octet) := ⟨fun f c => (f ++ [c], true)⟩

/-- {lit}`n=%05d` of -42 on a file that appends. -/
theorem printf_output_sample :
    ∃ r, tfpFormat appendSink ⟨0#32, false, none, false, 10, false⟩ [.word (-42#32)] ([], 0#32)
      ("n=%05d".toList.map ascii) = some r ∧
      r.1 = "n=-0042".toList.map ascii ∧ r.2 = 7#32 := by
  obtain ⟨r, heq, hfst, hsnd⟩ := printf_output appendSink sampleItems sampleItems_valid
    ⟨0#32, false, none, false, 10, false⟩ []
  refine ⟨r, heq, hfst.trans (by decide), (hsnd fun _ _ => rfl).trans (by decide)⟩

/-! ## Output to memory -/

/-- A string is stored. -/
def storeBytes (m : ByteMemory) (a : ℕ) (s : List Octet) : ByteMemory := fun x =>
  if a ≤ x ∧ x < a + s.length then s.getD (x - a) 0#8 else m x

/-- Storing nothing. -/
theorem storeBytes_nil (m : ByteMemory) (a : ℕ) : storeBytes m a [] = m := by
  funext x
  rw [storeBytes, if_neg]
  simp only [List.length_nil]
  omega

/-- Bytes are stored from the first on. -/
theorem storeBytes_cons (m : ByteMemory) (a : ℕ) (c : Octet) (s : List Octet) :
    storeBytes m a (c :: s) = storeBytes (m.setByte a c) (a + 1) s := by
  funext x
  simp only [storeBytes, List.length_cons]
  by_cases hx : x = a
  · subst hx
    rw [if_pos (by omega), if_neg (by omega), ByteMemory.setByte_self, Nat.sub_self]
    rfl
  · rw [ByteMemory.setByte_of_ne hx]
    by_cases hin : a + 1 ≤ x ∧ x < a + 1 + s.length
    · rw [if_pos hin, if_pos (by omega), show x - a = x - (a + 1) + 1 by omega,
        List.getD_cons_succ]
    · rw [if_neg hin, if_neg (by omega)]

/-- A {lit}`MemFile` takes characters as long as it has room, and counts them all. -/
theorem putAll_memFile (s : List Octet) (f : MemFile) (w : BitVec 32)
    (hlt : f.bytesWritten.toNat + s.length < 2 ^ 32) :
    ∃ w', memFileMethods.putAll (f, w) s =
      (⟨storeBytes f.mem f.buffer (s.take (f.size.toNat - f.bytesWritten.toNat)),
        f.buffer + min s.length (f.size.toNat - f.bytesWritten.toNat),
        BitVec.ofNat 32 (f.bytesWritten.toNat + s.length), f.size⟩, w') := by
  induction s generalizing f w with
  | nil =>
      refine ⟨w, ?_⟩
      simp [storeBytes_nil]
  | cons c s ih =>
      rw [List.length_cons] at hlt
      have hnext : (f.bytesWritten + 1#32).toNat = f.bytesWritten.toNat + 1 := by
        rw [BitVec.toNat_add]
        exact Nat.mod_eq_of_lt (by simp; omega)
      rw [Sink.putAll_cons]
      by_cases hroom : f.bytesWritten + 1#32 ≤ f.size
      · have hput : memFileMethods.putf (f, w) c =
            (⟨f.mem.setByte f.buffer c, f.buffer + 1, f.bytesWritten + 1#32, f.size⟩,
              w + 1#32) := by
          simp [Sink.putf, memFileMethods, memfileWrite, hroom]
        obtain ⟨w', hrest⟩ := ih ⟨f.mem.setByte f.buffer c, f.buffer + 1, f.bytesWritten + 1#32,
          f.size⟩ (w + 1#32) (by simp only [hnext]; omega)
        rw [BitVec.le_def, hnext] at hroom
        refine ⟨w', ?_⟩
        rw [hput, hrest]
        simp only [hnext]
        rw [show f.size.toNat - f.bytesWritten.toNat = f.size.toNat - (f.bytesWritten.toNat + 1) + 1
          by omega, List.take_succ_cons, storeBytes_cons, List.length_cons]
        congr 2
        · omega
        · congr 1
          omega
      · have hput : memFileMethods.putf (f, w) c =
            (⟨f.mem, f.buffer, f.bytesWritten + 1#32, f.size⟩, w) := by
          simp [Sink.putf, memFileMethods, memfileWrite, hroom]
        obtain ⟨w', hrest⟩ := ih ⟨f.mem, f.buffer, f.bytesWritten + 1#32, f.size⟩ w
          (by simp only [hnext]; omega)
        rw [BitVec.le_def, hnext] at hroom
        refine ⟨w', ?_⟩
        rw [hput, hrest]
        simp only [hnext]
        rw [show f.size.toNat - (f.bytesWritten.toNat + 1) = 0 by omega,
          show f.size.toNat - f.bytesWritten.toNat = 0 by omega, List.take_zero, List.take_zero,
          List.length_cons, Nat.min_zero, Nat.min_zero,
          show f.bytesWritten.toNat + 1 + s.length = f.bytesWritten.toNat + (s.length + 1) by omega]

/-- The last byte is stored behind the others. -/
theorem storeBytes_concat (m : ByteMemory) (a : ℕ) (s : List Octet) (c : Octet) :
    storeBytes m a (s ++ [c]) = (storeBytes m a s).setByte (a + s.length) c := by
  induction s generalizing m a with
  | nil => rw [List.nil_append, storeBytes_cons, storeBytes_nil, storeBytes_nil]; rfl
  | cons d s ih =>
      rw [List.cons_append, storeBytes_cons, ih, storeBytes_cons, List.length_cons]
      congr 1
      omega

/-- Other bytes stay. -/
theorem storeBytes_of_outside {m : ByteMemory} {a x : ℕ} {s : List Octet}
    (hx : x < a ∨ a + s.length ≤ x) : storeBytes m a s x = m x := by
  rw [storeBytes, if_neg (by omega)]

/-- The memory and the result of {lit}`vsnprintf`. -/
theorem vsnprintf_items (items : List Item) (hvalid : ∀ t ∈ items, t.Valid) (p : Param)
    (m : ByteMemory) (str : ℕ) (size : BitVec 32)
    (hlen : (items.flatMap Item.text).length < 2 ^ 32) :
    vsnprintf p m str size (items.flatMap Item.format) (items.flatMap Item.arg) =
      some (storeBytes m str ((items.flatMap Item.text).take (size - 1#32).toNat ++ [0#8]),
        BitVec.ofNat 32 (items.flatMap Item.text).length) := by
  have hformat := @tfpFormat_items _ memFileMethods items hvalid p []
    (⟨m, str, 0#32, size - 1#32⟩, 0#32)
  obtain ⟨w, hput⟩ := putAll_memFile (items.flatMap Item.text) ⟨m, str, 0#32, size - 1#32⟩ 0#32
    (by simpa using hlen)
  rw [List.append_nil, hput] at hformat
  rw [vsnprintf, hformat, storeBytes_concat, List.length_take, Nat.min_comm]
  simp

/-- The room in front of the zero byte. -/
theorem toNat_sub_one {size : BitVec 32} (hne : size ≠ 0#32) :
    0 < size.toNat ∧ (size - 1#32).toNat = size.toNat - 1 := by
  have hpos : size.toNat ≠ 0 := fun h => hne (BitVec.eq_of_toNat_eq h)
  have hlt := size.isLt
  rw [BitVec.toNat_sub]
  refine ⟨by omega, ?_⟩
  simp
  omega

/-- {lit}`vsnprintf` returns the length of the whole text.  It writes the characters that fit in
front of a zero byte, and leaves the bytes outside the buffer alone; but for a buffer of
size 0 it writes the whole text. -/
theorem vsnprintf_output (items : List Item) (hvalid : ∀ t ∈ items, t.Valid) (p : Param)
    (m : ByteMemory) (str : ℕ) (size : BitVec 32)
    (hlen : (items.flatMap Item.text).length < 2 ^ 32) :
    ∃ m', vsnprintf p m str size (items.flatMap Item.format) (items.flatMap Item.arg) =
        some (m', BitVec.ofNat 32 (items.flatMap Item.text).length) ∧
      (size ≠ 0#32 →
        m' = storeBytes m str ((items.flatMap Item.text).take (size.toNat - 1) ++ [0#8]) ∧
        ∀ a, a < str ∨ str + size.toNat ≤ a → m' a = m a) ∧
      (size = 0#32 → m' = storeBytes m str (items.flatMap Item.text ++ [0#8])) := by
  refine ⟨_, vsnprintf_items items hvalid p m str size hlen, fun hne => ?_, ?_⟩
  · obtain ⟨hpos, hsize⟩ := toNat_sub_one hne
    rw [hsize]
    refine ⟨rfl, fun a ha => storeBytes_of_outside ?_⟩
    rw [List.length_append, List.length_take, List.length_singleton]
    omega
  · rintro rfl
    have htake : (0#32 - 1#32).toNat = 2 ^ 32 - 1 := by decide
    rw [htake, List.take_of_length_le (by omega)]

/-- The text {lit}`n=-0042` in a buffer of five bytes. -/
theorem vsnprintf_output_sample : ∃ m', vsnprintf ⟨0#32, false, none, false, 10, false⟩
      (fun _ => 0#8) 0x1000 5#32 ("n=%05d".toList.map ascii) [.word (-42#32)] = some (m', 7#32) ∧
    m' = storeBytes (fun _ => 0#8) 0x1000 ("n=-0".toList.map ascii ++ [0#8]) := by
  obtain ⟨m', heq, hfill, -⟩ := vsnprintf_output sampleItems sampleItems_valid
    ⟨0#32, false, none, false, 10, false⟩ (fun _ => 0#8) 0x1000 5#32 (by decide)
  have hfive : (5#32 : BitVec 32).toNat - 1 = 4 := by decide
  obtain ⟨hm', -⟩ := hfill (by decide)
  rw [hfive] at hm'
  have hseven : BitVec.ofNat 32 (sampleItems.flatMap Item.text).length = 7#32 := by decide
  rw [hseven] at heq
  exact ⟨m', heq, hm'⟩

/-! ## Reading back -/

namespace Item

variable {f : Spec} {k : NumberKind} {v : BitVec 32}

/-- The prefix of a hexadecimal number. -/
def hexPrefix (k : NumberKind) : Option Octet :=
  match k with
  | .x => some (ascii 'x')
  | .upperX => some (ascii 'X')
  | .d | .i | .u | .o => none

/-- The filling of a number. -/
def fill (f : Spec) (k : NumberKind) (v : BitVec 32) : ℕ :=
  f.width - ((sign k v).toList.length + (if f.alt then lead k else []).length +
    (numeral k.base (magnitude k v)).length)

/-- A printed number as a text that {lit}`strntoumax` understands.  The prefix of an octal number
is one of its digits. -/
def numberText (f : Spec) (k : NumberKind) (v : BitVec 32) : NumberText where
  blanks := if f.zero then 0 else fill f k v
  sign := sign k v
  hexPrefix := if f.alt then hexPrefix k else none
  digits := List.replicate ((if f.alt ∧ k = .o then 1 else 0) + if f.zero then fill f k v else 0) 0 ++
    numeral k.base (magnitude k v)
  uc := k == .upperX

/-- A printed number is the text of a number. -/
theorem text_eq_numberText : (number f k v).text = (numberText f k v).text := by
  have hzero : ∀ uc, digitChar uc 0 = ascii '0' := by decide
  have hfill : f.width - ((sign k v).toList.length + (if f.alt then lead k else []).length +
      ((numeral k.base (magnitude k v)).map (digitChar (k == .upperX))).length) = fill f k v := by
    rw [List.length_map, fill]
  rw [text, Spec.pad, hfill, NumberText.text, numberText, NumberText.lead]
  cases f.zero <;> cases f.alt <;> cases k <;>
    simp [lead, hexPrefix, hzero, List.replicate_add, List.replicate_succ']

/-- It is a number in the base of its conversion. -/
theorem isNumber : (numberText f k v).IsNumber k.base where
  known := by cases k <;> simp [NumberKind.base]
  sign := by
    intro c hc
    simp only [numberText, sign, Option.mem_def, Option.ite_none_right_eq_some] at hc
    exact Or.inl (Option.some.inj hc.2).symm
  hexPrefix := by
    intro x hx
    simp only [numberText, Option.mem_def, Option.ite_none_right_eq_some] at hx
    cases k <;> simp [hexPrefix, NumberKind.base] at hx ⊢ <;> simp [hx.2]
  digits := by
    refine ⟨?_, fun d hd => ?_⟩
    · simp [numberText, numeral_ne_nil]
    · simp only [numberText, List.mem_append, List.mem_replicate] at hd
      obtain ⟨-, rfl⟩ | hd := hd
      · have hbase := k.two_le_base
        omega
      · exact numeral_lt k.two_le_base d hd

/-- The value that is written is the printed one. -/
theorem value_numberText : (numberText f k v).value k.base = v := by
  have hlt := v.isLt
  have hdigits : digitsValue k.base (numberText f k v).digits = magnitude k v := by
    rw [numberText, digitsValue_replicate, digitsValue_numeral]
  rw [NumberText.value, hdigits]
  apply BitVec.eq_of_toNat_eq
  have hint := BitVec.toInt_eq_toNat_cond v
  simp only [numberText, sign, magnitude]
  by_cases hk : k.Signed
  · by_cases hneg : v.toInt < 0
    · simp only [hk, hneg, and_self, if_true, BitVec.toNat_neg, BitVec.toNat_ofNat]
      split_ifs at hint <;> omega
    · simp only [hk, hneg, and_false, if_false, if_true, reduceCtorEq, BitVec.toNat_ofNat]
      split_ifs at hint <;> omega
  · simp only [hk, false_and, if_false, reduceCtorEq, BitVec.toNat_ofNat]
    omega

end Item

/-- {lit}`strtol` reads a printed number back, whatever its flags and its width. -/
theorem strtol_number {f : Spec} (k : NumberKind) (v : BitVec 32) {rest : List Octet}
    (hrest : NoDigit rest) (hlen : (Item.number f k v).text.length < 2 ^ 32) :
    strtol ((Item.number f k v).text ++ rest) k.base = (v, rest) := by
  rw [Item.text_eq_numberText] at hlen ⊢
  rw [strtol, strntoumax_text Item.isNumber hrest (by omega), Item.value_numberText]

/-- {lit}`%#010x` of 48879, followed by a blank. -/
theorem strtol_number_sample :
    strtol ("0x0000beef x".toList.map ascii) 16 = (0xbeef#32, " x".toList.map ascii) := by
  have hrest : NoDigit (" x".toList.map ascii) := by
    intro c hc
    obtain rfl := Option.some.inj (show some (ascii ' ') = some c from hc)
    decide
  exact @strtol_number ⟨[ascii '#', ascii '0'], 10, false⟩ .x 0xbeef#32 _ hrest (by decide)

end Sumeru
