import Sumeru.Libc.Tinyprintf

/-!
# Sumeru - vsscanf.c

The state machine of {lit}`vsscanf` over the characters of the format.  What it stores through
its pointer arguments is a list, in the order of the arguments.

Main results:

- Theorem {lit}`vsscanf_text`: a printed text is read back with the conversions that printed it.
- Theorem {lit}`snprintf_sscanf`: the same through a buffer in memory.
-/

namespace Sumeru

/-! ## The state machine -/

/-- The states of the format. -/
inductive ScanPhase where
  | normal | flags | width | modifiers | matchInit | matching | matchRange
deriving DecidableEq

/-- {lit}`enum bail`. -/
inductive Bail where
  | none | eof | err
deriving DecidableEq

/-- What is stored through one pointer argument: a number in its size, or characters, with or
without a zero byte behind them. -/
inductive Stored where
  | int (bits val : ℕ)
  | chars (s : List Octet) (ended : Bool)
deriving DecidableEq

/-- {lit}`enum ranks`. -/
def rankChar : ℤ := -2
def rankShort : ℤ := -1
def rankInt : ℤ := 0
def rankLong : ℤ := 1
def rankLonglong : ℤ := 2
def rankPtr : ℤ := 2 ^ 31 - 1

/-- The variables of {lit}`vsscanf`. -/
structure Scan where
  q : List Octet
  state : ScanPhase
  rank : ℤ
  width : BitVec 32
  splat : Bool
  widthGiven : Bool
  sarg : Bool
  bail : Bail
  converted : ℕ
  matchmap : Octet → Bool
  matchinv : Bool
  rangeStart : ℕ
  stores : List Stored

/-- {lit}`skipspace`. -/
def skipspace : List Octet → List Octet
  | c :: s => if isspace c then skipspace s else c :: s
  | [] => []

namespace Scan

/-- {lit}`set_integer`; {lit}`val` is a {lit}`uintmax_t` of 32 bits, which a store of 64 bits extends
with zeros. -/
def setInteger (s : Scan) (val : BitVec 32) : Scan :=
  if s.splat then s
  else
    let store (bits : ℕ) : Scan :=
      { s with stores := s.stores ++ [Stored.int bits (val.toNat % 2 ^ bits)] }
    if s.rank = rankChar then store 8
    else if s.rank = rankShort then store 16
    else if s.rank = rankInt then store 32
    else if s.rank = rankLong then store 32
    else if s.rank = rankLonglong then store 64
    else if s.rank = rankPtr then store 32
    else s

/-- {lit}`scan_int`. -/
def scanInt (s : Scan) (base : ℕ) : Scan :=
  let q := skipspace s.q
  if q = [] then { s with q := q, bail := .eof }
  else
    let r := strntoumax q base s.width.toNat
    if r.2.length = q.length then { s with q := q, bail := .err }
    else
      let s := { s with q := r.2, converted := if s.splat then s.converted else s.converted + 1 }
      s.setInteger r.1

/-- The loop of {lit}`%c` that copies characters: those that are copied, and the rest. -/
def copyChars : ℕ → List Octet → List Octet × List Octet × Bool
  | 0, q => ([], q, false)
  | _ + 1, [] => ([], [], true)
  | w + 1, c :: q =>
      let r := copyChars w q
      (c :: r.1, r.2)

/-- {lit}`%c`. -/
def scanChars (s : Scan) : Scan :=
  let width := if s.widthGiven then s.width.toNat else 1
  if s.splat then
    -- the loop does not advance
    if width ≠ 0 ∧ s.q = [] then { s with bail := .eof } else s
  else
    let r := copyChars width s.q
    let s := { s with q := r.2.1, stores := s.stores ++ [Stored.chars r.1 false] }
    if r.2.2 then { s with bail := .eof } else { s with converted := s.converted + 1 }

/-- The loop of {lit}`%s`: the word, the rest, and whether the end of the string was seen. -/
def copyWord : ℕ → List Octet → List Octet × List Octet × Bool
  | 0, q => ([], q, false)
  | _ + 1, [] => ([], [], true)
  | w + 1, c :: q =>
      if isspace c then ([], c :: q, false)
      else
        let r := copyWord w q
        (c :: r.1, r.2)

/-- {lit}`%s`. -/
def scanWord (s : Scan) : Scan :=
  let r := copyWord s.width.toNat s.q
  let s := { s with q := r.2.1 }
  let s :=
    if s.splat then s
    else
      { s with
        stores := s.stores ++ [Stored.chars r.1 (decide (r.1 ≠ []))]
        converted := if r.1 ≠ [] then s.converted + 1 else s.converted }
  if r.2.2 then { s with bail := .eof } else s

/-- The loop of {lit}`%[`; the width is not counted down. -/
def copyMatch (s : Scan) : List Octet → List Octet × List Octet × Bool
  | [] => ([], [], true)
  | c :: q =>
      if s.matchmap c ^^ s.matchinv then
        let r := copyMatch s q
        (c :: r.1, r.2)
      else ([], c :: q, false)

/-- {lit}`match_run`.  The state stays where it was. -/
def matchRun (s : Scan) : Scan :=
  let r := if s.width = 0#32 then ([], s.q, false) else s.copyMatch s.q
  let s :=
    if r.1 ≠ [] ∧ s.sarg then
      { s with q := r.2.1, stores := s.stores ++ [Stored.chars r.1 true], converted := s.converted + 1 }
    else
      { s with
        q := r.2.1
        stores := if s.sarg then s.stores ++ [Stored.chars r.1 false] else s.stores
        bail := .err }
  if r.2.2 then { s with bail := .eof } else s

/-- {lit}`set_bit`. -/
def setBit (s : Scan) (c : Octet) : Scan := { s with matchmap := fun x => x == c || s.matchmap x }

/-- The conversions at the end of {lit}`st_modifiers`. -/
def conversion (s : Scan) (bufLen : ℕ) (ch : Octet) : Scan :=
  let s :=
    { s with
      state := .normal
      rank := if s.rank < rankChar then rankChar
        else if rankLonglong < s.rank then rankLonglong else s.rank }
  if ch = ascii 'P' ∨ ch = ascii 'p' then { s with rank := rankPtr }.scanInt 0
  else if ch = ascii 'i' then s.scanInt 0
  else if ch = ascii 'd' then s.scanInt 10
  else if ch = ascii 'o' then s.scanInt 8
  else if ch = ascii 'u' then s.scanInt 10
  else if ch = ascii 'x' ∨ ch = ascii 'X' then s.scanInt 16
  else if ch = ascii 'n' then s.setInteger (BitVec.ofNat 32 (bufLen - s.q.length))
  else if ch = ascii 'c' then s.scanChars
  else if ch = ascii 's' then s.scanWord
  else if ch = ascii '[' then
    { s with sarg := !s.splat, state := .matchInit, matchinv := false, matchmap := fun _ => false }
  else if ch = ascii '%' then
    if s.q.head? = some (ascii '%') then { s with q := s.q.tail } else { s with bail := .err }
  else { s with bail := .err }

/-- {lit}`st_modifiers`. -/
def modifiers (s : Scan) (bufLen : ℕ) (ch : Octet) : Scan :=
  if ch = ascii 'h' then { s with rank := s.rank - 1 }
  else if ch = ascii 'l' then { s with rank := s.rank + 1 }
  else if ch = ascii 'j' then { s with rank := rankLonglong }
  else if ch = ascii 'z' then { s with rank := rankLong }
  else if ch = ascii 't' then { s with rank := rankLong }
  else if ch = ascii 'L' ∨ ch = ascii 'q' then { s with rank := rankLonglong }
  else s.conversion bufLen ch

/-- One character of the format. -/
def step (bufLen : ℕ) (s : Scan) (ch : Octet) : Scan :=
  match s.state with
  | .normal =>
      if ch = ascii '%' then
        { s with
          state := .flags
          splat := false
          widthGiven := false
          rank := rankInt
          width := BitVec.allOnes 32 }
      else if isspace ch then { s with q := skipspace s.q }
      else if s.q.head? = some ch then { s with q := s.q.tail }
      else { s with bail := .err }
  | .flags =>
      if ch = ascii '*' then { s with splat := true }
      else if ascii '0' ≤ ch ∧ ch ≤ ascii '9' then
        { s with
          width := BitVec.ofNat 32 (ch.toNat - (ascii '0').toNat)
          state := .width
          widthGiven := true }
      else { s with state := .modifiers }.modifiers bufLen ch
  | .width =>
      if ascii '0' ≤ ch ∧ ch ≤ ascii '9' then
        { s with width := s.width * 10#32 + BitVec.ofNat 32 (ch.toNat - (ascii '0').toNat) }
      else { s with state := .modifiers }.modifiers bufLen ch
  | .modifiers => s.modifiers bufLen ch
  | .matchInit =>
      if ch = ascii '^' then { s with matchinv := true }
      else { s.setBit ch with state := .matching }
  | .matching =>
      if ch = ascii ']' then s.matchRun
      else if ch = ascii '-' then { s with rangeStart := ch.toNat, state := .matchRange }
      else s.setBit ch
  | .matchRange =>
      if ch = ascii ']' then (s.setBit (ascii '-')).matchRun
      else
        { s with
          matchmap := fun x => (decide (s.rangeStart ≤ x.toNat) && decide (x < ch)) || s.matchmap x
          state := .matching }

/-- The loop over the format, until something is wrong. -/
def loop (bufLen : ℕ) (s : Scan) : List Octet → Scan
  | [] => s
  | ch :: format => if s.bail = .none then (s.step bufLen ch).loop bufLen format else s

/-- The initial values. -/
def init (buffer : List Octet) : Scan where
  q := buffer
  state := .normal
  rank := rankInt
  width := BitVec.allOnes 32
  splat := false
  widthGiven := false
  sarg := false
  bail := .none
  converted := 0
  matchmap := fun _ => false
  matchinv := false
  rangeStart := 0
  stores := []

end Scan

/-- {lit}`vsscanf`: the result and what is stored. -/
def vsscanf (buffer format : List Octet) : ℤ × List Stored :=
  let s := (Scan.init buffer).loop buffer.length format
  (if s.bail = .eof ∧ s.converted = 0 then -1 else s.converted, s.stores)

/-- {lit}`long long` gets the 32 bits that {lit}`strntoumax` returns. -/
example : vsscanf ("-1".toList.map ascii) ("%lld".toList.map ascii) =
    (1, [.int 64 (2 ^ 32 - 1)]) := by decide

/-! ## Reading a printed text -/

namespace Item

/-- The conversion that reads a number; {lit}`%i` would take zeros in front for a prefix. -/
def scanChar : NumberKind → Octet
  | .d | .i => ascii 'd'
  | .u => ascii 'u'
  | .x => ascii 'x'
  | .upperX => ascii 'X'
  | .o => ascii 'o'

/-- The format that reads an item: without flags and width. -/
def scanFormat : Item → List Octet
  | char c => [c]
  | percent _ => [ascii '%', ascii '%']
  | number _ k _ => [ascii '%', scanChar k]
  | character _ _ => [ascii '%', ascii 'c']
  | string _ _ => [ascii '%', ascii 's']

/-- What is stored for an item. -/
def stored : Item → List Stored
  | number _ _ v => [.int 32 v.toNat]
  | _ => []

/-- Items whose text can be read back: characters and numbers, and no number is followed by what
could be one of its digits. -/
def Scannable : List Item → Prop
  | [] => True
  | char c :: items => c ≠ ascii '%' ∧ c ≠ 0#8 ∧ Scannable items
  | percent _ :: items => Scannable items
  | number _ _ _ :: items => NoDigit (items.flatMap text) ∧ Scannable items
  | character _ _ :: _ => False
  | string _ _ :: _ => False

end Item

/-- Nothing is skipped in front of other characters. -/
theorem skipspace_of_head {s : List Octet} (hs : ∀ c ∈ s.head?, isspace c = false) :
    skipspace s = s := by
  cases s with
  | nil => rfl
  | cons c s => simp [skipspace, hs c rfl]

/-- White space is skipped once. -/
theorem skipspace_skipspace (s : List Octet) : skipspace (skipspace s) = skipspace s := by
  induction s with
  | nil => rfl
  | cons c s ih =>
      rw [skipspace]
      split_ifs with hc
      · exact ih
      · exact skipspace_of_head (by simpa using hc)

/-- Blanks are skipped. -/
theorem skipspace_replicate (n : ℕ) (s : List Octet) :
    skipspace (List.replicate n (ascii ' ') ++ s) = skipspace s := by
  induction n with
  | zero => rfl
  | succ n ih =>
      have hblank : isspace (ascii ' ') = true := by decide
      rw [List.replicate_succ, List.cons_append, skipspace, if_pos hblank, ih]

namespace Scan

variable {s : Scan} {rest format : List Octet} {bufLen : ℕ}

/-- Between two items: the rest of the text, from which blanks may have been skipped. -/
structure Reads (s : Scan) (rest : List Octet) : Prop where
  state : s.state = .normal
  bail : s.bail = .none
  q : s.q = rest ∨ s.q = skipspace rest

/-- The rest of the input, without leading blanks. -/
theorem Reads.skipspace_q (h : s.Reads rest) : skipspace s.q = skipspace rest := by
  obtain hq | hq := h.q
  · rw [hq]
  · rw [hq, skipspace_skipspace]

/-- The next character of the format. -/
theorem loop_cons (h : s.bail = .none) (ch : Octet) :
    s.loop bufLen (ch :: format) = (s.step bufLen ch).loop bufLen format :=
  if_pos h

/-- A character of the format. -/
theorem Reads.char {c : Octet} (h : s.Reads (c :: rest)) (hc : c ≠ ascii '%') :
    ∃ s' : Scan, s.loop bufLen (c :: format) = s'.loop bufLen format ∧ s'.Reads rest ∧
      s'.converted = s.converted ∧ s'.stores = s.stores := by
  refine ⟨s.step bufLen c, loop_cons h.bail c, ?_⟩
  by_cases hspace : isspace c = true
  · have hstep : s.step bufLen c = { s with q := skipspace s.q } := by
      simp [step, h.state, hc, hspace]
    rw [hstep]
    refine ⟨⟨h.state, h.bail, Or.inr ?_⟩, rfl, rfl⟩
    simp only [h.skipspace_q, skipspace, hspace, if_true]
  · rw [Bool.not_eq_true] at hspace
    have hq : s.q = c :: rest := by
      obtain hq | hq := h.q
      · exact hq
      · rw [hq, skipspace_of_head (by simpa using hspace)]
    have hstep : s.step bufLen c = { s with q := rest } := by
      simp [step, h.state, hc, hspace, hq]
    rw [hstep]
    exact ⟨⟨h.state, h.bail, Or.inl rfl⟩, rfl, rfl⟩

/-- The scan after the percent sign of a conversion. -/
def start (s : Scan) : Scan :=
  { s with
    state := .flags
    splat := false
    widthGiven := false
    rank := rankInt
    width := BitVec.allOnes 32 }

/-- A percent sign and the character of a conversion. -/
theorem Reads.conversion (h : s.Reads rest) {ch : Octet}
    (hch : ch ≠ ascii '*' ∧ ¬(ascii '0' ≤ ch ∧ ch ≤ ascii '9') ∧ ch ≠ ascii 'h' ∧
      ch ≠ ascii 'l' ∧ ch ≠ ascii 'j' ∧ ch ≠ ascii 'z' ∧ ch ≠ ascii 't' ∧
      ¬(ch = ascii 'L' ∨ ch = ascii 'q')) :
    s.loop bufLen (ascii '%' :: ch :: format) =
      ({ s.start with state := .modifiers }.conversion bufLen ch).loop bufLen format := by
  obtain ⟨h1, h2, h3, h4, h5, h6, h7, h8⟩ := hch
  have hpercent : s.step bufLen (ascii '%') = s.start := by
    simp [step, h.state, start]
  have hbail : s.start.bail = .none := h.bail
  rw [loop_cons h.bail, hpercent, loop_cons hbail]
  congr 1
  simp only [step, start, if_neg h1, if_neg h2, modifiers, if_neg h3, if_neg h4, if_neg h5,
    if_neg h6, if_neg h7, if_neg h8]

/-- The printed number without the blanks in front. -/
def bareText (f : Spec) (k : NumberKind) (v : BitVec 32) : NumberText :=
  { Item.numberText f k v with blanks := 0 }

/-- Without its blanks a printed number is a number. -/
theorem bareText_isNumber (f : Spec) (k : NumberKind) (v : BitVec 32) :
    (bareText f k v).IsNumber k.base where
  known := (@Item.isNumber f k v).known
  sign := (@Item.isNumber f k v).sign
  hexPrefix := (@Item.isNumber f k v).hexPrefix
  digits := (@Item.isNumber f k v).digits

/-- A printed number is blanks and the number. -/
theorem text_eq_bareText (f : Spec) (k : NumberKind) (v : BitVec 32) :
    (Item.number f k v).text =
      List.replicate (Item.numberText f k v).blanks (ascii ' ') ++ (bareText f k v).text := by
  rw [Item.text_eq_numberText]
  rfl

/-- A number has characters. -/
theorem bareText_ne_nil (f : Spec) (k : NumberKind) (v : BitVec 32) :
    (bareText f k v).text ≠ [] := by
  have hne := (bareText_isNumber f k v).digits.1
  simp [NumberText.text, hne]

/-- A number begins with something else than white space. -/
theorem head_bareText (f : Spec) (k : NumberKind) (v : BitVec 32) (rest : List Octet) :
    ∀ c ∈ ((bareText f k v).text ++ rest).head?, isspace c = false := by
  have ht := bareText_isNumber f k v
  have htext : (bareText f k v).text ++ rest = (bareText f k v).sign.toList ++
      ((bareText f k v).lead ++ ((bareText f k v).digits.map (digitChar (bareText f k v).uc) ++
        rest)) := by
    simp [NumberText.text, bareText]
  rw [htext]
  intro c hc
  cases hs : (bareText f k v).sign with
  | none =>
      rw [hs] at hc
      exact (head_digits ht rest c hc).1
  | some x =>
      rw [hs] at hc
      obtain rfl := Option.some.inj hc
      obtain rfl | rfl := ht.sign x hs <;> decide

/-- The number that stands next is read. -/
theorem scanInt_number {f : Spec} {k : NumberKind} {v : BitVec 32}
    (hq : skipspace s.q = skipspace ((Item.number f k v).text ++ rest)) (hrest : NoDigit rest)
    (hlen : (Item.number f k v).text.length < 2 ^ 32) (hwidth : s.width = BitVec.allOnes 32)
    (hsplat : s.splat = false) (hrank : s.rank = rankInt) :
    s.scanInt k.base =
      { s with
        q := rest
        converted := s.converted + 1
        stores := s.stores ++ [.int 32 v.toNat] } := by
  have hbare : skipspace s.q = (bareText f k v).text ++ rest := by
    rw [hq, text_eq_bareText, List.append_assoc, skipspace_replicate,
      skipspace_of_head (head_bareText f k v rest)]
  have hne := bareText_ne_nil f k v
  rw [text_eq_bareText, List.length_append] at hlen
  have hwide : s.width.toNat = 2 ^ 32 - 1 := by rw [hwidth]; rfl
  have hread := strntoumax_text (bareText_isNumber f k v) hrest
    (show (bareText f k v).text.length ≤ 2 ^ 32 - 1 by omega)
  have hvalue : (bareText f k v).value k.base = v := Item.value_numberText
  have hsome : (bareText f k v).text ++ rest ≠ [] := by simp [hne]
  have hmoved : ¬rest.length = ((bareText f k v).text ++ rest).length := by
    have hpos := List.length_pos_of_ne_nil hne
    rw [List.length_append]
    omega
  simp only [scanInt, hbare, hwide, hread, if_neg hsome, if_neg hmoved, hsplat, Bool.false_eq_true,
    if_false, setInteger, hrank, hvalue]
  rw [Nat.mod_eq_of_lt v.isLt]
  rfl

/-- An item is read. -/
theorem Reads.item {items : List Item} {t : Item} (ht : Item.Scannable (t :: items))
    (h : s.Reads ((t :: items).flatMap Item.text)) (hlen : t.text.length < 2 ^ 32) :
    ∃ s' : Scan, s.loop bufLen (t.scanFormat ++ format) = s'.loop bufLen format ∧
      s'.Reads (items.flatMap Item.text) ∧ s'.converted = s.converted + t.stored.length ∧
      s'.stores = s.stores ++ t.stored := by
  rw [List.flatMap_cons] at h
  cases t with
  | char c =>
      obtain ⟨s', hloop, hreads, hconv, hstores⟩ := Reads.char h ht.1
      exact ⟨s', hloop, hreads, hconv, by simpa [Item.stored] using hstores⟩
  | percent f =>
      have hspace : isspace (ascii '%') = false := by decide
      have hq : s.q = ascii '%' :: items.flatMap Item.text := by
        obtain hq | hq := h.q
        · exact hq
        · rw [hq]
          exact skipspace_of_head (by simp [Item.text, hspace])
      have hconv : ({ s.start with state := .modifiers } : Scan).conversion bufLen (ascii '%') =
          { s.start with state := .normal, q := items.flatMap Item.text } := by
        have hstart : s.start.q = ascii '%' :: items.flatMap Item.text := hq
        change (if s.start.q.head? = some (ascii '%') then
          ({ s.start with state := .normal, q := s.start.q.tail } : Scan) else _) = _
        rw [hstart]
        rfl
      refine ⟨{ s.start with state := .normal, q := items.flatMap Item.text }, ?_,
        ⟨rfl, h.bail, Or.inl rfl⟩, rfl, (List.append_nil _).symm⟩
      rw [← hconv]
      exact h.conversion (by decide)
  | number f k v =>
      have hconv : ({ s.start with state := .modifiers } : Scan).conversion bufLen
          (Item.scanChar k) = ({ s.start with state := .normal } : Scan).scanInt k.base := by
        cases k <;> rfl
      have hint : ({ s.start with state := .normal } : Scan).scanInt k.base = _ :=
        scanInt_number h.skipspace_q ht.1 hlen rfl rfl rfl
      refine ⟨{ s.start with
        state := .normal
        q := items.flatMap Item.text
        converted := s.converted + 1
        stores := s.stores ++ [.int 32 v.toNat] }, ?_, ⟨rfl, h.bail, Or.inl rfl⟩, rfl, rfl⟩
      refine (h.conversion (by cases k <;> decide)).trans ?_
      rw [hconv, hint]
      rfl
  | character f v => exact absurd ht id
  | string f x => exact absurd ht id

/-- The rest of a scannable format is scannable. -/
theorem scannable_tail {t : Item} {items : List Item} (h : Item.Scannable (t :: items)) :
    Item.Scannable items := by
  cases t with
  | char c => exact h.2.2
  | percent f => exact h
  | number f k v => exact h.2
  | character f v => exact absurd h id
  | string f x => exact absurd h id

/-- All items are read. -/
theorem Reads.items {items : List Item} (hitems : Item.Scannable items)
    (h : s.Reads (items.flatMap Item.text)) (hlen : (items.flatMap Item.text).length < 2 ^ 32) :
    ∃ s' : Scan, s.loop bufLen (items.flatMap Item.scanFormat) = s' ∧ s'.bail = .none ∧
      s'.converted = s.converted + (items.flatMap Item.stored).length ∧
      s'.stores = s.stores ++ items.flatMap Item.stored := by
  induction items generalizing s with
  | nil => exact ⟨s, rfl, h.bail, rfl, (List.append_nil _).symm⟩
  | cons t items ih =>
      rw [List.flatMap_cons, List.length_append] at hlen
      obtain ⟨s₁, hloop, hreads, hconv, hstores⟩ := h.item hitems (by omega)
      obtain ⟨s', hloop', hbail, hconv', hstores'⟩ :=
        ih (scannable_tail hitems) hreads (by omega)
      refine ⟨s', ?_, hbail, ?_, ?_⟩
      · rw [List.flatMap_cons, hloop, hloop']
      · rw [hconv', hconv, List.flatMap_cons, List.length_append]
        omega
      · rw [hstores', hstores, List.flatMap_cons, List.append_assoc]

end Scan

/-- A printed text is read back with the conversions that printed it, whatever the flags and
widths: all numbers are converted, to the values that were printed. -/
theorem vsscanf_text (items : List Item) (hitems : Item.Scannable items)
    (hlen : (items.flatMap Item.text).length < 2 ^ 32) :
    vsscanf (items.flatMap Item.text) (items.flatMap Item.scanFormat) =
      (((items.flatMap Item.stored).length : ℤ), items.flatMap Item.stored) := by
  have hstart : (Scan.init (items.flatMap Item.text)).Reads (items.flatMap Item.text) :=
    ⟨rfl, rfl, Or.inl rfl⟩
  obtain ⟨s', hloop, hbail, hconv, hstores⟩ := hstart.items hitems hlen
  have hconv' : s'.converted = (items.flatMap Item.stored).length := by
    rw [hconv]
    exact Nat.zero_add _
  rw [vsscanf, hloop, hbail, hconv', hstores]
  rfl

/-! ## Through memory -/

/-- The string {lit}`s` with its zero byte is at {lit}`a`. -/
structure CString (m : ByteMemory) (a : ℕ) (s : List Octet) : Prop where
  nonzero : ∀ c ∈ s, c ≠ 0#8
  bytes : ∀ i < s.length, m (a + i) = s.getD i 0#8
  ended : m (a + s.length) = 0#8

/-- A text without zero bytes becomes a C string. -/
theorem cstring_storeBytes {s : List Octet} (hs : ∀ c ∈ s, c ≠ 0#8) (m : ByteMemory) (a : ℕ) :
    CString (storeBytes m a (s ++ [0#8])) a s where
  nonzero := hs
  bytes := fun i hi => by
    rw [storeBytes, if_pos ⟨Nat.le_add_right a i, by simp; omega⟩, Nat.add_sub_cancel_left,
      List.getD_eq_getElem?_getD, List.getElem?_append_left hi, ← List.getD_eq_getElem?_getD]
  ended := by
    rw [storeBytes, if_pos ⟨Nat.le_add_right a _, by simp⟩, Nat.add_sub_cancel_left,
      List.getD_eq_getElem?_getD, List.getElem?_append_right le_rfl, Nat.sub_self]
    rfl

/-- A printed number has no zero byte. -/
theorem number_text_nonzero (f : Spec) (k : NumberKind) (v : BitVec 32) :
    ∀ c ∈ (Item.number f k v).text, c ≠ 0#8 := by
  have ht := @Item.isNumber f k v
  have hbase : k.base ≤ 16 := by cases k <;> decide
  have hlead : ∀ x ∈ (Item.numberText f k v).hexPrefix, ascii '0' ≠ 0#8 ∧ x ≠ 0#8 := by
    intro x hx
    obtain rfl | rfl := (ht.hexPrefix x hx).2 <;> decide
  intro c hc
  rw [Item.text_eq_numberText, NumberText.text] at hc
  simp only [List.mem_append, List.mem_replicate, List.mem_map, Option.mem_toList] at hc
  obtain ⟨-, rfl⟩ | hsign | hhex | ⟨d, hd, rfl⟩ := hc
  · decide
  · obtain rfl | rfl := ht.sign c hsign <;> decide
  · rw [NumberText.lead] at hhex
    cases hx : (Item.numberText f k v).hexPrefix with
    | none => simp [hx] at hhex
    | some x =>
        have hx' := hlead x hx
        rw [hx] at hhex
        simp only [List.mem_cons, List.not_mem_nil, or_false] at hhex
        obtain rfl | rfl := hhex
        · exact hx'.1
        · exact hx'.2
  · exact (digitChar_ne _ (by have hlt := ht.digits.2 d hd; omega)).1

/-- A scannable format prints no zero bytes. -/
theorem scannable_text_nonzero {items : List Item} (hitems : Item.Scannable items) :
    ∀ c ∈ items.flatMap Item.text, c ≠ 0#8 := by
  induction items with
  | nil => simp
  | cons t items ih =>
      rw [List.flatMap_cons, List.forall_mem_append]
      refine ⟨?_, ih (Scan.scannable_tail hitems)⟩
      cases t with
      | char c => simpa [Item.text] using hitems.2.1
      | percent f => exact show ∀ c ∈ [ascii '%'], c ≠ 0#8 by decide
      | number f k v => exact number_text_nonzero f k v
      | character f v => exact absurd hitems id
      | string f x => exact absurd hitems id

/-- What {lit}`snprintf` prints into a buffer that is large enough, {lit}`sscanf` reads back from it:
every number comes back, whatever its conversion, its flags and its width. -/
theorem snprintf_sscanf (items : List Item) (hvalid : ∀ t ∈ items, t.Valid)
    (hitems : Item.Scannable items) (p : Param) (m : ByteMemory) (str : ℕ) (size : BitVec 32)
    (hfit : (items.flatMap Item.text).length < size.toNat) :
    ∃ m' s, vsnprintf p m str size (items.flatMap Item.format) (items.flatMap Item.arg) =
        some (m', BitVec.ofNat 32 s.length) ∧ CString m' str s ∧
      vsscanf s (items.flatMap Item.scanFormat) =
        (((items.flatMap Item.stored).length : ℤ), items.flatMap Item.stored) := by
  have hlt := size.isLt
  have hne : size ≠ 0#32 := by
    rintro rfl
    exact absurd hfit (Nat.not_lt_zero _)
  have hprint := vsnprintf_items items hvalid p m str size (by omega)
  rw [(toNat_sub_one hne).2, List.take_of_length_le (by omega)] at hprint
  exact ⟨_, _, hprint, cstring_storeBytes (scannable_text_nonzero hitems) m str,
    vsscanf_text items hitems (by omega)⟩

/-- {lit}`%04d,%#x` of -7 and 255. -/
theorem snprintf_sscanf_sample : ∃ m' s, vsnprintf ⟨0#32, false, none, false, 10, false⟩
      (fun _ => 0#8) 0x1000 16#32 ("%04d,%#x".toList.map ascii) [.word (-7#32), .word 255#32] =
      some (m', BitVec.ofNat 32 s.length) ∧ CString m' 0x1000 s ∧
    vsscanf s ("%d,%x".toList.map ascii) = (2, [.int 32 (2 ^ 32 - 7), .int 32 255]) := by
  have hvalid : ∀ t ∈ [Item.number ⟨[ascii '0'], 4, false⟩ .d (-7#32), .char (ascii ','),
      .number ⟨[ascii '#'], 0, false⟩ .x 255#32], t.Valid := by
    simp only [List.forall_mem_cons, Item.Valid]
    exact ⟨⟨by decide, by decide⟩, by decide, ⟨by decide, by decide⟩, by simp⟩
  have hitems : Item.Scannable [Item.number ⟨[ascii '0'], 4, false⟩ .d (-7#32), .char (ascii ','),
      .number ⟨[ascii '#'], 0, false⟩ .x 255#32] := by
    refine ⟨?_, by decide, by decide, ?_, trivial⟩
    · intro c hc
      obtain rfl := Option.some.inj (show some (ascii ',') = some c from hc)
      decide
    · intro c hc
      cases hc
  exact snprintf_sscanf _ hvalid hitems ⟨0#32, false, none, false, 10, false⟩ (fun _ => 0#8) 0x1000
    16#32 (by decide)

end Sumeru
