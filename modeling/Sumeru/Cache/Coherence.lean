import Sumeru.Cache.MemOps

/-!
# Sumeru - Coherence of a partially valid write-back cache

What the contents of the data cache and of memory mean together: a byte that is
cached counts, every other byte is in memory.  {lit}`Coherent` states this against a
memory of bytes, with the side condition that makes eviction optional, and the
lemmas here are the four ways in which the cache and memory change.

Main results:

- Theorem {lit}`Coherent.replace`: a line that memory agrees with can be replaced.
- Theorem {lit}`Coherent.write`: a store into a present line.
- Theorem {lit}`Coherent.storeHalf`: a masked half-word of the line reaches memory.
-/

namespace Sumeru

/-! ## Bytes of memory -/

/-- Bits 3 downto 1 of an address: the half-word of its line. -/
def halfOf (a : BitVec 25) : Fin 8 := (a.extractLsb' 1 3).toFin

/-- Byte {lit}`a` of a memory of half-words. -/
def byteAt (cells : BitVec 24 → BitVec 16) (a : BitVec 25) : BitVec 8 :=
  (cells (a.extractLsb' 1 24)).extractLsb' (8 * (a.toNat % 2)) 8

/-- The half-word of a line in terms of the address. -/
theorem halfOf_val (a : BitVec 25) : (halfOf a).val = a.toNat / 2 % 8 := by
  change (a.extractLsb' 1 3).toNat = _
  simp [BitVec.extractLsb'_toNat, Nat.shiftRight_eq_div_pow]

/-- The word of a line in terms of the address. -/
theorem wordOf_val (a : BitVec 25) : (wordOf a).val = a.toNat / 4 % 4 := by
  change (a.extractLsb' 2 2).toNat = _
  simp [BitVec.extractLsb'_toNat, Nat.shiftRight_eq_div_pow]

/-- The half-word address of half-word {lit}`h` of a line. -/
def halfAddr (tag : BitVec 13) (l : BitVec 8) (h : ℕ) : BitVec 24 :=
  tag ++ l ++ 0#3 + BitVec.ofNat 24 h

/-- Half-word addresses in terms of tag, line and half-word. -/
theorem halfAddr_toNat (tag : BitVec 13) (l : BitVec 8) (h : Fin 8) :
    (halfAddr tag l h.val).toNat = tag.toNat * 2048 + l.toNat * 8 + h.val := by
  have h1 := tag.isLt
  have h2 := l.isLt
  have h3 := h.isLt
  rw [halfAddr, BitVec.toNat_add, toNat_append_eq, toNat_append_eq, BitVec.toNat_ofNat,
    BitVec.toNat_ofNat]
  omega

/-- Tag, line and half-word number tell the cells apart. -/
theorem extract_eq_halfAddr_iff (a : BitVec 25) (tag : BitVec 13) (l : BitVec 8) (h : Fin 8) :
    a.extractLsb' 1 24 = halfAddr tag l h.val ↔ tagOf a = tag ∧ lineOf a = l ∧ halfOf a = h := by
  have ha := a.isLt
  have h1 := tag.isLt
  have h2 := l.isLt
  have h3 := h.isLt
  rw [← BitVec.toNat_inj, halfAddr_toNat, ← BitVec.toNat_inj, ← BitVec.toNat_inj, ← Fin.val_inj,
    halfOf_val, tagOf, lineOf, BitVec.extractLsb'_toNat, BitVec.extractLsb'_toNat,
    BitVec.extractLsb'_toNat, Nat.shiftRight_eq_div_pow, Nat.shiftRight_eq_div_pow,
    Nat.shiftRight_eq_div_pow]
  omega

/-- A byte lies in its half-word. -/
theorem byteAt_eq (cells : BitVec 24 → BitVec 16) (a : BitVec 25) :
    byteAt cells a =
      (cells (halfAddr (tagOf a) (lineOf a) (halfOf a).val)).extractLsb' (8 * (a.toNat % 2)) 8 := by
  rw [byteAt, (extract_eq_halfAddr_iff a _ _ _).mpr ⟨rfl, rfl, rfl⟩]

/-- A masked byte stays, another one is written. -/
theorem blend_byte (dqm : BitVec 2) (old new : BitVec 16) (k : ℕ) (hk : k < 2) :
    (blend dqm old new).extractLsb' (8 * k) 8 =
      if dqm.getLsbD k then old.extractLsb' (8 * k) 8 else new.extractLsb' (8 * k) 8 := by
  obtain rfl | rfl : k = 0 ∨ k = 1 := by omega
  · refine BitVec.extractLsb'_append_eq_right.trans ?_
    rfl
  · refine BitVec.extractLsb'_append_eq_left.trans ?_
    rfl

/-- The lane of byte {lit}`a` in a line of four words. -/
def laneIn (line : Fin 4 → Lanes) (a : BitVec 25) : Lane := line (wordOf a) (laneOf a)

/-- The two bits of a mask. -/
theorem getLsbD_mask (x y : Bool) :
    (BitVec.ofBool x ++ BitVec.ofBool y : BitVec 2).getLsbD 0 = y ∧
      (BitVec.ofBool x ++ BitVec.ofBool y : BitVec 2).getLsbD 1 = x := by
  cases x <;> cases y <;> decide

/-- Mask and byte of a half-word at the byte {lit}`a` that it holds. -/
theorem halfWord_byte (line : Fin 4 → Lanes) (a : BitVec 25) :
    (Dcache.halfWord line (halfOf a)).1.getLsbD (a.toNat % 2) = !(laneIn line a).ena ∧
      (Dcache.halfWord line (halfOf a)).2.extractLsb' (8 * (a.toNat % 2)) 8 =
        (laneIn line a).byte := by
  have hw : (⟨(halfOf a).val / 2, by omega⟩ : Fin 4) = wordOf a := by
    apply Fin.ext
    have := halfOf_val a
    have := wordOf_val a
    simp only
    omega
  have hh := halfOf_val a
  have hl := laneOf_val a
  have hpar : a.toNat % 2 = 0 ∨ a.toNat % 2 = 1 := by omega
  simp only [Dcache.halfWord, hw]
  rcases hpar with h | h
  · have hlane : (⟨2 * ((halfOf a).val % 2), by omega⟩ : Fin 4) = laneOf a := by
      apply Fin.ext
      simp only
      omega
    rw [h, hlane]
    exact ⟨(getLsbD_mask _ _).1, BitVec.extractLsb'_append_eq_right⟩
  · have hlane : (⟨2 * ((halfOf a).val % 2) + 1, by omega⟩ : Fin 4) = laneOf a := by
      apply Fin.ext
      simp only
      omega
    rw [h, hlane]
    exact ⟨(getLsbD_mask _ _).2, BitVec.extractLsb'_append_eq_left⟩

/-- A masked half-word of a line changes the bytes of its valid lanes. -/
theorem byteAt_update (cells : BitVec 24 → BitVec 16) (line : Fin 4 → Lanes) (tag : BitVec 13)
    (l : BitVec 8) (h : Fin 8) (a : BitVec 25) :
    byteAt (Function.update cells (halfAddr tag l h.val)
        (blend (Dcache.halfWord line h).1 (cells (halfAddr tag l h.val)) (Dcache.halfWord line h).2)) a =
      if (tagOf a = tag ∧ lineOf a = l ∧ halfOf a = h) ∧ (laneIn line a).ena = true then
        (laneIn line a).byte
      else byteAt cells a := by
  by_cases hcell : tagOf a = tag ∧ lineOf a = l ∧ halfOf a = h
  · have haddr := (extract_eq_halfAddr_iff a tag l h).mpr hcell
    obtain ⟨hm, hd⟩ := halfWord_byte line a
    rw [hcell.2.2] at hm hd
    rw [byteAt, haddr, Function.update_self, blend_byte _ _ _ _ (by omega), hm, hd, byteAt, haddr]
    cases (laneIn line a).ena <;> simp [hcell]
  · have haddr : a.extractLsb' 1 24 ≠ halfAddr tag l h.val := fun heq =>
      hcell ((extract_eq_halfAddr_iff a tag l h).mp heq)
    rw [byteAt, Function.update_of_ne haddr, if_neg (fun hx => hcell hx.1), byteAt]

/-- Two addresses in the same word. -/
theorem sameWord_iff (a x : BitVec 25) :
    a.extractLsb' 2 23 = x.extractLsb' 2 23 ↔
      tagOf a = tagOf x ∧ lineOf a = lineOf x ∧ wordOf a = wordOf x := by
  have ha := a.isLt
  have hx := x.isLt
  rw [← BitVec.toNat_inj, ← BitVec.toNat_inj, ← BitVec.toNat_inj, ← Fin.val_inj, wordOf_val,
    wordOf_val]
  simp only [tagOf, lineOf, BitVec.extractLsb'_toNat, Nat.shiftRight_eq_div_pow]
  omega

/-- The lanes of a word have its tag, line and number. -/
theorem sameWord_laneAddr (x : BitVec 25) (b : Fin 4) :
    tagOf (laneAddr x b) = tagOf x ∧ lineOf (laneAddr x b) = lineOf x ∧
      wordOf (laneAddr x b) = wordOf x := by
  rw [← sameWord_iff, ← eq_laneAddr_iff, laneOf_laneAddr]

/-! ## Cache contents over memory -/

namespace Dcache

/-- The words of a line. -/
def line (c : Dcache) (l : BitVec 8) : Fin 4 → Lanes := fun j => c.dataRam j l

/-- The lane of byte {lit}`a`. -/
def lane (c : Dcache) (a : BitVec 25) : Lane := laneIn (c.line (lineOf a)) a

/-- The lane of a byte of the word. -/
theorem lane_laneAddr (c : Dcache) (x : BitVec 25) (b : Fin 4) :
    c.lane (laneAddr x b) = c.line (lineOf x) (wordOf x) b := by
  obtain ⟨-, hl, hw⟩ := sameWord_laneAddr x b
  rw [lane, laneIn, laneOf_laneAddr, hl, hw]

/-- Byte {lit}`a` is in the cache. -/
structure Cached (c : Dcache) (a : BitVec 25) : Prop where
  valid : (c.metaRam (lineOf a)).valid = true
  tag : (c.metaRam (lineOf a)).tag = tagOf a
  ena : (c.lane a).ena = true

/-- The bytes of one word share a line and a tag. -/
theorem cached_laneAddr_iff (c : Dcache) (x : BitVec 25) (b : Fin 4) :
    c.Cached (laneAddr x b) ↔
      (c.metaRam (lineOf x)).valid = true ∧ (c.metaRam (lineOf x)).tag = tagOf x ∧
        (c.line (lineOf x) (wordOf x) b).ena = true := by
  obtain ⟨ht, hl, -⟩ := sameWord_laneAddr x b
  have hcell := c.lane_laneAddr x b
  constructor
  · rintro ⟨hvalid, htag, hena⟩
    rw [hl] at hvalid htag
    exact ⟨hvalid, htag.trans ht, hcell ▸ hena⟩
  · rintro ⟨hvalid, htag, hena⟩
    refine ⟨?_, ?_, ?_⟩
    · rw [hl]
      exact hvalid
    · rw [hl, ht]
      exact htag
    · rw [hcell]
      exact hena

/-- The cache and the cells hold the byte memory {lit}`m`: a cached byte counts, and
memory is up to date wherever no dirty line covers it. -/
structure Coherent (c : Dcache) (cells : BitVec 24 → BitVec 16) (m : ByteMem) : Prop where
  cached : ∀ a, c.Cached a → (c.lane a).byte = m a
  memory : ∀ a, (c.Cached a → (c.metaRam (lineOf a)).dirty = false) → byteAt cells a = m a
  dirty : ∀ l, (c.metaRam l).dirty = true → (c.metaRam l).valid = true

variable {c c' : Dcache} {cells : BitVec 24 → BitVec 16} {m : ByteMem}

/-- The line of {lit}`addr` is the only one that {lit}`c'` changes. -/
structure OnlyLine (c c' : Dcache) (l : BitVec 8) : Prop where
  metaRam : ∀ l', l' ≠ l → c'.metaRam l' = c.metaRam l'
  line : ∀ l', l' ≠ l → c'.line l' = c.line l'

/-- Lanes of other lines stay. -/
theorem OnlyLine.lane {l : BitVec 8} (h : OnlyLine c c' l) {a : BitVec 25} (ha : lineOf a ≠ l) :
    c'.lane a = c.lane a := by
  rw [Dcache.lane, Dcache.lane, h.line _ ha]

/-- Other lines stay cached. -/
theorem OnlyLine.cached_iff {l : BitVec 8} (h : OnlyLine c c' l) {a : BitVec 25}
    (ha : lineOf a ≠ l) : c'.Cached a ↔ c.Cached a := by
  constructor
  · rintro ⟨h1, h2, h3⟩
    rw [h.metaRam _ ha] at h1 h2
    rw [h.lane ha] at h3
    exact ⟨h1, h2, h3⟩
  · rintro ⟨h1, h2, h3⟩
    refine ⟨?_, ?_, ?_⟩
    · rw [h.metaRam _ ha, h1]
    · rw [h.metaRam _ ha, h2]
    · rw [h.lane ha, h3]

/-- A line that memory agrees with can be replaced by anything true. -/
theorem Coherent.replace (h : Coherent c cells m) {l : BitVec 8} (honly : OnlyLine c c' l)
    (hmem : ∀ a, lineOf a = l → byteAt cells a = m a)
    (hcached : ∀ a, lineOf a = l → c'.Cached a → (c'.lane a).byte = m a)
    (hdirty : (c'.metaRam l).dirty = true → (c'.metaRam l).valid = true) :
    Coherent c' cells m where
  cached := by
    intro a ha
    by_cases hl : lineOf a = l
    · exact hcached a hl ha
    · rw [honly.lane hl]
      exact h.cached a ((honly.cached_iff hl).mp ha)
  memory := by
    intro a ha
    by_cases hl : lineOf a = l
    · exact hmem a hl
    · apply h.memory a
      intro hc
      rw [← honly.metaRam _ hl]
      exact ha ((honly.cached_iff hl).mpr hc)
  dirty := by
    intro l'
    by_cases hl : l' = l
    · rw [hl]
      exact hdirty
    · rw [honly.metaRam _ hl]
      exact h.dirty l'

/-- Memory agrees with a clean line. -/
theorem Coherent.memory_of_clean (h : Coherent c cells m) {l : BitVec 8}
    (hl : (c.metaRam l).dirty = false) (a : BitVec 25) (ha : lineOf a = l) :
    byteAt cells a = m a := by
  apply h.memory a
  intro _
  rw [ha, hl]

/-- The cache contents are all that matters. -/
theorem Coherent.congr (h : Coherent c cells m) (hm : c'.metaRam = c.metaRam)
    (hd : c'.dataRam = c.dataRam) : Coherent c' cells m := by
  have hlane : ∀ a, c'.lane a = c.lane a := by
    intro a
    change c'.dataRam _ _ _ = c.dataRam _ _ _
    rw [hd]
  have hcached : ∀ a, c'.Cached a → c.Cached a := by
    rintro a ⟨h1, h2, h3⟩
    rw [hm] at h1 h2
    rw [hlane] at h3
    exact ⟨h1, h2, h3⟩
  have hcached' : ∀ a, c.Cached a → c'.Cached a := by
    rintro a ⟨h1, h2, h3⟩
    exact ⟨by rw [hm]; exact h1, by rw [hm]; exact h2, by rw [hlane]; exact h3⟩
  refine ⟨fun a ha => ?_, fun a ha => h.memory a fun hc => ?_, fun l hl => ?_⟩
  · rw [hlane]
    exact h.cached a (hcached a ha)
  · rw [← hm]
    exact ha (hcached' a hc)
  · rw [hm] at hl ⊢
    exact h.dirty l hl

/-- A masked half-word of a valid line reaches memory. -/
theorem Coherent.storeHalf (h : Coherent c cells m) {l : BitVec 8}
    (hv : (c.metaRam l).valid = true) (n : Fin 8) :
    Coherent c (Function.update cells (halfAddr (c.metaRam l).tag l n.val)
      (blend (halfWord (c.line l) n).1 (cells (halfAddr (c.metaRam l).tag l n.val))
        (halfWord (c.line l) n).2)) m where
  cached := h.cached
  memory := by
    intro a ha
    rw [byteAt_update]
    split
    · rename_i hx
      obtain ⟨⟨htag, hl, -⟩, hena⟩ := hx
      have hlane : laneIn (c.line l) a = c.lane a := by rw [lane, hl]
      rw [hlane] at hena ⊢
      exact h.cached a ⟨by rw [hl]; exact hv, by rw [hl]; exact htag.symm, hena⟩
    · exact h.memory a ha
  dirty := h.dirty

/-! ### Stores -/

/-- {lit}`c'` is {lit}`c` after a store into a line that is present. -/
structure Stored (c c' : Dcache) (op : MemOp) : Prop where
  only : OnlyLine c c' (lineOf op.addr)
  valid : (c.metaRam (lineOf op.addr)).valid = true
  tag : (c.metaRam (lineOf op.addr)).tag = tagOf op.addr
  metaRam : c'.metaRam (lineOf op.addr) = ⟨tagOf op.addr, true,
    (c.metaRam (lineOf op.addr)).dirty || op.byteena != 0#4⟩
  line : ∀ j b, c'.line (lineOf op.addr) j b =
    if j = wordOf op.addr ∧ op.byteena.getLsbD b.val = true then
      ⟨true, byteOf (dcacheWriteData op.lsOp op.data) b⟩
    else c.line (lineOf op.addr) j b

namespace Stored

variable {op : MemOp} {a : BitVec 25}

/-- The lanes of the line after a store. -/
theorem lane (h : Stored c c' op) (hl : lineOf a = lineOf op.addr) : c'.lane a =
    if wordOf a = wordOf op.addr ∧ op.byteena.getLsbD (laneOf a).val = true then
      ⟨true, byteOf (dcacheWriteData op.lsOp op.data) (laneOf a)⟩
    else c.lane a := by
  rw [Dcache.lane, laneIn, hl, h.line, Dcache.lane, laneIn, hl]

/-- The bytes of the store. -/
theorem lane_of_touches (h : Stored c c' op) (hc : op.touches a = true) :
    c'.lane a = ⟨true, op.laneByte a⟩ := by
  obtain ⟨hword, hena⟩ := (op.touches_iff a).mp hc
  obtain ⟨-, hl, hw⟩ := (sameWord_iff _ _).mp hword
  rw [h.lane hl, if_pos ⟨hw, hena⟩]
  rfl

/-- The other bytes of the line. -/
theorem lane_of_not_touches (h : Stored c c' op) (hc : op.touches a = false)
    (ht : lineOf a = lineOf op.addr → tagOf a = tagOf op.addr) : c'.lane a = c.lane a := by
  by_cases hl : lineOf a = lineOf op.addr
  · rw [h.lane hl, if_neg]
    rintro ⟨hw, hena⟩
    have := (op.touches_iff a).mpr ⟨(sameWord_iff _ _).mpr ⟨ht hl, hl, hw⟩, hena⟩
    rw [hc] at this
    cases this
  · exact h.only.lane hl

/-- The bytes of the store are cached in a dirty line. -/
theorem cached_of_touches (h : Stored c c' op) (hc : op.touches a = true) :
    c'.Cached a ∧ (c'.metaRam (lineOf a)).dirty = true := by
  obtain ⟨hword, hena⟩ := (op.touches_iff a).mp hc
  obtain ⟨ht, hl, -⟩ := (sameWord_iff _ _).mp hword
  refine ⟨⟨by rw [hl, h.metaRam], by rw [hl, h.metaRam, ht], ?_⟩, ?_⟩
  · rw [h.lane_of_touches hc]
  · have hne : op.byteena ≠ 0#4 := by
      intro h0
      rw [h0] at hena
      simp at hena
    rw [hl, h.metaRam]
    simp [hne]

/-- The store leaves the other bytes as they were. -/
theorem cached_iff (h : Stored c c' op) (hc : op.touches a = false) :
    c'.Cached a ↔ c.Cached a := by
  by_cases hl : lineOf a = lineOf op.addr
  · constructor
    · rintro ⟨-, ht, hena⟩
      rw [hl, h.metaRam] at ht
      rw [h.lane_of_not_touches hc fun _ => ht.symm] at hena
      exact ⟨by rw [hl, h.valid], by rw [hl, h.tag]; exact ht, hena⟩
    · rintro ⟨-, ht, hena⟩
      rw [hl, h.tag] at ht
      rw [← h.lane_of_not_touches hc fun _ => ht.symm] at hena
      exact ⟨by rw [hl, h.metaRam], by rw [hl, h.metaRam]; exact ht, hena⟩
  · exact h.only.cached_iff hl

/-- A store makes no line clean. -/
theorem clean (h : Stored c c' op) {l : BitVec 8} (hclean : (c'.metaRam l).dirty = false) :
    (c.metaRam l).dirty = false := by
  by_cases hl : l = lineOf op.addr
  · rw [hl, h.metaRam, Bool.or_eq_false_iff] at hclean
    rw [hl]
    exact hclean.1
  · rw [← h.only.metaRam l hl]
    exact hclean

end Stored

/-- A store into a line that is present. -/
theorem Coherent.write (h : Coherent c cells m) {op : MemOp} (hstore : op.store = true)
    (hst : Stored c c' op) : Coherent c' cells (op.write m) where
  cached := by
    intro a ha
    cases hc : op.touches a with
    | true => simp [hst.lane_of_touches hc, MemOp.write, hstore, hc]
    | false =>
        have ht : lineOf a = lineOf op.addr → tagOf a = tagOf op.addr := by
          intro hl
          have := ha.tag
          rw [hl, hst.metaRam] at this
          exact this.symm
        rw [hst.lane_of_not_touches hc ht, h.cached a ((hst.cached_iff hc).mp ha)]
        simp [MemOp.write, hc]
  memory := by
    intro a ha
    cases hc : op.touches a with
    | true =>
        -- a byte just written is cached and dirty
        obtain ⟨hcached, hdirty⟩ := hst.cached_of_touches hc
        rw [ha hcached] at hdirty
        cases hdirty
    | false =>
        have hmem := h.memory a fun hcached =>
          hst.clean (ha ((hst.cached_iff hc).mpr hcached))
        rw [hmem]
        simp [MemOp.write, hc]
  dirty := by
    intro l hd
    by_cases hl : l = lineOf op.addr
    · rw [hl, hst.metaRam]
    · rw [hst.only.metaRam l hl] at hd ⊢
      exact h.dirty l hd

end Dcache

end Sumeru
