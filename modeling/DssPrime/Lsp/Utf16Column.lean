import DssPrime.Codec.Ruler

/-!
# Editor columns

The language server speaks of UTF-16 columns and the parser of UTF-8 byte offsets inside one line.
Both conversions step through the line lead byte by lead byte; the bytes and the UTF-16 units of
one step are a piece of a `Ruler`.  The length of a step is what its lead byte announces, so the
last step can leave the line: `Uncut` says that it does not.
-/

namespace DssPrime

namespace Utf16Column

open Ruler

/-- The text of one line.  A source buffer refuses more bytes than 32 bits can count. -/
structure LineText where
  text : List UInt8
  size_lt : text.length < 2 ^ 32

/-- The length a lead byte announces; 0 for a continuation or invalid byte. -/
def utf8SequenceLength (lead : UInt8) : ℕ :=
  if lead &&& 0x80 = 0x00 then 1
  else if lead &&& 0xE0 = 0xC0 then 2
  else if lead &&& 0xF0 = 0xE0 then 3
  else if lead &&& 0xF8 = 0xF0 then 4
  else 0

def toColumnLoop (clamped : ℕ) (text : List UInt8) (i : ℕ) (utf16Count : UInt32) : UInt32 :=
  match text with
  | [] => utf16Count
  | lead :: rest =>
    if i < clamped then
      let seqLen := utf8SequenceLength lead
      if seqLen = 0 then toColumnLoop clamped rest (i + 1) (utf16Count + 1)
      else
        toColumnLoop clamped (rest.drop (seqLen - 1)) (i + seqLen)
          (utf16Count + if seqLen = 4 then 2 else 1)
    else utf16Count
termination_by text.length
decreasing_by all_goals simp

def utf8ByteOffsetToUtf16Column (line : LineText) (byteOffsetInLine : UInt32) : UInt32 :=
  toColumnLoop (min byteOffsetInLine.toNat line.text.length) line.text 0 0

def toOffsetLoop (utf16Col : UInt32) (text : List UInt8) (i : ℕ) (utf16Seen : UInt32) : ℕ :=
  match text with
  | [] => i
  | lead :: rest =>
    if utf16Col ≤ utf16Seen then i
    else
      let seqLen := utf8SequenceLength lead
      if seqLen = 0 then toOffsetLoop utf16Col rest (i + 1) (utf16Seen + 1)
      else
        let units : UInt32 := if seqLen = 4 then 2 else 1
        -- a column between the two halves of a surrogate pair rounds down
        if utf16Col < utf16Seen + units then i
        else toOffsetLoop utf16Col (rest.drop (seqLen - 1)) (i + seqLen) (utf16Seen + units)
termination_by text.length
decreasing_by all_goals simp

def utf16ColumnToByteOffset (line : LineText) (utf16Col : UInt32) : UInt32 :=
  UInt32.ofNat (toOffsetLoop utf16Col line.text 0 0)

def utf8 (cs : List Char) : List UInt8 := cs.flatMap String.utf8EncodeChar

def utf16Units (c : Char) : ℕ := if c.val.toNat < 0x10000 then 1 else 2

def utf16Length (cs : List Char) : ℕ := (cs.map utf16Units).sum

/-- Columns and offsets go back and forth. -/
structure RoundTrips (line : LineText) : Prop where
  boundary : ∀ before after, line.text = utf8 (before ++ after) →
    (utf16ColumnToByteOffset line (utf8ByteOffsetToUtf16Column line
      (UInt32.ofNat (utf8 before).length))).toNat = (utf8 before).length
  inside : ∀ col, (utf16ColumnToByteOffset line col).toNat ≤ line.text.length
  column_mono : ∀ a b, a ≤ b →
    utf8ByteOffsetToUtf16Column line a ≤ utf8ByteOffsetToUtf16Column line b
  offset_mono : ∀ a b, a ≤ b → utf16ColumnToByteOffset line a ≤ utf16ColumnToByteOffset line b
  midpoint : ∀ before c after, line.text = utf8 (before ++ c :: after) → utf16Units c = 2 →
    (utf16ColumnToByteOffset line (UInt32.ofNat (utf16Length before + 1))).toNat =
      (utf8 before).length
  atEnd : ∀ col, utf8ByteOffsetToUtf16Column line (UInt32.ofNat line.text.length) ≤ col →
    (utf16ColumnToByteOffset line col).toNat = line.text.length

/-- No lead byte the walk meets announces more bytes than the line still has. -/
def Uncut (text : List UInt8) : Prop :=
  match text with
  | [] => True
  | lead :: rest =>
    utf8SequenceLength lead - 1 ≤ rest.length ∧ Uncut (rest.drop (utf8SequenceLength lead - 1))
termination_by text.length
decreasing_by simp

def piece (lead : UInt8) : Piece where
  near := if utf8SequenceLength lead = 0 then 1 else utf8SequenceLength lead
  far := if utf8SequenceLength lead = 4 then 2 else 1
  near_pos := by split_ifs <;> omega
  far_pos := by split_ifs <;> omega

def pieces (text : List UInt8) : List Piece :=
  match text with
  | [] => []
  | lead :: rest => piece lead :: pieces (rest.drop (utf8SequenceLength lead - 1))
termination_by text.length
decreasing_by simp

@[simp] theorem pieces_nil : pieces [] = [] := by rw [pieces]

theorem pieces_cons (lead : UInt8) (rest : List UInt8) :
    pieces (lead :: rest) =
      piece lead :: pieces (rest.drop (utf8SequenceLength lead - 1)) := by rw [pieces]

theorem piece_far_le (lead : UInt8) : (piece lead).far ≤ (piece lead).near := by
  simp only [piece]
  split_ifs <;> omega

theorem utf8SequenceLength_le (lead : UInt8) : utf8SequenceLength lead ≤ 4 := by
  unfold utf8SequenceLength
  split_ifs <;> omega

theorem piece_near_sub (lead : UInt8) :
    (piece lead).near - 1 = utf8SequenceLength lead - 1 := by
  simp only [piece]
  split_ifs <;> omega

theorem length_le_nearSum (text : List UInt8) : text.length ≤ nearSum (pieces text) := by
  induction text using pieces.induct with
  | case1 => simp
  | case2 lead rest ih =>
    have hpos := (piece lead).near_pos
    have hsub := piece_near_sub lead
    rw [List.length_drop] at ih
    rw [pieces_cons, nearSum_cons, List.length_cons]
    omega

theorem nearSum_le (text : List UInt8) : nearSum (pieces text) ≤ text.length + 3 := by
  induction text using pieces.induct with
  | case1 => simp
  | case2 lead rest ih =>
    have hsub := piece_near_sub lead
    have hlen := utf8SequenceLength_le lead
    rw [List.length_drop] at ih
    rw [pieces_cons, nearSum_cons, List.length_cons]
    by_cases hcut : utf8SequenceLength lead - 1 ≤ rest.length
    · omega
    · rw [List.drop_of_length_le (by omega), pieces_nil, nearSum_nil]
      omega

theorem farSum_le (text : List UInt8) : farSum (pieces text) ≤ text.length + 1 := by
  induction text using pieces.induct with
  | case1 => simp
  | case2 lead rest ih =>
    have hsub := piece_near_sub lead
    have hfar := piece_far_le lead
    have htwo : (piece lead).far ≤ 2 := by simp only [piece]; split_ifs <;> omega
    rw [List.length_drop] at ih
    rw [pieces_cons, farSum_cons, List.length_cons]
    by_cases hcut : utf8SequenceLength lead - 1 ≤ rest.length
    · omega
    · rw [List.drop_of_length_le (by omega), pieces_nil, farSum_nil]
      omega

theorem farSum_le_nearSum (text : List UInt8) : farSum (pieces text) ≤ nearSum (pieces text) := by
  induction text using pieces.induct with
  | case1 => simp
  | case2 lead rest ih =>
    have := piece_far_le lead
    rw [pieces_cons, farSum_cons, nearSum_cons]
    omega

theorem up_length (text : List UInt8) :
    up (pieces text) text.length = farSum (pieces text) := by
  induction text using pieces.induct with
  | case1 => simp
  | case2 lead rest ih =>
    have hpos := (piece lead).near_pos
    have hsub := piece_near_sub lead
    have hdrop : (lead :: rest).length - (piece lead).near =
        (rest.drop (utf8SequenceLength lead - 1)).length := by
      rw [List.length_drop, List.length_cons]
      omega
    rw [pieces_cons, up, if_neg (by simp), hdrop, ih, farSum_cons]

theorem uncut_iff (text : List UInt8) : Uncut text ↔ nearSum (pieces text) = text.length := by
  induction text using pieces.induct with
  | case1 => simp [Uncut]
  | case2 lead rest ih =>
    have hpos := (piece lead).near_pos
    have hsub := piece_near_sub lead
    have hcover := length_le_nearSum (rest.drop (utf8SequenceLength lead - 1))
    rw [Uncut, ih, pieces_cons, nearSum_cons, List.length_cons]
    rw [List.length_drop] at hcover ⊢
    omega

theorem toColumnLoop_toNat (clamped : ℕ) (text : List UInt8) (i : ℕ) (utf16Count : UInt32) :
    (toColumnLoop clamped text i utf16Count).toNat =
      (utf16Count.toNat + up (pieces text) (clamped - i)) % 2 ^ 32 := by
  fun_induction toColumnLoop clamped text i utf16Count with
  | case1 i count => simp [up, Nat.mod_eq_of_lt count.toNat_lt]
  | case2 i count lead rest hi seqLen hzero ih =>
    have hpiece : (piece lead).near = 1 ∧ (piece lead).far = 1 := by
      simp only [piece, show utf8SequenceLength lead = 0 from hzero]
      simp
    rw [ih, pieces_cons, up, if_neg (by omega), hpiece.1, hpiece.2,
      show utf8SequenceLength lead = 0 from hzero, UInt32.toNat_add]
    simp [Nat.add_assoc, Nat.sub_sub]
  | case3 i count lead rest hi seqLen hzero ih =>
    have hnear : (piece lead).near = seqLen := by
      simp only [piece]
      exact if_neg hzero
    have hfar : (piece lead).far = (if seqLen = 4 then (2 : UInt32) else 1).toNat := by
      simp only [piece, seqLen]
      split_ifs <;> rfl
    simp only [dite_eq_ite] at ih
    rw [ih, pieces_cons, up, if_neg (show ¬ clamped - i = 0 by omega), hnear, hfar,
      UInt32.toNat_add, Nat.mod_add_mod, Nat.add_assoc, Nat.sub_sub]
  | case4 i count lead rest hi =>
    rw [show clamped - i = 0 by omega, up_zero, Nat.add_zero, Nat.mod_eq_of_lt count.toNat_lt]

theorem toOffsetLoop_eq (utf16Col : UInt32) (text : List UInt8) (i : ℕ) (utf16Seen : UInt32)
    (hfit : utf16Seen.toNat + farSum (pieces text) < 2 ^ 32) :
    toOffsetLoop utf16Col text i utf16Seen =
      i + down (pieces text) (utf16Col.toNat - utf16Seen.toNat) := by
  fun_induction toOffsetLoop utf16Col text i utf16Seen with
  | case1 i seen => simp [down]
  | case2 i seen lead rest hstop =>
    rw [UInt32.le_iff_toNat_le] at hstop
    rw [show utf16Col.toNat - seen.toNat = 0 by omega, down_zero, Nat.add_zero]
  | case3 i seen lead rest hgo seqLen hzero ih =>
    have hpiece : (piece lead).near = 1 ∧ (piece lead).far = 1 := by
      simp only [piece, show utf8SequenceLength lead = 0 from hzero]
      simp
    rw [UInt32.le_iff_toNat_le] at hgo
    rw [pieces_cons, farSum_cons, hpiece.2, show utf8SequenceLength lead = 0 from hzero] at hfit
    simp only [Nat.zero_sub, List.drop_zero] at hfit
    have hsum : (seen + 1).toNat = seen.toNat + 1 := by
      rw [UInt32.toNat_add]
      exact Nat.mod_eq_of_lt (by simp; omega)
    rw [ih (by omega), hsum, pieces_cons, down, hpiece.1, hpiece.2, if_neg (by omega),
      show utf8SequenceLength lead = 0 from hzero]
    simp [Nat.add_assoc, Nat.sub_sub]
  | case4 i seen lead rest hgo seqLen hzero units hpast =>
    have hfar : (piece lead).far = units.toNat := by
      simp only [piece, units, seqLen]
      split_ifs <;> rfl
    rw [pieces_cons, farSum_cons, hfar] at hfit
    rw [UInt32.lt_iff_toNat_lt, UInt32.toNat_add, Nat.mod_eq_of_lt (by omega)] at hpast
    rw [UInt32.le_iff_toNat_le] at hgo
    rw [pieces_cons, down, hfar, if_pos (show utf16Col.toNat - seen.toNat < units.toNat by omega),
      Nat.add_zero]
  | case5 i seen lead rest hgo seqLen hzero units hpast ih =>
    have hnear : (piece lead).near = seqLen := by
      simp only [piece]
      exact if_neg hzero
    have hfar : (piece lead).far = units.toNat := by
      simp only [piece, units, seqLen]
      split_ifs <;> rfl
    rw [pieces_cons, farSum_cons, hfar] at hfit
    have hsum : (seen + units).toNat = seen.toNat + units.toNat := by
      rw [UInt32.toNat_add]
      exact Nat.mod_eq_of_lt (by omega)
    rw [UInt32.lt_iff_toNat_lt, hsum] at hpast
    rw [ih (by rw [hsum]; simp only [seqLen]; omega), hsum, pieces_cons, down, hnear, hfar,
      if_neg (show ¬ utf16Col.toNat - seen.toNat < units.toNat by omega), Nat.add_assoc,
      Nat.sub_sub]

theorem utf8ByteOffsetToUtf16Column_toNat (line : LineText) (offset : UInt32) :
    (utf8ByteOffsetToUtf16Column line offset).toNat =
      up (pieces line.text) (min offset.toNat line.text.length) % 2 ^ 32 := by
  rw [utf8ByteOffsetToUtf16Column, toColumnLoop_toNat]
  simp

theorem utf16ColumnToByteOffset_toNat (line : LineText) (col : UInt32)
    (hfit : farSum (pieces line.text) < 2 ^ 32) :
    (utf16ColumnToByteOffset line col).toNat = down (pieces line.text) col.toNat % 2 ^ 32 := by
  rw [utf16ColumnToByteOffset, toOffsetLoop_eq _ _ _ _ (by simpa using hfit)]
  simp

def charPiece (c : Char) : Piece where
  near := (String.utf8EncodeChar c).length
  far := utf16Units c
  near_pos := List.length_pos_of_ne_nil String.utf8EncodeChar_ne_nil
  far_pos := by unfold utf16Units; split_ifs <;> omega

theorem utf8SequenceLength_one : ∀ v ≤ 0x7f, utf8SequenceLength (UInt8.ofNat v) = 1 := by decide

theorem utf8SequenceLength_two :
    ∀ v < 0x20, utf8SequenceLength (UInt8.ofNat (v + 0xc0)) = 2 := by decide

theorem utf8SequenceLength_three :
    ∀ v < 0x10, utf8SequenceLength (UInt8.ofNat (v + 0xe0)) = 3 := by decide

theorem utf8SequenceLength_four :
    ∀ v < 0x08, utf8SequenceLength (UInt8.ofNat (v + 0xf0)) = 4 := by decide

theorem pieces_encode (c : Char) (rest : List UInt8) :
    pieces (String.utf8EncodeChar c ++ rest) = charPiece c :: pieces rest := by
  have hstep : ∀ lead tail, String.utf8EncodeChar c = lead :: tail →
      utf8SequenceLength lead = tail.length + 1 →
      utf16Units c = (if utf8SequenceLength lead = 4 then 2 else 1) →
      pieces (String.utf8EncodeChar c ++ rest) = charPiece c :: pieces rest := by
    intro lead tail henc hlen hunits
    have hpiece : piece lead = charPiece c := by
      simp only [piece, charPiece, Piece.mk.injEq, henc, List.length_cons]
      exact ⟨by rw [if_neg (by omega), hlen], hunits.symm⟩
    rw [henc, List.cons_append, pieces_cons, hpiece, hlen]
    simp
  by_cases h1 : c.val.toNat ≤ 0x7f
  · refine hstep (UInt8.ofNat c.val.toNat) []
      (by simp only [String.utf8EncodeChar, h1, if_true]) ?_ ?_
    · rw [utf8SequenceLength_one _ h1]; rfl
    · rw [utf8SequenceLength_one _ h1, utf16Units, if_pos (by omega)]; rfl
  by_cases h2 : c.val.toNat ≤ 0x7ff
  · refine hstep _ _ (by simp only [String.utf8EncodeChar, h1, h2, if_true, if_false]; rfl) ?_ ?_
    · rw [utf8SequenceLength_two _ (Nat.mod_lt _ (by omega))]; rfl
    · rw [utf8SequenceLength_two _ (Nat.mod_lt _ (by omega)), utf16Units, if_pos (by omega)]; rfl
  by_cases h3 : c.val.toNat ≤ 0xffff
  · refine hstep _ _
      (by simp only [String.utf8EncodeChar, h1, h2, h3, if_true, if_false]; rfl) ?_ ?_
    · rw [utf8SequenceLength_three _ (Nat.mod_lt _ (by omega))]; rfl
    · rw [utf8SequenceLength_three _ (Nat.mod_lt _ (by omega)), utf16Units, if_pos (by omega)]; rfl
  · refine hstep _ _ (by simp only [String.utf8EncodeChar, h1, h2, h3, if_false]; rfl) ?_ ?_
    · rw [utf8SequenceLength_four _ (Nat.mod_lt _ (by omega))]; rfl
    · rw [utf8SequenceLength_four _ (Nat.mod_lt _ (by omega)), utf16Units, if_neg (by omega)]; rfl

theorem pieces_utf8 (cs : List Char) : pieces (utf8 cs) = cs.map charPiece := by
  induction cs with
  | nil => simp [utf8]
  | cons c cs ih =>
    rw [utf8, List.flatMap_cons, pieces_encode, List.map_cons, ← ih, utf8]

theorem nearSum_chars (cs : List Char) : nearSum (cs.map charPiece) = (utf8 cs).length := by
  induction cs with
  | nil => rfl
  | cons c cs ih =>
    rw [List.map_cons, nearSum_cons, ih, utf8, utf8, List.flatMap_cons, List.length_append]
    rfl

theorem farSum_chars (cs : List Char) : farSum (cs.map charPiece) = utf16Length cs := by
  induction cs with
  | nil => rfl
  | cons c cs ih => simp [utf16Length, charPiece, ih]

theorem roundTrips_of_uncut (line : LineText) (hcut : Uncut line.text) : RoundTrips line := by
  have hnear := (uncut_iff line.text).1 hcut
  have hlt := line.size_lt
  have hfit : farSum (pieces line.text) < 2 ^ 32 := by
    have := farSum_le_nearSum line.text
    omega
  have hcol : ∀ offset, (utf8ByteOffsetToUtf16Column line offset).toNat =
      up (pieces line.text) (min offset.toNat line.text.length) := by
    intro offset
    have := up_le (pieces line.text) (min offset.toNat line.text.length)
    rw [utf8ByteOffsetToUtf16Column_toNat, Nat.mod_eq_of_lt (by omega)]
  have hoff : ∀ col, (utf16ColumnToByteOffset line col).toNat =
      down (pieces line.text) col.toNat := by
    intro col
    have := down_le (pieces line.text) col.toNat
    rw [utf16ColumnToByteOffset_toNat _ _ hfit, Nat.mod_eq_of_lt (by omega)]
  have hsplit : ∀ before after, line.text = utf8 (before ++ after) →
      pieces line.text = before.map charPiece ++ after.map charPiece := by
    intro before after htext
    rw [htext, pieces_utf8, List.map_append]
  refine ⟨?_, ?_, ?_, ?_, ?_, ?_⟩
  · intro before after htext
    have hle : (utf8 before).length ≤ line.text.length := by
      rw [htext, utf8, utf8, List.flatMap_append, List.length_append]
      omega
    rw [hoff, hcol, UInt32.toNat_ofNat', Nat.mod_eq_of_lt (by omega), Nat.min_eq_left hle,
      hsplit before after htext, ← nearSum_chars, down_up]
  · intro col
    have := down_le (pieces line.text) col.toNat
    rw [hoff]
    omega
  · intro a b hab
    rw [UInt32.le_iff_toNat_le] at hab ⊢
    rw [hcol, hcol]
    exact up_mono _ (by omega)
  · intro a b hab
    rw [UInt32.le_iff_toNat_le] at hab ⊢
    rw [hoff, hoff]
    exact down_mono _ hab
  · intro before c after htext htwo
    have hfar : utf16Length before + 2 ≤ farSum (pieces line.text) := by
      rw [hsplit before (c :: after) htext, ← farSum_chars]
      simp [farSum, charPiece, htwo]
    rw [hoff, UInt32.toNat_ofNat', Nat.mod_eq_of_lt (by omega), hsplit before (c :: after) htext,
      ← farSum_chars, down_append, List.map_cons, down,
      if_pos (show 1 < (charPiece c).far by simp [charPiece, htwo]), Nat.add_zero, nearSum_chars]
  · intro col hcolumn
    rw [UInt32.le_iff_toNat_le, hcol, UInt32.toNat_ofNat', Nat.mod_eq_of_lt hlt, Nat.min_self,
      up_length] at hcolumn
    rw [hoff, down_all _ hcolumn, hnear]

theorem uncut_of_roundTrips (line : LineText) (h : RoundTrips line) : Uncut line.text := by
  have hlt := line.size_lt
  have hcover := length_le_nearSum line.text
  have hnear := nearSum_le line.text
  have hunits := farSum_le line.text
  have hend : (utf8ByteOffsetToUtf16Column line (UInt32.ofNat line.text.length)).toNat =
      farSum (pieces line.text) % 2 ^ 32 := by
    rw [utf8ByteOffsetToUtf16Column_toNat, UInt32.toNat_ofNat', Nat.mod_eq_of_lt hlt, Nat.min_self,
      up_length]
  rw [uncut_iff]
  by_cases hfit : farSum (pieces line.text) < 2 ^ 32
  · -- the column of the line's end gives all pieces, the cut one included
    have hback := h.atEnd _ (UInt32.le_refl _)
    rw [utf16ColumnToByteOffset_toNat _ _ hfit, hend, Nat.mod_eq_of_lt hfit,
      down_all _ le_rfl] at hback
    omega
  · -- the column of the line's end wraps to 0
    have hzero : farSum (pieces line.text) % 2 ^ 32 = 0 := by omega
    have hback := h.atEnd 0 (by rw [UInt32.le_iff_toNat_le, hend, hzero]; simp)
    have hstart : (utf16ColumnToByteOffset line 0).toNat = 0 := by
      have hloop : toOffsetLoop 0 line.text 0 0 = 0 := by
        unfold toOffsetLoop
        split <;> simp
      simp [utf16ColumnToByteOffset, hloop]
    omega

/-- The conversions are inverse, monotone and inside the line exactly on the lines the walk does
not leave. -/
theorem roundTrips_iff_uncut (line : LineText) : RoundTrips line ↔ Uncut line.text :=
  ⟨uncut_of_roundTrips line, roundTrips_of_uncut line⟩

/-- The first byte of a three-byte sequence alone on its line: column 1 is byte 3. -/
theorem not_roundTrips_of_cut : ¬ ∀ line, RoundTrips line := by
  intro h
  have hinside := (h ⟨[0xE2], by decide⟩).inside 1
  have hlead : utf8SequenceLength 0xE2 = 3 := by decide
  revert hinside
  simp [utf16ColumnToByteOffset, toOffsetLoop, hlead]

end Utf16Column

end DssPrime
