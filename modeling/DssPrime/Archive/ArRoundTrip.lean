import DssPrime.Archive.ArReader
import DssPrime.Run.Outcome

/-!
# A written archive reads back

The reader is run on what the writer writes, member by member: `scan_emitMember` is one turn of the
walk over one member, whatever comes before and after it, and the rest is what each kind of member
leaves behind.
-/

namespace DssPrime.Ar

theorem isDigit_digit {c : Char} (h : c.isDigit) : isDigit (UInt8.ofNat c.toNat) = true := by
  have hb : 48 ≤ c.toNat ∧ c.toNat ≤ 57 := by
    simpa [Char.isDigit, UInt32.le_iff_toNat_le] using h
  have hn : (UInt8.ofNat c.toNat).toNat = c.toNat := by
    rw [UInt8.toNat_ofNat']
    omega
  simp only [isDigit, Bool.and_eq_true, decide_eq_true_eq, UInt8.le_iff_toNat_le, hn]
  exact hb

theorem isDigit_of_mem_decimal {n : ℕ} {c : UInt8} (h : c ∈ decimal n) : isDigit c = true := by
  obtain ⟨d, hd, rfl⟩ := List.mem_map.mp h
  exact isDigit_digit (Nat.isDigit_of_mem_toDigits (by decide) (by decide) hd)

theorem decimal_ne_nil (n : ℕ) : decimal n ≠ [] := by
  simp [decimal, Nat.toDigits_ne_nil]

theorem length_decimal_le {n k : ℕ} (hk : 0 < k) (h : n < 10 ^ k) : (decimal n).length ≤ k := by
  rw [decimal, List.length_map]
  exact (Nat.length_toDigits_le_iff (by decide) hk).mpr h

theorem foldlM_digits {l : List Char} {a n : ℕ} (hl : ∀ c ∈ l, c.isDigit = true)
    (hn : Nat.ofDigitChars 10 l a = n) (hlt : n < 2 ^ 64) :
    (l.map fun c => UInt8.ofNat c.toNat).foldlM (fun v c =>
      let d := c.toNat - 0x30
      if v > (2 ^ 64 - 1 - d) / 10 then none else some (v * 10 + d)) a = some n := by
  induction l generalizing a with
  | nil =>
    rw [Nat.ofDigitChars_nil] at hn
    simp [hn]
  | cons c cs ih =>
    rw [Nat.ofDigitChars_cons] at hn
    have hc : 48 ≤ c.toNat ∧ c.toNat ≤ 57 := by
      simpa [Char.isDigit, UInt32.le_iff_toNat_le] using hl c List.mem_cons_self
    have hb : (UInt8.ofNat c.toNat).toNat = c.toNat := by
      rw [UInt8.toNat_ofNat']
      omega
    have h0 : '0'.toNat = 48 := rfl
    rw [h0] at hn
    have hge : 10 * a + (c.toNat - 48) ≤ n := by
      rw [← hn, Nat.ofDigitChars_eq_ofDigitChars_zero]
      have : 1 ≤ 10 ^ cs.length := Nat.one_le_pow _ _ (by decide)
      nlinarith
    rw [List.map_cons, List.foldlM_cons]
    simp only [hb]
    rw [if_neg (by omega), Option.bind_eq_bind, Option.bind_some]
    exact ih (fun d hd => hl d (List.mem_cons_of_mem _ hd)) (by rw [← hn]; congr 1; omega)

theorem decimalValue_decimal {n : ℕ} (h : n < 2 ^ 64) : decimalValue (decimal n) = some n :=
  foldlM_digits (fun _ hc => Nat.isDigit_of_mem_toDigits (by decide) (by decide) hc)
    Nat.ofDigitChars_ten_toDigits h

theorem allDigits_decimal (n : ℕ) : allDigits (decimal n) = true := by
  rw [allDigits, Bool.and_eq_true]
  exact ⟨by simpa using decimal_ne_nil n, List.all_eq_true.mpr fun c => isDigit_of_mem_decimal⟩

theorem isPad_eq_false {c : UInt8} (h : isDigit c = true) : isPad c = false := by
  rw [isPad, Bool.or_eq_false_iff, beq_eq_false_iff_ne, beq_eq_false_iff_ne]
  constructor
  · rintro rfl
    revert h
    decide
  · rintro rfl
    revert h
    decide

theorem length_field {s : List UInt8} {w : ℕ} (h : s.length ≤ w) : (field s w).length = w := by
  rw [field, List.length_append, List.length_replicate]
  omega

theorem isDigit_space : isDigit space = false := by decide

theorem takeWhile_digits {l : List UInt8} (hl : ∀ c ∈ l, isDigit c = true) (k : ℕ) :
    (l ++ List.replicate k space).takeWhile isDigit = l ∧
      (l ++ List.replicate k space).dropWhile isDigit = List.replicate k space := by
  rw [List.takeWhile_append_of_pos hl, List.dropWhile_append_of_pos hl]
  cases k with
  | zero => simp
  | succ k => simp [List.replicate_succ, isDigit_space]

theorem parseAsciiDecimalField_field {n w : ℕ} (h : n < 2 ^ 64) :
    parseAsciiDecimalField (field (decimal n) w) = some n := by
  have hdrop : (field (decimal n) w).dropWhile (· == space) = field (decimal n) w := by
    obtain ⟨c, cs, hcs⟩ := List.exists_cons_of_ne_nil (decimal_ne_nil n)
    have hc : isDigit c = true :=
      isDigit_of_mem_decimal (n := n) (by rw [hcs]; exact List.mem_cons_self)
    have hne : (c == space) = false := by
      rw [beq_eq_false_iff_ne]
      rintro rfl
      rw [isDigit_space] at hc
      cases hc
    rw [field, hcs, List.cons_append, List.dropWhile_cons_of_neg (by simp [hne])]
  obtain ⟨htake, hrest⟩ := takeWhile_digits (fun c hc => isDigit_of_mem_decimal (n := n) hc)
    (w - (decimal n).length)
  simp only [parseAsciiDecimalField, hdrop]
  rw [field, htake, hrest, decimalValue_decimal h]
  simp [decimal_ne_nil n, isPad]

theorem rstripNameField_field {s : List UInt8} {w : ℕ} (hs : s ≠ [])
    (hlast : isPad (s.getLast hs) = false) : rstripNameField (field s w) = s := by
  rw [rstripNameField, field]
  generalize w - s.length = k
  induction k with
  | zero =>
    rw [List.replicate_zero, List.append_nil, List.rdropWhile_eq_self_iff]
    intro hne
    simpa using hlast
  | succ k ih =>
    rw [List.replicate_succ', ← List.append_assoc,
      List.rdropWhile_concat_pos _ _ _ (by decide), ih]

theorem slice_append {bytes pre mid rest : List UInt8} {off n : ℕ}
    (h : bytes = pre ++ (mid ++ rest)) (hoff : pre.length = off) (hn : mid.length = n) :
    (bytes.drop off).take n = mid := by
  rw [h, ← hoff, ← hn, List.drop_left, List.take_left]

/-- A header field can be written: its texts are no longer than their columns. -/
structure Fits (nf mode payload : List UInt8) : Prop where
  name_le : nf.length ≤ 16
  mode_le : mode.length ≤ 8
  size_le : payload.length ≤ maxFieldSize

variable {nf mode payload pre rest bytes : List UInt8}

theorem Fits.decimal_le (h : Fits nf mode payload) : (decimal payload.length).length ≤ 10 := by
  have := h.size_le
  unfold maxFieldSize at this
  exact length_decimal_le (by decide) (by omega)

theorem length_header (h : Fits nf mode payload) : (header nf mode payload.length).length = 60 := by
  have h0 : ∀ w, 1 ≤ w → (field (decimal 0) w).length = w := fun w hw => length_field hw
  simp only [header, List.length_append, length_field h.name_le, length_field h.mode_le,
    length_field h.decimal_le, h0 12 (by decide), h0 6 (by decide)]
  rfl

theorem length_emitMember (h : Fits nf mode payload) :
    (emitMember nf mode payload).length = 60 + payload.length + payload.length % 2 := by
  rw [emitMember, List.length_append, List.length_append, length_header h]
  split_ifs with hodd
  · simp only [List.length_singleton]
    omega
  · simp only [List.length_nil]
    omega

theorem header_fields (h : Fits nf mode payload)
    (hbytes : bytes = pre ++ emitMember nf mode payload ++ rest) :
    (bytes.drop pre.length).take 16 = field nf 16 ∧
      (bytes.drop (pre.length + 48)).take 10 = field (decimal payload.length) 10 ∧
      bytes.getD (pre.length + 58) 0 = 0x60 ∧ bytes.getD (pre.length + 59) 0 = newline ∧
      (bytes.drop (pre.length + 60)).take payload.length = payload := by
  have hmid : (field nf 16 ++ field (decimal 0) 12 ++ field (decimal 0) 6 ++ field (decimal 0) 6 ++
      field mode 8).length = 48 := by
    have h0 : ∀ w, 1 ≤ w → (field (decimal 0) w).length = w := fun w hw => length_field hw
    simp only [List.length_append, length_field h.name_le, length_field h.mode_le,
      h0 12 (by decide), h0 6 (by decide)]
  have hten := length_field h.decimal_le
  set columns :=
    field nf 16 ++ field (decimal 0) 12 ++ field (decimal 0) 6 ++ field (decimal 0) 6 ++
      field mode 8 with hcolumns
  set tail := payload ++ (if payload.length % 2 = 1 then [newline] else []) ++ rest with htail
  have hsplit : bytes = (pre ++ columns) ++ (field (decimal payload.length) 10 ++
      ([0x60, newline] ++ tail)) := by
    rw [hbytes, emitMember, header, htail, hcolumns]
    simp only [List.append_assoc]
  have hlen : (pre ++ columns).length = pre.length + 48 := by rw [List.length_append, hmid]
  refine ⟨?_, ?_, ?_, ?_, ?_⟩
  · have hname : bytes = pre ++ (field nf 16 ++ (field (decimal 0) 12 ++ (field (decimal 0) 6 ++
        (field (decimal 0) 6 ++ (field mode 8 ++ (field (decimal payload.length) 10 ++
          ([0x60, newline] ++ tail))))))) := by
      rw [hsplit, hcolumns]
      simp only [List.append_assoc]
    exact slice_append hname rfl (length_field h.name_le)
  · exact slice_append hsplit hlen hten
  · have h58 : (pre ++ columns ++ field (decimal payload.length) 10).length = pre.length + 58 := by
      rw [List.length_append, hlen, hten]
    rw [hsplit, ← List.append_assoc, ← h58, List.getD_append_right _ _ _ _ le_rfl, Nat.sub_self]
    rfl
  · have h58 : (pre ++ columns ++ field (decimal payload.length) 10).length = pre.length + 58 := by
      rw [List.length_append, hlen, hten]
    rw [hsplit, ← List.append_assoc, show pre.length + 59 = (pre ++ columns ++
      field (decimal payload.length) 10).length + 1 by omega,
      List.getD_append_right _ _ _ _ (Nat.le_succ _), Nat.succ_sub (le_refl _), Nat.sub_self]
    rfl
  · have h60 : (pre ++ columns ++ field (decimal payload.length) 10 ++ [0x60, newline]).length =
        pre.length + 60 := by
      simp only [List.length_append, hten, List.length_cons, List.length_nil]
      rw [List.length_append] at hlen
      omega
    have hsplit' : bytes =
      (pre ++ columns ++ field (decimal payload.length) 10 ++ [0x60, newline]) ++
        (payload ++ ((if payload.length % 2 = 1 then [newline] else []) ++ rest)) := by
      rw [hsplit, htail]
      simp only [List.append_assoc]
    exact slice_append hsplit' h60 rfl

/-- A name field as the writer spells it: it does not end in padding and is no inline name. -/
structure Spelled (nf : List UInt8) : Prop where
  ne_nil : nf ≠ []
  last : isPad (nf.getLast ne_nil) = false
  not_inline : ¬ (nf.length > 3 ∧ bsdInline.isPrefixOf nf ∧ allDigits (nf.drop 3))

def rawOf (nf payload : List UInt8) (off : ℕ) : RawMember :=
  { name := nf, nameIsFinal := false, headerOffset := off, dataOffset := off + headerSize,
    size := payload.length }

theorem scanStep_emitMember (h : Fits nf mode payload) (hs : Spelled nf) (st : Scan)
    (hbytes : bytes = pre ++ emitMember nf mode payload ++ rest) :
    scanStep bytes pre.length st = st.record bytes (rawOf nf payload pre.length) >>= fun st =>
      Except.ok (st, (pre ++ emitMember nf mode payload).length) := by
  obtain ⟨hname, hsize, h58, h59, -⟩ := header_fields h hbytes
  have hlen : bytes.length = pre.length + (60 + payload.length + payload.length % 2) +
      rest.length := by
    rw [hbytes, List.length_append, List.length_append, length_emitMember h]
  have hsmall : payload.length < 2 ^ 64 := lt_of_le_of_lt h.size_le (by decide)
  have hnext : nextHeaderOffset pre.length payload.length =
      (pre ++ emitMember nf mode payload).length := by
    rw [nextHeaderOffset, headerSize, List.length_append, length_emitMember h]
    omega
  rw [scanStep, if_neg (by unfold headerSize; omega),
    if_neg (not_or.mpr ⟨not_not.mpr h58, not_not.mpr h59⟩), hsize,
    parseAsciiDecimalField_field hsmall]
  simp only
  rw [if_neg (by unfold headerSize; omega), hname, rstripNameField_field hs.ne_nil hs.last,
    inlineName, if_neg hs.not_inline, hnext]
  rfl

theorem scan_emitMember (h : Fits nf mode payload) (hs : Spelled nf) (st : Scan)
    (hbytes : bytes = pre ++ emitMember nf mode payload ++ rest) (fuel : ℕ) :
    scan bytes (fuel + 1) pre.length st =
      st.record bytes (rawOf nf payload pre.length) >>= fun st =>
        scan bytes fuel (pre ++ emitMember nf mode payload).length st := by
  have hlt : pre.length < bytes.length := by
    rw [hbytes, List.length_append, List.length_append, length_emitMember h]
    omega
  rw [scan, if_pos hlt, scanStep_emitMember h hs st hbytes]
  cases st.record bytes (rawOf nf payload pre.length) <;> rfl

section Names

variable {name : List UInt8}

theorem mem_of_append_eq {a : List UInt8} {c : UInt8} (h : a ++ [slash] = name ++ [slash])
    (hc : c ∈ a) : c ∈ name := by
  rwa [List.append_cancel_right h] at hc

theorem spelled_inline (hfree : slash ∉ name) : Spelled (name ++ [slash]) where
  ne_nil := by simp
  last := by
    rw [List.getLast_append_singleton]
    decide
  not_inline := by
    rintro ⟨hlen, hpre, -⟩
    obtain ⟨t, ht⟩ := List.isPrefixOf_iff_prefix.mp hpre
    have htne : t ≠ [] := by
      rintro rfl
      rw [← ht] at hlen
      revert hlen
      decide
    have hdrop : name = bsdInline ++ t.dropLast := by
      rw [← List.dropLast_append_of_ne_nil htne, ht, List.dropLast_concat]
    refine hfree ?_
    rw [hdrop]
    exact List.mem_append_left _ (by decide)

theorem spelled_long (n : ℕ) : Spelled (slash :: decimal n) where
  ne_nil := by simp
  last := by
    rw [List.getLast_cons (decimal_ne_nil n)]
    exact isPad_eq_false (isDigit_of_mem_decimal (List.getLast_mem (decimal_ne_nil n)))
  not_inline := by
    rintro ⟨-, hpre, -⟩
    obtain ⟨t, ht⟩ := List.isPrefixOf_iff_prefix.mp hpre
    have hhead := congrArg List.head? ht
    revert hhead
    simp [bsdInline, slash]

theorem isPrefixOf_symdef : symdef.isPrefixOf (name ++ [slash]) = symdef.isPrefixOf name := by
  rw [Bool.eq_iff_iff, List.isPrefixOf_iff_prefix, List.isPrefixOf_iff_prefix,
    List.prefix_concat_iff]
  refine ⟨fun h => h.resolve_left fun he => ?_, Or.inr⟩
  have hmem : slash ∈ symdef := by rw [he]; simp
  revert hmem
  decide

theorem classify_inline (hne : name ≠ []) (hfree : slash ∉ name) :
    classifyMemberName (name ++ [slash]) =
      if symdef.isPrefixOf name then .unknownSymdef else .object := by
  have hnot : ∀ l : List UInt8, slash ∉ l → name ++ [slash] ≠ l := by
    rintro l hl rfl
    exact hl (by simp)
  have h1 : name ++ [slash] ≠ [slash] := by simpa using hne
  have h2 : name ++ [slash] ≠ [slash, slash] := fun h =>
    hfree (mem_of_append_eq (a := [slash]) h.symm List.mem_cons_self)
  have h3 : name ++ [slash] ≠ sym64 := fun h =>
    hfree (mem_of_append_eq (a := sym64.dropLast) h.symm (by decide))
  rw [classifyMemberName, if_neg h1, if_neg h2, if_neg h3, isPrefixOf_symdef]
  split_ifs with hp h4 h5
  · exact absurd h4 (not_or.mpr ⟨hnot _ (by decide), hnot _ (by decide)⟩)
  · exact absurd h5 (not_or.mpr ⟨hnot _ (by decide), hnot _ (by decide)⟩)
  · rfl
  · rfl

theorem classify_long (n : ℕ) : classifyMemberName (slash :: decimal n) = .object := by
  obtain ⟨c, cs, hcs⟩ := List.exists_cons_of_ne_nil (decimal_ne_nil n)
  have hc : isDigit c = true :=
    isDigit_of_mem_decimal (n := n) (by rw [hcs]; exact List.mem_cons_self)
  have hslash : c ≠ slash := by
    rintro rfl
    revert hc
    decide
  have hS : c ≠ 0x53 := by
    rintro rfl
    revert hc
    decide
  rw [hcs, classifyMemberName, if_neg (by simp), if_neg (by simp [hslash]),
    if_neg (by simp [sym64, hS]), if_neg]
  rw [List.isPrefixOf_iff_prefix]
  rintro ⟨t, ht⟩
  have hhead := congrArg List.head? ht
  revert hhead
  simp [symdef, slash]

theorem resolve_inline (hne : name ≠ []) (hfree : slash ∉ name)
    (longNames : Option (List (ℕ × List UInt8))) :
    resolveMemberName (name ++ [slash]) longNames = .ok name := by
  have hhead : (name ++ [slash]).head? ≠ some slash := by
    rw [List.head?_append_of_ne_nil _ hne]
    intro h
    exact hfree (List.mem_of_mem_head? h)
  rw [resolveMemberName, if_neg fun h => hhead h.2.1, if_pos (by simp), List.dropLast_concat]

theorem resolve_long {n : ℕ} {names : List (ℕ × List UInt8)} (hn : n < 2 ^ 64)
    (hlook : names.lookup n = some name) :
    resolveMemberName (slash :: decimal n) (some names) = .ok name := by
  have hlen : (slash :: decimal n).length ≥ 2 := by
    have := List.length_pos_iff.mpr (decimal_ne_nil n)
    rw [List.length_cons]
    omega
  rw [resolveMemberName, if_pos ⟨hlen, rfl, allDigits_decimal n⟩, List.tail_cons,
    decimalValue_decimal hn]
  simp only [hlook]

end Names

def Inline (m : MemberInput) : Prop := m.name.length ≤ maxInlineNameLen

instance : DecidablePred Inline := fun m => inferInstanceAs (Decidable (m.name.length ≤ _))

def nextNameOffset (off : ℕ) (m : MemberInput) : ℕ :=
  if Inline m then off else off + m.name.length + 2

/-- The name fields of members whose long names begin at an offset. -/
def fieldsFrom : ℕ → List MemberInput → List (List UInt8)
  | _, [] => []
  | off, m :: ms =>
    (if Inline m then m.name ++ [slash] else slash :: decimal off) ::
      fieldsFrom (nextNameOffset off m) ms

def entriesFrom : ℕ → List MemberInput → List (ℕ × List UInt8)
  | _, [] => []
  | off, m :: ms =>
    if Inline m then entriesFrom off ms
    else (off, m.name) :: entriesFrom (nextNameOffset off m) ms

def longTable : List MemberInput → List UInt8
  | [] => []
  | m :: ms => if Inline m then longTable ms else m.name ++ [slash, newline] ++ longTable ms

def offsetsFrom : ℕ → List MemberInput → List ℕ
  | _, [] => []
  | off, m :: ms => off :: offsetsFrom (nextHeaderOffset off m.objectBytes.length) ms

/-- The writer takes the member. -/
structure Writable (m : MemberInput) : Prop where
  ne_nil : m.name ≠ []
  no_slash : slash ∉ m.name
  no_newline : newline ∉ m.name
  size_le : m.objectBytes.length ≤ maxFieldSize

theorem writable_of {m : MemberInput} (hne : ¬ m.name.isEmpty = true)
    (hres : ¬ m.name.any isFramingReservedByte = true)
    (hsize : ¬ m.objectBytes.length > maxFieldSize) : Writable m := by
  have hfree : ∀ c ∈ m.name, isFramingReservedByte c = false := by simpa using hres
  refine ⟨by simpa using hne, fun h => ?_, fun h => ?_, not_lt.mp hsize⟩
  · have := hfree _ h
    revert this
    decide
  · have := hfree _ h
    revert this
    decide

theorem nameFields_eq_ok {table : List UInt8} {members : List MemberInput}
    {r : List (List UInt8) × List UInt8} (h : nameFields table members = .ok r) :
    r = (fieldsFrom table.length members, table ++ longTable members) ∧
      (∀ m ∈ members, Writable m) ∧
      ∀ e ∈ entriesFrom table.length members, e.1 ≤ maxArmapOffset := by
  induction members generalizing table r with
  | nil =>
    obtain rfl := Except.ok.inj h
    simp [fieldsFrom, longTable, entriesFrom]
  | cons m ms ih =>
    rw [nameFields] at h
    split_ifs at h with hempty hres hsize hinline hoff
    -- An inline name leaves the table alone; a long one is appended to it.
    · obtain ⟨rest, hrest, hr⟩ := exists_of_bind_eq_ok h
      obtain ⟨rfl, hw, he⟩ := ih hrest
      obtain rfl := Except.ok.inj hr
      have hin : Inline m := hinline
      refine ⟨?_, ?_, ?_⟩
      · simp [fieldsFrom, longTable, nextNameOffset, hin]
      · exact List.forall_mem_cons.mpr ⟨writable_of hempty hres hsize, hw⟩
      · simpa [entriesFrom, hin] using he
    · obtain ⟨rest, hrest, hr⟩ := exists_of_bind_eq_ok h
      obtain ⟨rfl, hw, he⟩ := ih hrest
      obtain rfl := Except.ok.inj hr
      have hin : ¬ Inline m := hinline
      have hlen : (table ++ m.name ++ [slash, newline]).length = nextNameOffset table.length m := by
        rw [nextNameOffset, if_neg hin]
        simp only [List.length_append, List.length_cons, List.length_nil]
      rw [hlen] at he
      rw [hlen]
      refine ⟨?_, ?_, ?_⟩
      · simp [fieldsFrom, longTable, hin]
      · exact List.forall_mem_cons.mpr ⟨writable_of hempty hres hsize, hw⟩
      · rw [entriesFrom, if_neg hin]
        exact List.forall_mem_cons.mpr ⟨not_lt.mp hoff, he⟩

theorem memberHeaderOffsets_eq_ok {off : ℕ} {members : List MemberInput} {offsets : List ℕ}
    (h : memberHeaderOffsets off members = .ok offsets) :
    offsets = offsetsFrom off members ∧ ∀ o ∈ offsets, o ≤ maxArmapOffset := by
  induction members generalizing off offsets with
  | nil =>
    obtain rfl := Except.ok.inj h
    simp [offsetsFrom]
  | cons m ms ih =>
    rw [memberHeaderOffsets] at h
    split_ifs at h with hoff
    obtain ⟨rest, hrest, hr⟩ := exists_of_bind_eq_ok h
    obtain ⟨rfl, hle⟩ := ih hrest
    obtain rfl := Except.ok.inj hr
    exact ⟨rfl, List.forall_mem_cons.mpr ⟨not_lt.mp hoff, hle⟩⟩

theorem length_offsetsFrom (off : ℕ) (members : List MemberInput) :
    (offsetsFrom off members).length = members.length := by
  induction members generalizing off with
  | nil => rfl
  | cons m ms ih => rw [offsetsFrom, List.length_cons, List.length_cons, ih]

theorem le_of_mem_offsetsFrom {off o : ℕ} {members : List MemberInput}
    (h : o ∈ offsetsFrom off members) : off ≤ o := by
  induction members generalizing off with
  | nil => cases h
  | cons m ms ih =>
    rcases List.mem_cons.mp h with rfl | h
    · exact le_rfl
    · have := ih h
      unfold nextHeaderOffset headerSize at this
      omega

theorem pairwise_offsetsFrom (off : ℕ) (members : List MemberInput) :
    (offsetsFrom off members).Pairwise (· < ·) := by
  induction members generalizing off with
  | nil => exact List.Pairwise.nil
  | cons m ms ih =>
    refine List.pairwise_cons.mpr ⟨fun o ho => ?_, ih _⟩
    have := le_of_mem_offsetsFrom ho
    unfold nextHeaderOffset headerSize at this
    omega

theorem le_of_mem_entriesFrom {off : ℕ} {members : List MemberInput} {e : ℕ × List UInt8}
    (h : e ∈ entriesFrom off members) : off ≤ e.1 := by
  induction members generalizing off with
  | nil => cases h
  | cons m ms ih =>
    rw [entriesFrom] at h
    split_ifs at h with hin
    · exact ih h
    · rcases List.mem_cons.mp h with rfl | h
      · exact le_rfl
      · have := ih h
        rw [nextNameOffset, if_neg hin] at this
        omega

theorem lookup_entriesFrom {off : ℕ} {members : List MemberInput} {e : ℕ × List UInt8}
    (h : e ∈ entriesFrom off members) : (entriesFrom off members).lookup e.1 = some e.2 := by
  induction members generalizing off with
  | nil => cases h
  | cons m ms ih =>
    rw [entriesFrom] at h ⊢
    split_ifs at h ⊢ with hin
    · exact ih h
    · rcases List.mem_cons.mp h with rfl | h
      · simp
      · have hle := le_of_mem_entriesFrom h
        rw [nextNameOffset, if_neg hin] at hle
        rw [List.lookup_cons, beq_eq_false_iff_ne.mpr (by omega : e.1 ≠ off)]
        exact ih h

theorem parseLongNameTable_eq (pre : List UInt8) {members : List MemberInput}
    (hw : ∀ m ∈ members, Writable m) {fuel : ℕ} (hfuel : (longTable members).length ≤ fuel) :
    parseLongNameTable (pre ++ longTable members) fuel pre.length =
      .ok (entriesFrom pre.length members) := by
  induction members generalizing pre fuel with
  | nil =>
    cases fuel with
    | zero => rfl
    | succ fuel => simp [parseLongNameTable, longTable, entriesFrom]
  | cons m ms ih =>
    obtain ⟨hm, hms⟩ := List.forall_mem_cons.mp hw
    by_cases hin : Inline m
    · simp only [longTable, entriesFrom, if_pos hin] at hfuel ⊢
      exact ih _ hms hfuel
    · simp only [longTable, entriesFrom, if_neg hin] at hfuel ⊢
      obtain ⟨fuel, rfl⟩ : ∃ k, fuel = k + 1 := by
        simp only [List.length_append, List.length_cons, List.length_nil] at hfuel
        exact ⟨fuel - 1, by omega⟩
      set tbl := pre ++ (m.name ++ [slash, newline] ++ longTable ms) with htbl
      have hentry : (tbl.drop pre.length).takeWhile (· != newline) = m.name ++ [slash] := by
        have hpos : ∀ c ∈ m.name ++ [slash], (c != newline) = true := by
          intro c hc
          rcases List.mem_append.mp hc with hc | hc
          · exact bne_iff_ne.mpr fun he => hm.no_newline (he ▸ hc)
          · rw [List.mem_singleton.mp hc]
            decide
        have hsplit : m.name ++ [slash, newline] ++ longTable ms =
            (m.name ++ [slash]) ++ (newline :: longTable ms) := by simp
        rw [htbl, List.drop_left, hsplit, List.takeWhile_append_of_pos hpos]
        simp
      have hlen : tbl.length = pre.length + m.name.length + 2 + (longTable ms).length := by
        rw [htbl]
        simp only [List.length_append, List.length_cons, List.length_nil]
        omega
      have hpre : tbl = (pre ++ (m.name ++ [slash, newline])) ++ longTable ms := by
        rw [htbl]
        simp
      have hstart : (pre ++ (m.name ++ [slash, newline])).length = nextNameOffset pre.length m := by
        rw [nextNameOffset, if_neg hin]
        simp only [List.length_append, List.length_cons, List.length_nil]
        omega
      have hless : (longTable ms).length ≤ fuel := by
        simp only [List.length_append, List.length_cons, List.length_nil] at hfuel
        omega
      have hrest : parseLongNameTable tbl fuel (nextNameOffset pre.length m) =
          .ok (entriesFrom (nextNameOffset pre.length m) ms) := by
        rw [hpre, ← hstart]
        exact ih _ hms hless
      rw [parseLongNameTable, if_pos (by omega), hentry, if_neg (by
        simp only [List.length_append, List.length_cons, List.length_nil]
        omega)]
      have hnext : pre.length + (m.name ++ [slash]).length + 1 = nextNameOffset pre.length m := by
        rw [nextNameOffset, if_neg hin]
        simp only [List.length_append, List.length_cons, List.length_nil]
        omega
      rw [hnext, hrest]
      simp [hm.ne_nil, Except.bind, bind]

/-- The name field of a member whose long name would begin at an offset. -/
def fieldOf (off : ℕ) (m : MemberInput) : List UInt8 :=
  if Inline m then m.name ++ [slash] else slash :: decimal off

/-- The bytes of members whose long names begin at an offset. -/
def emitAll (off : ℕ) (members : List MemberInput) : List UInt8 :=
  ((fieldsFrom off members).zip members).flatMap fun m =>
    emitMember m.1 (decimal 644) m.2.objectBytes

theorem emitAll_cons (off : ℕ) (m : MemberInput) (ms : List MemberInput) :
    emitAll off (m :: ms) =
      emitMember (fieldOf off m) (decimal 644) m.objectBytes ++ emitAll (nextNameOffset off m) ms :=
  rfl

def ResemblesSymdef (m : MemberInput) : Prop :=
  m.name.length ≤ maxInlineNameLen ∧ symdef <+: m.name

def rawsFrom : ℕ → ℕ → List MemberInput → List RawMember
  | _, _, [] => []
  | nameOff, off, m :: ms =>
    rawOf (fieldOf nameOff m) m.objectBytes off ::
      rawsFrom (nextNameOffset nameOff m) (nextHeaderOffset off m.objectBytes.length) ms

def membersFrom : ℕ → List MemberInput → List Member
  | _, [] => []
  | off, m :: ms =>
    ⟨m.name, off, off + headerSize, m.objectBytes.length⟩ ::
      membersFrom (nextHeaderOffset off m.objectBytes.length) ms

section Members

variable {m : MemberInput} {ms : List MemberInput} {nameOff fuel : ℕ} {st : Scan}

theorem entry_bound (he : ∀ e ∈ entriesFrom nameOff (m :: ms), e.1 ≤ maxArmapOffset) :
    (¬ Inline m → nameOff ≤ maxArmapOffset) ∧
      ∀ e ∈ entriesFrom (nextNameOffset nameOff m) ms, e.1 ≤ maxArmapOffset := by
  by_cases hin : Inline m
  · rw [entriesFrom, if_pos hin] at he
    rw [nextNameOffset, if_pos hin]
    exact ⟨fun h => absurd hin h, he⟩
  · rw [entriesFrom, if_neg hin] at he
    obtain ⟨h1, h2⟩ := List.forall_mem_cons.mp he
    exact ⟨fun _ => h1, h2⟩

theorem fits_fieldOf (hm : Writable m) (hoff : ¬ Inline m → nameOff ≤ maxArmapOffset) :
    Fits (fieldOf nameOff m) (decimal 644) m.objectBytes ∧ Spelled (fieldOf nameOff m) := by
  rw [fieldOf]
  split_ifs with hin
  · refine ⟨⟨?_, by decide, hm.size_le⟩, spelled_inline hm.no_slash⟩
    have hle : m.name.length ≤ 15 := hin
    simp only [List.length_append, List.length_singleton]
    omega
  · refine ⟨⟨?_, by decide, hm.size_le⟩, spelled_long _⟩
    have hle := hoff hin
    unfold maxArmapOffset at hle
    have := length_decimal_le (n := nameOff) (k := 10) (by decide) (by omega)
    rw [List.length_cons]
    omega

theorem classify_fieldOf (nameOff : ℕ) (hm : Writable m) :
    (ResemblesSymdef m → classifyMemberName (fieldOf nameOff m) = .unknownSymdef) ∧
      (¬ ResemblesSymdef m → classifyMemberName (fieldOf nameOff m) = .object) := by
  rw [fieldOf]
  split_ifs with hin
  · rw [classify_inline hm.ne_nil hm.no_slash]
    refine ⟨fun h => if_pos (List.isPrefixOf_iff_prefix.mpr h.2), fun h => if_neg fun hp => ?_⟩
    exact h ⟨hin, List.isPrefixOf_iff_prefix.mp hp⟩
  · exact ⟨fun h => absurd h.1 hin, fun _ => classify_long _⟩

theorem scan_cons (st : Scan) (hm : Writable m) (hoff : ¬ Inline m → nameOff ≤ maxArmapOffset)
    (hbytes : bytes = pre ++ emitAll nameOff (m :: ms))
    (hfuel : (emitAll nameOff (m :: ms)).length ≤ fuel) :
    ∃ k, (emitAll (nextNameOffset nameOff m) ms).length ≤ k ∧
      bytes = (pre ++ emitMember (fieldOf nameOff m) (decimal 644) m.objectBytes) ++
        emitAll (nextNameOffset nameOff m) ms ∧
      (pre ++ emitMember (fieldOf nameOff m) (decimal 644) m.objectBytes).length =
        nextHeaderOffset pre.length m.objectBytes.length ∧
      (ResemblesSymdef m → ∃ e, scan bytes fuel pre.length st = .error e) ∧
      (¬ ResemblesSymdef m → scan bytes fuel pre.length st =
        scan bytes k (pre ++ emitMember (fieldOf nameOff m) (decimal 644) m.objectBytes).length
          { st with raw := st.raw ++ [rawOf (fieldOf nameOff m) m.objectBytes pre.length] }) := by
  obtain ⟨hfits, hspelled⟩ := fits_fieldOf hm hoff
  rw [emitAll_cons, ← List.append_assoc] at hbytes
  rw [emitAll_cons, List.length_append, length_emitMember hfits] at hfuel
  obtain ⟨k, rfl⟩ : ∃ k, fuel = k + 1 := ⟨fuel - 1, by omega⟩
  obtain ⟨hclash, hobject⟩ := classify_fieldOf nameOff hm
  have hscan := scan_emitMember hfits hspelled st hbytes k
  refine ⟨k, by omega, hbytes, ?_, fun h => ?_, fun h => ?_⟩
  · rw [List.length_append, length_emitMember hfits, nextHeaderOffset, headerSize]
    omega
  · refine ⟨.unknownSymdef (fieldOf nameOff m), ?_⟩
    rw [hscan]
    simp only [Scan.record, rawOf, hclash h]
    rfl
  · rw [hscan]
    simp only [Scan.record, rawOf, hobject h]
    rfl

theorem scan_members {members : List MemberInput} (hw : ∀ m ∈ members, Writable m)
    (he : ∀ e ∈ entriesFrom nameOff members, e.1 ≤ maxArmapOffset)
    (hbytes : bytes = pre ++ emitAll nameOff members)
    (hfuel : (emitAll nameOff members).length ≤ fuel)
    (hclear : ∀ m ∈ members, ¬ ResemblesSymdef m) :
    scan bytes fuel pre.length st =
      .ok { st with raw := st.raw ++ rawsFrom nameOff pre.length members } := by
  induction members generalizing nameOff pre fuel st with
  | nil =>
    have hlen : bytes.length = pre.length := by rw [hbytes]; simp [emitAll, fieldsFrom]
    cases fuel with
    | zero => simp [scan, rawsFrom]
    | succ fuel => simp [scan, rawsFrom, hlen]
  | cons m ms ih =>
    obtain ⟨hm, hms⟩ := List.forall_mem_cons.mp hw
    obtain ⟨hc, hcs⟩ := List.forall_mem_cons.mp hclear
    obtain ⟨hoff, hes⟩ := entry_bound he
    obtain ⟨k, hk, hsplit, hlen, -, hstep⟩ := scan_cons st hm hoff hbytes hfuel
    rw [hstep hc, ih hms hes hsplit hk hcs, hlen]
    simp [rawsFrom]

theorem scan_members_error {members : List MemberInput} (hw : ∀ m ∈ members, Writable m)
    (he : ∀ e ∈ entriesFrom nameOff members, e.1 ≤ maxArmapOffset)
    (hbytes : bytes = pre ++ emitAll nameOff members)
    (hfuel : (emitAll nameOff members).length ≤ fuel) (hclash : ∃ m ∈ members, ResemblesSymdef m) :
    ∃ e, scan bytes fuel pre.length st = .error e := by
  induction members generalizing nameOff pre fuel st with
  | nil =>
    obtain ⟨m, hm, -⟩ := hclash
    cases hm
  | cons m ms ih =>
    obtain ⟨hm, hms⟩ := List.forall_mem_cons.mp hw
    obtain ⟨hoff, hes⟩ := entry_bound he
    obtain ⟨k, hk, hsplit, -, hstop, hstep⟩ := scan_cons st hm hoff hbytes hfuel
    by_cases hc : ResemblesSymdef m
    · exact hstop hc
    · obtain ⟨m', hm', hc'⟩ := hclash
      rw [hstep hc]
      refine ih hms hes hsplit hk ⟨m', ?_, hc'⟩
      rcases List.mem_cons.mp hm' with rfl | h
      · exact absurd hc' hc
      · exact h

theorem resolveMembers_eq {members : List MemberInput} {off : ℕ}
    {longNames : Option (List (ℕ × List UInt8))} (hw : ∀ m ∈ members, Writable m)
    (he : ∀ e ∈ entriesFrom nameOff members, e.1 ≤ maxArmapOffset ∧
      ∃ names, longNames = some names ∧ names.lookup e.1 = some e.2) :
    resolveMembers longNames (rawsFrom nameOff off members) = .ok (membersFrom off members) := by
  induction members generalizing nameOff off with
  | nil => rfl
  | cons m ms ih =>
    obtain ⟨hm, hms⟩ := List.forall_mem_cons.mp hw
    have hname : resolveMemberName (fieldOf nameOff m) longNames = .ok m.name := by
      rw [fieldOf]
      split_ifs with hin
      · exact resolve_inline hm.ne_nil hm.no_slash _
      · rw [entriesFrom, if_neg hin] at he
        obtain ⟨hle, names, rfl, hlook⟩ := he _ List.mem_cons_self
        exact resolve_long (lt_of_le_of_lt hle (by decide)) hlook
    have hrest : ∀ e ∈ entriesFrom (nextNameOffset nameOff m) ms, e.1 ≤ maxArmapOffset ∧
        ∃ names, longNames = some names ∧ names.lookup e.1 = some e.2 := by
      intro e hmem
      refine he e ?_
      rw [entriesFrom]
      split_ifs with hin
      · rwa [nextNameOffset, if_pos hin] at hmem
      · exact List.mem_cons_of_mem _ hmem
    have htail : resolveMembers longNames (rawsFrom (nextNameOffset nameOff m)
        (nextHeaderOffset off m.objectBytes.length) ms) =
          .ok (membersFrom (nextHeaderOffset off m.objectBytes.length) ms) := ih hms hrest
    rw [resolveMembers] at htail
    rw [resolveMembers, rawsFrom, List.mapM_cons, htail]
    simp only [rawOf, Bool.false_eq_true, if_false, hname]
    rfl

theorem payload_membersFrom {members : List MemberInput} (hw : ∀ m ∈ members, Writable m)
    (he : ∀ e ∈ entriesFrom nameOff members, e.1 ≤ maxArmapOffset)
    (hbytes : bytes = pre ++ emitAll nameOff members) :
    (membersFrom pre.length members).map (·.payload bytes) = members.map (·.objectBytes) := by
  induction members generalizing nameOff pre with
  | nil => rfl
  | cons m ms ih =>
    obtain ⟨hm, hms⟩ := List.forall_mem_cons.mp hw
    obtain ⟨hoff, hes⟩ := entry_bound he
    obtain ⟨hfits, -⟩ := fits_fieldOf hm hoff
    rw [emitAll_cons, ← List.append_assoc] at hbytes
    obtain ⟨-, -, -, -, hpayload⟩ := header_fields hfits hbytes
    have hlen : (pre ++ emitMember (fieldOf nameOff m) (decimal 644) m.objectBytes).length =
        nextHeaderOffset pre.length m.objectBytes.length := by
      rw [List.length_append, length_emitMember hfits, nextHeaderOffset, headerSize]
      omega
    have htail := ih hms hes hbytes
    rw [hlen] at htail
    rw [membersFrom, List.map_cons, List.map_cons, htail]
    exact congrArg (· :: _) hpayload

theorem map_name_membersFrom (off : ℕ) (members : List MemberInput) :
    (membersFrom off members).map (·.name) = members.map (·.name) := by
  induction members generalizing off with
  | nil => rfl
  | cons m ms ih => rw [membersFrom, List.map_cons, List.map_cons, ih]

theorem map_headerOffset_membersFrom (off : ℕ) (members : List MemberInput) :
    (membersFrom off members).map (·.headerOffset) = offsetsFrom off members := by
  induction members generalizing off with
  | nil => rfl
  | cons m ms ih => rw [membersFrom, List.map_cons, offsetsFrom, ih]

end Members

theorem readU32BE_append {d : List UInt8} {n off : ℕ} (pre rest : List UInt8)
    (h : d = pre ++ (u32BE n ++ rest)) (hoff : pre.length = off)
    (hn : n < 2 ^ 32) : readU32BE d off = n := by
  subst hoff h
  have hget : ∀ k < 4, (pre ++ (u32BE n ++ rest)).getD (pre.length + k) 0 = (u32BE n).getD k 0 := by
    intro k hk
    rw [List.getD_append_right _ _ _ _ (by omega), Nat.add_sub_cancel_left,
      List.getD_append _ _ _ _ hk]
  have h0 := hget 0 (by decide)
  rw [Nat.add_zero] at h0
  rw [readU32BE, h0, hget 1 (by decide), hget 2 (by decide), hget 3 (by decide)]
  simp only [u32BE, List.getD_cons_zero, List.getD_cons_succ, UInt8.toNat_ofNat']
  omega

theorem length_u32BE (n : ℕ) : (u32BE n).length = 4 := rfl

theorem length_flatMap_u32BE {α : Type} (l : List α) (f : α → ℕ) :
    (l.flatMap fun a => u32BE (f a)).length = 4 * l.length := by
  induction l with
  | nil => rfl
  | cons a l ih =>
    rw [List.flatMap_cons, List.length_append, length_u32BE, ih, List.length_cons]
    omega

theorem readU32BE_armap {head tail : List UInt8} {l done : List (ℕ × List UInt8)}
    {x : ℕ × List UInt8} {todo : List (ℕ × List UInt8)} {f : ℕ × List UInt8 → ℕ}
    (hl : l = done ++ x :: todo) (hhead : head.length = 4) (hx : f x < 2 ^ 32) :
    readU32BE (head ++ l.flatMap (fun s => u32BE (f s)) ++ tail) (4 + done.length * 4) = f x := by
  refine readU32BE_append (head ++ done.flatMap fun s => u32BE (f s))
    (todo.flatMap (fun s => u32BE (f s)) ++ tail) ?_ ?_ hx
  · rw [hl, List.flatMap_append, List.flatMap_cons]
    simp only [List.append_assoc]
  · rw [List.length_append, length_flatMap_u32BE, hhead]
    omega

theorem findIdx_headerOffset {members : List Member} {offsets : List ℕ}
    (hoffs : members.map (·.headerOffset) = offsets) (hlt : offsets.Pairwise (· < ·)) {i : ℕ}
    (hi : i < offsets.length) :
    members.findIdx? (·.headerOffset == offsets.getD i 0) = some i := by
  subst hoffs
  rw [List.length_map] at hi
  have hget : ∀ k (hk : k < members.length),
      (members.map (·.headerOffset)).getD k 0 = members[k].headerOffset := by
    intro k hk
    simp [List.getD_eq_getElem?_getD, hk]
  rw [List.findIdx?_eq_some_iff_getElem]
  refine ⟨hi, by rw [hget i hi]; exact beq_self_eq_true _, fun j hj => ?_⟩
  have hjlt : members[j].headerOffset < members[i].headerOffset := by
    have := List.pairwise_iff_getElem.mp hlt j i (by simpa using hj.trans hi) (by simpa using hi) hj
    simpa using this
  rw [hget i hi]
  simp
  omega

def symbolsOf (offsets : List ℕ) (symbols : List (ℕ × List UInt8)) : List Symbol :=
  symbols.map fun s => ⟨s.2, offsets.getD s.1 0, s.1⟩

def Named (count : ℕ) (symbols : List (ℕ × List UInt8)) : Prop :=
  ∀ s ∈ symbols, s.1 < count ∧ s.2 ≠ [] ∧ (0 : UInt8) ∉ s.2

theorem armapSymbols_eq {d head : List UInt8} {symbols todo : List (ℕ × List UInt8)}
    (done : List (ℕ × List UInt8)) {offsets : List ℕ} {a : Archive}
    (hnamed : Named offsets.length symbols)
    (hoffs : a.members.map (·.headerOffset) = offsets) (hlt : offsets.Pairwise (· < ·))
    (hsplit : symbols = done ++ todo) (hd : d = head ++ nameBlob (todo.map (·.2)))
    (hread : ∀ done x todo, symbols = done ++ x :: todo →
      readU32BE d (4 + done.length * 4) = offsets.getD x.1 0) :
    armapSymbols d todo.length done.length head.length a =
      .ok { a with symbols := a.symbols ++ symbolsOf offsets todo } := by
  induction todo generalizing done head a with
  | nil => simp [armapSymbols, symbolsOf]
  | cons x todo ih =>
    obtain ⟨hx, hne, hnul⟩ := hnamed x (by rw [hsplit]; simp)
    have hblob : d = head ++ (x.2 ++ (0 :: nameBlob (todo.map (·.2)))) := by
      rw [hd, List.map_cons, nameBlob, List.flatMap_cons, ← nameBlob]
      simp only [List.append_assoc, List.singleton_append]
    have hlen : d.length = head.length + x.2.length + 1 + (nameBlob (todo.map (·.2))).length := by
      rw [hblob]
      simp only [List.length_append, List.length_cons]
      omega
    have hname : (d.drop head.length).takeWhile (· != 0) = x.2 := by
      have hpos : ∀ c ∈ x.2, (c != 0) = true := by
        intro c hc
        exact bne_iff_ne.mpr fun he => hnul (he ▸ hc)
      rw [hblob, List.drop_left, List.takeWhile_append_of_pos hpos]
      simp
    have hbind : bindSymbol a x.2 (readU32BE d (4 + done.length * 4)) =
        .ok { a with symbols := a.symbols ++ [⟨x.2, offsets.getD x.1 0, x.1⟩] } := by
      rw [hread done x todo hsplit, bindSymbol, findIdx_headerOffset hoffs hlt hx]
      simp [hne]
    set b : Archive := { a with symbols := a.symbols ++ [⟨x.2, offsets.getD x.1 0, x.1⟩] } with hb
    have hpos : (head ++ (x.2 ++ [0])).length = head.length + x.2.length + 1 := by
      simp only [List.length_append, List.length_singleton]
      omega
    have hrest : armapSymbols d todo.length (done.length + 1) (head.length + x.2.length + 1) b =
        .ok { b with symbols := b.symbols ++ symbolsOf offsets todo } := by
      have hone : (done ++ [x]).length = done.length + 1 := by simp
      rw [← hpos, ← hone]
      exact ih (done ++ [x]) hoffs (by rw [hsplit]; simp) (by rw [hblob]; simp)
    rw [List.length_cons, armapSymbols, if_neg (by omega), hname, if_neg (by omega), hbind]
    refine hrest.trans ?_
    simp [hb, symbolsOf]

theorem readArmap_eq {symbols : List (ℕ × List UInt8)} {offsets : List ℕ} {a : Archive}
    (hcount : symbols.length ≤ maxArmapOffset) (hbound : ∀ o ∈ offsets, o ≤ maxArmapOffset)
    (hnamed : Named offsets.length symbols) (hoffs : a.members.map (·.headerOffset) = offsets)
    (hlt : offsets.Pairwise (· < ·)) :
    readArmap (armapPayload symbols offsets) a =
      .ok { a with symbols := a.symbols ++ symbolsOf offsets symbols } := by
  unfold maxArmapOffset at hcount hbound
  set d := armapPayload symbols offsets with hd
  have hread0 : readU32BE d 0 = symbols.length := by
    refine readU32BE_append [] (symbols.flatMap
      (fun s => u32BE (offsets.getD s.1 0)) ++ nameBlob (symbols.map (·.2))) ?_ rfl (by omega)
    rw [hd, armapPayload]
    simp only [List.append_assoc, List.nil_append]
  have hhead : (u32BE symbols.length ++ symbols.flatMap
      (fun s => u32BE (offsets.getD s.1 0))).length = 4 + symbols.length * 4 := by
    rw [List.length_append, length_u32BE, length_flatMap_u32BE]
    omega
  have hlen : d.length = 4 + symbols.length * 4 + (nameBlob (symbols.map (·.2))).length := by
    rw [hd, armapPayload, List.length_append, hhead]
  have hread : ∀ done x todo, symbols = done ++ x :: todo →
      readU32BE d (4 + done.length * 4) = offsets.getD x.1 0 := by
    intro done x todo hsplit
    have hx := (hnamed x (by rw [hsplit]; simp)).1
    refine readU32BE_armap (f := fun s => offsets.getD s.1 0) hsplit (length_u32BE _) ?_
    have := hbound _ (List.getElem_mem hx)
    simp only [List.getD_eq_getElem?_getD, List.getElem?_eq_getElem hx, Option.getD_some]
    omega
  rw [readArmap, if_neg (by omega), hread0, if_neg (by omega), ← hhead]
  exact armapSymbols_eq [] hnamed hoffs hlt rfl hd hread

theorem forM_eq_ok {α : Type} {l : List α} {f : α → Except WriteRefusal Unit}
    (h : l.forM f = .ok ()) : ∀ x ∈ l, f x = .ok () := by
  induction l with
  | nil => simp
  | cons a l ih =>
    obtain ⟨u, ha, hl⟩ := exists_of_bind_eq_ok (x := f a) (k := fun _ => l.forM f) h
    exact List.forall_mem_cons.mpr ⟨ha, ih hl⟩

theorem refuseIf_eq_ok {c : Prop} [Decidable c] {e : WriteRefusal} {u : Unit}
    (h : refuseIf c e = .ok u) : ¬ c := by
  rw [refuseIf] at h
  split_ifs at h with hc
  exact hc

theorem named_exported {members : List MemberInput}
    (h : (members.forM fun m => m.exportedSymbols.forM (checkSymbol m.name)) = .ok ()) :
    Named members.length (exported members) := by
  intro s hs
  obtain ⟨m, hm, hsym⟩ := List.mem_flatMap.mp hs
  obtain ⟨sym, hmem, rfl⟩ := List.mem_map.mp hsym
  have hm' := List.mem_zipIdx' hm
  have hcheck := forM_eq_ok (forM_eq_ok h m.1 (by rw [hm'.2]; exact List.getElem_mem _)) sym hmem
  obtain ⟨u, hempty, hnul⟩ := exists_of_bind_eq_ok hcheck
  refine ⟨hm'.1, ?_, fun hz => ?_⟩
  · simpa using refuseIf_eq_ok hempty
  · exact refuseIf_eq_ok hnul (List.any_eq_true.mpr ⟨0, hz, rfl⟩)

/-- The writer takes the members. -/
structure Written (members : List MemberInput) (flavor : Flavor) : Prop where
  writable : ∀ m ∈ members, Writable m
  entries : ∀ e ∈ entriesFrom 0 members, e.1 ≤ maxArmapOffset
  table_le : (longTable members).length ≤ maxFieldSize
  named : Named members.length (exported members)
  count_le : (exported members).length ≤ maxArmapOffset
  armap_le : armapSize (exported members) ≤ maxFieldSize
  second_le : flavor = .coff → secondSize members (exported members) ≤ maxFieldSize
  offsets_le : ∀ o ∈ offsetsFrom
    (firstMemberOffset flavor members (exported members) (longTable members)) members,
    o ≤ maxArmapOffset

def headerOffsets (members : List MemberInput) (flavor : Flavor) : List ℕ :=
  offsetsFrom (firstMemberOffset flavor members (exported members) (longTable members)) members

theorem length_headerOffsets (members : List MemberInput) (flavor : Flavor) :
    (headerOffsets members flavor).length = members.length := length_offsetsFrom _ _

theorem writeArArchive_eq_ok {members : List MemberInput} {flavor : Flavor} {bytes : List UInt8}
    (h : writeArArchive members flavor = .ok bytes) :
    Written members flavor ∧
      bytes = archiveBytes flavor members (fieldsFrom 0 members) (longTable members)
        (headerOffsets members flavor) := by
  obtain ⟨_, hmany, h⟩ := exists_of_bind_eq_ok h
  obtain ⟨names, hnames, h⟩ := exists_of_bind_eq_ok h
  obtain ⟨_, htable, h⟩ := exists_of_bind_eq_ok h
  obtain ⟨_, hsyms, h⟩ := exists_of_bind_eq_ok h
  obtain ⟨_, hcount, h⟩ := exists_of_bind_eq_ok h
  obtain ⟨_, harmap, h⟩ := exists_of_bind_eq_ok h
  obtain ⟨_, hsecond, h⟩ := exists_of_bind_eq_ok h
  obtain ⟨offsets, hoffs, h⟩ := exists_of_bind_eq_ok h
  obtain ⟨rfl, hw, he⟩ := nameFields_eq_ok hnames
  obtain ⟨rfl, hle⟩ := memberHeaderOffsets_eq_ok hoffs
  simp only [List.nil_append, List.length_nil] at *
  refine ⟨⟨hw, he, not_lt.mp (refuseIf_eq_ok htable), named_exported hsyms,
    not_lt.mp (refuseIf_eq_ok hcount), not_lt.mp (refuseIf_eq_ok harmap), fun hc => ?_, hle⟩,
    (Except.ok.inj h).symm⟩
  exact not_lt.mp fun hlt => refuseIf_eq_ok hsecond ⟨hc, hlt⟩

theorem length_armapPayload (symbols : List (ℕ × List UInt8)) (offsets : List ℕ) :
    (armapPayload symbols offsets).length = armapSize symbols := by
  rw [armapPayload, List.length_append, List.length_append, length_u32BE, length_flatMap_u32BE,
    armapSize]

theorem perm_sortedSymbols (symbols : List (ℕ × List UInt8)) :
    (sortedSymbols symbols).Perm symbols := List.mergeSort_perm _ _

theorem length_secondPayload (members : List MemberInput) (symbols : List (ℕ × List UInt8))
    (offsets : List ℕ) (h : offsets.length = members.length) :
    (secondPayload symbols offsets).length = secondSize members symbols := by
  have hperm := perm_sortedSymbols symbols
  have hblob : (nameBlob ((sortedSymbols symbols).map (·.2))).length =
      (nameBlob (symbols.map (·.2))).length :=
    ((hperm.map _).flatMap_right _).length_eq
  have h32 : ∀ l : List ℕ, (l.flatMap u32LE).length = 4 * l.length := by
    intro l
    induction l with
    | nil => rfl
    | cons n l ih =>
      rw [List.flatMap_cons, List.length_append, ih, List.length_cons, u32LE]
      simp only [List.length_cons, List.length_nil]
      omega
  have h16 : ∀ l : List (ℕ × List UInt8),
      (l.flatMap fun s => u16LE (s.1 + 1)).length = 2 * l.length := by
    intro l
    induction l with
    | nil => rfl
    | cons n l ih =>
      rw [List.flatMap_cons, List.length_append, ih, List.length_cons, u16LE]
      simp only [List.length_cons, List.length_nil]
      omega
  simp only [secondPayload, List.length_append, hblob, h32, h16, hperm.length_eq, h, secondSize]
  simp only [u32LE, List.length_cons, List.length_nil]

section RoundTrip

variable {members : List MemberInput} {flavor : Flavor}

def armapOf (members : List MemberInput) (flavor : Flavor) : List UInt8 :=
  armapPayload (exported members) (headerOffsets members flavor)

def front (members : List MemberInput) (flavor : Flavor) : List UInt8 :=
  magic ++ emitMember [slash] (decimal 0) (armapOf members flavor) ++
    (if flavor = .coff then
      emitMember [slash] (decimal 0)
        (secondPayload (exported members) (headerOffsets members flavor))
    else []) ++
    if (longTable members).isEmpty then [] else
      emitMember [slash, slash] (decimal 0) (longTable members)

theorem archiveBytes_eq : archiveBytes flavor members (fieldsFrom 0 members) (longTable members)
    (headerOffsets members flavor) = front members flavor ++ emitAll 0 members := rfl

def frontScan (members : List MemberInput) (flavor : Flavor) : Scan where
  armap := some (armapOf members flavor)
  longnames := if (longTable members).isEmpty then none else some (longTable members)

theorem fits_armap (h : Written members flavor) :
    Fits [slash] (decimal 0) (armapOf members flavor) :=
  ⟨by decide, by decide, by rw [armapOf, length_armapPayload]; exact h.armap_le⟩

theorem fits_second (h : Written members flavor) (hc : flavor = .coff) :
    Fits [slash] (decimal 0) (secondPayload (exported members) (headerOffsets members flavor)) := by
  refine ⟨by decide, by decide, ?_⟩
  rw [length_secondPayload members _ _ (length_headerOffsets _ _)]
  exact h.second_le hc

theorem fits_table (h : Written members flavor) :
    Fits [slash, slash] (decimal 0) (longTable members) :=
  ⟨by decide, by decide, h.table_le⟩

theorem spelled_slash : Spelled [slash] := ⟨by decide, by decide, by decide⟩

theorem spelled_slashes : Spelled [slash, slash] := ⟨by decide, by decide, by decide⟩

theorem length_front (h : Written members flavor) : (front members flavor).length =
    firstMemberOffset flavor members (exported members) (longTable members) := by
  have harmap := length_emitMember (fits_armap h)
  rw [armapOf, length_armapPayload] at harmap
  have hmagic : magic.length = 8 := rfl
  simp only [front, List.length_append, harmap, armapOf, firstMemberOffset, nextHeaderOffset,
    headerSize, hmagic]
  by_cases hc : flavor = .coff
  · have hsecond := length_emitMember (fits_second h hc)
    rw [length_secondPayload members _ _ (length_headerOffsets _ _)] at hsecond
    rw [if_pos hc, if_pos hc, hsecond]
    split_ifs with ht
    · simp only [List.length_nil]
      omega
    · rw [length_emitMember (fits_table h)]
      omega
  · rw [if_neg hc, if_neg hc]
    split_ifs with ht
    · simp only [List.length_nil]
      omega
    · rw [length_emitMember (fits_table h), List.length_nil]
      omega

theorem scan_armap {payload : List UInt8} (hf : Fits [slash] (decimal 0) payload) (st : Scan)
    (hbytes : bytes = pre ++ emitMember [slash] (decimal 0) payload ++ rest) (fuel : ℕ) :
    scan bytes (fuel + 1) pre.length st =
      scan bytes fuel (pre ++ emitMember [slash] (decimal 0) payload).length
        { st with armap := some (st.armap.getD payload) } := by
  obtain ⟨-, -, -, -, hpayload⟩ := header_fields hf hbytes
  rw [scan_emitMember hf spelled_slash st hbytes]
  have hclass : classifyMemberName [slash] = .sysVArmap := by decide
  simp only [Scan.record, rawOf, hclass, headerSize, hpayload]
  rfl

theorem scan_table (hf : Fits [slash, slash] (decimal 0) payload) (st : Scan)
    (hbytes : bytes = pre ++ emitMember [slash, slash] (decimal 0) payload ++ rest) (fuel : ℕ) :
    scan bytes (fuel + 1) pre.length st =
      scan bytes fuel (pre ++ emitMember [slash, slash] (decimal 0) payload).length
        { st with longnames := some payload } := by
  obtain ⟨-, -, -, -, hpayload⟩ := header_fields hf hbytes
  rw [scan_emitMember hf spelled_slashes st hbytes]
  have hclass : classifyMemberName [slash, slash] = .gnuLongNames := by decide
  simp only [Scan.record, rawOf, hclass, headerSize, hpayload]
  rfl

theorem scan_front (h : Written members flavor)
    (hbytes : bytes = front members flavor ++ emitAll 0 members) :
    ∃ k, (emitAll 0 members).length ≤ k ∧
      scan bytes bytes.length 8 {} =
        scan bytes k (front members flavor).length (frontScan members flavor) := by
  have harmap := length_emitMember (fits_armap h)
  set first := magic ++ emitMember [slash] (decimal 0) (armapOf members flavor) with hfirst
  set second := (if flavor = .coff then
    emitMember [slash] (decimal 0) (secondPayload (exported members) (headerOffsets members flavor))
    else []) with hsecond
  set third := (if (longTable members).isEmpty then [] else
    emitMember [slash, slash] (decimal 0) (longTable members)) with hthird
  have hfront : front members flavor = first ++ second ++ third := rfl
  rw [hfront] at hbytes
  have hlen : bytes.length = 8 + (60 + (armapOf members flavor).length +
      (armapOf members flavor).length % 2) + second.length + third.length +
      (emitAll 0 members).length := by
    rw [hbytes, hfirst]
    simp only [List.length_append, harmap]
    rfl
  -- First the index.
  have hscan1 : scan bytes bytes.length 8 {} = scan bytes (bytes.length - 1) first.length
      { armap := some (armapOf members flavor) } := by
    have hsplit : bytes = magic ++ emitMember [slash] (decimal 0) (armapOf members flavor) ++
        (second ++ third ++ emitAll 0 members) := by
      rw [hbytes, hfirst]
      simp only [List.append_assoc]
    have hstep := scan_armap (fits_armap h) {} hsplit (bytes.length - 1)
    rwa [Nat.sub_add_cancel (by omega)] at hstep
  -- Then the COFF index, if there is one, which changes nothing.
  have hscan2 : ∃ k, (third ++ emitAll 0 members).length ≤ k ∧ scan bytes bytes.length 8 {} =
      scan bytes k (first ++ second).length { armap := some (armapOf members flavor) } := by
    by_cases hc : flavor = .coff
    · have hsecond' : second = emitMember [slash] (decimal 0)
          (secondPayload (exported members) (headerOffsets members flavor)) := if_pos hc
      have hsplit : bytes = first ++ second ++ (third ++ emitAll 0 members) := by
        rw [hbytes]
        simp only [List.append_assoc]
      rw [hsecond'] at hsplit
      have hstep := scan_armap (fits_second h hc) { armap := some (armapOf members flavor) } hsplit
        (bytes.length - 2)
      rw [← hsecond'] at hstep
      have hpos : 60 ≤ second.length := by
        rw [hsecond', length_emitMember (fits_second h hc)]
        omega
      refine ⟨bytes.length - 2, by rw [List.length_append]; omega, ?_⟩
      rw [hscan1, show bytes.length - 1 = bytes.length - 2 + 1 by omega]
      exact hstep
    · have hsecond' : second = [] := if_neg hc
      refine ⟨bytes.length - 1, by rw [List.length_append]; omega, ?_⟩
      rw [hscan1, hsecond', List.append_nil]
  obtain ⟨k, hk, hscan2⟩ := hscan2
  -- Then the long names, if there are any.
  by_cases ht : (longTable members).isEmpty = true
  · have hthird' : third = [] := if_pos ht
    refine ⟨k, by rw [hthird', List.nil_append] at hk; exact hk, ?_⟩
    rw [hscan2, hfront, hthird', List.append_nil, frontScan, if_pos ht]
  · have hthird' : third = emitMember [slash, slash] (decimal 0) (longTable members) := if_neg ht
    rw [List.length_append, hthird', length_emitMember (fits_table h)] at hk
    rw [hthird'] at hbytes
    have hstep :=
      scan_table (fits_table h) { armap := some (armapOf members flavor) } hbytes (k - 1)
    refine ⟨k - 1, by omega, ?_⟩
    rw [hscan2, show k = k - 1 + 1 by omega, hfront, hthird', frontScan, if_neg ht]
    simpa using hstep

/-- The archive reads back as the members it was written from, and its symbols, in order, each
bound to the member that exports it. -/
def RoundTrips (members : List MemberInput) (bytes : List UInt8) : Prop :=
  ∃ a, readArArchive bytes = .ok a ∧
    a.members.map (·.name) = members.map (·.name) ∧
    a.members.map (·.payload bytes) = members.map (·.objectBytes) ∧
    a.symbols.map (fun s => (s.memberIndex, s.name)) = exported members ∧
    ∀ s ∈ a.symbols, (a.members[s.memberIndex]?).map (·.headerOffset) = some s.memberOffset

theorem take_front : (front members flavor ++ rest).take 8 = magic := by
  rw [front]
  simp only [List.append_assoc]
  exact List.take_left' rfl

theorem longNames_eq (h : Written members flavor) :
    ∃ longNames, readLongNames (frontScan members flavor).longnames = .ok longNames ∧
      ∀ e ∈ entriesFrom 0 members, e.1 ≤ maxArmapOffset ∧
        ∃ names, longNames = some names ∧ names.lookup e.1 = some e.2 := by
  have hparse : parseLongNameTable (longTable members) (longTable members).length 0 =
      .ok (entriesFrom 0 members) := parseLongNameTable_eq [] h.writable le_rfl
  by_cases ht : (longTable members).isEmpty = true
  · refine ⟨none, by rw [frontScan, if_pos ht]; rfl, fun e he => ?_⟩
    -- Without a table there is no long name.
    have hnil : longTable members = [] := by simpa using ht
    rw [hnil] at hparse
    have hempty : entriesFrom 0 members = [] := (Except.ok.inj hparse).symm
    rw [hempty] at he
    cases he
  · refine ⟨some (entriesFrom 0 members), ?_, fun e he =>
      ⟨h.entries e he, _, rfl, lookup_entriesFrom he⟩⟩
    rw [frontScan, if_neg ht, readLongNames, hparse]
    rfl

theorem roundTrips_of_clear (h : Written members flavor)
    (hbytes : bytes = front members flavor ++ emitAll 0 members)
    (hclear : ∀ m ∈ members, ¬ ResemblesSymdef m) : RoundTrips members bytes := by
  obtain ⟨k, hk, hscan⟩ := scan_front h hbytes
  rw [scan_members h.writable h.entries hbytes hk hclear] at hscan
  obtain ⟨longNames, hlong, hlook⟩ := longNames_eq h
  have hresolve : resolveMembers longNames (rawsFrom 0 (front members flavor).length members) =
      .ok (membersFrom (front members flavor).length members) :=
    resolveMembers_eq h.writable hlook
  set read := membersFrom (front members flavor).length members with hread
  have hoffs : read.map (·.headerOffset) = headerOffsets members flavor := by
    rw [hread, map_headerOffset_membersFrom, length_front h]
    rfl
  have hnamed : Named (headerOffsets members flavor).length (exported members) := by
    rw [length_headerOffsets]
    exact h.named
  have harmap : readArmap (armapOf members flavor) { members := read } =
      .ok { members := read,
            symbols := symbolsOf (headerOffsets members flavor) (exported members) } :=
    readArmap_eq h.count_le h.offsets_le hnamed hoffs (pairwise_offsetsFrom _ _)
  refine ⟨{ members := read,
            symbols := symbolsOf (headerOffsets members flavor) (exported members) },
    ?_, map_name_membersFrom _ _, payload_membersFrom h.writable h.entries hbytes, ?_, ?_⟩
  · rw [readArArchive, if_neg (not_not.mpr (hbytes ▸ take_front)), hscan]
    simp only [frontScan, List.nil_append] at hlong ⊢
    simp only [bind, Except.bind, hlong, hresolve]
    exact harmap
  · simp [symbolsOf, Function.comp_def]
  · intro s hs
    obtain ⟨x, hx, rfl⟩ := List.mem_map.mp hs
    have hlt := (hnamed x hx).1
    rw [← List.getElem?_map, hoffs, List.getElem?_eq_getElem hlt]
    simp [List.getD_eq_getElem?_getD, hlt]

theorem not_roundTrips_of_resembles (h : Written members flavor)
    (hbytes : bytes = front members flavor ++ emitAll 0 members)
    (hclash : ∃ m ∈ members, ResemblesSymdef m) : ¬ RoundTrips members bytes := by
  rintro ⟨a, hread, -⟩
  obtain ⟨k, hk, hscan⟩ := scan_front h hbytes
  obtain ⟨e, he⟩ : ∃ e, scan bytes k (front members flavor).length (frontScan members flavor) =
      .error e := scan_members_error h.writable h.entries hbytes hk hclash
  rw [readArArchive, if_neg (not_not.mpr (hbytes ▸ take_front)), hscan, he] at hread
  cases hread

/-- An archive reads back as written unless the header of a short name reads as the index's. -/
theorem roundTrips_iff (members : List MemberInput) (flavor : Flavor) (bytes : List UInt8)
    (h : writeArArchive members flavor = .ok bytes) :
    RoundTrips members bytes ↔
      ∀ m ∈ members, ¬ (m.name.length ≤ maxInlineNameLen ∧ symdef <+: m.name) := by
  obtain ⟨hw, hbytes⟩ := writeArArchive_eq_ok h
  rw [archiveBytes_eq] at hbytes
  refine ⟨fun hround => ?_, roundTrips_of_clear hw hbytes⟩
  by_contra hclash
  push Not at hclash
  exact not_roundTrips_of_resembles hw hbytes hclash hround

/-- An archive of one short name, one long name and an odd payload. -/
def demoMembers : List MemberInput :=
  [⟨[0x61, 0x2E, 0x6F], [1, 2, 3], [[0x66]]⟩,
   ⟨List.replicate 16 0x62, [4, 5], [[0x67], [0x68]]⟩]

theorem roundTrips_demo : ∃ bytes, writeArArchive demoMembers .sysV = .ok bytes ∧
    RoundTrips demoMembers bytes :=
  ⟨_, rfl, (roundTrips_iff demoMembers .sysV _ rfl).mpr (by decide)⟩

theorem symdef_member_refused : ∃ bytes, writeArArchive [⟨symdef, [], []⟩] .sysV = .ok bytes ∧
    ¬ RoundTrips [⟨symdef, [], []⟩] bytes := by
  obtain ⟨bytes, hwrite⟩ : ∃ bytes, writeArArchive [⟨symdef, [], []⟩] .sysV = .ok bytes := ⟨_, rfl⟩
  obtain ⟨hw, hbytes⟩ := writeArArchive_eq_ok hwrite
  refine ⟨bytes, hwrite, ?_⟩
  exact not_roundTrips_of_resembles hw hbytes ⟨_, List.mem_cons_self, by decide, List.prefix_refl _⟩

end RoundTrip

end DssPrime.Ar
