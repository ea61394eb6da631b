import DssPrime.Lir.FrameLayout

/-!
# What a frame layout keeps

`computeFrameLayout_kept_iff` says exactly when the layout of a frame does what it is for
(`FrameKept`): its zones lie apart, every register fits its slot, and both the addresses of allocas
and the stack pointer at calls are aligned where the entry stack pointer lies `callPushBytes` below
a multiple of the stack's alignment. All but the alignment holds of every frame.

The size of the frame is rounded so as to be congruent to `callPushBytes`, which is then subtracted
a second time: the stack pointer ends up twice that far below a multiple of the alignment.
-/

namespace DssPrime

def IsPow2 (n : ℕ) : Prop := ∃ k, n = 2 ^ k

def ownBytes (slotWidth payload : ℕ) : ℕ := if payload = 0 then slotWidth else payload

def reservation (slotWidth frameAlign : ℕ) (x : ℕ × ℕ) : ℕ :=
  allocaSlotCount x.1 slotWidth * slotWidth + frameSlotAlignHeadroom x.2 frameAlign

def slotZones (start width n : ℕ) : List (ℕ × ℕ) :=
  (List.range n).map fun i => (start + i * width, start + (i + 1) * width)

def allocaZones (slotWidth frameAlign : ℕ) (allocas : List (ℕ × ℕ)) (offsets : List ℕ) :
    List (ℕ × ℕ) :=
  List.zipWith (fun x offset => (offset, offset + reservation slotWidth frameAlign x)) allocas
    offsets

def FrameLayout.zones (l : FrameLayout) (cc : FrameConvention) (req : FrameRequest) :
    List (ℕ × ℕ) :=
  [(0, l.outgoingArgAreaSize)] ++ slotZones l.savedRegAreaOffset l.slotSize req.savedRegs.length ++
    slotZones l.spillAreaOffset l.slotSize req.numSpillSlots ++
    allocaZones l.slotSize cc.stackAlignment req.allocas l.allocaSlotOffsets ++
    [(l.vaRegSaveAreaOffset, l.vaRegSaveAreaOffset + l.vaRegSaveAreaSize)]

def roundedUp (address : ℤ) (d : ℕ) : ℤ := address + (-address) % d

/-- What a frame has to keep. -/
structure FrameKept (registers : List (LirRegClass × ℕ)) (cc : FrameConvention)
    (req : FrameRequest) (l : FrameLayout) : Prop where
  apart : (l.zones cc req).Pairwise fun a b => a.2 ≤ b.1
  inside : ∀ z ∈ l.zones cc req, z.1 ≤ z.2 ∧ z.2 ≤ l.totalFrameSize
  fits : ∀ cls ∈ req.occupants,
    ∀ r ∈ registers, r.1 = cls → r.2 ≤ l.slotSize
  owns : ∀ x ∈ req.allocas, ownBytes l.slotSize x.1 ≤ reservation l.slotSize cc.stackAlignment x
  rounds : ∀ x ∈ req.allocas.zip l.allocaSlotOffsets, 0 < x.1.2 →
    ∀ entry : ℤ, (cc.stackAlignment : ℤ) ∣ entry + cc.callPushBytes →
      roundedUp (entry - l.totalFrameSize + x.2) x.1.2 + ownBytes l.slotSize x.1.1 ≤
        entry - l.totalFrameSize + x.2 + reservation l.slotSize cc.stackAlignment x.1
  aligned : req.hasCalls = true → ∀ entry : ℤ,
    (cc.stackAlignment : ℤ) ∣ entry + cc.callPushBytes →
      (cc.stackAlignment : ℤ) ∣ entry - l.totalFrameSize

/-- Twice the bytes that a call pushes do no harm: they are a multiple of the stack's alignment if
there are calls, and what they exceed a multiple of an alloca's alignment by is left over in its
slots. -/
def PushedTwice (cc : FrameConvention) (req : FrameRequest) (slotWidth : ℕ) : Prop :=
  (req.hasCalls = true → cc.stackAlignment ∣ 2 * cc.callPushBytes) ∧
    ∀ x ∈ req.allocas, 0 < x.2 →
      2 * cc.callPushBytes % min x.2 cc.stackAlignment + ownBytes slotWidth x.1 ≤
        allocaSlotCount x.1 slotWidth * slotWidth

theorem le_alignUp (n align : ℕ) : n ≤ alignUp n align := by
  rw [alignUp]
  split_ifs with h
  · exact le_rfl
  · have hpos : 0 < align := Nat.pos_of_ne_zero h
    have hdm := Nat.div_add_mod (n + align - 1) align
    have hlt := Nat.mod_lt (n + align - 1) hpos
    rw [Nat.mul_comm] at hdm
    omega

theorem dvd_alignUp (n align : ℕ) (h : align ≠ 0) : align ∣ alignUp n align := by
  rw [alignUp, if_neg h]
  exact Nat.dvd_mul_left _ _

theorem le_alignedSizeWithBias (n align bias : ℕ) : n ≤ alignedSizeWithBias n align bias := by
  rw [alignedSizeWithBias]
  split_ifs <;> omega

theorem alignedSizeWithBias_mod {n align bias : ℕ} (h : bias < align) :
    alignedSizeWithBias n align bias % align = bias := by
  have hlt : n % align < align := Nat.mod_lt _ (by omega)
  rw [alignedSizeWithBias, if_neg (by omega)]
  split_ifs with he
  · exact he
  · rw [Nat.add_mod, Nat.mod_mod]
    rcases lt_or_ge (n % align) bias with hb | hb
    · have hd : (bias + align - n % align) % align = bias - n % align := by
        rw [show bias + align - n % align = bias - n % align + align by omega, Nat.add_mod_right]
        exact Nat.mod_eq_of_lt (by omega)
      rw [hd, Nat.mod_eq_of_lt (by omega)]
      omega
    · have hd : (bias + align - n % align) % align = bias + align - n % align :=
        Nat.mod_eq_of_lt (by omega)
      rw [hd, show n % align + (bias + align - n % align) = bias + align by omega,
        Nat.add_mod_right]
      exact Nat.mod_eq_of_lt h

theorem IsPow2.pos {n : ℕ} (h : IsPow2 n) : 0 < n := by
  obtain ⟨k, rfl⟩ := h
  positivity

theorem IsPow2.dvd {m n : ℕ} (hm : IsPow2 m) (hn : IsPow2 n) (h : m ≤ n) : m ∣ n := by
  obtain ⟨i, rfl⟩ := hm
  obtain ⟨j, rfl⟩ := hn
  exact pow_dvd_pow 2 ((Nat.pow_le_pow_iff_right (by norm_num)).mp h)

theorem IsPow2.min {m n : ℕ} (hm : IsPow2 m) (hn : IsPow2 n) : IsPow2 (min m n) := by
  rcases le_total m n with h | h
  · rwa [min_eq_left h]
  · rwa [min_eq_right h]

theorem placement_eq_min {d frameAlign : ℕ} (h : 0 < d) :
    frameSlotPlacementAlign d frameAlign = min d frameAlign := by
  rw [frameSlotPlacementAlign, if_neg (by omega)]
  split_ifs with hlt
  · exact (min_eq_right hlt.le).symm
  · exact (min_eq_left (not_lt.mp hlt)).symm

theorem placement_ne_zero {d frameAlign : ℕ} (h : 0 < frameAlign) :
    frameSlotPlacementAlign d frameAlign ≠ 0 := by
  rw [frameSlotPlacementAlign]
  split_ifs <;> omega

theorem le_foldl_max {α : Type} (f : α → ℕ) (xs : List α) (w : ℕ) :
    w ≤ xs.foldl (fun w x => max w (f x)) w ∧
      ∀ x ∈ xs, f x ≤ xs.foldl (fun w x => max w (f x)) w := by
  induction xs generalizing w with
  | nil => simp
  | cons y xs ih =>
    obtain ⟨h1, h2⟩ := ih (max w (f y))
    rw [List.foldl_cons]
    refine ⟨(le_max_left _ _).trans h1, fun x hx => ?_⟩
    rcases List.mem_cons.mp hx with rfl | hx
    · exact (le_max_right _ _).trans h1
    · exact h2 x hx

theorem le_widthForClass {registers : List (LirRegClass × ℕ)} {r : LirRegClass × ℕ}
    (h : r ∈ registers) : r.2 ≤ widthForClass registers r.1 :=
  (le_foldl_max (fun r : LirRegClass × ℕ => r.2) _ 0).2 r (by simp [h])

theorem width_le_frameSlotStride {registers : List (LirRegClass × ℕ)}
    {occupants : List LirRegClass} {cls : LirRegClass} (h : cls ∈ occupants) :
    widthForClass registers cls ≤ frameSlotStride registers occupants :=
  (le_foldl_max (widthForClass registers) occupants _).2 cls h

/-- Ranges that lie apart between two bounds, in order. -/
def Packed (lo hi : ℕ) (zs : List (ℕ × ℕ)) : Prop :=
  lo ≤ hi ∧ zs.Pairwise (fun a b => a.2 ≤ b.1) ∧ ∀ z ∈ zs, lo ≤ z.1 ∧ z.1 ≤ z.2 ∧ z.2 ≤ hi

theorem Packed.append {a b c : ℕ} {xs ys : List (ℕ × ℕ)} (hx : Packed a b xs)
    (hy : Packed b c ys) : Packed a c (xs ++ ys) := by
  obtain ⟨hab, hpx, hx⟩ := hx
  obtain ⟨hbc, hpy, hy⟩ := hy
  refine ⟨hab.trans hbc, List.pairwise_append.mpr ⟨hpx, hpy, fun x h y h' => ?_⟩, fun z hz => ?_⟩
  · exact (hx x h).2.2.trans (hy y h').1
  · rcases List.mem_append.mp hz with h | h
    · exact ⟨(hx z h).1, (hx z h).2.1, (hx z h).2.2.trans hbc⟩
    · exact ⟨hab.trans (hy z h).1, (hy z h).2.1, (hy z h).2.2⟩

theorem packed_singleton {a b : ℕ} (h : a ≤ b) : Packed a b [(a, b)] := by
  refine ⟨h, List.pairwise_singleton _ _, fun z hz => ?_⟩
  rw [List.mem_singleton.mp hz]
  exact ⟨le_rfl, h, le_rfl⟩

theorem Packed.widen {a b a' b' : ℕ} {zs : List (ℕ × ℕ)} (h : Packed a b zs) (ha : a' ≤ a)
    (hb : b ≤ b') : Packed a' b' zs :=
  ⟨ha.trans (h.1.trans hb), h.2.1, fun z hz =>
    ⟨ha.trans (h.2.2 z hz).1, (h.2.2 z hz).2.1, (h.2.2 z hz).2.2.trans hb⟩⟩

theorem packed_slotZones (start width n : ℕ) :
    Packed start (start + n * width) (slotZones start width n) := by
  induction n with
  | zero => exact ⟨by omega, by simp [slotZones], by simp [slotZones]⟩
  | succ n ih =>
    have hs : slotZones start width (n + 1) =
        slotZones start width n ++ [(start + n * width, start + (n + 1) * width)] := by
      simp [slotZones, List.range_succ]
    rw [hs]
    exact ih.append (packed_singleton (by rw [Nat.succ_mul]; omega))

theorem packed_allocaZones {frameAlign : ℕ} (hA : 0 < frameAlign) (slotWidth base : ℕ)
    (allocas : List (ℕ × ℕ)) (localRunning : ℕ) :
    Packed (base + localRunning) (base + (localOffsets slotWidth frameAlign localRunning allocas).2)
      (allocaZones slotWidth frameAlign allocas
        ((localOffsets slotWidth frameAlign localRunning allocas).1.map (base + ·))) ∧
    ∀ x ∈ allocas.zip (localOffsets slotWidth frameAlign localRunning allocas).1,
      frameSlotPlacementAlign x.1.2 frameAlign ∣ x.2 := by
  induction allocas generalizing localRunning with
  | nil => exact ⟨⟨le_rfl, by simp [allocaZones], by simp [allocaZones]⟩, by simp [localOffsets]⟩
  | cons x allocas ih =>
    obtain ⟨payload, declared⟩ := x
    simp only [localOffsets]
    set offset := alignUp localRunning (frameSlotPlacementAlign declared frameAlign) with hoffset
    have hle : localRunning ≤ offset := le_alignUp _ _
    obtain ⟨ih1, ih2⟩ := ih (offset + allocaSlotCount payload slotWidth * slotWidth +
      frameSlotAlignHeadroom declared frameAlign)
    refine ⟨?_, fun y hy => ?_⟩
    · have hfirst : Packed (base + localRunning) (base + (offset +
          allocaSlotCount payload slotWidth * slotWidth +
          frameSlotAlignHeadroom declared frameAlign))
          [(base + offset,
            base + offset + reservation slotWidth frameAlign (payload, declared))] := by
        refine (packed_singleton (Nat.le_add_right _ _)).widen (by omega) ?_
        simp only [reservation]
        omega
      exact hfirst.append ih1
    · rcases List.mem_cons.mp hy with rfl | hy
      · exact dvd_alignUp _ _ (placement_ne_zero hA)
      · exact ih2 y hy

theorem length_localOffsets (slotWidth frameAlign : ℕ) (allocas : List (ℕ × ℕ)) (n : ℕ) :
    (localOffsets slotWidth frameAlign n allocas).1.length = allocas.length := by
  induction allocas generalizing n with
  | nil => rfl
  | cons x allocas ih => simp [localOffsets, ih]

theorem exists_mem_zip {α β : Type} {xs : List α} {ys : List β} (h : xs.length = ys.length) {x : α}
    (hx : x ∈ xs) : ∃ y, (x, y) ∈ xs.zip ys := by
  rw [← List.map_fst_zip h.le, List.mem_map] at hx
  obtain ⟨p, hp, rfl⟩ := hx
  exact ⟨p.2, hp⟩

section Frame

variable {slotWidth outgoingSlotSize : ℕ} {cc : FrameConvention} {req : FrameRequest}

theorem raw_le_total (slotWidth outgoingSlotSize : ℕ) (cc : FrameConvention) (req : FrameRequest) :
    let l := frameLayoutOf slotWidth outgoingSlotSize cc req
    l.vaRegSaveAreaOffset + l.vaRegSaveAreaSize ≤ l.totalFrameSize := by
  simp only [frameLayoutOf, FrameLayout.vaRegSaveAreaOffset, FrameLayout.localAreaOffset]
  split_ifs <;> first | exact le_alignedSizeWithBias _ _ _ | exact le_alignUp _ _

theorem packed_zones (hA : 0 < cc.stackAlignment) :
    let l := frameLayoutOf slotWidth outgoingSlotSize cc req
    Packed 0 l.totalFrameSize (l.zones cc req) := by
  intro l
  have htotal : l.vaRegSaveAreaOffset + l.vaRegSaveAreaSize ≤ l.totalFrameSize :=
    raw_le_total slotWidth outgoingSlotSize cc req
  have hsaved := packed_slotZones l.savedRegAreaOffset l.slotSize req.savedRegs.length
  have hspill := packed_slotZones l.spillAreaOffset l.slotSize req.numSpillSlots
  have hlocal := (packed_allocaZones hA slotWidth l.localAreaOffset req.allocas 0).1
  have hva : Packed l.vaRegSaveAreaOffset l.totalFrameSize
      [(l.vaRegSaveAreaOffset, l.vaRegSaveAreaOffset + l.vaRegSaveAreaSize)] :=
    (packed_singleton (Nat.le_add_right _ _)).widen le_rfl htotal
  have hoffsets : l.allocaSlotOffsets =
      (localOffsets slotWidth cc.stackAlignment 0 req.allocas).1.map (l.localAreaOffset + ·) := by
    simp only [l, frameLayoutOf, if_pos hA, FrameLayout.localAreaOffset]
  have hsize : l.localAreaSize = (localOffsets slotWidth cc.stackAlignment 0 req.allocas).2 := by
    simp only [l, frameLayoutOf, if_pos hA]
  rw [← hoffsets, ← hsize] at hlocal
  have hbase : l.spillAreaOffset + req.numSpillSlots * l.slotSize ≤ l.localAreaOffset + 0 :=
    Nat.le_add_right _ _
  exact ((((packed_singleton (Nat.zero_le l.outgoingArgAreaSize)).append hsaved).append
    hspill).append (hlocal.widen hbase le_rfl)).append hva

theorem total_mod (hP : cc.callPushBytes < cc.stackAlignment)
    (h : req.hasCalls = true ∨ 0 < req.maxLocalAlign) :
    (frameLayoutOf slotWidth outgoingSlotSize cc req).totalFrameSize % cc.stackAlignment =
      cc.callPushBytes := by
  have hA : 0 < cc.stackAlignment := by omega
  have hor : (req.hasCalls || decide (0 < req.maxLocalAlign)) = true := by simpa using h
  simp only [frameLayoutOf, if_pos hA, hor, if_true]
  exact alignedSizeWithBias_mod hP

theorem dvd_localAreaPad {raw maxLocalAlign frameAlign : ℕ} (hA : 0 < frameAlign)
    (hm : 0 < maxLocalAlign) :
    frameSlotPlacementAlign maxLocalAlign frameAlign ∣
      raw + localAreaPad raw maxLocalAlign frameAlign := by
  simp only [localAreaPad, if_pos hm]
  split_ifs with h
  · have hle := le_alignUp raw (frameSlotPlacementAlign maxLocalAlign frameAlign)
    rw [show ∀ x, raw ≤ x → raw + (x - raw) = x by omega]
    · exact dvd_alignUp _ _ (placement_ne_zero hA)
    · exact hle
  · exact Nat.dvd_of_mod_eq_zero (not_not.mp h)

theorem dvd_offset (hA : IsPow2 cc.stackAlignment) (hd : ∀ x ∈ req.allocas, x.2 = 0 ∨ IsPow2 x.2)
    (hmax : ∀ x ∈ req.allocas, x.2 ≤ req.maxLocalAlign)
    (hm : req.maxLocalAlign = 0 ∨ IsPow2 req.maxLocalAlign) {x : (ℕ × ℕ) × ℕ}
    (hx : x ∈ req.allocas.zip
      (frameLayoutOf slotWidth outgoingSlotSize cc req).allocaSlotOffsets) (hpos : 0 < x.1.2) :
    min x.1.2 cc.stackAlignment ∣ x.2 := by
  have hA' := hA.pos
  set base := (frameLayoutOf slotWidth outgoingSlotSize cc req).localAreaOffset with hbase
  have hoffsets : (frameLayoutOf slotWidth outgoingSlotSize cc req).allocaSlotOffsets =
      (localOffsets slotWidth cc.stackAlignment 0 req.allocas).1.map (base + ·) := by
    simp only [hbase, frameLayoutOf, if_pos hA', FrameLayout.localAreaOffset]
  rw [hoffsets, List.zip_map_right, List.mem_map] at hx
  obtain ⟨⟨x, offset⟩, hmem, rfl⟩ := hx
  have hxm : x ∈ req.allocas := (List.of_mem_zip hmem).1
  have hpos : 0 < x.2 := hpos
  have hxp : IsPow2 x.2 := (hd x hxm).resolve_left (by omega)
  have hmp : 0 < req.maxLocalAlign := hpos.trans_le (hmax x hxm)
  have hlocal := (packed_allocaZones hA' slotWidth 0 req.allocas 0).2 _ hmem
  rw [placement_eq_min hpos] at hlocal
  have hpad : min req.maxLocalAlign cc.stackAlignment ∣ base := by
    rw [← placement_eq_min hmp]
    simp only [hbase, frameLayoutOf, if_pos hA', FrameLayout.localAreaOffset]
    exact dvd_localAreaPad hA' hmp
  refine dvd_add ?_ hlocal
  have hmp' := hm.resolve_left (by omega)
  exact ((hxp.min hA).dvd (hmp'.min hA) (min_le_min_right _ (hmax x hxm))).trans hpad

end Frame

section Rounding

variable {align d push : ℕ}

theorem dvd_sub_of_mod {t : ℕ} (h : t % align = push) : (align : ℤ) ∣ (t : ℤ) - push := by
  refine ⟨((t / align : ℕ) : ℤ), ?_⟩
  have hdm : ((align * (t / align) + t % align : ℕ) : ℤ) = t := by rw [Nat.div_add_mod]
  rw [h] at hdm
  push_cast at hdm ⊢
  linarith

theorem rounding_le (hA : IsPow2 align) (hd : IsPow2 d) {a : ℤ}
    (ha : ((min d align : ℕ) : ℤ) ∣ a + 2 * push) :
    (-a) % d ≤ frameSlotAlignHeadroom d align + (2 * push % min d align : ℕ) := by
  have hdpos : (0 : ℤ) < d := by exact_mod_cast hd.pos
  have hmod : (-a) % ((min d align : ℕ) : ℤ) = (2 * push % min d align : ℕ) := by
    push_cast
    exact (Int.modEq_iff_dvd.mpr (by simpa [add_comm] using ha) : -a ≡ 2 * push [ZMOD _])
  rw [frameSlotAlignHeadroom]
  split_ifs with h
  · rw [min_eq_right h.le] at hmod ⊢
    obtain ⟨m, rfl⟩ := hA.dvd hd h.le
    have hpos : (0 : ℤ) < align := by exact_mod_cast hA.pos
    set r := (-a) % ((align * m : ℕ) : ℤ) with hr
    have hlt : r < (align * m : ℕ) := Int.emod_lt_of_pos _ hdpos
    have hrem : r % align = (2 * push % align : ℕ) := by
      rw [hr, Int.emod_emod_of_dvd _ (by exact_mod_cast Dvd.intro m rfl)]
      exact hmod
    have hdm := Int.mul_ediv_add_emod r align
    have hq : r / align + 1 ≤ m := by
      refine Int.add_one_le_of_lt (Int.ediv_lt_of_lt_mul hpos ?_)
      push_cast at hlt
      linarith [mul_comm (align : ℤ) m]
    have hmul : (align : ℤ) * (r / align + 1) ≤ align * m := by gcongr
    have hsub : ((align * m - align : ℕ) : ℤ) = align * m - align := by
      rw [Nat.cast_sub h.le]
      push_cast
      rfl
    rw [hsub, ← hrem]
    linarith [mul_add (align : ℤ) (r / align) 1]
  · rw [min_eq_left (not_lt.mp h)] at hmod ⊢
    rw [hmod]
    simp

theorem exists_rounding (hA : IsPow2 align) (hd : IsPow2 d) {total offset : ℕ}
    (ht : total % align = push) (ho : min d align ∣ offset) :
    ∃ entry : ℤ, (align : ℤ) ∣ entry + push ∧ (-(entry - total + offset)) % d =
      frameSlotAlignHeadroom d align + (2 * push % min d align : ℕ) := by
  have htotal := dvd_sub_of_mod ht
  rw [frameSlotAlignHeadroom]
  split_ifs with h
  · rw [min_eq_right h.le] at ho ⊢
    have hdvd : (align : ℤ) ∣ d := by exact_mod_cast hA.dvd hd h.le
    have hpush : (align : ℤ) ∣ 2 * push - (2 * push % align : ℕ) := by
      have hmod : (align : ℤ) ∣ ((2 * push : ℕ) : ℤ) - (2 * push % align : ℕ) := dvd_sub_of_mod rfl
      exact_mod_cast hmod
    have ho' : (align : ℤ) ∣ offset := by exact_mod_cast ho
    have hlt : 2 * push % align < align := Nat.mod_lt _ hA.pos
    have hsub : ((d - align : ℕ) : ℤ) = d - align := Nat.cast_sub h.le
    refine ⟨total - offset - ((d - align : ℕ) + (2 * push % align : ℕ)), ?_, ?_⟩
    · have hsum : (total : ℤ) - offset - ((d - align : ℕ) + (2 * push % align : ℕ)) + push =
          (total - push) - offset - (d - align) + (2 * push - (2 * push % align : ℕ)) := by
        rw [hsub]
        ring
      rw [hsum]
      exact dvd_add (dvd_sub (dvd_sub htotal ho') (dvd_sub hdvd dvd_rfl)) hpush
    · have hneg : -((total : ℤ) - offset - ((d - align : ℕ) + (2 * push % align : ℕ)) - total +
          offset) = (d - align : ℕ) + (2 * push % align : ℕ) := by ring
      rw [hneg]
      refine Int.emod_eq_of_lt (by positivity) ?_
      rw [hsub]
      have hlt' : ((2 * push % align : ℕ) : ℤ) < align := by exact_mod_cast hlt
      linarith
  · have hle := not_lt.mp h
    rw [min_eq_left hle] at ho ⊢
    refine ⟨-push, by simp, ?_⟩
    have hdvd : (d : ℤ) ∣ total - push :=
      (by exact_mod_cast hd.dvd hA hle : (d : ℤ) ∣ align).trans htotal
    have ho' : (d : ℤ) ∣ offset := by exact_mod_cast ho
    have hmod : -(-(push : ℤ) - total + offset) ≡ 2 * push [ZMOD d] := by
      refine Int.modEq_iff_dvd.mpr ?_
      have hsum : 2 * (push : ℤ) - -(-(push : ℤ) - total + offset) = offset - (total - push) := by
        ring
      rw [hsum]
      exact dvd_sub ho' hdvd
    push_cast
    rw [zero_add]
    exact hmod

end Rounding

theorem calls_aligned_iff {align push total : ℕ} (ht : total % align = push) :
    (∀ entry : ℤ, (align : ℤ) ∣ entry + push → (align : ℤ) ∣ entry - total) ↔
      align ∣ 2 * push := by
  have htotal := dvd_sub_of_mod ht
  constructor
  · intro h
    have h0 := dvd_add (h (-push) (by simp)) htotal
    have hsum : -(push : ℤ) - total + (total - push) = -(2 * push : ℕ) := by
      push_cast
      ring
    rw [hsum, dvd_neg] at h0
    exact_mod_cast h0
  · intro h entry he
    have h2 : (align : ℤ) ∣ (2 * push : ℕ) := by exact_mod_cast h
    have hsum : entry - total = (entry + push) - (total - push) - (2 * push : ℕ) := by
      push_cast
      ring
    rw [hsum]
    exact dvd_sub (dvd_sub he htotal) h2

theorem ownBytes_le (slotWidth frameAlign : ℕ) (x : ℕ × ℕ) (h : 0 < slotWidth) :
    ownBytes slotWidth x.1 ≤ reservation slotWidth frameAlign x := by
  have hspan : ownBytes slotWidth x.1 ≤ allocaSlotCount x.1 slotWidth * slotWidth := by
    rw [ownBytes, allocaSlotCount]
    split_ifs
    · exact (Nat.one_mul _).ge
    · have hdm := Nat.div_add_mod (x.1 + slotWidth - 1) slotWidth
      have hlt := Nat.mod_lt (x.1 + slotWidth - 1) h
      rw [Nat.mul_comm] at hdm
      omega
  exact hspan.trans (Nat.le_add_right _ _)

/-- **When a frame layout keeps what it is for.**  For every target, every calling convention whose
stack alignment is a power of two greater than what a call pushes, and every request whose
alignments are powers of two: the zones of the layout lie apart in the frame, every register fits
its slot, rounding an alloca's address at run time stays in its reservation, and the stack pointer
is aligned at calls, exactly if what a call pushes, taken twice, does no harm. -/
theorem computeFrameLayout_kept_iff (registers : List (LirRegClass × ℕ)) (cc : FrameConvention)
    (req : FrameRequest) {l : FrameLayout} (hA : IsPow2 cc.stackAlignment)
    (hP : cc.callPushBytes < cc.stackAlignment)
    (hd : ∀ x ∈ req.allocas, x.2 = 0 ∨ IsPow2 x.2)
    (hmax : ∀ x ∈ req.allocas, x.2 ≤ req.maxLocalAlign)
    (hm : req.maxLocalAlign = 0 ∨ IsPow2 req.maxLocalAlign)
    (hl : computeFrameLayout registers cc req = some l) :
    FrameKept registers cc req l ↔
      PushedTwice cc req (frameSlotStride registers req.occupants) := by
  simp only [computeFrameLayout] at hl
  split_ifs at hl with hz
  set slotWidth := frameSlotStride registers req.occupants
    with hslot
  have hl := (Option.some.inj hl).symm
  have hsize : l.slotSize = slotWidth := by rw [hl]; rfl
  have hpacked : Packed 0 l.totalFrameSize (l.zones cc req) := by
    rw [hl]
    exact packed_zones hA.pos
  have hround : ∀ x ∈ req.allocas.zip l.allocaSlotOffsets, 0 < x.1.2 →
      ((∀ entry : ℤ, (cc.stackAlignment : ℤ) ∣ entry + cc.callPushBytes →
        roundedUp (entry - l.totalFrameSize + x.2) x.1.2 + ownBytes l.slotSize x.1.1 ≤
          entry - l.totalFrameSize + x.2 + reservation l.slotSize cc.stackAlignment x.1) ↔
      2 * cc.callPushBytes % min x.1.2 cc.stackAlignment + ownBytes l.slotSize x.1.1 ≤
        allocaSlotCount x.1.1 l.slotSize * l.slotSize) := by
    intro x hx hpos
    have hxm : x.1 ∈ req.allocas := (List.of_mem_zip hx).1
    have hxp : IsPow2 x.1.2 := (hd _ hxm).resolve_left (by omega)
    have htotal : l.totalFrameSize % cc.stackAlignment = cc.callPushBytes := by
      rw [hl]
      exact total_mod hP (.inr (hpos.trans_le (hmax _ hxm)))
    have hoff : min x.1.2 cc.stackAlignment ∣ x.2 := by
      rw [hl] at hx
      exact dvd_offset hA hd hmax hm hx hpos
    simp only [roundedUp, reservation]
    constructor
    · intro h
      obtain ⟨entry, he, hr⟩ := exists_rounding hA hxp htotal hoff
      have hle := h entry he
      rw [hr] at hle
      push_cast at hle
      have : ((2 * cc.callPushBytes % min x.1.2 cc.stackAlignment + ownBytes l.slotSize x.1.1 : ℕ) :
          ℤ) ≤ (allocaSlotCount x.1.1 l.slotSize * l.slotSize : ℕ) := by
        push_cast
        linarith
      exact_mod_cast this
    · intro h entry he
      have hdvd : ((min x.1.2 cc.stackAlignment : ℕ) : ℤ) ∣
          entry - l.totalFrameSize + x.2 + 2 * cc.callPushBytes := by
        have hA' : ((min x.1.2 cc.stackAlignment : ℕ) : ℤ) ∣ cc.stackAlignment := by
          exact_mod_cast (hxp.min hA).dvd hA (min_le_right _ _)
        have hsum : entry - l.totalFrameSize + x.2 + 2 * cc.callPushBytes =
            (entry + cc.callPushBytes) - (l.totalFrameSize - cc.callPushBytes) + x.2 := by ring
        rw [hsum]
        exact dvd_add (dvd_sub (hA'.trans he) (hA'.trans (dvd_sub_of_mod htotal)))
          (by exact_mod_cast hoff)
      have hr := rounding_le hA hxp hdvd
      have h' : ((2 * cc.callPushBytes % min x.1.2 cc.stackAlignment +
          ownBytes l.slotSize x.1.1 : ℕ) : ℤ) ≤
          (allocaSlotCount x.1.1 l.slotSize * l.slotSize : ℕ) := by exact_mod_cast h
      push_cast at h' hr ⊢
      linarith
  rw [← hsize]
  constructor
  · intro h
    refine ⟨fun hc => ?_, fun x hx hpos => ?_⟩
    · have htotal : l.totalFrameSize % cc.stackAlignment = cc.callPushBytes := by
        rw [hl]
        exact total_mod hP (.inl hc)
      exact (calls_aligned_iff htotal).mp (h.aligned hc)
    · have hlen : req.allocas.length = l.allocaSlotOffsets.length := by
        rw [hl]
        simp only [frameLayoutOf, List.length_map, length_localOffsets]
      obtain ⟨offset, hmem⟩ := exists_mem_zip hlen hx
      exact (hround _ hmem hpos).mp (h.rounds _ hmem hpos)
  · intro h
    refine ⟨hpacked.2.1, fun z hz => (hpacked.2.2 z hz).2, fun cls hc r hr hrc => ?_, fun x _ => ?_,
      fun x hx hpos => (hround x hx hpos).mpr (h.2 x.1 (List.of_mem_zip hx).1 hpos), fun hc => ?_⟩
    · rw [hsize, hslot]
      exact (le_widthForClass hr).trans (hrc ▸ width_le_frameSlotStride hc)
    · rw [hsize]
      exact ownBytes_le _ _ _ (Nat.pos_of_ne_zero hz)
    · have htotal : l.totalFrameSize % cc.stackAlignment = cc.callPushBytes := by
        rw [hl]
        exact total_mod hP (.inl hc)
      exact (calls_aligned_iff htotal).mpr (h.1 hc)

/-- A function with calls, a saved register, an alloca of 40 bytes and one aligned to 64. -/
def smallRequest : FrameRequest where
  savedRegs := [⟨3, true, .gpr⟩]
  spilled := [.fpr]
  numSpillSlots := 1
  hasCalls := true
  outgoingArgSlots := 1
  allocaPayloads := [40, 64]
  perAllocaAligns := [0, 64]
  vaRegSaveAreaBytes := 0
  maxLocalAlign := 64

/-- General registers of eight bytes, floating-point ones of sixteen. -/
def smallRegisters : List (LirRegClass × ℕ) := [(.gpr, 8), (.fpr, 16)]

theorem computeFrameLayout_kept_iff_eight :
    ∃ l, computeFrameLayout smallRegisters ⟨16, 32, 8, 0⟩ smallRequest = some l ∧
      FrameKept smallRegisters ⟨16, 32, 8, 0⟩ smallRequest l := by
  refine ⟨_, rfl, ?_⟩
  refine (computeFrameLayout_kept_iff smallRegisters ⟨16, 32, 8, 0⟩ smallRequest
    ⟨4, rfl⟩ (by decide)
    ?_ (by decide) (.inr ⟨6, rfl⟩) rfl).mpr ⟨by decide, by decide⟩
  intro x hx
  have hx : x = (40, 0) ∨ x = (64, 64) := by
    simpa [FrameRequest.allocas, smallRequest] using hx
  rcases hx with rfl | rfl
  · exact .inl rfl
  · exact .inr ⟨6, rfl⟩

/-- A call pushes four bytes of a stack aligned to sixteen: from an aligned call, the next one is
made eight bytes off. -/
theorem computeFrameLayout_fourPushed :
    ∃ l, computeFrameLayout smallRegisters ⟨16, 32, 4, 0⟩ smallRequest = some l ∧
      ¬FrameKept smallRegisters ⟨16, 32, 4, 0⟩ smallRequest l := by
  refine ⟨_, rfl, fun h => ?_⟩
  exact absurd (h.aligned rfl (-4) (by decide)) (by decide)

end DssPrime
