import DssPrime.Opt.ConstFoldReading

/-!
# What constant folding computes

`opcodeResult` is the result an opcode is defined to have on `N`-bit patterns: the opcode, and
nothing else, says how the operands are read. The fold reads them as their cores say.
-/

namespace DssPrime.ConstFold

open Bits

variable {N M : ℕ}

def Agrees (op : MirOpcode) (uns s₁ s₂ : Bool) (x : BitVec N) (y : BitVec M) : Prop :=
  match op with
  | .sDiv | .sMod | .iCmpSlt | .iCmpSle | .iCmpSgt | .iCmpSge =>
    widen 64 s₁ x = widen 64 true x ∧ widen 64 s₂ y = widen 64 true y ∧
      (uns = true → x.msb = false ∧ y.msb = false)
  | .aShr => widen 64 s₁ x = widen 64 true x ∧ (uns = true → x.msb = false)
  | .lShr => widen 64 s₁ x = widen 64 false x
  | .uDiv | .uMod => widen 64 s₁ x = widen 64 false x ∧ widen 64 s₂ y = widen 64 false y
  | .iCmpEq | .iCmpNe | .iCmpUlt | .iCmpUle | .iCmpUgt | .iCmpUge =>
    ∃ s, widen 64 s₁ x = widen 64 s x ∧ widen 64 s₂ y = widen 64 s y
  | _ => True

theorem toNat_widen_of_count (h : M ≤ 64) {s : Bool} {y : BitVec M}
    (hc : ¬ ((widen 64 s y).toInt < 0 ∨ 64 ≤ (widen 64 s y).toInt)) :
    (widen 64 s y).toNat = y.toNat := by
  cases s with
  | false => exact toNat_widen_false h y
  | true =>
    have hm : y.msb = false := by
      rw [BitVec.msb_eq_toInt, decide_eq_false_iff_not, ← toInt_widen_true h]
      omega
    rw [widen_eq_of_msb hm true false, toNat_widen_false h]

section Right

variable {op : MirOpcode} {uns s₁ s₂ : Bool} {r : BitVec 64}

def RightResult (op : MirOpcode) (x : BitVec N) (y : BitVec M) (r : BitVec 64) : Prop :=
  match opcodeResult op x y with
  | some (.inl z) => r.setWidth N = z
  | some (.inr t) => r = boolBits t
  | none => False

theorem code64_shift {x : BitVec N} {y : BitVec M} (hN : N ≤ 64) (hM : M ≤ 64)
    (hs : isShift op = true) (h : Agrees op uns s₁ s₂ x y)
    (hr : code64 op uns (widen 64 s₁ x) (widen 64 s₂ y) = some r) : RightResult op x y r := by
  cases op <;> simp only [isShift] at hs <;> try exact absurd hs (by decide)
  case shl =>
    simp only [code64, isUnsignedOp, binaryOpKind, Bool.false_eq_true, if_false, Option.bind_some,
      rawBinaryInt] at hr
    split_ifs at hr with hc
    rw [RightResult, ← Option.some.inj hr, toNat_widen_of_count hM hc]
    simp only [opcodeResult]
    rw [BitVec.setWidth_shiftLeft_of_le hN, setWidth_widen hN]
  case lShr =>
    simp only [code64, isUnsignedOp, if_true, rawUnsigned] at hr
    split_ifs at hr with hc
    rw [RightResult, ← Option.some.inj hr, toNat_widen_of_count hM hc]
    simp only [opcodeResult]
    rw [show widen 64 s₁ x = widen 64 false x from h, ushiftRight_widen hN]
  case aShr =>
    obtain ⟨hx, hu⟩ := h
    simp only [code64, isUnsignedOp, binaryOpKind, Bool.false_eq_true, if_false, Option.bind_some,
      rawBinaryInt] at hr
    split_ifs at hr with hc hun
    · rw [RightResult, ← Option.some.inj hr, toNat_widen_of_count hM hc]
      simp only [opcodeResult]
      rw [widen_eq_of_msb (hu hun) s₁ false, ushiftRight_widen hN,
        BitVec.sshiftRight_eq_of_msb_false (hu hun)]
    · rw [RightResult, ← Option.some.inj hr, toNat_widen_of_count hM hc]
      simp only [opcodeResult]
      rw [hx, sshiftRight_widen hN]

theorem code64_right {x y : BitVec N} (hN : N ≤ 64) (hop : (opcodeResult op x y).isSome)
    (h : Agrees op uns s₁ s₂ x y)
    (hr : code64 op uns (widen 64 s₁ x) (widen 64 s₂ y) = some r) : RightResult op x y r := by
  cases op <;> simp only [opcodeResult, Option.isSome_none, Bool.false_eq_true] at hop
  case shl => exact code64_shift hN hN rfl h hr
  case lShr => exact code64_shift hN hN rfl h hr
  case aShr => exact code64_shift hN hN rfl h hr
  all_goals
    simp only [code64, isUnsignedOp, binaryOpKind, Bool.false_eq_true, if_false, if_true,
      Option.bind_some, rawBinaryInt, rawUnsigned] at hr
    simp only [RightResult, opcodeResult, BitVec.setWidth_eq]
  case add =>
    rw [← Option.some.inj hr, BitVec.setWidth_add _ _ hN, setWidth_widen hN, setWidth_widen hN]
  case sub =>
    rw [← Option.some.inj hr, BitVec.sub_eq_add_neg, BitVec.setWidth_add _ _ hN,
      BitVec.setWidth_neg_of_le hN, setWidth_widen hN, setWidth_widen hN, ← BitVec.sub_eq_add_neg]
  case mul =>
    rw [← Option.some.inj hr, BitVec.setWidth_mul _ _ hN, setWidth_widen hN, setWidth_widen hN]
  case and =>
    rw [← Option.some.inj hr, BitVec.setWidth_and, setWidth_widen hN, setWidth_widen hN]
  case or =>
    rw [← Option.some.inj hr, BitVec.setWidth_or, setWidth_widen hN, setWidth_widen hN]
  case xor =>
    rw [← Option.some.inj hr, BitVec.setWidth_xor, setWidth_widen hN, setWidth_widen hN]
  case sDiv =>
    obtain ⟨hx, hy, hu⟩ := h
    split_ifs at hr with h0 hun hov
    · rw [← Option.some.inj hr, widen_eq_of_msb (hu hun).1 s₁ false,
        widen_eq_of_msb (hu hun).2 s₂ false,
        udiv_widen hN, sdiv_eq_of_msb (hu hun).1 (hu hun).2]
    · rw [← Option.some.inj hr, hx, hy, sdiv_widen hN]
  case sMod =>
    obtain ⟨hx, hy, hu⟩ := h
    split_ifs at hr with h0 hun hov
    · rw [← Option.some.inj hr, widen_eq_of_msb (hu hun).1 s₁ false,
        widen_eq_of_msb (hu hun).2 s₂ false,
        umod_widen hN, srem_eq_of_msb (hu hun).1 (hu hun).2]
    · rw [← Option.some.inj hr, hx, hy, srem_widen hN]
  case uDiv =>
    split_ifs at hr with h0
    rw [← Option.some.inj hr, h.1, h.2, udiv_widen hN]
  case uMod =>
    split_ifs at hr with h0
    rw [← Option.some.inj hr, h.1, h.2, umod_widen hN]
  case iCmpEq =>
    obtain ⟨s, hx, hy⟩ := h
    rw [← Option.some.inj hr, hx, hy, beq_widen hN]
  case iCmpNe =>
    obtain ⟨s, hx, hy⟩ := h
    rw [← Option.some.inj hr, hx, hy, bne, bne, beq_widen hN]
  case iCmpUlt =>
    obtain ⟨s, hx, hy⟩ := h
    rw [← Option.some.inj hr, hx, hy, ult_widen hN]
  case iCmpUle =>
    obtain ⟨s, hx, hy⟩ := h
    rw [← Option.some.inj hr, hx, hy, ule_widen hN]
  case iCmpUgt =>
    obtain ⟨s, hx, hy⟩ := h
    rw [← Option.some.inj hr, hx, hy, ult_widen hN]
  case iCmpUge =>
    obtain ⟨s, hx, hy⟩ := h
    rw [← Option.some.inj hr, hx, hy, ule_widen hN]
  case iCmpSlt =>
    obtain ⟨hx, hy, hu⟩ := h
    rw [← Option.some.inj hr]
    split_ifs with hun
    · rw [widen_eq_of_msb (hu hun).1 s₁ false, widen_eq_of_msb (hu hun).2 s₂ false, ult_widen hN,
        slt_eq_of_msb (hu hun).1 (hu hun).2]
    · rw [hx, hy, slt_widen hN]
  case iCmpSle =>
    obtain ⟨hx, hy, hu⟩ := h
    rw [← Option.some.inj hr]
    split_ifs with hun
    · rw [widen_eq_of_msb (hu hun).1 s₁ false, widen_eq_of_msb (hu hun).2 s₂ false, ule_widen hN,
        sle_eq_of_msb (hu hun).1 (hu hun).2]
    · rw [hx, hy, sle_widen hN]
  case iCmpSgt =>
    obtain ⟨hx, hy, hu⟩ := h
    rw [← Option.some.inj hr]
    split_ifs with hun
    · rw [widen_eq_of_msb (hu hun).1 s₁ false, widen_eq_of_msb (hu hun).2 s₂ false, ult_widen hN,
        slt_eq_of_msb (hu hun).2 (hu hun).1]
    · rw [hx, hy, slt_widen hN]
  case iCmpSge =>
    obtain ⟨hx, hy, hu⟩ := h
    rw [← Option.some.inj hr]
    split_ifs with hun
    · rw [widen_eq_of_msb (hu hun).1 s₁ false, widen_eq_of_msb (hu hun).2 s₂ false, ule_widen hN,
        sle_eq_of_msb (hu hun).2 (hu hun).1]
    · rw [hx, hy, sle_widen hN]

end Right

/-- The opcode and the kinds of its operands fit: the cores make the fold read every operand as
the opcode does. -/
def KindsFit (op : MirOpcode) (A B : ConstShape) (N : ℕ) (sA sB : Bool) : Prop :=
  match op with
  | .add => ¬ (A = .std .bool ∧ B.isBitInt = true)
  | .sDiv | .sMod =>
    (sA = true ∧ sB = true) ∨ N = 1 ∨ (N = 64 ∧ (A.isBitInt = true ∨ B.isBitInt = true))
  | .iCmpSlt | .iCmpSle | .iCmpSgt | .iCmpSge =>
    (sA = true ∧ sB = true) ∨ (N = 64 ∧ (A.isBitInt = true ∨ B.isBitInt = true))
  | .aShr => sA = true ∨ (N = 64 ∧ A.isBitInt = true)
  | .lShr => sA = false ∨ N = 64
  | .uDiv | .uMod => (sA = false ∧ sB = false) ∨ N = 64
  | .iCmpEq | .iCmpNe =>
    sA = sB ∨ N = 64 ∨ (N = 32 ∧ A.isBitInt = false ∧ B.isBitInt = false)
  | .iCmpUlt | .iCmpUle | .iCmpUgt | .iCmpUge => sA = sB ∨ N = 64
  | _ => True

section Fits

variable {ch : Option Bool} {A B : ConstShape} {sA sB sR : Bool} {W : ℕ} {op : MirOpcode}
  {kR : TypeKind} {a b : HirLiteralValue} {r : BitVec 64}

theorem agrees_of_msb {x : BitVec N} {y : BitVec M} (hx : x.msb = false)
    (hy : isShift op = false → y.msb = false) (uns s₁ s₂ : Bool) : Agrees op uns s₁ s₂ x y := by
  cases op <;> simp only [Agrees]
  case sDiv | sMod | iCmpSlt | iCmpSle | iCmpSgt | iCmpSge =>
    exact ⟨widen_eq_of_msb hx _ _, widen_eq_of_msb (hy rfl) _ _, fun _ => ⟨hx, hy rfl⟩⟩
  case aShr => exact ⟨widen_eq_of_msb hx _ _, fun _ => hx⟩
  case lShr => exact widen_eq_of_msb hx _ _
  case uDiv | uMod => exact ⟨widen_eq_of_msb hx _ _, widen_eq_of_msb (hy rfl) _ _⟩
  all_goals exact ⟨true, widen_eq_of_msb hx _ _, widen_eq_of_msb (hy rfl) _ _⟩

theorem reading_signed (hu : isUnsignedOp op = false) (hs : isShift op = false) :
    reading op A B N true true = (false, true, true) := by
  rw [reading, hu, hs]
  split_ifs <;> rfl

theorem reading_bitInt (hs : isShift op = false)
    (hb : A.isBitInt = true ∨ B.isBitInt = true) :
    reading op A B N sA sB = (false, sA, sB) :=
  reading_of_narrow (.inl (by rcases hb with h | h <;> simp [h, hs]))

theorem agrees_of_kindsFit (hf : KindsFit op A B N sA sB)
    (h1 : ¬ (N = 1 ∧ (op = .sDiv ∨ op = .sMod))) (hM : isShift op = false → M = N)
    (x : BitVec N) (y : BitVec M) :
    Agrees op (reading op A B N sA sB).1 (reading op A B N sA sB).2.1
      (reading op A B N sA sB).2.2 x y := by
  have hsigned : isUnsignedOp op = false → isShift op = false →
      ((sA = true ∧ sB = true) ∨ (N = 64 ∧ (A.isBitInt = true ∨ B.isBitInt = true))) →
      widen 64 (reading op A B N sA sB).2.1 x = widen 64 true x ∧
        widen 64 (reading op A B N sA sB).2.2 y = widen 64 true y ∧
        ((reading op A B N sA sB).1 = true → x.msb = false ∧ y.msb = false) := by
    rintro hu hs (⟨rfl, rfl⟩ | ⟨rfl, hb⟩)
    · rw [reading_signed hu hs]
      exact ⟨rfl, rfl, by simp⟩
    · obtain rfl := hM hs
      rw [reading_bitInt hs hb]
      exact ⟨by simp only [widen_self], by simp only [widen_self], by simp⟩
  have hunsigned : isUnsignedOp op = true → reading op A B N sA sB = (false, sA, sB) := fun hu =>
    reading_of_narrow (.inl (by rw [hu]; rfl))
  cases op <;> simp only [KindsFit] at hf <;> simp only [Agrees]
  case sDiv | sMod =>
    refine hsigned rfl rfl ?_
    rcases hf with hf | hf | hf
    · exact .inl hf
    · exact absurd ⟨hf, by simp⟩ h1
    · exact .inr hf
  case iCmpSlt | iCmpSle | iCmpSgt | iCmpSge => exact hsigned rfl rfl hf
  case aShr =>
    rcases hf with rfl | ⟨rfl, hb⟩
    · rw [reading]
      split_ifs
      · exact ⟨rfl, by simp⟩
      · exact ⟨rfl, by simp⟩
      · exact absurd rfl ‹¬ isShift .aShr = true›
    · rw [reading_of_narrow (.inl (by simp [hb]))]
      exact ⟨by simp only [widen_self], by simp⟩
  case lShr =>
    rw [hunsigned rfl]
    rcases hf with rfl | rfl
    · rfl
    · simp only [widen_self]
  case uDiv | uMod =>
    rw [hunsigned rfl]
    rcases hf with ⟨rfl, rfl⟩ | rfl
    · exact ⟨rfl, rfl⟩
    · obtain rfl := hM rfl
      exact ⟨by simp only [widen_self], by simp only [widen_self]⟩
  case iCmpUlt | iCmpUle | iCmpUgt | iCmpUge =>
    rw [hunsigned rfl]
    rcases hf with rfl | rfl
    · exact ⟨sA, rfl, rfl⟩
    · obtain rfl := hM rfl
      exact ⟨true, by simp only [widen_self], by simp only [widen_self]⟩
  case iCmpEq | iCmpNe =>
    rcases hf with rfl | rfl | ⟨rfl, hA, hB⟩
    · rw [reading]
      split_ifs
      · exact ⟨sA, rfl, rfl⟩
      · exact absurd ‹isShift _ = true› (by decide)
      · exact ⟨_, rfl, rfl⟩
    · obtain rfl := hM rfl
      exact ⟨true, by simp only [widen_self], by simp only [widen_self]⟩
    · rw [reading, hA, hB]
      exact ⟨_, rfl, rfl⟩

theorem unsigned_of_one {s : Bool} (h : A.info ch = some ⟨1, s⟩) : s = false := by
  cases A with
  | std core =>
    have := intKindInfo_cases h (by omega)
    simpa using this
  | bitInt w s' =>
    rw [ConstShape.info] at h
    cases s' <;> simp at h <;> simp [h]
    omega

theorem oneBit_results : ∀ x y : BitVec 1,
    ((code64 .sDiv false (widen 64 false x) (widen 64 false y)).all
      fun r => r.setWidth 1 == x.sdiv y) = true ∧
    ((code64 .sMod false (widen 64 false x) (widen 64 false y)).all
      fun r => r.setWidth 1 == x.srem y) = true ∧
    (∀ op ∈ [MirOpcode.sub, .mul, .sDiv, .sMod, .and, .or, .xor, .uDiv, .uMod],
      ((code64 op false (widen 64 false x) (widen 64 false y)).all
        fun r => boolBits (r != 0#64) == widen 64 false (r.setWidth 1)) = true) := by
  decide

theorem eq_zero_of_msb {x : BitVec 1} (h : x.msb = false) : x = 0#1 := by
  revert h
  revert x
  decide

theorem boolBits_widen_one :
    ∀ z : BitVec 1, boolBits (widen 64 false z != 0#64) = widen 64 false z := by
  decide

theorem boolBits_eq_of_bool {x : BitVec 1} {y : BitVec M} (hcmp : isCompare op = false)
    (hM : isShift op = false → M = 1) (hM' : M ≤ 64)
    (hs : isUnsignedOp op = true ∨ isShift op = false)
    (hadd : op = .add → x.msb = false ∧ y.msb = false) (hop : (opcodeResult op x y).isSome)
    (hr : code64 op false (widen 64 false x) (widen 64 sB y) = some r) (hsB : M = 1 → sB = false) :
    boolBits (r != 0#64) = widen 64 false (r.setWidth 1) := by
  by_cases hshift : isShift op = true
  · have hop' : op = .lShr := by
      have := hs.resolve_right (by simp [hshift])
      cases op <;> first | rfl | exact absurd hshift (by decide) | exact absurd this (by decide)
    subst hop'
    simp only [code64, isUnsignedOp, if_true, rawUnsigned] at hr
    split_ifs at hr with hc
    have hz : r = widen 64 false (x >>> (widen 64 sB y).toNat) := by
      rw [← Option.some.inj hr]
      apply BitVec.eq_of_toNat_eq
      rw [BitVec.toNat_ushiftRight, toNat_widen_false (by omega), toNat_widen_false (by omega),
        BitVec.toNat_ushiftRight]
    rw [hz, setWidth_widen (by omega), boolBits_widen_one]
  · rw [Bool.not_eq_true] at hshift
    obtain rfl := hM hshift
    obtain rfl := hsB rfl
    have hall := (oneBit_results x y).2.2 op
    rw [hr] at hall
    cases op <;> simp only [opcodeResult, Option.isSome_none, Bool.false_eq_true] at hop
    case add =>
      obtain ⟨hx, hy⟩ := hadd rfl
      obtain rfl := eq_zero_of_msb hx
      obtain rfl := eq_zero_of_msb hy
      obtain rfl : 0#64 = r := Option.some.inj hr
      rfl
    case shl | lShr | aShr => exact absurd hshift (by decide)
    case sub | mul | sDiv | sMod | and | or | xor | uDiv | uMod =>
      simpa using hall (by simp)
    all_goals exact absurd hcmp (by decide)

theorem finish_right {x : BitVec N} {y : BitVec M} (hty : WellTyped ch op A B kR N M W sA sB sR)
    (hadd : op = .add → A = .std .bool → B.isBitInt = true → x.msb = false ∧ y.msb = false)
    (hop : (opcodeResult op x y).isSome)
    (hr : code64 op (reading op A B N sA sB).1 (widen 64 (reading op A B N sA sB).2.1 x)
      (widen 64 (reading op A B N sA sB).2.2 y) = some r) (hright : RightResult op x y r) :
    some (finish op A B sR N r) = (opcodeResult op x y).map (renormalise sR) := by
  cases hcmp : isCompare op with
  | true =>
    rw [finish, hcmp, if_pos rfl]
    cases op <;> simp only [isCompare, Bool.false_eq_true] at hcmp <;>
      exact congrArg some hright
  | false =>
    have hz : ∃ z, opcodeResult op x y = some (.inl z) ∧ r.setWidth N = z := by
      cases op <;> first
        | exact ⟨_, rfl, hright⟩
        | exact absurd hcmp (by decide)
        | exact absurd hop (by simp [opcodeResult])
    obtain ⟨z, hz, hrz⟩ := hz
    rw [hz, finish, hcmp, if_neg (by simp)]
    split_ifs with hb
    · -- The left operand is a truth value and the literal's core is kept.
      obtain ⟨rfl, hb⟩ := hb
      have hleft := hty.left
      simp only [ConstShape.info, intKindInfo, Option.some.injEq, IntKindInfo.mk.injEq] at hleft
      obtain ⟨rfl, rfl⟩ := hleft
      obtain rfl := hty.width hcmp
      have hsR : sR = false := unsigned_of_one (A := .std kR) hty.result
      subst hsR
      rw [Bool.or_eq_true, Bool.and_eq_true, Bool.not_eq_true'] at hb
      rw [reading_of_narrow (.inr (by omega))] at hr
      rw [Option.map_some, renormalise, ← hrz]
      refine congrArg some (boolBits_eq_of_bool hcmp hty.same hty.bound.2.1 (hb.imp_right And.right)
        (fun h => hadd h rfl ?_) hop hr fun h => ?_)
      · subst h
        exact (hb.resolve_left (by decide)).1
      · subst h
        exact unsigned_of_one hty.right
    · rw [hrz]
      rfl

def Fits (op : MirOpcode) (A B : ConstShape) (sA sB : Bool) (x : BitVec N) (y : BitVec M) : Prop :=
  KindsFit op A B N sA sB ∨ (x.msb = false ∧ (isShift op = false → y.msb = false))

theorem code64_right_of_fits {x : BitVec N} {y : BitVec M}
    (hty : WellTyped ch op A B kR N M W sA sB sR) (hop : (opcodeResult op x y).isSome)
    (hf : Fits op A B sA sB x y)
    (hr : code64 op (reading op A B N sA sB).1 (widen 64 (reading op A B N sA sB).2.1 x)
      (widen 64 (reading op A B N sA sB).2.2 y) = some r) : RightResult op x y r := by
  by_cases h1 : KindsFit op A B N sA sB ∧ N = 1 ∧ (op = .sDiv ∨ op = .sMod)
  · obtain ⟨-, rfl, h1⟩ := h1
    have hs : isShift op = false := by rcases h1 with rfl | rfl <;> rfl
    obtain rfl := hty.same hs
    obtain rfl := unsigned_of_one hty.left
    obtain rfl := unsigned_of_one hty.right
    rw [reading_of_narrow (.inr (by omega))] at hr
    rcases h1 with rfl | rfl
    · have := (oneBit_results x y).1
      rw [hr] at this
      simpa [RightResult, opcodeResult] using this
    · have := (oneBit_results x y).2.1
      rw [hr] at this
      simpa [RightResult, opcodeResult] using this
  · have hag : Agrees op (reading op A B N sA sB).1 (reading op A B N sA sB).2.1
        (reading op A B N sA sB).2.2 x y := by
      rcases hf with hf | hf
      · exact agrees_of_kindsFit hf (fun h => h1 ⟨hf, h⟩) hty.same x y
      · exact agrees_of_msb hf.1 hf.2 _ _ _
    cases hs : isShift op with
    | true => exact code64_shift hty.bound.1 hty.bound.2.1 hs hag hr
    | false =>
      obtain rfl := hty.same hs
      exact code64_right hty.bound.1 hop hag hr

theorem normalizeToType_isSome {v w : HirLiteralValue} (h : normalizeToType v kR ch = some w) :
    (asInt64 w).isSome := by
  rw [normalizeToType] at h
  split_ifs at h
  · rw [← Option.some.inj h]
    rfl
  · simp only [Option.bind_eq_bind, Option.bind_eq_some_iff, Option.pure_def,
      Option.some.injEq] at h
    obtain ⟨ik, -, iv, -, rfl⟩ := h
    rfl

theorem foldBinary_reads {v : HirLiteralValue} (h : foldBinary op a b kR ch = some v) :
    (readOperand op a).isSome ∧ (readOperand op b).isSome ∧ (asInt64 v).isSome := by
  rw [foldBinary] at h
  rw [readOperand, readOperand]
  split_ifs at h ⊢ with hu
  · simp only [Option.bind_eq_bind, Option.bind_eq_some_iff, foldUnsigned] at h
    obtain ⟨f, ⟨av, ha, bv, hb, -⟩, hn⟩ := h
    exact ⟨by rw [ha]; rfl, by rw [hb]; rfl, normalizeToType_isSome hn⟩
  · simp only [Option.bind_eq_bind, Option.bind_eq_some_iff, applyBinaryInt] at h
    obtain ⟨k, -, f, ⟨av, ha, bv, hb, -⟩, hn⟩ := h
    exact ⟨by rw [ha]; rfl, by rw [hb]; rfl, normalizeToType_isSome hn⟩

theorem IsConst.readOperand_eq {s : Bool} {x : BitVec N} (h : IsConst A s x a) (hN : N ≤ 64)
    (hr : (readOperand op a).isSome) : readOperand op a = some (widen 64 s x) := by
  obtain ⟨v, hv⟩ := Option.isSome_iff_exists.1 hr
  rw [hv]
  rw [readOperand] at hv
  split_ifs at hv
  · rw [h.asInt64_eq hN hv]
  · rw [h.asIntBits_eq hN hv]

/-- **Operands that fit are folded right.** -/
theorem foldBinary_right {x : BitVec N} {y : BitVec M}
    (hty : WellTyped ch op A B kR N M W sA sB sR) (hop : (opcodeResult op x y).isSome)
    (ha : IsConst A sA x a) (hb : IsConst B sB y b) (hf : Fits op A B sA sB x y)
    {v : HirLiteralValue} (hv : foldBinary op a b kR ch = some v) :
    asInt64 v = (opcodeResult op x y).map (renormalise sR) := by
  obtain ⟨ra, rb, rv⟩ := foldBinary_reads hv
  have heq := foldBinary_eq hty hop ha hb (ha.readOperand_eq hty.bound.1 ra)
    (hb.readOperand_eq hty.bound.2.1 rb)
  rw [hv, Option.bind_some] at heq
  rw [heq, Option.isSome_map] at rv
  obtain ⟨r, hr⟩ := Option.isSome_iff_exists.1 rv
  rw [heq, hr, Option.map_some]
  refine finish_right hty (fun hadd hA hB => ?_) hop hr (code64_right_of_fits hty hop hf hr)
  subst hadd
  rcases hf with hf | hf
  · exact absurd ⟨hA, hB⟩ hf
  · exact ⟨hf.1, hf.2 rfl⟩

end Fits

instance (op : MirOpcode) (x : BitVec N) (y : BitVec M) (r : BitVec 64) :
    Decidable (RightResult op x y r) :=
  match h : opcodeResult op x y with
  | some (.inl z) => decidable_of_iff (r.setWidth N = z) (by rw [RightResult, h])
  | some (.inr t) => decidable_of_iff (r = boolBits t) (by rw [RightResult, h])
  | none => isFalse (by rw [RightResult, h]; exact not_false)

/-- The operation runs on these operands and its result is wrong. -/
def Misread (op : MirOpcode) (uns s₁ s₂ : Bool) (x : BitVec N) (y : BitVec M) : Prop :=
  ((code64 op uns (widen 64 s₁ x) (widen 64 s₂ y)).any
    fun r => !decide (RightResult op x y r)) = true

instance (op : MirOpcode) (uns s₁ s₂ : Bool) (x : BitVec N) (y : BitVec M) :
    Decidable (Misread op uns s₁ s₂ x y) := inferInstanceAs (Decidable (_ = true))

theorem misread_sDiv : ∀ N ∈ [8, 16, 32, 64], ∀ op ∈ [MirOpcode.sDiv, .sMod], ∀ s : Bool,
    (N ≠ 64 → Misread op false false s (BitVec.allOnes N) (2#N)) ∧
    (N ≠ 64 → Misread op false true false (1#N) (BitVec.allOnes N)) ∧
    Misread op true false false (BitVec.allOnes N) (2#N) := by
  decide

theorem misread_uDiv : ∀ N ∈ [8, 16, 32], ∀ s : Bool,
    Misread .uDiv false true s (BitVec.allOnes N) (2#N) ∧
    Misread .uMod false true s (BitVec.allOnes N) (100#N) ∧
    Misread .uDiv false false true (BitVec.allOnes N) (BitVec.allOnes N) ∧
    Misread .uMod false false true (BitVec.allOnes N) (BitVec.allOnes N) := by
  decide

theorem misread_shr :
    (∀ N ∈ [1, 8, 16, 32], Misread .aShr false false false (BitVec.allOnes N) (1#1)) ∧
    (∀ N ∈ [32, 64], Misread .aShr true false false (BitVec.allOnes N) (1#1)) ∧
    (∀ N ∈ [8, 16, 32], Misread .lShr false true false (BitVec.allOnes N) (1#1)) := by
  decide

theorem misread_signedCompare : ∀ N : Fin 64, 1 ≤ N.1 →
    ∀ op ∈ [MirOpcode.iCmpSlt, .iCmpSle, .iCmpSgt, .iCmpSge],
      (∀ s, Misread op false false s (BitVec.allOnes N.1) (0#N.1)) ∧
      Misread op false true false (0#N.1) (BitVec.allOnes N.1) := by
  decide +kernel

theorem misread_equality : ∀ N : Fin 64, 1 ≤ N.1 → ∀ op ∈ [MirOpcode.iCmpEq, .iCmpNe],
    Misread op false true false (BitVec.allOnes N.1) (BitVec.allOnes N.1) ∧
    Misread op false false true (BitVec.allOnes N.1) (BitVec.allOnes N.1) := by
  decide +kernel

theorem misread_unsignedCompare : ∀ N : Fin 64, 2 ≤ N.1 →
    ∀ op ∈ [MirOpcode.iCmpUlt, .iCmpUle, .iCmpUgt, .iCmpUge],
      Misread op false true false (BitVec.allOnes N.1 - 1#N.1) (BitVec.allOnes N.1) ∧
      Misread op false false true (BitVec.allOnes N.1) (BitVec.allOnes N.1 - 1#N.1) := by
  decide +kernel

theorem misread_unsignedDomain : ∀ N ∈ [32, 64],
    ∀ op ∈ [MirOpcode.iCmpSlt, .iCmpSle, .iCmpSgt, .iCmpSge],
      Misread op true false false (BitVec.allOnes N) (0#N) := by
  decide

section Misread

variable {ch : Option Bool} {A B : ConstShape} {sA sB sR : Bool} {W : ℕ} {op : MirOpcode}
  {kR : TypeKind} {r : BitVec 64}

def ConstShape.literal (s : Bool) (x : BitVec N) : ConstShape → HirLiteralValue
  | .std core => .int64 core (widen 64 s x)
  | .bitInt _ _ => .bitInt .bitInt N s (if s then x.toInt else x.toNat)

theorem isConst_literal {s : Bool} (h : A.info ch = some ⟨N, s⟩) (x : BitVec N) :
    IsConst A s x (A.literal s x) := by
  cases A with
  | std core => exact .int64 rfl
  | bitInt w s' =>
    rw [ConstShape.info] at h
    split_ifs at h <;> simp only [Option.some.injEq, IntKindInfo.mk.injEq] at h <;>
      exact .bitInt (by rw [h.1, h.2])

def Readable (A : ConstShape) (x : BitVec N) : Prop :=
  A.isBitInt = true → N < 64 ∨ x.msb = false

theorem asInt64_literal {s : Bool} {x : BitVec N} (hN1 : 1 ≤ N) (hN : N ≤ 64)
    (h : Readable A x) : asInt64 (A.literal s x) = some (widen 64 s x) := by
  cases A with
  | std core => rfl
  | bitInt w s' =>
    have hrange : -2 ^ 63 ≤ (if s then x.toInt else (x.toNat : ℤ)) ∧
        (if s then x.toInt else (x.toNat : ℤ)) ≤ 2 ^ 63 - 1 := by
      have hlt := x.isLt
      have hle : 2 ^ (N - 1) ≤ 2 ^ 63 := Nat.pow_le_pow_right Nat.two_pos (by omega)
      cases s with
      | true =>
        have h1 := BitVec.le_toInt x
        have h2 := BitVec.toInt_lt (x := x)
        simp only [if_true]
        constructor
        · have : ((2 ^ (N - 1) : ℕ) : ℤ) ≤ 2 ^ 63 := by exact_mod_cast hle
          push_cast at this
          omega
        · have : ((2 ^ (N - 1) : ℕ) : ℤ) ≤ 2 ^ 63 := by exact_mod_cast hle
          push_cast at this
          omega
      | false =>
        simp only [Bool.false_eq_true, if_false]
        refine ⟨by omega, ?_⟩
        rcases h rfl with h | h
        · have : 2 ^ N ≤ 2 ^ 63 := Nat.pow_le_pow_right Nat.two_pos (by omega)
          omega
        · rw [BitVec.msb_eq_false_iff_two_mul_lt] at h
          have : 2 ^ N ≤ 2 ^ 64 := Nat.pow_le_pow_right Nat.two_pos hN
          omega
    rw [ConstShape.literal, asInt64, if_pos hrange, ofInt_value hN]

theorem readOperand_literal {s : Bool} {x : BitVec N} (hN1 : 1 ≤ N) (hN : N ≤ 64)
    (h : Readable A x) : readOperand op (A.literal s x) = some (widen 64 s x) := by
  have h64 := asInt64_literal (s := s) hN1 hN h
  rw [readOperand]
  split_ifs
  · exact h64
  · cases A <;> exact h64

theorem misread_count {x : BitVec N} {s₁ uns : Bool} (hop : isShift op = true) (hM : M ≤ 64)
    (hB : B.info ch = some ⟨M, sB⟩) (h : Misread op uns s₁ false x (1#1)) :
    Misread op uns s₁ sB x (1#M) ∧ Readable B (1#M) := by
  have hM1 := ConstShape.info_pos hB
  have hnat : (1#M).toNat = 1 := by
    rw [BitVec.toNat_ofNat]
    exact Nat.mod_eq_of_lt (Nat.one_lt_two_pow (by omega))
  have hmsb : sB = true ∨ M = 64 → (1#M).msb = false := by
    intro hs
    have h2 : 2 ≤ M := by
      by_contra hlt
      obtain rfl : M = 1 := by omega
      rcases hs with hs | hs
      · rw [unsigned_of_one hB] at hs
        exact absurd hs (by decide)
      · omega
    rw [BitVec.msb_eq_false_iff_two_mul_lt, hnat]
    have : 2 ^ 2 ≤ 2 ^ M := Nat.pow_le_pow_right Nat.two_pos h2
    omega
  have hext : widen 64 sB (1#M) = widen 64 false (1#1) := by
    have h1 : widen 64 sB (1#M) = widen 64 false (1#M) := by
      cases sB with
      | false => rfl
      | true => exact widen_eq_of_msb (hmsb (.inl rfl)) _ _
    rw [h1]
    apply BitVec.eq_of_toNat_eq
    rw [toNat_widen_false hM, toNat_widen_false (by omega), hnat]
    rfl
  constructor
  · rw [Misread, hext]
    have hres : opcodeResult op x (1#M) = opcodeResult op x (1#1) := by
      cases op <;> first
        | exact absurd hop (by decide)
        | (simp only [opcodeResult, hnat]; rfl)
    have hright : ∀ r, RightResult op x (1#M) r ↔ RightResult op x (1#1) r := fun r => by
      rw [RightResult, RightResult, hres]
    simpa only [Misread, hright] using h
  · intro _
    by_cases h64 : M < 64
    · exact .inl h64
    · exact .inr (hmsb (.inr (by omega)))

def isFoldable (op : MirOpcode) : Bool := isUnsignedOp op || (binaryOpKind op).isSome

theorem opcodeResult_isSome (hop : isFoldable op = true) (x : BitVec N) (y : BitVec M) :
    (opcodeResult op x y).isSome := by
  cases op <;> first
    | rfl
    | exact absurd hop (by decide)

theorem width_cases (hty : WellTyped ch op A B kR N M W sA sB sR) (hcmp : isCompare op = false) :
    N = 1 ∨ N = 8 ∨ N = 16 ∨ N = 32 ∨ N = 64 := by
  obtain rfl := hty.width hcmp
  have hc := intKindInfo_cases hty.result hty.bound.2.2
  simp only [List.mem_cons, IntKindInfo.mk.injEq, List.not_mem_nil, or_false] at hc
  omega

theorem std_width (h : A.info ch = some ⟨N, sA⟩) (hA : A.isBitInt = false) (hN : N ≤ 64) :
    N < 32 ∨ N = 32 ∨ N = 64 := by
  cases A with
  | bitInt w s => simp [ConstShape.isBitInt] at hA
  | std core =>
    have hc := intKindInfo_cases h hN
    simp only [List.mem_cons, IntKindInfo.mk.injEq, List.not_mem_nil, or_false] at hc
    omega

theorem reading_of_not_signed (hty : WellTyped ch op A B kR N M W sA sB sR)
    (hu : isUnsignedOp op = false) (hs : isShift op = false) (hf : ¬ (sA = true ∧ sB = true))
    (h64 : ¬ (N = 64 ∧ (A.isBitInt = true ∨ B.isBitInt = true))) :
    (N < 64 ∧ ((∃ s, reading op A B N sA sB = (false, false, s)) ∨
      reading op A B N sA sB = (false, true, false))) ∨
    ((N = 32 ∨ N = 64) ∧ A.isBitInt = false ∧ B.isBitInt = false ∧
      reading op A B N sA sB = (true, false, false)) := by
  by_cases hbit : A.isBitInt = true ∨ B.isBitInt = true ∨ N < 32
  · left
    have hr : reading op A B N sA sB = (false, sA, sB) := by
      refine reading_of_narrow ?_
      rcases hbit with h | h | h
      · exact .inl (by simp [h])
      · exact .inl (by simp [h, hs])
      · exact .inr h
    have hN : N < 64 := by
      have := hty.bound.1
      rcases hbit with h | h | h
      · by_contra hge
        exact h64 ⟨by omega, .inl h⟩
      · by_contra hge
        exact h64 ⟨by omega, .inr h⟩
      · omega
    rw [hr]
    cases sA with
    | false => exact ⟨hN, .inl ⟨sB, rfl⟩⟩
    | true =>
      cases sB with
      | false => exact ⟨hN, .inr rfl⟩
      | true => exact absurd ⟨rfl, rfl⟩ hf
  · right
    rw [not_or, not_or, Bool.not_eq_true, Bool.not_eq_true, not_lt] at hbit
    obtain ⟨hA, hB, h32⟩ := hbit
    refine ⟨(std_width hty.left hA hty.bound.1).resolve_left (by omega), hA, hB, ?_⟩
    rw [reading_of_std hu hA (fun _ => hB) rfl, hs]
    have hand : (sA && sB) = false := by
      cases sA <;> cases sB <;> simp at hf ⊢
    have h32' : ¬ N < 32 := by omega
    simp [stdDomain, hand, h32']

theorem readable_of_lt {x : BitVec N} (h : N < 64) : Readable A x := fun _ => .inl h

theorem readable_of_std {x : BitVec N} (h : A.isBitInt = false) : Readable A x := fun h' => by
  rw [h] at h'
  exact absurd h' (by decide)

def MisreadsSome (op : MirOpcode) (A B : ConstShape) (N M : ℕ) (sA sB : Bool) : Prop :=
  ∃ (x : BitVec N) (y : BitVec M), Readable A x ∧ Readable B y ∧
    Misread op (reading op A B N sA sB).1 (reading op A B N sA sB).2.1
      (reading op A B N sA sB).2.2 x y

theorem misreads_signedDiv (hty : WellTyped ch op A B kR N M W sA sB sR)
    (hop : op ∈ [MirOpcode.sDiv, .sMod]) (hf : ¬ (sA = true ∧ sB = true)) (h1 : N ≠ 1)
    (h64 : ¬ (N = 64 ∧ (A.isBitInt = true ∨ B.isBitInt = true))) :
    MisreadsSome op A B N M sA sB := by
  have hs : isUnsignedOp op = false ∧ isShift op = false ∧ isCompare op = false := by
    clear hty
    revert op
    decide
  obtain rfl := hty.same hs.2.1
  have hw : M ∈ [8, 16, 32, 64] := by
    have := width_cases hty hs.2.2
    simp only [List.mem_cons, List.not_mem_nil, or_false]
    omega
  have hm := misread_sDiv M hw op hop
  rw [MisreadsSome]
  rcases reading_of_not_signed hty hs.1 hs.2.1 hf h64 with ⟨hlt, ⟨s, hr⟩ | hr⟩ |
    ⟨-, hA, hB, hr⟩ <;> rw [hr]
  · exact ⟨_, _, readable_of_lt hlt, readable_of_lt hlt, (hm s).1 (by omega)⟩
  · exact ⟨_, _, readable_of_lt hlt, readable_of_lt hlt, (hm true).2.1 (by omega)⟩
  · exact ⟨_, _, readable_of_std hA, readable_of_std hB, (hm true).2.2⟩

theorem misreads_signedCompare (hty : WellTyped ch op A B kR N M W sA sB sR)
    (hop : op ∈ [MirOpcode.iCmpSlt, .iCmpSle, .iCmpSgt, .iCmpSge])
    (hf : ¬ (sA = true ∧ sB = true))
    (h64 : ¬ (N = 64 ∧ (A.isBitInt = true ∨ B.isBitInt = true))) :
    MisreadsSome op A B N M sA sB := by
  have hs : isUnsignedOp op = false ∧ isShift op = false := by
    clear hty
    revert op
    decide
  obtain rfl := hty.same hs.2
  have hN1 := ConstShape.info_pos hty.left
  rw [MisreadsSome]
  rcases reading_of_not_signed hty hs.1 hs.2 hf h64 with ⟨hlt, ⟨s, hr⟩ | hr⟩ |
    ⟨hw, hA, hB, hr⟩ <;> rw [hr]
  · exact ⟨_, _, readable_of_lt hlt, readable_of_lt hlt,
      (misread_signedCompare ⟨M, hlt⟩ hN1 op hop).1 s⟩
  · exact ⟨_, _, readable_of_lt hlt, readable_of_lt hlt,
      (misread_signedCompare ⟨M, hlt⟩ hN1 op hop).2⟩
  · exact ⟨_, _, readable_of_std hA, readable_of_std hB,
      misread_unsignedDomain M (by simpa using hw) op hop⟩

theorem misreads_aShr (hty : WellTyped ch .aShr A B kR N M W false sB sR)
    (hf : ¬ (N = 64 ∧ A.isBitInt = true)) : MisreadsSome .aShr A B N M false sB := by
  have hN := hty.bound.1
  by_cases hbit : A.isBitInt = true ∨ N < 32
  · have hlt : N < 64 := by
      by_contra hge
      rcases hbit with h | h
      · exact hf ⟨by omega, h⟩
      · omega
    have hw : N ∈ [1, 8, 16, 32] := by
      have := width_cases hty rfl
      simp only [List.mem_cons, List.not_mem_nil, or_false]
      omega
    have hr : reading .aShr A B N false sB = (false, false, sB) :=
      reading_of_narrow (hbit.imp_left fun h => by simp [h])
    obtain ⟨hm, hrd⟩ := misread_count rfl hty.bound.2.1 hty.right (misread_shr.1 N hw)
    rw [MisreadsSome, hr]
    exact ⟨_, _, readable_of_lt hlt, hrd, hm⟩
  · rw [not_or, Bool.not_eq_true, not_lt] at hbit
    have hw : N ∈ [32, 64] := by
      simpa using (std_width hty.left hbit.1 hN).resolve_left (by omega)
    have h32 : ¬ N < 32 := by omega
    obtain ⟨hm, hrd⟩ := misread_count rfl hty.bound.2.1 hty.right (misread_shr.2.1 N hw)
    refine ⟨BitVec.allOnes N, 1#M, readable_of_std hbit.1, hrd, ?_⟩
    rw [reading_of_std rfl hbit.1 (fun h => absurd h (by decide)) rfl]
    simpa [stdDomain, h32, isShift] using hm

theorem reading_unsigned (hu : isUnsignedOp op = true) :
    reading op A B N sA sB = (false, sA, sB) :=
  reading_of_narrow (.inl (by rw [hu]; rfl))

theorem misreads_lShr (hty : WellTyped ch .lShr A B kR N M W true sB sR) (h64 : N ≠ 64) :
    MisreadsSome .lShr A B N M true sB := by
  have h1 : N ≠ 1 := by
    rintro rfl
    exact absurd (unsigned_of_one hty.left) (by decide)
  have hw : N ∈ [8, 16, 32] := by
    have := width_cases hty rfl
    simp only [List.mem_cons, List.not_mem_nil, or_false]
    omega
  obtain ⟨hm, hrd⟩ := misread_count rfl hty.bound.2.1 hty.right (misread_shr.2.2 N hw)
  have := hty.bound.1
  rw [MisreadsSome, reading_unsigned rfl]
  exact ⟨_, _, readable_of_lt (by omega), hrd, hm⟩

theorem misreads_unsignedDiv (hty : WellTyped ch op A B kR N M W sA sB sR)
    (hop : op = .uDiv ∨ op = .uMod) (hf : ¬ (sA = false ∧ sB = false)) (h64 : N ≠ 64) :
    MisreadsSome op A B N M sA sB := by
  have hs : isUnsignedOp op = true ∧ isShift op = false ∧ isCompare op = false := by
    rcases hop with rfl | rfl <;> decide
  obtain rfl := hty.same hs.2.1
  have h1 : M ≠ 1 := by
    rintro rfl
    exact hf ⟨unsigned_of_one hty.left, unsigned_of_one hty.right⟩
  have hw : M ∈ [8, 16, 32] := by
    have := width_cases hty hs.2.2
    simp only [List.mem_cons, List.not_mem_nil, or_false]
    omega
  have hlt : M < 64 := by
    have := hty.bound.1
    omega
  have hm := misread_uDiv M hw sB
  rw [MisreadsSome, reading_unsigned hs.1]
  cases sA with
  | true =>
    rcases hop with rfl | rfl
    · exact ⟨_, _, readable_of_lt hlt, readable_of_lt hlt, hm.1⟩
    · exact ⟨_, _, readable_of_lt hlt, readable_of_lt hlt, hm.2.1⟩
  | false =>
    obtain rfl : sB = true := by simpa using hf
    rcases hop with rfl | rfl
    · exact ⟨_, _, readable_of_lt hlt, readable_of_lt hlt, hm.2.2.1⟩
    · exact ⟨_, _, readable_of_lt hlt, readable_of_lt hlt, hm.2.2.2⟩

theorem misreads_equality (hty : WellTyped ch op A B kR N M W sA sB sR)
    (hop : op ∈ [MirOpcode.iCmpEq, .iCmpNe]) (hf : sA ≠ sB) (h64 : N ≠ 64)
    (h32 : ¬ (N = 32 ∧ A.isBitInt = false ∧ B.isBitInt = false)) :
    MisreadsSome op A B N M sA sB := by
  have hs : isUnsignedOp op = false ∧ isShift op = false := by
    clear hty
    revert op
    decide
  obtain rfl := hty.same hs.2
  have hN := hty.bound.1
  have hlt : M < 64 := by omega
  have hr : reading op A B M sA sB = (false, sA, sB) := by
    cases hA : A.isBitInt with
    | true => exact reading_of_narrow (.inl (by simp [hA]))
    | false =>
      cases hB : B.isBitInt with
      | true => exact reading_of_narrow (.inl (by simp [hB, hs.2]))
      | false =>
        rcases std_width hty.left hA hN with h | h | h
        · exact reading_of_narrow (.inr h)
        · exact absurd ⟨h, hA, hB⟩ h32
        · exact absurd h h64
  have hm := misread_equality ⟨M, hlt⟩ (ConstShape.info_pos hty.left) op hop
  rw [MisreadsSome, hr]
  cases sA with
  | true =>
    obtain rfl : sB = false := by simpa using hf
    exact ⟨_, _, readable_of_lt hlt, readable_of_lt hlt, hm.1⟩
  | false =>
    obtain rfl : sB = true := by simpa using hf
    exact ⟨_, _, readable_of_lt hlt, readable_of_lt hlt, hm.2⟩

theorem misreads_unsignedCompare (hty : WellTyped ch op A B kR N M W sA sB sR)
    (hop : op ∈ [MirOpcode.iCmpUlt, .iCmpUle, .iCmpUgt, .iCmpUge]) (hf : sA ≠ sB)
    (h64 : N ≠ 64) : MisreadsSome op A B N M sA sB := by
  have hs : isUnsignedOp op = true ∧ isShift op = false := by
    clear hty
    revert op
    decide
  obtain rfl := hty.same hs.2
  have hN := hty.bound.1
  have hN1 := ConstShape.info_pos hty.left
  have hlt : M < 64 := by omega
  have h2 : 2 ≤ M := by
    by_contra h
    obtain rfl : M = 1 := by omega
    exact hf (by rw [unsigned_of_one hty.left, unsigned_of_one hty.right])
  have hm := misread_unsignedCompare ⟨M, hlt⟩ h2 op hop
  rw [MisreadsSome, reading_unsigned hs.1]
  cases sA with
  | true =>
    obtain rfl : sB = false := by simpa using hf
    exact ⟨_, _, readable_of_lt hlt, readable_of_lt hlt, hm.1⟩
  | false =>
    obtain rfl : sB = true := by simpa using hf
    exact ⟨_, _, readable_of_lt hlt, readable_of_lt hlt, hm.2⟩

/-- **Kinds that do not fit misread some constants.** -/
theorem misreads_of_not_kindsFit (hty : WellTyped ch op A B kR N M W sA sB sR)
    (hop : isFoldable op = true) (hadd : op ≠ .add) (hf : ¬ KindsFit op A B N sA sB) :
    MisreadsSome op A B N M sA sB := by
  cases op <;> simp only [KindsFit, not_true_eq_false, not_or] at hf
  case add => exact absurd rfl hadd
  case sDiv | sMod => exact misreads_signedDiv hty (by simp) hf.1 hf.2.1 hf.2.2
  case iCmpSlt | iCmpSle | iCmpSgt | iCmpSge =>
    exact misreads_signedCompare hty (by simp) hf.1 hf.2
  case aShr =>
    obtain rfl : sA = false := by simpa using hf.1
    exact misreads_aShr hty hf.2
  case lShr =>
    obtain rfl : sA = true := by simpa using hf.1
    exact misreads_lShr hty hf.2
  case uDiv | uMod => exact misreads_unsignedDiv hty (by simp) hf.1 hf.2
  case iCmpEq | iCmpNe => exact misreads_equality hty (by simp) hf.1 hf.2.1 hf.2.2
  case iCmpUlt | iCmpUle | iCmpUgt | iCmpUge =>
    exact misreads_unsignedCompare hty (by simp) hf.1 hf.2

end Misread

section Pass

variable {ch : Option Bool} {A B : ConstShape} {sA sB sR : Bool} {W : ℕ} {op : MirOpcode}
  {kR : TypeKind} {a b : HirLiteralValue} {r : BitVec 64}

/-- Every binary instruction of these types that the pass folds over constants satisfying `P`
gets the result of its opcode. -/
def FoldsRight (ch : Option Bool) (op : MirOpcode) (A B : ConstShape) (kR : TypeKind)
    (sA sB sR : Bool) (P : BitVec N → BitVec M → Prop) : Prop :=
  ∀ (m : Mir) (t : TypeInterner) (cache : List (ℕ × HirLiteralValue)) (i o₁ o₂ : ℕ)
    (a b v : HirLiteralValue) (x : BitVec N) (y : BitVec M),
    m.instOpcode i = op → m.instOperands i = [o₁, o₂] → t.kind (m.instType i) = kR →
    t.kind (m.instType o₁) = A.core → t.kind (m.instType o₂) = B.core →
    readConstOperand m.toMirData cache o₁ = some a →
    readConstOperand m.toMirData cache o₂ = some b →
    IsConst A sA x a → IsConst B sB y b → P x y →
    tryFold m.toMirData t ch cache i = some v →
      asInt64 v = (opcodeResult op x y).map (renormalise sR)

def unaryResult (op : MirOpcode) (x : BitVec N) : Option (BitVec N) :=
  match op with
  | .neg => some (-x)
  | .not => some (~~~x)
  | _ => none

/-- Every unary instruction of these types that the pass folds over constants satisfying `P`
gets the result of its opcode. -/
def FoldsUnaryRight (ch : Option Bool) (op : MirOpcode) (A : ConstShape) (kR : TypeKind)
    (sA sR : Bool) (P : BitVec N → Prop) : Prop :=
  ∀ (m : Mir) (t : TypeInterner) (cache : List (ℕ × HirLiteralValue)) (i o : ℕ)
    (a v : HirLiteralValue) (x : BitVec N),
    m.instOpcode i = op → m.instOperands i = [o] → t.kind (m.instType i) = kR →
    t.kind (m.instType o) = A.core → readConstOperand m.toMirData cache o = some a →
    IsConst A sA x a → P x → tryFold m.toMirData t ch cache i = some v →
      asInt64 v = (unaryResult op x).map (widen 64 sR)

def foldData (op : MirOpcode) (operands : List ℕ) (lits : List MirLiteralValue) : MirData where
  insts := [default, ⟨.const, default, 2, [], [], 0, 0⟩, ⟨.const, default, 3, [], [], 1, 0⟩,
    ⟨op, default, 1, operands, [], 0, 0⟩, ⟨.ret, default, 0, [], [], 0, 0⟩]
  instBlocks := [0, 1, 1, 1, 1]
  blocks := [default, ⟨1, 4, [], 1⟩]
  funcs := [default, ⟨0, 1, 1, 1, .global, .default, false, false, false, false⟩]
  globals := [default]
  literals := lits
  aliasingMode := .permissive
  charTypesAliasAll := true

def foldTypes (kR kA kB : TypeKind) : TypeInterner where
  id := 1
  kind ty := if ty = 1 then kR else if ty = 2 then kA else kB
  operands _ := []

theorem foldData_built (hop : isFoldable op = true) (lits : List MirLiteralValue) :
    (foldData op [1, 2] lits).Built := by
  have h : (foldData op [1, 2] []).Built := by
    cases op <;> first
      | exact absurd hop (by decide)
      | decide
  exact h.withLiterals lits

theorem foldData_built_unary (hop : (unaryOpKind op).isSome) (lits : List MirLiteralValue) :
    (foldData op [1] lits).Built := by
  have h : (foldData op [1] []).Built := by
    cases op <;> first
      | exact absurd hop (by decide)
      | decide
  exact h.withLiterals lits

theorem toHirLiteral_literal {s : Bool} {x : BitVec N} :
    toHirLiteral (A.literal s x) = A.literal s x := by
  cases A <;> rfl

theorem not_refused {sR : Bool} (h : intKindInfo kR ch = some ⟨W, sR⟩) (hW : W ≤ 64) :
    ¬ (kR = .bitInt ∨ isInt128Kind kR = true) := by
  rintro (rfl | h128)
  · simp [intKindInfo] at h
  · rw [isInt128Kind, Bool.or_eq_true, beq_iff_eq, beq_iff_eq] at h128
    rcases h128 with rfl | rfl <;>
      · simp only [intKindInfo, Option.some.injEq, IntKindInfo.mk.injEq] at h
        omega

theorem tryFold_binary {m : MirData} {t : TypeInterner} {cache : List (ℕ × HirLiteralValue)}
    {i o₁ o₂ : ℕ} (hr : ¬ (t.kind (m.instType i) = .bitInt ∨
      isInt128Kind (t.kind (m.instType i)) = true))
    (hops : m.instOperands i = [o₁, o₂]) (ha : readConstOperand m cache o₁ = some a)
    (hb : readConstOperand m cache o₂ = some b) :
    tryFold m t ch cache i = foldBinary (m.instOpcode i) a b (t.kind (m.instType i)) ch := by
  rw [tryFold, if_neg (fun h => hr h.2), hops]
  simp only [ha, hb, Option.bind_eq_bind, Option.bind_some]

theorem tryFold_unary {m : MirData} {t : TypeInterner} {cache : List (ℕ × HirLiteralValue)}
    {i o : ℕ} (hr : ¬ (t.kind (m.instType i) = .bitInt ∨
      isInt128Kind (t.kind (m.instType i)) = true))
    (hops : m.instOperands i = [o]) (ha : readConstOperand m cache o = some a)
    (hop : (unaryOpKind (m.instOpcode i)).isSome) :
    tryFold m t ch cache i = foldUnary (m.instOpcode i) a (t.kind (m.instType i)) ch := by
  rw [tryFold, if_neg (fun h => hr h.2), hops]
  simp only [ha, hop, if_true, Option.bind_eq_bind, Option.bind_some]

theorem finish_wrong {x : BitVec N} {y : BitVec M} (hty : WellTyped ch op A B kR N M W sA sB sR)
    (hop : isFoldable op = true) (hadd : op ≠ .add) (hf : ¬ KindsFit op A B N sA sB)
    (hwrong : ¬ RightResult op x y r) :
    some (finish op A B sR N r) ≠ (opcodeResult op x y).map (renormalise sR) := by
  intro heq
  apply hwrong
  have hsome := opcodeResult_isSome hop x y
  rw [RightResult]
  cases hcmp : isCompare op with
  | true =>
    rw [finish, hcmp, if_pos rfl] at heq
    cases op <;> simp only [isCompare, Bool.false_eq_true] at hcmp <;>
      exact Option.some.inj heq
  | false =>
    have hspecial : ¬ (A = .std .bool ∧
        (isUnsignedOp op || (B.isBitInt && !isShift op)) = true) := by
      rintro ⟨rfl, hb⟩
      apply hf
      have hleft := hty.left
      simp only [ConstShape.info, intKindInfo, Option.some.injEq, IntKindInfo.mk.injEq] at hleft
      obtain ⟨rfl, rfl⟩ := hleft
      cases op <;> first
        | exact absurd hcmp (by decide)
        | exact absurd hop (by decide)
        | skip
      case add => exact absurd rfl hadd
      case sDiv | sMod => exact .inr (.inl rfl)
      case uDiv | uMod =>
        obtain rfl := hty.same rfl
        exact .inl ⟨rfl, unsigned_of_one hty.right⟩
      case lShr => exact .inl rfl
      case shl | aShr => exact absurd hb (by simp [isUnsignedOp, isShift])
      all_goals trivial
    rw [finish, hcmp, if_neg (by simp), if_neg hspecial] at heq
    cases op <;> first
      | exact absurd hcmp (by decide)
      | exact absurd hop (by decide)
      | exact (widen_inj hty.bound.1).1 (Option.some.inj heq)

theorem exists_wrong (hty : WellTyped ch op A B kR N M W sA sB sR)
    (hop : isFoldable op = true) (hf : ¬ KindsFit op A B N sA sB) :
    ∃ (x : BitVec N) (y : BitVec M) (v : HirLiteralValue),
      foldBinary op (A.literal sA x) (B.literal sB y) kR ch = some v ∧
        asInt64 v ≠ (opcodeResult op x y).map (renormalise sR) := by
  obtain ⟨x, y, r, hx, hy, hr, hwrong⟩ : ∃ (x : BitVec N) (y : BitVec M) (r : BitVec 64),
      Readable A x ∧ Readable B y ∧
      code64 op (reading op A B N sA sB).1 (widen 64 (reading op A B N sA sB).2.1 x)
        (widen 64 (reading op A B N sA sB).2.2 y) = some r ∧
      some (finish op A B sR N r) ≠ (opcodeResult op x y).map (renormalise sR) := by
    by_cases hadd : op = .add
    · subst hadd
      rw [KindsFit, not_not] at hf
      obtain ⟨rfl, hB⟩ := hf
      have hleft := hty.left
      simp only [ConstShape.info, intKindInfo, Option.some.injEq, IntKindInfo.mk.injEq] at hleft
      obtain ⟨rfl, rfl⟩ := hleft
      obtain rfl := hty.same rfl
      obtain rfl := unsigned_of_one hty.right
      refine ⟨1#1, 1#1, 2#64, readable_of_lt (by omega), readable_of_lt (by omega), ?_, ?_⟩
      · rw [reading_of_narrow (.inr (by omega))]
        rfl
      · rw [finish, if_neg (by decide), if_pos ⟨rfl, by rw [hB]; rfl⟩]
        cases sR <;> decide
    · obtain ⟨x, y, hx, hy, hm⟩ := misreads_of_not_kindsFit hty hop hadd hf
      rw [Misread, Option.any_eq_true_iff_get] at hm
      obtain ⟨hs, hm⟩ := hm
      refine ⟨x, y, _, hx, hy, (Option.some_get hs).symm, finish_wrong hty hop hadd hf ?_⟩
      simpa using hm
  have heq := foldBinary_eq hty (opcodeResult_isSome hop x y) (isConst_literal hty.left x)
    (isConst_literal hty.right y)
    (readOperand_literal (ConstShape.info_pos hty.left) hty.bound.1 hx)
    (readOperand_literal (ConstShape.info_pos hty.right) hty.bound.2.1 hy)
  rw [hr, Option.map_some] at heq
  obtain ⟨v, hv, hvr⟩ := Option.bind_eq_some_iff.1 heq
  exact ⟨x, y, v, hv, by rw [hvr]; exact hwrong⟩

theorem foldsRight_iff (hty : WellTyped ch op A B kR N M W sA sB sR)
    (hop : isFoldable op = true) :
    (FoldsRight ch op A B kR sA sB sR (fun (_ : BitVec N) (_ : BitVec M) => True) ↔
      KindsFit op A B N sA sB) ∧
    FoldsRight ch op A B kR sA sB sR (fun (x : BitVec N) (y : BitVec M) =>
      x.msb = false ∧ (isShift op = false → y.msb = false)) := by
  have hgen : ∀ P : BitVec N → BitVec M → Prop, (∀ x y, P x y → Fits op A B sA sB x y) →
      FoldsRight ch op A B kR sA sB sR P := by
    intro P hP m t cache i o₁ o₂ a b v x y hi hops hk _ _ ha hb hca hcb hpxy hv
    rw [tryFold_binary (by rw [hk]; exact not_refused hty.result hty.bound.2.2) hops ha hb, hi,
      hk] at hv
    exact foldBinary_right hty (opcodeResult_isSome hop x y) hca hcb (hP x y hpxy) hv
  refine ⟨⟨fun h => ?_, fun h => hgen _ fun _ _ _ => .inl h⟩, hgen _ fun _ _ h => .inr h⟩
  by_contra hf
  obtain ⟨x, y, v, hv, hwrong⟩ := exists_wrong hty hop hf
  refine hwrong (h ⟨foldData op [1, 2] [A.literal sA x, B.literal sB y], foldData_built hop _⟩
    (foldTypes kR A.core B.core) [] 3 1 2 (A.literal sA x) (B.literal sB y) v x y rfl rfl rfl rfl
    rfl ?_ ?_ (isConst_literal hty.left x) (isConst_literal hty.right y) trivial ?_)
  · exact congrArg some toHirLiteral_literal
  · exact congrArg some toHirLiteral_literal
  · have href : ¬ (kR = .bitInt ∨ isInt128Kind kR = true) :=
      not_refused hty.result hty.bound.2.2
    refine (tryFold_binary href rfl ?_ ?_).trans hv
    · exact congrArg some toHirLiteral_literal
    · exact congrArg some toHirLiteral_literal

def unary64 (op : MirOpcode) (v : BitVec 64) : BitVec 64 := if op = .neg then -v else ~~~v

theorem foldUnary_eq (hop : (unaryOpKind op).isSome) (hR : intKindInfo kR ch = some ⟨N, sR⟩)
    (hN : N ≤ 64) {av : BitVec 64} (ha : asInt64 a = some av) :
    (foldUnary op a kR ch).bind asInt64 =
      some (if a.core = .bool then boolBits (unary64 op av != 0#64)
        else widen 64 sR ((unary64 op av).setWidth N)) := by
  cases op <;> simp only [unaryOpKind, Option.isSome_none, Bool.false_eq_true] at hop
  case neg =>
    simp only [foldUnary, unaryOpKind, applyUnaryInt, ha, Option.bind_eq_bind, Option.bind_some]
    exact normalizeToType_int64 hR hN _ _
  case not =>
    simp only [foldUnary, unaryOpKind, applyUnaryInt, ha, Option.bind_eq_bind, Option.bind_some]
    exact normalizeToType_int64 hR hN _ _

theorem unary_oneBit : ∀ x : BitVec 1, ∀ op ∈ [MirOpcode.neg, .not],
    op = .neg ∨ x.msb = false →
      some (boolBits (unary64 op (widen 64 false x) != 0#64)) =
        (unaryResult op x).map (widen 64 false) := by
  decide

theorem unary_right (hop : op = .neg ∨ op = .not) (hA : A.info ch = some ⟨N, sA⟩)
    (hR : intKindInfo kR ch = some ⟨N, sR⟩) (hN : N ≤ 64) {x : BitVec N}
    (hx : ¬ (op = .not ∧ A = .std .bool) ∨ x.msb = false) :
    some (if A.core = .bool then boolBits (unary64 op (widen 64 sA x) != 0#64)
      else widen 64 sR ((unary64 op (widen 64 sA x)).setWidth N)) =
      (unaryResult op x).map (widen 64 sR) := by
  split_ifs with hb
  · rw [core_eq_bool] at hb
    subst hb
    simp only [ConstShape.info, intKindInfo, Option.some.injEq, IntKindInfo.mk.injEq] at hA
    obtain ⟨rfl, rfl⟩ := hA
    have hsR : sR = false := unsigned_of_one (A := .std kR) hR
    subst hsR
    refine unary_oneBit x op (by simpa using hop) ?_
    rcases hx with hx | hx
    · exact .inl (hop.resolve_right fun h => hx ⟨h, rfl⟩)
    · exact .inr hx
  · rcases hop with rfl | rfl
    · simp only [unary64, if_true, unaryResult, Option.map_some]
      rw [BitVec.setWidth_neg_of_le hN, setWidth_widen hN]
    · simp only [unary64, unaryResult, Option.map_some, reduceCtorEq, if_false]
      rw [BitVec.setWidth_not hN, setWidth_widen hN]

theorem foldsUnaryRight_iff (hA : A.info ch = some ⟨N, sA⟩)
    (hR : intKindInfo kR ch = some ⟨N, sR⟩) (hN : N ≤ 64) (hop : (unaryOpKind op).isSome) :
    (FoldsUnaryRight ch op A kR sA sR (fun (_ : BitVec N) => True) ↔
      ¬ (op = .not ∧ A = .std .bool)) ∧
    FoldsUnaryRight ch op A kR sA sR (fun (x : BitVec N) => x.msb = false) := by
  have hop' : op = .neg ∨ op = .not := by
    cases op <;> simp only [unaryOpKind, Option.isSome_none, Bool.false_eq_true] at hop <;> simp
  have hgen : ∀ P : BitVec N → Prop,
      (∀ x, P x → ¬ (op = .not ∧ A = .std .bool) ∨ x.msb = false) →
      FoldsUnaryRight ch op A kR sA sR P := by
    intro P hP m t cache i o a v x hi hops hk _ ha hca hpx hv
    rw [tryFold_unary (by rw [hk]; exact not_refused hR hN) hops ha (by rw [hi]; exact hop), hi,
      hk] at hv
    have hread : ∃ av, asInt64 a = some av := by
      rw [foldUnary] at hv
      simp only [Option.bind_eq_bind, Option.bind_eq_some_iff, applyUnaryInt] at hv
      obtain ⟨k, -, f, ⟨av, hav, -⟩, -⟩ := hv
      exact ⟨av, hav⟩
    obtain ⟨av, hav⟩ := hread
    have heq := foldUnary_eq hop hR hN hav
    rw [hv, Option.bind_some, hca.asInt64_eq hN hav, hca.core_eq] at heq
    rw [heq]
    exact unary_right hop' hA hR hN (hP x hpx)
  refine ⟨⟨fun h => ?_, fun h => hgen _ fun _ _ => .inl h⟩, hgen _ fun _ h => .inr h⟩
  rintro ⟨rfl, rfl⟩
  simp only [ConstShape.info, intKindInfo, Option.some.injEq, IntKindInfo.mk.injEq] at hA
  obtain ⟨rfl, rfl⟩ := hA
  have hsR : sR = false := unsigned_of_one (A := .std kR) hR
  subst hsR
  have href : ¬ (kR = .bitInt ∨ isInt128Kind kR = true) := not_refused hR hN
  have hfold := foldUnary_eq (a := .int64 .bool 1#64) hop hR hN rfl
  obtain ⟨v, hv, hvr⟩ := Option.bind_eq_some_iff.1 hfold
  have := h ⟨foldData .not [1] [.int64 .bool 1#64], foldData_built_unary rfl _⟩
    (foldTypes kR .bool .bool) [] 3 1 (.int64 .bool 1#64) v 1#1 rfl rfl rfl rfl rfl
    (.int64 rfl) trivial ((tryFold_unary href rfl rfl rfl).trans hv)
  rw [hvr] at this
  exact absurd this (by decide)

/-- **When constant folding computes the opcode's meaning.**  On a well-typed binary instruction
the fold is right for all constants exactly when the cores of the operands make it read them as
the opcode does (`KindsFit`), and on a unary instruction exactly when it is not the complement of
a truth value; constants whose sign bits are clear are always folded right. -/
theorem tryFold_right_iff (ch : Option Bool) (op : MirOpcode) :
    (∀ {A B : ConstShape} {kR : TypeKind} {N M W : ℕ} {sA sB sR : Bool},
      WellTyped ch op A B kR N M W sA sB sR → isFoldable op = true →
      (FoldsRight ch op A B kR sA sB sR (fun (_ : BitVec N) (_ : BitVec M) => True) ↔
        KindsFit op A B N sA sB) ∧
      FoldsRight ch op A B kR sA sB sR (fun (x : BitVec N) (y : BitVec M) =>
        x.msb = false ∧ (isShift op = false → y.msb = false))) ∧
    (∀ {A : ConstShape} {kR : TypeKind} {N : ℕ} {sA sR : Bool},
      A.info ch = some ⟨N, sA⟩ → intKindInfo kR ch = some ⟨N, sR⟩ → N ≤ 64 →
      (unaryOpKind op).isSome →
      (FoldsUnaryRight ch op A kR sA sR (fun (_ : BitVec N) => True) ↔
        ¬ (op = .not ∧ A = .std .bool)) ∧
      FoldsUnaryRight ch op A kR sA sR (fun (x : BitVec N) => x.msb = false)) :=
  ⟨foldsRight_iff, foldsUnaryRight_iff⟩

theorem tryFold_right_sDiv_i32 :
    FoldsRight none .sDiv (.std .i32) (.std .i32) .i32 true true true
      (fun (_ : BitVec 32) (_ : BitVec 32) => True) ∧
    FoldsUnaryRight none .neg (.std .i32) .i32 true true (fun (_ : BitVec 32) => True) :=
  ⟨((tryFold_right_iff none .sDiv).1
      ⟨rfl, rfl, rfl, by decide, fun _ => rfl, fun _ => rfl⟩ rfl).1.2 (.inl ⟨rfl, rfl⟩),
    ((tryFold_right_iff none .neg).2 rfl rfl (by decide) rfl).1.2 (by decide)⟩

theorem tryFold_uDiv_i8_wrong :
    (foldData .uDiv [1, 2] [.int64 .i8 (-1#64), .int64 .i8 2#64]).Built ∧
    (tryFold (foldData .uDiv [1, 2] [.int64 .i8 (-1#64), .int64 .i8 2#64])
      (foldTypes .i8 .i8 .i8) none [] 3).bind asInt64 = some (-1#64) ∧
    (opcodeResult .uDiv (-1#8) (2#8)).map (renormalise true) = some 127#64 ∧
    ¬ FoldsRight none .uDiv (.std .i8) (.std .i8) .i8 true true true
      (fun (_ : BitVec 8) (_ : BitVec 8) => True) := by
  refine ⟨foldData_built rfl _, by decide, by decide, fun h => ?_⟩
  have hf := (foldsRight_iff (N := 8) (M := 8) (W := 8)
    ⟨rfl, rfl, rfl, by decide, fun _ => rfl, fun _ => rfl⟩ rfl).1.1 h
  revert hf
  simp [KindsFit]

end Pass

end DssPrime.ConstFold
