import DssPrime.Link.EhFrame
import Mathlib

/-!
# When the decoder of unwind sections stays inside its records

`Dec.Ends` says what holds where a part of the decoder ends if what it reads stays inside a record;
it goes through a part bind by bind.
-/

namespace DssPrime.EhFrame

/-- A range of bytes lies inside another. -/
def Within (lo hi : ℕ) (u : ℕ × ℕ) : Prop := lo ≤ u.1 ∧ u.1 ≤ u.2 ∧ u.2 ≤ hi

instance (lo hi : ℕ) (u : ℕ × ℕ) : Decidable (Within lo hi u) := by
  unfold Within; infer_instance

/-- The decoder stays inside the records of a section: the walk ends, the records follow one
another, what is read of a record and what ranges are formed lies in the record, and a record that
is not refused is consumed up to its end. -/
structure StaysInside (b : List UInt8) (regs : DwarfRegisterMapping) : Prop where
  ends : (decodeEhFrame b regs).2 ≠ .outOfTurns ∧
    (decodeEhFrame b regs).2 ≠ .stopped .outOfTurns
  follow : (decodeEhFrame b regs).1.IsChain fun v w => w.recStart = v.recEnd
  within : ∀ v ∈ (decodeEhFrame b regs).1, ∀ u ∈ v.result.2, Within v.recStart v.recEnd u
  consumed : ∀ v ∈ (decodeEhFrame b regs).1, ∀ found, v.result.1.1 = .ok found →
    v.result.1.2 = v.recEnd

/-- The numbers of a common record from `p` on end in the record; `k` is asked of the position
after them. -/
def NumbersFit (b : List UInt8) (recEnd version p : ℕ) (k : ℕ → Prop) : Prop :=
  (readULeb b p).2 ≤ recEnd ∧ ∀ caf, (readULeb b p).1 = some caf → caf ≠ 0 →
    (readSLeb b (readULeb b p).2).2 ≤ recEnd ∧
    ∀ daf, (readSLeb b (readULeb b p).2).1 = some daf → daf ≠ 0 →
      if version = 1 then
        (readSLeb b (readULeb b p).2).2 < recEnd → k ((readSLeb b (readULeb b p).2).2 + 1)
      else
        (readULeb b (readSLeb b (readULeb b p).2).2).2 ≤ recEnd ∧
        ∀ ra, (readULeb b (readSLeb b (readULeb b p).2).2).1 = some ra →
          k (readULeb b (readSLeb b (readULeb b p).2).2).2

/-- The length of the augmentation data ends in the record, and adding it to the position stays
within 64 bits. -/
def AugmentationFits (b : List UInt8) (recEnd p : ℕ) : Prop :=
  (readULeb b p).2 ≤ recEnd ∧
    ∀ augLen, (readULeb b p).1 = some augLen → (readULeb b p).2 + augLen < 2 ^ 64

/-- The header of a common record whose version stands at `p` fits into the record. -/
def CieFits (b : List UInt8) (recEnd p : ℕ) : Prop :=
  p < recEnd → (byteAt b p = 1 ∨ byteAt b p = 3 ∨ byteAt b p = 4) →
    let aug := augmentationChars b recEnd (recEnd - (p + 1)) (p + 1)
    aug.2 < recEnd → NumbersFit b recEnd (byteAt b p) (aug.2 + 1) fun q =>
      (byteAt b p = 4 → q + 2 ≤ recEnd) → aug.1.head? = some 122 →
        AugmentationFits b recEnd (if byteAt b p = 4 then q + 2 else q)

/-- The header of a function's record whose address stands at `p` fits into the record. -/
def FdeFits (b : List UInt8) (cies : List (ℕ × DecodedCie)) (recStart recEnd ciePtr p : ℕ) : Prop :=
  ciePtr ≤ recStart + 4 → ∀ cie, cies.lookup (recStart + 4 - ciePtr) = some cie →
    let w := if dwEhPeIsEightByteField cie.fdePointerEncoding then 8 else 4
    (readLE b w p).2 ≤ recEnd ∧ ((readLE b w p).1 ≠ none →
      (readLE b w (p + w)).2 ≤ recEnd ∧ ∀ range, (readLE b w (p + w)).1 = some range →
        range ≤ 0xffffffff → cie.hasZAugmentation = true → (readULeb b (p + w + w)).2 ≤ recEnd)

def HeaderFits (b : List UInt8) (found : Found) (recStart recEnd : ℕ) : Prop :=
  (readU32LE b (recStart + 4)).2 ≤ recEnd ∧
    ∀ idOrCiePtr, (readU32LE b (recStart + 4)).1 = some idOrCiePtr →
      if idOrCiePtr = 0 then CieFits b recEnd (recStart + 8)
      else FdeFits b found.cies recStart recEnd idOrCiePtr (recStart + 8)

namespace Dec

variable {α β : Type} {lo hi p : ℕ}

/-- What a part reads from `p` on lies inside, and what it returns satisfies `K` with the position
after it. -/
def Ends (lo hi : ℕ) (x : Dec α) (p : ℕ) (K : α → ℕ → Prop) : Prop :=
  (∀ u ∈ (x p).2, Within lo hi u) ∧ ∀ a q, (x p).1 = (.ok a, q) → K a q

variable {K : α → ℕ → Prop}

theorem ends_bind {x : Dec α} {f : α → Dec β} {K : β → ℕ → Prop} :
    Ends lo hi (x >>= f) p K ↔ Ends lo hi x p fun a q => Ends lo hi (f a) q K := by
  have hb : (x >>= f) p = andThen x f p := rfl
  rw [Ends, Ends, hb, andThen]
  rcases hx : x p with ⟨⟨_ | a, q⟩, uses⟩
  · simp
  · simp only [List.mem_append, Prod.mk.injEq, Except.ok.injEq]
    constructor
    · rintro ⟨hu, hk⟩
      refine ⟨fun u h => hu u (.inl h), ?_⟩
      rintro _ _ ⟨rfl, rfl⟩
      exact ⟨fun u h => hu u (.inr h), hk⟩
    · rintro ⟨hu, hk⟩
      obtain ⟨hu', hk'⟩ := hk a q ⟨rfl, rfl⟩
      exact ⟨fun u h => h.elim (hu u) (hu' u), hk'⟩

@[simp] theorem ends_pure {a : α} : Ends lo hi (pure a : Dec α) p K ↔ K a p := by
  have hb : (pure a : Dec α) p = ((.ok a, p), []) := rfl
  simp [Ends, hb]

@[simp] theorem ends_stop {e : Stop} : Ends lo hi (stop e : Dec α) p K ↔ True := by
  simp [Ends, stop]

@[simp] theorem ends_refuse {r : Refusal} : Ends lo hi (refuse r : Dec α) p K ↔ True := ends_stop

@[simp] theorem ends_getPos {K : ℕ → ℕ → Prop} : Ends lo hi getPos p K ↔ K p p := by
  simp [Ends, getPos]

@[simp] theorem ends_setPos {q : ℕ} {K : Unit → ℕ → Prop} :
    Ends lo hi (setPos q) p K ↔ K () q := by
  simp only [Ends, setPos, List.not_mem_nil, false_implies, implies_true, true_and,
    Prod.mk.injEq]
  exact ⟨fun h => h () q rfl, fun h _ _ he => he ▸ h⟩

@[simp] theorem ends_range {l h : ℕ} {K : Unit → ℕ → Prop} :
    Ends lo hi (range l h) p K ↔ Within lo hi (l, h) ∧ K () p := by
  simp only [Ends, range, List.mem_singleton, forall_eq, Prod.mk.injEq, true_and]
  exact and_congr_right fun _ => ⟨fun h => h () p rfl, fun h _ _ he => he ▸ h⟩

@[simp] theorem ends_read {reader : ℕ → Option α × ℕ} {K : Option α → ℕ → Prop} :
    Ends lo hi (read reader) p K ↔
      Within lo hi (p, (reader p).2) ∧ K (reader p).1 (reader p).2 := by
  simp [Ends, read]

@[simp] theorem ends_byte {b : List UInt8} {K : ℕ → ℕ → Prop} :
    Ends lo hi (byte b) p K ↔ Within lo hi (p, p + 1) ∧ K (byteAt b p) (p + 1) := by
  simp [Ends, byte]

end Dec

open Dec

theorem readULebGroups_pos (b : List UInt8) (n pos shift out : ℕ) :
    pos ≤ (readULebGroups b n pos shift out).2 := by
  induction n generalizing pos shift out with
  | zero => exact le_rfl
  | succ n ih =>
    rw [readULebGroups]
    split_ifs
    · exact le_rfl
    · exact Nat.le_succ pos
    · exact (Nat.le_succ pos).trans (ih _ _ _)

theorem readULeb_pos (b : List UInt8) (pos : ℕ) : pos ≤ (readULeb b pos).2 :=
  readULebGroups_pos b 10 pos 0 0

theorem readSLebGroups_pos (b : List UInt8) (n pos shift result : ℕ) :
    pos ≤ (readSLebGroups b n pos shift result).2 := by
  induction n generalizing pos shift result with
  | zero => exact le_rfl
  | succ n ih =>
    simp only [readSLebGroups]
    split_ifs
    · exact le_rfl
    · exact Nat.le_succ pos
    · exact Nat.le_succ pos
    · exact (Nat.le_succ pos).trans (ih _ _ _)

theorem readSLeb_pos (b : List UInt8) (pos : ℕ) : pos ≤ (readSLeb b pos).2 :=
  readSLebGroups_pos b 10 pos 0 0

theorem readLE_pos (b : List UInt8) (w pos : ℕ) : pos ≤ (readLE b w pos).2 := by
  rw [readLE]
  split_ifs
  · exact le_rfl
  · exact Nat.le_add_right pos w

theorem readLE_pos_of_some {b : List UInt8} {w pos n : ℕ} (h : (readLE b w pos).1 = some n) :
    (readLE b w pos).2 = pos + w := by
  rw [readLE] at h ⊢
  split_ifs at h ⊢
  rfl

theorem readULebGroups_lt (b : List UInt8) (n pos shift out v : ℕ) (ho : out < 2 ^ 64)
    (h : (readULebGroups b n pos shift out).1 = some v) : v < 2 ^ 64 := by
  induction n generalizing pos shift out with
  | zero => simp [readULebGroups] at h
  | succ n ih =>
    have hor : out ||| ((byteAt b pos &&& 0x7f) <<< shift) % 2 ^ 64 < 2 ^ 64 :=
      Nat.or_lt_two_pow ho (Nat.mod_lt _ (by positivity))
    rw [readULebGroups] at h
    split_ifs at h
    · exact (Option.some.inj h) ▸ hor
    · exact ih _ _ _ hor h

theorem readULeb_lt {b : List UInt8} {pos v : ℕ} (h : (readULeb b pos).1 = some v) : v < 2 ^ 64 :=
  readULebGroups_lt b 10 pos 0 0 v (by positivity) h

theorem augmentationChars_pos (b : List UInt8) (recEnd n pos : ℕ) :
    pos ≤ (augmentationChars b recEnd n pos).2 := by
  induction n generalizing pos with
  | zero => exact le_rfl
  | succ n ih =>
    simp only [augmentationChars]
    split_ifs
    · exact (Nat.le_succ pos).trans (ih _)
    · exact le_rfl

section Instructions

variable {body : List UInt8} {cie : DecodedCie} {rev : DwarfRegisterReverseMap}

theorem readULebGroups_le (n pos shift out v : ℕ) (hp : pos ≤ body.length)
    (h : (readULebGroups body n pos shift out).1 = some v) :
    (readULebGroups body n pos shift out).2 ≤ body.length := by
  induction n generalizing pos shift out with
  | zero => exact hp
  | succ n ih =>
    rw [readULebGroups] at h ⊢
    split_ifs at h ⊢ with hlen hlast
    · exact not_le.mp hlen
    · exact ih _ _ _ (not_le.mp hlen) h

theorem readSLebGroups_le (n pos shift result : ℕ) (v : ℤ) (hp : pos ≤ body.length)
    (h : (readSLebGroups body n pos shift result).1 = some v) :
    (readSLebGroups body n pos shift result).2 ≤ body.length := by
  induction n generalizing pos shift result with
  | zero => exact hp
  | succ n ih =>
    simp only [readSLebGroups] at h ⊢
    split_ifs at h ⊢ with hlen hlast hneg
    · exact not_le.mp hlen
    · exact not_le.mp hlen
    · exact ih _ _ _ (not_le.mp hlen) h

/-- A reader of an operand moves on inside the instructions. -/
def Inner {α : Type} (body : List UInt8) (pos : ℕ) (r : Option α × ℕ) : Prop :=
  pos ≤ r.2 ∧ ∀ a, r.1 = some a → r.2 ≤ body.length

theorem inner_uleb {pos : ℕ} (hp : pos ≤ body.length) : Inner body pos (readULeb body pos) :=
  ⟨readULeb_pos body pos, fun v h => readULebGroups_le 10 pos 0 0 v hp h⟩

theorem inner_sleb {pos : ℕ} (hp : pos ≤ body.length) : Inner body pos (readSLeb body pos) :=
  ⟨readSLeb_pos body pos, fun v h => readSLebGroups_le 10 pos 0 0 v hp h⟩

theorem inner_le {w pos : ℕ} : Inner body pos (readLE body w pos) := by
  refine ⟨readLE_pos body w pos, fun v h => ?_⟩
  rw [readLE] at h ⊢
  split_ifs at h ⊢ with hlen
  exact not_lt.mp hlen

def Moves {α : Type} (body : List UInt8) (pos : ℕ) (r : Except Refusal (α × ℕ)) : Prop :=
  ∀ a q, r = .ok (a, q) → pos ≤ q ∧ q ≤ body.length

theorem moves_pure {α : Type} {pos q : ℕ} {a : α} (h : pos ≤ q ∧ q ≤ body.length) :
    Moves body pos (pure (a, q)) := by
  rintro _ _ ⟨⟩
  exact h

theorem moves_error {α : Type} {pos : ℕ} {r : Refusal} :
    Moves body pos (.error r : Except Refusal (α × ℕ)) := nofun

theorem moves_ite {α : Type} {pos : ℕ} {c : Prop} [Decidable c] {r s : Except Refusal (α × ℕ)}
    (hr : Moves body pos r) (hs : Moves body pos s) : Moves body pos (if c then r else s) := by
  split_ifs
  · exact hr
  · exact hs

theorem moves_operand {α : Type} {pos op : ℕ} {r : Option α × ℕ} (h : Inner body pos r) :
    Moves body pos (operand op r) := by
  intro a q he
  rw [operand] at he
  cases hr : r.1 with
  | none => simp [hr] at he
  | some v =>
    simp only [hr, Except.ok.injEq, Prod.mk.injEq] at he
    exact he.2 ▸ ⟨h.1, h.2 v hr⟩

theorem moves_bind {α β : Type} {pos : ℕ} {r : Except Refusal (α × ℕ)}
    {f : α × ℕ → Except Refusal (β × ℕ)} (hr : Moves body pos r)
    (hf : ∀ a q, pos ≤ q → q ≤ body.length → Moves body pos (f (a, q))) :
    Moves body pos (r >>= f) := by
  cases r with
  | error e => exact nofun
  | ok v =>
    obtain ⟨a, q⟩ := v
    have h := hr a q rfl
    exact hf a q h.1 h.2

theorem Moves.mono {α : Type} {pos q : ℕ} {r : Except Refusal (α × ℕ)} (h : Moves body q r)
    (hq : pos ≤ q) : Moves body pos r := fun a p he => ⟨hq.trans (h a p he).1, (h a p he).2⟩

theorem moves_readOffset {op pos : ℕ} {signedForm : Bool} (hp : pos ≤ body.length) :
    Moves body pos (readOffset body op signedForm pos) := by
  rw [readOffset]
  split_ifs
  · exact moves_operand (inner_sleb hp)
  · exact moves_bind (moves_operand (inner_uleb hp)) fun a q h1 h2 => moves_pure ⟨h1, h2⟩

theorem moves_readCfaInsn {op pos : ℕ} (hp : pos ≤ body.length) :
    Moves body pos (readCfaInsn body cie op pos) := by
  have hself : pos ≤ pos ∧ pos ≤ body.length := ⟨le_rfl, hp⟩
  have hu : ∀ {q}, q ≤ body.length → Moves body q (operand op (readULeb body q)) :=
    fun h => moves_operand (inner_uleb h)
  rw [readCfaInsn]
  refine moves_ite (moves_pure hself) ?_
  refine moves_ite (moves_bind (hu hp) fun _ _ h1 h2 => moves_pure ⟨h1, h2⟩) ?_
  refine moves_ite (moves_pure hself) ?_
  refine moves_ite (moves_pure hself) ?_
  refine moves_ite (moves_bind (moves_operand inner_le) fun _ _ h1 h2 => moves_pure ⟨h1, h2⟩) ?_
  refine moves_ite (moves_bind (hu hp) fun _ _ h1 h2 =>
    moves_bind ((moves_readOffset h2).mono h1) fun _ _ h3 h4 => moves_pure ⟨h3, h4⟩) ?_
  refine moves_ite (moves_bind (hu hp) fun _ _ h1 h2 => moves_pure ⟨h1, h2⟩) ?_
  refine moves_ite (moves_bind (hu hp) fun _ _ h1 h2 =>
    moves_bind ((hu h2).mono h1) fun _ _ h3 h4 => moves_pure ⟨h3, h4⟩) ?_
  refine moves_ite (moves_pure hself) ?_
  refine moves_ite (moves_bind (hu hp) fun _ _ h1 h2 =>
    moves_bind ((moves_readOffset h2).mono h1) fun _ _ h3 h4 => moves_pure ⟨h3, h4⟩) ?_
  refine moves_ite (moves_bind (hu hp) fun _ _ h1 h2 => moves_pure ⟨h1, h2⟩) ?_
  refine moves_ite (moves_bind (moves_readOffset hp) fun _ _ h1 h2 => moves_pure ⟨h1, h2⟩) ?_
  exact moves_ite moves_error (moves_ite moves_error moves_error)

theorem cfaStep_pos {pass : Bool} {st st' : CfaState} (hp : st.pos < body.length)
    (h : cfaStep body cie rev pass st = .ok st') :
    st.pos < st'.pos ∧ st'.pos ≤ body.length := by
  have hm : Moves body (st.pos + 1) (readCfaInsn body cie (byteAt body st.pos) (st.pos + 1)) :=
    moves_readCfaInsn hp
  rw [cfaStep] at h
  cases hr : readCfaInsn body cie (byteAt body st.pos) (st.pos + 1) with
  | error e =>
    rw [hr] at h
    exact nomatch h
  | ok v =>
    rw [hr] at h
    cases ha : applyCfaInsn cie rev pass st v.1 with
    | error e =>
      simp only [bind, Except.bind, ha] at h
      exact nomatch h
    | ok w =>
      simp only [bind, Except.bind, ha, pure, Except.pure, Except.ok.injEq] at h
      have hq := hm v.1 v.2 hr
      rw [← h]
      exact ⟨hq.1, hq.2⟩

theorem cfaLoop_ends {pass : Bool} (turns : ℕ) {st : CfaState} (hp : st.pos ≤ body.length)
    (ht : body.length ≤ st.pos + turns) :
    ∃ r, cfaLoop body cie rev pass turns st = some r ∧
      ∀ st', r = .ok st' → st'.pos = body.length := by
  induction turns generalizing st with
  | zero =>
    have hend : body.length ≤ st.pos := ht
    refine ⟨.ok st, by rw [cfaLoop, if_pos hend], ?_⟩
    rintro _ ⟨⟩
    exact le_antisymm hp hend
  | succ turns ih =>
    rw [cfaLoop]
    split_ifs with hend
    · refine ⟨.ok st, rfl, ?_⟩
      rintro _ ⟨⟩
      exact le_antisymm hp hend
    · cases hs : cfaStep body cie rev pass st with
      | error e => exact ⟨.error e, rfl, nofun⟩
      | ok st' =>
        have h := cfaStep_pos (not_le.mp hend) hs
        exact ih h.2 (by omega)

theorem decodeCfaInstructions_ends (pass : Bool) :
    ∃ r, decodeCfaInstructions body cie rev pass = some r ∧
      ∀ st, r = .ok st → st.pos = body.length := by
  have hloop : ∃ r, cfaLoop body cie rev pass body.length ⟨0, 0, false, cie.initial, []⟩ = some r ∧
      ∀ st, r = .ok st → st.pos = body.length :=
    cfaLoop_ends body.length (Nat.zero_le _) (Nat.le_add_left _ _)
  obtain ⟨r, hr, hpos⟩ := hloop
  rw [decodeCfaInstructions, hr]
  refine ⟨_, rfl, fun st he => ?_⟩
  cases r with
  | error e => exact nomatch he
  | ok st' =>
    simp only [bind, Except.bind] at he
    split_ifs at he
    exact hpos st (by rw [← he]; rfl)

end Instructions

section Parts

variable {b : List UInt8} {rev : DwarfRegisterReverseMap} {lo hi p : ℕ}

theorem within_of {l h : ℕ} (h1 : lo ≤ l) (h2 : l ≤ h) : Within lo hi (l, h) ↔ h ≤ hi :=
  ⟨fun h => h.2.2, fun h3 => ⟨h1, h2, h3⟩⟩

theorem ends_augmentationString {K : List UInt8 → ℕ → Prop} (hlo : lo ≤ p) (hp : p ≤ hi) :
    Ends lo hi (augmentationString b hi) p K ↔
      ((augmentationChars b hi (hi - p) p).2 < hi →
        K (augmentationChars b hi (hi - p) p).1 ((augmentationChars b hi (hi - p) p).2 + 1)) := by
  have hpos := augmentationChars_pos b hi (hi - p) p
  have hw : Within lo hi (p, min hi ((augmentationChars b hi (hi - p) p).2 + 1)) :=
    ⟨hlo, le_min hp (hpos.trans (Nat.le_succ _)), min_le_left _ _⟩
  rw [augmentationString, ends_bind, ends_getPos, ends_bind, ends_range, ends_bind, ends_setPos]
  simp only [hw, true_and]
  split_ifs with h
  · simp [not_lt.mpr h]
  · rw [ends_bind, ends_setPos, ends_pure]
    exact ⟨fun hk _ => hk, fun hk => hk (not_le.mp h)⟩

theorem ends_cieNumbers {version : ℕ} {K : ℕ × ℤ × ℕ → ℕ → Prop} {k : ℕ → Prop} (hlo : lo ≤ p)
    (hk : ∀ n q, p ≤ q → q ≤ hi → (K n q ↔ k q)) :
    Ends lo hi (cieNumbers b hi version) p K ↔ NumbersFit b hi version p k := by
  have h1 := readULeb_pos b p
  have h2 := readSLeb_pos b (readULeb b p).2
  have h3 := readULeb_pos b (readSLeb b (readULeb b p).2).2
  rw [cieNumbers, ends_bind, ends_read, NumbersFit, within_of hlo h1]
  refine and_congr_right fun hf1 => ?_
  cases hc : (readULeb b p).1 with
  | none => simp
  | some caf =>
    simp only [Option.some.injEq, forall_eq']
    by_cases hcz : caf = 0
    · simp [hcz]
    · rw [if_neg hcz]
      simp only [ne_eq, hcz, not_false_eq_true, forall_const]
      rw [ends_bind, ends_read, within_of (hlo.trans h1) h2]
      refine and_congr_right fun hf2 => ?_
      cases hd : (readSLeb b (readULeb b p).2).1 with
      | none => simp
      | some daf =>
        simp only [Option.some.injEq, forall_eq']
        by_cases hdz : daf = 0
        · simp [hdz]
        · rw [if_neg hdz]
          simp only [hdz, not_false_eq_true, forall_const]
          by_cases hv : version = 1
          · rw [if_pos hv, if_pos hv, ends_bind, ends_getPos]
            split_ifs with hend
            · simp [not_lt.mpr hend]
            · have hlt := not_le.mp hend
              rw [ends_bind, ends_byte, ends_pure, hk _ _ (by omega) hlt,
                within_of (by omega) (Nat.le_succ _)]
              exact ⟨fun h _ => h.2, fun h => ⟨hlt, h hlt⟩⟩
          · rw [if_neg hv, if_neg hv, ends_bind, ends_read, within_of (by omega) h3]
            refine and_congr_right fun hf3 => ?_
            cases hr : (readULeb b (readSLeb b (readULeb b p).2).2).1 with
            | none => simp
            | some ra =>
              simp only [Option.some.injEq, forall_eq', ends_pure]
              exact hk _ _ (by omega) hf3

theorem ends_addressSizes {version : ℕ} {K : Unit → ℕ → Prop} (hlo : lo ≤ p) :
    Ends lo hi (addressSizes hi version) p K ↔
      ((version = 4 → p + 2 ≤ hi) → K () (if version = 4 then p + 2 else p)) := by
  rw [addressSizes]
  split_ifs with hv
  · rw [ends_bind, ends_getPos]
    split_ifs with h
    · simp [hv, not_le.mpr h]
    · rw [ends_bind, ends_range, ends_setPos, within_of hlo (by omega)]
      exact ⟨fun hk _ => hk.2, fun hk => ⟨not_lt.mp h, hk fun _ => not_lt.mp h⟩⟩
  · simp [hv]

theorem ends_augmentationFields {recStart augEnd encoding : ℕ} (cs : List UInt8) (hlo : lo ≤ p)
    (ha : augEnd ≤ hi) {K : ℕ → ℕ → Prop} (hK : ∀ e q, K e q) :
    Ends lo hi (augmentationFields b recStart augEnd cs encoding) p K := by
  induction cs generalizing p encoding with
  | nil =>
    rw [augmentationFields, ends_pure]
    exact hK _ _
  | cons c cs ih =>
    rw [augmentationFields]
    split_ifs
    · rw [ends_bind, ends_getPos]
      split_ifs with h
      · simp
      · rw [ends_bind, ends_byte]
        exact ⟨⟨hlo, Nat.le_succ p, by omega⟩, ih (hlo.trans (Nat.le_succ p))⟩
    · simp
    · simp
    · simp
    · simp

theorem ends_cieAugmentation {recStart : ℕ} {aug : List UInt8} {K : ℕ × Bool → ℕ → Prop}
    (hlo : lo ≤ p) (hp : p ≤ hi) (hK : ∀ e q, lo ≤ q → q ≤ hi → K e q) :
    Ends lo hi (cieAugmentation b recStart hi aug) p K ↔
      (aug.head? = some 122 → AugmentationFits b hi p) := by
  have h1 := readULeb_pos b p
  cases aug with
  | nil => simp [cieAugmentation, hK _ p hlo hp]
  | cons c cs =>
    simp only [cieAugmentation, List.head?_cons, Option.some.injEq]
    split_ifs with hc
    · simp only [hc, forall_const]
      rw [ends_bind, ends_read, AugmentationFits, within_of hlo h1]
      refine and_congr_right fun hf => ?_
      cases hl : (readULeb b p).1 with
      | none => simp
      | some augLen =>
        have hlt := readULeb_lt hl
        simp only [Option.some.injEq, forall_eq']
        rw [ends_bind, ends_getPos]
        by_cases hwrap : (readULeb b p).2 + augLen < 2 ^ 64
        · rw [Nat.mod_eq_of_lt hwrap]
          simp only [hwrap, iff_true]
          split_ifs with hend
          · simp
          · have hend := not_lt.mp hend
            rw [ends_bind, ends_range, ends_bind]
            refine ⟨⟨hlo.trans h1, Nat.le_add_right _ _, hend⟩, ?_⟩
            refine ends_augmentationFields cs (hlo.trans h1) hend fun e q => ?_
            rw [ends_bind, ends_setPos, ends_pure]
            exact hK _ _ (by omega) hend
        · -- a length that wraps round takes the end of the data before its start
          have hback : ((readULeb b p).2 + augLen) % 2 ^ 64 < (readULeb b p).2 := by
            rcases lt_or_ge (readULeb b p).2 (2 ^ 64) with hsmall | hbig
            · rw [Nat.mod_eq_sub_mod (not_lt.mp hwrap), Nat.mod_eq_of_lt (by omega)]
              omega
            · exact (Nat.mod_lt _ (by positivity)).trans_le hbig
          rw [if_neg (by omega), ends_bind, ends_range]
          simp only [hwrap, iff_false, Within]
          omega
    · simp [hc]

theorem ends_recordInstructions {cie : DecodedCie} {pass : Bool} {K : CfaState → ℕ → Prop}
    (hlo : lo ≤ p) (hp : p ≤ hi) (hK : ∀ st q, K st q) :
    Ends lo hi (recordInstructions b hi cie rev pass) p K := by
  rw [recordInstructions, ends_bind, ends_getPos, ends_bind, ends_range, if_neg (not_lt.mpr hp)]
  refine ⟨⟨hlo, hp, le_rfl⟩, ?_⟩
  cases decodeCfaInstructions ((b.take hi).drop p) cie rev pass with
  | none => simp
  | some r =>
    cases r with
    | error e => simp
    | ok st =>
      rw [ends_bind, ends_setPos, ends_pure]
      exact hK _ _

theorem ends_readCie (hlo : lo ≤ p) {recStart : ℕ} {K : DecodedCie → ℕ → Prop}
    (hK : ∀ cie q, K cie q) :
    Ends lo hi (readCie b rev recStart hi) p K ↔ CieFits b hi p := by
  rw [readCie, ends_bind, ends_getPos, CieFits]
  by_cases hend : hi ≤ p
  · simp [not_lt.mpr hend, hend]
  · have hlt := not_le.mp hend
    have hlt' : p + 1 ≤ hi := hlt
    have hstep : p ≤ p + 1 := Nat.le_succ p
    rw [if_neg hend, ends_bind, ends_byte, within_of hlo hstep]
    simp only [hlt', true_and, hlt, forall_const]
    by_cases hv : byteAt b p = 1 ∨ byteAt b p = 3 ∨ byteAt b p = 4
    · rw [if_neg (by tauto), ends_bind, ends_augmentationString (by omega) hlt']
      simp only [hv, forall_const]
      refine imp_congr_right fun haug => ?_
      have hpos := augmentationChars_pos b hi (hi - (p + 1)) (p + 1)
      rw [ends_bind]
      refine ends_cieNumbers (by omega) fun numbers q hq1 hq2 => ?_
      rw [ends_bind, ends_addressSizes (by omega)]
      refine imp_congr_right fun hsize => ?_
      have hq : (if byteAt b p = 4 then q + 2 else q) ≤ hi := by
        split_ifs with h4
        · exact hsize h4
        · exact hq2
      rw [ends_bind]
      refine ends_cieAugmentation (by split_ifs <;> omega) hq fun e r hr1 hr2 => ?_
      by_cases henc : (if e.1 = 0xff then 0x00 else e.1) ≠ 0x1b ∧
          dwEhPeIsEightByteField (if e.1 = 0xff then 0x00 else e.1) = false
      · simp [henc]
      · simp only [henc, if_false]
        rw [ends_bind]
        refine ends_recordInstructions hr1 hr2 fun st q => ?_
        split_ifs <;> exact ends_pure.mpr (hK _ _)
    · rw [if_pos (by tauto)]
      simp [hv]

theorem ends_fdeAddresses {encoding w : ℕ}
    (hw : (if dwEhPeIsEightByteField encoding then 8 else 4) = w) (hlo : lo ≤ p)
    {K : ℤ × ℕ → ℕ → Prop} {k : ℕ → Prop}
    (hk : ∀ a q, q = p + w + w → q ≤ hi → (K a q ↔ k a.2)) :
    Ends lo hi (fdeAddresses b encoding) p K ↔
      (readLE b w p).2 ≤ hi ∧ ((readLE b w p).1 ≠ none →
        (readLE b w (p + w)).2 ≤ hi ∧ ∀ range, (readLE b w (p + w)).1 = some range → k range) := by
  have h1 := readLE_pos b w p
  have h2 := readLE_pos b w (p + w)
  simp only [fdeAddresses, hw]
  rw [ends_bind, ends_read, within_of hlo h1]
  refine and_congr_right fun hf1 => ?_
  cases hl : (readLE b w p).1 with
  | none => simp
  | some location =>
    have hp1 := readLE_pos_of_some hl
    simp only [ne_eq, reduceCtorEq, not_false_eq_true, forall_const]
    rw [hp1, ends_bind, ends_read, within_of (by omega) h2]
    refine and_congr_right fun hf2 => ?_
    cases hr : (readLE b w (p + w)).1 with
    | none => simp
    | some range =>
      simp only [Option.some.injEq, forall_eq', ends_pure]
      exact hk _ _ (readLE_pos_of_some hr) hf2

theorem ends_fdeInstructions {cie : DecodedCie} {r : ℕ} (hr1 : lo ≤ r) (hr2 : r ≤ hi)
    {K : DecodedFde → ℕ → Prop} {k : CfaState → Dec DecodedFde}
    (hk : ∀ st s, Ends lo hi (k st) s K) :
    Ends lo hi (do
      let pos ← getPos
      if hi < pos then refuse .fdePastRecord
      else
        let st ← recordInstructions b hi cie rev false
        k st) r K := by
  rw [ends_bind, ends_getPos, if_neg (not_lt.mpr hr2), ends_bind]
  exact ends_recordInstructions hr1 hr2 hk

theorem ends_readFde {cies : List (ℕ × DecodedCie)} {recStart ciePtr : ℕ} (hlo : lo ≤ p)
    {K : DecodedFde → ℕ → Prop} (hK : ∀ fde q, K fde q) :
    Ends lo hi (readFde b rev cies recStart hi ciePtr) p K ↔
      FdeFits b cies recStart hi ciePtr p := by
  rw [readFde, FdeFits]
  by_cases hptr : recStart + 4 < ciePtr
  · simp [hptr, not_le.mpr hptr]
  · rw [if_neg hptr]
    simp only [not_lt.mp hptr, forall_const]
    cases hc : cies.lookup (recStart + 4 - ciePtr) with
    | none => simp
    | some cie =>
      simp only [Option.some.injEq, forall_eq']
      rw [ends_bind, ends_getPos, ends_bind]
      refine ends_fdeAddresses rfl hlo fun a q hq1 hq2 => ?_
      by_cases hrange : 0xffffffff < a.2
      · simp [hrange, not_le.mpr hrange]
      · rw [if_neg hrange, ends_bind, fdeAugmentation]
        simp only [not_lt.mp hrange, forall_const]
        by_cases hz : cie.hasZAugmentation = true
        · have h3 := readULeb_pos b q
          rw [if_pos hz, ends_bind, ends_read, within_of (by omega) h3]
          simp only [hz, forall_const, ← hq1]
          refine ⟨fun h => h.1, fun hf => ⟨hf, ?_⟩⟩
          cases hl : (readULeb b q).1 with
          | none => simp
          | some augLen =>
            by_cases hz : augLen = 0
            · simp only [hz, ne_eq, not_true_eq_false, if_false, ends_pure]
              refine ends_fdeInstructions (le_trans (by omega) h3) hf fun st s => ?_
              cases validateCfiFunction a.2 0 0 0 st.ops with
              | some i => simp
              | none => exact ends_pure.mpr (hK _ _)
            · simp [hz]
        · rw [if_neg hz, ends_pure]
          simp only [hz, Bool.false_eq_true, false_implies, iff_true]
          refine ends_fdeInstructions (r := q) (by omega) hq2 fun st s => ?_
          cases validateCfiFunction a.2 0 0 0 st.ops with
          | some i => simp
          | none => exact ends_pure.mpr (hK _ _)

theorem ends_readRecord {found : Found} {recStart : ℕ} (hp : p = recStart + 4) :
    Ends recStart hi (readRecord b rev found recStart hi) p (fun _ _ => True) ↔
      HeaderFits b found recStart hi := by
  subst hp
  have h1 : recStart + 4 ≤ (readU32LE b (recStart + 4)).2 := readLE_pos b 4 (recStart + 4)
  rw [readRecord, ends_bind, ends_read, HeaderFits, within_of (by omega) h1]
  refine and_congr_right fun hf => ?_
  cases hid : (readU32LE b (recStart + 4)).1 with
  | none => simp
  | some idOrCiePtr =>
    have hpos : (readU32LE b (recStart + 4)).2 = recStart + 8 := readLE_pos_of_some hid
    simp only [Option.some.injEq, forall_eq']
    rw [hpos] at hf ⊢
    by_cases hz : idOrCiePtr = 0
    · rw [if_pos hz, if_pos hz, ends_bind]
      exact ends_readCie (by omega) fun _ _ => ends_pure.mpr trivial
    · rw [if_neg hz, if_neg hz, ends_bind]
      exact ends_readFde (by omega) fun _ _ => ends_pure.mpr trivial

end Parts

namespace Dec

variable {α β : Type} {p : ℕ}

def Plain (x : Dec α) : Prop := ∀ p, (x p).1.1 ≠ .error .outOfTurns

/-- A part that does not run out of turns, and what it returns satisfies `K` with the position
after it. -/
def Finishes (x : Dec α) (p : ℕ) (K : α → ℕ → Prop) : Prop :=
  (x p).1.1 ≠ .error .outOfTurns ∧ ∀ a q, (x p).1 = (.ok a, q) → K a q

theorem finishes_bind {x : Dec α} {f : α → Dec β} {K : β → ℕ → Prop}
    (h : Finishes x p fun a q => Finishes (f a) q K) : Finishes (x >>= f) p K := by
  have hb : (x >>= f) p = andThen x f p := rfl
  rw [Finishes, hb, andThen]
  obtain ⟨hx, hk⟩ := h
  rcases he : x p with ⟨⟨e | a, q⟩, uses⟩
  · rw [he] at hx
    refine ⟨fun h => hx ?_, nofun⟩
    cases h
    rfl
  · exact hk a q (by rw [he])

theorem Plain.finishes_bind {x : Dec α} {f : α → Dec β} {K : β → ℕ → Prop} (hx : Plain x)
    (h : ∀ a q, Finishes (f a) q K) : Finishes (x >>= f) p K :=
  Dec.finishes_bind ⟨hx p, fun a q _ => h a q⟩

theorem finishes_pure {a : α} {K : α → ℕ → Prop} (h : K a p) : Finishes (pure a : Dec α) p K := by
  refine ⟨nofun, ?_⟩
  rintro _ _ ⟨⟩
  exact h

theorem Finishes.mono {x : Dec α} {K K' : α → ℕ → Prop} (h : Finishes x p K)
    (hk : ∀ a q, K a q → K' a q) : Finishes x p K' := ⟨h.1, fun a q he => hk a q (h.2 a q he)⟩

theorem finishes_getPos {K : ℕ → ℕ → Prop} (h : K p p) : Finishes getPos p K := by
  refine ⟨nofun, ?_⟩
  rintro _ _ ⟨⟩
  exact h

theorem finishes_setPos {q : ℕ} {K : Unit → ℕ → Prop} (h : K () q) : Finishes (setPos q) p K := by
  refine ⟨nofun, ?_⟩
  rintro _ _ ⟨⟩
  exact h

theorem finishes_refuse {r : Refusal} {K : α → ℕ → Prop} : Finishes (refuse r : Dec α) p K :=
  ⟨nofun, nofun⟩

theorem Plain.bind {x : Dec α} {f : α → Dec β} (hx : Plain x) (hf : ∀ a, Plain (f a)) :
    Plain (x >>= f) := fun p =>
  (hx.finishes_bind (K := fun _ _ => True) fun a q => ⟨hf a q, fun _ _ _ => trivial⟩ :
    Finishes (x >>= f) p fun _ _ => True).1

theorem plain_pure {a : α} : Plain (pure a : Dec α) := fun _ => nofun

theorem plain_refuse {r : Refusal} : Plain (refuse r : Dec α) := fun _ => nofun

theorem plain_getPos : Plain getPos := fun _ => nofun

theorem plain_setPos {q : ℕ} : Plain (setPos q) := fun _ => nofun

theorem plain_range {l h : ℕ} : Plain (range l h) := fun _ => nofun

theorem plain_read {reader : ℕ → Option α × ℕ} : Plain (read reader) := fun _ => nofun

theorem plain_byte {b : List UInt8} : Plain (byte b) := fun _ => nofun

end Dec

section Total

variable {b : List UInt8} {rev : DwarfRegisterReverseMap} {lo hi p : ℕ}

theorem plain_augmentationString : Plain (augmentationString b hi) := by
  refine plain_getPos.bind fun pos => plain_range.bind fun _ => plain_setPos.bind fun _ => ?_
  split_ifs
  · exact plain_refuse
  · exact plain_setPos.bind fun _ => plain_pure

theorem plain_cieNumbers {version : ℕ} : Plain (cieNumbers b hi version) := by
  refine plain_read.bind fun caf => ?_
  cases caf with
  | none => exact plain_refuse
  | some caf =>
    dsimp only
    split
    · exact plain_refuse
    · refine plain_read.bind fun daf => ?_
      cases daf with
      | none => exact plain_refuse
      | some daf =>
        dsimp only
        split
        · exact plain_refuse
        · split
          · refine plain_getPos.bind fun pos => ?_
            split
            · exact plain_refuse
            · exact plain_byte.bind fun _ => plain_pure
          · refine plain_read.bind fun ra => ?_
            cases ra with
            | none => exact plain_refuse
            | some ra => exact plain_pure

theorem plain_addressSizes {version : ℕ} : Plain (addressSizes hi version) := by
  rw [addressSizes]
  split_ifs
  · refine plain_getPos.bind fun pos => ?_
    split_ifs
    · exact plain_refuse
    · exact plain_range.bind fun _ => plain_setPos
  · exact plain_pure

theorem plain_augmentationFields {recStart augEnd encoding : ℕ} (cs : List UInt8) :
    Plain (augmentationFields b recStart augEnd cs encoding) := by
  induction cs generalizing encoding with
  | nil => exact plain_pure
  | cons c cs ih =>
    rw [augmentationFields]
    split_ifs
    · refine plain_getPos.bind fun pos => ?_
      split_ifs
      · exact plain_refuse
      · exact plain_byte.bind fun e => ih
    all_goals exact plain_refuse

theorem plain_cieAugmentation {recStart : ℕ} {aug : List UInt8} :
    Plain (cieAugmentation b recStart hi aug) := by
  cases aug with
  | nil => exact plain_pure
  | cons c cs =>
    simp only [cieAugmentation]
    split_ifs
    · refine plain_read.bind fun augLen => ?_
      cases augLen with
      | none => exact plain_refuse
      | some augLen =>
        refine plain_getPos.bind fun pos => ?_
        split_ifs
        · exact plain_refuse
        · exact plain_range.bind fun _ => (plain_augmentationFields cs).bind fun _ =>
            plain_setPos.bind fun _ => plain_pure
    · exact plain_refuse

theorem plain_fdeAddresses {encoding : ℕ} : Plain (fdeAddresses b encoding) := by
  refine plain_read.bind fun location => ?_
  cases location with
  | none => exact plain_refuse
  | some location =>
    refine plain_read.bind fun range => ?_
    cases range with
    | none => exact plain_refuse
    | some range => exact plain_pure

theorem plain_fdeAugmentation {recStart : ℕ} {cie : DecodedCie} :
    Plain (fdeAugmentation b recStart cie) := by
  rw [fdeAugmentation]
  split_ifs
  · refine plain_read.bind fun augLen => ?_
    cases augLen with
    | none => exact plain_refuse
    | some augLen =>
      dsimp only
      split_ifs
      · exact plain_refuse
      · exact plain_pure
  · exact plain_pure

theorem finishes_recordInstructions {cie : DecodedCie} {pass : Bool} (hb : hi ≤ b.length) :
    Finishes (recordInstructions b hi cie rev pass) p fun _ q => q = hi := by
  refine finishes_bind (finishes_getPos (plain_range.finishes_bind fun _ _ => ?_))
  split_ifs with hend
  · exact ⟨nofun, nofun⟩
  · have hdec : ∃ r, decodeCfaInstructions ((b.take hi).drop p) cie rev pass = some r ∧
        ∀ st, r = .ok st → st.pos = ((b.take hi).drop p).length := decodeCfaInstructions_ends pass
    obtain ⟨r, hr, hpos⟩ := hdec
    rw [hr]
    cases r with
    | error e => exact finishes_refuse
    | ok st =>
      refine finishes_bind (finishes_setPos (finishes_pure ?_))
      have hlen : ((b.take hi).drop p).length = hi - p := by
        rw [List.length_drop, List.length_take, min_eq_left hb]
      have hst := hpos st rfl
      omega

theorem finishes_readCie {recStart : ℕ} (hb : hi ≤ b.length) :
    Finishes (readCie b rev recStart hi) p fun _ q => q = hi := by
  refine plain_getPos.finishes_bind fun pos _ => ?_
  split
  · exact finishes_refuse
  · refine plain_byte.finishes_bind fun version _ => ?_
    split
    · exact finishes_refuse
    · refine plain_augmentationString.finishes_bind fun aug _ =>
        plain_cieNumbers.finishes_bind fun numbers _ =>
        plain_addressSizes.finishes_bind fun _ _ =>
        plain_cieAugmentation.finishes_bind fun data _ => ?_
      dsimp only
      generalize (if data.1 = 0xff then 0x00 else data.1) = encoding
      split
      · exact finishes_refuse
      · refine finishes_bind ((finishes_recordInstructions hb).mono fun st q hq => ?_)
        split <;> exact finishes_pure hq

theorem finishes_readFde {cies : List (ℕ × DecodedCie)} {recStart ciePtr : ℕ}
    (hb : hi ≤ b.length) :
    Finishes (readFde b rev cies recStart hi ciePtr) p fun _ q => q = hi := by
  rw [readFde]
  split
  · exact finishes_refuse
  · cases cies.lookup (recStart + 4 - ciePtr) with
    | none => exact finishes_refuse
    | some cie =>
      refine plain_getPos.finishes_bind fun _ _ =>
        plain_fdeAddresses.finishes_bind fun addresses _ => ?_
      split
      · exact finishes_refuse
      · refine plain_fdeAugmentation.finishes_bind fun _ _ =>
          plain_getPos.finishes_bind fun _ _ => ?_
        split
        · exact finishes_refuse
        · refine finishes_bind ((finishes_recordInstructions hb).mono fun st q hq => ?_)
          cases validateCfiFunction addresses.2 0 0 0 st.ops with
          | some i => exact finishes_refuse
          | none => exact finishes_pure hq

theorem finishes_readRecord {found : Found} {recStart : ℕ} (hb : hi ≤ b.length) :
    Finishes (readRecord b rev found recStart hi) p fun _ q => q = hi := by
  refine plain_read.finishes_bind fun id _ => ?_
  cases id with
  | none => exact finishes_refuse
  | some id =>
    dsimp only
    split
    · exact finishes_bind ((finishes_readCie hb).mono fun _ _ hq => finishes_pure hq)
    · exact finishes_bind ((finishes_readFde hb).mono fun _ _ hq => finishes_pure hq)

end Total

section Walk

variable {b : List UInt8}

/-- A record the walk came to: it lies in the section, and its decoding is that of its bytes. -/
structure Visit.Of (b : List UInt8) (rev : DwarfRegisterReverseMap) (v : Visit) : Prop where
  result_eq : v.result = readRecord b rev v.found v.recStart v.recEnd (v.recStart + 4)
  recEnd_le : v.recEnd ≤ b.length

theorem walkRecords_spec (rev : DwarfRegisterReverseMap) (turns pos : ℕ) (found : Found)
    (hp : pos ≤ b.length) (ht : b.length < pos + turns) :
    ((walkRecords b rev turns pos found).2 ≠ .outOfTurns ∧
      (walkRecords b rev turns pos found).2 ≠ .stopped .outOfTurns) ∧
    (walkRecords b rev turns pos found).1.IsChain (fun v w => w.recStart = v.recEnd) ∧
    (∀ v ∈ (walkRecords b rev turns pos found).1.head?, v.recStart = pos) ∧
    ∀ v ∈ (walkRecords b rev turns pos found).1, v.Of b rev := by
  induction turns generalizing pos found with
  | zero => omega
  | succ turns ih =>
    have hnone : ∀ o : Outcome, o ≠ .outOfTurns ∧ o ≠ .stopped .outOfTurns →
        (o ≠ .outOfTurns ∧ o ≠ .stopped .outOfTurns) ∧
        ([] : List Visit).IsChain (fun v w => w.recStart = v.recEnd) ∧
        (∀ v ∈ ([] : List Visit).head?, v.recStart = pos) ∧ ∀ v ∈ ([] : List Visit), v.Of b rev :=
      fun o ho => ⟨ho, .nil, by simp, by simp⟩
    rw [walkRecords]
    by_cases hend : b.length < pos + 4
    · rw [if_pos hend]
      exact hnone _ ⟨nofun, nofun⟩
    rw [if_neg hend]
    dsimp only
    generalize leNumber b pos 4 = length
    by_cases hz : length = 0
    · rw [if_pos hz]
      exact hnone _ ⟨nofun, nofun⟩
    by_cases hlong : length = 0xffffffff
    · rw [if_neg hz, if_pos hlong]
      exact hnone _ ⟨nofun, nofun⟩
    by_cases hpast : b.length < pos + 4 + length
    · rw [if_neg hz, if_neg hlong, if_pos hpast]
      exact hnone _ ⟨nofun, nofun⟩
    rw [if_neg hz, if_neg hlong, if_neg hpast]
    have hb : pos + 4 + length ≤ b.length := not_lt.mp hpast
    have hfin : Finishes (readRecord b rev found pos (pos + 4 + length)) (pos + 4)
        fun _ q => q = pos + 4 + length := finishes_readRecord hb
    cases hr : (readRecord b rev found pos (pos + 4 + length) (pos + 4)).1.1 with
    | error e =>
      have he : e ≠ .outOfTurns := fun he => hfin.1 (by rw [hr, he])
      refine ⟨⟨nofun, fun h => he (Outcome.stopped.inj h)⟩, .singleton _, by simp, ?_⟩
      intro v hv
      rw [List.mem_singleton.mp hv]
      exact ⟨rfl, hb⟩
    | ok found' =>
      obtain ⟨h1, h2, h3, h4⟩ := ih (pos + 4 + length) found' hb (by omega)
      refine ⟨h1, List.isChain_cons.mpr ⟨h3, h2⟩, by simp, ?_⟩
      intro v hv
      rcases List.mem_cons.mp hv with rfl | hv
      · exact ⟨rfl, hb⟩
      · exact h4 v hv

end Walk

/-- **When the decoder stays inside its records.**  For every section and every target: the walk
ends, its records follow one another, what it reads of a record and the ranges it forms lie in that
record, and a record that is accepted is consumed up to its end, exactly if the header of every
record that the walk comes to fits into the record. -/
theorem decodeEhFrame_inside_iff (b : List UInt8) (regs : DwarfRegisterMapping) :
    StaysInside b regs ↔
      ∀ v ∈ (decodeEhFrame b regs).1, HeaderFits b v.found v.recStart v.recEnd := by
  cases hrev : DwarfRegisterReverseMap.build regs with
  | error e =>
    have hd : decodeEhFrame b regs = ([], .stopped (.refused e)) := by rw [decodeEhFrame, hrev]
    refine ⟨fun _ => by simp [hd], fun _ => ⟨?_, ?_, ?_, ?_⟩⟩ <;> simp [hd]
  | ok rev =>
    have hd : decodeEhFrame b regs = walkRecords b rev (b.length + 1) 0 ⟨[], []⟩ := by
      rw [decodeEhFrame, hrev]
    obtain ⟨hends, hfollow, -, hof⟩ := walkRecords_spec rev (b.length + 1) 0 ⟨[], []⟩
      (Nat.zero_le b.length) (by omega)
    rw [← hd] at hends hfollow hof
    have hiff : ∀ v : Visit, Ends v.recStart v.recEnd
        (readRecord b rev v.found v.recStart v.recEnd) (v.recStart + 4) (fun _ _ => True) ↔
        HeaderFits b v.found v.recStart v.recEnd := fun v => ends_readRecord rfl
    constructor
    · intro h v hv
      refine (hiff v).mp ⟨?_, fun _ _ _ => trivial⟩
      rw [← (hof v hv).result_eq]
      exact h.within v hv
    · intro h
      refine ⟨hends, hfollow, fun v hv => ?_, fun v hv found he => ?_⟩
      · rw [(hof v hv).result_eq]
        exact ((hiff v).mpr (h v hv)).1
      · have hfin : Finishes (readRecord b rev v.found v.recStart v.recEnd) (v.recStart + 4)
            fun _ q => q = v.recEnd := finishes_readRecord (hof v hv).recEnd_le
        rw [Finishes, ← (hof v hv).result_eq] at hfin
        exact hfin.2 found _ (Prod.ext he rfl)

/-- A common record of six bytes, whose numbers are the bytes after it. -/
def reversedRange : List UInt8 := [6, 0, 0, 0, 0, 0, 0, 0, 3, 0, 1, 0x78, 16]

theorem decodeEhFrame_reversedRange : ¬StaysInside reversedRange ⟨[], some 16⟩ := by
  have hbad : ∃ v ∈ (decodeEhFrame reversedRange ⟨[], some 16⟩).1, ∃ u ∈ v.result.2,
      ¬Within v.recStart v.recEnd u := by decide
  obtain ⟨v, hv, u, hu, hout⟩ := hbad
  exact fun h => hout (h.within v hv u hu)

end DssPrime.EhFrame
