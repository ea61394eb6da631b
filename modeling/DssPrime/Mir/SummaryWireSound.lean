import Mathlib
import DssPrime.Mir.SummaryWire

/-!
# The wire format round-trips and refuses everything else

Every field has two lemmas: what the encoder wrote is read back (`Reads`), and on any buffer the
read stays inside of it and takes as many bytes as the encoder would write for the result (`Safe`).
-/

namespace DssPrime.SummaryWire

open Codec Codec.Reader

theorem leWord_putU32 (v : BitVec 32) :
    leWord ((v &&& 0xFF#32).setWidth 8) (((v >>> 8) &&& 0xFF#32).setWidth 8)
      (((v >>> 16) &&& 0xFF#32).setWidth 8) (((v >>> 24) &&& 0xFF#32).setWidth 8) = v := by
  apply BitVec.eq_of_getLsbD_eq
  intro i hi
  interval_cases i <;> simp [leWord]

theorem u32_of_bytes {b : List Byte} {c : Cursor} {x₀ x₁ x₂ x₃ : Byte} (hc : c.bad = false)
    (h₀ : b[c.pos + 0]? = some x₀) (h₁ : b[c.pos + 1]? = some x₁) (h₂ : b[c.pos + 2]? = some x₂)
    (h₃ : b[c.pos + 3]? = some x₃) :
    u32 b c = .ok (leWord x₀ x₁ x₂ x₃, { c with pos := c.pos + 4 }) := by
  have hlt : c.pos + 3 < b.length := (List.getElem?_eq_some_iff.1 h₃).1
  rw [u32, bind_ok (need_true hc (by omega))]
  simp only [Bool.not_true, Bool.false_eq_true, if_false]
  rw [bind_ok (peekByte_of_get h₀), bind_ok (peekByte_of_get h₁), bind_ok (peekByte_of_get h₂),
    bind_ok (peekByte_of_get h₃)]
  rfl

theorem get_after (pre xs : List Byte) (i : ℕ) : (pre ++ xs)[pre.length + i]? = xs[i]? := by
  rw [List.getElem?_append_right (Nat.le_add_right _ _), Nat.add_sub_cancel_left]

theorem reads_u32 (v : BitVec 32) : Reads u32 (putU32 v) v := by
  intro pre post
  have h := @u32_of_bytes (pre ++ (putU32 v ++ post)) ⟨pre.length, false⟩ _ _ _ _ rfl
    ((get_after pre _ 0).trans rfl) ((get_after pre _ 1).trans rfl)
    ((get_after pre _ 2).trans rfl) ((get_after pre _ 3).trans rfl)
  rw [h, leWord_putU32]
  rfl

theorem get_of_lt {b : List Byte} {i : ℕ} (h : i < b.length) (ext : List Byte) :
    (b ++ ext)[i]? = some b[i] := by
  rw [List.getElem?_append_left h, List.getElem?_eq_getElem h]

theorem safe_u32 : Safe u32 fun _ n => n = 4 := by
  refine Safe.of_need (n := 4) (R := fun _ n => n = 0) rfl (Safe.pure rfl) ?_
  intro b c hb hle
  have hget : ∀ (i : ℕ) (h : c.pos + i < b.length) (ext : List Byte),
      (b ++ ext)[c.pos + i]? = some b[c.pos + i] := fun _ h ext => get_of_lt h ext
  exact SafeAt.of_run hb hle rfl fun ext => u32_of_bytes hb (hget 0 (by omega) ext)
    (hget 1 (by omega) ext) (hget 2 (by omega) ext) (hget 3 (by omega) ext)

theorem u8_of_byte {b : List Byte} {c : Cursor} {x : Byte} (hc : c.bad = false)
    (h : b[c.pos + 0]? = some x) : u8 b c = .ok (x, { c with pos := c.pos + 1 }) := by
  have hlt : c.pos + 0 < b.length := (List.getElem?_eq_some_iff.1 h).1
  rw [u8, bind_ok (need_true hc (by omega))]
  simp only [Bool.not_true, Bool.false_eq_true, if_false]
  rw [bind_ok (peekByte_of_get h)]
  rfl

theorem reads_u8 (v : Byte) : Reads u8 (putU8 v) v := by
  intro pre post
  exact @u8_of_byte (pre ++ (putU8 v ++ post)) ⟨pre.length, false⟩ _ rfl
    ((get_after pre _ 0).trans rfl)

theorem safe_u8 : Safe u8 fun _ n => n = 1 := by
  refine Safe.of_need (n := 1) (R := fun _ n => n = 0) rfl (Safe.pure rfl) ?_
  intro b c hb hle
  have hlt : c.pos + 0 < b.length := by omega
  exact SafeAt.of_run hb hle rfl fun ext => u8_of_byte hb (get_of_lt hlt ext)

theorem reads_boolean (v : Bool) : Reads boolean (putBool v) v := by
  have h := (reads_u8 (if v then 1#8 else 0#8)).bind_pure (f := fun x => x != 0#8)
  cases v with
  | false => exact h
  | true => exact h

theorem safe_boolean : Safe boolean fun _ n => n = 1 :=
  safe_u8.bind fun _ => Safe.pure rfl

theorem reads_enumerator {α : Type} {decode : Byte → Option α} {v : Byte} {x : α}
    (h : decode v = some x) : Reads (enumerator decode) (putU8 v) x := by
  have hthen : Reads (declared (decode v)) [] x := by
    rw [h]
    exact Reads.pure x
  exact (reads_u8 v).bind hthen

theorem safe_enumerator {α : Type} (decode : Byte → Option α) :
    Safe (enumerator decode) fun _ n => n = 1 := by
  refine safe_u8.bind fun v => ?_
  cases decode v with
  | none => exact Safe.refuse
  | some x => exact Safe.pure rfl

theorem decodeBinding_byte (x : SymbolBinding) : decodeBinding (bindingByte x) = some x := by
  cases x <;> rfl

theorem decodeVisibility_byte (x : SymbolVisibility) :
    decodeVisibility (visibilityByte x) = some x := by
  cases x <;> rfl

def Counts {α : Type} (v : List α) : Prop := v.length < 2 ^ 32

theorem toNat_count {α : Type} {v : List α} (h : Counts v) :
    (BitVec.ofNat 32 v.length).toNat = v.length := by
  rw [BitVec.toNat_ofNat, Nat.mod_eq_of_lt h]

theorem strBytes_run {b : List Byte} {c : Cursor} {n : ℕ} (hc : c.bad = false)
    (h : c.pos + n ≤ b.length) :
    strBytes n b c = .ok ((b.drop c.pos).take n, { c with pos := c.pos + n }) := by
  rw [strBytes, bind_ok (need_true hc h)]
  simp only [Bool.not_true, Bool.false_eq_true, if_false]
  rw [bind_ok (bytesAt_of_le h)]
  rfl

theorem reads_strBytes (s : Str) : Reads (strBytes s.length) s s := by
  intro pre post
  have hle : pre.length + s.length ≤ (pre ++ (s ++ post)).length := by
    simp only [List.length_append]
    omega
  rw [strBytes_run rfl hle, List.drop_left, List.take_left]

theorem safe_strBytes (n : ℕ) : Safe (strBytes n) fun s m => m = s.length := by
  refine Safe.of_need (n := n) (R := fun _ m => m = 0) rfl (Safe.pure rfl) ?_
  intro b c hb hle
  have hlen : ((b.drop c.pos).take n).length = n := by
    rw [List.length_take, List.length_drop]
    omega
  refine SafeAt.of_run hb hle hlen.symm fun ext => ?_
  rw [strBytes_run hb (by rw [List.length_append]; omega), List.drop_append_of_le_length (by omega),
    List.take_append_of_le_length (by rw [List.length_drop]; omega)]

theorem reads_str {s : Str} (h : Counts s) : Reads str (putStr s) s := by
  refine (reads_u32 _).bind ?_
  rw [toNat_count h]
  exact reads_strBytes s

theorem length_putU32 (v : BitVec 32) : (putU32 v).length = 4 := rfl

theorem length_putStr (s : Str) : (putStr s).length = 4 + s.length := by
  rw [putStr, List.length_append, length_putU32]

theorem safe_str : Safe str fun s n => n = (putStr s).length := by
  refine safe_u32.bind fun n => (safe_strBytes n.toNat).mono fun s m hm => ?_
  rw [hm, length_putStr]

theorem length_putCounted {α : Type} (put : α → List Byte) (v : List α) :
    (putCounted put v).length = 4 + (v.map fun x => (put x).length).sum := by
  rw [putCounted, List.length_append, length_putU32, List.length_flatMap]

theorem mul_le_flatMap {α : Type} {put : α → List Byte} {m : ℕ} (v : List α)
    (h : ∀ x ∈ v, m ≤ (put x).length) : v.length * m ≤ (v.flatMap put).length := by
  induction v with
  | nil => simp
  | cons x v ih =>
    have hx := h x List.mem_cons_self
    have hv := ih fun y hy => h y (List.mem_cons_of_mem x hy)
    rw [List.length_cons, List.flatMap_cons, List.length_append, Nat.add_mul]
    omega

theorem reads_screened {α : Type} {row : Reader α} {put : α → List Byte} {m : ℕ} {v : List α}
    {f : Bool → Reader (List α)} (hrow : ∀ x ∈ v, Reads row (put x) x)
    (hmin : ∀ x ∈ v, m ≤ (put x).length)
    (hf : f true = reserve v.length m >>= fun _ => rows row v.length) :
    Reads (need (v.length * m) >>= f) (v.flatMap put) v := by
  intro pre post
  have hle := mul_le_flatMap v hmin
  have hlen : (pre ++ (v.flatMap put ++ post)).length =
      pre.length + ((v.flatMap put).length + post.length) := by
    rw [List.length_append, List.length_append]
  rw [bind_ok (need_true rfl (by rw [hlen]; simp only; omega)), hf,
    bind_ok (reserve_of_le (by rw [hlen]; simp only; omega))]
  exact Reads.rows v hrow pre post

theorem safe_screened {α : Type} {row : Reader α} {put : α → List Byte} {m k : ℕ}
    {p : Reader (List α)} {f : Bool → Reader (List α)}
    (hrow : Safe row fun x n => n = (put x).length) (hp : p = need (k * m) >>= f)
    (hd : Safe (f false) fun _ _ => True)
    (hf : f true = reserve k m >>= fun _ => rows row k) :
    Safe p fun v n => n = (v.map fun x => (put x).length).sum := by
  refine Safe.of_need hp hd fun b c hb hle => ?_
  rw [hp]
  refine SafeAt.need_bind hb hle ?_
  rw [hf]
  exact Safe.reserve_bind (Safe.rows hrow k) hle

theorem reads_strRows {v : List Str} (hv : ∀ s ∈ v, Counts s) :
    Reads (strRows v.length) (v.flatMap putStr) v := by
  refine reads_screened (fun s hs => reads_str (hv s hs)) (fun s _ => ?_) rfl
  rw [length_putStr]
  omega

theorem reads_strs {v : List Str} (h : Counts v) (hv : ∀ s ∈ v, Counts s) :
    Reads strs (putStrs v) v := by
  refine (reads_u32 _).bind ?_
  rw [toNat_count h]
  intro pre post
  have hbad : isBad (pre ++ (v.flatMap putStr ++ post)) ⟨pre.length, false⟩ =
      .ok (false, ⟨pre.length, false⟩) := rfl
  rw [bind_ok hbad]
  exact reads_strRows hv pre post

theorem safe_strRows (k : ℕ) :
    Safe (strRows k) fun v n => n = (v.map fun s => (putStr s).length).sum :=
  safe_screened safe_str rfl (Safe.pure trivial) rfl

theorem safe_strs : Safe strs fun v n => n = (putStrs v).length := by
  refine safe_u32.bind fun k => ?_
  refine Safe.isBad.bind (s := fun _ => 0) fun bad => ?_
  refine Safe.ite (Safe.pure rfl) ?_
  refine (safe_strRows k.toNat).mono fun v n hn => ?_
  rw [hn, putStrs, length_putCounted, Nat.zero_add]

theorem reads_counted {α : Type} {row : Reader α} {put : α → List Byte} {m : ℕ} {v : List α}
    (h : Counts v) (hrow : ∀ x ∈ v, Reads row (put x) x) (hmin : ∀ x ∈ v, m ≤ (put x).length) :
    Reads (counted m row) (putCounted put v) v := by
  refine (reads_u32 _).bind ?_
  rw [toNat_count h]
  exact reads_screened hrow hmin rfl

theorem safe_counted {α : Type} {row : Reader α} {put : α → List Byte} (m : ℕ)
    (hrow : Safe row fun x n => n = (put x).length) :
    Safe (counted m row) fun v n => n = (putCounted put v).length := by
  refine safe_u32.bind fun k => ?_
  refine (safe_screened (k := k.toNat) (m := m) hrow rfl Safe.refuse rfl).mono fun v n hn => ?_
  rw [hn, length_putCounted]

structure SummaryFunction.Short (f : SummaryFunction) : Prop where
  name : Counts f.name
  symbolRefs : Counts f.symbolRefs ∧ ∀ s ∈ f.symbolRefs, Counts s
  calls : Counts f.calls ∧ ∀ c ∈ f.calls, Counts c.calleeName

structure SummaryGlobal.Short (g : SummaryGlobal) : Prop where
  name : Counts g.name
  initSymbolRefs : Counts g.initSymbolRefs ∧ ∀ s ∈ g.initSymbolRefs, Counts s

structure SummaryImport.Short (i : SummaryImport) : Prop where
  mangledName : Counts i.mangledName
  libraryPath : Counts i.libraryPath
  version : Counts i.version

/-- Every count of the summary has 32 bits. -/
structure ModuleSummary.Short (s : ModuleSummary) : Prop where
  moduleDigest : Counts s.moduleDigest
  targetIdentity : Counts s.targetIdentity
  functions : Counts s.functions ∧ ∀ f ∈ s.functions, f.Short
  globals : Counts s.globals ∧ ∀ g ∈ s.globals, g.Short
  imports : Counts s.imports ∧ ∀ i ∈ s.imports, i.Short
  escapedSymbolNames : Counts s.escapedSymbolNames ∧ ∀ n ∈ s.escapedSymbolNames, Counts n

theorem length_putBool (v : Bool) : (putBool v).length = 1 := rfl

theorem length_putU8 (v : Byte) : (putU8 v).length = 1 := rfl

theorem length_putStrs (v : List Str) :
    (putStrs v).length = 4 + (v.map fun s => (putStr s).length).sum := length_putCounted putStr v

theorem reads_callSite {c : SummaryCallSite} (h : Counts c.calleeName) :
    Reads callSite (putCallSite c) c := by
  refine (reads_str h).bind ?_
  refine (reads_boolean _).bind ?_
  exact (reads_u32 _).bind_pure

theorem safe_callSite : Safe callSite fun c n => n = (putCallSite c).length := by
  refine safe_str.bind fun calleeName => ?_
  refine safe_boolean.bind fun direct => ?_
  refine safe_u32.bind fun loopDepth => ?_
  exact Safe.pure (by simp [putCallSite, length_putBool, length_putU32])

theorem reads_functionRow {f : SummaryFunction} (h : f.Short) :
    Reads functionRow (putFunction f) f := by
  refine (reads_str h.name).bind ?_
  refine (reads_u32 _).bind ?_
  refine (reads_enumerator (decodeBinding_byte _)).bind ?_
  refine (reads_enumerator (decodeVisibility_byte _)).bind ?_
  refine (reads_u32 _).bind ?_
  refine (reads_u32 _).bind ?_
  refine (reads_u32 _).bind ?_
  refine (reads_boolean _).bind ?_
  refine (reads_boolean _).bind ?_
  refine (reads_boolean _).bind ?_
  refine (reads_boolean _).bind ?_
  refine (reads_boolean _).bind ?_
  refine (reads_boolean _).bind ?_
  refine (reads_boolean _).bind ?_
  refine (reads_boolean _).bind ?_
  refine (reads_boolean _).bind ?_
  refine (reads_strs h.symbolRefs.1 h.symbolRefs.2).bind ?_
  refine Reads.bind_pure (reads_counted h.calls.1 (fun c hc => reads_callSite (h.calls.2 c hc)) ?_)
  intro c _
  simp only [putCallSite, List.length_append, length_putStr, length_putBool, length_putU32]
  omega

theorem safe_functionRow : Safe functionRow fun f n => n = (putFunction f).length := by
  refine safe_str.bind fun name => ?_
  refine safe_u32.bind fun symbol => ?_
  refine (safe_enumerator _).bind fun binding => ?_
  refine (safe_enumerator _).bind fun visibility => ?_
  refine safe_u32.bind fun instCount => ?_
  refine safe_u32.bind fun argExtent => ?_
  refine safe_u32.bind fun blockCount => ?_
  refine safe_boolean.bind fun noInline => ?_
  refine safe_boolean.bind fun alwaysInline => ?_
  refine safe_boolean.bind fun noOptimize => ?_
  refine safe_boolean.bind fun hasComputedGoto => ?_
  refine safe_boolean.bind fun hasSeh => ?_
  refine safe_boolean.bind fun frameBound => ?_
  refine safe_boolean.bind fun hasReturn => ?_
  refine safe_boolean.bind fun hasIndirectCall => ?_
  refine safe_boolean.bind fun isInlineDefinition => ?_
  refine safe_strs.bind fun symbolRefs => ?_
  refine (safe_counted 9 safe_callSite).bind fun calls => ?_
  exact Safe.pure (by simp [putFunction, length_putBool, length_putU32, length_putU8])

theorem reads_globalRow {g : SummaryGlobal} (h : g.Short) : Reads globalRow (putGlobal g) g := by
  refine (reads_str h.name).bind ?_
  refine (reads_u32 _).bind ?_
  refine (reads_enumerator (decodeBinding_byte _)).bind ?_
  refine (reads_enumerator (decodeVisibility_byte _)).bind ?_
  refine (reads_boolean _).bind ?_
  refine (reads_boolean _).bind ?_
  refine (reads_u32 _).bind ?_
  refine (reads_boolean _).bind ?_
  exact (reads_strs h.initSymbolRefs.1 h.initSymbolRefs.2).bind_pure

theorem safe_globalRow : Safe globalRow fun g n => n = (putGlobal g).length := by
  refine safe_str.bind fun name => ?_
  refine safe_u32.bind fun symbol => ?_
  refine (safe_enumerator _).bind fun binding => ?_
  refine (safe_enumerator _).bind fun visibility => ?_
  refine safe_boolean.bind fun isConst => ?_
  refine safe_boolean.bind fun isThreadLocal => ?_
  refine safe_u32.bind fun alignmentBytes => ?_
  refine safe_boolean.bind fun hasInitFunc => ?_
  refine safe_strs.bind fun initSymbolRefs => ?_
  exact Safe.pure (by simp [putGlobal, length_putBool, length_putU32, length_putU8])

theorem reads_importRow {i : SummaryImport} (h : i.Short) : Reads importRow (putImport i) i := by
  refine (reads_str h.mangledName).bind ?_
  refine (reads_str h.libraryPath).bind ?_
  refine (reads_str h.version).bind ?_
  refine (reads_u32 _).bind ?_
  refine (reads_boolean _).bind ?_
  exact (reads_boolean _).bind_pure

theorem safe_importRow : Safe importRow fun i n => n = (putImport i).length := by
  refine safe_str.bind fun mangledName => ?_
  refine safe_str.bind fun libraryPath => ?_
  refine safe_str.bind fun version => ?_
  refine safe_u32.bind fun symbol => ?_
  refine safe_boolean.bind fun isData => ?_
  refine safe_boolean.bind fun isThreadLocal => ?_
  exact Safe.pure (by simp [putImport, length_putBool, length_putU32])

theorem min_functionRow (f : SummaryFunction) : 39 ≤ (putFunction f).length := by
  simp only [putFunction, List.length_append, length_putStr, length_putU32, length_putU8,
    length_putBool, length_putStrs, length_putCounted]
  omega

theorem min_globalRow (g : SummaryGlobal) : 21 ≤ (putGlobal g).length := by
  simp only [putGlobal, List.length_append, length_putStr, length_putU32, length_putU8,
    length_putBool, length_putStrs]
  omega

theorem min_importRow (i : SummaryImport) : 18 ≤ (putImport i).length := by
  simp only [putImport, List.length_append, length_putStr, length_putU32, length_putBool]
  omega

theorem matchesFrom_run {b : List Byte} {c : Cursor} (ms : List Byte) {i : ℕ}
    (h : c.pos + i + ms.length ≤ b.length) :
    matchesFrom ms i b c =
      if (b.drop (c.pos + i)).take ms.length = ms then .ok ((), c) else .error .refused := by
  induction ms generalizing i with
  | nil => simp [matchesFrom, pure_run]
  | cons m ms ih =>
    rw [List.length_cons] at h
    have hlt : c.pos + i < b.length := by omega
    have hdrop : (b.drop (c.pos + i)).take (m :: ms).length =
        b[c.pos + i] :: (b.drop (c.pos + (i + 1))).take ms.length := by
      rw [List.length_cons, List.drop_eq_getElem_cons hlt, List.take_succ_cons, Nat.add_assoc]
    rw [matchesFrom, bind_ok (peekByte_of_get (List.getElem?_eq_getElem hlt)), hdrop]
    by_cases hm : b[c.pos + i] = m
    · have hrest := ih (i := i + 1) (by omega)
      simp only [hm, bne_self_eq_false, Bool.false_eq_true, if_false, List.cons.injEq, true_and]
      exact hrest
    · have hne : (b[c.pos + i] != m) = true := by simpa using hm
      rw [if_pos hne, if_neg (by simp [hm])]
      exact bind_error rfl

theorem magic_run {b : List Byte} {c : Cursor} (hc : c.bad = false)
    (h : c.pos + kMagicBytes ≤ b.length) :
    magic b c = if (b.drop c.pos).take kMagicBytes = kMagic
      then .ok ((), { c with pos := c.pos + kMagicBytes }) else .error .refused := by
  have hm := matchesFrom_run kMagic (i := 0) (b := b) (c := c) h
  rw [Nat.add_zero] at hm
  rw [magic, bind_ok (need_true hc h)]
  simp only [Bool.not_true, Bool.false_eq_true, if_false]
  by_cases heq : (b.drop c.pos).take kMagicBytes = kMagic
  · rw [if_pos heq]
    rw [if_pos (show (b.drop c.pos).take kMagic.length = kMagic from heq)] at hm
    exact bind_ok hm
  · rw [if_neg heq]
    rw [if_neg (show ¬ (b.drop c.pos).take kMagic.length = kMagic from heq)] at hm
    exact bind_error hm

theorem reads_magic : Reads magic kMagic () := by
  intro pre post
  have hle : pre.length + kMagicBytes ≤ (pre ++ (kMagic ++ post)).length := by
    simp only [List.length_append, show kMagic.length = kMagicBytes from rfl]
    omega
  have htake : (kMagic ++ post).take kMagic.length = kMagic := List.take_left
  rw [magic_run rfl hle, List.drop_left]
  rw [if_pos (show (kMagic ++ post).take kMagicBytes = kMagic from htake)]
  rfl

theorem safe_magic : Safe magic fun _ n => n = kMagic.length := by
  refine Safe.of_need (n := kMagicBytes) (R := fun _ _ => True) rfl Safe.refuse ?_
  intro b c hb hle
  have hext : ∀ ext : List Byte, ((b ++ ext).drop c.pos).take kMagicBytes =
      (b.drop c.pos).take kMagicBytes := by
    intro ext
    rw [List.drop_append_of_le_length (by omega), List.take_append_of_le_length]
    rw [List.length_drop]
    omega
  by_cases heq : (b.drop c.pos).take kMagicBytes = kMagic
  · refine SafeAt.of_run (n := kMagicBytes) (a := ()) hb hle rfl fun ext => ?_
    rw [magic_run hb (by rw [List.length_append]; omega), hext, if_pos heq]
  · refine .inl ?_
    rw [magic_run hb hle, if_neg heq]

theorem reads_version : Reads version (putU32 kSummaryFormatVersion) () := by
  have h := (reads_u32 kSummaryFormatVersion).bind
    (f := fun v => if v != kSummaryFormatVersion then refuse else pure ()) (Reads.pure ())
  rwa [List.append_nil] at h

theorem safe_version : Safe version fun _ n => n = 4 :=
  safe_u32.bind fun _ => Safe.ite Safe.refuse (Safe.pure rfl)

theorem reads_summary {s : ModuleSummary} (h : s.Short) :
    Reads summary (encodeModuleSummary s) s := by
  refine reads_magic.bind ?_
  refine reads_version.bind ?_
  refine (reads_str h.moduleDigest).bind ?_
  refine (reads_str h.targetIdentity).bind ?_
  refine (reads_counted h.functions.1 (fun f hf => reads_functionRow (h.functions.2 f hf))
    fun f _ => min_functionRow f).bind ?_
  refine (reads_counted h.globals.1 (fun g hg => reads_globalRow (h.globals.2 g hg))
    fun g _ => min_globalRow g).bind ?_
  refine (reads_counted h.imports.1 (fun i hi => reads_importRow (h.imports.2 i hi))
    fun i _ => min_importRow i).bind ?_
  exact (reads_strs h.escapedSymbolNames.1 h.escapedSymbolNames.2).bind_pure

theorem safe_summary : Safe summary fun s n => n = (encodeModuleSummary s).length := by
  refine safe_magic.bind fun _ => ?_
  refine safe_version.bind fun _ => ?_
  refine safe_str.bind fun moduleDigest => ?_
  refine safe_str.bind fun targetIdentity => ?_
  refine (safe_counted 39 safe_functionRow).bind fun functions => ?_
  refine (safe_counted 21 safe_globalRow).bind fun globals => ?_
  refine (safe_counted 18 safe_importRow).bind fun imports => ?_
  refine safe_strs.bind fun escapedSymbolNames => ?_
  exact Safe.pure (by simp [encodeModuleSummary, length_putU32])

theorem decode_cases (b : List Byte) : decodeModuleSummary b = .error .refused ∨
    ∃ s, decodeModuleSummary b = .ok s ∧ (encodeModuleSummary s).length = b.length ∧
      ∀ ext ≠ [], decodeModuleSummary (b ++ ext) = .error .refused := by
  obtain href | ⟨s, c, hrun, hle, hgood⟩ := safe_summary b ⟨0, false⟩ (Nat.zero_le _)
  · left
    rw [decodeModuleSummary, href]
  · by_cases hc : c.bad = false ∧ c.pos = b.length
    · right
      obtain ⟨hb, hpos⟩ := hc
      obtain ⟨-, hcost, hext⟩ := hgood hb
      obtain ⟨n, hn, hlen⟩ := hcost
      refine ⟨s, ?_, ?_, fun ext hne => ?_⟩
      · rw [decodeModuleSummary, hrun]
        simp only [hb, Bool.false_eq_true, if_false]
        rw [if_neg (not_not.2 hpos)]
      · rw [← hlen, ← hpos, hn, Nat.zero_add]
      · have hlong : c.pos ≠ (b ++ ext).length := by
          have := List.length_pos_iff.2 hne
          rw [List.length_append]
          omega
        rw [decodeModuleSummary, hext]
        simp only [hb, Bool.false_eq_true, if_false]
        rw [if_pos hlong]
    · left
      rw [decodeModuleSummary, hrun]
      simp only
      cases hb : c.bad with
      | true => rfl
      | false =>
        simp only [Bool.false_eq_true, if_false]
        rw [if_pos fun hpos => hc ⟨hb, hpos⟩]

theorem decode_encode {s : ModuleSummary} (h : s.Short) :
    decodeModuleSummary (encodeModuleSummary s) = .ok s := by
  have hrun := reads_summary h [] []
  rw [List.nil_append, List.append_nil, List.length_nil, Nat.zero_add] at hrun
  rw [decodeModuleSummary, hrun]
  simp

/-- **The wire format round-trips and refuses everything else.**  The decoder's answer on any
bytes is a refusal or a summary of the same encoded length; in particular it is never a fault, an
access outside of the buffer or a reserve that the rest of the buffer cannot hold. -/
theorem summary_wire_format :
    (∀ s : ModuleSummary, s.Short →
      decodeModuleSummary (encodeModuleSummary s) = .ok s ∧
      (∀ t : ModuleSummary, t.Short → encodeModuleSummary t = encodeModuleSummary s → t = s) ∧
      (∀ front rest : List Byte, rest ≠ [] → front ++ rest = encodeModuleSummary s →
        decodeModuleSummary front = .error .refused) ∧
      ∀ ext ≠ [], decodeModuleSummary (encodeModuleSummary s ++ ext) = .error .refused) ∧
    ∀ b : List Byte, decodeModuleSummary b = .error .refused ∨
      ∃ s, decodeModuleSummary b = .ok s ∧ (encodeModuleSummary s).length = b.length := by
  refine ⟨fun s hs => ⟨decode_encode hs, fun t ht heq => ?_, fun front rest hne heq => ?_, ?_⟩, ?_⟩
  · have h := decode_encode ht
    rw [heq, decode_encode hs] at h
    exact (Except.ok.inj h).symm
  · -- had a front decoded, it would refuse what follows it
    obtain href | ⟨t, -, -, hext⟩ := decode_cases front
    · exact href
    · have h := hext rest hne
      rw [heq, decode_encode hs] at h
      cases h
  · obtain href | ⟨t, -, -, hext⟩ := decode_cases (encodeModuleSummary s)
    · rw [decode_encode hs] at href
      cases href
    · exact hext
  · intro b
    obtain href | ⟨t, hrun, hlen, -⟩ := decode_cases b
    · exact .inl href
    · exact .inr ⟨t, hrun, hlen⟩

end DssPrime.SummaryWire
