import Mathlib

/-!
# Readers with a cursor and a sticky failure

A reader runs on a byte buffer from a cursor.  A read that does not fit sets the cursor's `bad`
flag, every later read is then void, and the caller asks for the flag at the end.  What must never
happen is a fault of the model: an access outside of the buffer (`Halt.outOfBounds`) or a reserve
of more elements than the rest of the buffer can hold (`Halt.overReserve`).

Two relations describe a reader.  `Reads p bytes a` says that `p` reads `a` off these bytes,
whatever surrounds them; `Safe p Q` says what `p` does on any buffer: no fault, and where the flag
stays clear, what was read and how many bytes it took, which bytes after the buffer do not change.
Both go through `>>=`.
-/

namespace DssPrime.Codec

abbrev Byte := BitVec 8

/-- Why a read stops: the input is refused, or the reader itself is at fault. -/
inductive Halt where
  | refused
  | outOfBounds
  | overReserve

/-- A place in the input, and whether a read failed. -/
structure Cursor where
  pos : ℕ
  bad : Bool

def Reader (α : Type) : Type := List Byte → Cursor → Except Halt (α × Cursor)

namespace Reader

variable {α β : Type}

def andThen (p : Reader α) (f : α → Reader β) : Reader β := fun b c =>
  match p b c with
  | .error e => .error e
  | .ok (a, c') => f a b c'

instance : Monad Reader where
  pure a := fun _ c => .ok (a, c)
  bind := andThen

def refuse : Reader α := fun _ _ => .error .refused

def isBad : Reader Bool := fun _ c => .ok (c.bad, c)

def need (n : ℕ) : Reader Bool := fun b c =>
  if c.bad || decide (b.length < c.pos + n) then .ok (false, { c with bad := true })
  else .ok (true, c)

def peekByte (off : ℕ) : Reader Byte := fun b c =>
  match b[c.pos + off]? with
  | some x => .ok (x, c)
  | none => .error .outOfBounds

def bytesAt (n : ℕ) : Reader (List Byte) := fun b c =>
  if c.pos + n ≤ b.length then .ok ((b.drop c.pos).take n, c) else .error .outOfBounds

def advance (n : ℕ) : Reader Unit := fun _ c => .ok ((), { c with pos := c.pos + n })

def reserve (n minRowBytes : ℕ) : Reader Unit := fun b c =>
  if n * minRowBytes ≤ b.length - c.pos then .ok ((), c) else .error .overReserve

def rows (row : Reader α) : ℕ → Reader (List α)
  | 0 => pure []
  | n + 1 => do
    if ← isBad then return []
    let x ← row
    let xs ← rows row n
    return x :: xs

variable {b : List Byte} {c c' : Cursor} {a : α}

theorem pure_run (a : α) (b : List Byte) (c : Cursor) : (pure a : Reader α) b c = .ok (a, c) := rfl

theorem bind_ok {p : Reader α} {f : α → Reader β} (h : p b c = .ok (a, c')) :
    (p >>= f) b c = f a b c' := by
  show andThen p f b c = f a b c'
  rw [andThen, h]

theorem bind_error {p : Reader α} {f : α → Reader β} {e : Halt} (h : p b c = .error e) :
    (p >>= f) b c = .error e := by
  show andThen p f b c = .error e
  rw [andThen, h]

theorem need_true {n : ℕ} (hc : c.bad = false) (hn : c.pos + n ≤ b.length) :
    need n b c = .ok (true, c) := by
  rw [need, hc, Bool.false_or, if_neg (by simp; omega)]

theorem need_false {n : ℕ} (h : c.bad = true ∨ b.length < c.pos + n) :
    need n b c = .ok (false, { c with bad := true }) := by
  rw [need, if_pos (by rw [Bool.or_eq_true, decide_eq_true_iff]; exact h)]

theorem peekByte_of_get {off : ℕ} {x : Byte} (h : b[c.pos + off]? = some x) :
    peekByte off b c = .ok (x, c) := by
  rw [peekByte, h]

theorem bytesAt_of_le {n : ℕ} (h : c.pos + n ≤ b.length) :
    bytesAt n b c = .ok ((b.drop c.pos).take n, c) := if_pos h

theorem reserve_of_le {n m : ℕ} (h : n * m ≤ b.length - c.pos) : reserve n m b c = .ok ((), c) :=
  if_pos h

def Reads (p : Reader α) (bytes : List Byte) (a : α) : Prop :=
  ∀ pre post : List Byte, p (pre ++ (bytes ++ post)) ⟨pre.length, false⟩ =
    .ok (a, ⟨pre.length + bytes.length, false⟩)

theorem Reads.pure (a : α) : Reads (Pure.pure a) [] a := by
  intro pre post
  rw [pure_run, List.length_nil, Nat.add_zero]

theorem Reads.bind {p : Reader α} {f : α → Reader β} {xs ys : List Byte} {r : β}
    (hp : Reads p xs a) (hf : Reads (f a) ys r) : Reads (p >>= f) (xs ++ ys) r := by
  intro pre post
  have h₁ := hp pre (ys ++ post)
  have h₂ := hf (pre ++ xs) post
  rw [List.length_append, List.append_assoc] at h₂
  rw [List.append_assoc, bind_ok h₁, h₂, List.length_append, Nat.add_assoc]

theorem Reads.bind_pure {p : Reader α} {f : α → β} {xs : List Byte} (hp : Reads p xs a) :
    Reads (p >>= fun x => Pure.pure (f x)) xs (f a) := by
  have h := hp.bind (f := fun x => Pure.pure (f x)) (Reads.pure (f a))
  rwa [List.append_nil] at h

theorem Reads.rows {row : Reader α} {enc : α → List Byte} (as : List α)
    (h : ∀ a ∈ as, Reads row (enc a) a) : Reads (rows row as.length) (as.flatMap enc) as := by
  induction as with
  | nil => exact Reads.pure []
  | cons a as ih =>
    have hrest := ih fun x hx => h x (List.mem_cons_of_mem a hx)
    intro pre post
    have hbad : isBad (pre ++ ((a :: as).flatMap enc ++ post)) ⟨pre.length, false⟩ =
        .ok (false, ⟨pre.length, false⟩) := rfl
    have hall : Reads (row >>= fun x => Reader.rows row as.length >>= fun xs =>
        Pure.pure (x :: xs)) (enc a ++ as.flatMap enc) (a :: as) :=
      (h a List.mem_cons_self).bind hrest.bind_pure
    rw [List.length_cons, Reader.rows, bind_ok hbad, List.flatMap_cons]
    exact hall pre post

/-- From a cursor in the buffer `p` refuses or goes on inside of the buffer; where the flag stays
clear, `Q` holds of the result and the bytes read, and more bytes after the buffer change
nothing. -/
def SafeAt (p : Reader α) (Q : α → ℕ → Prop) (b : List Byte) (c : Cursor) : Prop :=
  p b c = .error .refused ∨ ∃ a c', p b c = .ok (a, c') ∧ c'.pos ≤ b.length ∧
    (c'.bad = false → c.bad = false ∧
      (∃ n, c'.pos = c.pos + n ∧ Q a n) ∧ ∀ ext, p (b ++ ext) c = .ok (a, c'))

def Safe (p : Reader α) (Q : α → ℕ → Prop) : Prop :=
  ∀ (b : List Byte) (c : Cursor), c.pos ≤ b.length → SafeAt p Q b c

variable {Q R : α → ℕ → Prop}

theorem SafeAt.of_run {p : Reader α} {n : ℕ} (hc : c.bad = false) (hle : c.pos + n ≤ b.length)
    (hq : Q a n) (hrun : ∀ ext, p (b ++ ext) c = .ok (a, { c with pos := c.pos + n })) :
    SafeAt p Q b c := by
  have hnil := hrun []
  rw [List.append_nil] at hnil
  exact .inr ⟨a, _, hnil, hle, fun _ => ⟨hc, ⟨n, rfl, hq⟩, hrun⟩⟩

theorem Safe.mono {p : Reader α} (h : Safe p Q) (hqr : ∀ a n, Q a n → R a n) : Safe p R := by
  intro b c hc
  obtain href | ⟨a, c', hrun, hle, hgood⟩ := h b c hc
  · exact .inl href
  · refine .inr ⟨a, c', hrun, hle, fun hb => ?_⟩
    obtain ⟨hcb, hn, hext⟩ := hgood hb
    obtain ⟨n, hpos, hq⟩ := hn
    exact ⟨hcb, ⟨n, hpos, hqr a n hq⟩, hext⟩

theorem Safe.pure {a : α} (h : Q a 0) : Safe (Pure.pure a) Q :=
  fun _ c hc => .inr ⟨a, c, rfl, hc, fun hb => ⟨hb, ⟨0, rfl, h⟩, fun _ => rfl⟩⟩

theorem Safe.refuse : Safe refuse Q := fun _ _ _ => .inl rfl

theorem Safe.isBad : Safe isBad fun _ n => n = 0 :=
  fun _ c hc => .inr ⟨c.bad, c, rfl, hc, fun hb => ⟨hb, ⟨0, rfl, rfl⟩, fun _ => rfl⟩⟩

theorem Safe.bind {p : Reader α} {f : α → Reader β} {s : α → ℕ} {Q : β → ℕ → Prop}
    (hp : Safe p fun a n => n = s a) (hf : ∀ a, Safe (f a) fun r m => Q r (s a + m)) :
    Safe (p >>= f) Q := by
  intro b c hc
  obtain href | ⟨a, c₁, hrun, hle, hgood⟩ := hp b c hc
  · exact .inl (bind_error href)
  · unfold SafeAt
    rw [bind_ok hrun]
    obtain href | ⟨r, c₂, hrun₂, hle₂, hgood₂⟩ := hf a b c₁ hle
    · exact .inl href
    · refine .inr ⟨r, c₂, hrun₂, hle₂, fun hb => ?_⟩
      obtain ⟨hb₁, hm, hext₂⟩ := hgood₂ hb
      obtain ⟨m, hpos₂, hq⟩ := hm
      obtain ⟨hb₀, hn, hext⟩ := hgood hb₁
      obtain ⟨n, hpos, hcost⟩ := hn
      refine ⟨hb₀, ⟨n + m, by rw [hpos₂, hpos, Nat.add_assoc], by rw [hcost]; exact hq⟩, ?_⟩
      intro ext
      rw [bind_ok (hext ext), hext₂ ext]

theorem Safe.ite {p q : Reader α} {t : Prop} [Decidable t] (hp : Safe p Q) (hq : Safe q Q) :
    Safe (if t then p else q) Q := by
  split
  · exact hp
  · exact hq

theorem Safe.rows {row : Reader α} {s : α → ℕ} (h : Safe row fun a n => n = s a) (k : ℕ) :
    Safe (rows row k) fun as n => n = (as.map s).sum := by
  induction k with
  | zero => exact Safe.pure rfl
  | succ k ih =>
    refine Safe.isBad.bind fun bad => ?_
    refine Safe.ite (Safe.pure rfl) ?_
    refine h.bind fun x => ?_
    refine ih.bind fun xs => ?_
    exact Safe.pure (by simp)

theorem SafeAt.need_bind {n : ℕ} {f : Bool → Reader α} (hb : c.bad = false)
    (hle : c.pos + n ≤ b.length) (h : SafeAt (f true) Q b c) : SafeAt (need n >>= f) Q b c := by
  have hext : ∀ ext, (need n >>= f) (b ++ ext) c = f true (b ++ ext) c := fun ext =>
    bind_ok (need_true hb (by rw [List.length_append]; omega))
  unfold SafeAt
  rw [bind_ok (need_true hb hle)]
  simp only [hext]
  exact h

theorem Safe.of_need {p : Reader α} {n : ℕ} {f : Bool → Reader α} (hp : p = need n >>= f)
    (hd : Safe (f false) R)
    (hq : ∀ b c, c.bad = false → c.pos + n ≤ b.length → SafeAt p Q b c) : Safe p Q := by
  intro b c hc
  by_cases hn : c.bad = false ∧ c.pos + n ≤ b.length
  · exact hq b c hn.1 hn.2
  · have hfail : need n b c = .ok (false, { c with bad := true }) := by
      apply need_false
      cases hb : c.bad with
      | true => exact .inl rfl
      | false => exact .inr (by by_contra hlt; exact hn ⟨hb, by omega⟩)
    unfold SafeAt
    rw [hp, bind_ok hfail]
    obtain href | ⟨a, c', hrun, hle', hgood⟩ := hd b { c with bad := true } hc
    · exact .inl href
    · -- the flag is not cleared again
      refine .inr ⟨a, c', hrun, hle', fun hclear => ?_⟩
      cases (hgood hclear).1

theorem Safe.reserve_bind {n m : ℕ} {q : Reader α} (hq : Safe q Q) (h : c.pos + n * m ≤ b.length) :
    SafeAt (reserve n m >>= fun _ => q) Q b c := by
  have hext : ∀ ext, (reserve n m >>= fun _ => q) (b ++ ext) c = q (b ++ ext) c := fun ext =>
    bind_ok (reserve_of_le (by rw [List.length_append]; omega))
  unfold SafeAt
  rw [bind_ok (reserve_of_le (by omega))]
  simp only [hext]
  exact hq b c (by omega)

end Reader

end DssPrime.Codec
