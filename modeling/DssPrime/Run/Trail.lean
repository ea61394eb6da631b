import Mathlib.Data.Finset.Basic
import Mathlib.Data.List.Basic

/-!
# Undo trails

A container that can be rewound to a mark without having been copied: a stack, a set, and a list
whose writes are logged.  Each keeps a journal of what its in-place writes displaced, and a mark is
a place in the journal together with a size.  Nothing is recorded when the container grows; a rewind
cuts it back to the marked size.

`Undoes` says that records give an old list back, `TrailedStack.Since`, `TrailedSet.Since` and
`ArenaSince` that a container can still be rewound to an earlier state of it, which every operation
keeps and a rewind redeems.
-/

namespace DssPrime

universe u

section Records

variable {α : Type u}

/-- The value that the oldest record of a place displaced; the records stand newest first. -/
def displaced : List (ℕ × α) → ℕ → Option α
  | [], _ => none
  | r :: rs, i => (displaced rs i).or (if r.1 = i then some r.2 else none)

/-- The records give the old list back: each of its places still holds its value, or the oldest
record of the place has it. -/
def Undoes (recs : List (ℕ × α)) (v old : List α) : Prop :=
  ∀ i < old.length, (displaced recs i).or v[i]? = old[i]?

/-- Put back what the records displaced, newest first, below a size. -/
def replay (n : ℕ) : List (ℕ × α) → List α → List α
  | [], v => v
  | r :: rs, v => replay n rs (if r.1 < n then v.set r.1 r.2 else v)

def resize [Inhabited α] (n : ℕ) (v : List α) : List α :=
  v.take n ++ List.replicate (n - v.length) default

theorem length_resize [Inhabited α] (n : ℕ) (v : List α) : (resize n v).length = n := by
  simp only [resize, List.length_append, List.length_take, List.length_replicate]
  omega

theorem length_replay (n : ℕ) (recs : List (ℕ × α)) (v : List α) :
    (replay n recs v).length = v.length := by
  induction recs generalizing v with
  | nil => rfl
  | cons r recs ih =>
    rw [replay, ih]
    split
    · exact List.length_set
    · rfl

theorem replay_getElem? {n : ℕ} (recs : List (ℕ × α)) {v : List α} (hv : n ≤ v.length) {i : ℕ}
    (hi : i < n) : (replay n recs v)[i]? = (displaced recs i).or v[i]? := by
  induction recs generalizing v with
  | nil => rfl
  | cons r recs ih =>
    rw [replay, displaced]
    by_cases hri : r.1 = i
    · subst hri
      rw [if_pos hi, ih (by simpa using hv), List.getElem?_set_self (by omega)]
      simp
    · rw [if_neg hri, Option.or_none]
      by_cases hrn : r.1 < n
      · rw [if_pos hrn, ih (by simpa using hv), List.getElem?_set_ne hri]
      · rw [if_neg hrn, ih hv]

theorem undoes_refl (v : List α) : Undoes [] v v := fun _ _ => rfl

theorem Undoes.lt_of_displaced {recs : List (ℕ × α)} {v old : List α} (h : Undoes recs v old)
    {i : ℕ} (hi : i < old.length) (hnone : displaced recs i = none) : i < v.length := by
  have hval := h i hi
  rw [hnone, Option.none_or, List.getElem?_eq_getElem hi] at hval
  exact (List.getElem?_eq_some_iff.mp hval).1

theorem Undoes.push {recs : List (ℕ × α)} {v old : List α} (h : Undoes recs v old) (x : α) :
    Undoes recs (v ++ [x]) old := by
  intro i hi
  cases hd : displaced recs i with
  | some y =>
    have hval := h i hi
    rw [hd] at hval
    exact hval
  | none =>
    have hlt := h.lt_of_displaced hi hd
    have hval := h i hi
    rw [hd] at hval
    rw [List.getElem?_append_left hlt]
    exact hval

theorem Undoes.pop {recs : List (ℕ × α)} {v old : List α} {x : α} (h : Undoes recs (v ++ [x]) old) :
    Undoes ((v.length, x) :: recs) v old := by
  intro i hi
  have hval := h i hi
  rw [displaced]
  cases hd : displaced recs i with
  | some y =>
    rw [hd] at hval
    exact hval
  | none =>
    have hlt := h.lt_of_displaced hi hd
    rw [hd, Option.none_or] at hval
    rw [Option.none_or]
    by_cases hlast : v.length = i
    · subst hlast
      rw [if_pos rfl, Option.some_or, ← hval]
      simp
    · rw [if_neg hlast, Option.none_or, ← hval]
      rw [List.length_append, List.length_singleton] at hlt
      rw [List.getElem?_append_left (by omega)]

theorem Undoes.write {recs : List (ℕ × α)} {v old : List α} (h : Undoes recs v old) {i : ℕ} {x : α}
    (hx : v[i]? = some x) (y : α) : Undoes ((i, x) :: recs) (v.set i y) old := by
  intro j hj
  have hval := h j hj
  rw [displaced]
  cases hd : displaced recs j with
  | some z =>
    rw [hd] at hval
    exact hval
  | none =>
    rw [hd, Option.none_or] at hval
    rw [Option.none_or]
    by_cases hij : i = j
    · subst hij
      rw [if_pos rfl, Option.some_or, ← hval, hx]
    · rw [if_neg hij, Option.none_or, List.getElem?_set_ne hij]
      exact hval

theorem Undoes.writeAbove {recs : List (ℕ × α)} {v old : List α} (h : Undoes recs v old) {i : ℕ}
    (hi : old.length ≤ i) (y : α) : Undoes recs (v.set i y) old := by
  intro j hj
  rw [List.getElem?_set_ne (by omega)]
  exact h j hj

theorem Undoes.replay_resize [Inhabited α] {recs : List (ℕ × α)} {v old : List α}
    (h : Undoes recs v old) : replay old.length recs (resize old.length v) = old := by
  refine List.ext_getElem? fun i => ?_
  by_cases hi : i < old.length
  · rw [replay_getElem? recs (length_resize _ _).ge hi, ← h i hi]
    cases hd : displaced recs i with
    | some y => rfl
    | none =>
      have hlt := h.lt_of_displaced hi hd
      rw [Option.none_or, Option.none_or, resize, List.getElem?_append_left (by simp; omega),
        List.getElem?_take_of_lt hi]
  · rw [List.getElem?_eq_none (by simp [length_replay, length_resize]; omega),
      List.getElem?_eq_none (by omega)]

end Records

/-- A stack with a journal. -/
structure TrailedStack (α : Type u) where
  v : List α
  journal : List (ℕ × α)
  maxSizeSeen : ℕ
  armed : Bool
  seen : v.length ≤ maxSizeSeen

namespace TrailedStack

variable {α : Type u}

/-- A place to go back to. -/
structure Mark where
  size : ℕ
  journal : ℕ

def empty : TrailedStack α := ⟨[], [], 0, false, le_rfl⟩

instance : Inhabited (TrailedStack α) := ⟨empty⟩

def record (s : TrailedStack α) (i : ℕ) (x : α) : List (ℕ × α) :=
  if s.armed then (i, x) :: s.journal else s.journal

def push (s : TrailedStack α) (x : α) : TrailedStack α where
  v := s.v ++ [x]
  journal := s.journal
  maxSizeSeen := max s.maxSizeSeen (s.v.length + 1)
  armed := s.armed
  seen := by simp

def pop (s : TrailedStack α) : Option (TrailedStack α) :=
  match s.v.getLast? with
  | none => none
  | some x => some {
      v := s.v.dropLast
      journal := s.record (s.v.length - 1) x
      maxSizeSeen := s.maxSizeSeen
      armed := s.armed
      seen := by
        have := s.seen
        simp only [List.length_dropLast]
        omega }

def popN : ℕ → TrailedStack α → Option (TrailedStack α)
  | 0, s => some s
  | n + 1, s => s.pop.bind (popN n)

def truncate (s : TrailedStack α) (n : ℕ) : Option (TrailedStack α) :=
  if s.v.length < n then none else popN (s.v.length - n) s

def assign (s : TrailedStack α) (i : ℕ) (y : α) : Option (TrailedStack α) :=
  match s.v[i]? with
  | none => none
  | some x => some {
      v := s.v.set i y
      journal := s.record i x
      maxSizeSeen := s.maxSizeSeen
      armed := s.armed
      seen := by simpa using s.seen }

def assignBack (s : TrailedStack α) (y : α) : Option (TrailedStack α) :=
  if s.v = [] then none else s.assign (s.v.length - 1) y

def markOf (s : TrailedStack α) : Mark := ⟨s.v.length, s.journal.length⟩

def arm (s : TrailedStack α) : TrailedStack α := { s with armed := true }

def rewindTo [Inhabited α] (s : TrailedStack α) (m : Mark) : Option (TrailedStack α) :=
  if h : s.journal.length < m.journal ∨ s.maxSizeSeen < m.size then none
  else some {
    v := replay m.size (s.journal.take (s.journal.length - m.journal)) (resize m.size s.v)
    journal := s.journal.drop (s.journal.length - m.journal)
    maxSizeSeen := s.maxSizeSeen
    armed := s.armed
    seen := by
      rw [length_replay, length_resize]
      omega }

def discardJournal (s : TrailedStack α) : TrailedStack α := { s with journal := [], armed := false }

structure Since (s₀ s : TrailedStack α) : Prop where
  armed : s.armed = true
  seen : s₀.v.length ≤ s.maxSizeSeen
  /-- The records since then give the earlier values back. -/
  undo : ∃ recs, s.journal = recs ++ s₀.journal ∧ Undoes recs s.v s₀.v

variable {s₀ s s' : TrailedStack α}

theorem since_arm (s : TrailedStack α) : Since s s.arm :=
  ⟨rfl, s.seen, [], rfl, undoes_refl _⟩

theorem Since.congr (h : Since s₀ s) (hv : s'.v = s.v) (hj : s'.journal = s.journal)
    (ha : s'.armed = true) (hm : s.maxSizeSeen ≤ s'.maxSizeSeen) : Since s₀ s' := by
  refine ⟨ha, h.seen.trans hm, ?_⟩
  rw [hv, hj]
  exact h.undo

theorem Since.arm (h : Since s₀ s) : Since s₀ s.arm := h.congr rfl rfl rfl le_rfl

theorem Since.rewound {s₁ : TrailedStack α} (h₁ : Since s₀ s₁) (h : Since s₀ s)
    (h' : s'.v = s₁.v ∧ s'.journal = s₁.journal ∧ s'.armed = true ∧
      s'.maxSizeSeen = s.maxSizeSeen) :
    Since s₀ s' := by
  obtain ⟨hv, hj, ha, hm⟩ := h'
  refine ⟨ha, h.seen.trans hm.ge, ?_⟩
  rw [hv, hj]
  exact h₁.undo

theorem Since.push (h : Since s₀ s) (x : α) : Since s₀ (s.push x) := by
  obtain ⟨recs, hj, hundo⟩ := h.undo
  exact ⟨h.armed, h.seen.trans (le_max_left _ _), recs, hj, hundo.push x⟩

theorem Since.pop (h : Since s₀ s) (hpop : s.pop = some s') : Since s₀ s' := by
  obtain ⟨recs, hj, hundo⟩ := h.undo
  unfold TrailedStack.pop at hpop
  cases hlast : s.v.getLast? with
  | none =>
    rw [hlast] at hpop
    cases hpop
  | some x =>
    rw [hlast] at hpop
    cases hpop
    obtain ⟨v, hv⟩ := List.getLast?_eq_some_iff.mp hlast
    refine ⟨h.armed, h.seen, (v.length, x) :: recs, ?_, ?_⟩
    · simp [record, h.armed, hj, hv]
    · rw [hv] at hundo
      simpa [hv] using hundo.pop

theorem Since.popN {n : ℕ} (h : Since s₀ s) (hpop : popN n s = some s') : Since s₀ s' := by
  induction n generalizing s with
  | zero =>
    cases hpop
    exact h
  | succ n ih =>
    obtain ⟨t, ht, hpop⟩ := Option.bind_eq_some_iff.mp hpop
    exact ih (h.pop ht) hpop

theorem Since.truncate {n : ℕ} (h : Since s₀ s) (ht : s.truncate n = some s') : Since s₀ s' := by
  unfold TrailedStack.truncate at ht
  split at ht
  · cases ht
  · exact h.popN ht

theorem Since.assign {i : ℕ} {y : α} (h : Since s₀ s) (ha : s.assign i y = some s') :
    Since s₀ s' := by
  obtain ⟨recs, hj, hundo⟩ := h.undo
  unfold TrailedStack.assign at ha
  cases hx : s.v[i]? with
  | none =>
    rw [hx] at ha
    cases ha
  | some x =>
    rw [hx] at ha
    cases ha
    refine ⟨h.armed, h.seen, (i, x) :: recs, ?_, hundo.write hx y⟩
    simp [record, h.armed, hj]

theorem Since.assignBack {y : α} (h : Since s₀ s) (ha : s.assignBack y = some s') :
    Since s₀ s' := by
  unfold TrailedStack.assignBack at ha
  split at ha
  · cases ha
  · exact h.assign ha

/-- **A rewind gives the earlier state back.** -/
theorem Since.rewindTo [Inhabited α] (h : Since s₀ s) :
    ∃ s', s.rewindTo s₀.markOf = some s' ∧ s'.v = s₀.v ∧ s'.journal = s₀.journal ∧
      s'.armed = true ∧ s'.maxSizeSeen = s.maxSizeSeen := by
  obtain ⟨recs, hj, hundo⟩ := h.undo
  have hlen : s.journal.length - s₀.journal.length = recs.length := by simp [hj]
  have hcond : ¬ (s.journal.length < s₀.markOf.journal ∨ s.maxSizeSeen < s₀.markOf.size) := by
    have := h.seen
    have hle : s₀.journal.length ≤ s.journal.length := by simp [hj]
    simp only [markOf]
    omega
  refine ⟨_, dif_neg hcond, ?_, ?_, h.armed, rfl⟩
  · show replay s₀.v.length (s.journal.take (s.journal.length - s₀.journal.length))
      (resize s₀.v.length s.v) = s₀.v
    rw [hlen, hj, List.take_left]
    exact hundo.replay_resize
  · show s.journal.drop (s.journal.length - s₀.journal.length) = s₀.journal
    rw [hlen, hj, List.drop_left]

/-! What the operations do to the values does not depend on the trail. -/

theorem pop_map_v (s : TrailedStack α) :
    s.pop.map TrailedStack.v = s.v.getLast?.map fun _ => s.v.dropLast := by
  unfold TrailedStack.pop
  cases s.v.getLast? <;> rfl

theorem popN_map_v (n : ℕ) (s : TrailedStack α) :
    (TrailedStack.popN n s).map TrailedStack.v =
      if s.v.length < n then none else some (s.v.take (s.v.length - n)) := by
  induction n generalizing s with
  | zero => simp [TrailedStack.popN]
  | succ n ih =>
    have hpop := pop_map_v s
    simp only [TrailedStack.popN]
    cases hs : s.pop with
    | none =>
      rw [hs] at hpop
      cases hv : s.v.getLast? with
      | none => simp [List.getLast?_eq_none_iff.mp hv]
      | some x =>
        rw [hv] at hpop
        cases hpop
    | some s' =>
      rw [hs] at hpop
      cases hv : s.v.getLast? with
      | none =>
        rw [hv] at hpop
        cases hpop
      | some x =>
        rw [hv] at hpop
        have hs' : s'.v = s.v.dropLast := Option.some_inj.mp hpop
        have hpos : 0 < s.v.length := by
          rw [List.length_pos_iff]
          rintro hnil
          rw [hnil] at hv
          cases hv
        rw [Option.bind_some, ih s', hs', List.length_dropLast]
        by_cases hlt : s.v.length - 1 < n
        · rw [if_pos hlt, if_pos (by omega)]
        · rw [if_neg hlt, if_neg (by omega), List.dropLast_eq_take, List.take_take]
          congr 2
          omega

theorem truncate_map_v (n : ℕ) (s : TrailedStack α) :
    (s.truncate n).map TrailedStack.v = if s.v.length < n then none else some (s.v.take n) := by
  unfold TrailedStack.truncate
  by_cases hlt : s.v.length < n
  · rw [if_pos hlt, if_pos hlt]
    rfl
  · rw [if_neg hlt, if_neg hlt, popN_map_v, if_neg (by omega)]
    congr 2
    omega

theorem assignBack_map_v (y : α) (s : TrailedStack α) :
    (s.assignBack y).map TrailedStack.v = if s.v = [] then none
      else (s.v[s.v.length - 1]?).map fun _ => s.v.set (s.v.length - 1) y := by
  unfold TrailedStack.assignBack TrailedStack.assign
  split
  · rfl
  · cases s.v[s.v.length - 1]? <;> rfl

end TrailedStack

/-- A set with a journal. -/
structure TrailedSet (κ : Type u) where
  s : Finset κ
  /-- What changed: the key, and whether it was there before; newest first. -/
  journal : List (κ × Bool)
  armed : Bool

namespace TrailedSet

variable {κ : Type u} [DecidableEq κ]

def empty : TrailedSet κ := ⟨∅, [], false⟩

def insert (t : TrailedSet κ) (key : κ) : TrailedSet κ :=
  if key ∈ t.s then t
  else ⟨Insert.insert key t.s, if t.armed then (key, false) :: t.journal else t.journal, t.armed⟩

def erase (t : TrailedSet κ) (key : κ) : Bool × TrailedSet κ :=
  if key ∈ t.s then
    (true, ⟨t.s.erase key, if t.armed then (key, true) :: t.journal else t.journal, t.armed⟩)
  else (false, t)

def arm (t : TrailedSet κ) : TrailedSet κ := { t with armed := true }

def undo : List (κ × Bool) → Finset κ → Finset κ
  | [], s => s
  | r :: rs, s => undo rs (if r.2 then Insert.insert r.1 s else s.erase r.1)

def rewindTo (t : TrailedSet κ) (m : ℕ) : Option (TrailedSet κ) :=
  if t.journal.length < m then none
  else some ⟨undo (t.journal.take (t.journal.length - m)) t.s,
    t.journal.drop (t.journal.length - m), t.armed⟩

def discardJournal (t : TrailedSet κ) : TrailedSet κ := { t with journal := [], armed := false }

structure Since (t₀ t : TrailedSet κ) : Prop where
  armed : t.armed = true
  /-- The records since then give the earlier keys back. -/
  undo : ∃ recs, t.journal = recs ++ t₀.journal ∧ TrailedSet.undo recs t.s = t₀.s

variable {t₀ t t' : TrailedSet κ}

theorem since_arm (t : TrailedSet κ) : Since t t.arm := ⟨rfl, [], rfl, rfl⟩

theorem Since.congr (h : Since t₀ t) (hs : t'.s = t.s) (hj : t'.journal = t.journal)
    (ha : t'.armed = true) : Since t₀ t' := by
  refine ⟨ha, ?_⟩
  rw [hs, hj]
  exact h.undo

theorem Since.arm (h : Since t₀ t) : Since t₀ t.arm := h.congr rfl rfl rfl

theorem Since.insert (h : Since t₀ t) (key : κ) : Since t₀ (t.insert key) := by
  unfold TrailedSet.insert
  split
  · exact h
  · rename_i hkey
    obtain ⟨recs, hj, hundo⟩ := h.undo
    refine ⟨h.armed, (key, false) :: recs, by simp [h.armed, hj], ?_⟩
    simp [TrailedSet.undo, Finset.erase_insert hkey, hundo]

theorem Since.erase (h : Since t₀ t) (key : κ) : Since t₀ (t.erase key).2 := by
  unfold TrailedSet.erase
  split
  · rename_i hkey
    obtain ⟨recs, hj, hundo⟩ := h.undo
    refine ⟨h.armed, (key, true) :: recs, by simp [h.armed, hj], ?_⟩
    simp [TrailedSet.undo, Finset.insert_erase hkey, hundo]
  · exact h

/-- **A rewind gives the earlier state back.** -/
theorem Since.rewindTo (h : Since t₀ t) :
    ∃ t', t.rewindTo t₀.journal.length = some t' ∧ t'.s = t₀.s ∧ t'.journal = t₀.journal ∧
      t'.armed = true := by
  obtain ⟨recs, hj, hundo⟩ := h.undo
  have hlen : t.journal.length - t₀.journal.length = recs.length := by simp [hj]
  have hcond : ¬ t.journal.length < t₀.journal.length := by simp [hj]
  refine ⟨_, if_neg hcond, ?_, ?_, h.armed⟩
  · show TrailedSet.undo (t.journal.take (t.journal.length - t₀.journal.length)) t.s = t₀.s
    rw [hlen, hj, List.take_left]
    exact hundo
  · show t.journal.drop (t.journal.length - t₀.journal.length) = t₀.journal
    rw [hlen, hj, List.drop_left]

end TrailedSet

/-- The journal of a list. -/
structure TrailedWriteLog (α : Type u) where
  journal : List (ℕ × α)
  armed : Bool

namespace TrailedWriteLog

variable {α : Type u}

def empty : TrailedWriteLog α := ⟨[], false⟩

def record (w : TrailedWriteLog α) (i : ℕ) (x : α) : TrailedWriteLog α :=
  if w.armed then { w with journal := (i, x) :: w.journal } else w

def arm (w : TrailedWriteLog α) : TrailedWriteLog α := { w with armed := true }

def discardJournal (w : TrailedWriteLog α) : TrailedWriteLog α :=
  { w with journal := [], armed := false }

/-- Put back what the records displaced, newest first; a record of no place is fatal. -/
def putBack : List (ℕ × α) → List α → Option (List α)
  | [], arena => some arena
  | r :: rs, arena => if r.1 < arena.length then putBack rs (arena.set r.1 r.2) else none

def rewindTo (w : TrailedWriteLog α) (m : ℕ) (arena : List α) :
    Option (TrailedWriteLog α × List α) :=
  if w.journal.length < m then none
  else (putBack (w.journal.take (w.journal.length - m)) arena).map fun arena =>
    ({ w with journal := w.journal.drop (w.journal.length - m) }, arena)

end TrailedWriteLog

structure ArenaSince {α : Type u} (arena₀ : List α) (log₀ : TrailedWriteLog α) (arena : List α)
    (log : TrailedWriteLog α) : Prop where
  armed : log.armed = true
  grown : arena₀.length ≤ arena.length
  /-- The records since then are of places of the arena and give the earlier values back. -/
  undo : ∃ recs, log.journal = recs ++ log₀.journal ∧ (∀ r ∈ recs, r.1 < arena.length) ∧
    Undoes recs arena arena₀

namespace ArenaSince

variable {α : Type u} {arena₀ arena : List α} {log₀ log : TrailedWriteLog α}

theorem arm (arena : List α) (log : TrailedWriteLog α) : ArenaSince arena log arena log.arm :=
  ⟨rfl, le_rfl, [], rfl, by simp, undoes_refl _⟩

theorem arm_again (h : ArenaSince arena₀ log₀ arena log) : ArenaSince arena₀ log₀ arena log.arm :=
  ⟨rfl, h.grown, h.undo⟩

theorem congr {log' : TrailedWriteLog α} (h : ArenaSince arena₀ log₀ arena log)
    (hj : log'.journal = log.journal) (ha : log'.armed = true) :
    ArenaSince arena₀ log₀ arena log' := by
  refine ⟨ha, h.grown, ?_⟩
  rw [hj]
  exact h.undo

theorem push (h : ArenaSince arena₀ log₀ arena log) (x : α) :
    ArenaSince arena₀ log₀ (arena ++ [x]) log := by
  obtain ⟨recs, hj, hvalid, hundo⟩ := h.undo
  refine ⟨h.armed, ?_, recs, hj, fun r hr => ?_, hundo.push x⟩
  · have := h.grown
    simp only [List.length_append]
    omega
  · have := hvalid r hr
    simp only [List.length_append]
    omega

theorem writeAbove (h : ArenaSince arena₀ log₀ arena log) {i : ℕ} (hi : arena₀.length ≤ i) (y : α) :
    ArenaSince arena₀ log₀ (arena.set i y) log := by
  obtain ⟨recs, hj, hvalid, hundo⟩ := h.undo
  exact ⟨h.armed, by simpa using h.grown, recs, hj, by simpa using hvalid, hundo.writeAbove hi y⟩

theorem write (h : ArenaSince arena₀ log₀ arena log) {i : ℕ} {x : α} (hx : arena[i]? = some x)
    (y : α) : ArenaSince arena₀ log₀ (arena.set i y) (log.record i x) := by
  obtain ⟨recs, hj, hvalid, hundo⟩ := h.undo
  have hlt := (List.getElem?_eq_some_iff.mp hx).1
  unfold TrailedWriteLog.record
  rw [if_pos h.armed]
  refine ⟨h.armed, by simpa using h.grown, (i, x) :: recs, by simp [hj], ?_, hundo.write hx y⟩
  intro r hr
  rw [List.length_set]
  rcases List.mem_cons.mp hr with rfl | hr
  · exact hlt
  · exact hvalid r hr

theorem putBack_getElem? (recs : List (ℕ × α)) {arena : List α}
    (hvalid : ∀ r ∈ recs, r.1 < arena.length) :
    ∃ arena', TrailedWriteLog.putBack recs arena = some arena' ∧ arena'.length = arena.length ∧
      ∀ i < arena.length, arena'[i]? = (displaced recs i).or arena[i]? := by
  induction recs generalizing arena with
  | nil => exact ⟨arena, rfl, rfl, fun _ _ => rfl⟩
  | cons r recs ih =>
    have hr : r.1 < arena.length := hvalid r List.mem_cons_self
    have hrest : ∀ q ∈ recs, q.1 < (arena.set r.1 r.2).length := by
      intro q hq
      simpa using hvalid q (List.mem_cons_of_mem _ hq)
    obtain ⟨arena', hput, hlen, hval⟩ := ih hrest
    refine ⟨arena', ?_, by simpa using hlen, fun i hi => ?_⟩
    · rw [TrailedWriteLog.putBack, if_pos hr]
      exact hput
    · rw [hval i (by simpa using hi), displaced]
      by_cases hri : r.1 = i
      · subst hri
        rw [List.getElem?_set_self hr]
        simp
      · rw [if_neg hri, Option.or_none, List.getElem?_set_ne hri]

/-- **A rewind gives the earlier values back.** -/
theorem rewindTo (h : ArenaSince arena₀ log₀ arena log) :
    ∃ log' arena', log.rewindTo log₀.journal.length arena = some (log', arena') ∧
      arena'.take arena₀.length = arena₀ ∧ arena₀.length ≤ arena'.length ∧
      log'.journal = log₀.journal ∧ log'.armed = true := by
  obtain ⟨recs, hj, hvalid, hundo⟩ := h.undo
  have hlen : log.journal.length - log₀.journal.length = recs.length := by simp [hj]
  have hcond : ¬ log.journal.length < log₀.journal.length := by simp [hj]
  obtain ⟨arena', hput, hlen', hval⟩ := putBack_getElem? recs hvalid
  refine ⟨{ log with journal := log₀.journal }, arena', ?_, ?_, ?_, rfl, h.armed⟩
  · unfold TrailedWriteLog.rewindTo
    rw [if_neg hcond, hlen, hj, List.take_left, List.drop_left, hput]
    rfl
  · refine List.ext_getElem? fun i => ?_
    by_cases hi : i < arena₀.length
    · rw [List.getElem?_take_of_lt hi, hval i (lt_of_lt_of_le hi h.grown)]
      exact hundo i hi
    · rw [List.getElem?_eq_none (by simp; omega), List.getElem?_eq_none (by omega)]
  · rw [hlen']
    exact h.grown

end ArenaSince

end DssPrime
