import Mathlib

/-!
# The line map

`core/types/line_map.hpp`: where the bytes of the synthesized buffer came from, and back. The map is
a list of runs that were copied verbatim, and past them a tail of minted runs.

Offsets are natural numbers: on a formed map every sum is at most the size of a buffer.
-/

namespace DssPrime

/-- A file or another text. -/
structure SourceBuffer where
  id : ℕ
  size : ℕ

/-- A stretch of the synthetic text and where it came from. -/
structure LineMapSegment where
  synthStart : ℕ
  synthEnd : ℕ
  origin : Option SourceBuffer
  originStart : ℕ

/-- What an expansion made, and where it was asked for. -/
structure MacroExpansionSite where
  productStart : ℕ
  productEnd : ℕ
  siteOffset : ℕ

inductive SynthOriginKind where
  | unmapped
  | direct
  | syntheticGlue
  | expansion
  | endOfUnit
  | escaped

/-- Where an offset came from. -/
structure SynthOrigin where
  origin : Option SourceBuffer := none
  offset : ℕ := 0
  kind : SynthOriginKind := .unmapped
  expansion : Option MacroExpansionSite := none

/-- The segments of one text. -/
structure LineMap where
  segments : List LineMapSegment
  expansions : List MacroExpansionSite
  productBase : Option ℕ

/-- The record whose run contains the offset; the records ascend. -/
def expansionFor : List MacroExpansionSite → ℕ → Option MacroExpansionSite
  | [], _ => none
  | e :: es, o =>
    if o < e.productStart then none else if o < e.productEnd then some e else expansionFor es o

def lastStarting (o : ℕ) : List LineMapSegment → Option LineMapSegment → Option LineMapSegment
  | [], best => best
  | s :: ss, best => if s.synthStart ≤ o then lastStarting o ss (some s) else best

def LineMapSegment.runLen (s : LineMapSegment) : ℕ :=
  if s.synthStart < s.synthEnd then s.synthEnd - s.synthStart else 0

def SynthOrigin.validated (r : SynthOrigin) : SynthOrigin :=
  match r.origin with
  | none => {}
  | some b => if b.size < r.offset then { r with kind := .escaped } else r

def SynthOrigin.mintedBy (r : SynthOrigin) (e : MacroExpansionSite) : SynthOrigin :=
  { r with kind := .expansion, expansion := some e }

namespace LineMap

def endOfLastRun (m : LineMap) : SynthOrigin :=
  match m.segments.getLast? with
  | none => {}
  | some s => SynthOrigin.validated {
      origin := s.origin, offset := s.originStart + s.runLen, kind := .syntheticGlue }

/-- What one map answers on the way. -/
inductive Hop where
  | endOfUnit (minted : Option MacroExpansionSite)
  | reached (minted : Option MacroExpansionSite) (o : ℕ)

def hops (m : LineMap) (base : ℕ) : ℕ → Option MacroExpansionSite → ℕ → Hop
  | 0, minted, o => .reached minted o
  | fuel + 1, minted, o =>
    if o < base then .reached minted o
    else match expansionFor m.expansions o with
      | none => .endOfUnit minted
      | some e =>
        if e.siteOffset = o then .reached (minted.or (some e)) o
        else m.hops base fuel (minted.or (some e)) e.siteOffset

def prefixOrigin (m : LineMap) (minted : Option MacroExpansionSite) (o : ℕ) : SynthOrigin :=
  let r : SynthOrigin := match lastStarting o m.segments none with
    | none =>
      match m.segments.head? with
      | none => {}
      | some s => { origin := s.origin, offset := s.originStart, kind := .syntheticGlue }
    | some s =>
      if o - s.synthStart < s.runLen then
        { origin := s.origin, offset := s.originStart + (o - s.synthStart), kind := .direct }
      else { origin := s.origin, offset := s.originStart + s.runLen, kind := .syntheticGlue }
  SynthOrigin.validated { r with
    expansion := minted, kind := if minted.isSome then .expansion else r.kind }

def originOf (m : LineMap) (o : ℕ) : SynthOrigin :=
  if m.segments.isEmpty then {} else
  match m.productBase with
  | none => m.prefixOrigin none o
  | some base =>
    match m.hops base 65 none o with
    | .endOfUnit minted =>
      let r := { m.endOfLastRun with expansion := minted }
      match r.kind with
      | .unmapped | .escaped => r
      | _ => { r with kind := .endOfUnit }
    | .reached minted o => if base ≤ o then {} else m.prefixOrigin minted o

def image (originBuffer originOffset : ℕ) (seg : LineMapSegment) : Option ℕ :=
  match seg.origin with
  | none => none
  | some b =>
    if b.id ≠ originBuffer then none
    else if originOffset < seg.originStart then none
    else if seg.synthEnd - seg.synthStart ≤ originOffset - seg.originStart then none
    else some (seg.synthStart + (originOffset - seg.originStart))

def inverse (m : LineMap) (originBuffer originOffset : ℕ) : List ℕ :=
  m.segments.filterMap (image originBuffer originOffset)

/-- The map as its builder leaves it: runs in ascending order, apart, each inside its origin, and
the minted tail behind them, with expansion sites before it. -/
structure Formed (m : LineMap) : Prop where
  nonempty : m.segments ≠ []
  inside : ∀ s ∈ m.segments, s.synthStart ≤ s.synthEnd ∧
    ∃ b, s.origin = some b ∧ s.originStart + (s.synthEnd - s.synthStart) ≤ b.size
  ascending : m.segments.Pairwise fun s s' => s.synthEnd ≤ s'.synthStart
  before : ∀ base ∈ m.productBase, ∀ s ∈ m.segments, s.synthEnd ≤ base
  behind : ∀ e ∈ m.expansions, ∃ base, m.productBase = some base ∧ base ≤ e.productStart ∧
    e.productStart ≤ e.productEnd ∧ e.siteOffset < base
  minted : m.expansions.Pairwise fun e e' => e.productEnd ≤ e'.productStart

variable {m : LineMap} {o : ℕ}

theorem Formed.runLen_eq (h : m.Formed) {s : LineMapSegment} (hs : s ∈ m.segments) :
    s.runLen = s.synthEnd - s.synthStart := by
  have := (h.inside s hs).1
  unfold LineMapSegment.runLen
  split <;> omega

theorem lastStarting_mem {ss : List LineMapSegment} {best : Option LineMapSegment}
    {s : LineMapSegment} (h : lastStarting o ss best = some s) :
    best = some s ∨ s ∈ ss ∧ s.synthStart ≤ o := by
  induction ss generalizing best with
  | nil => exact .inl h
  | cons x ss ih =>
    rw [lastStarting] at h
    split at h
    · rename_i hx
      rcases ih h with hbest | ⟨hs, hle⟩
      · obtain rfl := Option.some.inj hbest
        exact .inr ⟨List.mem_cons_self, hx⟩
      · exact .inr ⟨List.mem_cons_of_mem _ hs, hle⟩
    · exact .inl h

theorem lastStarting_of_mem (h : m.Formed) {s : LineMapSegment} (hs : s ∈ m.segments)
    (hstart : s.synthStart ≤ o) (hend : o < s.synthEnd) :
    lastStarting o m.segments none = some s := by
  obtain ⟨before, after, hsplit⟩ := List.append_of_mem hs
  have hasc := h.ascending
  rw [hsplit, List.pairwise_append, List.pairwise_cons] at hasc
  have hafter : ∀ best, lastStarting o after best = best := by
    intro best
    cases after with
    | nil => rfl
    | cons x after =>
      have := hasc.2.1.1 x List.mem_cons_self
      rw [lastStarting, if_neg (by omega)]
  have hbefore : ∀ l : List LineMapSegment, (∀ x ∈ l, x.synthStart ≤ o) → ∀ best,
      lastStarting o (l ++ s :: after) best = some s := by
    intro l hl
    induction l with
    | nil =>
      intro best
      rw [List.nil_append, lastStarting, if_pos hstart, hafter]
    | cons x l ih =>
      intro best
      rw [List.cons_append, lastStarting, if_pos (hl x List.mem_cons_self)]
      exact ih (fun y hy => hl y (List.mem_cons_of_mem _ hy)) _
  rw [hsplit]
  refine hbefore before (fun x hx => ?_) none
  have hx' := (h.inside x (hsplit ▸ List.mem_append_left _ hx)).1
  have := hasc.2.2 x hx s List.mem_cons_self
  omega

theorem expansionFor_mem {es : List MacroExpansionSite} {e : MacroExpansionSite}
    (h : expansionFor es o = some e) : e ∈ es := by
  induction es with
  | nil => cases h
  | cons x es ih =>
    rw [expansionFor] at h
    split_ifs at h with hlt hin
    · exact Option.some.inj h ▸ List.mem_cons_self
    · exact List.mem_cons_of_mem _ (ih h)

theorem expansionFor_of_mem {es : List MacroExpansionSite}
    (hrun : ∀ e ∈ es, e.productStart ≤ e.productEnd)
    (hasc : es.Pairwise fun e e' => e.productEnd ≤ e'.productStart) {e : MacroExpansionSite}
    (he : e ∈ es) (hstart : e.productStart ≤ o) (hend : o < e.productEnd) :
    expansionFor es o = some e := by
  induction es with
  | nil => cases he
  | cons x es ih =>
    rw [List.pairwise_cons] at hasc
    rw [expansionFor]
    rcases List.mem_cons.mp he with rfl | he
    · rw [if_neg (by omega), if_pos hend]
    · have hx := hasc.1 e he
      have := hrun x List.mem_cons_self
      rw [if_neg (by omega), if_neg (by omega)]
      exact ih (fun y hy => hrun y (List.mem_cons_of_mem _ hy)) hasc.2 he

theorem validated_eq {r : SynthOrigin} {b : SourceBuffer} (hb : r.origin = some b)
    (hle : r.offset ≤ b.size) : r.validated = r := by
  rw [SynthOrigin.validated, hb]
  exact if_neg (Nat.not_lt.mpr hle)

def CopiedFrom (m : LineMap) (o : ℕ) (b : SourceBuffer) (offset : ℕ) : Prop :=
  ∃ s ∈ m.segments, s.synthStart ≤ o ∧ o < s.synthEnd ∧ s.origin = some b ∧
    offset = s.originStart + (o - s.synthStart)

theorem prefixOrigin_spec (h : m.Formed) (o : ℕ) :
    ∃ b offset kind, (kind = .direct ∨ kind = .syntheticGlue) ∧ offset ≤ b.size ∧
      (∀ minted, m.prefixOrigin minted o = { origin := some b, offset := offset, expansion := minted
                                             kind := if minted.isSome then .expansion else kind }) ∧
      (kind = .direct → m.CopiedFrom o b offset ∧ offset < b.size) ∧
      (∀ b' offset', m.CopiedFrom o b' offset' → kind = .direct ∧ b' = b ∧ offset' = offset) := by
  cases hlast : lastStarting o m.segments none with
  | none =>
    obtain ⟨s, rest, hsegs⟩ := List.exists_cons_of_ne_nil h.nonempty
    obtain ⟨-, b, hb, hsize⟩ := h.inside s (hsegs ▸ List.mem_cons_self)
    refine ⟨b, s.originStart, .syntheticGlue, .inr rfl, by omega, fun minted => ?_, by simp, ?_⟩
    · rw [prefixOrigin, hlast, hsegs]
      exact (validated_eq (b := b) hb (by dsimp; omega)).trans (by simp [hb])
    · rintro b' offset' ⟨s', hs', hstart, hend, -, -⟩
      rw [lastStarting_of_mem h hs' hstart hend] at hlast
      cases hlast
  | some s =>
    obtain ⟨hs, hstart⟩ : s ∈ m.segments ∧ s.synthStart ≤ o :=
      (lastStarting_mem hlast).resolve_left (by simp)
    obtain ⟨hrun, b, hb, hsize⟩ := h.inside s hs
    have hlen := h.runLen_eq hs
    have hsame : ∀ b' offset', m.CopiedFrom o b' offset' → o < s.synthEnd ∧ b' = b ∧
        offset' = s.originStart + (o - s.synthStart) := by
      rintro b' offset' ⟨s', hs', hstart', hend', hb', hoffset'⟩
      rw [lastStarting_of_mem h hs' hstart' hend'] at hlast
      obtain rfl := Option.some.inj hlast
      exact ⟨hend', Option.some.inj (hb'.symm.trans hb), hoffset'⟩
    by_cases hin : o < s.synthEnd
    · refine ⟨b, s.originStart + (o - s.synthStart), .direct, .inl rfl, by omega, fun minted => ?_,
        fun _ => ⟨⟨s, hs, hstart, hin, hb, rfl⟩, by omega⟩, fun b' offset' hc => ?_⟩
      · rw [prefixOrigin, hlast]
        dsimp only
        rw [if_pos (by omega)]
        exact (validated_eq (b := b) hb (by dsimp; omega)).trans (by simp [hb])
      · exact ⟨rfl, (hsame _ _ hc).2⟩
    · refine ⟨b, s.originStart + s.runLen, .syntheticGlue, .inr rfl, by omega, fun minted => ?_,
        by simp, fun b' offset' hc => absurd (hsame _ _ hc).1 hin⟩
      rw [prefixOrigin, hlast]
      dsimp only
      rw [if_neg (by omega)]
      exact (validated_eq (b := b) hb (by dsimp; omega)).trans (by simp [hb])

theorem Formed.originOf_prefix (h : m.Formed) (hbase : ∀ base ∈ m.productBase, o < base) :
    m.originOf o = m.prefixOrigin none o := by
  rw [originOf, if_neg (by simpa using h.nonempty)]
  cases hp : m.productBase with
  | none => rfl
  | some base =>
    have hlt := hbase base hp
    dsimp only
    rw [hops, if_pos hlt]
    exact if_neg (by omega)

theorem Formed.originOf_minted (h : m.Formed) {base : ℕ} (hp : m.productBase = some base)
    (hle : base ≤ o) {e : MacroExpansionSite} (he : e ∈ m.expansions)
    (hfor : expansionFor m.expansions o = some e) :
    m.originOf o = m.prefixOrigin (some e) e.siteOffset := by
  obtain ⟨base', hp', -, -, hsite⟩ := h.behind e he
  obtain rfl := Option.some.inj (hp.symm.trans hp')
  rw [originOf, if_neg (by simpa using h.nonempty), hp]
  dsimp only
  rw [hops, if_neg (by omega), hfor]
  dsimp only
  rw [if_neg (by omega), hops, if_pos hsite]
  exact if_neg (by omega)

theorem Formed.originOf_end (h : m.Formed) {base : ℕ} (hp : m.productBase = some base)
    (hbase : base ≤ o) (hfor : expansionFor m.expansions o = none) :
    ∃ b offset, offset ≤ b.size ∧
      m.originOf o = { origin := some b, offset := offset, kind := .endOfUnit } := by
  obtain ⟨s, hs⟩ := Option.isSome_iff_exists.mp (List.getLast?_isSome.mpr h.nonempty)
  obtain ⟨-, b, hb, hsize⟩ := h.inside s (List.mem_of_getLast? hs)
  have hlen := h.runLen_eq (List.mem_of_getLast? hs)
  refine ⟨b, s.originStart + s.runLen, by omega, ?_⟩
  have hend : m.endOfLastRun = { origin := some b, offset := s.originStart + s.runLen
                                 kind := .syntheticGlue } := by
    rw [endOfLastRun, hs]
    exact (validated_eq (b := b) hb (by dsimp; omega)).trans (by rw [hb])
  rw [originOf, if_neg (by simpa using h.nonempty), hp]
  dsimp only
  rw [hops, if_neg (by omega), hfor]
  dsimp only
  rw [hend]

theorem Formed.originOf_cases (h : m.Formed) (o : ℕ) :
    (∃ b offset kind minted, m.originOf o = { origin := some b, offset := offset, kind := kind
                                              expansion := minted } ∧
      offset ≤ b.size ∧ (kind = .expansion ∨ kind = .endOfUnit) ∧
      ∀ b' offset', ¬ m.CopiedFrom o b' offset') ∨
    m.originOf o = m.prefixOrigin none o := by
  by_cases hpre : ∀ base ∈ m.productBase, o < base
  · exact .inr (h.originOf_prefix hpre)
  · obtain ⟨base, hp, hle⟩ : ∃ base, m.productBase = some base ∧ base ≤ o := by
      simpa [Option.mem_def] using hpre
    have hno : ∀ b' offset', ¬ m.CopiedFrom o b' offset' := by
      rintro b' offset' ⟨s, hs, -, hend, -, -⟩
      have := h.before base hp s hs
      omega
    refine .inl ?_
    cases hfor : expansionFor m.expansions o with
    | none =>
      obtain ⟨b, offset, hsize, hend⟩ := h.originOf_end hp hle hfor
      exact ⟨b, offset, _, _, hend, hsize, .inr rfl, hno⟩
    | some e =>
      have he := expansionFor_mem hfor
      obtain ⟨b, offset, kind, -, hsize, hplace, -⟩ := prefixOrigin_spec h e.siteOffset
      exact ⟨b, offset, _, _, (h.originOf_minted hp hle he hfor).trans (hplace _), hsize, .inl rfl,
        hno⟩

theorem image_eq_some {originBuffer originOffset : ℕ} {s : LineMapSegment} :
    image originBuffer originOffset s = some o ↔ ∃ b, s.origin = some b ∧ b.id = originBuffer ∧
      s.synthStart ≤ o ∧ o < s.synthEnd ∧ originOffset = s.originStart + (o - s.synthStart) := by
  unfold image
  cases hb : s.origin with
  | none => simp
  | some b =>
    dsimp only
    constructor
    · intro h
      split_ifs at h with hid hlt hspan
      have := Option.some.inj h
      exact ⟨b, rfl, not_not.mp hid, by omega, by omega, by omega⟩
    · rintro ⟨b', hb', hid, hstart, hend, hoffset⟩
      obtain rfl := Option.some.inj hb'
      rw [if_neg (not_not.mpr hid), if_neg (by omega), if_neg (by omega)]
      exact congrArg some (by omega)

theorem mem_inverse {originBuffer originOffset : ℕ} :
    o ∈ m.inverse originBuffer originOffset ↔
      ∃ b, b.id = originBuffer ∧ m.CopiedFrom o b originOffset := by
  rw [inverse, List.mem_filterMap]
  constructor
  · rintro ⟨s, hs, h⟩
    obtain ⟨b, hb, hid, hstart, hend, hoffset⟩ := image_eq_some.mp h
    exact ⟨b, hid, s, hs, hstart, hend, hb, hoffset⟩
  · rintro ⟨b, hid, s, hs, hstart, hend, hb, hoffset⟩
    exact ⟨s, hs, image_eq_some.mpr ⟨b, hb, hid, hstart, hend, hoffset⟩⟩

theorem Formed.inverse_ascending (h : m.Formed) (originBuffer originOffset : ℕ) :
    (m.inverse originBuffer originOffset).Pairwise (· < ·) := by
  rw [inverse, List.pairwise_filterMap]
  refine h.ascending.imp fun {s s'} hss o ho o' ho' => ?_
  obtain ⟨-, -, -, -, hend, -⟩ := image_eq_some.mp ho
  obtain ⟨-, -, -, hstart, -, -⟩ := image_eq_some.mp ho'
  omega

theorem Formed.direct_iff (h : m.Formed) (b : SourceBuffer) (offset : ℕ) :
    ((m.originOf o).kind = .direct ∧ (m.originOf o).origin = some b ∧
      (m.originOf o).offset = offset) ↔ m.CopiedFrom o b offset := by
  rcases h.originOf_cases o with ⟨b', offset', kind, minted, heq, -, hkind, hno⟩ | heq
  · rw [heq]
    refine ⟨fun hd => ?_, fun hc => absurd hc (hno _ _)⟩
    rcases hkind with rfl | rfl <;> cases hd.1
  · obtain ⟨b', offset', kind, -, -, hplace, hdirect, hcopied⟩ := prefixOrigin_spec h o
    rw [heq, hplace none]
    constructor
    · rintro ⟨hkind, hb, rfl⟩
      obtain rfl := Option.some.inj hb
      exact (hdirect hkind).1
    · intro hc
      obtain ⟨hkind, rfl, rfl⟩ := hcopied _ _ hc
      exact ⟨hkind, rfl, rfl⟩

def Answers (m : LineMap) (o : ℕ) : Prop :=
  ∃ b, (m.originOf o).origin = some b ∧ (m.originOf o).offset ≤ b.size ∧
    (m.originOf o).kind ≠ .unmapped ∧ (m.originOf o).kind ≠ .escaped ∧
    ((m.originOf o).kind = .direct → (m.originOf o).offset < b.size)

/-- On a formed map every offset has a place in an origin, a minted one that of its expansion site,
and `inverse` lists, in order, the offsets whose direct answer is the place. -/
theorem directions_agree (h : m.Formed) :
    (∀ o, m.Answers o) ∧
    (∀ e ∈ m.expansions, ∀ o, e.productStart ≤ o → o < e.productEnd →
      m.originOf o = (m.originOf e.siteOffset).mintedBy e) ∧
    ∀ originBuffer originOffset, (m.inverse originBuffer originOffset).Pairwise (· < ·) ∧
      ∀ o, o ∈ m.inverse originBuffer originOffset ↔ (m.originOf o).kind = .direct ∧
        (m.originOf o).offset = originOffset ∧
        ∃ b, (m.originOf o).origin = some b ∧ b.id = originBuffer := by
  refine ⟨fun o => ?_, fun e he o hstart hend => ?_, fun originBuffer originOffset =>
    ⟨h.inverse_ascending _ _, fun o => ?_⟩⟩
  · rcases h.originOf_cases o with ⟨b, offset, kind, minted, heq, hsize, hkind, -⟩ | heq
    · rw [Answers, heq]
      rcases hkind with rfl | rfl <;> exact ⟨b, rfl, hsize, by simp, by simp, by simp⟩
    · obtain ⟨b, offset, kind, hkind, hsize, hplace, hdirect, -⟩ := prefixOrigin_spec h o
      rw [Answers, heq, hplace none]
      refine ⟨b, rfl, hsize, ?_, ?_, fun hd => (hdirect hd).2⟩ <;>
        rcases hkind with rfl | rfl <;> simp
  · obtain ⟨base, hp, hle, hrun, hsite⟩ := h.behind e he
    have hfor :=
      expansionFor_of_mem (fun e he => (h.behind e he).elim fun _ hb => hb.2.2.1) h.minted
      he hstart hend
    obtain ⟨b, offset, kind, -, -, hplace, -⟩ := prefixOrigin_spec h e.siteOffset
    rw [h.originOf_minted hp (by omega) he hfor, h.originOf_prefix fun base' hp' => ?_, hplace,
      hplace]
    · rfl
    · obtain rfl := Option.some.inj (hp.symm.trans hp')
      exact hsite
  · rw [mem_inverse]
    constructor
    · rintro ⟨b, hid, hc⟩
      obtain ⟨hkind, hb, hoffset⟩ := (h.direct_iff b originOffset).mpr hc
      exact ⟨hkind, hoffset, b, hb, hid⟩
    · rintro ⟨hkind, hoffset, b, hb, hid⟩
      exact ⟨b, hid, (h.direct_iff b originOffset).mp ⟨hkind, hb, hoffset⟩⟩

/-- Two copies of the bytes 2 to 5 of a file, and a minted run whose expansion site is in the
second. -/
def copiedTwice : LineMap where
  segments := [⟨0, 4, some ⟨1, 10⟩, 2⟩, ⟨5, 9, some ⟨1, 10⟩, 2⟩]
  expansions := [⟨10, 12, 6⟩]
  productBase := some 10

theorem directions_agree_copiedTwice :
    copiedTwice.originOf 11 = (copiedTwice.originOf 6).mintedBy ⟨10, 12, 6⟩ ∧
    1 ∈ copiedTwice.inverse 1 3 ∧ 6 ∈ copiedTwice.inverse 1 3 := by
  have hformed : copiedTwice.Formed := by
    constructor <;> simp [copiedTwice]
  have hagree := directions_agree hformed
  refine ⟨hagree.2.1 ⟨10, 12, 6⟩ (by simp [copiedTwice]) 11 (by decide) (by decide), ?_, ?_⟩
  · exact ((hagree.2.2 1 3).2 1).mpr ⟨rfl, rfl, ⟨1, 10⟩, rfl, rfl⟩
  · exact ((hagree.2.2 1 3).2 6).mpr ⟨rfl, rfl, ⟨1, 10⟩, rfl, rfl⟩

/-- The empty map has no answer; neither has the end of a run that is longer than its origin, nor a
minted byte whose record is its own site. -/
theorem originOf_not_inside :
    (¬ ∀ m : LineMap, (m.segments.Pairwise fun s s' => s.synthEnd ≤ s'.synthStart) →
      ∀ o, m.Answers o) ∧
    ¬ Answers ⟨[⟨0, 2, some ⟨1, 1⟩, 0⟩], [], none⟩ 2 ∧
    ¬ Answers ⟨[⟨0, 1, some ⟨1, 1⟩, 0⟩], [⟨1, 2, 1⟩], some 1⟩ 1 := by
  refine ⟨fun h => ?_, ?_, ?_⟩
  · obtain ⟨b, hb, -⟩ := h ⟨[], [], none⟩ .nil 0
    cases hb
  · rintro ⟨b, -, -, -, hkind, -⟩
    exact hkind rfl
  · rintro ⟨b, hb, -⟩
    cases hb

end LineMap

end DssPrime
