import Mathlib
import DssPrime.Parse.ReporterRollback

/-!
# What the reporter accounts for

A diagnostic that the policy lets pass is stored or counted. A session reports, takes snapshots and
goes back to them in the order of a stack; `raised` lists what passed on the branch it is on.
-/

namespace DssPrime.Parse

def Reporter.markers (r : Reporter) : List ℕ :=
  (if r.hitCap then [r.capMarkerIndex] else []) ++ r.elided.map fun e => e.2.markerIndex

def unmarked (all : List ParseDiagnostic) (marks : List ℕ) : List ParseDiagnostic :=
  ((List.range all.length).filter (· ∉ marks)).filterMap (all[·]?)

def Reporter.stored (r : Reporter) : List ParseDiagnostic := unmarked r.all r.markers

def Reporter.uncounted (r : Reporter) : ℕ :=
  r.droppedByCap + (r.elided.map fun e => e.2.coalesced + e.2.deduped).sum

theorem unmarked_push {all : List ParseDiagnostic} {marks : List ℕ}
    (h : ∀ i ∈ marks, i < all.length) (d : ParseDiagnostic) :
    unmarked (all ++ [d]) marks = unmarked all marks ++ [d] := by
  have hlast : all.length ∉ marks := fun hm => lt_irrefl _ (h _ hm)
  rw [unmarked, List.length_append, List.length_singleton, List.range_succ, List.filter_append,
    List.filterMap_append, unmarked]
  congr 1
  · refine List.filterMap_congr fun i hi => ?_
    exact List.getElem?_append_left (List.mem_range.mp (List.mem_of_mem_filter hi))
  · simp [hlast]

theorem unmarked_mark {all : List ParseDiagnostic} {marks marks' : List ℕ} (d : ParseDiagnostic)
    (h : ∀ i, i ∈ marks' ↔ i ∈ marks ∨ i = all.length) :
    unmarked (all ++ [d]) marks' = unmarked all marks := by
  rw [unmarked, List.length_append, List.length_singleton, List.range_succ, List.filter_append,
    List.filterMap_append, unmarked]
  have hold : (List.range all.length).filter (· ∉ marks') =
      (List.range all.length).filter (· ∉ marks) := by
    refine List.filter_congr fun i hi => ?_
    have := (List.mem_range.mp hi).ne
    simp [h, this]
  have hnew : [all.length].filter (· ∉ marks') = [] := by simp [h]
  rw [hold, hnew, List.filterMap_nil, List.append_nil]
  refine List.filterMap_congr fun i hi => ?_
  exact List.getElem?_append_left (List.mem_range.mp (List.mem_of_mem_filter hi))

theorem unmarked_modify {all : List ParseDiagnostic} {marks : List ℕ} {i : ℕ} (hi : i ∈ marks)
    (f : ParseDiagnostic → ParseDiagnostic) :
    unmarked (all.modify i f) marks = unmarked all marks := by
  rw [unmarked, unmarked, List.length_modify]
  refine List.filterMap_congr fun j hj => ?_
  have hne : i ≠ j := by
    rintro rfl
    simpa [hi] using List.of_mem_filter hj
  rw [List.getElem?_modify_ne f all hne]

def unsilenced (cfg : ReporterConfig) (d : ParseDiagnostic) : List ParseDiagnostic :=
  ((effectiveSeverity cfg d.code d.severity).map fun s => { d with severity := s }).toList

section

variable {cfg : ReporterConfig} {r r' : Reporter} {raised : List ParseDiagnostic}
  {d : ParseDiagnostic}

/-- Everything raised is stored or counted, what must be delivered is stored, and the markers are
entries of their own, for something that was not stored. -/
structure Reporter.Balanced (cfg : ReporterConfig) (r : Reporter) (raised : List ParseDiagnostic) :
    Prop where
  balance : raised.length = r.stored.length + r.uncounted
  fromRaised : r.stored.Sublist raised
  delivered : (raised.filter (mustDeliver cfg)).Sublist r.stored
  cap : r.hitCap = true →
    (r.all.map (·.code))[r.capMarkerIndex]? = some .tooManyDiagnostics ∧ 0 < r.droppedByCap
  uncapped : r.hitCap = false → r.droppedByCap = 0
  elided : ∀ e ∈ r.elided, (r.all.map (·.code))[e.2.markerIndex]? = some .diagnosticsElided ∧
    0 < e.2.coalesced + e.2.deduped

theorem Reporter.Balanced.marker_lt (h : Reporter.Balanced cfg r raised) {i : ℕ}
    (hi : i ∈ r.markers) : i < r.all.length := by
  have hlt : ∀ {c : DiagnosticCode}, (r.all.map (·.code))[i]? = some c → i < r.all.length := by
    intro c hc
    simpa using (List.getElem?_eq_some_iff.mp hc).1
  rcases List.mem_append.mp hi with hi | hi
  · split at hi
    · rename_i hhit
      obtain rfl := List.mem_singleton.mp hi
      exact hlt (h.cap hhit).1
    · cases hi
  · obtain ⟨e, he, rfl⟩ := List.mem_map.mp hi
    exact hlt (h.elided e he).1

theorem Reporter.Balanced.writeText (h : Reporter.Balanced cfg r raised) {i : ℕ} (text : String)
    (hi : i ∈ r.markers) :
    ∃ r', r.writeText i text = some r' ∧ Reporter.Balanced cfg r' raised := by
  refine ⟨_, if_pos (h.marker_lt hi), ?_⟩
  have hstored : Reporter.stored { r with all := r.all.modify i fun d => d.withText text } =
      r.stored := unmarked_modify hi _
  have hcodes : (r.all.modify i fun d => d.withText text).map (·.code) = r.all.map (·.code) := by
    refine List.ext_getElem? fun j => ?_
    rw [List.getElem?_map, List.getElem?_map, List.getElem?_modify]
    cases r.all[j]? with
    | none => rfl
    | some x =>
      split <;> rfl
  exact ⟨by rw [hstored]; exact h.balance, by rw [hstored]; exact h.fromRaised,
    by rw [hstored]; exact h.delivered, by rw [hcodes]; exact h.cap, h.uncapped,
    by rw [hcodes]; exact h.elided⟩

theorem getElem?_map_push {all : List ParseDiagnostic} {i : ℕ} {c : DiagnosticCode}
    (h : (all.map (·.code))[i]? = some c) (d : ParseDiagnostic) :
    ((all ++ [d]).map (·.code))[i]? = some c := by
  rw [List.map_append, List.getElem?_append_left (List.getElem?_eq_some_iff.mp h).1, h]

theorem Reporter.Balanced.store (h : Reporter.Balanced cfg r raised) (d : ParseDiagnostic)
    (perCode : DiagnosticCode → ℕ) (recent : List UInt64) :
    Reporter.Balanced cfg { r with perCode := perCode, recent := recent, all := r.all ++ [d] }
      (raised ++ [d]) := by
  have hstored : Reporter.stored { r with
      perCode := perCode, recent := recent, all := r.all ++ [d] } = r.stored ++ [d] :=
    unmarked_push (fun i hi => h.marker_lt hi) d
  refine ⟨?_, ?_, ?_, fun hhit => ⟨getElem?_map_push (h.cap hhit).1 d, (h.cap hhit).2⟩, h.uncapped,
    fun e he => ⟨getElem?_map_push (h.elided e he).1 d, (h.elided e he).2⟩⟩
  · have := h.balance
    simp only [hstored, List.length_append, Reporter.uncounted] at this ⊢
    omega
  · rw [hstored]
    exact h.fromRaised.append (.refl _)
  · rw [hstored, List.filter_append]
    exact h.delivered.append List.filter_sublist

theorem Reporter.Balanced.lose (h : Reporter.Balanced cfg r raised) (hd : mustDeliver cfg d = false)
    (hstored : r'.stored = r.stored) (hcount : r'.uncounted = r.uncounted + 1)
    (hcap : r'.hitCap = true → (r'.all.map (·.code))[r'.capMarkerIndex]? =
      some .tooManyDiagnostics ∧ 0 < r'.droppedByCap)
    (huncapped : r'.hitCap = false → r'.droppedByCap = 0)
    (helided : ∀ e ∈ r'.elided, (r'.all.map (·.code))[e.2.markerIndex]? = some .diagnosticsElided ∧
      0 < e.2.coalesced + e.2.deduped) :
    Reporter.Balanced cfg r' (raised ++ [d]) := by
  refine ⟨?_, ?_, ?_, hcap, huncapped, helided⟩
  · rw [List.length_append, h.balance, hstored, hcount, List.length_singleton]
    omega
  · rw [hstored]
    exact h.fromRaised.trans (List.sublist_append_left _ _)
  · rw [hstored, List.filter_append, List.filter_singleton, hd]
    simpa using h.delivered

theorem Reporter.Balanced.noteCapDrop (h : Reporter.Balanced cfg r raised) (hhit : r.hitCap = true)
    (hd : mustDeliver cfg d = false) :
    ∃ r', r.noteCapDrop cfg = some r' ∧ Reporter.Balanced cfg r' (raised ++ [d]) := by
  have hlost : Reporter.Balanced cfg { r with droppedByCap := r.droppedByCap + 1 }
      (raised ++ [d]) :=
    h.lose hd rfl (by simp only [Reporter.uncounted]; omega)
      (fun _ => ⟨(h.cap hhit).1, Nat.succ_pos _⟩)
      (fun hno => absurd (hhit.symm.trans hno) (by decide)) h.elided
  exact hlost.writeText _ (by simp [Reporter.markers, hhit])

theorem Reporter.Ok.elided_split (h : Reporter.Ok cfg r) {code : DiagnosticCode}
    {led : ElisionLedger} (hled : r.elided.lookup code = some led) (led' : ElisionLedger) :
    ∃ l₁ l₂, r.elided = l₁ ++ (code, led) :: l₂ ∧ l₁.lookup code = none ∧
      (r.elided.map fun e => if e.1 = code then (e.1, led') else e) =
        l₁ ++ (code, led') :: l₂ := by
  obtain ⟨l₁, l₂, hsplit, hbefore⟩ := List.lookup_eq_some_iff.mp hled
  have hkeys := h.keys
  rw [hsplit, List.map_append, List.map_cons, List.nodup_append] at hkeys
  have hne₁ : ∀ e ∈ l₁, e.1 ≠ code := by
    intro e he heq
    simpa [heq] using hbefore e he
  have hne₂ : ∀ e ∈ l₂, e.1 ≠ code := by
    intro e he heq
    exact (List.nodup_cons.mp hkeys.2.1).1 (List.mem_map.mpr ⟨e, he, heq⟩)
  have hsame : ∀ l : List (DiagnosticCode × ElisionLedger), (∀ e ∈ l, e.1 ≠ code) →
      (l.map fun e => if e.1 = code then (e.1, led') else e) = l := by
    intro l hl
    exact (List.map_congr_left fun e he => if_neg (hl e he)).trans (List.map_id l)
  refine ⟨l₁, l₂, hsplit, List.lookup_eq_none_iff.mpr hbefore, ?_⟩
  rw [hsplit, List.map_append, List.map_cons, hsame l₁ hne₁, hsame l₂ hne₂, if_pos rfl]

theorem ElisionLedger.markerIndex_count (led : ElisionLedger) (kind : ElisionKind) :
    (led.count kind).markerIndex = led.markerIndex := by
  cases kind <;> rfl

theorem ElisionLedger.total_count (led : ElisionLedger) (kind : ElisionKind) :
    (led.count kind).coalesced + (led.count kind).deduped = led.coalesced + led.deduped + 1 := by
  cases kind <;> simp only [ElisionLedger.count] <;> omega

theorem Reporter.Balanced.rewriteElisionMarker (h : Reporter.Balanced cfg r raised)
    {code : DiagnosticCode} (led : ElisionLedger) (hled : r.elided.lookup code = some led) :
    ∃ r', r.rewriteElisionMarker cfg code = some r' ∧ Reporter.Balanced cfg r' raised := by
  rw [Reporter.rewriteElisionMarker, hled]
  exact h.writeText _ (List.mem_append_right _
    (List.mem_map_of_mem (f := fun e => e.2.markerIndex) (lookup_mem_pair hled)))

theorem Reporter.Balanced.noteElision (h : Reporter.Balanced cfg r raised)
    (hok : Reporter.Ok cfg r) (hd : mustDeliver cfg d = false) (kind : ElisionKind) :
    ∃ r', r.noteElision cfg d kind = some r' ∧ Reporter.Balanced cfg r' (raised ++ [d]) := by
  unfold Reporter.noteElision
  cases hled : r.elided.lookup d.code with
  | some led =>
    obtain ⟨l₁, l₂, hsplit, hnone, hmap⟩ := hok.elided_split hled (led.count kind)
    dsimp only
    rw [hmap]
    have hmem : (d.code, led) ∈ r.elided := lookup_mem_pair hled
    refine Reporter.Balanced.rewriteElisionMarker ?_ (led.count kind)
      (by rw [List.lookup_append, hnone]; simp)
    refine h.lose hd ?_ ?_ h.cap h.uncapped fun e he => ?_
    · -- the places stay, so the same entries are stored
      simp only [Reporter.stored, Reporter.markers, hsplit, List.map_append, List.map_cons,
        ElisionLedger.markerIndex_count]
    · simp only [Reporter.uncounted, hsplit, List.map_append, List.map_cons, List.sum_append,
        List.sum_cons, ElisionLedger.total_count]
      omega
    · rcases List.mem_append.mp he with he | he
      · exact h.elided e (hsplit ▸ List.mem_append_left _ he)
      · rcases List.mem_cons.mp he with rfl | he
        · rw [ElisionLedger.markerIndex_count, ElisionLedger.total_count]
          exact ⟨(h.elided _ hmem).1, Nat.succ_pos _⟩
        · exact h.elided e (hsplit ▸ List.mem_append_right _ (List.mem_cons_of_mem _ he))
  | none =>
    dsimp only
    refine Reporter.Balanced.rewriteElisionMarker ?_
      { ElisionLedger.count {} kind with markerIndex := r.all.length }
      (by rw [List.lookup_append, hled]; simp)
    refine h.lose hd ?_ ?_ (fun hhit => ⟨getElem?_map_push (h.cap hhit).1 _, (h.cap hhit).2⟩)
      h.uncapped fun e he => ?_
    · refine unmarked_mark _ fun i => ?_
      simp [Reporter.markers, or_assoc]
    · have : (ElisionLedger.count {} kind).coalesced + (ElisionLedger.count {} kind).deduped = 1 :=
        ElisionLedger.total_count {} kind
      simp only [Reporter.uncounted, List.map_append, List.sum_append, List.map_cons, List.map_nil,
        List.sum_cons, List.sum_nil]
      omega
    · rcases List.mem_append.mp he with he | he
      · exact ⟨getElem?_map_push (h.elided e he).1 _, (h.elided e he).2⟩
      · obtain rfl := List.mem_singleton.mp he
        have := ElisionLedger.total_count {} kind
        exact ⟨by simp, by dsimp only; omega⟩

theorem Reporter.Balanced.deliver (h : Reporter.Balanced cfg r raised) (hok : Reporter.Ok cfg r)
    (d : ParseDiagnostic) :
    ∃ r', r.deliver cfg d = some r' ∧ Reporter.Balanced cfg r' (raised ++ unsilenced cfg d) := by
  unfold Reporter.deliver unsilenced
  cases hsev : effectiveSeverity cfg d.code d.severity with
  | none => exact ⟨r, rfl, by simpa using h⟩
  | some severity =>
    show ∃ r', _ ∧ Reporter.Balanced cfg r' (raised ++ [{ d with severity := severity }])
    dsimp only
    split_ifs with hmust hhit hdup hper hall
    · exact ⟨_, rfl, h.store _ _ _⟩
    · exact h.noteCapDrop hhit (by simpa using hmust)
    · exact h.noteElision hok (by simpa using hmust) _
    · exact h.noteElision hok (by simpa using hmust) _
    · -- the marker of the cap takes the place of the diagnostic, which is counted
      have hno : r.hitCap = false := by simpa using hhit
      have hlost : Reporter.Balanced cfg { r with
          hitCap := true, capMarkerIndex := r.all.length, droppedByCap := r.droppedByCap + 1
          all := r.all ++ [{
            code := .tooManyDiagnostics, severity := .error, delivery := .guaranteed
            buffer := d.buffer, span := d.span }] }
          (raised ++ [{ d with severity := severity }]) := by
        refine h.lose (by simpa using hmust) ?_ (by simp only [Reporter.uncounted]; omega)
          (fun _ => ⟨by simp, Nat.succ_pos _⟩) (by simp)
          fun e he => ⟨getElem?_map_push (h.elided e he).1 _, (h.elided e he).2⟩
        refine unmarked_mark _ fun i => ?_
        simp [Reporter.markers, hno, or_comm]
      exact hlost.writeText _ (by simp [Reporter.markers])
    · exact ⟨_, rfl, h.store _ _ _⟩

/-- The notice that an error of the code is reported though the operator asked to suppress it. -/
def refusal (cfg : ReporterConfig) (code : DiagnosticCode) : ParseDiagnostic where
  code := .suppressRequestIgnored
  severity := .warning
  actual := "--suppress=" ++ cfg.codes.name code ++ " had no effect" ++ " on an ERROR: " ++
    cfg.codes.name code ++ " stops the build whether or not it is " ++
    "reported, so --suppress silences warnings and notes only, and this error is reported as " ++
    "usual. Use --suppress=D_SuppressRequestIgnored to silence this notice."

def Reporter.announced (cfg : ReporterConfig) (r : Reporter) (code : DiagnosticCode) : Bool :=
  r.all.any fun e => e.code = .suppressRequestIgnored &&
    ("--suppress=" ++ cfg.codes.name code ++ " had no effect").isPrefixOf e.actual

def Reporter.raises (cfg : ReporterConfig) (r : Reporter) (d : ParseDiagnostic) :
    List ParseDiagnostic :=
  (if d.severity = .error ∧ !cfg.codes.isUnsuppressable d.code ∧ cfg.suppress d.code then
    if r.announced cfg d.code then [] else unsilenced cfg (refusal cfg d.code)
  else []) ++ unsilenced cfg d

theorem Reporter.announceRefusedErrorSuppression_eq (code : DiagnosticCode) :
    r.announceRefusedErrorSuppression cfg code =
      if r.announced cfg code then some r else r.deliver cfg (refusal cfg code) := rfl

theorem Reporter.Balanced.report (h : Reporter.Balanced cfg r raised) (hok : Reporter.Ok cfg r)
    (d : ParseDiagnostic) :
    ∃ r', r.report cfg d = some r' ∧ Reporter.Balanced cfg r' (raised ++ r.raises cfg d) := by
  unfold Reporter.report Reporter.raises
  by_cases hrefused : d.severity = .error ∧ !cfg.codes.isUnsuppressable d.code ∧ cfg.suppress d.code
  · rw [if_pos hrefused, if_pos hrefused, Reporter.announceRefusedErrorSuppression_eq]
    by_cases hsaid : r.announced cfg d.code = true
    · rw [if_pos hsaid, if_pos hsaid]
      exact h.deliver hok d
    · rw [if_neg hsaid, if_neg hsaid, ← List.append_assoc]
      obtain ⟨r₁, hw, h₁⟩ := h.deliver hok (refusal cfg d.code)
      rw [hw]
      exact h₁.deliver (hok.deliver hw) d
  · rw [if_neg hrefused, if_neg hrefused]
    exact h.deliver hok d

def Reporter.forceReport (cfg : ReporterConfig) (r : Reporter) (d : ParseDiagnostic) :
    Option Reporter :=
  r.report cfg { d with delivery := .guaranteed }

end

/-- A reporter, what was raised on the branch it is on, and the snapshots that may still be gone
back to, the last first, each with what had been raised. -/
structure Session where
  reporter : Reporter := {}
  raised : List ParseDiagnostic := []
  saved : List (Reporter.Snapshot × List ParseDiagnostic) := []

/-- What a client does with a reporter; `forget` gives the last snapshot up. -/
inductive ReporterAction where
  | report (d : ParseDiagnostic)
  | forceReport (d : ParseDiagnostic)
  | snapshot
  | truncate
  | forget

def Session.act (cfg : ReporterConfig) (s : Session) : ReporterAction → Option Session
  | .report d => (s.reporter.report cfg d).map fun r =>
    { s with reporter := r, raised := s.raised ++ s.reporter.raises cfg d }
  | .forceReport d => (s.reporter.forceReport cfg d).map fun r =>
    { s with
      reporter := r
      raised := s.raised ++ s.reporter.raises cfg { d with delivery := .guaranteed } }
  | .snapshot => some { s with
      saved := (s.reporter.snapshotForRollback, s.raised) :: s.saved }
  | .truncate =>
    match s.saved with
    | [] => some s
    | (snap, raised) :: _ => (s.reporter.truncateTo cfg snap).map fun r =>
      { s with reporter := r, raised := raised }
  | .forget => some { s with saved := s.saved.tail }

/-- The reporter accounts for what was raised. -/
structure Session.Accounts (cfg : ReporterConfig) (s : Session) : Prop where
  ok : Reporter.Ok cfg s.reporter
  balanced : Reporter.Balanced cfg s.reporter s.raised

/-- The states at the snapshots are in order too, and each can be gone back to from the ones taken
later. -/
def Session.Good (cfg : ReporterConfig) (s : Session) : Prop :=
  ∃ past : List (Reporter × List ParseDiagnostic),
    s.saved = past.map (fun p => (p.1.snapshotForRollback, p.2)) ∧
    (∀ p ∈ (s.reporter, s.raised) :: past, Reporter.Ok cfg p.1 ∧ Reporter.Balanced cfg p.1 p.2) ∧
    ((s.reporter, s.raised) :: past).Pairwise fun p q => Reporter.Since q.1 p.1

section

variable {cfg : ReporterConfig} {s s' : Session}

theorem Session.Good.report (h : s.Good cfg) (d : ParseDiagnostic) :
    ∃ r, s.reporter.report cfg d = some r ∧ Session.Good cfg
      { s with reporter := r, raised := s.raised ++ s.reporter.raises cfg d } := by
  obtain ⟨past, hsaved, hall, hsince⟩ := h
  obtain ⟨hok, hbal⟩ := hall _ (List.mem_cons_self ..)
  obtain ⟨r, hw, hbal'⟩ := hbal.report hok d
  rw [List.pairwise_cons] at hsince
  refine ⟨r, hw, past, hsaved, ?_, List.pairwise_cons.mpr ⟨fun q hq => ?_, hsince.2⟩⟩
  · intro p hp
    rcases List.mem_cons.mp hp with rfl | hp
    · exact ⟨hok.report hw, hbal'⟩
    · exact hall p (List.mem_cons_of_mem _ hp)
  · exact (hsince.1 q hq).report hw

theorem Session.Good.act (h : s.Good cfg) (a : ReporterAction) :
    ∃ s', s.act cfg a = some s' ∧ s'.Good cfg := by
  cases a with
  | report d =>
    obtain ⟨r, hw, hgood⟩ := h.report d
    exact ⟨_, by rw [Session.act, hw]; rfl, hgood⟩
  | forceReport d =>
    obtain ⟨r, hw, hgood⟩ := h.report { d with delivery := .guaranteed }
    exact ⟨_, by rw [Session.act, Reporter.forceReport, hw]; rfl, hgood⟩
  | snapshot =>
    obtain ⟨past, hsaved, hall, hsince⟩ := h
    refine ⟨_, rfl, (s.reporter, s.raised) :: past, by rw [hsaved]; rfl, ?_, ?_⟩
    · intro p hp
      rcases List.mem_cons.mp hp with rfl | hp
      · exact hall _ (List.mem_cons_self ..)
      · exact hall p hp
    · refine List.pairwise_cons.mpr ⟨fun q hq => ?_, hsince⟩
      rcases List.mem_cons.mp hq with rfl | hq
      · exact Reporter.since_refl _
      · exact (List.pairwise_cons.mp hsince).1 q hq
  | truncate =>
    obtain ⟨past, hsaved, hall, hsince⟩ := h
    cases past with
    | nil =>
      rw [List.map_nil] at hsaved
      exact ⟨s, by rw [Session.act, hsaved], [], hsaved, hall, hsince⟩
    | cons p past =>
      rw [List.map_cons] at hsaved
      have hp := hall p (by simp)
      have hback := ((List.pairwise_cons.mp hsince).1 p (List.mem_cons_self ..)).truncateTo hp.1
      refine ⟨{ s with reporter := p.1, raised := p.2 }, ?_, p :: past, hsaved, ?_, ?_⟩
      · simp only [Session.act, hsaved, hback, Option.map_some]
      · intro q hq
        exact hall q (List.mem_cons_of_mem _ ((List.mem_cons.mp hq).elim (by rintro rfl; simp) id))
      · have hpast := (List.pairwise_cons.mp hsince).2
        refine List.pairwise_cons.mpr ⟨fun q hq => ?_, hpast⟩
        rcases List.mem_cons.mp hq with rfl | hq
        · exact Reporter.since_refl _
        · exact (List.pairwise_cons.mp hpast).1 q hq
  | forget =>
    obtain ⟨past, hsaved, hall, hsince⟩ := h
    refine ⟨_, rfl, past.tail, by rw [hsaved, List.map_tail], fun p hp => ?_, ?_⟩
    · exact hall p ((List.mem_cons.mp hp).elim (by rintro rfl; simp)
        fun hp => List.mem_cons_of_mem _ (List.mem_of_mem_tail hp))
    · exact hsince.sublist ((List.tail_sublist past).cons_cons _)

/-- Whatever a client does, the reporter never aborts, and its accounts are in order: what the
policy let pass, less what was rolled back, is stored or counted; what must be delivered is stored;
and the markers are entries of their own that state the counts. -/
theorem Session.accounts (cfg : ReporterConfig) (actions : List ReporterAction) :
    ∃ s : Session, actions.foldlM (Session.act cfg) {} = some s ∧ s.Accounts cfg := by
  have hrun : ∀ s : Session, s.Good cfg → ∃ s', actions.foldlM (Session.act cfg) s = some s' ∧
      s'.Good cfg := by
    induction actions with
    | nil => exact fun s hs => ⟨s, rfl, hs⟩
    | cons a actions ih =>
      intro s hs
      obtain ⟨s₁, ha, h₁⟩ := hs.act a
      obtain ⟨s', hrest, h'⟩ := ih s₁ h₁
      exact ⟨s', by rw [List.foldlM_cons, ha]; exact hrest, h'⟩
  obtain ⟨s, hs, past, -, hall, -⟩ := hrun {} ⟨[], rfl, by
    intro p hp
    obtain rfl := List.mem_singleton.mp hp
    exact ⟨Reporter.ok_empty cfg, by constructor <;> simp [Reporter.stored, Reporter.uncounted,
      unmarked]⟩, List.pairwise_singleton _ _⟩
  have hnow := hall _ (List.mem_cons_self ..)
  exact ⟨s, hs, hnow.1, hnow.2⟩

end

/-- **Every snapshot that is held can be gone back to**, also past later ones: the reporter is then
one whose snapshot it is, its accounts are those of the moment, and going back again changes
nothing. -/
theorem Session.rollback_any (cfg : ReporterConfig) (actions : List ReporterAction) :
    ∃ s : Session, actions.foldlM (Session.act cfg) {} = some s ∧ ∀ e ∈ s.saved,
      ∃ r, s.reporter.truncateTo cfg e.1 = some r ∧ r.snapshotForRollback = e.1 ∧
        Session.Accounts cfg { reporter := r, raised := e.2 } ∧ r.truncateTo cfg e.1 = some r := by
  have hrun : ∀ s : Session, s.Good cfg → ∃ s', actions.foldlM (Session.act cfg) s = some s' ∧
      s'.Good cfg := by
    induction actions with
    | nil => exact fun s hs => ⟨s, rfl, hs⟩
    | cons a actions ih =>
      intro s hs
      obtain ⟨s₁, ha, h₁⟩ := hs.act a
      obtain ⟨s', hrest, h'⟩ := ih s₁ h₁
      exact ⟨s', by rw [List.foldlM_cons, ha]; exact hrest, h'⟩
  have hstart : Session.Good cfg {} := ⟨[], rfl, by
    intro p hp
    obtain rfl := List.mem_singleton.mp hp
    exact ⟨Reporter.ok_empty cfg, by constructor <;> simp [Reporter.stored, Reporter.uncounted,
      unmarked]⟩, List.pairwise_singleton _ _⟩
  obtain ⟨s, hs, past, hsaved, hall, hsince⟩ := hrun {} hstart
  refine ⟨s, hs, fun e he => ?_⟩
  rw [hsaved] at he
  obtain ⟨p, hp, rfl⟩ := List.mem_map.mp he
  obtain ⟨hok, hbalanced⟩ := hall p (List.mem_cons_of_mem _ hp)
  exact ⟨p.1, ((List.pairwise_cons.mp hsince).1 p hp).truncateTo hok, rfl, ⟨hok, hbalanced⟩,
    (Reporter.since_refl p.1).truncateTo hok⟩

/-- A warning of a suppressed code: delivery is guaranteed against the caps, not against the
policy. -/
theorem forceReport_suppressed : ¬ ∀ (cfg : ReporterConfig) (r r' : Reporter) (d : ParseDiagnostic),
    r.forceReport cfg d = some r' → ∃ e ∈ r'.all, e.code = d.code := by
  intro h
  have hnone := h
    { codes := ⟨fun _ => 0, fun _ => "", fun _ => "", fun _ => false⟩, suppress := fun _ => true }
    {} {} { code := .unknownToken, severity := .warning } rfl
  simp at hnone

end DssPrime.Parse
