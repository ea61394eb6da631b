import DssPrime.Parse.Reporter

/-!
# Rolling diagnostics back

What a snapshot of the reporter is good for. The stream only grows, and the only entries that are
written later are the markers, whose texts say what the ledgers hold (`Reporter.Ok`).
-/

namespace DssPrime.Parse

/-- An entry of the stream that a ledger speaks of. -/
def Reporter.Marker (r : Reporter) (i : ℕ) : Prop :=
  r.hitCap = true ∧ r.capMarkerIndex = i ∨ ∃ e ∈ r.elided, e.2.markerIndex = i

/-- The ledgers point at their markers. -/
structure Reporter.Ok (cfg : ReporterConfig) (r : Reporter) : Prop where
  cap : r.hitCap = true → ∃ d, r.all[r.capMarkerIndex]? = some d ∧
    d.actual = capText cfg r.droppedByCap
  elided : ∀ e ∈ r.elided, ∃ d, r.all[e.2.markerIndex]? = some d ∧
    d.actual = elisionText cfg e.1 e.2
  keys : (r.elided.map Prod.fst).Nodup
  places : (r.elided.map fun e => e.2.markerIndex).Nodup
  apart : r.hitCap = true → ∀ e ∈ r.elided, e.2.markerIndex ≠ r.capMarkerIndex

/-- The stream can be cut back to an earlier one: it has grown, and only the texts of markers that
were there were written. -/
structure Reporter.Since (r₀ r : Reporter) : Prop where
  grown : r₀.all.length ≤ r.all.length
  kept : ∀ i < r₀.all.length, r.all[i]? = r₀.all[i]? ∨
    r₀.Marker i ∧ ∃ text, r.all[i]? = (r₀.all[i]?).map fun d => d.withText text
  markers : ∀ i < r₀.all.length, r.Marker i → r₀.Marker i

section

variable {cfg : ReporterConfig} {r₀ r r' : Reporter}

theorem Reporter.since_refl (r : Reporter) : Reporter.Since r r :=
  ⟨le_rfl, fun _ _ => .inl rfl, fun _ _ h => h⟩

theorem ParseDiagnostic.withText_withText (d : ParseDiagnostic) (text text' : String) :
    (d.withText text).withText text' = d.withText text' := rfl

theorem Reporter.writeText_eq {i : ℕ} {text : String} (h : r.writeText i text = some r') :
    i < r.all.length ∧ r' = { r with all := r.all.modify i fun d => d.withText text } := by
  unfold Reporter.writeText at h
  split at h
  · rename_i hi
    exact ⟨hi, (Option.some_inj.mp h).symm⟩
  · cases h

theorem Reporter.Since.grow (h : Reporter.Since r₀ r) (added : List ParseDiagnostic)
    (hall : r'.all = r.all ++ added)
    (hmarkers : ∀ i, r'.Marker i → r.Marker i ∨ r.all.length ≤ i) : Reporter.Since r₀ r' := by
  refine ⟨?_, fun i hi => ?_, fun i hi hm => ?_⟩
  · have := h.grown
    simp only [hall, List.length_append]
    omega
  · have hlt : i < r.all.length := lt_of_lt_of_le hi h.grown
    rw [hall, List.getElem?_append_left hlt]
    exact h.kept i hi
  · rcases hmarkers i hm with hm | hle
    · exact h.markers i hi hm
    · exact absurd hi (by have := h.grown; omega)

theorem Reporter.Since.writeText (h : Reporter.Since r₀ r) {i : ℕ} {text : String}
    (hw : r.writeText i text = some r') (hi : r.Marker i) : Reporter.Since r₀ r' := by
  obtain ⟨hlt, rfl⟩ := Reporter.writeText_eq hw
  refine ⟨by simpa using h.grown, fun j hj => ?_, h.markers⟩
  show (r.all.modify i _)[j]? = _ ∨ _
  rw [List.getElem?_modify]
  by_cases hij : i = j
  · subst hij
    refine .inr ⟨h.markers i hj hi, text, ?_⟩
    rcases h.kept i hj with hk | ⟨-, text', hk⟩
    · rw [hk]
      simp
    · rw [hk]
      simp [Function.comp_def, ParseDiagnostic.withText_withText]
  · simpa [hij] using h.kept j hj

theorem Reporter.Since.rewriteCapMarker (h : Reporter.Since r₀ r) (hcap : r.hitCap = true)
    (hw : r.rewriteCapMarker cfg = some r') : Reporter.Since r₀ r' :=
  h.writeText hw (.inl ⟨hcap, rfl⟩)

theorem lookup_mem_pair {κ ν : Type} [DecidableEq κ] {l : List (κ × ν)} {k : κ} {v : ν}
    (h : l.lookup k = some v) : (k, v) ∈ l := by
  obtain ⟨l₁, l₂, rfl, -⟩ := List.lookup_eq_some_iff.mp h
  simp

theorem Reporter.Since.rewriteElisionMarker (h : Reporter.Since r₀ r) {code : DiagnosticCode}
    (hw : r.rewriteElisionMarker cfg code = some r') : Reporter.Since r₀ r' := by
  unfold Reporter.rewriteElisionMarker at hw
  cases hled : r.elided.lookup code with
  | none =>
    rw [hled] at hw
    cases hw
  | some led =>
    rw [hled] at hw
    exact h.writeText hw (.inr ⟨_, lookup_mem_pair hled, rfl⟩)

theorem Reporter.Since.noteCapDrop (h : Reporter.Since r₀ r) (hcap : r.hitCap = true)
    (hw : r.noteCapDrop cfg = some r') : Reporter.Since r₀ r' := by
  have h' : Reporter.Since r₀ { r with droppedByCap := r.droppedByCap + 1 } :=
    h.grow [] (by simp) fun i hm => .inl hm
  exact h'.rewriteCapMarker hcap hw

theorem Reporter.Since.noteElision (h : Reporter.Since r₀ r) {d : ParseDiagnostic}
    {kind : ElisionKind} (hw : r.noteElision cfg d kind = some r') : Reporter.Since r₀ r' := by
  unfold Reporter.noteElision at hw
  cases hled : r.elided.lookup d.code with
  | some led =>
    rw [hled] at hw
    refine Reporter.Since.rewriteElisionMarker (h.grow [] (by simp) ?_) hw
    rintro i (hcap | ⟨e, he, rfl⟩)
    · exact .inl (.inl hcap)
    · obtain ⟨e', he', rfl⟩ := List.mem_map.mp he
      refine .inl (.inr ?_)
      by_cases hcode : e'.1 = d.code
      · refine ⟨_, lookup_mem_pair hled, ?_⟩
        rw [if_pos hcode]
        cases kind <;> rfl
      · rw [if_neg hcode]
        exact ⟨e', he', rfl⟩
  | none =>
    rw [hled] at hw
    refine Reporter.Since.rewriteElisionMarker (h.grow _ rfl ?_) hw
    rintro i (hcap | ⟨e, he, rfl⟩)
    · exact .inl (.inl hcap)
    · rcases List.mem_append.mp he with he | he
      · exact .inl (.inr ⟨e, he, rfl⟩)
      · rw [List.mem_singleton.mp he]
        exact .inr le_rfl

theorem Reporter.Since.deliver (h : Reporter.Since r₀ r) {d : ParseDiagnostic}
    (hw : r.deliver cfg d = some r') : Reporter.Since r₀ r' := by
  unfold Reporter.deliver at hw
  cases hsev : effectiveSeverity cfg d.code d.severity with
  | none =>
    rw [hsev] at hw
    cases hw
    exact h
  | some severity =>
    rw [hsev] at hw
    dsimp only at hw
    split at hw
    · cases hw
      exact h.grow _ rfl fun i hm => .inl hm
    split at hw
    · rename_i hcap
      exact h.noteCapDrop hcap hw
    split at hw
    · exact h.noteElision hw
    split at hw
    · exact h.noteElision hw
    split at hw
    · refine Reporter.Since.noteCapDrop (h.grow _ rfl ?_) rfl hw
      rintro i (⟨-, rfl⟩ | helided)
      · exact .inr le_rfl
      · exact .inl (.inr helided)
    · cases hw
      exact h.grow _ rfl fun i hm => .inl hm

theorem Reporter.Since.report (h : Reporter.Since r₀ r) {d : ParseDiagnostic}
    (hw : r.report cfg d = some r') : Reporter.Since r₀ r' := by
  unfold Reporter.report at hw
  split at hw
  · obtain ⟨r₁, h₁, hw⟩ := Option.bind_eq_some_iff.mp hw
    refine Reporter.Since.deliver ?_ hw
    unfold Reporter.announceRefusedErrorSuppression at h₁
    dsimp only at h₁
    split at h₁
    · cases h₁
      exact h
    · exact h.deliver h₁
  · exact h.deliver hw

theorem Reporter.Ok.grow (h : Reporter.Ok cfg r) (added : List ParseDiagnostic)
    (hall : r'.all = r.all ++ added) (hcap : r'.hitCap = r.hitCap)
    (hdropped : r'.droppedByCap = r.droppedByCap) (hidx : r'.capMarkerIndex = r.capMarkerIndex)
    (helided : r'.elided = r.elided) : Reporter.Ok cfg r' := by
  have hstays : ∀ {i : ℕ} {d : ParseDiagnostic}, r.all[i]? = some d → r'.all[i]? = some d := by
    intro i d hd
    rw [hall, List.getElem?_append_left (List.getElem?_eq_some_iff.mp hd).1]
    exact hd
  constructor
  · intro hhit
    obtain ⟨d, hd, htext⟩ := h.cap (hcap ▸ hhit)
    exact ⟨d, hidx ▸ hstays hd, hdropped ▸ htext⟩
  · intro e he
    obtain ⟨d, hd, htext⟩ := h.elided e (helided ▸ he)
    exact ⟨d, hstays hd, htext⟩
  · rw [helided]
    exact h.keys
  · rw [helided]
    exact h.places
  · intro hhit e he
    rw [hidx]
    exact h.apart (hcap ▸ hhit) e (helided ▸ he)

theorem Reporter.ok_rewriteCapMarker
    (helided : ∀ e ∈ r.elided, ∃ d, r.all[e.2.markerIndex]? = some d ∧
      d.actual = elisionText cfg e.1 e.2)
    (hkeys : (r.elided.map Prod.fst).Nodup)
    (hplaces : (r.elided.map fun e => e.2.markerIndex).Nodup)
    (hapart : ∀ e ∈ r.elided, e.2.markerIndex ≠ r.capMarkerIndex)
    (hw : r.rewriteCapMarker cfg = some r') : Reporter.Ok cfg r' := by
  obtain ⟨hlt, rfl⟩ := Reporter.writeText_eq hw
  constructor
  · intro _
    refine ⟨r.all[r.capMarkerIndex].withText (capText cfg r.droppedByCap), ?_, rfl⟩
    show (r.all.modify r.capMarkerIndex _)[r.capMarkerIndex]? = _
    rw [List.getElem?_modify_eq, List.getElem?_eq_getElem hlt]
    rfl
  · intro e he
    obtain ⟨d, hd, htext⟩ := helided e he
    refine ⟨d, ?_, htext⟩
    show (r.all.modify r.capMarkerIndex _)[e.2.markerIndex]? = _
    rw [List.getElem?_modify_ne _ _ (hapart e he).symm]
    exact hd
  · exact hkeys
  · exact hplaces
  · exact fun _ => hapart

theorem Reporter.ok_rewriteElisionMarker {code : DiagnosticCode}
    (hcap : r.hitCap = true → ∃ d, r.all[r.capMarkerIndex]? = some d ∧
      d.actual = capText cfg r.droppedByCap)
    (helided : ∀ e ∈ r.elided, e.1 ≠ code → ∃ d, r.all[e.2.markerIndex]? = some d ∧
      d.actual = elisionText cfg e.1 e.2)
    (hkeys : (r.elided.map Prod.fst).Nodup)
    (hplaces : (r.elided.map fun e => e.2.markerIndex).Nodup)
    (hapart : r.hitCap = true → ∀ e ∈ r.elided, e.2.markerIndex ≠ r.capMarkerIndex)
    (hw : r.rewriteElisionMarker cfg code = some r') : Reporter.Ok cfg r' := by
  unfold Reporter.rewriteElisionMarker at hw
  cases hled : r.elided.lookup code with
  | none =>
    rw [hled] at hw
    cases hw
  | some led =>
    rw [hled] at hw
    obtain ⟨hlt, rfl⟩ := Reporter.writeText_eq hw
    have hmem := lookup_mem_pair hled
    constructor
    · intro hhit
      obtain ⟨d, hd, htext⟩ := hcap hhit
      refine ⟨d, ?_, htext⟩
      show (r.all.modify led.markerIndex _)[r.capMarkerIndex]? = _
      rw [List.getElem?_modify_ne _ _ (hapart hhit _ hmem)]
      exact hd
    · intro e he
      by_cases hcode : e.1 = code
      · -- the only ledger of the code is the one that was written
        have heq : e = (code, led) :=
          List.inj_on_of_nodup_map hkeys he hmem hcode
        subst heq
        refine ⟨r.all[led.markerIndex].withText (elisionText cfg code led), ?_, rfl⟩
        show (r.all.modify led.markerIndex _)[led.markerIndex]? = _
        rw [List.getElem?_modify_eq, List.getElem?_eq_getElem hlt]
        rfl
      · obtain ⟨d, hd, htext⟩ := helided e he hcode
        refine ⟨d, ?_, htext⟩
        have hne : led.markerIndex ≠ e.2.markerIndex := by
          intro heq
          have := List.inj_on_of_nodup_map hplaces hmem he heq
          exact hcode (congrArg Prod.fst this).symm
        show (r.all.modify led.markerIndex _)[e.2.markerIndex]? = _
        rw [List.getElem?_modify_ne _ _ hne]
        exact hd
    · exact hkeys
    · exact hplaces
    · exact hapart

theorem Reporter.Ok.noteCapDrop (h : Reporter.Ok cfg r) (hcap : r.hitCap = true)
    (hw : r.noteCapDrop cfg = some r') : Reporter.Ok cfg r' := by
  unfold Reporter.noteCapDrop at hw
  exact Reporter.ok_rewriteCapMarker (r := { r with droppedByCap := r.droppedByCap + 1 }) h.elided
    h.keys h.places (h.apart hcap) hw

theorem Reporter.Ok.marker_lt (h : Reporter.Ok cfg r) {e : DiagnosticCode × ElisionLedger}
    (he : e ∈ r.elided) : e.2.markerIndex < r.all.length := by
  obtain ⟨d, hd, -⟩ := h.elided e he
  exact (List.getElem?_eq_some_iff.mp hd).1

theorem Reporter.Ok.noteElision (h : Reporter.Ok cfg r) {d : ParseDiagnostic} {kind : ElisionKind}
    (hw : r.noteElision cfg d kind = some r') : Reporter.Ok cfg r' := by
  unfold Reporter.noteElision at hw
  cases hled : r.elided.lookup d.code with
  | some led =>
    rw [hled] at hw
    dsimp only at hw
    have hmem := lookup_mem_pair hled
    -- counting changes neither the codes nor the places
    have hkey : ∀ e : DiagnosticCode × ElisionLedger,
        (if e.1 = d.code then (e.1, led.count kind) else e).1 = e.1 := by
      intro e
      split <;> rfl
    have hplace : ∀ e ∈ r.elided,
        (if e.1 = d.code then (e.1, led.count kind) else e).2.markerIndex = e.2.markerIndex := by
      intro e he
      split
      · rename_i hcode
        have heq : e = (d.code, led) := List.inj_on_of_nodup_map h.keys he hmem hcode
        subst heq
        cases kind <;> rfl
      · rfl
    have hkeys : ((r.elided.map fun e => if e.1 = d.code then (e.1, led.count kind) else e).map
        Prod.fst) = r.elided.map Prod.fst := by
      rw [List.map_map]
      exact List.map_congr_left fun e _ => hkey e
    have hplaces : ((r.elided.map fun e => if e.1 = d.code then (e.1, led.count kind) else e).map
        fun e => e.2.markerIndex) = r.elided.map fun e => e.2.markerIndex := by
      rw [List.map_map]
      exact List.map_congr_left hplace
    refine Reporter.ok_rewriteElisionMarker (r := { r with
      elided := r.elided.map fun e => if e.1 = d.code then (e.1, led.count kind) else e }) h.cap ?_
      (hkeys ▸ h.keys) (hplaces ▸ h.places) ?_ hw
    · intro e he hcode
      obtain ⟨e', he', rfl⟩ := List.mem_map.mp he
      rw [hkey e'] at hcode
      rw [if_neg hcode]
      exact h.elided e' he'
    · intro hhit e he
      obtain ⟨e', he', rfl⟩ := List.mem_map.mp he
      rw [hplace e' he']
      exact h.apart hhit e' he'
  | none =>
    rw [hled] at hw
    have hnew : d.code ∉ r.elided.map Prod.fst := by
      intro hmem
      obtain ⟨e, he, heq⟩ := List.mem_map.mp hmem
      have := (List.lookup_eq_none_iff.mp hled) e he
      simp [heq] at this
    have hstays : ∀ {i : ℕ} {x y : ParseDiagnostic}, r.all[i]? = some x →
        (r.all ++ [y])[i]? = some x := by
      intro i x y hx
      rw [List.getElem?_append_left (List.getElem?_eq_some_iff.mp hx).1]
      exact hx
    dsimp only at hw
    refine Reporter.ok_rewriteElisionMarker ?_ ?_ ?_ ?_ ?_ hw <;> dsimp only
    · intro hhit
      obtain ⟨x, hx, htext⟩ := h.cap hhit
      exact ⟨x, hstays hx, htext⟩
    · intro e he hcode
      rcases List.mem_append.mp he with he | he
      · obtain ⟨x, hx, htext⟩ := h.elided e he
        exact ⟨x, hstays hx, htext⟩
      · rw [List.mem_singleton.mp he] at hcode
        exact absurd rfl hcode
    · rw [List.map_append]
      refine List.nodup_append.mpr ⟨h.keys, by simp, fun a ha b hb hab => ?_⟩
      simp only [List.map_cons, List.map_nil, List.mem_singleton] at hb
      exact hnew (hb ▸ hab ▸ ha)
    · rw [List.map_append]
      refine List.nodup_append.mpr ⟨h.places, by simp, fun a ha b hb hab => ?_⟩
      simp only [List.map_cons, List.map_nil, List.mem_singleton] at hb
      obtain ⟨e, he, rfl⟩ := List.mem_map.mp ha
      have := h.marker_lt he
      omega
    · intro hhit e he
      obtain ⟨x, hx, -⟩ := h.cap hhit
      have hlt := (List.getElem?_eq_some_iff.mp hx).1
      rcases List.mem_append.mp he with he | he
      · exact h.apart hhit e he
      · rw [List.mem_singleton.mp he]
        exact hlt.ne'

theorem Reporter.Ok.deliver (h : Reporter.Ok cfg r) {d : ParseDiagnostic}
    (hw : r.deliver cfg d = some r') : Reporter.Ok cfg r' := by
  unfold Reporter.deliver at hw
  cases hsev : effectiveSeverity cfg d.code d.severity with
  | none =>
    rw [hsev] at hw
    cases hw
    exact h
  | some severity =>
    rw [hsev] at hw
    dsimp only at hw
    split at hw
    · cases hw
      exact h.grow _ rfl rfl rfl rfl rfl
    split at hw
    · rename_i hcap
      exact h.noteCapDrop hcap hw
    split at hw
    · exact h.noteElision hw
    split at hw
    · exact h.noteElision hw
    split at hw
    · unfold Reporter.noteCapDrop at hw
      refine Reporter.ok_rewriteCapMarker ?_ ?_ ?_ ?_ hw <;> dsimp only
      · intro e he
        obtain ⟨x, hx, htext⟩ := h.elided e he
        refine ⟨x, ?_, htext⟩
        rw [List.getElem?_append_left (h.marker_lt he)]
        exact hx
      · exact h.keys
      · exact h.places
      · exact fun e he => (h.marker_lt he).ne
    · cases hw
      exact h.grow _ rfl rfl rfl rfl rfl

theorem Reporter.Ok.report (h : Reporter.Ok cfg r) {d : ParseDiagnostic}
    (hw : r.report cfg d = some r') : Reporter.Ok cfg r' := by
  unfold Reporter.report at hw
  split at hw
  · obtain ⟨r₁, h₁, hw⟩ := Option.bind_eq_some_iff.mp hw
    refine Reporter.Ok.deliver ?_ hw
    unfold Reporter.announceRefusedErrorSuppression at h₁
    dsimp only at h₁
    split at h₁
    · cases h₁
      exact h
    · exact h.deliver h₁
  · exact h.deliver hw

theorem Reporter.ok_empty (cfg : ReporterConfig) : Reporter.Ok cfg {} := by
  constructor <;> simp

/-- Equal up to the texts of entries that are still to be written. -/
structure Reporter.Stale (r₀ r : Reporter) (todo : ℕ → Prop) : Prop where
  ledgers : r = { r₀ with all := r.all }
  size : r.all.length = r₀.all.length
  entries : ∀ i < r₀.all.length, r.all[i]? = r₀.all[i]? ∨
    todo i ∧ ∃ text, r.all[i]? = (r₀.all[i]?).map fun d => d.withText text

theorem Reporter.Stale.writeText {todo : ℕ → Prop} (h : Reporter.Stale r₀ r todo) {i : ℕ}
    {text : String} {d : ParseDiagnostic} (hd : r₀.all[i]? = some d) (htext : d.actual = text) :
    ∃ r', r.writeText i text = some r' ∧ Reporter.Stale r₀ r' fun j => todo j ∧ j ≠ i := by
  have hi := (List.getElem?_eq_some_iff.mp hd).1
  have hlt : i < r.all.length := h.size.symm ▸ hi
  refine ⟨_, if_pos hlt, ?_, by simpa using h.size, fun j hj => ?_⟩
  · rw [h.ledgers]
  · show (r.all.modify i _)[j]? = _ ∨ _
    by_cases hij : i = j
    · subst hij
      left
      have hback : d.withText text = d := by
        rw [← htext]
        rfl
      rcases h.entries i hj with hk | ⟨-, text', hk⟩
      · rw [List.getElem?_modify_eq, hk, hd]
        exact congrArg some hback
      · rw [List.getElem?_modify_eq, hk, hd]
        exact congrArg some hback
    · rw [List.getElem?_modify_ne _ _ hij]
      rcases h.entries j hj with hk | ⟨htodo, hk⟩
      · exact .inl hk
      · exact .inr ⟨⟨htodo, Ne.symm hij⟩, hk⟩

theorem Reporter.Stale.done {todo : ℕ → Prop} (h : Reporter.Stale r₀ r todo)
    (hdone : ∀ i, ¬ todo i) : r = r₀ := by
  have hall : r.all = r₀.all := by
    refine List.ext_getElem? fun i => ?_
    by_cases hi : i < r₀.all.length
    · rcases h.entries i hi with hk | ⟨htodo, -⟩
      · exact hk
      · exact absurd htodo (hdone i)
    · rw [List.getElem?_eq_none (by have := h.size; omega), List.getElem?_eq_none (by omega)]
  rw [h.ledgers, hall]

theorem Reporter.Stale.mono {todo todo' : ℕ → Prop} (h : Reporter.Stale r₀ r todo)
    (himp : ∀ i, todo i → todo' i) : Reporter.Stale r₀ r todo' :=
  ⟨h.ledgers, h.size, fun i hi => (h.entries i hi).imp_right fun hk => ⟨himp i hk.1, hk.2⟩⟩

theorem Reporter.Stale.foldlM (hok : Reporter.Ok cfg r₀) (l : List (DiagnosticCode × ElisionLedger))
    (hl : ∀ e ∈ l, e ∈ r₀.elided) {todo : ℕ → Prop} (h : Reporter.Stale r₀ r todo) :
    ∃ r', l.foldlM (fun r e => r.rewriteElisionMarker cfg e.1) r = some r' ∧
      Reporter.Stale r₀ r' fun i => todo i ∧ ∀ e ∈ l, i ≠ e.2.markerIndex := by
  induction l generalizing r todo with
  | nil => exact ⟨r, rfl, h.mono fun i hi => ⟨hi, by simp⟩⟩
  | cons e l ih =>
    have he := hl e List.mem_cons_self
    obtain ⟨d, hd, htext⟩ := hok.elided e he
    obtain ⟨r₁, hw, h₁⟩ := h.writeText hd htext
    have hlookup : r.elided.lookup e.1 = some e.2 := by
      have : r.elided = r₀.elided := by rw [h.ledgers]
      rw [this]
      obtain ⟨l₁, l₂, heq⟩ := List.append_of_mem he
      refine List.lookup_eq_some_iff.mpr ⟨l₁, l₂, heq, fun p hp => ?_⟩
      have hkeys := hok.keys
      rw [heq, List.map_append, List.nodup_append] at hkeys
      simpa using (hkeys.2.2 p.1 (List.mem_map_of_mem hp) e.1 (by simp)).symm
    have hrewrite : r.rewriteElisionMarker cfg e.1 = some r₁ := by
      unfold Reporter.rewriteElisionMarker
      rw [hlookup]
      exact hw
    obtain ⟨r₂, hfold, h₂⟩ := ih (fun e' he' => hl e' (List.mem_cons_of_mem _ he')) h₁
    refine ⟨r₂, ?_, h₂.mono fun i hi => ⟨hi.1.1, fun e' he' => ?_⟩⟩
    · rw [List.foldlM_cons, hrewrite]
      exact hfold
    · rcases List.mem_cons.mp he' with rfl | he'
      · exact hi.1.2
      · exact hi.2 e' he'

/-- **Cutting the stream back to a snapshot gives the reporter of the snapshot back.** -/
theorem Reporter.Since.truncateTo (h : Reporter.Since r₀ r) (hok : Reporter.Ok cfg r₀) :
    r.truncateTo cfg r₀.snapshotForRollback = some r₀ := by
  -- after the cut, only the texts of the markers may be wrong
  have hcut : Reporter.Stale r₀ { r₀ with
      all := if r₀.all.length < r.all.length then r.all.take r₀.all.length else r.all }
      r₀.Marker := by
    have hall : (if r₀.all.length < r.all.length then r.all.take r₀.all.length else r.all) =
        r.all.take r₀.all.length := by
      split
      · rfl
      · rw [List.take_of_length_le]
        omega
    rw [hall]
    refine ⟨rfl, ?_, fun i hi => ?_⟩
    · have := h.grown
      simp only [List.length_take]
      omega
    · show (r.all.take r₀.all.length)[i]? = _ ∨ _
      rw [List.getElem?_take_of_lt hi]
      exact h.kept i hi
  have hdef : r.truncateTo cfg r₀.snapshotForRollback = (if r₀.hitCap = true then
      Reporter.rewriteCapMarker cfg { r₀ with
        all := if r₀.all.length < r.all.length then r.all.take r₀.all.length else r.all }
      else some { r₀ with
        all := if r₀.all.length < r.all.length then r.all.take r₀.all.length else r.all }).bind
      fun r => r₀.elided.foldlM (fun r e => r.rewriteElisionMarker cfg e.1) r := rfl
  obtain ⟨r₁, hw, h₁⟩ : ∃ r₁, (if r₀.hitCap = true then
      Reporter.rewriteCapMarker cfg { r₀ with
        all := if r₀.all.length < r.all.length then r.all.take r₀.all.length else r.all }
      else some { r₀ with
        all := if r₀.all.length < r.all.length then r.all.take r₀.all.length else r.all }) =
          some r₁ ∧
      Reporter.Stale r₀ r₁ fun i => r₀.Marker i ∧ ¬ (r₀.hitCap = true ∧ r₀.capMarkerIndex = i) := by
    by_cases hhit : r₀.hitCap = true
    · obtain ⟨d, hd, htext⟩ := hok.cap hhit
      obtain ⟨r₁, hw, h₁⟩ := hcut.writeText hd htext
      refine ⟨r₁, ?_, h₁.mono fun i hi => ⟨hi.1, fun hc => hi.2 hc.2.symm⟩⟩
      rw [if_pos hhit]
      exact hw
    · rw [if_neg hhit]
      exact ⟨_, rfl, hcut.mono fun i hi => ⟨hi, fun hc => hhit hc.1⟩⟩
  obtain ⟨r₂, hfold, h₂⟩ := h₁.foldlM hok r₀.elided (fun _ he => he)
  have hdone : r₂ = r₀ := by
    refine h₂.done ?_
    rintro i ⟨⟨hmarker, hcap⟩, helided⟩
    rcases hmarker with hc | ⟨e, he, rfl⟩
    · exact hcap hc
    · exact helided e he rfl
  rw [hdef, hw, Option.bind_some, hfold, hdone]

end

end DssPrime.Parse
