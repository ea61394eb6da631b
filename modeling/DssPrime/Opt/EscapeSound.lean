import DssPrime.Opt.EscapeFixpoint
import DssPrime.Mir.Memory

/-!
# The escape analysis is sound

The invariant of a run labels the allocations that this activation made with the `alloca` that made
them. A register whose origin is a slot holds provenance of that slot only; a register that is not
slot-derived, memory and the environment hold no provenance of a slot that does not escape. The step
lemma is one case per kind of operation; the tables of the analysis enter through
`escapes_of_opClass` and its neighbours, which compare them with what the machine does.
-/

namespace DssPrime.MirPointerEscape

section

attribute [local simp] opClass

theorem escapes_of_opClass {op : MirOpcode} (k : ℕ)
    (h : opClass op = .compute ∨ opClass op = .foreign) :
    mirPointerUseKind op k = .escapes := by
  cases op <;> first | rfl | simp at h

theorem escapes_of_store {op : MirOpcode} {k : ℕ}
    (h : (opClass op = .store ∨ opClass op = .atomicStore) ∧ k = 0 ∨
      opClass op = .atomicCas ∧ k ≠ 0) :
    mirPointerUseKind op k = .escapes := by
  cases op <;> simp at h <;> simp [mirPointerUseKind, h]

theorem rootClass_of_opClass {op : MirOpcode} (h : opClass op ≠ .derive) (hphi : op ≠ .phi)
    (hal : op ≠ .alloca) :
    mirPointerRootClass op = .external ∨ mirPointerRootClass op = .unknown := by
  cases op <;> first | exact .inl rfl | exact .inr rfl | simp at h hphi hal

theorem rootClass_derive {op : MirOpcode} (h : opClass op = .derive) :
    mirPointerRootClass op = .baseDerived := by
  cases op <;> first | rfl | simp at h

theorem alloca_of_opClass {op : MirOpcode} (h : opClass op = .slot) : op = .alloca := by
  cases op <;> first | rfl | simp at h

theorem observesFrame_of_opClass {op : MirOpcode} (h : opClass op = .frame) :
    mirOpcodeObservesFrame op = true := by
  cases op <;> first | rfl | simp at h

end

section

variable (m : Mir) (D : MemModel) (st : MirPointerEscape) (f : ℕ)

def Public (lab : ℕ → Option ℕ) (a : ℕ) : Prop :=
  ∀ i, lab a = some i → slotEscapes m.toMirData st i = true

structure Held (lab : ℕ → Option ℕ) (v : ℕ) (x : D.Val) : Prop where
  «public» : v ∉ st.slotDerived → ∀ a ∈ D.prov x, Public m st lab a
  slot : ∀ t, originAt m.toMirData st.origins v = .slot t → ∀ a ∈ D.prov x, lab a = some t
  resolved : originAt m.toMirData st.origins v ≠ .unresolved

structure WorldInv (lab : ℕ → Option ℕ) (w : D.World) : Prop where
  sound : D.Sound w
  /-- Labels are on allocations that exist, and name slots of the function. -/
  labelled : ∀ a i, lab a = some i → w.Known a ∧ m.blockFunc (m.instBlock i) = f
  reach : ∀ a ∈ D.Reach w [], Public m st lab a

/-- The invariant of a run. -/
structure Inv (lab : ℕ → Option ℕ) (s : State D.machine) : Prop where
  here : m.IsBlock s.block ∧ m.blockFunc s.block = f
  world : WorldInv m D st f lab s.world
  known : ∀ v x, s.env v = some x → ∀ a ∈ D.prov x, s.world.Known a
  regs : ∀ v x, s.env v = some x → Held m D st lab v x

variable {m D st f} {lab : ℕ → Option ℕ} {w w' : D.World} {s : State D.machine}

theorem WorldInv.public_of_frame (h : WorldInv m D st f lab w) (hf : f ∈ st.allSlotsEscape)
    (a : ℕ) : Public m st lab a := by
  intro i hi
  obtain ⟨-, hfun⟩ := h.labelled a i hi
  unfold slotEscapes
  split_ifs <;> simp [hfun, hf]

theorem WorldInv.confined {R : Set ℕ} (h : WorldInv m D st f lab w)
    (hR : ∀ a ∈ R, Public m st lab a) (hc : D.Confined R w w') :
    WorldInv m D st f lab w' where
  sound := hc.sound h.sound
  labelled a i hi := ⟨hc.known a (h.labelled a i hi).1, (h.labelled a i hi).2⟩
  reach a ha := by
    rcases hc.spread a ha with hr | hn
    · exact hR a hr
    · -- an allocation made by what acted has no label
      intro i hi
      exact absurd (h.labelled a i hi).1 hn

theorem WorldInv.before (h : WorldInv m D st f lab w) (op : Operation) (b : Bool) :
    WorldInv m D st f lab (D.before op b w) ∧ ∀ a, w.Known a → (D.before op b w).Known a := by
  unfold MemData.before
  split_ifs
  · exact ⟨h.confined h.reach (D.sync_spec op w), (D.sync_spec op w).known⟩
  · exact ⟨h, fun _ ha => ha⟩

theorem reach_stored {p v : D.Val} {ty pty a : ℕ} (h : a ∈ D.Reach (D.stored w p v ty pty) []) :
    a ∈ D.Reach w [] ∨ a ∈ D.prov v := by
  rcases h with he | ⟨x, hx, -⟩ | ⟨x, hx⟩
  · exact .inl (.inl he)
  · simp at hx
  · simp only [MemData.stored, MemWorld.write] at hx
    split_ifs at hx with hlt
    · exact .inl (.inr (.inr ⟨x, hx⟩))
    · cases hb : (D.encode ty v)[x - D.addr p]? with
      | none =>
        rw [hb] at hx
        exact .inl (.inr (.inr ⟨x, hx⟩))
      | some b =>
        rw [hb] at hx
        exact .inr (D.prov_encode ty v b (List.mem_of_getElem? hb) hx)

theorem WorldInv.stored (h : WorldInv m D st f lab w) {p v : D.Val} {ty pty : ℕ}
    (hpub : ∀ a ∈ D.prov v, Public m st lab a) (hk : ∀ a ∈ D.prov v, w.Known a) :
    WorldInv m D st f lab (D.stored w p v ty pty) where
  sound := ⟨h.sound.apart, fun a ha => (reach_stored ha).elim (h.sound.known a) (hk a)⟩
  labelled := h.labelled
  reach a ha := (reach_stored ha).elim (h.reach a) (hpub a)

theorem reach_valueAt {p : D.Val} {ty a : ℕ} (h : a ∈ D.prov (D.valueAt w p ty)) :
    a ∈ D.Reach w [] := by
  obtain ⟨b, hb, hab⟩ := D.prov_decode ty _ a h
  obtain ⟨k, -, rfl⟩ := List.mem_map.1 hb
  exact .inr (.inr ⟨_, hab⟩)

theorem Inv.escaping (h : Inv m D st f lab s) (hst : Solved m.toMirData st) {u k o : ℕ}
    {x : D.Val} (hu : m.IsInst u) (hfu : m.blockFunc (m.instBlock u) = f)
    (hphi : mirPointerRootClass (m.instOpcode u) ≠ .merged)
    (hk : (m.instOperands u)[k]? = some o)
    (huse : mirPointerUseKind (m.instOpcode u) k = .escapes) (hx : s.env o = some x) :
    ∀ a ∈ D.prov x, Public m st lab a := by
  have hseen := hst.uses u k o hu hphi hk huse
  have hheld := h.regs o x hx
  by_cases ho : o ∈ st.slotDerived
  · unfold Seen at hseen
    split at hseen
    · rename_i t ht
      intro a ha i hi
      obtain rfl : t = i := by simpa [hheld.slot t ht a ha] using hi
      unfold slotEscapes
      split_ifs <;> simp
    · rename_i hext
      exact absurd hext (hst.inside o ho).2.2.2
    · rw [hfu] at hseen
      exact fun a _ => h.world.public_of_frame (hseen ho) a
  · exact hheld.public ho

theorem Inv.assign (h : Inv m D st f lab s) (hw : WorldInv m D st f lab w')
    (hk : ∀ a, s.world.Known a → w'.Known a) {u : ℕ} {v : Option D.machine.Val}
    (hv : ∀ x, v = some x → (∀ a ∈ D.prov x, w'.Known a) ∧ Held m D st lab u x) :
    Inv m D st f lab (s.assign u v w') where
  here := h.here
  world := hw
  known i x hx a ha := by
    rw [State.assign_env] at hx
    split_ifs at hx with hi
    · exact (hv x hx).1 a ha
    · exact hk a (h.known i x hx a ha)
  regs i x hx := by
    rw [State.assign_env] at hx
    split_ifs at hx with hi
    · rw [hi]; exact (hv x hx).2
    · exact h.regs i x hx

theorem held_of_public (hst : Solved m.toMirData st) {u : ℕ} {x : D.Val} (hu : m.IsInst u)
    (hroot : mirPointerRootClass (m.instOpcode u) = .external ∨
      mirPointerRootClass (m.instOpcode u) = .unknown)
    (hx : ∀ a ∈ D.prov x, Public m st lab a) : Held m D st lab u x := by
  have horigin : originAt m.toMirData st.origins u = .external ∨
      originAt m.toMirData st.origins u = .unknown := by
    rcases hroot with hr | hr
    · exact .inl (hst.root u _ hu (by simp [rootOrigin, hr]))
    · exact .inr (hst.root u _ hu (by simp [rootOrigin, hr]))
  refine ⟨fun _ => hx, fun t ht => ?_, ?_⟩
  · rcases horigin with ho | ho <;> simp [ho] at ht
  · rcases horigin with ho | ho <;> simp [ho]

theorem Held.derived (hst : Solved m.toMirData st) {u b : ℕ} {x y : D.Val} (hu : m.IsInst u)
    (hd : IsDerived m.toMirData u) (hb : b ∈ sources m.toMirData u) (h : Held m D st lab b x)
    (hxy : D.prov y ⊆ D.prov x) : Held m D st lab u y := by
  have hle : Le (originAt m.toMirData st.origins b) (originAt m.toMirData st.origins u) := by
    rw [hst.derived u hu hd]
    exact le_transfer hb
  refine ⟨fun hn a ha => h.public (fun hbs => hn (hst.closed u b hu hd hb hbs)) a (hxy ha),
    fun t ht a ha => h.slot t ?_ a (hxy ha), fun hun => h.resolved ?_⟩
  · rcases hle with hl | hl | hl
    · exact absurd hl h.resolved
    · rw [ht] at hl; simp at hl
    · rw [hl, ht]
  · rw [hun] at hle
    exact hle.eq_unresolved

theorem Inv.allocate (h : Inv m D st f lab s) (hst : Solved m.toMirData st) {u n : ℕ}
    {v : Option D.Val} (hu : m.IsInst u) (hfu : m.blockFunc (m.instBlock u) = f)
    (hal : m.instOpcode u = .alloca) (hex : D.allocate s.world n = .ok v w') :
    ∃ lab', Inv m D st f lab' (s.assign u v w') := by
  unfold MemData.allocate at hex
  split at hex
  · simp at hex
  rename_i id base hplace
  obtain ⟨hnew, hfree⟩ := D.place_spec s.world n id base hplace
  simp only [Exec.ok.injEq] at hex
  obtain ⟨rfl, rfl⟩ := hex
  set w' : D.World :=
    { s.world with allocs := Function.update s.world.allocs id (some ⟨base, n, true⟩) } with hw'
  have hknown : ∀ a, s.world.Known a → w'.Known a := by
    intro a ha
    by_cases hai : a = id
    · simp [hw', MemWorld.Known, hai]
    · simpa [hw', MemWorld.Known, hai] using ha
  have hreach : ∀ a ∈ D.Reach w' [], a ∈ D.Reach s.world [] := fun a ha => ha
  -- nothing that exists has the new identity
  have hlab : ∀ a, s.world.Known a → Function.update lab id (some u) a = lab a := by
    intro a ha
    have hai : a ≠ id := by rintro rfl; exact hnew ha
    simp [hai]
  have hpub : ∀ a, s.world.Known a → Public m st lab a →
      Public m st (Function.update lab id (some u)) a := by
    intro a ha hp i hi
    rw [hlab a ha] at hi
    exact hp i hi
  refine ⟨Function.update lab id (some u), ?_⟩
  have hold : Inv m D st f (Function.update lab id (some u)) { s with world := w' } := by
    refine ⟨h.here, ⟨⟨?_, ?_⟩, ?_, ?_⟩, ?_, ?_⟩
    · intro a b al bl hab ha hb hla hlb
      by_cases hai : a = id
      · have hbi : b ≠ id := by rintro rfl; exact hab hai
        obtain rfl : ⟨base, n, true⟩ = al := by simpa [hw', hai] using ha
        exact hfree b bl (by simpa [hw', hbi] using hb) hlb
      · by_cases hbi : b = id
        · obtain rfl : ⟨base, n, true⟩ = bl := by simpa [hw', hbi] using hb
          exact (hfree a al (by simpa [hw', hai] using ha) hla).symm
        · exact h.world.sound.apart a b al bl hab (by simpa [hw', hai] using ha)
            (by simpa [hw', hbi] using hb) hla hlb
    · exact fun a ha => hknown a (h.world.sound.known a (hreach a ha))
    · intro a i hi
      by_cases hai : a = id
      · subst hai
        obtain rfl : u = i := by simpa using hi
        exact ⟨by simp [hw', MemWorld.Known], hfu⟩
      · obtain ⟨hk, hfi⟩ := h.world.labelled a i (by simpa [hai] using hi)
        exact ⟨hknown a hk, hfi⟩
    · exact fun a ha => hpub a (h.world.sound.known a (hreach a ha)) (h.world.reach a (hreach a ha))
    · exact fun i x hx a ha => hknown a (h.known i x hx a ha)
    · intro i x hx
      have hheld := h.regs i x hx
      refine ⟨fun hn a ha => hpub a (h.known i x hx a ha) (hheld.public hn a ha),
        fun t ht a ha => ?_, hheld.resolved⟩
      rw [hlab a (h.known i x hx a ha)]
      exact hheld.slot t ht a ha
  refine Inv.assign (s := { s with world := w' }) hold hold.world (fun _ ha => ha) ?_
  intro x hx
  obtain rfl : D.pointer id base = x := by simpa using hx
  have hprov := (D.pointer_spec id base).1
  have horigin := hst.root u _ hu (rootOrigin_alloca hal)
  refine ⟨fun a ha => ?_, ⟨fun hn => absurd (hst.slot u hu hal) hn, fun t ht a ha => ?_, ?_⟩⟩
  · rw [hprov, Finset.mem_singleton] at ha
    simp [hw', MemWorld.Known, ha]
  · rw [hprov, Finset.mem_singleton] at ha
    obtain rfl : u = t := by simpa [horigin] using ht
    simp [ha]
  · rw [horigin]; simp

theorem Inv.operand_known (h : Inv m D st f lab s) {u : ℕ} {vs : List D.machine.Val}
    (hvs : operandValues m.toMirData s.env u = some vs) {x : D.Val} (hx : x ∈ vs) :
    ∀ a ∈ D.prov x, s.world.Known a := by
  obtain ⟨k, hk⟩ := List.getElem?_of_mem hx
  obtain ⟨o, -, ho⟩ := operandValues_getElem? hvs hk
  exact h.known o x ho

theorem Inv.load (h : Inv m D st f lab s) (hst : Solved m.toMirData st) {u ty pty : ℕ}
    {p : D.Val} {b : Bool} {v : Option D.Val} (hu : m.IsInst u)
    (hroot : mirPointerRootClass (m.instOpcode u) = .external ∨
      mirPointerRootClass (m.instOpcode u) = .unknown)
    (hex : D.load (D.before (m.operation u) b s.world) p ty pty = .ok v w') :
    Inv m D st f lab (s.assign u v w') := by
  obtain ⟨hw, hk⟩ := h.world.before (m.operation u) b
  unfold MemData.load at hex
  split_ifs at hex with hacc
  obtain ⟨rfl, rfl⟩ := Exec.ok.inj hex
  refine h.assign hw hk fun x hx => ?_
  obtain rfl := Option.some.inj hx
  exact ⟨fun a ha => hw.sound.known a (reach_valueAt ha),
    held_of_public hst hu hroot fun a ha => hw.reach a (reach_valueAt ha)⟩

theorem Inv.store (h : Inv m D st f lab s) {u ty pty : ℕ} {p x : D.Val} {b : Bool}
    {v : Option D.Val} (hpub : ∀ a ∈ D.prov x, Public m st lab a)
    (hkn : ∀ a ∈ D.prov x, s.world.Known a)
    (hex : D.store (D.before (m.operation u) b s.world) p x ty pty = .ok v w') :
    Inv m D st f lab (s.assign u v w') := by
  obtain ⟨hw, hk⟩ := h.world.before (m.operation u) b
  unfold MemData.store at hex
  split_ifs at hex with hacc
  obtain ⟨rfl, rfl⟩ := Exec.ok.inj hex
  refine h.assign (hw.stored hpub fun a ha => hk a (hkn a ha)) hk fun y hy => ?_
  simp at hy

theorem Inv.compareExchange (h : Inv m D st f lab s) (hst : Solved m.toMirData st) {u : ℕ}
    {p x y : D.Val} {b : Bool} {v : Option D.Val} (hu : m.IsInst u)
    (hroot : mirPointerRootClass (m.instOpcode u) = .external ∨
      mirPointerRootClass (m.instOpcode u) = .unknown)
    (hpub : ∀ z ∈ [x, y], ∀ a ∈ D.prov z, Public m st lab a)
    (hkn : ∀ z ∈ [x, y], ∀ a ∈ D.prov z, s.world.Known a)
    (hex : D.compareExchange (m.operation u) (D.before (m.operation u) b s.world) p x y =
      .ok v w') :
    Inv m D st f lab (s.assign u v w') := by
  obtain ⟨hw, hk⟩ := h.world.before (m.operation u) b
  unfold MemData.compareExchange at hex
  dsimp only at hex
  split_ifs at hex with hacc
  all_goals
    unfold MemData.compute at hex
    split at hex
    case h_2 => simp at hex
    rename_i z hz
    obtain ⟨rfl, rfl⟩ := Exec.ok.inj hex
    -- the old value comes from memory, the other two are public operands
    have hres : ∀ a ∈ D.prov z, Public m st lab a ∧
        (D.before (m.operation u) b s.world).Known a := by
      intro a ha
      obtain ⟨z', hz', ha'⟩ := D.prov_compute _ _ _ hz a ha
      rcases List.mem_cons.1 hz' with rfl | hz'
      · exact ⟨hw.reach a (reach_valueAt ha'), hw.sound.known a (reach_valueAt ha')⟩
      · exact ⟨hpub z' hz' a ha', hk a (hkn z' hz' a ha')⟩
  · refine h.assign (hw.stored (hpub y (by simp)) fun a ha => hk a (hkn y (by simp) a ha)) hk
      fun z' hz' => ?_
    obtain rfl := Option.some.inj hz'
    exact ⟨fun a ha => (hres a ha).2, held_of_public hst hu hroot fun a ha => (hres a ha).1⟩
  · refine h.assign hw hk fun z' hz' => ?_
    obtain rfl := Option.some.inj hz'
    exact ⟨fun a ha => (hres a ha).2, held_of_public hst hu hroot fun a ha => (hres a ha).1⟩

/-- **One operation keeps the invariant**, with one more label if it makes a slot. -/
theorem Inv.exec (h : Inv m D st f lab s) (hst : Solved m.toMirData st) {u : ℕ}
    {vs : List D.machine.Val} {v : Option D.machine.Val} (hu : m.IsInst u)
    (hfu : m.blockFunc (m.instBlock u) = f) (hphi : m.instOpcode u ≠ .phi)
    (hvs : operandValues m.toMirData s.env u = some vs)
    (hex : D.exec (m.operation u) vs s.world = .ok v w') :
    ∃ lab', Inv m D st f lab' (s.assign u v w') := by
  have hmerged : mirPointerRootClass (m.instOpcode u) ≠ .merged := by
    intro hc
    revert hc hphi
    cases m.instOpcode u <;> simp [mirPointerRootClass]
  have hpub : ∀ k x, mirPointerUseKind (m.instOpcode u) k = .escapes → vs[k]? = some x →
      ∀ a ∈ D.prov x, Public m st lab a := by
    intro k x huse hx
    obtain ⟨o, hk, ho⟩ := operandValues_getElem? hvs hx
    exact h.escaping hst hu hfu hmerged hk huse ho
  have hkn : ∀ x ∈ vs, ∀ a ∈ D.prov x, s.world.Known a := fun x hx => h.operand_known hvs hx
  have hroot : opClass (m.instOpcode u) ≠ .derive → m.instOpcode u ≠ .alloca →
      mirPointerRootClass (m.instOpcode u) = .external ∨
        mirPointerRootClass (m.instOpcode u) = .unknown :=
    fun hc ha => rootClass_of_opClass hc hphi ha
  unfold MemData.exec at hex
  have hop : (m.operation u).opcode = m.instOpcode u := rfl
  rw [hop] at hex
  have hal : opClass (m.instOpcode u) ≠ .slot → m.instOpcode u ≠ .alloca := by
    rintro hc ha
    exact hc (by rw [ha]; rfl)
  split at hex
  case h_1 hc =>
    obtain ⟨rfl, rfl⟩ := Exec.ok.inj hex
    refine ⟨lab, h.assign h.world (fun _ ha => ha) fun x hx => ?_⟩
    obtain rfl := Option.some.inj hx
    have hreach : ∀ a ∈ D.prov (D.outside (m.operation u) s.world), a ∈ D.Reach s.world [] :=
      fun a ha => .inl (D.prov_outside _ _ a ha)
    exact ⟨fun a ha => h.world.sound.known a (hreach a ha),
      held_of_public hst hu (hroot (by simp [hc]) (hal (by simp [hc])))
        fun a ha => h.world.reach a (hreach a ha)⟩
  case h_2 hc =>
    exact h.allocate hst hu hfu (alloca_of_opClass hc) hex
  case h_3 p hc =>
    exact ⟨lab, h.load hst hu (hroot (by simp [hc]) (hal (by simp [hc]))) hex⟩
  case h_4 x p hc =>
    exact ⟨lab, h.store (hpub 0 x (escapes_of_store (by simp [hc])) rfl) (hkn x (by simp)) hex⟩
  case h_5 p hc =>
    exact ⟨lab, h.load hst hu (hroot (by simp [hc]) (hal (by simp [hc]))) hex⟩
  case h_6 x p hc =>
    exact ⟨lab, h.store (hpub 0 x (escapes_of_store (by simp [hc])) rfl) (hkn x (by simp)) hex⟩
  case h_7 p x y hc =>
    refine ⟨lab, h.compareExchange hst hu (hroot (by simp [hc]) (hal (by simp [hc]))) ?_ ?_ hex⟩
    · intro z hz
      rcases List.mem_pair.1 hz with rfl | rfl
      · exact hpub 1 z (escapes_of_store (by simp [hc])) rfl
      · exact hpub 2 z (escapes_of_store (by simp [hc])) rfl
    · intro z hz
      exact hkn z (List.mem_cons_of_mem _ hz)
  case h_8 vs _ _ hc =>
    unfold MemData.compute at hex
    split at hex
    case h_2 => simp at hex
    rename_i y hy
    obtain ⟨rfl, rfl⟩ := Exec.ok.inj hex
    refine ⟨lab, h.assign h.world (fun _ ha => ha) fun y' hy' => ?_⟩
    obtain rfl := Option.some.inj hy'
    refine ⟨fun a ha => ?_, ?_⟩
    · obtain ⟨x, hx, hax⟩ := D.prov_compute _ _ _ hy a ha
      exact hkn x hx a hax
    · cases vs with
      | nil =>
        -- without a base there is no provenance
        have hnone : ∀ a, a ∉ D.prov y := by
          intro a ha
          obtain ⟨x, hx, -⟩ := D.prov_compute _ _ _ hy a ha
          simp at hx
        have hops : m.instOperands u = [] := by
          have := (mapM_env_eq_some.1 hvs).length_eq
          exact List.length_eq_zero_iff.1 (by simpa using this)
        have horigin := hst.root u .unknown hu (by simp [rootOrigin, rootClass_derive hc, hops])
        exact ⟨fun _ a ha => absurd ha (hnone a), fun t _ a ha => absurd ha (hnone a),
          by rw [horigin]; simp⟩
      | cons x vs =>
        obtain ⟨b, hb, hbx⟩ := operandValues_getElem? (k := 0) hvs rfl
        obtain ⟨os, hos⟩ : ∃ os, m.instOperands u = b :: os := by
          cases ho : m.instOperands u with
          | nil => simp [ho] at hb
          | cons o os => exact ⟨os, by simpa [ho] using hb⟩
        refine (h.regs b x hbx).derived hst hu ?_ ?_ (D.prov_derive _ _ _ _ hc hy)
        · simp [IsDerived, rootOrigin, rootClass_derive hc, hos]
        · simp [sources, rootClass_derive hc, hos]
  case h_9 hc =>
    unfold MemData.compute at hex
    split at hex
    case h_2 => simp at hex
    rename_i y hy
    obtain ⟨rfl, rfl⟩ := Exec.ok.inj hex
    refine ⟨lab, h.assign h.world (fun _ ha => ha) fun y' hy' => ?_⟩
    obtain rfl := Option.some.inj hy'
    have hprov := D.prov_compare _ _ _ hc hy
    exact ⟨by simp [hprov], held_of_public hst hu (hroot (by simp [hc]) (hal (by simp [hc])))
      (by simp [hprov])⟩
  case h_10 hc =>
    unfold MemData.compute at hex
    split at hex
    case h_2 => simp at hex
    rename_i y hy
    obtain ⟨rfl, rfl⟩ := Exec.ok.inj hex
    refine ⟨lab, h.assign h.world (fun _ ha => ha) fun y' hy' => ?_⟩
    obtain rfl := Option.some.inj hy'
    refine ⟨fun a ha => ?_, held_of_public hst hu (hroot (by simp [hc]) (hal (by simp [hc])))
      fun a ha => ?_⟩
    · obtain ⟨x, hx, hax⟩ := D.prov_compute _ _ _ hy a ha
      exact hkn x hx a hax
    · obtain ⟨x, hx, hax⟩ := D.prov_compute _ _ _ hy a ha
      obtain ⟨k, hk⟩ := List.getElem?_of_mem hx
      exact hpub k x (escapes_of_opClass k (.inl hc)) hk a hax
  case h_11 vs _ _ hc =>
    obtain ⟨hconf, hres⟩ := D.foreign_spec _ _ _ _ _ hex hc
    have hR : ∀ a ∈ D.Reach s.world vs, Public m st lab a := by
      rintro a (ha | ⟨x, hx, ha⟩ | ha)
      · exact h.world.reach a (.inl ha)
      · obtain ⟨k, hk⟩ := List.getElem?_of_mem hx
        exact hpub k x (escapes_of_opClass k (.inr hc)) hk a ha
      · exact h.world.reach a (.inr (.inr ha))
    refine ⟨lab, h.assign (h.world.confined hR hconf) hconf.known fun x hx => ?_⟩
    refine ⟨fun a ha => (hres x hx a ha).1,
      held_of_public hst hu (hroot (by simp [hc]) (hal (by simp [hc]))) fun a ha => ?_⟩
    rcases (hres x hx a ha).2 with hr | hn
    · exact hR a hr
    · exact fun i hi => absurd (h.world.labelled a i hi).1 hn
  case h_12 hc =>
    obtain ⟨hconf, hres⟩ := D.frame_spec _ _ _ _ _ hex hc
    have hall : ∀ a, Public m st lab a := h.world.public_of_frame
      (by rw [← hfu]; exact hst.frames u hu (observesFrame_of_opClass hc))
    refine ⟨lab, h.assign (h.world.confined (fun a _ => hall a) hconf) hconf.known
      fun x hx => ⟨hres x hx, ?_⟩⟩
    exact held_of_public hst hu (hroot (by simp [hc]) (hal (by simp [hc]))) fun a _ => hall a
  case h_13 => simp at hex

theorem Inv.enterBlock (h : Inv m D st f lab s) (hst : Solved m.toMirData st) {b : ℕ}
    (hb : m.IsBlock b ∧ m.blockFunc b = f) (hw : WorldInv m D st f lab w')
    (hk : ∀ a, s.world.Known a → w'.Known a) :
    Inv m D st f lab ⟨DssPrime.enterBlock m.toMirData s.env s.block b, b, 0, w'⟩ := by
  have hphi : ∀ i x, IsPhiOf m.toMirData b i → phiValue m.toMirData s.env s.block i = some x →
      ∃ v ∈ sources m.toMirData i, s.env v = some x ∧ m.IsInst i ∧ IsDerived m.toMirData i := by
    intro i x hi hx
    obtain ⟨inc, hinc, hval⟩ := Option.bind_eq_some_iff.1 hx
    have hmem := List.mem_of_find?_eq_some hinc
    obtain ⟨j, hj, rfl⟩ := List.mem_map.1 hi.1
    have hinst := m.isInst_blockInstAt (List.mem_range.1 hj)
    have hv0 : inc.value ≠ 0 := ((m.instBuilt hinst).incomings inc hmem).1.1
    refine ⟨inc.value, ?_, hval, hinst, ?_⟩
    · simp only [sources, hi.2, mirPointerRootClass]
      exact List.mem_map.2 ⟨inc, List.mem_filter.2 ⟨hmem, by simpa using hv0⟩, rfl⟩
    · simp [IsDerived, rootOrigin, hi.2, mirPointerRootClass]
  refine ⟨hb, hw, fun i x hx a ha => ?_, fun i x hx => ?_⟩
  · simp only [DssPrime.enterBlock] at hx
    split_ifs at hx with hi
    · obtain ⟨v, -, hv, -⟩ := hphi i x hi hx
      exact hk a (h.known v x hv a ha)
    · exact hk a (h.known i x hx a ha)
  · simp only [DssPrime.enterBlock] at hx
    split_ifs at hx with hi
    · obtain ⟨v, hsrc, hv, hinst, hd⟩ := hphi i x hi hx
      exact (h.regs v x hv).derived hst hinst hd hsrc (Finset.Subset.refl _)
    · exact h.regs i x hx

/-- **One step keeps the invariant.** -/
theorem Inv.step {label : ℕ → Option ℕ} {s' : State D.machine} (h : Inv m D st f lab s)
    (hst : Solved m.toMirData st) (hs : DssPrime.step m.toMirData label s = .running s') :
    ∃ lab', Inv m D st f lab' s' := by
  obtain ⟨i, rfl, hidx, hcase⟩ := step_cases hs
  set i := m.blockInstAt s.block s.idx with hi
  have hu : m.IsInst i := m.isInst_blockInstAt hidx
  have hblock : m.instBlock i = s.block :=
    (m.blockBuilt h.here.1).owner i (List.mem_map.2 ⟨s.idx, List.mem_range.2 hidx, rfl⟩)
  have hfu : m.blockFunc (m.instBlock i) = f := by rw [hblock]; exact h.here.2
  rcases hcase with ⟨-, rfl⟩ | ⟨hop, l, -, rfl⟩ | ⟨vs, v, w', hphi, -, -, -, hvs, hex, rfl⟩ |
    ⟨vs, -, -, hterm⟩
  · exact ⟨lab, h.here, h.world, h.known, h.regs⟩
  · refine ⟨lab, h.assign h.world (fun _ ha => ha) fun x hx => ?_⟩
    obtain rfl := Option.some.inj hx
    have hprov := D.prov_codeAddr l
    refine ⟨fun a ha => ?_, held_of_public hst hu (.inl (by rw [hop]; rfl)) fun a ha => ?_⟩
    · rw [hprov] at ha; simp at ha
    · rw [hprov] at ha; simp at ha
  · exact h.exec hst hu hfu hphi hvs hex
  · obtain ⟨b, hb, w', rfl, hw⟩ := terminate_eq_running hterm
    have hsucc := (m.blockBuilt h.here.1).succs b hb
    have hb' : m.IsBlock b ∧ m.blockFunc b = f := ⟨hsucc.1, hsucc.2.trans h.here.2⟩
    rcases hw with rfl | ⟨hop, k, hpick⟩
    · exact ⟨lab, h.enterBlock hst hb' h.world fun _ ha => ha⟩
    · -- the machine's own choices see the frame
      have hconf := D.pick_spec _ _ _ _ _ hpick
      have hobs : mirOpcodeObservesFrame (m.instOpcode i) = true := by
        rcases hop with hop | hop | hop <;> rw [hop] <;> rfl
      have hall : ∀ a, Public m st lab a :=
        h.world.public_of_frame (by rw [← hfu]; exact hst.frames i hu hobs)
      exact ⟨lab, h.enterBlock hst hb' (h.world.confined (fun a _ => hall a) hconf) hconf.known⟩

theorem inv_start (hf : m.IsFunc f) (hw : D.Sound w) :
    Inv m D st f (fun _ => none) (State.start m.toMirData f w : State D.machine) where
  here := by
    have hb := (m.funcBuilt hf).blocks
    have hentry : m.IsBlock (m.funcEntry f) :=
      ⟨hb.2.1, by have := hb.1; have := hb.2.2; omega⟩
    have hpos := Nat.pos_of_ne_zero hb.1
    exact ⟨hentry, (m.funcBuilt hf).owner _ (m.mem_funcBlocks.2 ⟨le_refl _,
      Nat.lt_add_of_pos_right hpos⟩)⟩
  world := ⟨hw, by simp, fun a _ i hi => by simp at hi⟩
  known v x hx := by simp [State.start] at hx
  regs v x hx := by simp [State.start] at hx

/-- **The invariant holds in every state of every activation.** -/
theorem inv_reachable {label : ℕ → Option ℕ} (hst : Solved m.toMirData st) (hf : m.IsFunc f)
    (hw : D.Sound w) (hs : Reachable m.toMirData label f w s) :
    ∃ lab, Inv m D st f lab s := by
  induction hs with
  | refl => exact ⟨_, inv_start hf hw⟩
  | tail _ hstep ih =>
    obtain ⟨lab, h⟩ := ih
    exact h.step hst hstep

end

/-- The registers of `p` and `q` address no common byte: whatever is accessed through the one
is not accessed through the other. -/
def Apart (D : MemModel) (s : State D.machine) (p q : ℕ) : Prop :=
  ∀ x y, s.env p = some x → s.env q = some y → ∀ n k, D.MayAccess s.world x n →
    D.MayAccess s.world y k →
    ∀ b, ¬ (D.addr x ≤ b ∧ b < D.addr x + n ∧ D.addr y ≤ b ∧ b < D.addr y + k)

section

variable {m : Mir} {D : MemModel} {st : MirPointerEscape} {f : ℕ} {lab : ℕ → Option ℕ}
  {s : State D.machine}

theorem originOf_eq_slot {p t : ℕ} (h : originOf m.toMirData st p = .slot t) :
    originAt m.toMirData st.origins p = .slot t := by
  unfold originOf at h
  unfold originAt
  split_ifs at h ⊢ with hp
  split at h <;> simp_all

theorem originOf_eq_external {p : ℕ} (h : originOf m.toMirData st p = .external) :
    originAt m.toMirData st.origins p = .external := by
  unfold originOf at h
  unfold originAt
  split_ifs at h ⊢ with hp
  split at h <;> simp_all

theorem Inv.apart_of_disjoint (h : Inv m D st f lab s) {p q : ℕ}
    (hd : ∀ x y, s.env p = some x → s.env q = some y → ∀ a ∈ D.prov x, a ∉ D.prov y) :
    Apart D s p q := by
  rintro x y hx hy n k ⟨a, ha, hla⟩ ⟨c, hc, hlc⟩ b ⟨h1, h2, h3, h4⟩
  have hac : a ≠ c := by
    rintro rfl
    exact hd x y hx hy a ha hc
  obtain ⟨al, hal, hcov⟩ := (Option.any_eq_true _ _).1 hla
  obtain ⟨cl, hcl, hcov'⟩ := (Option.any_eq_true _ _).1 hlc
  obtain ⟨hlive, hlo, hhi⟩ := of_decide_eq_true hcov
  obtain ⟨hlive', hlo', hhi'⟩ := of_decide_eq_true hcov'
  have := h.world.sound.apart a c al cl hac hal hcl hlive hlive'
  change al.base ≤ D.addr x at hlo
  change D.addr x + n ≤ al.base + al.size at hhi
  change cl.base ≤ D.addr y at hlo'
  change D.addr y + k ≤ cl.base + cl.size at hhi'
  omega

theorem Inv.apart (h : Inv m D st f lab s) (hst : Solved m.toMirData st) {p q : ℕ}
    (hpq : provablyDisjoint m.toMirData st p q = true) : Apart D s p q := by
  refine h.apart_of_disjoint fun x y hx hy a ha hay => ?_
  have hxh := h.regs p x hx
  have hyh := h.regs q y hy
  have hext : ∀ v z, Held m D st lab v z → originOf m.toMirData st v = .external →
      ∀ a ∈ D.prov z, Public m st lab a := by
    intro v z hz ho
    refine hz.public fun hv => (hst.inside v hv).2.2.2 (originOf_eq_external ho)
  unfold provablyDisjoint at hpq
  split_ifs at hpq with h0 heq
  split at hpq
  · rename_i t t' ho ho'
    have h1 := hxh.slot t (originOf_eq_slot ho) a ha
    have h2 := hyh.slot t' (originOf_eq_slot ho') a hay
    rw [h1] at h2
    simp at hpq h2
    exact hpq h2
  · rename_i t ho ho'
    have h1 := hxh.slot t (originOf_eq_slot ho) a ha
    have h2 := hext q y hyh ho' a hay t h1
    simp [h2] at hpq
  · rename_i t ho ho'
    have h1 := hyh.slot t (originOf_eq_slot ho') a hay
    have h2 := hext p x hxh ho a ha t h1
    simp [h2] at hpq
  · simp at hpq

end

/-- **Soundness of the escape analysis.**  For every module the analysis ends before its step
cap, with a result that no larger cap changes; and in every state of every activation, on every
machine with provenance, two pointers that it tells apart address no common byte. -/
theorem provablyDisjoint_sound (m : Mir) :
    ∃ st, build m.toMirData = some st ∧
      stepBound m < stepCap m.toMirData (seedAndCollect m.toMirData) ∧
      (∀ cap, stepBound m ≤ cap → solveWithCap m cap = some st.origins) ∧
      ∀ (D : MemModel) (label : ℕ → Option ℕ) (f : ℕ) (w : D.World), m.IsFunc f → D.Sound w →
        ∀ s : State D.machine, Reachable m.toMirData label f w s →
          ∀ p q, provablyDisjoint m.toMirData st p q = true → Apart D s p q := by
  obtain ⟨st, hbuild, hcap, hst⟩ := build_solved m
  refine ⟨st, hbuild, stepBound_lt_stepCap m, hcap, ?_⟩
  intro D label f w hf hw s hs p q hpq
  obtain ⟨lab, h⟩ := inv_reachable hst hf hw hs
  exact h.apart hst hpq

/-- A function that makes a stack slot, reads its argument and returns. -/
def slotAndArgData : MirData where
  insts := [default, ⟨.alloca, default, 1, [], [], 1, 0⟩, ⟨.arg, default, 1, [], [], 0, 0⟩,
    ⟨.ret, default, 0, [], [], 0, 0⟩]
  instBlocks := [0, 1, 1, 1]
  blocks := [default, ⟨1, 3, [], 1⟩]
  funcs := [default, ⟨0, 1, 1, 1, .global, .default, false, false, false, false⟩]
  globals := [default]
  literals := []
  aliasingMode := .permissive
  charTypesAliasAll := true

def slotAndArg : Mir := ⟨slotAndArgData, by decide⟩

def slotAndArgWorld : SmallWorld where
  mem _ := (0, ∅)
  tag _ := none
  allocs a := if a = 0 then some ⟨100, 8, true⟩ else none
  exposed := {0}
  ext := (1, 200, fun _ => (100, {0}))

theorem slotAndArgWorld_sound : smallModel.Sound slotAndArgWorld where
  apart a b al bl hab ha hb _ _ := by
    simp only [slotAndArgWorld] at ha hb
    split_ifs at ha hb with h1 h2
    exact absurd (h1.trans h2.symm) hab
  known a ha := by
    rcases ha with ha | ⟨v, hv, -⟩ | ⟨x, hx⟩
    · obtain rfl : a = 0 := ha
      rfl
    · exact absurd hv List.not_mem_nil
    · exact absurd hx (Finset.notMem_empty a)

/-- The slot and the argument of the function are told apart, both can be accessed, and they
address no common byte. -/
theorem provablyDisjoint_sound_slotAndArg :
    ∃ s : State smallModel.machine, Reachable slotAndArg.toMirData some 1 slotAndArgWorld s ∧
      (∃ x y, s.env 1 = some x ∧ s.env 2 = some y ∧ smallModel.MayAccess s.world x 1 ∧
        smallModel.MayAccess s.world y 1) ∧ Apart smallModel s 1 2 := by
  obtain ⟨st, hbuild, -, -, hsound⟩ := provablyDisjoint_sound slotAndArg
  have hpq : provablyDisjoint slotAndArg.toMirData st 1 2 = true := by
    have : (build slotAndArg.toMirData).all fun st =>
        provablyDisjoint slotAndArg.toMirData st 1 2 := by decide
    rwa [hbuild] at this
  have hplace : smallModel.place slotAndArgWorld 1 = some (1, 200) := by
    refine if_pos ⟨by simp [MemWorld.Known, slotAndArgWorld], fun b bl hb _ => .inr ?_⟩
    simp only [slotAndArgWorld] at hb
    split_ifs at hb with h0
    obtain rfl := Option.some.inj hb
    decide
  set s₀ : State smallModel.machine := State.start slotAndArg.toMirData 1 slotAndArgWorld
  set w₁ : smallModel.World := { slotAndArgWorld with
    allocs := Function.update slotAndArgWorld.allocs 1 (some ⟨200, 1, true⟩) } with hw₁
  have hexec : smallModel.exec (slotAndArg.operation 1) [] slotAndArgWorld =
      .ok (some (200, {1})) w₁ := by
    change smallModel.allocate slotAndArgWorld 1 = _
    unfold MemData.allocate
    rw [hplace]
    rfl
  have hstep₁ : Steps slotAndArg.toMirData some s₀ (s₀.assign 1 (some (200, {1})) w₁) := by
    change (Exec.andThen (smallModel.exec (slotAndArg.operation 1) [] slotAndArgWorld) fun v w =>
      .running (s₀.assign 1 v w)) = _
    rw [hexec]
    rfl
  set s₁ := s₀.assign 1 (some ((200, {1}) : SmallVal)) w₁ with hs₁
  set y : SmallVal := smallModel.outside (slotAndArg.operation 2) w₁ with hy
  have hstep₂ : Steps slotAndArg.toMirData some s₁ (s₁.assign 2 (some y) w₁) := rfl
  have hreach : Reachable slotAndArg.toMirData some 1 slotAndArgWorld (s₁.assign 2 (some y) w₁) :=
    (Relation.ReflTransGen.single hstep₁).tail hstep₂
  refine ⟨_, hreach, ⟨(200, {1}), y, ?_, ?_, ?_, ?_⟩,
    hsound smallModel some 1 slotAndArgWorld (by decide) slotAndArgWorld_sound _ hreach 1 2 hpq⟩
  · rfl
  · rfl
  · exact ⟨1, Finset.mem_singleton_self 1, by decide⟩
  · refine ⟨0, ?_, by decide⟩
    classical
    exact Finset.mem_filter.2 ⟨Finset.mem_singleton_self 0, Set.mem_singleton 0⟩

end DssPrime.MirPointerEscape
