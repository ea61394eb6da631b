import DssPrime.Link.MergeNumbers
import DssPrime.Link.MirMergeNumbers

/-!
# Static initialisers in both merges

A program is merged before assembly, where a function carries its schedule along when it is cloned,
or after it, where the schedules of the units are lists of entries that are renumbered. The merge
before assembly always schedules each surviving function once.
-/

namespace DssPrime.Linker

def symbolRow (symbol : ℕ) (name : String) (binding : SymbolBinding)
    (visibility : SymbolVisibility) : List ModuleSymbol :=
  if name = "" then [] else [⟨symbol, name, binding, visibility, .any⟩]

def moduleSymbols (u : CompiledUnit) : List ModuleSymbol :=
  (u.functions.flatMap fun f => symbolRow f.symbol f.name f.binding f.visibility) ++
    u.globals.flatMap fun g => symbolRow g.symbol g.name g.binding g.visibility

/-- The module that a unit is assembled to. -/
structure AssembledFrom (u : CompiledUnit) (m : AssembledModule) : Prop where
  cuId : m.cuId = u.cuId
  functions : m.functions.map (·.symbol) = u.functions.map (·.symbol)
  globals : ∀ g ∈ u.globals, g.symbol ∈ m.dataItems.map (·.symbol)
  symbols : m.symbols = moduleSymbols u
  schedule : m.staticInitSchedule =
    lowerSchedule (u.functions.map fun f => (f.symbol, f.staticInit))
  declared : m.declared.Nodup

def unitDefs (u : CompiledUnit) : List (ℕ × String × SymbolBinding) :=
  (u.functions.map fun f => (f.symbol, f.name, f.binding)) ++
    u.globals.map fun g => (g.symbol, g.name, g.binding)

theorem symbolRow_map (symbol : ℕ) (name : String) (binding : SymbolBinding)
    (visibility : SymbolVisibility) :
    (symbolRow symbol name binding visibility).map (fun ms => (ms.symbol, ms.name, ms.binding)) =
      [(symbol, name, binding)].filter fun d => d.2.1 ≠ "" := by
  unfold symbolRow
  by_cases h : name = ""
  · simp [h]
  · simp [h]

theorem moduleSymbols_map (u : CompiledUnit) :
    (moduleSymbols u).map (fun ms => (ms.symbol, ms.name, ms.binding)) =
      (unitDefs u).filter fun d => d.2.1 ≠ "" := by
  have hrows : ∀ {α : Type} (l : List α) (rows : α → List ModuleSymbol)
      (d : α → ℕ × String × SymbolBinding),
      (∀ a, (rows a).map (fun ms => (ms.symbol, ms.name, ms.binding)) =
        [d a].filter fun d => d.2.1 ≠ "") →
      (l.flatMap rows).map (fun ms => (ms.symbol, ms.name, ms.binding)) =
        (l.map d).filter fun d => d.2.1 ≠ "" := by
    intro α l rows d h
    induction l with
    | nil => rfl
    | cons a l ih =>
      rw [List.flatMap_cons, List.map_append, h, ih, List.map_cons, ← List.filter_append]
      rfl
  unfold moduleSymbols unitDefs
  rw [List.map_append, List.filter_append]
  congr 1
  · exact hrows _ _ _ fun f => symbolRow_map _ _ _ _
  · exact hrows _ _ _ fun g => symbolRow_map _ _ _ _

theorem unitDefs_symbols (u : CompiledUnit) :
    (unitDefs u).map Prod.fst = u.functions.map (·.symbol) ++ u.globals.map (·.symbol) := by
  simp [unitDefs, Function.comp_def]

section

variable {units : List CompiledUnit} {modules : List AssembledModule}

theorem UnitsOk.unitDefs_nodup (h : UnitsOk units) {u : CompiledUnit} (hu : u ∈ units) :
    ((unitDefs u).map Prod.fst).Nodup := by
  rw [unitDefs_symbols]
  have := h.declared u hu
  exact (List.nodup_append.mp (List.nodup_append.mp this).1).1

theorem UnitsOk.unitDefs_inj (h : UnitsOk units) {u : CompiledUnit} (hu : u ∈ units)
    {d d' : ℕ × String × SymbolBinding} (hd : d ∈ unitDefs u) (hd' : d' ∈ unitDefs u)
    (heq : d.1 = d'.1) : d = d' :=
  List.inj_on_of_nodup_map (h.unitDefs_nodup hu) hd hd' heq

theorem AssembledFrom.mem_symbols {u : CompiledUnit} {m : AssembledModule} (h : AssembledFrom u m)
    {d : ℕ × String × SymbolBinding} :
    (∃ ms ∈ m.symbols, (ms.symbol, ms.name, ms.binding) = d) ↔ d ∈ unitDefs u ∧ d.2.1 ≠ "" := by
  have := moduleSymbols_map u
  rw [← List.mem_map (f := fun ms : ModuleSymbol => (ms.symbol, ms.name, ms.binding)), h.symbols,
    this, List.mem_filter]
  simp

variable (hm : List.Forall₂ AssembledFrom units modules)
include hm

theorem assembled_cuIds : modules.map AssembledModule.cuId = units.map CompiledUnit.cuId := by
  induction hm with
  | nil => rfl
  | cons hum _ ih => rw [List.map_cons, List.map_cons, hum.cuId, ih]

theorem assembled_at {i : ℕ} {u : CompiledUnit} (hu : units[i]? = some u) :
    i < modules.length ∧ AssembledFrom u (moduleAt modules i) := by
  obtain ⟨hi, hget⟩ := List.getElem?_eq_some_iff.mp hu
  have hlen := hm.length_eq
  have hi' : i < modules.length := hlen ▸ hi
  refine ⟨hi', ?_⟩
  rw [moduleAt, List.getD_eq_getElem _ _ hi', ← hget]
  exact (List.forall₂_iff_get.mp hm).2 i hi hi'

theorem assembled_unit {i : ℕ} (hi : i < modules.length) :
    ∃ u, units[i]? = some u ∧ AssembledFrom u (moduleAt modules i) := by
  have hlt : i < units.length := hm.length_eq.symm ▸ hi
  have hu : units[i]? = some units[i] := List.getElem?_eq_getElem hlt
  exact ⟨units[i], hu, (assembled_at hm hu).2⟩

theorem UnitsOk.linkable (hok : UnitsOk units) : Linkable modules := by
  constructor
  · rw [assembled_cuIds hm]
    exact hok.order.imp fun h => h.ne
  · intro m hmem
    obtain ⟨u, -, hum⟩ := forall₂_mem_right hm hmem
    exact hum.declared
  · intro m hmem ms hms
    obtain ⟨u, -, hum⟩ := forall₂_mem_right hm hmem
    have hdef := (hum.mem_symbols.mp ⟨ms, hms, rfl⟩).1
    rcases List.mem_append.mp hdef with hf | hg
    · obtain ⟨f, hf, heq⟩ := List.mem_map.mp hf
      have hsym : f.symbol = ms.symbol := congrArg Prod.fst heq
      refine .inl ?_
      rw [hum.functions, ← hsym]
      exact List.mem_map_of_mem hf
    · obtain ⟨g, hg, heq⟩ := List.mem_map.mp hg
      have hsym : g.symbol = ms.symbol := congrArg Prod.fst heq
      refine .inr ?_
      rw [← hsym]
      exact hum.globals g hg

theorem crossCuDefs_rows_pairwise (hok : UnitsOk units) :
    (modules.flatMap fun m => m.symbols.map fun s => (m, s)).reverse.Pairwise fun a b =>
      ¬ (a.1.cuId = b.1.cuId ∧ a.2.symbol = b.2.symbol ∧ a.2.name = b.2.name) := by
  rw [List.pairwise_reverse, List.pairwise_flatMap]
  constructor
  · intro m hmem
    obtain ⟨u, hu, hum⟩ := forall₂_mem_right hm hmem
    -- within a module the symbols of the rows differ
    have hsymbols : (m.symbols.map (·.symbol)).Nodup := by
      have hmap : m.symbols.map (·.symbol) =
        ((unitDefs u).filter fun d => d.2.1 ≠ "").map Prod.fst := by
        rw [hum.symbols, ← moduleSymbols_map, List.map_map]
        rfl
      rw [hmap]
      exact (hok.unitDefs_nodup hu).sublist (List.filter_sublist.map _)
    rw [List.pairwise_map]
    refine (List.pairwise_map.mp hsymbols).imp ?_
    rintro a b hab ⟨-, hsym, -⟩
    exact hab hsym.symm
  · have hunits := (hok.linkable hm).units
    refine (List.pairwise_map.mp hunits).imp ?_
    intro m m' hmm a ha b hb hsame
    obtain ⟨s, -, rfl⟩ := List.mem_map.mp ha
    obtain ⟨s', -, rfl⟩ := List.mem_map.mp hb
    exact hmm hsame.1.symm

theorem mem_crossCuDefs (hok : UnitsOk units) {d : CrossCuDef} :
    d ∈ crossCuDefs modules ↔ ∃ m ∈ modules, ∃ ms ∈ m.symbols,
      (⟨ms.name, ms.binding, ⟨m.cuId, ms.symbol⟩, ms.duplicateMatch, (bodyOfSymbol m ms.symbol).1,
        (bodyOfSymbol m ms.symbol).2⟩ : CrossCuDef) = d := by
  unfold crossCuDefs
  dsimp only
  rw [List.pwFilter_eq_self.mpr (crossCuDefs_rows_pairwise hm hok), List.reverse_reverse]
  constructor
  · intro hd
    obtain ⟨p, hp, rfl⟩ := List.mem_map.mp hd
    obtain ⟨m, hmem, hp⟩ := List.mem_flatMap.mp hp
    obtain ⟨ms, hms, rfl⟩ := List.mem_map.mp hp
    exact ⟨m, hmem, ms, hms, rfl⟩
  · rintro ⟨m, hmem, ms, hms, rfl⟩
    refine List.mem_map.mpr ⟨(m, ms), ?_, rfl⟩
    exact List.mem_flatMap.mpr ⟨m, hmem, List.mem_map_of_mem hms⟩

theorem mem_keysOf_crossCuDefs (hok : UnitsOk units) {binding : SymbolBinding} {name : String}
    {k : LinkedSymbolKey} :
    k ∈ keysOf (crossCuDefs modules) binding name ↔
      name ≠ "" ∧ ∃ i u, units[i]? = some u ∧ k = keyAt modules i k.symbol ∧
        (k.symbol, name, binding) ∈ unitDefs u := by
  constructor
  · intro hk
    obtain ⟨d, hd, rfl⟩ := List.mem_map.mp hk
    obtain ⟨hmem, hcond⟩ := List.mem_filter.mp hd
    obtain ⟨rfl, hname, rfl⟩ := of_decide_eq_true hcond
    obtain ⟨m, hm', ms, hms, rfl⟩ := (mem_crossCuDefs hm hok).mp hmem
    obtain ⟨i, hi, rfl⟩ := List.getElem_of_mem hm'
    obtain ⟨u, hu, hum⟩ := assembled_unit hm hi
    have hat : moduleAt modules i = modules[i] := by rw [moduleAt, List.getD_eq_getElem _ _ hi]
    rw [hat] at hum
    refine ⟨hname, i, u, hu, ?_, (hum.mem_symbols.mp ⟨ms, hms, rfl⟩).1⟩
    simp only [keyAt, hat]
  · rintro ⟨hname, i, u, hu, hkey, hdef⟩
    obtain ⟨hi, hum⟩ := assembled_at hm hu
    obtain ⟨ms, hms, heq⟩ := hum.mem_symbols.mpr ⟨hdef, hname⟩
    simp only [Prod.mk.injEq] at heq
    obtain ⟨hsym, hn, hb⟩ := heq
    have hd := (mem_crossCuDefs hm hok).mpr ⟨_, Linkable.moduleAt_mem hi, ms, hms, rfl⟩
    refine List.mem_map.mpr ⟨_, List.mem_filter.mpr ⟨hd, ?_⟩, ?_⟩
    · exact decide_eq_true ⟨hn, hn ▸ hname, hb⟩
    · rw [hkey, hsym]
      rfl

omit hm in
theorem mem_keysOf_mirDefs {binding : SymbolBinding} {name : String} {k : LinkedSymbolKey} :
    k ∈ keysOf (mirDefs units) binding name ↔
      name ≠ "" ∧ binding ≠ .«local» ∧ ∃ i u, units[i]? = some u ∧ k = ⟨i + 1, k.symbol⟩ ∧
        (k.symbol, name, binding) ∈ unitDefs u := by
  constructor
  · intro hk
    obtain ⟨d, hd, rfl⟩ := List.mem_map.mp hk
    obtain ⟨hmem, hcond⟩ := List.mem_filter.mp hd
    obtain ⟨rfl, hname, rfl⟩ := of_decide_eq_true hcond
    obtain ⟨⟨u, i⟩, hu, hrow⟩ := List.mem_flatMap.mp hmem
    obtain ⟨e, he, hrow⟩ := List.mem_filterMap.mp hrow
    split at hrow
    · cases hrow
    · rename_i hlocal
      cases hrow
      exact ⟨hname, fun h => hlocal (.inr h), i, u, List.mem_zipIdx_iff_getElem?.mp hu, rfl, he⟩
  · rintro ⟨hname, hbind, i, u, hu, hkey, hdef⟩
    refine List.mem_map.mpr ⟨⟨name, binding, k, .any, 0, []⟩, List.mem_filter.mpr ⟨?_, ?_⟩, rfl⟩
    · refine List.mem_flatMap.mpr ⟨(u, i), List.mem_zipIdx_iff_getElem?.mpr hu, ?_⟩
      refine List.mem_filterMap.mpr ⟨_, hdef, ?_⟩
      rw [if_neg (not_or.mpr ⟨hname, hbind⟩), ← hkey]
    · exact decide_eq_true ⟨rfl, hname, rfl⟩

theorem lessKey_keyAt (hok : UnitsOk units) {i j s t : ℕ} (hi : i < modules.length)
    (hj : j < modules.length) :
    lessKey (keyAt modules i s) (keyAt modules j t) = lessKey ⟨i + 1, s⟩ ⟨j + 1, t⟩ := by
  have horder : modules.Pairwise fun m m' => m.cuId < m'.cuId := by
    have := hok.order
    rw [← assembled_cuIds hm] at this
    exact List.pairwise_map.mp this
  have hlt : ∀ {i j : ℕ}, i < modules.length → j < modules.length → i < j →
      (moduleAt modules i).cuId < (moduleAt modules j).cuId := by
    intro i j hi hj hij
    simp only [moduleAt, List.getD_eq_getElem _ _ hi, List.getD_eq_getElem _ _ hj]
    exact List.pairwise_iff_getElem.mp horder i j hi hj hij
  rw [Bool.eq_iff_iff, lessKey_eq_true, lessKey_eq_true]
  simp only [keyAt]
  rcases lt_trichotomy i j with hij | rfl | hij
  · have := hlt hi hj hij
    omega
  · omega
  · have := hlt hj hi hij
    omega

theorem isLowest_keyAt (hok : UnitsOk units) {binding : SymbolBinding} (hb : binding ≠ .«local»)
    {name : String} {i : ℕ} (hi : i < modules.length) {s : ℕ} :
    IsLowest (keysOf (crossCuDefs modules) binding name) (keyAt modules i s) ↔
      IsLowest (keysOf (mirDefs units) binding name) ⟨i + 1, s⟩ := by
  have hunits := (hok.linkable hm).units
  have hmem : ∀ {j t : ℕ}, j < modules.length →
      (keyAt modules j t ∈ keysOf (crossCuDefs modules) binding name ↔
        (⟨j + 1, t⟩ : LinkedSymbolKey) ∈ keysOf (mirDefs units) binding name) := by
    intro j t hj
    rw [mem_keysOf_crossCuDefs hm hok, mem_keysOf_mirDefs]
    constructor
    · rintro ⟨hname, j', u, hu, hkey, hdef⟩
      obtain ⟨rfl, -⟩ := keyAt_inj hunits hj (assembled_at hm hu).1 hkey
      exact ⟨hname, hb, j, u, hu, rfl, hdef⟩
    · rintro ⟨hname, -, j', u, hu, hkey, hdef⟩
      have hjj : j + 1 = j' + 1 := (LinkedSymbolKey.mk.inj hkey).1
      obtain rfl : j = j' := by omega
      exact ⟨hname, j, u, hu, rfl, hdef⟩
  constructor
  · rintro ⟨hin, hlow⟩
    refine ⟨(hmem hi).mp hin, fun k' hk' => ?_⟩
    obtain ⟨-, -, j, u, hu, hkey, -⟩ := mem_keysOf_mirDefs.mp hk'
    have hj := (assembled_at hm hu).1
    rw [hkey] at hk' ⊢
    rw [← lessKey_keyAt hm hok hj hi]
    exact hlow _ ((hmem hj).mpr hk')
  · rintro ⟨hin, hlow⟩
    refine ⟨(hmem hi).mpr hin, fun k' hk' => ?_⟩
    obtain ⟨-, j, u, hu, hkey, -⟩ := (mem_keysOf_crossCuDefs hm hok).mp hk'
    have hj := (assembled_at hm hu).1
    rw [hkey] at hk' ⊢
    rw [lessKey_keyAt hm hok hj hi]
    exact hlow _ ((hmem hj).mp hk')

/-- **A definition wins a name in one merge just when it wins it in the other.** -/
theorem wins_keyAt (hok : UnitsOk units) {name : String} {i : ℕ} (hi : i < modules.length)
    {s : ℕ} :
    Wins (crossCuDefs modules) name (keyAt modules i s) ↔ Wins (mirDefs units) name ⟨i + 1, s⟩ := by
  have hnil : keysOf (crossCuDefs modules) .global name = [] ↔
      keysOf (mirDefs units) .global name = [] := by
    rw [List.eq_nil_iff_forall_not_mem, List.eq_nil_iff_forall_not_mem]
    constructor
    · intro h k hk
      obtain ⟨hname, -, j, u, hu, -, hdef⟩ := mem_keysOf_mirDefs.mp hk
      exact h (keyAt modules j k.symbol)
        ((mem_keysOf_crossCuDefs hm hok).mpr ⟨hname, j, u, hu, rfl, hdef⟩)
    · intro h k hk
      obtain ⟨hname, j, u, hu, -, hdef⟩ := (mem_keysOf_crossCuDefs hm hok).mp hk
      exact h ⟨j + 1, k.symbol⟩
        (mem_keysOf_mirDefs.mpr ⟨hname, by decide, j, u, hu, rfl, hdef⟩)
  unfold Wins
  rw [isLowest_keyAt hm hok (by decide) hi, isLowest_keyAt hm hok (by decide) hi, hnil]

end

/-- What the resolution of the modules hands to the merge.  The winners come out of a hash table, so
they stand in some order. -/
structure ResolvedFrom (modules : List AssembledModule) (image : LinkedImage) : Prop where
  defs : image.resolvedGlobalDefs.Perm (resolveCrossCuSymbols modules).1.resolvedGlobalDefs
  refs : image.resolvedCrossCuRefs = (resolveCrossCuSymbols modules).1.resolvedCrossCuRefs

section

variable {units : List CompiledUnit} {modules : List AssembledModule} {image : LinkedImage}

theorem ResolvedFrom.mem_defs (h : ResolvedFrom modules image) {name : String}
    {key : LinkedSymbolKey} :
    (name, key) ∈ image.resolvedGlobalDefs ↔ Wins (crossCuDefs modules) name key := by
  rw [h.defs.mem_iff, ← winners_eq_some_iff]
  show (name, key) ∈ List.filterMap _ _ ↔ _
  constructor
  · intro hmem
    obtain ⟨n, -, hn⟩ := List.mem_filterMap.mp hmem
    obtain ⟨k, hk, heq⟩ := Option.map_eq_some_iff.mp hn
    obtain ⟨rfl, rfl⟩ := Prod.mk.inj heq
    exact hk
  · intro hwin
    obtain ⟨d, hd, rfl, -⟩ := wins_mem ((winners_eq_some_iff _ _ _).mp hwin)
    refine List.mem_filterMap.mpr ⟨d.name, List.mem_dedup.mpr (List.mem_map_of_mem hd), ?_⟩
    rw [hwin]
    rfl

theorem AssembledFrom.externImports_nodup {u : CompiledUnit} {m : AssembledModule}
    (h : AssembledFrom u m) : m.externImports.Pairwise fun e e' => e.symbol ≠ e'.symbol := by
  have himports := (List.nodup_append.mp h.declared).2.1
  refine (List.pairwise_flatMap.mp himports).2.imp ?_
  intro e e' hee
  exact hee e.symbol (by simp) e'.symbol (by simp)

theorem ResolvedFrom.resolves (hm : List.Forall₂ AssembledFrom units modules) (hok : UnitsOk units)
    (h : ResolvedFrom modules image) : Resolves modules image := by
  have href : ∀ ref ∈ image.resolvedCrossCuRefs, ∃ m ∈ modules, ∃ ext ∈ m.externImports,
      ref.1 = ⟨m.cuId, ext.symbol⟩ ∧ Wins (crossCuDefs modules) ext.mangledName ref.2 := by
    intro ref hmem
    rw [h.refs] at hmem
    obtain ⟨m, hmod, hmem⟩ := List.mem_flatMap.mp hmem
    obtain ⟨ext, hext, hmem⟩ := List.mem_filterMap.mp hmem
    split at hmem
    · cases hmem
    · obtain ⟨key, hkey, rfl⟩ := Option.map_eq_some_iff.mp hmem
      exact ⟨m, hmod, ext, hext, rfl, (winners_eq_some_iff _ _ _).mp hkey⟩
  have hplace : ∀ m ∈ modules, ∃ i < modules.length, moduleAt modules i = m := by
    intro m hmod
    obtain ⟨i, hi, rfl⟩ := List.getElem_of_mem hmod
    exact ⟨i, hi, by rw [moduleAt, List.getD_eq_getElem _ _ hi]⟩
  constructor
  · rintro ⟨name, key⟩ hd
    obtain ⟨d, hd', -, -, rfl⟩ := wins_mem (h.mem_defs.mp hd)
    obtain ⟨m, hmod, ms, hms, rfl⟩ := (mem_crossCuDefs hm hok).mp hd'
    obtain ⟨i, hi, rfl⟩ := hplace m hmod
    exact ⟨i, hi, ms, hms, rfl⟩
  · rw [h.refs]
    refine List.pairwise_map.mpr (List.pairwise_flatMap.mpr ⟨?_, ?_⟩)
    · intro m hmod
      obtain ⟨u, -, hum⟩ := forall₂_mem_right hm hmod
      refine List.pairwise_filterMap.mpr (hum.externImports_nodup.imp ?_)
      intro e e' hee r hr r' hr' heq
      -- both references have the symbol of their import
      have hsym : ∀ {e : ExternImport} {r : LinkedSymbolKey × LinkedSymbolKey},
          (if e.isPreemptionReference then none
            else ((resolveCrossCuDefs (crossCuDefs modules)).winners e.mangledName).map fun key =>
              ((⟨m.cuId, e.symbol⟩ : LinkedSymbolKey), key)) = some r → r.1.symbol = e.symbol := by
        intro e r hr
        split at hr
        · cases hr
        · obtain ⟨key, -, rfl⟩ := Option.map_eq_some_iff.mp hr
          rfl
      exact hee ((hsym hr).symm.trans ((congrArg LinkedSymbolKey.symbol heq).trans (hsym hr')))
    · refine (List.pairwise_map.mp (hok.linkable hm).units).imp ?_
      intro m m' hmm r hr r' hr' heq
      have hcu : ∀ {m : AssembledModule} {r : LinkedSymbolKey × LinkedSymbolKey},
          r ∈ (m.externImports.filterMap fun e => if e.isPreemptionReference then none
            else ((resolveCrossCuDefs (crossCuDefs modules)).winners e.mangledName).map fun key =>
              ((⟨m.cuId, e.symbol⟩ : LinkedSymbolKey), key)) → r.1.cuId = m.cuId := by
        intro m r hr
        obtain ⟨e, -, hr⟩ := List.mem_filterMap.mp hr
        split at hr
        · cases hr
        · obtain ⟨key, -, rfl⟩ := Option.map_eq_some_iff.mp hr
          rfl
      exact hmm ((hcu hr).symm.trans ((congrArg LinkedSymbolKey.cuId heq).trans (hcu hr')))
  · intro ref hmem
    obtain ⟨m, hmod, ext, hext, hkey, -⟩ := href ref hmem
    obtain ⟨i, hi, rfl⟩ := hplace m hmod
    exact ⟨i, hi, ext, hext, hkey⟩
  · intro ref hmem
    obtain ⟨m, -, ext, -, -, hwin⟩ := href ref hmem
    exact List.mem_map.mpr ⟨_, h.mem_defs.mpr hwin, rfl⟩

theorem lookup_assignWinners (h : ResolvedFrom modules image) {name : String}
    {key : LinkedSymbolKey} (hwin : Wins (crossCuDefs modules) name key) :
    ((assignWinners image.resolvedGlobalDefs).2.lookup name).isSome = true := by
  have hgiven := assignWinners_given image.resolvedGlobalDefs
  obtain ⟨p, hp, hname, -⟩ := forall₂_mem_left hgiven.names (h.mem_defs.mpr hwin)
  rw [List.lookup_isSome_iff]
  exact ⟨p, hp, by simp [hname]⟩

theorem isShadowedAtom_iff (hm : List.Forall₂ AssembledFrom units modules) (hok : UnitsOk units)
    (h : ResolvedFrom modules image) {i : ℕ} {u : CompiledUnit} (hu : units[i]? = some u)
    {f : UnitFunction} (hf : f ∈ u.functions) :
    isShadowedAtom modules (assignWinners image.resolvedGlobalDefs).2
        (image.resolvedGlobalDefs.map Prod.snd) i f.symbol = true ↔ ¬ Survives units i f := by
  obtain ⟨hi, hum⟩ := assembled_at hm hu
  have humem : u ∈ units := List.mem_of_getElem? hu
  have hfdef : (f.symbol, f.name, f.binding) ∈ unitDefs u :=
    List.mem_append_left _ (List.mem_map.mpr ⟨f, hf, rfl⟩)
  -- the only row of the symbol is that of the function
  have hrow : ∀ ms ∈ (moduleAt modules i).symbols, ms.symbol = f.symbol →
      ms.name = f.name ∧ ms.binding = f.binding := by
    intro ms hms hsym
    have hdef := (hum.mem_symbols.mp ⟨ms, hms, rfl⟩).1
    have heq := hok.unitDefs_inj humem hdef hfdef hsym
    simp only [Prod.mk.injEq] at heq
    exact heq.2
  have hwon : keyAt modules i f.symbol ∈ image.resolvedGlobalDefs.map Prod.snd ↔
      Wins (mirDefs units) f.name ⟨i + 1, f.symbol⟩ := by
    constructor
    · intro hmem
      obtain ⟨⟨name, key⟩, hd, hkey⟩ := List.mem_map.mp hmem
      have hwin := h.mem_defs.mp hd
      simp only at hkey
      rw [hkey, wins_keyAt hm hok hi] at hwin
      -- the name it won is its own
      have hname : name = f.name := by
        have hkeys : ∃ b,
          (⟨i + 1, f.symbol⟩ : LinkedSymbolKey) ∈ keysOf (mirDefs units) b name := by
          rcases hwin with hwin | hwin
          · exact ⟨_, hwin.1⟩
          · exact ⟨_, hwin.2.1⟩
        obtain ⟨b, hb⟩ := hkeys
        obtain ⟨-, -, j, v, hv, hkey, hdef⟩ := mem_keysOf_mirDefs.mp hb
        have hij : i + 1 = j + 1 := (LinkedSymbolKey.mk.inj hkey).1
        obtain rfl : i = j := by omega
        obtain rfl : u = v := Option.some_inj.mp (hu.symm.trans hv)
        have heq := hok.unitDefs_inj humem hdef hfdef rfl
        simp only [Prod.mk.injEq] at heq
        exact heq.2.1
      exact hname ▸ hwin
    · intro hwin
      have := h.mem_defs.mpr ((wins_keyAt hm hok hi).mpr hwin)
      exact List.mem_map.mpr ⟨_, this, rfl⟩
  unfold isShadowedAtom Survives
  rw [Bool.and_eq_true, decide_eq_true_eq, hwon, List.any_eq_true, not_or]
  constructor
  · rintro ⟨hlost, ms, hms, hcond⟩
    simp only [Bool.and_eq_true, decide_eq_true_eq] at hcond
    obtain ⟨⟨hsym, hbind⟩, -⟩ := hcond
    obtain ⟨hn, hb⟩ := hrow ms hms hsym
    have hname := (hum.mem_symbols.mp ⟨ms, hms, rfl⟩).2
    refine ⟨?_, hlost⟩
    rintro (hlocal | hempty)
    · exact hbind (hb.trans hlocal)
    · exact hname (hn.trans hempty)
  · rintro ⟨hprivate, hlost⟩
    obtain ⟨hbind, hname⟩ := not_or.mp hprivate
    obtain ⟨ms, hms, heq⟩ := hum.mem_symbols.mpr ⟨hfdef, hname⟩
    simp only [Prod.mk.injEq] at heq
    obtain ⟨hsym, hn, hb⟩ := heq
    -- its name is won by some definition
    have hd := mem_mirDefs hu hf hprivate
    obtain ⟨key, hkey⟩ := Option.isSome_iff_exists.mp (winners_isSome hd hname hbind)
    have hwin := (winners_eq_some_iff _ _ _).mp hkey
    obtain ⟨d, hd', -, -, rfl⟩ := wins_mem hwin
    obtain ⟨-, -, j, v, hv, hj, -⟩ := mem_mirDefs_iff hd'
    have hdkey : d.key = ⟨j + 1, d.key.symbol⟩ := by rw [← hj]
    rw [hdkey] at hwin
    have hwin' := (wins_keyAt hm hok (assembled_at hm hv).1).mpr hwin
    refine ⟨hlost, ms, hms, ?_⟩
    simp only [Bool.and_eq_true, decide_eq_true_eq]
    refine ⟨⟨hsym, hb ▸ hbind⟩, ?_⟩
    rw [hn]
    exact lookup_assignWinners h hwin'

end

instance (keys : List LinkedSymbolKey) (k : LinkedSymbolKey) : Decidable (IsLowest keys k) :=
  inferInstanceAs (Decidable (_ ∧ ∀ k' ∈ keys, lessKey k' k = false))

instance (defs : List CrossCuDef) (name : String) (k : LinkedSymbolKey) :
    Decidable (Wins defs name k) :=
  inferInstanceAs (Decidable (_ ∨ _))

instance (f : UnitFunction) : Decidable (PrivateFunction f) := inferInstanceAs (Decidable (_ ∨ _))

instance (units : List CompiledUnit) (i : ℕ) (f : UnitFunction) :
    Decidable (Survives units i f) :=
  inferInstanceAs (Decidable (_ ∨ _))

instance (modules : List AssembledModule) (image : LinkedImage) (absPtrKind : Option ℕ) :
    Decidable (SlotsExpressible modules image absPtrKind) :=
  inferInstanceAs (Decidable (¬ (_ ∧ absPtrKind = none)))

def allFunctions (units : List CompiledUnit) : List (ℕ × UnitFunction) :=
  units.zipIdx.flatMap fun p => p.1.functions.map fun f => (p.2, f)

def scheduledFunctions (units : List CompiledUnit) : List (ℕ × UnitFunction) :=
  (allFunctions units).filter fun p => p.2.staticInit.any

/-- A schedule of a merged program is exact: the functions that survive have numbers of their own,
and its entries are those of the functions that survive and that their units schedule, one each. -/
structure ScheduleExact (units : List CompiledUnit) (idOf : ℕ → ℕ → Option ℕ)
    (schedule : List LirStaticInitEntry) : Prop where
  distinct : ∀ p ∈ allFunctions units, ∀ q ∈ allFunctions units, Survives units p.1 p.2 →
    Survives units q.1 q.2 → ∀ id, idOf p.1 p.2.symbol = some id → idOf q.1 q.2.symbol = some id →
      p = q
  entries : (schedule.map fun e => (some e.symbol, e.schedule)).Perm
    (((scheduledFunctions units).filter fun p => Survives units p.1 p.2).map fun p =>
      (idOf p.1 p.2.symbol, p.2.staticInit))

theorem mem_allFunctions {units : List CompiledUnit} {p : ℕ × UnitFunction} :
    p ∈ allFunctions units ↔ ∃ u, units[p.1]? = some u ∧ p.2 ∈ u.functions := by
  unfold allFunctions
  constructor
  · intro hp
    obtain ⟨⟨u, i⟩, hu, hp⟩ := List.mem_flatMap.mp hp
    obtain ⟨f, hf, rfl⟩ := List.mem_map.mp hp
    exact ⟨u, List.mem_zipIdx_iff_getElem?.mp hu, hf⟩
  · rintro ⟨u, hu, hf⟩
    refine List.mem_flatMap.mpr ⟨(u, p.1), List.mem_zipIdx_iff_getElem?.mpr hu, ?_⟩
    exact List.mem_map.mpr ⟨p.2, hf, rfl⟩

theorem clonedFunctions_eq (units : List CompiledUnit) :
    clonedFunctions units = (allFunctions units).filter fun p => Survives units p.1 p.2 := by
  unfold clonedFunctions allFunctions
  rw [List.filter_flatMap]
  refine List.flatMap_congr fun p hp => ?_
  rw [List.filter_map]
  congr 1
  refine List.filter_congr fun f hf => ?_
  have hiff := isShadowedLoser_iff (List.mem_zipIdx_iff_getElem?.mp hp) hf
  rw [Bool.eq_iff_iff, Bool.not_eq_true', ← Bool.not_eq_true, hiff, not_not]
  simp

theorem lowerSchedule_mapM {plan : MergePlan} (l : List (ℕ × UnitFunction))
    (h : ∀ p ∈ l, ∃ id, mergedSymbolOf plan p.1 p.2.symbol = some id ∧ id ≠ 0) :
    ∃ merged, l.mapM (cloneFunction plan) = some merged ∧
      (lowerSchedule merged).map (fun e => (some e.symbol, e.schedule)) =
        (l.filter fun p => p.2.staticInit.any).map fun p =>
          (mergedSymbolOf plan p.1 p.2.symbol, p.2.staticInit) := by
  induction l with
  | nil => exact ⟨[], rfl, rfl⟩
  | cons p l ih =>
    obtain ⟨merged, hmerged, heq⟩ := ih fun q hq => h q (List.mem_cons_of_mem _ hq)
    obtain ⟨id, hid, h0⟩ := h p List.mem_cons_self
    refine ⟨(id, p.2.staticInit) :: merged, ?_, ?_⟩
    · simp [cloneFunction, hid, hmerged]
    · unfold lowerSchedule at heq ⊢
      rw [List.flatMap_cons, List.map_append, heq, staticInitAdd]
      by_cases hany : p.2.staticInit.any = true
      · simp [h0, hany, hid]
      · simp [hany]

/-- **The merge before assembly schedules each surviving function once.** -/
theorem scheduleExact_cloned {units : List CompiledUnit} (hok : UnitsOk units) :
    ∃ merged, mergeCuFunctions units = some merged ∧
      ScheduleExact units (mergedSymbolOf (mergePlan units)) (lowerSchedule merged) := by
  obtain ⟨hinv, -, hgiven⟩ := mergePlan_spec hok
  have hnumber : ∀ p ∈ clonedFunctions units,
      ∃ id, mergedSymbolOf (mergePlan units) p.1 p.2.symbol = some id ∧ id ≠ 0 := by
    intro p hp
    rw [clonedFunctions_eq] at hp
    obtain ⟨u, hu, hf⟩ := mem_allFunctions.mp (List.mem_filter.mp hp).1
    obtain ⟨id, hid⟩ := Option.isSome_iff_exists.mp (hgiven _ _ hu _ hf)
    exact ⟨id, hid, hinv.valid _ _ hid⟩
  obtain ⟨merged, hmerged, hentries⟩ := lowerSchedule_mapM _ hnumber
  refine ⟨merged, hmerged, ?_, ?_⟩
  · intro p hp q hq hsp hsq id hidp hidq
    obtain ⟨u, hu, hf⟩ := mem_allFunctions.mp hp
    obtain ⟨v, hv, hg⟩ := mem_allFunctions.mp hq
    obtain ⟨hplace, hfun⟩ := mergePlan_inj hok hu hv hf hg hsp hsq hidp hidq
    exact Prod.ext hplace hfun
  · rw [hentries, clonedFunctions_eq, scheduledFunctions, List.filter_filter, List.filter_filter]
    refine .of_eq (congrArg _ (List.filter_congr fun p _ => Bool.and_comm _ _))

section

variable {units : List CompiledUnit} {modules : List AssembledModule} {image : LinkedImage}

theorem UnitsOk.schedule_eq (hok : UnitsOk units) {u : CompiledUnit} (hu : u ∈ units) :
    lowerSchedule (u.functions.map fun f => (f.symbol, f.staticInit)) =
      (u.functions.filter fun f => f.staticInit.any).map fun f => ⟨f.symbol, f.staticInit⟩ := by
  have hvalid : ∀ f ∈ u.functions, f.symbol ≠ 0 := by
    intro f hf h0
    refine hok.valid u hu (List.mem_append_left _ (List.mem_append_left _ ?_))
    exact List.mem_append_left _ (List.mem_append_left _ (List.mem_map.mpr ⟨f, hf, h0⟩))
  unfold lowerSchedule
  generalize u.functions = functions at hvalid
  induction functions with
  | nil => rfl
  | cons f functions ih =>
    rw [List.map_cons, List.flatMap_cons, ih fun g hg => hvalid g (List.mem_cons_of_mem _ hg),
      staticInitAdd]
    have h0 := hvalid f List.mem_cons_self
    by_cases hany : f.staticInit.any = true
    · simp [h0, hany]
    · simp [hany]

theorem scheduleEntries_eq (hm : List.Forall₂ AssembledFrom units modules) (hok : UnitsOk units) :
    scheduleEntries modules = (scheduledFunctions units).map fun p =>
      (p.1, ⟨p.2.symbol, p.2.staticInit⟩) := by
  have hrange : List.range modules.length = units.zipIdx.map Prod.snd := by
    rw [List.zipIdx_map_snd, List.range_eq_range', hm.length_eq]
  unfold scheduleEntries scheduledFunctions allFunctions
  rw [hrange, List.flatMap_map, List.filter_flatMap, List.map_flatMap]
  refine List.flatMap_congr fun p hp => ?_
  have hu := List.mem_zipIdx_iff_getElem?.mp hp
  rw [(assembled_at hm hu).2.schedule, hok.schedule_eq (List.mem_of_getElem? hu), List.filter_map,
    List.map_map, List.map_map]
  rfl

def linkedSymbolOf (modules : List AssembledModule) (image : LinkedImage) (absPtrKind : Option ℕ)
    (unit symbol : ℕ) : Option ℕ :=
  (mergeModules modules image absPtrKind).2.names.table (keyAt modules unit symbol)

theorem mergeModules_entries {absPtrKind : Option ℕ} (hm : List.Forall₂ AssembledFrom units modules)
    (hok : UnitsOk units) (h : ResolvedFrom modules image)
    (hslots : SlotsExpressible modules image absPtrKind) :
    (mergeModules modules image absPtrKind).1.staticInitSchedule.map
        (fun e => (some e.symbol, e.schedule)) =
      (scheduledFunctions units).map fun p =>
        (linkedSymbolOf modules image absPtrKind p.1 p.2.symbol, p.2.staticInit) := by
  have hentries := (mergeModules_schedule (hok.linkable hm) (h.resolves hm hok) hslots).2
  rw [scheduleEntries_eq hm hok] at hentries
  generalize (mergeModules modules image absPtrKind).1.staticInitSchedule = schedule at hentries
  have hforall := List.forall₂_map_left_iff.mp hentries
  refine List.forall₂_eq_eq_eq ▸ ?_
  rw [List.forall₂_map_left_iff, List.forall₂_map_right_iff]
  refine hforall.flip.imp ?_
  rintro e p ⟨htable, hsched⟩
  rw [linkedSymbolOf, htable, hsched]

theorem linkedSymbolOf_inj {absPtrKind : Option ℕ} (hm : List.Forall₂ AssembledFrom units modules)
    (hok : UnitsOk units) (h : ResolvedFrom modules image)
    (hslots : SlotsExpressible modules image absPtrKind) {p q : ℕ × UnitFunction}
    (hp : p ∈ allFunctions units) (hq : q ∈ allFunctions units) (hsp : Survives units p.1 p.2)
    (hsq : Survives units q.1 q.2) {id : ℕ}
    (hidp : linkedSymbolOf modules image absPtrKind p.1 p.2.symbol = some id)
    (hidq : linkedSymbolOf modules image absPtrKind q.1 q.2.symbol = some id) : p = q := by
  have hl := hok.linkable hm
  have hinv := (mergeModules_schedule hl (h.resolves hm hok) hslots).1
  -- a function that survives owns its number
  have hown : ∀ {p : ℕ × UnitFunction}, p ∈ allFunctions units → Survives units p.1 p.2 →
      p.1 < modules.length ∧ ¬ Foldable modules (assignWinners image.resolvedGlobalDefs).2
        (image.resolvedGlobalDefs.map Prod.snd) (keyAt modules p.1 p.2.symbol) := by
    intro p hp hs
    obtain ⟨u, hu, hf⟩ := mem_allFunctions.mp hp
    obtain ⟨hi, hum⟩ := assembled_at hm hu
    refine ⟨hi, ?_⟩
    rintro ⟨j, hj, s, hkey, hfold⟩
    obtain ⟨rfl, rfl⟩ := keyAt_inj hl.units hi hj hkey
    rcases hfold with hshadowed | himport
    · exact (isShadowedAtom_iff hm hok h hu hf).mp hshadowed hs
    · refine hl.not_import hi ?_ himport
      refine List.mem_append_left _ (List.mem_append_left _ ?_)
      rw [hum.functions]
      exact List.mem_map_of_mem hf
  obtain ⟨hi, hFp⟩ := hown hp hsp
  obtain ⟨hj, hFq⟩ := hown hq hsq
  obtain ⟨hplace, hsym⟩ := keyAt_inj hl.units hi hj
    (hinv.naming.eq_of_table_eq hFp hFq hidp hidq)
  obtain ⟨u, hu, hf⟩ := mem_allFunctions.mp hp
  obtain ⟨v, hv, hg⟩ := mem_allFunctions.mp hq
  rw [← hplace] at hv
  obtain rfl : u = v := Option.some_inj.mp (hu.symm.trans hv)
  exact Prod.ext hplace (hok.function_inj (List.mem_of_getElem? hu) hf hg hsym)

theorem scheduleExact_linked_iff {absPtrKind : Option ℕ}
    (hm : List.Forall₂ AssembledFrom units modules) (hok : UnitsOk units)
    (h : ResolvedFrom modules image) (hslots : SlotsExpressible modules image absPtrKind) :
    ScheduleExact units (linkedSymbolOf modules image absPtrKind)
        (mergeModules modules image absPtrKind).1.staticInitSchedule ↔
      ∀ p ∈ scheduledFunctions units, Survives units p.1 p.2 := by
  have hentries := mergeModules_entries hm hok h hslots
  constructor
  · intro hexact p hp
    -- an entry of a function that is dropped is one entry too many
    have hlen := hexact.entries.length_eq
    rw [hentries, List.length_map, List.length_map] at hlen
    have hall := List.length_filter_eq_length_iff.mp hlen.symm p hp
    exact of_decide_eq_true hall
  · intro hall
    refine ⟨fun p hp q hq hsp hsq id => linkedSymbolOf_inj hm hok h hslots hp hq hsp hsq, ?_⟩
    rw [hentries, List.filter_eq_self.mpr fun p hp => decide_eq_true (hall p hp)]

end

/-- **Static initialisers run once whichever merge is taken**: the schedule of each merged program
has exactly one entry for each function that survives and that its unit schedules, with the schedule
of that unit, so both have the entries of the same functions. -/
def StaticInitOnce (units : List CompiledUnit) (modules : List AssembledModule)
    (image : LinkedImage) (absPtrKind : Option ℕ) : Prop :=
  (∃ merged, mergeCuFunctions units = some merged ∧
    ScheduleExact units (mergedSymbolOf (mergePlan units)) (lowerSchedule merged)) ∧
  ScheduleExact units (linkedSymbolOf modules image absPtrKind)
    (mergeModules modules image absPtrKind).1.staticInitSchedule

/-- **Static initialisers run once just when every scheduled function survives.** -/
theorem staticInitOnce_iff (units : List CompiledUnit) (modules : List AssembledModule)
    (image : LinkedImage) (absPtrKind : Option ℕ) (hok : UnitsOk units)
    (hm : List.Forall₂ AssembledFrom units modules) (h : ResolvedFrom modules image)
    (hslots : SlotsExpressible modules image absPtrKind) :
    StaticInitOnce units modules image absPtrKind ↔
      ∀ p ∈ scheduledFunctions units, Survives units p.1 p.2 := by
  unfold StaticInitOnce
  rw [scheduleExact_linked_iff hm hok h hslots]
  exact and_iff_right (scheduleExact_cloned hok)

def bareModule (u : CompiledUnit) : AssembledModule where
  cuId := u.cuId
  functions := u.functions.map fun f => { symbol := f.symbol }
  symbols := moduleSymbols u
  staticInitSchedule := lowerSchedule (u.functions.map fun f => (f.symbol, f.staticInit))

/-- Two units: a private constructor and a weak definition that loses to a strong destructor. -/
def initUnits : List CompiledUnit :=
  [⟨1, [⟨1, "setup", .«local», .default, { beforeEntry := some 65535 }⟩,
      ⟨2, "finish", .weak, .default, {}⟩], [], [], [], []⟩,
    ⟨2, [⟨1, "finish", .global, .default, { afterEntry := some 65535 }⟩], [], [], [], []⟩]

def weakInitUnits : List CompiledUnit :=
  [⟨1, [⟨1, "setup", .weak, .default, { beforeEntry := some 65535 }⟩], [], [], [], []⟩,
    ⟨2, [⟨1, "setup", .weak, .default, { beforeEntry := some 65535 }⟩], [], [], [], []⟩]

theorem staticInitOnce_initUnits :
    StaticInitOnce initUnits (initUnits.map bareModule)
      (resolveCrossCuSymbols (initUnits.map bareModule)).1 none := by
  refine (staticInitOnce_iff initUnits _ _ none ⟨by decide, by decide, by decide⟩ ?_
    ⟨.refl _, rfl⟩ (by decide)).mpr (by decide)
  refine .cons ⟨rfl, rfl, by decide, rfl, rfl, by decide⟩ (.cons ⟨rfl, rfl, by decide, rfl, rfl, ?_⟩
    .nil)
  decide

theorem not_staticInitOnce_weakInitUnits :
    ¬ StaticInitOnce weakInitUnits (weakInitUnits.map bareModule)
      (resolveCrossCuSymbols (weakInitUnits.map bareModule)).1 none := by
  rintro ⟨-, hexact⟩
  have hm : List.Forall₂ AssembledFrom weakInitUnits (weakInitUnits.map bareModule) :=
    .cons ⟨rfl, rfl, by decide, rfl, rfl, by decide⟩
      (.cons ⟨rfl, rfl, by decide, rfl, rfl, by decide⟩ .nil)
  have hall := (scheduleExact_linked_iff hm ⟨by decide, by decide, by decide⟩ ⟨.refl _, rfl⟩
    (by decide)).mp hexact
  exact absurd hall (by decide)

end DssPrime.Linker
