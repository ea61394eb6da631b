import DssPrime.Graph.Worklist
import DssPrime.Link.CrossCuResolve
import DssPrime.Mir.LazyImport
import Mathlib

/-!
# The names that a program needs

`buildModuleSummary` (`mir_summary.cpp`) lists for every function and global the names it refers to,
and `buildSummaryIndex` (`summary_index.cpp`) walks these lists from the names that are visible
outside. What it does not reach is listed as dead.

The program itself has more ways from one definition to another: through definitions without a name,
through addresses in the constants of a function, and from the functions that run by themselves
(`Reached`).
-/

namespace DssPrime.Mirsum.Liveness

structure Definition where
  symbol : ℕ
  binding : SymbolBinding
  visibility : SymbolVisibility
  staticInit : Bool
  uses : List ℕ
  recorded : List ℕ
  deriving DecidableEq

def funcInsts (mir : Mir) (f : ℕ) : List ℕ := (mir.funcBlocks f).flatMap mir.blockInsts

def globalAddrSymbols (mir : Mir) (inst : ℕ) : List ℕ :=
  if mir.instOpcode inst = .globalAddr then [mir.instPayload inst] else []

/-- A function: it refers to the symbols of its address instructions and of its constants, and the
summary looks at the former. -/
def functionDefinition (mir : Mir) (f : ℕ) : Definition where
  symbol := (mir.func f).symbol
  binding := (mir.func f).binding
  visibility := (mir.func f).visibility
  staticInit := (mir.func f).staticInit
  uses := (funcInsts mir f).flatMap (instSymbols mir)
  recorded := (funcInsts mir f).flatMap (globalAddrSymbols mir)

def initSymbols (mir : Mir) (g : MirGlobal) : List ℕ :=
  match g.initLiteralIndex with
  | none => []
  | some i => literalSymbols (mir.literals.getD i default)

def globalDefinition (mir : Mir) (g : MirGlobal) : Definition where
  symbol := g.symbol
  binding := g.binding
  visibility := g.visibility
  staticInit := false
  uses := initSymbols mir g
  recorded := initSymbols mir g

def functionDefinitions (mir : Mir) : List Definition :=
  mir.moduleFuncs.map (functionDefinition mir)

def globalDefinitions (mir : Mir) : List Definition :=
  mir.globals.tail.map (globalDefinition mir)

/-- A unit with the names of its symbols. -/
structure SummaryCuInput where
  mir : Mir
  nameOf : ℕ → String
  distinct : ((functionDefinitions mir ++ globalDefinitions mir).map Definition.symbol).Nodup

def SummaryCuInput.definitions (cu : SummaryCuInput) : List Definition :=
  functionDefinitions cu.mir ++ globalDefinitions cu.mir

/-- What the liveness reads of the row of a function (its `symbolRefs`) or of a global (its
`initSymbolRefs`). -/
structure SummaryRow where
  name : String
  binding : SymbolBinding
  visibility : SymbolVisibility
  refs : List String

structure ModuleSummary where
  functions : List SummaryRow
  globals : List SummaryRow

def summaryRow (nameOf : ℕ → String) (d : Definition) : SummaryRow where
  name := nameOf d.symbol
  binding := d.binding
  visibility := d.visibility
  refs := sortUnique ((d.recorded.map nameOf).filter (· ≠ ""))

def buildModuleSummary (cu : SummaryCuInput) : ModuleSummary where
  functions := (functionDefinitions cu.mir).map (summaryRow cu.nameOf)
  globals := (globalDefinitions cu.mir).map (summaryRow cu.nameOf)

def ModuleSummary.rows (s : ModuleSummary) : List SummaryRow := s.functions ++ s.globals

def unionRefs (summaries : List ModuleSummary) (name : String) : List String :=
  summaries.flatMap fun s => s.rows.flatMap fun r =>
    if r.name ≠ "" ∧ r.name = name then r.refs.filter (· ≠ "") else []

def visibleNames (summaries : List ModuleSummary) : List String :=
  (summaries.flatMap fun s => s.rows.filterMap fun r =>
    if r.name ≠ "" ∧ isExternallyVisible r.binding r.visibility = true then some r.name
    else none).dedup

def allNames (summaries : List ModuleSummary) : List String :=
  summaries.flatMap fun s => s.rows.flatMap fun r => r.name :: r.refs

/-- The names that the walk reaches.  It is a set: the order of the walk is not kept. -/
def liveSymbols (summaries : List ModuleSummary) : List String :=
  (Worklist.run (unionRefs summaries)
    ((visibleNames summaries).length + (allNames summaries).length)
    (visibleNames summaries) (visibleNames summaries)).getD []

def deadSymbols (summaries : List ModuleSummary) (s : ModuleSummary) : List String :=
  sortUnique ((s.rows.filter fun r => r.name ≠ "" ∧ r.name ∉ liveSymbols summaries).map
    SummaryRow.name)

def deadSymbolsPerModule (summaries : List ModuleSummary) : List (List String) :=
  summaries.map (deadSymbols summaries)

section Merged

variable (p : List SummaryCuInput)

def definitionsAt (m : ℕ) : List Definition :=
  match p[m]? with
  | none => []
  | some cu => cu.definitions

def nameAt (m s : ℕ) : String :=
  match p[m]? with
  | none => ""
  | some cu => cu.nameOf s

def crossCuDefs : List CrossCuDef :=
  (List.range p.length).flatMap fun m => (definitionsAt p m).filterMap fun d =>
    if nameAt p m d.symbol = "" ∨ d.binding = .«local» then none
    else some ⟨nameAt p m d.symbol, d.binding, ⟨m + 1, d.symbol⟩, .any, 0, []⟩

def IsLocalDef (m s : ℕ) : Prop :=
  ∃ d ∈ definitionsAt p m, d.symbol = s ∧ d.binding = .«local»

instance (m s : ℕ) : Decidable (IsLocalDef p m s) := by
  unfold IsLocalDef
  infer_instance

/-- The symbol of the merged program that a symbol of a module becomes: the winner of its name, or
one of its own if it has no name, is private, or has no winner. -/
def resolve (m s : ℕ) : ℕ × ℕ :=
  if nameAt p m s = "" ∨ IsLocalDef p m s then (m, s)
  else
    match (resolveCrossCuDefs (crossCuDefs p)).winners (nameAt p m s) with
    | none => (m, s)
    | some key => (key.cuId - 1, key.symbol)

def Survives (m s : ℕ) : Prop := resolve p m s = (m, s)

/-- The initialiser functions of the globals of a module that are part of the merged program. -/
def InitFunction (m s : ℕ) : Prop :=
  ∃ cu, p[m]? = some cu ∧ ∃ g ∈ cu.mir.globals.tail, Survives p m g.symbol ∧ g.initFunc ≠ 0 ∧
    s = (cu.mir.func g.initFunc).symbol

/-- What the merged program can reach: visible definitions, functions that run by themselves,
initialiser functions, and what these refer to. -/
inductive Reached : ℕ × ℕ → Prop
  | visible {m d} (hd : d ∈ definitionsAt p m) (hs : Survives p m d.symbol)
    (hv : isExternallyVisible d.binding d.visibility = true) : Reached (m, d.symbol)
  | staticInit {m d} (hd : d ∈ definitionsAt p m) (hs : Survives p m d.symbol)
    (hi : d.staticInit = true) : Reached (m, d.symbol)
  | initFunc {m s} (hi : InitFunction p m s) : Reached (resolve p m s)
  | use {m d t} (hr : Reached (m, d.symbol)) (hd : d ∈ definitionsAt p m) (ht : t ∈ d.uses) :
    Reached (resolve p m t)

/-- The names reached from visible definitions along recorded references between definitions with
names. -/
inductive NamedReach : String → Prop
  | visible {m d} (hd : d ∈ definitionsAt p m) (hn : nameAt p m d.symbol ≠ "")
    (hv : isExternallyVisible d.binding d.visibility = true) : NamedReach (nameAt p m d.symbol)
  | use {m d t} (hd : d ∈ definitionsAt p m) (hr : NamedReach (nameAt p m d.symbol))
    (ht : t ∈ d.recorded) (hn : nameAt p m t ≠ "") : NamedReach (nameAt p m t)

/-- What is used in a way that the lists leave out: it runs by itself, or a definition without a
name refers to it, or a constant of a function does. -/
inductive Hidden : ℕ × ℕ → Prop
  | staticInit {m d} (hd : d ∈ definitionsAt p m) (hs : Survives p m d.symbol)
    (hi : d.staticInit = true) : Hidden (m, d.symbol)
  | initFunc {m s} (hi : InitFunction p m s) : Hidden (resolve p m s)
  | unnamed {m d t} (hr : Reached p (m, d.symbol)) (hd : d ∈ definitionsAt p m) (ht : t ∈ d.uses)
    (hn : nameAt p m d.symbol = "") : Hidden (resolve p m t)
  | constant {m d t} (hr : Reached p (m, d.symbol)) (hd : d ∈ definitionsAt p m) (ht : t ∈ d.uses)
    (hc : t ∉ d.recorded) : Hidden (resolve p m t)

def NamedDefinition (x : ℕ × ℕ) : Prop :=
  (∃ d ∈ definitionsAt p x.1, d.symbol = x.2) ∧ nameAt p x.1 x.2 ≠ ""

def DeadUnreached : Prop :=
  ∀ m name, name ∈ (deadSymbolsPerModule (p.map buildModuleSummary)).getD m [] →
    ∀ d ∈ definitionsAt p m, nameAt p m d.symbol = name → ¬ Reached p (resolve p m d.symbol)

/-- Every named definition that is used in a way that the lists leave out is reached along recorded
references too. -/
def HiddenUsesNamed : Prop :=
  ∀ x, Hidden p x → NamedDefinition p x → NamedReach p (nameAt p x.1 x.2)

end Merged

section Walk

variable {p : List SummaryCuInput} {x y : String}

theorem rows_buildModuleSummary (cu : SummaryCuInput) :
    (buildModuleSummary cu).rows = cu.definitions.map (summaryRow cu.nameOf) := by
  simp [ModuleSummary.rows, buildModuleSummary, SummaryCuInput.definitions]

theorem exists_row_iff {P : SummaryRow → Prop} :
    (∃ s ∈ p.map buildModuleSummary, ∃ r ∈ s.rows, P r) ↔
      ∃ m, ∃ d ∈ definitionsAt p m, P (summaryRow (nameAt p m) d) := by
  constructor
  · rintro ⟨s, hs, r, hr, hP⟩
    obtain ⟨cu, hcu, rfl⟩ := List.mem_map.1 hs
    obtain ⟨m, hm⟩ := List.mem_iff_getElem?.1 hcu
    rw [rows_buildModuleSummary] at hr
    obtain ⟨d, hd, rfl⟩ := List.mem_map.1 hr
    have hname : nameAt p m = cu.nameOf := by
      funext s
      rw [nameAt, hm]
    refine ⟨m, d, ?_, hname ▸ hP⟩
    rw [definitionsAt, hm]
    exact hd
  · rintro ⟨m, d, hd, hP⟩
    unfold definitionsAt at hd
    cases hm : p[m]? with
    | none =>
      rw [hm] at hd
      cases hd
    | some cu =>
      rw [hm] at hd
      have hname : nameAt p m = cu.nameOf := by
        funext s
        rw [nameAt, hm]
      refine ⟨_, List.mem_map_of_mem (List.mem_of_getElem? hm), _, ?_, hP⟩
      rw [rows_buildModuleSummary, hname]
      exact List.mem_map_of_mem hd

theorem mem_refs {nameOf : ℕ → String} {d : Definition} :
    y ∈ (summaryRow nameOf d).refs ↔ y ≠ "" ∧ ∃ t ∈ d.recorded, nameOf t = y := by
  simp [summaryRow, mem_sortUnique, and_comm]

theorem mem_unionRefs : y ∈ unionRefs (p.map buildModuleSummary) x ↔ ∃ m, ∃ d ∈ definitionsAt p m,
    nameAt p m d.symbol ≠ "" ∧ nameAt p m d.symbol = x ∧
      y ≠ "" ∧ ∃ t ∈ d.recorded, nameAt p m t = y := by
  have hrows := exists_row_iff (p := p)
    (P := fun r => r.name ≠ "" ∧ r.name = x ∧ y ∈ r.refs ∧ y ≠ "")
  simp only [mem_refs] at hrows
  refine Iff.trans ?_ (hrows.trans ?_)
  · unfold unionRefs
    simp only [List.mem_flatMap]
    refine exists_congr fun s => and_congr_right fun _ => exists_congr fun r =>
      and_congr_right fun _ => ?_
    split_ifs with h
    · have hx : x ≠ "" := h.2 ▸ h.1
      simp [h.2, hx]
    · simp only [List.not_mem_nil, false_iff]
      exact fun h' => h ⟨h'.1, h'.2.1⟩
  · refine exists_congr fun m => exists_congr fun d => and_congr_right fun _ => ?_
    simp only [summaryRow]
    tauto

theorem mem_visibleNames : x ∈ visibleNames (p.map buildModuleSummary) ↔
    ∃ m, ∃ d ∈ definitionsAt p m, nameAt p m d.symbol ≠ "" ∧
      isExternallyVisible d.binding d.visibility = true ∧ nameAt p m d.symbol = x := by
  have hrows := exists_row_iff (p := p)
    (P := fun r => r.name ≠ "" ∧ isExternallyVisible r.binding r.visibility = true ∧ r.name = x)
  refine Iff.trans ?_ hrows
  unfold visibleNames
  simp only [List.mem_dedup, List.mem_flatMap, List.mem_filterMap]
  refine exists_congr fun s => and_congr_right fun _ => exists_congr fun r =>
    and_congr_right fun _ => ?_
  split_ifs with h
  · simp [h.1, h.2]
  · simp only [false_iff]
    exact fun h' => h ⟨h'.1, h'.2.1⟩

theorem run_liveSymbols (summaries : List ModuleSummary) : ∃ r,
    Worklist.run (unionRefs summaries)
      ((visibleNames summaries).length + (allNames summaries).length)
      (visibleNames summaries) (visibleNames summaries) = some r := by
  have hU : ∀ x ∈ (allNames summaries).toFinset, ∀ y ∈ unionRefs summaries x,
      y ∈ (allNames summaries).toFinset := by
    intro x _ y hy
    simp only [unionRefs, List.mem_flatMap] at hy
    obtain ⟨s, hs, r, hr, hy⟩ := hy
    split_ifs at hy
    · rw [List.mem_toFinset]
      simp only [allNames, List.mem_flatMap]
      exact ⟨s, hs, r, hr, List.mem_cons_of_mem _ (List.mem_filter.1 hy).1⟩
    · cases hy
  refine Worklist.run_isSome hU (fun x hx => ?_) (fun x hx => hx) (List.nodup_dedup _) ?_
  · simp only [visibleNames, List.mem_dedup, List.mem_flatMap, List.mem_filterMap] at hx
    obtain ⟨s, hs, r, hr, hx⟩ := hx
    split_ifs at hx
    · obtain rfl := Option.some.inj hx
      rw [List.mem_toFinset]
      simp only [allNames, List.mem_flatMap]
      exact ⟨s, hs, r, hr, List.mem_cons_self⟩
  · have := List.toFinset_card_le (allNames summaries)
    omega

theorem mem_liveSymbols : x ∈ liveSymbols (p.map buildModuleSummary) ↔ NamedReach p x := by
  obtain ⟨r, hr⟩ := run_liveSymbols (p.map buildModuleSummary)
  unfold liveSymbols
  rw [hr, Option.getD_some, Worklist.mem_run_iff hr]
  constructor
  · rintro ⟨a, ha, hreach⟩
    induction hreach with
    | refl =>
      obtain ⟨m, d, hd, hn, hv, rfl⟩ := mem_visibleNames.1 ha
      exact .visible hd hn hv
    | tail _ hedge ih =>
      obtain ⟨m, d, hd, -, hname, hy, t, ht, rfl⟩ := mem_unionRefs.1 hedge
      exact .use hd (hname ▸ ih) ht hy
  · intro hx
    induction hx with
    | visible hd hn hv => exact ⟨_, mem_visibleNames.2 ⟨_, _, hd, hn, hv, rfl⟩, .refl⟩
    | use hd hr ht hn ih =>
      obtain ⟨a, ha, hreach⟩ := ih
      have hne : ∀ {y}, NamedReach p y → y ≠ "" := by
        intro y hy
        cases hy with
        | visible _ hn _ => exact hn
        | use _ _ _ hn => exact hn
      exact ⟨a, ha, hreach.tail (mem_unionRefs.2 ⟨_, _, hd, hne hr, rfl, hn, _, ht, rfl⟩)⟩

theorem mem_deadSymbols {m : ℕ} :
    x ∈ (deadSymbolsPerModule (p.map buildModuleSummary)).getD m [] ↔
      (∃ d ∈ definitionsAt p m, nameAt p m d.symbol = x) ∧ x ≠ "" ∧ ¬ NamedReach p x := by
  unfold deadSymbolsPerModule definitionsAt nameAt
  rw [List.getD_eq_getElem?_getD, List.getElem?_map, List.getElem?_map]
  cases p[m]? with
  | none => simp
  | some cu =>
    simp only [Option.map_some, Option.getD_some, deadSymbols, mem_sortUnique, List.mem_map,
      List.mem_filter, rows_buildModuleSummary, decide_eq_true_eq, mem_liveSymbols]
    constructor
    · rintro ⟨r, ⟨⟨d, hd, rfl⟩, hne, hnot⟩, rfl⟩
      exact ⟨⟨d, hd, rfl⟩, hne, hnot⟩
    · rintro ⟨⟨d, hd, rfl⟩, hne, hnot⟩
      exact ⟨_, ⟨⟨d, hd, rfl⟩, hne, hnot⟩, rfl⟩

end Walk

section Resolve

variable {p : List SummaryCuInput}

theorem definition_unique {m : ℕ} {d d' : Definition} (hd : d ∈ definitionsAt p m)
    (hd' : d' ∈ definitionsAt p m) (h : d.symbol = d'.symbol) : d = d' := by
  unfold definitionsAt at hd hd'
  cases hm : p[m]? with
  | none =>
    rw [hm] at hd
    cases hd
  | some cu =>
    rw [hm] at hd hd'
    exact List.inj_on_of_nodup_map cu.distinct hd hd' h

theorem winner_spec {name : String} {key : LinkedSymbolKey}
    (h : (resolveCrossCuDefs (crossCuDefs p)).winners name = some key) : name ≠ "" ∧
    ∃ m, ∃ d ∈ definitionsAt p m, key = ⟨m + 1, d.symbol⟩ ∧ nameAt p m d.symbol = name ∧
      d.binding ≠ .«local» := by
  have hkey : ∃ binding, key ∈ keysOf (crossCuDefs p) binding name := by
    rcases (winners_eq_some_iff _ _ _).1 h with hw | ⟨-, hw⟩
    · exact ⟨_, hw.1⟩
    · exact ⟨_, hw.1⟩
  obtain ⟨binding, hkey⟩ := hkey
  obtain ⟨c, hc, rfl⟩ := List.mem_map.1 hkey
  obtain ⟨hc, hname⟩ := List.mem_filter.1 hc
  obtain ⟨hname, hne, -⟩ := of_decide_eq_true hname
  unfold crossCuDefs at hc
  simp only [List.mem_flatMap, List.mem_filterMap] at hc
  obtain ⟨m, -, d, hd, hc⟩ := hc
  split_ifs at hc with hskip
  obtain rfl := Option.some.inj hc
  obtain ⟨-, hlocal⟩ := not_or.1 hskip
  exact ⟨hname ▸ hne, m, d, hd, rfl, hname, hlocal⟩

theorem resolve_spec (m s : ℕ) :
    nameAt p (resolve p m s).1 (resolve p m s).2 = nameAt p m s ∧
    Survives p (resolve p m s).1 (resolve p m s).2 ∧
    ((∃ d ∈ definitionsAt p m, d.symbol = s) →
      ∃ d ∈ definitionsAt p (resolve p m s).1, d.symbol = (resolve p m s).2) := by
  by_cases hown : nameAt p m s = "" ∨ IsLocalDef p m s
  · have hr : resolve p m s = (m, s) := by
      rw [resolve, if_pos hown]
    rw [hr]
    exact ⟨rfl, hr, fun h => h⟩
  · cases hw : (resolveCrossCuDefs (crossCuDefs p)).winners (nameAt p m s) with
    | none =>
      have hr : resolve p m s = (m, s) := by
        rw [resolve, if_neg hown, hw]
      rw [hr]
      exact ⟨rfl, hr, fun h => h⟩
    | some key =>
      obtain ⟨hne, m', d, hd, rfl, hname, hlocal⟩ := winner_spec hw
      have hr : resolve p m s = (m', d.symbol) := by
        rw [resolve, if_neg hown, hw]
        rfl
      rw [hr]
      refine ⟨hname, ?_, fun _ => ⟨d, hd, rfl⟩⟩
      have hkept : ¬ (nameAt p m' d.symbol = "" ∨ IsLocalDef p m' d.symbol) := by
        rintro (h | ⟨d', hd', hsym, hb⟩)
        · exact hne (hname ▸ h)
        · rw [definition_unique hd' hd hsym] at hb
          exact hlocal hb
      unfold Survives
      rw [resolve, if_neg hkept, hname, hw]
      rfl

theorem Hidden.reached {x : ℕ × ℕ} (h : Hidden p x) : Reached p x ∧ Survives p x.1 x.2 := by
  cases h with
  | staticInit hd hs hi => exact ⟨.staticInit hd hs hi, hs⟩
  | initFunc hi => exact ⟨.initFunc hi, (resolve_spec _ _).2.1⟩
  | unnamed hr hd ht _ => exact ⟨.use hr hd ht, (resolve_spec _ _).2.1⟩
  | constant hr hd ht _ => exact ⟨.use hr hd ht, (resolve_spec _ _).2.1⟩

theorem Reached.named (hhidden : HiddenUsesNamed p) {x : ℕ × ℕ} (h : Reached p x)
    (hx : NamedDefinition p x) : NamedReach p (nameAt p x.1 x.2) := by
  induction h with
  | visible hd _ hv => exact .visible hd hx.2 hv
  | staticInit hd hs hi => exact hhidden _ (.staticInit hd hs hi) hx
  | initFunc hi => exact hhidden _ (.initFunc hi) hx
  | @use m d t hr hd ht ih =>
    by_cases hn : nameAt p m d.symbol = ""
    · exact hhidden _ (.unnamed hr hd ht hn) hx
    · by_cases hc : t ∈ d.recorded
      · rw [(resolve_spec m t).1]
        refine .use hd (ih ⟨⟨d, hd, rfl⟩, hn⟩) hc ?_
        rw [← (resolve_spec m t).1]
        exact hx.2
      · exact hhidden _ (.constant hr hd ht hc) hx

end Resolve

/-- **Dead names.**  For every program, nothing that is listed as dead is reached in the merged
program if and only if every named definition that is used in a way that the lists leave out is
reached along recorded references too. -/
theorem dead_unreached_iff (p : List SummaryCuInput) : DeadUnreached p ↔ HiddenUsesNamed p := by
  constructor
  · intro hdead x hx hname
    obtain ⟨hreach, hsurv⟩ := hx.reached
    obtain ⟨⟨d, hd, hsym⟩, hne⟩ := hname
    by_contra hno
    rw [← hsym] at hne hno
    have hlist := mem_deadSymbols.2 ⟨⟨d, hd, rfl⟩, hne, hno⟩
    refine hdead x.1 _ hlist d hd rfl ?_
    rw [hsym, hsurv]
    exact hreach
  · intro hhidden m name hlist d hd hname hreach
    obtain ⟨-, hne, hno⟩ := mem_deadSymbols.1 hlist
    obtain ⟨hkeep, -, hdef⟩ := resolve_spec (p := p) m d.symbol
    refine hno ?_
    have h := hreach.named hhidden ⟨hdef ⟨d, hd, rfl⟩, by
      rw [hkeep, hname]
      exact hne⟩
    rwa [hkeep, hname] at h

/-- A visible function that takes the address of a global without a name, whose initialiser holds
the address of a private function. -/
def tableData : MirData where
  insts := [default, ⟨.globalAddr, default, 1, [], [], 2, 0⟩, ⟨.ret, default, 0, [], [], 0, 0⟩,
    ⟨.ret, default, 0, [], [], 0, 0⟩]
  instBlocks := [0, 1, 1, 2]
  blocks := [default, ⟨1, 2, [], 1⟩, ⟨3, 1, [], 2⟩]
  funcs := [default, ⟨0, 1, 1, 1, .global, .default, false, false, false, false⟩,
    ⟨0, 2, 1, 3, .local, .default, false, false, false, false⟩]
  globals := [default, ⟨1, 2, some 0, 0, .local, .default⟩]
  literals := [.aggregate .struct [.symbolAddr .ptr 3 0]]
  aliasingMode := .permissive
  charTypesAliasAll := true

def tableCu : SummaryCuInput where
  mir := ⟨tableData, by decide⟩
  nameOf s := if s = 1 then "main" else if s = 3 then "helper" else ""
  distinct := by decide

theorem dead_reached_table :
    "helper" ∈ (deadSymbolsPerModule ([tableCu].map buildModuleSummary)).getD 0 [] ∧
      Reached [tableCu] (resolve [tableCu] 0 3) ∧ ¬ DeadUnreached [tableCu] := by
  have hdefs : definitionsAt [tableCu] 0 = [⟨1, .global, .default, false, [2], [2]⟩,
      ⟨3, .local, .default, false, [], []⟩, ⟨2, .local, .default, false, [3], [3]⟩] := by
    have hinit : initSymbols tableCu.mir ⟨1, 2, some 0, 0, .local, .default⟩ = [3] := by
      simp [initSymbols, tableCu, tableData, literalSymbols]
    have hglobal : globalDefinition tableCu.mir ⟨1, 2, some 0, 0, .local, .default⟩ =
        ⟨2, .local, .default, false, [3], [3]⟩ := by
      rw [globalDefinition, hinit]
    rw [← hglobal]
    rfl
  have hother : ∀ m, m ≠ 0 → definitionsAt [tableCu] m = [] := by
    intro m hm
    unfold definitionsAt
    rw [List.getElem?_eq_none (Nat.one_le_iff_ne_zero.2 hm)]
  have hmain : ∀ x, NamedReach [tableCu] x → x = "main" := by
    intro x hx
    induction hx with
    | @visible m d hd hn hv =>
      by_cases hm : m = 0
      · subst hm
        rw [hdefs] at hd
        fin_cases hd
        · rfl
        · cases hv
        · cases hv
      · rw [hother m hm] at hd
        cases hd
    | @use m d t hd hr ht hn ih =>
      by_cases hm : m = 0
      · subst hm
        rw [hdefs] at hd
        fin_cases hd
        · rw [List.mem_singleton.1 ht] at hn
          exact absurd rfl hn
        · exact absurd ih (by decide)
        · exact absurd ih (by decide)
      · rw [hother m hm] at hd
        cases hd
  have hlist := mem_deadSymbols (p := [tableCu]) (m := 0) (x := "helper") |>.2
    ⟨⟨⟨3, .local, .default, false, [], []⟩, by rw [hdefs]; decide, rfl⟩, by decide,
      fun h => absurd (hmain _ h) (by decide)⟩
  have hcross : crossCuDefs [tableCu] = [⟨"main", .global, ⟨1, 1⟩, .any, 0, []⟩] := by
    show (definitionsAt [tableCu] 0).filterMap _ ++ [] = _
    rw [hdefs]
    rfl
  have hreach : Reached [tableCu] (resolve [tableCu] 0 3) := by
    have hsurvives : Survives [tableCu] 0 1 := by
      have hlocal : ¬ (nameAt [tableCu] 0 1 = "" ∨ IsLocalDef [tableCu] 0 1) := by
        unfold IsLocalDef
        rw [hdefs]
        decide
      unfold Survives
      rw [resolve, if_neg hlocal, hcross]
      rfl
    have hmainReached : Reached [tableCu] (0, 1) :=
      .visible (d := ⟨1, .global, .default, false, [2], [2]⟩) (by rw [hdefs]; decide) hsurvives rfl
    have htable : resolve [tableCu] 0 2 = (0, 2) := by
      rw [resolve, if_pos (.inl rfl)]
    have htableReached : Reached [tableCu] (0, 2) :=
      htable ▸ .use (d := ⟨1, .global, .default, false, [2], [2]⟩) hmainReached
        (by rw [hdefs]; decide) (List.mem_singleton_self 2)
    exact .use (d := ⟨2, .local, .default, false, [3], [3]⟩) htableReached (by rw [hdefs]; decide)
      (List.mem_singleton_self 3)
  exact ⟨hlist, hreach, fun h => h 0 "helper" hlist ⟨3, .local, .default, false, [], []⟩
    (by rw [hdefs]; decide) rfl hreach⟩

end DssPrime.Mirsum.Liveness
