import Mathlib.Data.Finset.Basic
import Mathlib.Data.List.Nodup

/-!
# The diagnostic reporter

`DiagnosticReporter` of `diagnostic_reporter.cpp`: diagnostics pass a policy, a cap for each code, a
window of recent duplicates and a cap for all, and what is not stored is counted in two ledgers
whose totals stand in the texts of marker entries.  A snapshot holds the size of the stream and the
ledgers; `truncateTo` cuts the stream back and writes the texts of the markers again, since an entry
older than the snapshot may have been rewritten.

The names and numbers of the codes come from a table of the build and are a parameter.
-/

namespace DssPrime.Parse

structure SourceSpan where
  start : ℕ
  stop : ℕ
  deriving DecidableEq

namespace SourceSpan

def empty (at' : ℕ) : SourceSpan := ⟨at', at'⟩

def isEmpty (s : SourceSpan) : Bool := s.stop = s.start

/-- The smallest range around two; an empty one is ignored. -/
def join (a b : SourceSpan) : SourceSpan :=
  if a.isEmpty then b else if b.isEmpty then a else ⟨min a.start b.start, max a.stop b.stop⟩

end SourceSpan

inductive ScopeKind where
  | none | root | block | paren | bracket | generic | string | comment
  | custom (id : ℕ)
  deriving DecidableEq, Inhabited

inductive DiagnosticSeverity where
  | hint | info | warning | error
  deriving DecidableEq

inductive DiagnosticDelivery where
  | capped | guaranteed
  deriving DecidableEq

inductive DiagnosticCode where
  | none | schemaCursorDesync | builderInvariant | unknownToken | ambiguousToken
  | contextualKeywordResolution | unexpectedToken | maxSpeculationDepth
  | suppressRequestIgnored | diagnosticsElided | tooManyDiagnostics
  | other (value : ℕ)
  deriving DecidableEq

/-- Another place that a diagnostic points at. -/
structure RelatedLocation where
  buffer : ℕ
  span : SourceSpan
  note : String

structure ParseDiagnostic where
  code : DiagnosticCode := .none
  severity : DiagnosticSeverity := .error
  delivery : DiagnosticDelivery := .capped
  buffer : ℕ := 0
  span : SourceSpan := .empty 0
  ruleContext : Option ℕ := Option.none
  expected : List String := []
  actual : String := ""
  scopeStack : List ScopeKind := []
  related : List RelatedLocation := []
  suggestion : String := ""
  contextPrefix : String := ""
  deriving Inhabited

structure CodeTable where
  value : DiagnosticCode → UInt64
  name : DiagnosticCode → String
  shortName : DiagnosticCode → String
  isUnsuppressable : DiagnosticCode → Bool

structure ReporterConfig where
  codes : CodeTable
  maxDiagnostics : ℕ := 1000
  maxPerCode : ℕ := 50
  dedupWindow : ℕ := 4
  overrides : DiagnosticCode → Option DiagnosticSeverity := fun _ => Option.none
  suppress : DiagnosticCode → Bool := fun _ => false
  warningsAsErrors : Bool := false

/-- What was elided of a code, and the entry that says so. -/
structure ElisionLedger where
  coalesced : ℕ := 0
  deduped : ℕ := 0
  markerIndex : ℕ := 0

inductive ElisionKind where
  | perCodeCap | dedupWindow

def ElisionLedger.count (led : ElisionLedger) : ElisionKind → ElisionLedger
  | .perCodeCap => { led with coalesced := led.coalesced + 1 }
  | .dedupWindow => { led with deduped := led.deduped + 1 }

/-- The stream and the ledgers. -/
structure Reporter where
  all : List ParseDiagnostic := []
  perCode : DiagnosticCode → ℕ := fun _ => 0
  recent : List UInt64 := []
  hitCap : Bool := false
  droppedByCap : ℕ := 0
  capMarkerIndex : ℕ := 0
  elided : List (DiagnosticCode × ElisionLedger) := []
  deriving Inhabited

def fnv1a64 (seed v : UInt64) : UInt64 :=
  (List.range 8).foldl (fun seed i =>
    (seed ^^^ ((v >>> (UInt64.ofNat (i * 8))) &&& 0xFF)) * 1099511628211) seed

def fnv1a64Bytes (seed : UInt64) (s : String) : UInt64 :=
  s.toUTF8.toList.foldl (fun seed c => (seed ^^^ c.toUInt64) * 1099511628211) seed

def hashKey (codes : CodeTable) (d : ParseDiagnostic) : UInt64 :=
  let h := fnv1a64 14695981039346656037 (codes.value d.code)
  let h := fnv1a64 h (UInt64.ofNat d.buffer)
  let h := fnv1a64 h (UInt64.ofNat d.span.start)
  let h := fnv1a64 h (UInt64.ofNat d.span.stop)
  let h := fnv1a64 h (UInt64.ofNat (d.ruleContext.getD 0))
  fnv1a64Bytes h d.actual

section

variable (cfg : ReporterConfig)

def capText (dropped : ℕ) : String :=
  "reporter cap of " ++ toString cfg.maxDiagnostics ++ " diagnostics reached; " ++
    toString dropped ++ " further " ++
    (if dropped = 1 then "diagnostic was" else "diagnostics were") ++
    " dropped and NOT shown. Raise the cap above " ++ toString cfg.maxDiagnostics ++ " to see " ++
    (if dropped = 1 then "it" else "them") ++
    ": pass --max-diagnostics=N on the command line, or set " ++
    "DiagnosticReporter::Config::maxDiagnostics when embedding."

def elisionText (code : DiagnosticCode) (led : ElisionLedger) : String :=
  cfg.codes.shortName code ++ " (" ++ cfg.codes.name code ++
    ") diagnostics were ELIDED and NOT shown, so any count you have for this code is a " ++
    "FLOOR and " ++
    "not a total: " ++ toString led.coalesced ++ " coalesced past the per-code cap of " ++
    toString cfg.maxPerCode ++ ", " ++ toString led.deduped ++
    " dropped as recent duplicates. Raise the cap above " ++ toString cfg.maxPerCode ++
    " to see them: pass --max-per-code=N on the command line, or set " ++
    "DiagnosticReporter::Config::maxPerCode when embedding."

def ParseDiagnostic.withText (d : ParseDiagnostic) (text : String) : ParseDiagnostic :=
  { d with actual := text }

def Reporter.writeText (r : Reporter) (i : ℕ) (text : String) : Option Reporter :=
  if i < r.all.length then some { r with all := r.all.modify i fun d => d.withText text } else none

def Reporter.rewriteCapMarker (r : Reporter) : Option Reporter :=
  r.writeText r.capMarkerIndex (capText cfg r.droppedByCap)

def Reporter.rewriteElisionMarker (r : Reporter) (code : DiagnosticCode) : Option Reporter :=
  match r.elided.lookup code with
  | none => none
  | some led => r.writeText led.markerIndex (elisionText cfg code led)

def Reporter.noteCapDrop (r : Reporter) : Option Reporter :=
  { r with droppedByCap := r.droppedByCap + 1 }.rewriteCapMarker cfg

/-- One more diagnostic elided; the first of a code gets a marker. -/
def Reporter.noteElision (r : Reporter) (d : ParseDiagnostic) (kind : ElisionKind) :
    Option Reporter :=
  match r.elided.lookup d.code with
  | some led =>
    let r : Reporter := { r with
      elided := r.elided.map fun e => if e.1 = d.code then (e.1, led.count kind) else e }
    r.rewriteElisionMarker cfg d.code
  | none =>
    let r : Reporter := { r with
      elided := r.elided ++
        [(d.code, { ElisionLedger.count {} kind with markerIndex := r.all.length })]
      all := r.all ++ [{
        code := .diagnosticsElided, severity := .info, delivery := .guaranteed
        buffer := d.buffer, span := d.span }] }
    r.rewriteElisionMarker cfg d.code

def effectiveSeverity (code : DiagnosticCode) (severity : DiagnosticSeverity) :
    Option DiagnosticSeverity :=
  if !cfg.codes.isUnsuppressable code && cfg.suppress code && severity ≠ .error then none
  else
    let severity := if cfg.codes.isUnsuppressable code then severity
      else (cfg.overrides code).getD severity
    some (if cfg.warningsAsErrors && severity = .warning then .error else severity)

def mustDeliver (d : ParseDiagnostic) : Bool :=
  d.delivery = .guaranteed || cfg.codes.isUnsuppressable d.code

/-- An equal diagnostic was stored a short while ago. -/
def Reporter.isRecentDuplicate (r : Reporter) (d : ParseDiagnostic) : Bool :=
  cfg.dedupWindow ≠ 0 && r.recent.contains (hashKey cfg.codes d)

def Reporter.bump (r : Reporter) (code : DiagnosticCode) : DiagnosticCode → ℕ :=
  fun c => if c = code then r.perCode c + 1 else r.perCode c

def pushRecent (recent : List UInt64) (key : UInt64) : List UInt64 :=
  let recent := recent ++ [key]
  if cfg.dedupWindow < recent.length then recent.drop 1 else recent

def Reporter.deliver (r : Reporter) (d : ParseDiagnostic) : Option Reporter :=
  match effectiveSeverity cfg d.code d.severity with
  | none => some r
  | some severity =>
    let d := { d with severity := severity }
    if mustDeliver cfg d then
      some { r with perCode := r.bump d.code, all := r.all ++ [d] }
    else if r.hitCap then r.noteCapDrop cfg
    else if r.isRecentDuplicate cfg d then r.noteElision cfg d .dedupWindow
    else if cfg.maxPerCode ≤ r.perCode d.code then r.noteElision cfg d .perCodeCap
    else if cfg.maxDiagnostics ≤ r.all.length then
      let r : Reporter := { r with
        hitCap := true
        capMarkerIndex := r.all.length
        all := r.all ++ [{
          code := .tooManyDiagnostics, severity := .error, delivery := .guaranteed
          buffer := d.buffer, span := d.span }] }
      r.noteCapDrop cfg
    else
      some { r with
        perCode := r.bump d.code
        recent := pushRecent cfg r.recent (hashKey cfg.codes d)
        all := r.all ++ [d] }

def Reporter.announceRefusedErrorSuppression (r : Reporter) (code : DiagnosticCode) :
    Option Reporter :=
  let name := cfg.codes.name code
  let lead := "--suppress=" ++ name ++ " had no effect"
  if r.all.any fun e => e.code = .suppressRequestIgnored && lead.isPrefixOf e.actual then some r
  else r.deliver cfg {
    code := .suppressRequestIgnored
    severity := .warning
    actual := lead ++ " on an ERROR: " ++ name ++ " stops the build whether or not it is " ++
      "reported, so --suppress silences warnings and notes only, and this error is reported as " ++
      "usual. Use --suppress=D_SuppressRequestIgnored to silence this notice." }

def Reporter.report (r : Reporter) (d : ParseDiagnostic) : Option Reporter :=
  if d.severity = .error ∧ !cfg.codes.isUnsuppressable d.code ∧ cfg.suppress d.code then
    (r.announceRefusedErrorSuppression cfg d.code).bind fun r => r.deliver cfg d
  else r.deliver cfg d

/-- What a rollback needs. -/
structure Reporter.Snapshot where
  allSize : ℕ
  perCode : DiagnosticCode → ℕ
  recent : List UInt64
  hitCap : Bool
  droppedByCap : ℕ
  capMarkerIndex : ℕ
  elided : List (DiagnosticCode × ElisionLedger)

def Reporter.snapshotForRollback (r : Reporter) : Reporter.Snapshot :=
  ⟨r.all.length, r.perCode, r.recent, r.hitCap, r.droppedByCap, r.capMarkerIndex, r.elided⟩

/-- Go back to a snapshot: cut the stream, take the counts and the ledgers over, and write the
markers again. -/
def Reporter.truncateTo (r : Reporter) (snap : Reporter.Snapshot) : Option Reporter :=
  let r : Reporter := {
    all := if snap.allSize < r.all.length then r.all.take snap.allSize else r.all
    perCode := snap.perCode, recent := snap.recent, hitCap := snap.hitCap
    droppedByCap := snap.droppedByCap, capMarkerIndex := snap.capMarkerIndex
    elided := snap.elided }
  (if r.hitCap then r.rewriteCapMarker cfg else some r).bind fun r =>
    snap.elided.foldlM (fun r e => r.rewriteElisionMarker cfg e.1) r

end

end DssPrime.Parse
