import Mathlib
import DssPrime.Parse.Reporter
import DssPrime.Run.Trail

/-!
# The tree builder

`TreeBuilder` of `tree_builder.cpp` with its `SchemaWalker`: the parser opens and closes frames,
pushes tokens, errors and scopes, and may take a checkpoint, try a branch, and commit it or roll it
back. The builder keeps no copy of itself for that: its stacks and sets have undo trails, a write to
a node that is older than the innermost checkpoint is logged, and a checkpoint holds marks.

What the grammar says of rules and lexemes is a parameter, and so are the source and the
configuration.  `none` is an abort of the program; sizes are not bounded, and the counters of
cookies and of checkpoints have 32 bits.
-/

namespace DssPrime.Parse

abbrev NodeFlags := UInt8

def NodeFlags.emptySpace : NodeFlags := 1

def NodeFlags.hasError : NodeFlags := 4

def NodeFlags.implied : NodeFlags := 16

def NodeFlags.has (v bit : NodeFlags) : Bool := v &&& bit ≠ 0

inductive NodeKind where
  | internal | token | error
  deriving DecidableEq

structure Node where
  kind : NodeKind := .internal
  flags : NodeFlags := 0
  tokenKind : ℕ := 0
  rule : ℕ := 0
  span : SourceSpan := .empty 0
  parent : ℕ := 0
  firstChild : ℕ := 0
  childCount : ℕ := 0
  deriving DecidableEq, Inhabited

structure SchemaCursor where
  rule : ℕ := 0
  posId : ℕ := 0

def SchemaCursor.valid (c : SchemaCursor) : Bool := c.rule ≠ 0 && c.posId ≠ 0

structure ScopeMatch where
  forbid : List ScopeKind := []
  topMustBe : Option ScopeKind := Option.none
  outermost : Option ScopeKind := Option.none
  anyOf : List ScopeKind := []

structure LexemeMeaning where
  id : ℕ := 0
  priority : ℤ := 0
  flagsApplied : NodeFlags := 0
  opensScope : ScopeKind := .none
  closesScope : Bool := false
  contextual : Bool := false
  scopeRequire : ScopeMatch := {}
  deriving Inhabited

/-- What the grammar says of tokens and rules. -/
structure GrammarSchema where
  lookupLexeme : String → List LexemeMeaning
  isTokenValidInScope : ℕ → List ScopeKind → Bool
  isModeIntroducedKind : ℕ → Bool
  declaresLexemeToken : ℕ → Bool
  isEmptySpace : ℕ → Bool
  tokenName : ℕ → String
  ruleName : ℕ → String
  bodyDefaultTokenKinds : List ℕ
  endOfInputImplies : String
  errorKind : ℕ
  identifierKind : ℕ
  routeToRuleLeaf : SchemaCursor → ℕ → SchemaCursor
  isAutoInternedWrapperRule : ℕ → Bool
  enterRule : ℕ → SchemaCursor
  leaveRule : SchemaCursor → SchemaCursor
  advance : SchemaCursor → ℕ → SchemaCursor
  expectedSet : SchemaCursor → List ℕ

structure WalkerFrame where
  parent : SchemaCursor := {}
  isWrap : Bool := false
  wrapsAtAndBelow : ℕ := 0
  deriving Inhabited

/-- The walker of the schema. -/
structure Walker where
  cursor : SchemaCursor
  frames : TrailedStack WalkerFrame
  wrapDepth : ℕ
  cursorDesynced : Bool
  liveMarks : ℕ

structure Walker.Snapshot where
  mark : TrailedStack.Mark
  cursor : SchemaCursor
  wrapDepth : ℕ
  cursorDesynced : Bool

namespace Walker

def start : Walker := ⟨{}, .empty, 0, false, 0⟩

def stackWrapDepth (w : Walker) : ℕ :=
  match w.frames.v.getLast? with
  | none => 0
  | some fr => fr.wrapsAtAndBelow

/-- Note that the place was lost, once, and not inside a wrapper; true when it is to be reported. -/
def noteDesync (w : Walker) (wasValid nowValid : Bool) : Walker × Bool :=
  if w.cursorDesynced then (w, false)
  else if !(wasValid && !nowValid) then (w, false)
  else if 0 < w.wrapDepth then (w, false)
  else ({ w with cursorDesynced := true }, true)

def enterRule (schema : GrammarSchema) (w : Walker) (rule : ℕ) : Option Walker :=
  if rule = 0 then none
  else
    let routed := schema.routeToRuleLeaf w.cursor rule
    let savedParent := if w.cursor.valid && routed.valid then routed else w.cursor
    let isWrap := schema.isAutoInternedWrapperRule rule
    some { w with
      frames := w.frames.push ⟨savedParent, isWrap, w.stackWrapDepth + if isWrap then 1 else 0⟩
      wrapDepth := if isWrap then w.wrapDepth + 1 else w.wrapDepth
      cursor := schema.enterRule rule }

def leaveRule (schema : GrammarSchema) (w : Walker) : Option (Walker × Bool) :=
  match w.frames.v.getLast? with
  | none => none
  | some leaving => w.frames.pop.map fun frames =>
    let w := { w with frames := frames }
    let unwrap (w : Walker) : Walker :=
      if leaving.isWrap then { w with wrapDepth := w.wrapDepth - 1 } else w
    if !leaving.parent.valid then (unwrap { w with cursor := {} }, false)
    else
      let w := { w with cursor := schema.leaveRule leaving.parent }
      let noted := w.noteDesync true w.cursor.valid
      (unwrap noted.1, noted.2)

/-- Step over a token; true when the place is lost now. -/
def advance (schema : GrammarSchema) (w : Walker) (tok : ℕ) : Walker × Bool :=
  let wasValid := w.cursor.valid
  let w := { w with cursor := schema.advance w.cursor tok }
  w.noteDesync wasValid w.cursor.valid

/-- Retire a snapshot; the trail goes with the last one. -/
def releaseMark (w : Walker) : Option Walker :=
  if w.liveMarks = 0 then none
  else if w.liveMarks = 1 then
    some { w with liveMarks := 0, frames := w.frames.discardJournal }
  else some { w with liveMarks := w.liveMarks - 1 }

def releaseMarks : ℕ → Walker → Option Walker
  | 0, w => some w
  | n + 1, w => w.releaseMark.bind (releaseMarks n)

/-- Take a snapshot; the counts of wrappers must agree. -/
def snapshot (w : Walker) : Option (Walker.Snapshot × Walker) :=
  if w.wrapDepth ≠ w.stackWrapDepth then none
  else some (⟨w.frames.markOf, w.cursor, w.wrapDepth, w.cursorDesynced⟩,
    { w with liveMarks := w.liveMarks + 1, frames := w.frames.arm })

def restore (w : Walker) (snap : Walker.Snapshot) : Option Walker :=
  (w.frames.rewindTo snap.mark).bind fun frames =>
    let w : Walker := { w with
      frames := frames, cursor := snap.cursor, wrapDepth := snap.wrapDepth
      cursorDesynced := snap.cursorDesynced }
    if w.wrapDepth ≠ w.stackWrapDepth then none else w.releaseMark

end Walker

/-- A node that is still open. -/
structure Frame where
  id : ℕ := 0
  rule : ℕ := 0
  openerSpan : SourceSpan := .empty 0
  /-- Where its children start among those that have no node yet. -/
  pendingStart : ℕ := 0
  cookie : ℕ := 0
  scopeDepth : ℕ := 0
  deriving Inhabited

/-- The marks of a checkpoint. -/
structure CheckpointSnapshot where
  nodesSize : ℕ
  childIndex : TrailedStack.Mark
  pendingChildren : TrailedStack.Mark
  openFrames : TrailedStack.Mark
  scopes : TrailedStack.Mark
  closedCookies : ℕ
  nodeWrites : ℕ
  walker : Walker.Snapshot
  nextCookie : ℕ
  maxSpeculationDepthReached : Bool
  reporterSnap : Reporter.Snapshot

/-- The state of the builder. -/
structure TreeBuilder where
  arena : List Node
  childIndex : TrailedStack ℕ
  pendingChildren : TrailedStack ℕ
  openFrames : TrailedStack Frame
  scopes : TrailedStack ScopeKind
  walker : Walker
  closedCookies : TrailedSet ℕ
  nodeWrites : TrailedWriteLog Node
  nextCookie : ℕ
  finished : Bool
  checkpointStack : List (ℕ × CheckpointSnapshot)
  nextCheckpointId : ℕ
  maxSpeculationDepthReached : Bool
  reporter : Reporter

structure Token where
  isWord : Bool := false
  isCoreTrivia : Bool := false
  flags : NodeFlags := 0
  /-- The kind the lexer found; zero when it found none. -/
  schemaKind : ℕ := 0
  span : SourceSpan := .empty 0

structure Source where
  id : ℕ
  slice : SourceSpan → String

/-- What the builder is given. -/
structure BuilderEnv where
  schema : GrammarSchema
  source : Option Source
  reporter : ReporterConfig
  maxSpeculationDepth : ℕ := 64

def BuilderEnv.buffer (env : BuilderEnv) : ℕ :=
  match env.source with
  | none => 0
  | some s => s.id

def TreeBuilder.start : TreeBuilder :=
  ⟨[{}], .empty, .empty, .empty, .empty, .start, .empty, .empty, 1, false, [], 1, false, {}⟩

/-- What can be seen of the builder: everything but the trails and the checkpoints. -/
structure Visible where
  arena : List Node
  childIndex : List ℕ
  pendingChildren : List ℕ
  openFrames : List Frame
  scopes : List ScopeKind
  cursor : SchemaCursor
  walkerFrames : List WalkerFrame
  wrapDepth : ℕ
  cursorDesynced : Bool
  closedCookies : Finset ℕ
  nextCookie : ℕ
  finished : Bool
  maxSpeculationDepthReached : Bool
  reporter : Reporter

def TreeBuilder.visible (b : TreeBuilder) : Visible :=
  ⟨b.arena, b.childIndex.v, b.pendingChildren.v, b.openFrames.v, b.scopes.v, b.walker.cursor,
    b.walker.frames.v, b.walker.wrapDepth, b.walker.cursorDesynced, b.closedCookies.s, b.nextCookie,
    b.finished, b.maxSpeculationDepthReached, b.reporter⟩

abbrev BuilderM := StateT TreeBuilder Option

def fatal {α : Type} : BuilderM α := fun _ => none

def doIf (p : Bool) (x : BuilderM Unit) : BuilderM Unit := if p then x else pure ()

def view : BuilderM Visible := fun b => some (b.visible, b)

section

variable (env : BuilderEnv)

def reportRaw (d : ParseDiagnostic) : BuilderM Unit := fun b =>
  (b.reporter.report env.reporter d).map fun r => ((), { b with reporter := r })

def emitDiagnostic (d : ParseDiagnostic) : BuilderM Unit := do
  let c ← view
  reportRaw env { d with scopeStack := c.scopes }

def addBuilderInvariant (actual : String) (span : SourceSpan) : BuilderM Unit :=
  emitDiagnostic env {
    code := .builderInvariant, severity := .error, buffer := env.buffer, span := span
    actual := actual }

def nodeAt (id : ℕ) : BuilderM Node := fun b =>
  if id = 0 then none else (b.arena[id]?).map fun n => (n, b)

def emit (n : Node) : BuilderM ℕ := fun b =>
  some (b.arena.length, { b with arena := b.arena ++ [n] })

def writeNew (id : ℕ) (n : Node) : BuilderM Unit := fun b =>
  if id = 0 ∨ b.arena.length ≤ id then none else some ((), { b with arena := b.arena.set id n })

def recordNodeWrite (b : TreeBuilder) (id : ℕ) (displaced : Node) : TrailedWriteLog Node :=
  match b.checkpointStack.getLast? with
  | none => b.nodeWrites
  | some top => if top.2.nodesSize ≤ id then b.nodeWrites else b.nodeWrites.record id displaced

def writeNode (id : ℕ) (n : Node) : BuilderM Unit := fun b =>
  if id = 0 then none
  else (b.arena[id]?).map fun old =>
    ((), { b with arena := b.arena.set id n, nodeWrites := recordNodeWrite b id old })

def pushChildIndex (id : ℕ) : BuilderM Unit := fun b =>
  some ((), { b with childIndex := b.childIndex.push id })

def pushPending (id : ℕ) : BuilderM Unit := fun b =>
  some ((), { b with pendingChildren := b.pendingChildren.push id })

def popPending : BuilderM Unit := fun b =>
  b.pendingChildren.pop.map fun s => ((), { b with pendingChildren := s })

def truncatePending (n : ℕ) : BuilderM Unit := fun b =>
  (b.pendingChildren.truncate n).map fun s => ((), { b with pendingChildren := s })

def pushFrame (fr : Frame) : BuilderM Unit := fun b =>
  some ((), { b with openFrames := b.openFrames.push fr })

def popFrame : BuilderM Unit := fun b =>
  b.openFrames.pop.map fun s => ((), { b with openFrames := s })

def assignFrame (fr : Frame) : BuilderM Unit := fun b =>
  (b.openFrames.assignBack fr).map fun s => ((), { b with openFrames := s })

def pushScopeKind (kind : ScopeKind) : BuilderM Unit := fun b =>
  some ((), { b with scopes := b.scopes.push kind })

def popScopes (n : ℕ) : BuilderM Unit := fun b =>
  (TrailedStack.popN n b.scopes).map fun s => ((), { b with scopes := s })

def insertCookie (cookie : ℕ) : BuilderM Unit := fun b =>
  some ((), { b with closedCookies := b.closedCookies.insert cookie })

def eraseCookie (cookie : ℕ) : BuilderM Bool := fun b =>
  some ((b.closedCookies.erase cookie).1,
    { b with closedCookies := (b.closedCookies.erase cookie).2 })

def mintCookie : BuilderM ℕ := fun b =>
  if b.nextCookie = 0 then none
  else some (b.nextCookie, { b with nextCookie := (b.nextCookie + 1) % 2 ^ 32 })

def walkerEnter (rule : ℕ) : BuilderM Unit := fun b =>
  (b.walker.enterRule env.schema rule).map fun w => ((), { b with walker := w })

/-- Move the walker out of a rule; true when it lost its place. -/
def walkerLeave : BuilderM Bool := fun b =>
  (b.walker.leaveRule env.schema).map fun p => (p.2, { b with walker := p.1 })

/-- Move the walker over a token; true when it lost its place. -/
def walkerAdvance (tok : ℕ) : BuilderM Bool := fun b =>
  let p := b.walker.advance env.schema tok
  some (p.2, { b with walker := p.1 })

def reportDesync (lost : Bool) (span : SourceSpan) (rule : ℕ) : BuilderM Unit :=
  if lost then emitDiagnostic env {
    code := .schemaCursorDesync, severity := .info, buffer := env.buffer, span := span
    ruleContext := some rule
    actual := "schema cursor went off-track; contextual keyword resolution will stay strict for " ++
      "the remainder of the build" }
  else pure ()

def emitAttached (n : Node) : BuilderM Unit := do
  let c ← view
  match c.openFrames.getLast? with
  | none => do
    let _ ← emit n
  | some fr => do
    let id ← emit { n with parent := fr.id }
    pushPending id

def Visible.topFramePendingChildren (c : Visible) : List ℕ :=
  match c.openFrames.getLast? with
  | none => []
  | some fr => c.pendingChildren.drop fr.pendingStart

def openerSpan (c : Visible) : BuilderM SourceSpan :=
  match c.topFramePendingChildren.getLast? with
  | none => pure (.empty 0)
  | some last => do
    let n ← nodeAt last
    pure (.empty n.span.stop)

def emitOpened (c : Visible) (n : Node) : BuilderM ℕ :=
  match c.openFrames.getLast? with
  | none => emit n
  | some fr => do
    let id ← emit { n with parent := fr.id }
    pushPending id
    pure id

def openRule (rule : ℕ) : BuilderM ℕ := do
  let c ← view
  let opener ← openerSpan c
  let id ← emitOpened c { kind := .internal, rule := rule, span := opener }
  let cookie ← mintCookie
  let c' ← view
  pushFrame {
    id := id, rule := rule, openerSpan := opener, pendingStart := c'.pendingChildren.length
    cookie := cookie, scopeDepth := c'.scopes.length }
  walkerEnter env rule
  pure cookie

def openFrame (rule : ℕ) : BuilderM ℕ := do
  let c ← view
  if c.finished then do
    addBuilderInvariant env "open() after finish()" (.empty 0)
    pure 0
  else openRule env rule

def adoptChild (child : ℕ) : BuilderM Unit := do
  let c ← view
  match c.openFrames.getLast? with
  | none => pushPending child
  | some wrapper => do
    pushPending child
    let n ← nodeAt child
    writeNode child { n with parent := wrapper.id }
    assignFrame { wrapper with openerSpan := .empty n.span.start }
    let w ← nodeAt wrapper.id
    writeNew wrapper.id { w with span := .empty n.span.start }

/-- Open a frame around the last child of the open node. -/
def wrapLastChildInFrame (rule : ℕ) : BuilderM ℕ := do
  let c ← view
  if c.finished then do
    addBuilderInvariant env "wrapLastChildInFrame() after finish()" (.empty 0)
    pure 0
  else match c.openFrames.getLast? with
    | none => do
      addBuilderInvariant env "wrapLastChildInFrame() with no open parent frame" (.empty 0)
      pure 0
    | some parent =>
      if c.pendingChildren.length = parent.pendingStart then do
        addBuilderInvariant env "wrapLastChildInFrame() requires at least one pending child"
          (.empty 0)
        pure 0
      else match c.pendingChildren.getLast? with
        | none => fatal
        | some child => do
          popPending
          let cookie ← openRule env rule
          adoptChild child
          pure cookie

def readChild (id : ℕ) (node : Node) (child : ℕ) : BuilderM Node :=
  if child = id then pure node else nodeAt child

def takeChild (id : ℕ) (node : Node) (child : ℕ) : BuilderM Node := do
  pushChildIndex child
  let n ← readChild id node child
  let node := if n.kind = .token && n.flags.has .emptySpace then node
    else { node with span := node.span.join n.span }
  pure (if n.flags.has .hasError then { node with flags := node.flags ||| .hasError } else node)

def closeTop (cookie : ℕ) : BuilderM Bool := do
  let c ← view
  match c.openFrames.getLast? with
  | none => fatal
  | some fr => do
    let node ← nodeAt fr.id
    let node ← (c.pendingChildren.drop fr.pendingStart).foldlM (takeChild fr.id) node
    truncatePending fr.pendingStart
    let node := { node with
      firstChild := c.childIndex.length
      childCount := c.pendingChildren.length - fr.pendingStart }
    writeNode fr.id node
    doIf (!node.flags.has .hasError && c.scopes.length ≠ fr.scopeDepth)
      (addBuilderInvariant env ("rule '" ++ env.schema.ruleName fr.rule ++
        "' closed cleanly with the scope stack at depth " ++ toString c.scopes.length ++
        ", not the depth " ++ toString fr.scopeDepth ++
        " it opened at — an opener and its closer in different rules") node.span)
    popScopes (c.scopes.length - fr.scopeDepth)
    doIf (fr.cookie ≠ cookie) (insertCookie fr.cookie)
    popFrame
    let lost ← walkerLeave env
    reportDesync env lost fr.openerSpan fr.rule
    pure (fr.cookie = cookie)

def closeUntil (cookie : ℕ) : ℕ → BuilderM Unit
  | 0 => fatal
  | fuel + 1 => do
    let isTarget ← closeTop env cookie
    let c ← view
    if isTarget || c.openFrames.isEmpty then pure () else closeUntil cookie fuel

def topSpan (c : Visible) (fr : Frame) : BuilderM SourceSpan :=
  match c.topFramePendingChildren.getLast? with
  | none => pure fr.openerSpan
  | some last => do
    let n ← nodeAt last
    pure n.span

def closeFrame (cookie : ℕ) : BuilderM Unit := do
  let wasClosed ← eraseCookie cookie
  let c ← view
  match c.openFrames.getLast? with
  | none => pure ()
  | some top =>
    if wasClosed then pure ()
    else match c.openFrames.reverse.find? (·.cookie = cookie) with
      | none => do
        let span ← topSpan c top
        addBuilderInvariant env ("close() with unknown cookie " ++ toString cookie) span
      | some fr => do
        doIf (top.cookie ≠ cookie) (addBuilderInvariant env
          "OpenScope closed out of LIFO order; cascading close" fr.openerSpan)
        closeUntil env cookie c.openFrames.length

def pushScope (kind : ScopeKind) : BuilderM Unit := do
  let c ← view
  if c.finished then addBuilderInvariant env "pushScope after finish()" (.empty 0)
  else pushScopeKind kind

def underflowSpan (c : Visible) : BuilderM SourceSpan :=
  match c.openFrames.getLast? with
  | none => pure (.empty 0)
  | some top => topSpan c top

def popScope : BuilderM Unit := do
  let c ← view
  if c.finished then addBuilderInvariant env "popScope after finish()" (.empty 0)
  else if c.scopes = [] then do
    let span ← underflowSpan c
    addBuilderInvariant env "popScope on empty scope stack" span
  else popScopes 1

structure ResolvedMeaning where
  meaning : LexemeMeaning := {}
  ambiguous : Bool := false
  matchCount : ℕ := 0

def meaningAllowedByScopeRequire (m : LexemeMeaning) (scopes : List ScopeKind) : Bool :=
  let sr := m.scopeRequire
  (sr.forbid.all fun f => !scopes.contains f) &&
  (match sr.topMustBe with
    | none => true
    | some k => scopes.getLast? = some k) &&
  (match sr.outermost with
    | none => true
    | some k => scopes.head? = some k) &&
  (sr.anyOf.isEmpty || sr.anyOf.any fun k => scopes.contains k)

def candidateAllowed (schema : GrammarSchema) (scopes : List ScopeKind) (m : LexemeMeaning) :
    Bool :=
  schema.isTokenValidInScope m.id scopes && meaningAllowedByScopeRequire m scopes

def makeSyntheticMeaning (schema : GrammarSchema) (preResolved : ℕ) (scopes : List ScopeKind) :
    Option ResolvedMeaning :=
  if !(schema.bodyDefaultTokenKinds.contains preResolved ||
      ["IntLiteral", "FloatLiteral", "StringLiteral", "CharLiteral"].contains
        (schema.tokenName preResolved) ||
      ["Whitespace", "Newline"].contains (schema.tokenName preResolved) ||
      schema.isModeIntroducedKind preResolved) then none
  else if !schema.isTokenValidInScope preResolved scopes then some {}
  else some ⟨{ id := preResolved }, false, 1⟩

def ambiguousWith (schema : GrammarSchema) (scopes : List ScopeKind) (m : LexemeMeaning)
    (rest : List LexemeMeaning) : Bool :=
  (rest.takeWhile fun m' => m'.priority = m.priority).any (candidateAllowed schema scopes)

def chooseMeaning (schema : GrammarSchema) (candidates : List LexemeMeaning)
    (scopes : List ScopeKind) (fits : LexemeMeaning → Bool) : Option ResolvedMeaning :=
  match candidates.findIdx? fun m => fits m && candidateAllowed schema scopes m with
  | none => none
  | some i =>
    let m := candidates.getD i default
    some ⟨m, ambiguousWith schema scopes m (candidates.drop (i + 1)),
      candidates.countP (candidateAllowed schema scopes)⟩

def resolveMeaning (schema : GrammarSchema) (lexeme : String) (scopes : List ScopeKind)
    (preResolved : ℕ) : Option ResolvedMeaning :=
  let candidates := schema.lookupLexeme lexeme
  if candidates.isEmpty then
    if preResolved ≠ 0 ∧ preResolved ≠ schema.errorKind then
      makeSyntheticMeaning schema preResolved scopes
    else some {}
  else
    match if preResolved = 0 then none
        else chooseMeaning schema candidates scopes (·.id = preResolved) with
    | some resolved => some resolved
    | none =>
      if preResolved ≠ 0 ∧ (!candidates.any (·.id = preResolved)) ∧
          preResolved ≠ schema.errorKind then
        makeSyntheticMeaning schema preResolved scopes
      else some ((chooseMeaning schema candidates scopes fun _ => true).getD {})

def isTriviaToken (schema : GrammarSchema) (tok : Token) : Bool :=
  if tok.schemaKind ≠ 0 && schema.declaresLexemeToken tok.schemaKind then
    schema.isEmptySpace tok.schemaKind
  else tok.isCoreTrivia || tok.flags.has .emptySpace

def demoteContextual (lexeme : String) (buffer : ℕ) (span : SourceSpan) (rule : ℕ)
    (m : LexemeMeaning) : BuilderM LexemeMeaning := do
  let c ← view
  if m.contextual && m.id = env.schema.identifierKind then fatal
  else if m.contextual && c.cursor.valid && !(env.schema.expectedSet c.cursor).contains m.id then do
    emitDiagnostic env {
      code := .contextualKeywordResolution, severity := .info, buffer := buffer, span := span
      ruleContext := some rule
      actual := "'" ++ lexeme ++ "' as Identifier (demoted from " ++ env.schema.tokenName m.id ++
        ")" }
    pure { id := env.schema.identifierKind }
  else pure m

def pushLeaf (tok : Token) (rule : ℕ) (m : LexemeMeaning) : BuilderM Unit := do
  doIf (m.opensScope ≠ .none) (pushScope env m.opensScope)
  doIf m.closesScope (popScope env)
  let flags := m.flagsApplied ||| tok.flags
  let flags := if isTriviaToken env.schema tok then flags ||| .emptySpace else flags
  emitAttached { kind := .token, tokenKind := m.id, flags := flags, span := tok.span }
  doIf (!(flags.has .emptySpace || env.schema.bodyDefaultTokenKinds.contains m.id)) do
    let lost ← walkerAdvance env m.id
    reportDesync env lost tok.span rule

def errorNode (span : SourceSpan) : Node := { kind := .error, flags := .hasError, span := span }

def pushToken (tok : Token) : BuilderM Unit := do
  let c ← view
  if c.finished then addBuilderInvariant env "pushToken after finish()" tok.span
  else match env.source with
    | none =>
      addBuilderInvariant env "pushToken called on a builder with null source buffer" tok.span
    | some source =>
      match c.openFrames.getLast? with
      | none =>
        addBuilderInvariant env "pushToken called with no open frame; token dropped" tok.span
      | some top =>
        if tok.flags.has .implied && env.schema.endOfInputImplies = "" then fatal
        else
          let lexeme := if tok.flags.has .implied then env.schema.endOfInputImplies
            else source.slice tok.span
          match resolveMeaning env.schema lexeme c.scopes tok.schemaKind with
          | none => fatal
          | some resolved => do
            let resolved := if resolved.matchCount = 0 && tok.isWord then
              ({ resolved with meaning := { id := env.schema.identifierKind }, matchCount := 1 } :
                ResolvedMeaning) else resolved
            if resolved.matchCount = 0 then do
              emitDiagnostic env {
                code := .unknownToken, severity := .error, buffer := source.id, span := tok.span
                actual := "'" ++ lexeme ++ "'", ruleContext := some top.rule }
              emitAttached (errorNode tok.span)
            else do
              doIf resolved.ambiguous (emitDiagnostic env {
                code := .ambiguousToken, severity := .warning, buffer := source.id
                span := tok.span, actual := "'" ++ lexeme ++ "'", ruleContext := some top.rule })
              let m ← demoteContextual env lexeme source.id tok.span top.rule resolved.meaning
              pushLeaf env tok top.rule m

def pushError (span : SourceSpan) (expectedRule expectedToken : Option ℕ) (note : String) :
    BuilderM Unit := do
  let c ← view
  if c.finished then addBuilderInvariant env "pushError after finish()" span
  else match c.openFrames.getLast? with
    | none =>
      addBuilderInvariant env "pushError called with no open frame; diagnostic dropped" span
    | some top => do
      emitDiagnostic env {
        code := .unexpectedToken, severity := .error, buffer := env.buffer, span := span
        expected := (expectedRule.map env.schema.ruleName).toList ++
          (expectedToken.map env.schema.tokenName).toList
        actual := note, ruleContext := some top.rule }
      emitAttached (errorNode span)

def pushErrorNode (span : SourceSpan) : BuilderM Unit := do
  let c ← view
  if c.finished then addBuilderInvariant env "pushErrorNode after finish()" span
  else match c.openFrames.getLast? with
    | none => addBuilderInvariant env "pushErrorNode called with no open frame; node dropped" span
    | some _ => emitAttached (errorNode span)

def reportDiagnostic (d : ParseDiagnostic) : BuilderM Unit := do
  let c ← view
  if c.finished then addBuilderInvariant env "reportDiagnostic() after finish()" d.span
  else emitDiagnostic env d

def ingestDiagnostics (diags : List ParseDiagnostic) : BuilderM Unit := do
  let c ← view
  if c.finished then addBuilderInvariant env "ingestDiagnostics() after finish()" (.empty 0)
  else diags.forM (reportRaw env)

inductive BuilderOp where
  | openFrame (rule : ℕ)
  | closeFrame (cookie : ℕ)
  | wrapLastChildInFrame (rule : ℕ)
  | pushToken (tok : Token)
  | pushError (span : SourceSpan) (expectedRule expectedToken : Option ℕ) (note : String)
  | pushErrorNode (span : SourceSpan)
  | pushScope (kind : ScopeKind)
  | popScope
  | reportDiagnostic (d : ParseDiagnostic)
  | ingestDiagnostics (diags : List ParseDiagnostic)

/-- Run an operation; the cookie it hands out is not kept. -/
def BuilderOp.run : BuilderOp → BuilderM Unit
  | .openFrame rule => do
    let _ ← Parse.openFrame env rule
  | .closeFrame cookie => Parse.closeFrame env cookie
  | .wrapLastChildInFrame rule => do
    let _ ← Parse.wrapLastChildInFrame env rule
  | .pushToken tok => Parse.pushToken env tok
  | .pushError span rule token note => Parse.pushError env span rule token note
  | .pushErrorNode span => Parse.pushErrorNode env span
  | .pushScope kind => Parse.pushScope env kind
  | .popScope => Parse.popScope env
  | .reportDiagnostic d => Parse.reportDiagnostic env d
  | .ingestDiagnostics diags => Parse.ingestDiagnostics env diags

def TreeBuilder.discardTrailsIfIdle (b : TreeBuilder) : TreeBuilder :=
  if b.checkpointStack ≠ [] then b
  else { b with
    pendingChildren := b.pendingChildren.discardJournal
    openFrames := b.openFrames.discardJournal
    scopes := b.scopes.discardJournal
    closedCookies := b.closedCookies.discardJournal
    nodeWrites := b.nodeWrites.discardJournal
    childIndex := b.childIndex.discardJournal }

/-- Take a checkpoint; its number, which is zero when there are too many and it does nothing. -/
def checkpoint : BuilderM ℕ := do
  let b ← get
  if env.maxSpeculationDepth ≤ b.checkpointStack.length then do
    doIf (!b.maxSpeculationDepthReached) do
      set { b with maxSpeculationDepthReached := true }
      emitDiagnostic env {
        code := .maxSpeculationDepth, severity := .error, buffer := env.buffer, span := .empty 0
        actual := "speculation depth cap (" ++ toString env.maxSpeculationDepth ++
          ") reached; further checkpoints are no-ops" }
    pure 0
  else match b.walker.snapshot with
    | none => fatal
    | some (walkerSnap, walker) => do
      let snap : CheckpointSnapshot := {
        nodesSize := b.arena.length
        childIndex := b.childIndex.markOf
        pendingChildren := b.pendingChildren.markOf
        openFrames := b.openFrames.markOf
        scopes := b.scopes.markOf
        closedCookies := b.closedCookies.journal.length
        nodeWrites := b.nodeWrites.journal.length
        walker := walkerSnap
        nextCookie := b.nextCookie
        maxSpeculationDepthReached := b.maxSpeculationDepthReached
        reporterSnap := b.reporter.snapshotForRollback }
      set { b with
        childIndex := b.childIndex.arm
        pendingChildren := b.pendingChildren.arm
        openFrames := b.openFrames.arm
        scopes := b.scopes.arm
        closedCookies := b.closedCookies.arm
        nodeWrites := b.nodeWrites.arm
        walker := walker
        checkpointStack := b.checkpointStack ++ [(b.nextCheckpointId, snap)]
        nextCheckpointId := (b.nextCheckpointId + 1) % 2 ^ 32 }
      pure b.nextCheckpointId

/-- The place of a checkpoint, found by bisection: the first whose number is not smaller. -/
def TreeBuilder.findCheckpoint (b : TreeBuilder) (id : ℕ) : Option ℕ :=
  match b.checkpointStack.findIdx? fun e => id ≤ e.1 with
  | none => none
  | some k => if (b.checkpointStack[k]?).map Prod.fst = some id then some k else none

end

section

variable (env : BuilderEnv)

/-- Commit a checkpoint: forget it, with those inside it. -/
def commitToId (id : ℕ) : BuilderM Unit := do
  if id = 0 then pure ()
  else
    let b ← get
    match b.findCheckpoint id with
    | none =>
      addBuilderInvariant env ("commit() with stale or unknown Checkpoint id " ++ toString id)
        (.empty 0)
    | some k => do
      doIf (k + 1 ≠ b.checkpointStack.length)
        (addBuilderInvariant env ("commit() on outer Checkpoint while inner Checkpoint is still " ++
          "Pending; inner speculative state will be cascade-discarded") (.empty 0))
      let b ← get
      match Walker.releaseMarks (b.checkpointStack.length - k) b.walker with
      | none => fatal
      | some walker =>
        set ({ b with checkpointStack := b.checkpointStack.take k, walker := walker } :
          TreeBuilder).discardTrailsIfIdle

def TreeBuilder.rewind (b : TreeBuilder) (snap : CheckpointSnapshot) : Option TreeBuilder :=
  (b.nodeWrites.rewindTo snap.nodeWrites b.arena).bind fun nodes =>
  if snap.nodesSize < 1 ∨ nodes.2.length < snap.nodesSize then none else
  (b.childIndex.rewindTo snap.childIndex).bind fun childIndex =>
  (b.pendingChildren.rewindTo snap.pendingChildren).bind fun pendingChildren =>
  (b.openFrames.rewindTo snap.openFrames).bind fun openFrames =>
  (b.scopes.rewindTo snap.scopes).bind fun scopes =>
  (b.walker.restore snap.walker).bind fun walker =>
  (b.closedCookies.rewindTo snap.closedCookies).bind fun closedCookies =>
  (b.reporter.truncateTo env.reporter snap.reporterSnap).bind fun reporter =>
  some ({ b with
    nodeWrites := nodes.1, arena := nodes.2.take snap.nodesSize, childIndex := childIndex
    pendingChildren := pendingChildren, openFrames := openFrames, scopes := scopes
    walker := walker, nextCookie := snap.nextCookie, closedCookies := closedCookies
    maxSpeculationDepthReached := snap.maxSpeculationDepthReached
    reporter := reporter } : TreeBuilder).discardTrailsIfIdle

/-- Roll a checkpoint back: forget it, with those inside it, and rewind the builder. -/
def rollbackToId (id : ℕ) : BuilderM Unit := do
  if id = 0 then pure ()
  else
    let b ← get
    match b.findCheckpoint id with
    | none =>
      addBuilderInvariant env ("rollback() with stale or unknown Checkpoint id " ++ toString id)
        (.empty 0)
    | some k =>
      match b.checkpointStack[k]?, Walker.releaseMarks (b.checkpointStack.length - (k + 1)) b.walker
          with
      | some entry, some walker =>
        match TreeBuilder.rewind env
            { b with checkpointStack := b.checkpointStack.take k, walker := walker } entry.2 with
        | none => fatal
        | some b => set b
      | _, _ => fatal

end

end DssPrime.Parse
