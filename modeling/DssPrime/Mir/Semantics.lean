import DssPrime.Mir.Basic

/-!
# Running a function

The meaning of a function is a deterministic step function over a `Machine`: what values and
the world outside the registers are, and what one operation does to them.  Everything the
module cannot know — the environment, other threads, callees, the choice of addresses — is
part of the machine's world, so that "every execution" is "every machine and every world".

Only blocks whose address is taken have a label, and only the address of a labelled block can be
jumped to.  The phis of a block are assigned together when the block is entered, from the
registers as they were before the jump.  A stack slot of fixed size is one slot per activation:
executing its `alloca` again yields the same slot.
-/

namespace DssPrime

/-- An instruction without its place in the module: all that one execution of it depends on
besides its operand values and the world. -/
structure Operation where
  opcode : MirOpcode
  flags : MirInstFlags
  typeId : ℕ
  operandTypes : List ℕ
  /-- Opcode-specific data; the pool index of a constant is replaced by the constant. -/
  payload : ℕ
  payload2 : ℕ
  literal : Option MirLiteralValue

/-- The flags say something about an execution; they do not for constants, arguments, addresses
of globals and the ends of exception regions. -/
def flagsMatter : MirOpcode → Bool
  | .const | .arg | .globalAddr | .sehTryBegin | .sehFilterReturn => false
  | _ => true

/-- The second payload says something about an execution: not for the instructions that have a
constructor of their own, which does not take one. -/
def hasPayload2 : MirOpcode → Bool
  | .const | .arg | .globalAddr | .inlineAsm | .inlineAsmGoto | .sehTryBegin
  | .sehFilterReturn => false
  | _ => true

def MirData.operation (m : MirData) (i : ℕ) : Operation where
  opcode := m.instOpcode i
  flags := if flagsMatter (m.instOpcode i) then m.instFlags i else default
  typeId := if isTerminator (m.instOpcode i) then 0 else m.instType i
  operandTypes := (m.instOperands i).map m.instType
  payload := if m.instOpcode i = .const then 0 else m.instPayload i
  payload2 := if hasPayload2 (m.instOpcode i) then (m.inst i).payload2 else 0
  literal := if m.instOpcode i = .const then some (m.literals.getD (m.instPayload i) default)
    else none

/-- What comes of executing something: it completes, it faults (or is undefined), or control
never comes back. -/
inductive Exec (α W : Type) where
  | ok (result : α) (world : W)
  | fault (world : W)
  | halt (world : W)

/-- What the instructions do. -/
structure Machine where
  Val : Type
  World : Type
  exec : Operation → List Val → World → Exec (Option Val) World
  /-- Which successor a terminator takes whose choice the machine makes (exception regions,
  assembly with labels). -/
  pick : Operation → List Val → World → Exec ℕ World
  truth : Val → Bool
  /-- Equality of values, as `switch` and `indirectBr` compare them. -/
  same : Val → Val → Bool
  codeAddr : ℕ → Val

abbrev Env (M : Machine) : Type := ℕ → Option M.Val

/-- The state of an activation: about to execute instruction number `idx` of `block`. -/
structure State (M : Machine) where
  env : Env M
  block : ℕ
  idx : ℕ
  world : M.World

/-- What one step leads to.  A `stuck` program has no meaning: it reads a register that is not
set, or jumps to an address that is none of the listed targets. -/
inductive Result (M : Machine) where
  | running (s : State M)
  | returned (values : List M.Val) (world : M.World)
  | fault (world : M.World)
  | halted (world : M.World)
  | stuck

section

variable (m : MirData) {M : Machine}

def operandValues (env : Env M) (i : ℕ) : Option (List M.Val) := (m.instOperands i).mapM env

def phiValue (env : Env M) (pred i : ℕ) : Option M.Val :=
  ((m.phiIncomings i).find? fun inc => inc.pred = pred).bind fun inc => env inc.value

def IsPhiOf (b i : ℕ) : Prop := i ∈ m.blockInsts b ∧ m.instOpcode i = .phi

instance (b i : ℕ) : Decidable (IsPhiOf m b i) := inferInstanceAs (Decidable (_ ∧ _))

def enterBlock (env : Env M) (pred b : ℕ) : Env M :=
  fun i => if IsPhiOf m b i then phiValue m env pred i else env i

def goto (s : State M) (w : M.World) (k : ℕ) : Result M :=
  match (m.blockSuccessors s.block)[k]? with
  | none => .stuck
  | some b => .running ⟨enterBlock m s.env s.block b, b, 0, w⟩

/-- Continue a step with the outcome of an execution. -/
def Exec.andThen {α : Type} (e : Exec α M.World) (k : α → M.World → Result M) : Result M :=
  match e with
  | .ok a w => k a w
  | .fault w => .fault w
  | .halt w => .halted w

variable (label : ℕ → Option ℕ)

def IsAddressOf (v : M.Val) (b : ℕ) : Bool := (label b).any fun l => M.same v (M.codeAddr l)

def terminate (s : State M) (i : ℕ) (vs : List M.Val) : Result M :=
  match m.instOpcode i, vs with
  | .br, _ => goto m s s.world 0
  | .condBr, v :: _ => goto m s s.world (if M.truth v then 0 else 1)
  -- the default is the last successor, where the search for a case ends up
  | .switch, v :: cases => goto m s s.world (cases.findIdx (M.same v))
  | .ret, vs => .returned vs s.world
  | .unreachable, _ => .fault s.world
  | .indirectBr, v :: _ =>
    match (m.blockSuccessors s.block).findIdx? (IsAddressOf label v) with
    | some k => goto m s s.world k
    | none => .stuck
  | .sehTryBegin, vs | .sehFilterReturn, vs | .inlineAsmGoto, vs =>
    (M.pick (m.operation i) vs s.world).andThen fun k w => goto m s w k
  | _, _ => .stuck

def State.assign (s : State M) (i : ℕ) (v : Option M.Val) (w : M.World) : State M :=
  ⟨Function.update s.env i v, s.block, s.idx + 1, w⟩

/-- A fixed stack slot that this activation already has. -/
def IsOldSlot (env : Env M) (i : ℕ) : Prop :=
  m.instOpcode i = .alloca ∧ m.instOperands i = [] ∧ (env i).isSome

instance (env : Env M) (i : ℕ) : Decidable (IsOldSlot m env i) :=
  inferInstanceAs (Decidable (_ ∧ _))

def stepInst (s : State M) (i : ℕ) : Result M :=
  -- phis were assigned on the edge into the block
  if m.instOpcode i = .phi ∨ IsOldSlot m s.env i then .running { s with idx := s.idx + 1 }
  else if m.instOpcode i = .blockAddress then
    match label (m.blockAddressTarget i) with
    | none => .stuck
    | some l => .running (s.assign i (some (M.codeAddr l)) s.world)
  else match operandValues m s.env i with
    | none => .stuck
    | some vs =>
      if isTerminator (m.instOpcode i) then terminate m label s i vs
      else (M.exec (m.operation i) vs s.world).andThen fun v w => .running (s.assign i v w)

def step (s : State M) : Result M :=
  if s.idx < m.blockInstCount s.block then
    stepInst m label s (m.blockInstAt s.block s.idx)
  else .stuck

def State.start (f : ℕ) (w : M.World) : State M := ⟨fun _ => none, m.funcEntry f, 0, w⟩

def Steps (s s' : State M) : Prop := step m label s = .running s'

def Reachable (f : ℕ) (w : M.World) : State M → Prop :=
  Relation.ReflTransGen (Steps m label) (State.start m f w)

end

section

variable {m : MirData} {M : Machine} {label : ℕ → Option ℕ} {s s' : State M}

theorem State.assign_env (s : State M) (i : ℕ) (v : Option M.Val) (w : M.World) (j : ℕ) :
    (s.assign i v w).env j = if j = i then v else s.env j :=
  Function.update_apply s.env i v j

theorem goto_eq_running {w : M.World} {k : ℕ} (h : goto m s w k = .running s') :
    ∃ b ∈ m.blockSuccessors s.block,
      s' = ⟨enterBlock m s.env s.block b, b, 0, w⟩ := by
  unfold goto at h
  split at h
  · simp at h
  · rename_i b hb
    exact ⟨b, List.mem_of_getElem? hb, by simpa using h.symm⟩

theorem andThen_eq_running {α : Type} {e : Exec α M.World} {k : α → M.World → Result M}
    (h : e.andThen k = .running s') : ∃ a w, e = .ok a w ∧ k a w = .running s' := by
  cases e with
  | ok a w => exact ⟨a, w, rfl, h⟩
  | fault w => simp [Exec.andThen] at h
  | halt w => simp [Exec.andThen] at h

theorem terminate_eq_running {i : ℕ} {vs : List M.Val}
    (h : terminate m label s i vs = .running s') :
    ∃ b ∈ m.blockSuccessors s.block, ∃ w,
      s' = ⟨enterBlock m s.env s.block b, b, 0, w⟩ ∧
      (w = s.world ∨ (m.instOpcode i = .sehTryBegin ∨ m.instOpcode i = .sehFilterReturn ∨
        m.instOpcode i = .inlineAsmGoto) ∧ ∃ k, M.pick (m.operation i) vs s.world = .ok k w) := by
  have plain : ∀ k, goto m s s.world k = .running s' → ∃ b ∈ m.blockSuccessors s.block, ∃ w,
      s' = ⟨enterBlock m s.env s.block b, b, 0, w⟩ ∧
      (w = s.world ∨ (m.instOpcode i = .sehTryBegin ∨ m.instOpcode i = .sehFilterReturn ∨
        m.instOpcode i = .inlineAsmGoto) ∧
        ∃ k, M.pick (m.operation i) vs s.world = .ok k w) := by
    intro k hk
    obtain ⟨b, hb, hs⟩ := goto_eq_running hk
    exact ⟨b, hb, s.world, hs, .inl rfl⟩
  unfold terminate at h
  split at h
  · exact plain _ h
  · exact plain _ h
  · exact plain _ h
  · simp at h
  · simp at h
  · split at h
    · exact plain _ h
    · simp at h
  all_goals try simp at h
  all_goals
    rename_i hop
    obtain ⟨k, w, hp, hg⟩ := andThen_eq_running h
    obtain ⟨b, hb, hs⟩ := goto_eq_running hg
    exact ⟨b, hb, w, hs, .inr ⟨by simp [hop], k, hp⟩⟩

/-- **What one step can do**: skip a phi or a slot the activation already has, take the address
of a block, execute an operation, or take an edge. -/
theorem step_cases (h : step m label s = .running s') :
    ∃ i, i = m.blockInstAt s.block s.idx ∧ s.idx < m.blockInstCount s.block ∧
      ((m.instOpcode i = .phi ∨ IsOldSlot m s.env i) ∧ s' = { s with idx := s.idx + 1 } ∨
       m.instOpcode i = .blockAddress ∧ (∃ l, label (m.blockAddressTarget i) = some l ∧
        s' = s.assign i (some (M.codeAddr l)) s.world) ∨
       (∃ vs v w, m.instOpcode i ≠ .phi ∧ m.instOpcode i ≠ .blockAddress ∧
        isTerminator (m.instOpcode i) = false ∧ ¬ IsOldSlot m s.env i ∧
        operandValues m s.env i = some vs ∧
        M.exec (m.operation i) vs s.world = .ok v w ∧ s' = s.assign i v w) ∨
       (∃ vs, isTerminator (m.instOpcode i) = true ∧ operandValues m s.env i = some vs ∧
        terminate m label s i vs = .running s')) := by
  unfold step at h
  split_ifs at h with hidx
  refine ⟨_, rfl, hidx, ?_⟩
  unfold stepInst at h
  split_ifs at h with hphi haddr hterm
  · exact .inl ⟨hphi, by simpa using h.symm⟩
  · split at h
    · simp at h
    · rename_i l hl
      exact .inr (.inl ⟨haddr, l, hl, by simpa using h.symm⟩)
  · split at h
    · simp at h
    · rename_i vs hvs
      exact .inr (.inr (.inr ⟨vs, hterm, hvs, h⟩))
  · rw [not_or] at hphi
    split at h
    · simp at h
    · rename_i vs hvs
      obtain ⟨v, w, hex, hs⟩ := andThen_eq_running h
      exact .inr (.inr (.inl ⟨vs, v, w, hphi.1, haddr, by simpa using hterm, hphi.2, hvs, hex,
        by simpa using hs.symm⟩))

theorem mapM_env_eq_some {env : Env M} {os : List ℕ} {vs : List M.Val} :
    os.mapM env = some vs ↔ List.Forall₂ (fun o v => env o = some v) os vs := by
  induction os generalizing vs with
  | nil => simp [eq_comm]
  | cons o os ih =>
    simp only [List.mapM_cons, Option.bind_eq_bind, Option.bind_eq_some_iff,
      Option.pure_def, Option.some.injEq, List.forall₂_cons_left_iff]
    constructor
    · rintro ⟨v, hv, vs', hvs, rfl⟩
      exact ⟨v, vs', hv, ih.1 hvs, rfl⟩
    · rintro ⟨v, vs', hv, hvs, rfl⟩
      exact ⟨v, hv, vs', ih.2 hvs, rfl⟩

theorem operandValues_getElem? {env : Env M} {i : ℕ} {vs : List M.Val}
    (h : operandValues m env i = some vs) {k : ℕ} {v : M.Val} (hk : vs[k]? = some v) :
    ∃ o, (m.instOperands i)[k]? = some o ∧ env o = some v := by
  have hall := mapM_env_eq_some.1 h
  clear h
  generalize m.instOperands i = os at hall ⊢
  induction hall generalizing k with
  | nil => simp at hk
  | cons hov _ ih =>
    cases k with
    | zero =>
      obtain rfl : _ = v := by simpa using hk
      exact ⟨_, rfl, hov⟩
    | succ k => exact ih (by simpa using hk)

end

end DssPrime
