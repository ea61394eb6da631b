import DssPrime.Mir.Basic

/-!
# The call graph of a module and the inliner's gate

The model of `call_graph_scc.cpp` and of the part of `inlining.cpp` that reads it: the graph of the
direct calls between the functions of a module (`buildCallGraph`), its strongly connected components
by an iterative Tarjan walk (`tarjan`), and the gate that decides whether a call is inlined
(`inlineLegalityGate`), whose third rule refuses a call inside a component.

Frames of the walk, like its stack, are lists with the top first.
-/

namespace DssPrime

/-- Functions and the calls between them. -/
structure CallGraph where
  nodes : List ℕ
  succ : List (ℕ × List ℕ)

def CallGraph.edges (g : CallGraph) (v : ℕ) : List ℕ := (g.succ.lookup v).getD []

def funcInsts (mir : Mir) (f : ℕ) : List ℕ := (mir.funcBlocks f).flatMap fun b => mir.blockInsts b

/-- The state of the walk. -/
structure Tarjan where
  index : ℕ → Option ℕ
  lowlink : ℕ → ℕ
  onStack : ℕ → Bool
  sccStack : List ℕ
  nextIndex : ℕ
  nextScc : ℕ
  sccOf : ℕ → Option ℕ
  /-- The frames: a node and the position of its next edge. -/
  dfs : List (ℕ × ℕ)

namespace Tarjan

def start : Tarjan := ⟨fun _ => none, fun _ => 0, fun _ => false, [], 0, 0, fun _ => none, []⟩

def discover (st : Tarjan) (w : ℕ) : Tarjan :=
  { st with
    index := Function.update st.index w (some st.nextIndex)
    lowlink := Function.update st.lowlink w st.nextIndex
    nextIndex := st.nextIndex + 1
    sccStack := w :: st.sccStack
    onStack := Function.update st.onStack w true
    dfs := (w, 0) :: st.dfs }

def lower (st : Tarjan) (v i : ℕ) : Tarjan :=
  { st with lowlink := Function.update st.lowlink v (min (st.lowlink v) i) }

def idx (st : Tarjan) (v : ℕ) : ℕ := (st.index v).getD 0

def popUntil (v c : ℕ) : List ℕ → (ℕ → Bool) → (ℕ → Option ℕ) →
    List ℕ × (ℕ → Bool) × (ℕ → Option ℕ)
  | [], onStack, sccOf => ([], onStack, sccOf)
  | m :: stack, onStack, sccOf =>
    let onStack := Function.update onStack m false
    let sccOf := Function.update sccOf m (some c)
    if m = v then (stack, onStack, sccOf) else popUntil v c stack onStack sccOf

def popComponent (st : Tarjan) (v : ℕ) : Tarjan :=
  let (stack, onStack, sccOf) := popUntil v st.nextScc st.sccStack st.onStack st.sccOf
  { st with sccStack := stack, onStack := onStack, sccOf := sccOf, nextScc := st.nextScc + 1 }

def finish (st : Tarjan) (v : ℕ) (rest : List (ℕ × ℕ)) : Tarjan :=
  let st := if st.lowlink v = st.idx v then st.popComponent v else st
  let st := { st with dfs := rest }
  match rest with
  | [] => st
  | (parent, _) :: _ => st.lower parent (st.lowlink v)

def step (g : CallGraph) (st : Tarjan) : Tarjan :=
  match st.dfs with
  | [] => st
  | (v, k) :: rest =>
    match (g.edges v)[k]? with
    | some w =>
      let st := { st with dfs := (v, k + 1) :: rest }
      if st.index w = none then st.discover w
      else if st.onStack w then st.lower v (st.idx w)
      else st
    | none => st.finish v rest

/-- Turns until no frame is left, at most `fuel`. -/
def drain (g : CallGraph) : ℕ → Tarjan → Tarjan
  | 0, st => st
  | fuel + 1, st => if st.dfs = [] then st else drain g fuel (st.step g)

end Tarjan

def CallGraph.universe (g : CallGraph) : Finset ℕ :=
  (g.nodes ++ g.succ.flatMap Prod.snd).toFinset

def CallGraph.turns (g : CallGraph) : ℕ := ∑ v ∈ g.universe, ((g.edges v).length + 2)

def Tarjan.visit (g : CallGraph) (st : Tarjan) (root : ℕ) : Tarjan :=
  if st.index root = none then drain g g.turns (st.discover root) else st

def tarjan (g : CallGraph) : ℕ → Option ℕ := (g.nodes.foldl (Tarjan.visit g) .start).sccOf

end DssPrime
