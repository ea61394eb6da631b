import DssPrime.Opt.PathCompress

/-!
# Simplifying the control flow

A block that only branches on is a trampoline, and jump threading skips it: the map of the
trampolines is made free of cycles first (`breakJumpThreadCycles`), then compressed.
-/

namespace DssPrime.SimplifyCfg

def passName : String := "SimplifyCfg"

/-- How far the search is with a block. -/
inductive Mark where
  | unvisited | onWalk | settled
  deriving DecidableEq

/-- The position of a block in the reverse post-order. -/
def rank (rpo : List ℕ) (b : ℕ) : Except RebuildFatal ℕ :=
  match rpo.idxOf? b with
  | some r => .ok r
  | none => .error (.policy passName b)

/-- The block of a cycle that survives: the first one in reverse post-order. -/
def earlier (rpo : List ℕ) (survivor b : ℕ) : Except RebuildFatal ℕ := do
  return if (← rank rpo b) < (← rank rpo survivor) then b else survivor

/-- Follow the map from `v`, marking what is passed, until it leaves the map, meets a settled
block, or closes a cycle; a cycle is broken at its survivor.  `walk` holds the blocks of this walk,
latest first.  The loop has no cap; the fuel is one step per key. -/
def walkChain (rpo : List ℕ) : ℕ → RedirectMap → (ℕ → Mark) → List ℕ → ℕ →
    Except RebuildFatal (RedirectMap × (ℕ → Mark) × List ℕ)
  | 0, _, _, _, v => .error (.policy passName v)
  | fuel + 1, map, mark, walk, v =>
    match map.lookup v with
    | none => .ok (map, mark, walk)
    | some next =>
      match mark v with
      | .settled => .ok (map, mark, walk)
      | .onWalk =>
        if v ∈ walk then do
          let survivor ← (walk.takeWhile (· ≠ v)).reverse.foldlM (earlier rpo) v
          return (map.erase survivor, mark, walk)
        else .error (.policy passName v)
      | .unvisited => walkChain rpo fuel map (Function.update mark v .onWalk) (v :: walk) next

def breakCyclesFrom (rpo : List ℕ) (st : RedirectMap × (ℕ → Mark)) (start : ℕ) :
    Except RebuildFatal (RedirectMap × (ℕ → Mark)) :=
  if (st.1.lookup start).isNone then .ok st
  else if st.2 start ≠ .unvisited then .ok st
  else do
    let (map, mark, walk) ← walkChain rpo (st.1.length + 1) st.1 st.2 [] start
    return (map, fun b => if b ∈ walk then .settled else mark b)

def breakJumpThreadCycles (rpo : List ℕ) (map : RedirectMap) : Except RebuildFatal RedirectMap := do
  let st ← rpo.foldlM (breakCyclesFrom rpo) (map, fun _ => .unvisited)
  return st.1

end DssPrime.SimplifyCfg
