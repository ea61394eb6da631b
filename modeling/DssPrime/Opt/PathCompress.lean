import DssPrime.Mir.Cfg

/-!
# Redirect maps

Several passes collect a map of redirections while they look at the source — a trampoline to its
target, a redundant instruction to the canonical one — and compress it before the rebuild, so that
one lookup is enough there.  Following a chain is capped by the size of the map; a longer chain is
a cycle, and an abort.

`pathCompressAndVerify_ok` : on a map without cycles the compression does not abort, and it sends
every key to the end of its chain.
-/

namespace DssPrime

inductive RebuildFatal where
  | outOfRange (id : ℕ)
  | absent (block : ℕ)
  | noRewriteEntry (operand : ℕ)
  | phiPredMissing (phi pred : ℕ)
  | zeroPhiIncomings (phi : ℕ)
  | blockAddressTarget (inst target redirected : ℕ)
  | successorMissing (inst target redirected : ℕ)
  | absorbCycle (block : ℕ)
  | noCloneArm (opcode : MirOpcode)
  | policy (passName : String) (id : ℕ)
  deriving DecidableEq

abbrev RedirectMap : Type := List (ℕ × ℕ)

namespace RedirectMap

def keys (map : RedirectMap) : List ℕ := map.map Prod.fst

def chase (map : RedirectMap) : ℕ → ℕ → Option ℕ
  | 0, _ => none
  | cap + 1, v =>
    match map.lookup v with
    | none => some v
    | some u => chase map cap u

def resolveTransitive (passName : String) (map : RedirectMap) (v : ℕ) : Except RebuildFatal ℕ :=
  match chase map (map.length + 1) v with
  | some t => .ok t
  | none => .error (.policy passName v)

def assign (map : RedirectMap) (k t : ℕ) : RedirectMap :=
  map.map fun e => if e.1 = k then (k, t) else e

def erase (map : RedirectMap) (k : ℕ) : RedirectMap := map.filter fun e => e.1 ≠ k

def compressEntry (passName : String) (map : RedirectMap) (k : ℕ) :
    Except RebuildFatal RedirectMap :=
  match map.lookup k with
  | none => .ok map
  | some u => do return map.assign k (← resolveTransitive passName map u)

def pathCompressAndVerify (passName : String) (map : RedirectMap) :
    Except RebuildFatal RedirectMap := do
  let out ← map.keys.foldlM (compressEntry passName) map
  if out.keys.all fun k => ((out.lookup k).bind fun t => out.lookup t).isNone then return out
  else .error (.policy passName 0)

/-- The chain of `v` goes through the keys `l` and ends in `t`. -/
inductive Chain (map : RedirectMap) : ℕ → List ℕ → ℕ → Prop
  | stop {v : ℕ} : map.lookup v = none → Chain map v [] v
  | step {v u t : ℕ} {l : List ℕ} : map.lookup v = some u → Chain map u l t →
      Chain map v (v :: l) t

def Leads (map : RedirectMap) (v t : ℕ) : Prop := ∃ l, Chain map v l t

def Acyclic (map : RedirectMap) : Prop := ∀ v, ∃ t, map.Leads v t

variable {map : RedirectMap} {v u t k : ℕ} {l : List ℕ}

theorem Chain.unique (h : Chain map v l t) : ∀ {l' t'}, Chain map v l' t' → l' = l ∧ t' = t := by
  induction h with
  | stop hv =>
    intro l' t' h'
    cases h' with
    | stop _ => exact ⟨rfl, rfl⟩
    | step hv' _ => rw [hv] at hv'; simp at hv'
  | step hv _ ih =>
    intro l' t' h'
    cases h' with
    | stop hv' => rw [hv] at hv'; simp at hv'
    | step hv' h' =>
      rw [hv] at hv'
      obtain rfl := Option.some.inj hv'
      obtain ⟨rfl, rfl⟩ := ih h'
      exact ⟨rfl, rfl⟩

theorem Chain.last (h : Chain map v l t) : map.lookup t = none := by
  induction h with
  | stop hv => exact hv
  | step _ _ ih => exact ih

theorem Chain.suffix (h : Chain map v l t) {a b : List ℕ} {x : ℕ} (hl : l = a ++ x :: b) :
    Chain map x (x :: b) t := by
  induction h generalizing a with
  | stop _ => simp at hl
  | step hv h ih =>
    cases a with
    | nil =>
      obtain ⟨rfl, rfl⟩ := List.cons.inj hl
      exact .step hv h
    | cons y a => exact ih (List.cons.inj hl).2

theorem Chain.nodup (h : Chain map v l t) : l.Nodup := by
  induction h with
  | stop _ => exact List.nodup_nil
  | @step v u t l hv h ih =>
    refine List.nodup_cons.2 ⟨fun hmem => ?_, ih⟩
    -- a key that comes back would have two chains of different lengths
    obtain ⟨a, b, hl⟩ := List.append_of_mem hmem
    have hlen := congrArg List.length ((Chain.step hv h).unique (h.suffix hl)).1
    rw [hl] at hlen
    simp only [List.length_cons, List.length_append] at hlen
    omega

theorem mem_keys : k ∈ map.keys ↔ ∃ u, map.lookup k = some u := by
  rw [keys, List.mem_map]
  constructor
  · rintro ⟨e, he, rfl⟩
    cases hl : map.lookup e.1 with
    | none =>
      rw [List.lookup_eq_none_iff] at hl
      simpa using hl e he
    | some u => exact ⟨u, rfl⟩
  · rintro ⟨u, hu⟩
    obtain ⟨l₁, l₂, rfl, -⟩ := List.lookup_eq_some_iff.1 hu
    exact ⟨(k, u), by simp, rfl⟩

theorem Chain.subset_keys (h : Chain map v l t) : l ⊆ map.keys := by
  induction h with
  | stop _ => exact List.nil_subset _
  | step hv _ ih => exact List.cons_subset.2 ⟨mem_keys.2 ⟨_, hv⟩, ih⟩

theorem Chain.length_le (h : Chain map v l t) : l.length ≤ map.length := by
  have := (h.nodup.subperm h.subset_keys).length_le
  simpa [keys] using this

theorem Chain.chase_eq (h : Chain map v l t) {cap : ℕ} (hcap : l.length < cap) :
    chase map cap v = some t := by
  induction h generalizing cap with
  | stop hv =>
    obtain ⟨cap, rfl⟩ := Nat.exists_eq_add_of_lt hcap
    simp [chase, hv]
  | step hv _ ih =>
    cases cap with
    | zero => simp at hcap
    | succ cap =>
      rw [chase, hv]
      exact ih (by simpa using hcap)

theorem Leads.resolveTransitive_eq (h : map.Leads v t) (passName : String) :
    resolveTransitive passName map v = .ok t := by
  obtain ⟨l, h⟩ := h
  unfold resolveTransitive
  rw [h.chase_eq (Nat.lt_succ_of_le h.length_le)]

theorem Leads.unique {t' : ℕ} (h : map.Leads v t) (h' : map.Leads v t') : t' = t := by
  obtain ⟨l, h⟩ := h
  obtain ⟨l', h'⟩ := h'
  exact (h.unique h').2

theorem Leads.last (h : map.Leads v t) : map.lookup t = none := by
  obtain ⟨l, h⟩ := h
  exact h.last

theorem Leads.stop (h : map.lookup v = none) : map.Leads v v := ⟨[], .stop h⟩

theorem Leads.step (h : map.lookup v = some u) (h' : map.Leads u t) : map.Leads v t := by
  obtain ⟨l, h'⟩ := h'
  exact ⟨v :: l, .step h h'⟩

theorem Leads.rec' {Q : ℕ → Prop} (h : map.Leads v t) (hstop : Q t)
    (hstep : ∀ v u, map.lookup v = some u → map.Leads u t → Q u → Q v) : Q v := by
  obtain ⟨l, h⟩ := h
  induction h with
  | stop _ => exact hstop
  | step hv h ih => exact hstep _ _ hv ⟨_, h⟩ (ih hstop hstep)

theorem lookup_erase (map : RedirectMap) (k x : ℕ) :
    (map.erase k).lookup x = if x = k then none else map.lookup x := by
  unfold erase
  induction map with
  | nil => simp
  | cons e map ih =>
    obtain ⟨y, z⟩ := e
    rw [List.filter_cons, List.lookup_cons]
    by_cases hy : y = k
    · subst hy
      by_cases hx : x = y
      · simpa [hx] using ih
      · have hbeq : (x == y) = false := by simpa using hx
        simpa [hx, hbeq] using ih
    · by_cases hx : x = y
      · subst hx; simp [hy]
      · have hbeq : (x == y) = false := by simpa using hx
        simpa [hy, hbeq, List.lookup_cons] using ih

theorem Leads.erase (h : map.Leads v t) (k : ℕ) : ∃ t', (map.erase k).Leads v t' := by
  refine h.rec' (Q := fun v => ∃ t', (map.erase k).Leads v t') ?_ fun x y hx _ ih => ?_
  · refine ⟨t, Leads.stop ?_⟩
    rw [lookup_erase, h.last, ite_self]
  · obtain ⟨t', ht'⟩ := ih
    by_cases hxk : x = k
    · exact ⟨x, Leads.stop (by rw [lookup_erase, if_pos hxk])⟩
    · exact ⟨t', Leads.step (by rw [lookup_erase, if_neg hxk, hx]) ht'⟩

theorem lookup_assign (map : RedirectMap) (k t x : ℕ) :
    (map.assign k t).lookup x = if x = k then (map.lookup x).map fun _ => t else map.lookup x := by
  induction map with
  | nil => simp [assign]
  | cons e map ih =>
    unfold assign at ih ⊢
    obtain ⟨y, z⟩ := e
    rw [List.map_cons, List.lookup_cons]
    by_cases hy : y = k
    · subst hy
      by_cases hx : x = y
      · subst hx; simp
      · have hbeq : (x == y) = false := by simpa using hx
        simp only [↓reduceIte, hbeq, List.lookup_cons, if_neg hx] at ih ⊢
        exact ih
    · by_cases hx : x = y
      · subst hx; simp [hy]
      · have hbeq : (x == y) = false := by simpa using hx
        simp only [hy, ↓reduceIte, hbeq, List.lookup_cons] at ih ⊢
        exact ih

theorem Leads.assign {a b : ℕ} (hu : map.Leads u t) (hk : map.lookup k = some u)
    (h : map.Leads a b) : (map.assign k t).Leads a b := by
  have hlast : ∀ x, map.lookup x = none → (map.assign k t).lookup x = none := by
    intro x hx
    rw [lookup_assign, hx]
    simp
  refine h.rec' (Q := fun a => (map.assign k t).Leads a b) (Leads.stop (hlast b h.last))
    fun x y hx hy ih => ?_
  by_cases hxk : x = k
  · subst hxk
    obtain rfl : b = t := (hu.unique (by rw [hk] at hx; exact Option.some.inj hx ▸ hy))
    refine Leads.step (u := b) ?_ (Leads.stop (hlast b h.last))
    rw [lookup_assign, if_pos rfl, hk, Option.map_some]
  · refine Leads.step (u := y) ?_ ih
    rw [lookup_assign, if_neg hxk, hx]

/-- The map leads where it did, in one step. -/
structure Compressed (map out : RedirectMap) (done : ℕ → Prop) : Prop where
  keys : ∀ x, out.lookup x = none ↔ map.lookup x = none
  leads : ∀ a b, map.Leads a b → out.Leads a b
  done : ∀ x, done x → ∀ u, map.lookup x = some u → ∀ t, map.Leads u t → out.lookup x = some t

theorem Compressed.refl (map : RedirectMap) : Compressed map map fun _ => False :=
  ⟨fun _ => Iff.rfl, fun _ _ h => h, fun _ h => h.elim⟩

theorem Compressed.entry {out : RedirectMap} {done : ℕ → Prop} (hac : map.Acyclic)
    (h : Compressed map out done) (passName : String) (k : ℕ) :
    ∃ out', compressEntry passName out k = .ok out' ∧
      Compressed map out' fun x => done x ∨ x = k := by
  unfold compressEntry
  cases hk : out.lookup k with
  | none =>
    refine ⟨out, rfl, h.keys, h.leads, fun x hx u hu => ?_⟩
    rcases hx with hx | rfl
    · exact h.done x hx u hu
    · rw [(h.keys x).1 hk] at hu
      simp at hu
  | some u =>
    obtain ⟨t, ht⟩ := hac k
    have htout := h.leads k t ht
    -- the end of the chain of `k` is the end of the chain of its value
    have hut : out.Leads u t := by
      obtain ⟨l, hl⟩ := htout
      cases hl with
      | stop hn => rw [hk] at hn; simp at hn
      | step hk' hl =>
        rw [hk] at hk'
        exact Option.some.inj hk' ▸ ⟨_, hl⟩
    refine ⟨out.assign k t, ?_, fun x => ?_, fun a b hab => hut.assign hk (h.leads a b hab),
      fun x hx v hv t' ht' => ?_⟩
    · simp only [hut.resolveTransitive_eq passName]
      rfl
    · rw [lookup_assign, ← h.keys x]
      split_ifs with hx
      · simp
      · rfl
    · rw [lookup_assign]
      by_cases hxk : x = k
      · subst hxk
        rw [if_pos rfl, hk, Option.map_some, ht.unique (.step hv ht')]
      · rw [if_neg hxk]
        exact h.done x (hx.resolve_right hxk) v hv t' ht'

theorem Compressed.foldlM (hac : map.Acyclic) (passName : String) :
    ∀ (ks : List ℕ) {out : RedirectMap} {done : ℕ → Prop}, Compressed map out done →
      ∃ out', ks.foldlM (compressEntry passName) out = .ok out' ∧
        Compressed map out' fun x => done x ∨ x ∈ ks := by
  intro ks
  induction ks with
  | nil =>
    intro out done h
    exact ⟨out, rfl, h.keys, h.leads, fun x hx => h.done x (by simpa using hx)⟩
  | cons k ks ih =>
    intro out done h
    obtain ⟨out₁, h₁, hc₁⟩ := h.entry hac passName k
    obtain ⟨out₂, h₂, hc₂⟩ := ih hc₁
    refine ⟨out₂, ?_, hc₂.keys, hc₂.leads, fun x hx => hc₂.done x ?_⟩
    · rw [List.foldlM_cons, h₁]
      exact h₂
    · rw [List.mem_cons, ← or_assoc] at hx
      exact hx

/-- **On a map without cycles the compression does not abort**, and it sends every key to the
end of its chain. -/
theorem pathCompressAndVerify_ok (hac : map.Acyclic) (passName : String) :
    ∃ out, pathCompressAndVerify passName map = .ok out ∧
      (∀ x, out.lookup x = none ↔ map.lookup x = none) ∧
      ∀ x t, out.lookup x = some t → map.Leads x t := by
  obtain ⟨out, hout, hc⟩ := (Compressed.refl map).foldlM hac passName map.keys
  have hval : ∀ x t, out.lookup x = some t → map.Leads x t := by
    intro x t hx
    cases hm : map.lookup x with
    | none => rw [(hc.keys x).2 hm] at hx; simp at hx
    | some u =>
      obtain ⟨t', ht'⟩ := hac u
      have := hc.done x (.inr (mem_keys.2 ⟨u, hm⟩)) u hm t' ht'
      rw [hx] at this
      obtain rfl := Option.some.inj this
      exact .step hm ht'
  refine ⟨out, ?_, hc.keys, hval⟩
  have hall : (out.keys.all fun k => ((out.lookup k).bind fun t => out.lookup t).isNone) =
    true := by
    rw [List.all_eq_true]
    intro k hk
    obtain ⟨t, ht⟩ := mem_keys.1 hk
    rw [ht, Option.bind_some, (hc.keys t).2 (hval k t ht).last]
    rfl
  unfold pathCompressAndVerify
  rw [hout]
  change (if _ then _ else _) = _
  rw [if_pos hall]
  rfl

end RedirectMap

end DssPrime
