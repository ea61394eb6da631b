import DssPrime.Graph.Dominance

/-!
# Immediate dominators by refining a tree of parents

A tree of parent pointers over numbered nodes, in which every parent has a smaller number than its
child. The nodes are swept in the order of their numbers; each gets as its parent the node at which
the ways to the root from its predecessors meet (`Meets`), as far as the predecessors are in the
tree yet. The sweeps end when nothing changes.

Giving a node a new parent moves everything below it too, so the sets of nodes above a node do not
shrink one at a time. `Refining` is what is true of the tree between two steps of a sweep: the part
of the tree after the node in turn still follows the predecessors that come earlier.

* `Refining.step` : a step keeps the invariant and moves a node up, if anywhere;
* `Refining.above_iff_dom` : in a tree that no step changes, what is above a node is what dominates
  it;
-/

namespace DssPrime.Graph

variable {α : Type*}

section

variable {next : α → List α} {entry a b d d' v : α}

theorem Dom.antisymm (h : Dom next entry a b) (h' : Dom next entry b a)
    (hb : Worklist.Reaches next entry b) : a = b := by
  by_contra hne
  -- the way to a reachable node avoids one of the two
  have key : ∀ v, Worklist.Reaches next entry v →
      Avoids next entry a v ∨ Avoids next entry b v := by
    intro v hv
    induction hv with
    | refl =>
      by_cases ha : entry = a
      · exact .inr (.entry (ha ▸ hne))
      · exact .inl (.entry ha)
    | @tail u w _ hw ih =>
      rcases ih with ih | ih
      · by_cases hwa : w = a
        · subst hwa
          exact ih.through.elim (fun hu => .inr (.step hu hw hne)) fun hu => absurd hu h
        · exact .inl (.step ih hw hwa)
      · by_cases hwb : w = b
        · subst hwb
          exact ih.through.elim (fun hu => .inl (.step hu hw (Ne.symm hne))) fun hu => absurd hu h'
        · exact .inr (.step ih hw hwb)
  exact (key b hb).elim h fun hbb => hbb.ne rfl

/-- The closest strict dominator of a node. -/
structure IsIdom (next : α → List α) (entry d v : α) : Prop where
  dom : Dom next entry d v
  ne : d ≠ v
  closest : ∀ w, Dom next entry w v → w ≠ v → Dom next entry w d

theorem Dom.reaches (h : Dom next entry d v) (hv : Worklist.Reaches next entry v) :
    Worklist.Reaches next entry d := by
  by_contra hd
  have key : ∀ u, Worklist.Reaches next entry u → Avoids next entry d u := by
    intro u hu
    induction hu with
    | refl => exact .entry fun he => hd (he ▸ .refl)
    | tail hxy hw ih => exact .step ih hw fun he => hd (he ▸ hxy.tail hw)
  exact h (key v hv)

theorem IsIdom.unique (h : IsIdom next entry d v) (h' : IsIdom next entry d' v)
    (hv : Worklist.Reaches next entry v) : d = d' :=
  (h'.closest d h.dom h.ne).antisymm (h.closest d' h'.dom h'.ne) (h'.dom.reaches hv)

end

/-- `w` is on the way up from a node. -/
inductive Above (up : α → Option α) (root w : α) : α → Prop
  | here : Above up root w w
  | up {v q : α} : v ≠ root → up v = some q → Above up root w q → Above up root w v

/-- The nodes in the tree are among `S`, on which the numbers are different; a parent is in the
tree and has a smaller number, and the root is its own parent. -/
structure Rooted (S : Set α) (pos : α → ℕ) (root : α) (up : α → Option α) : Prop where
  root_up : up root = some root
  mem : ∀ v, up v ≠ none → v ∈ S
  inj : Set.InjOn pos S
  pos_lt : ∀ v q, v ≠ root → up v = some q → pos q < pos v
  up_ne : ∀ v q, up v = some q → up q ≠ none

section

variable {up : α → Option α} {root : α} {S : Set α} {pos : α → ℕ} {a b f g q u v w : α}

theorem Above.trans (h : Above up root a b) (h' : Above up root b v) : Above up root a v := by
  induction h' with
  | here => exact h
  | up hr hq _ ih => exact .up hr hq ih

theorem above_iff_of_up (hr : v ≠ root) (hq : up v = some q) :
    Above up root w v ↔ w = v ∨ Above up root w q := by
  constructor
  · intro h
    cases h with
    | here => exact .inl rfl
    | up _ hq' h =>
      obtain rfl := Option.some.inj (hq.symm.trans hq')
      exact .inr h
  · rintro (rfl | h)
    · exact .here
    · exact .up hr hq h

theorem above_root_iff : Above up root w root ↔ w = root := by
  constructor
  · intro h
    cases h with
    | here => rfl
    | up hr => exact absurd rfl hr
  · rintro rfl
    exact .here

namespace Rooted

variable (T : Rooted S pos root up)

include T

theorem above_up (h : Above up root w v) (hv : up v ≠ none) : up w ≠ none := by
  induction h with
  | here => exact hv
  | up _ hq _ ih => exact ih (T.up_ne _ _ hq)

theorem pos_le (h : Above up root w v) : pos w ≤ pos v := by
  induction h with
  | here => exact le_refl _
  | up hr hq _ ih => exact ih.trans (T.pos_lt _ _ hr hq).le

theorem eq_of_pos_le (h : Above up root w v) (hp : pos v ≤ pos w) : w = v := by
  cases h with
  | here => rfl
  | up hr hq h =>
    have := T.pos_le h
    have := T.pos_lt _ _ hr hq
    omega

theorem root_above (hv : up v ≠ none) : Above up root root v := by
  induction hn : pos v using Nat.strong_induction_on generalizing v with
  | _ n ih =>
    by_cases hr : v = root
    · exact hr ▸ .here
    · obtain ⟨q, hq⟩ := Option.ne_none_iff_exists'.1 hv
      exact .up hr hq (ih _ (hn ▸ T.pos_lt _ _ hr hq) (T.up_ne _ _ hq) rfl)

theorem above_climb (hg : up g ≠ none) (hlt : pos g < pos f) (hq : up f = some q) :
    f ≠ root ∧ (Above up root w f ∧ Above up root w g ↔ Above up root w q ∧ Above up root w g) := by
  have hr : f ≠ root := by
    rintro rfl
    exact absurd (T.pos_le (T.root_above hg)) (by omega)
  refine ⟨hr, and_congr_left fun hw => ?_⟩
  rw [above_iff_of_up hr hq, or_iff_right]
  rintro rfl
  exact absurd (T.pos_le hw) (by omega)

end Rooted

section

variable [DecidableEq α]

theorem above_update_of_not (h : ¬ Above up root b v) :
    Above (Function.update up b (some q)) root w v ↔ Above up root w v := by
  constructor
  · intro hw
    induction hw with
    | here => exact .here
    | @up v q' hr hq _ ih =>
      have hne : v ≠ b := fun he => h (he ▸ .here)
      rw [Function.update_of_ne hne] at hq
      exact .up hr hq (ih fun hb => h (.up hr hq hb))
  · intro hw
    induction hw with
    | here => exact .here
    | @up v q' hr hq _ ih =>
      have hne : v ≠ b := fun he => h (he ▸ .here)
      refine .up hr ?_ (ih fun hb => h (.up hr hq hb))
      rw [Function.update_of_ne hne, hq]

theorem above_update_self (hb : b ≠ root) (hq : ¬ Above up root b q) :
    Above (Function.update up b (some q)) root w b ↔ w = b ∨ Above up root w q := by
  rw [above_iff_of_up hb (Function.update_self ..), above_update_of_not hq]

namespace Rooted

variable (T : Rooted S pos root up)

include T

theorem above_update_below (h : Above up root b v) :
    Above (Function.update up b (some q)) root w v ↔
      Above up root w v ∧ pos b ≤ pos w ∨ Above (Function.update up b (some q)) root w b := by
  induction h with
  | here =>
    refine ⟨.inr, ?_⟩
    rintro (⟨hw, hp⟩ | hw)
    · exact T.eq_of_pos_le hw hp ▸ .here
    · exact hw
  | @up v q' hr hq hb ih =>
    have hle := T.pos_le hb
    have hlt := T.pos_lt _ _ hr hq
    have hne : v ≠ b := by
      rintro rfl
      omega
    rw [above_iff_of_up hr ((Function.update_of_ne hne _ _).trans hq), ih, above_iff_of_up hr hq]
    constructor
    · rintro (rfl | ⟨hw, hp⟩ | hw)
      · exact .inl ⟨.inl rfl, by omega⟩
      · exact .inl ⟨.inr hw, hp⟩
      · exact .inr hw
    · rintro (⟨rfl | hw, hp⟩ | hw)
      · exact .inl rfl
      · exact .inr (.inl ⟨hw, hp⟩)
      · exact .inr (.inr hw)

theorem update (hS : b ∈ S) (hb : b ≠ root) (hq : up q ≠ none) (hlt : pos q < pos b) :
    Rooted S pos root (Function.update up b (some q)) where
  root_up := by rw [Function.update_of_ne (Ne.symm hb), T.root_up]
  mem v hv := by
    by_cases hvb : v = b
    · exact hvb ▸ hS
    · exact T.mem v (by rwa [Function.update_of_ne hvb] at hv)
  inj := T.inj
  pos_lt v p hr hp := by
    by_cases hvb : v = b
    · subst hvb
      rw [Function.update_self] at hp
      exact Option.some.inj hp ▸ hlt
    · exact T.pos_lt v p hr (by rwa [Function.update_of_ne hvb] at hp)
  up_ne v p hp := by
    have hpu : up p ≠ none := by
      by_cases hvb : v = b
      · subst hvb
        rw [Function.update_self] at hp
        exact Option.some.inj hp ▸ hq
      · exact T.up_ne v p (by rwa [Function.update_of_ne hvb] at hp)
    by_cases hpb : p = b
    · rw [hpb, Function.update_self]
      simp
    · rwa [Function.update_of_ne hpb]

end Rooted

end

end

def Meets (next : α → List α) (root : α) (up : α → Option α) (b q : α) : Prop :=
  ∀ w, Above up root w q ↔ ∀ u, up u ≠ none → b ∈ next u → Above up root w u

/-- The nodes a sweep goes through: what the root reaches, in an order in which every node but
the root comes after a predecessor. -/
structure Ordered (next : α → List α) (S : Set α) (pos : α → ℕ) (root : α) : Prop where
  pos_root : pos root = 0
  root_mem : root ∈ S
  closed : ∀ u ∈ S, ∀ v ∈ next u, v ∈ S
  inj : Set.InjOn pos S
  parent : ∀ v ∈ S, v ≠ root → ∃ u ∈ S, v ∈ next u ∧ pos u < pos v

/-- The way through a round of refinement. -/
structure Refining (next : α → List α) (S : Set α) (pos : α → ℕ) (root : α) (i : ℕ)
    (up : α → Option α) : Prop extends Rooted S pos root up where
  done : ∀ v ∈ S, pos v < i → up v ≠ none
  down : ∀ u v, u ∈ S → up v ≠ none → pos u < pos v → up u ≠ none
  dom : ∀ w v, up v ≠ none → Dom next root w v → Above up root w v
  mono : ∀ w v, up v ≠ none → v ≠ root →
    (∀ u, up u ≠ none → v ∈ next u → Above up root w u) → Above up root w v
  /-- What is above a node is above its earlier predecessors, as far as this sweep or the last
  one has come. -/
  fwd : ∀ u v x, up u ≠ none → up v ≠ none → v ≠ root → v ∈ next u → pos u < pos v →
    Above up root x v → x ≠ v → pos v < i ∨ i ≤ pos x → Above up root x u

section

variable {next : α → List α} {S : Set α} {pos : α → ℕ} {root : α} {i : ℕ} {up : α → Option α}
  {b q : α}

theorem refining_start [DecidableEq α] (O : Ordered next S pos root) :
    Refining next S pos root 1 (Function.update (fun _ => none) root (some root)) := by
  have hup : ∀ v, Function.update (fun _ => none) root (some root) v ≠ none → v = root := by
    intro v hv
    by_contra hne
    exact hv (Function.update_of_ne hne _ _)
  have hroot := Function.update_self root (some root) (fun _ => none)
  exact
    { root_up := hroot
      mem := fun v hv => hup v hv ▸ O.root_mem
      inj := O.inj
      pos_lt := fun v q hr hq => absurd (hup v (hq ▸ Option.some_ne_none q)) hr
      up_ne := fun v q hq => by
        obtain rfl := hup v (hq ▸ Option.some_ne_none q)
        rw [hroot] at hq
        obtain rfl := Option.some.inj hq
        rw [hroot]
        exact Option.some_ne_none _
      done := fun v hv hp => by
        obtain rfl := O.inj hv O.root_mem (by rw [O.pos_root]; omega)
        rw [hroot]
        exact Option.some_ne_none _
      down := fun u v _ hv hp => by
        obtain rfl := hup v hv
        rw [O.pos_root] at hp
        omega
      dom := fun w v hv hd => by
        obtain rfl := hup v hv
        by_cases hw : v = w
        · exact hw ▸ .here
        · exact absurd (.entry hw) hd
      mono := fun w v hv hr => absurd (hup v hv) hr
      fwd := fun u v x _ hv hr => absurd (hup v hv) hr }

theorem Refining.wrap (R : Refining next S pos root i up) (h : ∀ v ∈ S, pos v < i) :
    Refining next S pos root 1 up :=
  { R with
    done := fun v hv _ => R.done v hv (h v hv)
    fwd := fun u v x hu hv hr hnext hlt hx hne _ =>
      R.fwd u v x hu hv hr hnext hlt hx hne (.inl (h v (R.mem v hv))) }

variable (O : Ordered next S pos root) (R : Refining next S pos root i up)

include O R

theorem Refining.pos_lt_of_meets (hb : b ∈ S) (hr : b ≠ root) (hi : pos b = i)
    (hm : Meets next root up b q) : pos q < pos b := by
  obtain ⟨u, hu, hnext, hlt⟩ := O.parent b hb hr
  have hq := (hm q).1 .here u (R.done u hu (hi ▸ hlt)) hnext
  exact lt_of_le_of_lt (R.pos_le hq) hlt

/-- **A step moves a node up, if anywhere.** -/
theorem Refining.above_of_meets (hb : b ∈ S) (hr : b ≠ root) (hi : pos b = i)
    (hm : Meets next root up b q) {q₀ : α} (hq₀ : up b = some q₀) : Above up root q q₀ := by
  have hlt := R.pos_lt_of_meets O hb hr hi hm
  have hq := R.mono q b (hq₀ ▸ Option.some_ne_none _) hr ((hm q).1 .here)
  rcases (above_iff_of_up hr hq₀).1 hq with rfl | hq
  · omega
  · exact hq

theorem Refining.not_above_meet (hb : b ∈ S) (hr : b ≠ root) (hi : pos b = i)
    (hm : Meets next root up b q) : ¬ Above up root b q := by
  intro h
  have hlt := R.pos_lt_of_meets O hb hr hi hm
  exact absurd (R.pos_le h) (by omega)

theorem Refining.above_of_update [DecidableEq α] (hb : b ∈ S) (hr : b ≠ root) (hi : pos b = i)
    (hm : Meets next root up b q) {w v : α} (hv : up v ≠ none)
    (hw : Above (Function.update up b (some q)) root w v) : Above up root w v := by
  by_cases hbv : Above up root b v
  · rcases (R.above_update_below hbv).1 hw with ⟨hw, -⟩ | hw
    · exact hw
    · rcases (above_update_self hr (R.not_above_meet O hb hr hi hm)).1 hw with rfl | hw
      · exact hbv
      · exact (hw.trans (R.mono q b (R.above_up hbv hv) hr ((hm q).1 .here))).trans hbv
  · exact (above_update_of_not hbv).1 hw

/-- A node that loses its way through `b` keeps what an earlier predecessor keeps. -/
theorem Refining.above_update_via [DecidableEq α] (hr : b ≠ root) (hi : pos b = i) {w v : α}
    (hvb : v ≠ b) (hv : up v ≠ none) (hbv : Above up root b v) (hw : Above up root w v)
    (hu : ∀ u, up u ≠ none → v ∈ next u → pos u < pos v → pos w < pos b →
      Above (Function.update up b (some q)) root w u) :
    Above (Function.update up b (some q)) root w v := by
  by_cases hp : pos b ≤ pos w
  · exact (R.above_update_below hbv).2 (.inl ⟨hw, hp⟩)
  · have hvr : v ≠ root := by
      rintro rfl
      exact hr (above_root_iff.1 hbv)
    obtain ⟨u, huS, hnext, hult⟩ := O.parent v (R.mem v hv) hvr
    have huu := R.down u v huS hv hult
    have hbu := R.fwd u v b huu hv hvr hnext hult hbv (Ne.symm hvb) (.inr (by omega))
    refine (R.above_update_below hbv).2 (.inr ?_)
    exact ((R.above_update_below hbu).1 (hu u huu hnext hult (by omega))).resolve_left
      fun h => hp h.2

/-- **A step keeps the invariant.** -/
theorem Refining.step [DecidableEq α] (hb : b ∈ S) (hr : b ≠ root) (hi : pos b = i)
    (hq : up q ≠ none) (hm : Meets next root up b q) :
    Refining next S pos root (i + 1) (Function.update up b (some q)) := by
  have hlt := R.pos_lt_of_meets O hb hr hi hm
  have hT := R.toRooted.update hb hr hq hlt
  have hself : ∀ {w}, Above (Function.update up b (some q)) root w b ↔ w = b ∨ Above up root w q :=
    above_update_self hr (R.not_above_meet O hb hr hi hm)
  have hold : ∀ {v}, v ≠ b → Function.update up b (some q) v ≠ none → up v ≠ none := by
    intro v hvb hv
    rwa [Function.update_of_ne hvb] at hv
  refine { hT with done := ?_, down := ?_, dom := ?_, mono := ?_, fwd := ?_ }
  · intro v hv hp
    by_cases hvb : v = b
    · rw [hvb, Function.update_self]
      exact Option.some_ne_none _
    · rw [Function.update_of_ne hvb]
      refine R.done v hv (lt_of_le_of_ne (Nat.le_of_lt_succ hp) fun he => hvb ?_)
      exact R.inj hv hb (he.trans hi.symm)
  · intro u v hu hv hp
    by_cases hub : u = b
    · rw [hub, Function.update_self]
      exact Option.some_ne_none _
    · rw [Function.update_of_ne hub]
      by_cases hvb : v = b
      · exact R.done u hu (by rw [← hi, ← hvb]; exact hp)
      · exact R.down u v hu (hold hvb hv) hp
  · intro w v
    induction hn : pos v using Nat.strong_induction_on generalizing v with
    | _ n ih =>
      intro hv hd
      by_cases hvb : v = b
      · subst hvb
        by_cases hw : w = v
        · exact hself.2 (.inl hw)
        · exact hself.2 (.inr ((hm w).2 fun u hu hnext => R.dom w u hu (hd.pred hw hnext)))
      · have hv' := hold hvb hv
        have hw := R.dom w v hv' hd
        by_cases hbv : Above up root b v
        · refine R.above_update_via O hr hi hvb hv' hbv hw fun u hu hnext hult hwb => ?_
          have hne : w ≠ v := by
            rintro rfl
            exact absurd (R.pos_le hbv) (by omega)
          refine ih (pos u) (hn ▸ hult) u rfl ?_ (hd.pred hne hnext)
          by_cases hub : u = b
          · rw [hub, Function.update_self]
            exact Option.some_ne_none _
          · rwa [Function.update_of_ne hub]
        · exact (above_update_of_not hbv).2 hw
  · intro w v hv hvr hall
    have hall' : ∀ u, up u ≠ none → v ∈ next u →
        Above (Function.update up b (some q)) root w u := by
      intro u hu hnext
      refine hall u ?_ hnext
      by_cases hub : u = b
      · rw [hub, Function.update_self]
        exact Option.some_ne_none _
      · rwa [Function.update_of_ne hub]
    have hall₀ : ∀ u, up u ≠ none → v ∈ next u → Above up root w u :=
      fun u hu hnext => R.above_of_update O hb hr hi hm hu (hall' u hu hnext)
    by_cases hvb : v = b
    · subst hvb
      exact hself.2 (.inr ((hm w).2 hall₀))
    · have hv' := hold hvb hv
      have hw := R.mono w v hv' hvr hall₀
      by_cases hbv : Above up root b v
      · exact R.above_update_via O hr hi hvb hv' hbv hw fun u hu hnext _ _ => hall' u hu hnext
      · exact (above_update_of_not hbv).2 hw
  · intro u v x hu hv hvr hnext hult hx hxv hside
    by_cases hvb : v = b
    · subst hvb
      have huu := hold (fun he => by rw [he] at hult; omega) hu
      have hxu := (hm x).1 ((hself.1 hx).resolve_left hxv) u huu hnext
      exact (above_update_of_not fun h => absurd (R.pos_le h) (by omega)).2 hxu
    · have hv' := hold hvb hv
      have huu : up u ≠ none := by
        by_cases hub : u = b
        · exact hub ▸ R.down b v hb hv' (hub ▸ hult)
        · exact hold hub hu
      have hxv' : Above up root x v := R.above_of_update O hb hr hi hm hv' hx
      rcases hside with hside | hside
      · have hvi : pos v < i := lt_of_le_of_ne (Nat.le_of_lt_succ hside) fun he =>
          hvb (R.inj (R.mem v hv') hb (he.trans hi.symm))
        have hxu := R.fwd u v x huu hv' hvr hnext hult hxv' hxv (.inl hvi)
        exact (above_update_of_not fun h => absurd (R.pos_le h) (by omega)).2 hxu
      · have hxu := R.fwd u v x huu hv' hvr hnext hult hxv' hxv (.inr (by omega))
        by_cases hbu : Above up root b u
        · exact (R.above_update_below hbu).2 (.inl ⟨hxu, by omega⟩)
        · exact (above_update_of_not hbu).2 hxu

omit O in
/-- A step that changes the parent lowers the sum of the numbers of the parents. -/
theorem Refining.weight_lt [DecidableEq α] {F : Finset α} {n : ℕ} (hb : b ∈ F) (hq : pos q < n)
    (hne : up b ≠ some q) (habove : ∀ q₀, up b = some q₀ → Above up root q q₀) :
    ∑ v ∈ F, (Function.update up b (some q) v).elim n pos < ∑ v ∈ F, (up v).elim n pos := by
  have hlt : pos q < (up b).elim n pos := by
    cases hup : up b with
    | none => exact hq
    | some q₀ =>
      by_contra hp
      exact hne (R.eq_of_pos_le (habove q₀ hup) (not_lt.1 hp) ▸ hup)
  refine Finset.sum_lt_sum (fun v _ => ?_) ⟨b, hb, by rw [Function.update_self]; exact hlt⟩
  by_cases hvb : v = b
  · rw [hvb, Function.update_self]
    exact hlt.le
  · rw [Function.update_of_ne hvb]

/-- **When no step changes anything, what is above a node is what dominates it.** -/
theorem Refining.above_iff_dom (hall : ∀ v ∈ S, up v ≠ none)
    (hm : ∀ v ∈ S, v ≠ root → ∀ q, up v = some q → Meets next root up v q) {w v : α}
    (hv : v ∈ S) : Above up root w v ↔ Dom next root w v := by
  refine ⟨fun h hav => ?_, R.dom w v (hall v hv)⟩
  induction hav with
  | entry hne => exact hne (above_root_iff.1 h).symm
  | @step u v hu hnext hne ih =>
    have huS : u ∈ S := by
      clear h ih hnext
      induction hu with
      | entry => exact O.root_mem
      | step _ hx _ ih => exact O.closed _ ih _ hx
    have hvr : v ≠ root := by
      rintro rfl
      exact hne (above_root_iff.1 h).symm
    obtain ⟨q, hq⟩ := Option.ne_none_iff_exists'.1 (hall v hv)
    have hwq := ((above_iff_of_up hvr hq).1 h).resolve_left (Ne.symm hne)
    exact ih huS ((hm v hv hvr q hq w).1 hwq u (hall u huS) hnext)

end

/-- A finished tree: the nodes are what the root reaches, their numbers are below `n`, and what
is above a node is what dominates it. -/
structure IdomTree (next : α → List α) (root : α) (n : ℕ) (up : α → Option α) : Prop where
  rooted : ∃ pos, Rooted {v | Worklist.Reaches next root v} pos root up ∧
    ∀ v, Worklist.Reaches next root v → pos v < n
  reached : ∀ v, Worklist.Reaches next root v → up v ≠ none
  above_iff : ∀ v w, Worklist.Reaches next root v → (Above up root w v ↔ Dom next root w v)

namespace IdomTree

variable {next : α → List α} {root d v : α} {n : ℕ} {up : α → Option α}
  (T : IdomTree next root n up)

include T

theorem root_up : up root = some root := by
  obtain ⟨pos, hT, -⟩ := T.rooted
  exact hT.root_up

theorem off (hv : ¬ Worklist.Reaches next root v) : up v = none := by
  obtain ⟨pos, hT, -⟩ := T.rooted
  by_contra hne
  exact hv (hT.mem v hne)

theorem isIdom (hr : v ≠ root) (hd : up v = some d) : IsIdom next root d v := by
  obtain ⟨pos, hT, -⟩ := T.rooted
  have hv := hT.mem v (hd ▸ Option.some_ne_none _)
  refine ⟨(T.above_iff v d hv).1 (.up hr hd .here), ?_, fun w hw hne => ?_⟩
  · rintro rfl
    exact absurd (hT.pos_lt _ _ hr hd) (lt_irrefl _)
  · refine (T.above_iff d w (hT.mem d (hT.up_ne v d hd))).1 ?_
    exact ((above_iff_of_up hr hd).1 ((T.above_iff v w hv).2 hw)).resolve_left hne

/-- **The parent of a node is its only immediate dominator.** -/
theorem up_eq_some_iff (hv : Worklist.Reaches next root v) (hr : v ≠ root) :
    up v = some d ↔ IsIdom next root d v := by
  refine ⟨T.isIdom hr, fun hd => ?_⟩
  obtain ⟨q, hq⟩ := Option.ne_none_iff_exists'.1 (T.reached v hv)
  rw [hq, (T.isIdom hr hq).unique hd hv]

end IdomTree

end DssPrime.Graph
