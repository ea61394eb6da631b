import DssPrime.Link.InjectVeneers
import DssPrime.Link.VeneerLayout

/-!
# The islands of inserted veneers

The veneers are put in text order by a counting pass over their boundaries.
-/

namespace DssPrime

section Counting

variable {vs : List PlannedVeneer}

def bucket (qs : List (PlannedVeneer × ℕ)) (b : ℕ) : List ℕ :=
  (qs.filter fun q => decide (q.1.boundary = b)).map (·.2)

theorem bucket_append (qs rs : List (PlannedVeneer × ℕ)) (b : ℕ) :
    bucket (qs ++ rs) b = bucket qs b ++ bucket rs b := by
  simp [bucket]

theorem islandCounts_aux (vs : List PlannedVeneer) (c : ℕ → ℕ) (b : ℕ) :
    vs.foldl (fun c v => Function.update c (v.boundary + 1) (c (v.boundary + 1) + 1)) c b =
      c b + vs.countP fun v => decide (v.boundary + 1 = b) := by
  induction vs generalizing c with
  | nil => rfl
  | cons v vs ih =>
    rw [List.foldl_cons, ih, List.countP_cons]
    by_cases hb : v.boundary + 1 = b
    · subst hb
      simp
      omega
    · rw [Function.update_of_ne (Ne.symm hb)]
      simp [hb]

theorem firstAt_succ (b : ℕ) :
    firstAt vs (b + 1) = firstAt vs b + (bucket vs.zipIdx b).length := by
  have hcount : (bucket vs.zipIdx b).length = vs.countP fun v => decide (v.boundary = b) := by
    unfold bucket
    rw [List.length_map, ← List.countP_eq_length_filter]
    conv_rhs => rw [← List.zipIdx_map_fst 0 vs, List.countP_map]
    rfl
  rw [firstAt, islandCounts, islandCounts_aux, hcount]
  simp
  omega

theorem firstAt_mono {b b' : ℕ} (h : b ≤ b') : firstAt vs b ≤ firstAt vs b' := by
  induction h with
  | refl => exact le_refl _
  | step _ ih => exact ih.trans (by rw [firstAt_succ]; omega)

theorem firstAt_add_ne {b b' j j' : ℕ} (hb : b ≠ b') (hj : j < (bucket vs.zipIdx b).length)
    (hj' : j' < (bucket vs.zipIdx b').length) : firstAt vs b + j ≠ firstAt vs b' + j' := by
  have h1 := @firstAt_succ vs b
  have h2 := @firstAt_succ vs b'
  rcases Nat.lt_or_gt_of_ne hb with hlt | hlt
  · have hle : firstAt vs (b + 1) ≤ firstAt vs b' := firstAt_mono hlt
    omega
  · have hle : firstAt vs (b' + 1) ≤ firstAt vs b := firstAt_mono hlt
    omega

structure Entered (vs : List PlannedVeneer) (done : List (PlannedVeneer × ℕ))
    (st : (ℕ → ℕ) × (ℕ → ℕ)) : Prop where
  fill : ∀ b, st.1 b = firstAt vs b + (bucket done b).length
  order : ∀ b j i, (bucket done b)[j]? = some i → st.2 (firstAt vs b + j) = i

theorem Entered.step {done rest : List (PlannedVeneer × ℕ)} {q : PlannedVeneer × ℕ}
    {st : (ℕ → ℕ) × (ℕ → ℕ)} (h : Entered vs done st) (hall : vs.zipIdx = done ++ q :: rest) :
    Entered vs (done ++ [q]) (enterVeneer st q) := by
  have hlen : ∀ b, (bucket (done ++ [q]) b).length ≤ (bucket vs.zipIdx b).length := by
    intro b
    have hsplit : vs.zipIdx = done ++ [q] ++ rest := by simp [hall]
    rw [hsplit, bucket_append _ rest, List.length_append]
    omega
  have hq : bucket [q] q.1.boundary = [q.2] := by simp [bucket]
  have hne : ∀ b, b ≠ q.1.boundary → bucket [q] b = [] := by
    intro b hb
    simp [bucket, Ne.symm hb]
  constructor
  · intro b
    rw [bucket_append, List.length_append]
    by_cases hb : b = q.1.boundary
    · subst hb
      rw [hq]
      simp [enterVeneer, h.fill, Nat.add_assoc]
    · rw [hne b hb]
      simp [enterVeneer, Function.update_of_ne hb, h.fill]
  · intro b j i hji
    have hfree := hlen q.1.boundary
    rw [bucket_append, hq, List.length_append] at hfree
    simp only [List.length_singleton] at hfree
    have hj : j < (bucket (done ++ [q]) b).length := by
      obtain ⟨hj, -⟩ := List.getElem?_eq_some_iff.1 hji
      exact hj
    rw [bucket_append] at hji hj
    by_cases hb : b = q.1.boundary
    · subst hb
      rw [hq] at hji hj
      simp only [List.length_append, List.length_singleton] at hj
      by_cases hlast : j = (bucket done q.1.boundary).length
      · subst hlast
        simp only [List.getElem?_concat_length, Option.some.injEq] at hji
        simp [enterVeneer, h.fill, hji]
      · rw [List.getElem?_append_left (by omega)] at hji
        have hne' : firstAt vs q.1.boundary + j ≠ st.1 q.1.boundary := by
          rw [h.fill]
          omega
        change Function.update st.2 _ _ _ = i
        rw [Function.update_of_ne hne']
        exact h.order _ _ _ hji
    · rw [hne b hb, List.append_nil] at hji hj
      have hjall : j < (bucket vs.zipIdx b).length := by
        have := hlen b
        rw [bucket_append, List.length_append] at this
        omega
      change Function.update st.2 _ _ _ = i
      rw [h.fill, Function.update_of_ne (firstAt_add_ne hb hjall (by omega))]
      exact h.order _ _ _ hji

theorem entered_foldl {done rest : List (PlannedVeneer × ℕ)} {st : (ℕ → ℕ) × (ℕ → ℕ)}
    (h : Entered vs done st) (hall : vs.zipIdx = done ++ rest) :
    Entered vs vs.zipIdx (rest.foldl enterVeneer st) := by
  induction rest generalizing done st with
  | nil =>
    rw [hall, List.append_nil]
    exact h
  | cons q rest ih => exact ih (h.step hall) (by simp [hall])

theorem islandAt_eq (vs : List PlannedVeneer) (b : ℕ) : islandAt vs b = bucket vs.zipIdx b := by
  have hstart : Entered vs [] (firstAt vs, fun _ => 0) :=
    ⟨fun b => by simp [bucket], fun b j i h => by simp [bucket] at h⟩
  have hall := @entered_foldl vs [] vs.zipIdx _ hstart rfl
  unfold islandAt
  rw [firstAt_succ, Nat.add_sub_cancel_left]
  apply List.ext_getElem
  · simp
  · intro j hj hj'
    rw [List.getElem_map, List.getElem_range]
    exact hall.order b j _ (List.getElem?_eq_getElem hj')

theorem mem_bucket {b i : ℕ} :
    i ∈ bucket vs.zipIdx b ↔ ∃ v, vs[i]? = some v ∧ v.boundary = b := by
  unfold bucket
  simp only [List.mem_map, List.mem_filter, decide_eq_true_eq, Prod.exists,
    List.mem_zipIdx_iff_getElem?]
  constructor
  · rintro ⟨v, k, ⟨hv, hb⟩, rfl⟩
    exact ⟨v, hv, hb⟩
  · rintro ⟨v, hv, hb⟩
    exact ⟨v, i, ⟨hv, hb⟩, rfl⟩

theorem bucket_nodup (vs : List PlannedVeneer) (b : ℕ) : (bucket vs.zipIdx b).Nodup := by
  have hall : (vs.zipIdx.map (·.2)).Nodup := by
    rw [List.zipIdx_map_snd]
    exact List.nodup_range'
  exact hall.sublist (List.Sublist.map _ List.filter_sublist)

theorem bucket_split {i : ℕ} {v : PlannedVeneer} (hv : vs[i]? = some v) :
    ∃ rest, bucket vs.zipIdx v.boundary = bucket (vs.take i).zipIdx v.boundary ++ i :: rest := by
  obtain ⟨hi, hvi⟩ := List.getElem?_eq_some_iff.1 hv
  have hsplit : vs = vs.take i ++ v :: vs.drop (i + 1) := by
    rw [← hvi, List.cons_getElem_drop_succ, List.take_append_drop]
  refine ⟨bucket ((vs.drop (i + 1)).zipIdx (i + 1)) v.boundary, ?_⟩
  conv_lhs => rw [hsplit]
  rw [List.zipIdx_append, bucket_append, List.zipIdx_cons, List.length_take, Nat.min_eq_left hi.le,
    Nat.zero_add]
  congr 1
  simp [bucket]

end Counting

section Merging

def textBytes (fs : List AssembledFunction) : ℕ := (fs.map (·.bytes.length)).sum

def offsetOf (fs : List AssembledFunction) (k : ℕ) : ℕ := textBytes (fs.take k)

@[simp]
theorem textBytes_append (fs gs : List AssembledFunction) :
    textBytes (fs ++ gs) = textBytes fs + textBytes gs := by
  simp [textBytes]

theorem offsetOf_append (fs gs : List AssembledFunction) :
    offsetOf (fs ++ gs) fs.length = textBytes fs := by
  simp [offsetOf]

variable (fs : List AssembledFunction) (island : ℕ → List AssembledFunction) (entry : Option ℕ)

def mergedBefore (b : ℕ) : List AssembledFunction := (mergeUpTo fs island entry b).1

def merged : List AssembledFunction := mergedBefore fs island entry fs.length ++ island fs.length

def place (b : ℕ) : ℕ := (mergedBefore fs island entry b).length + (island b).length

variable {fs} {island} {entry}

theorem mergedBefore_succ {b : ℕ} {f : AssembledFunction} (hf : fs[b]? = some f) :
    mergedBefore fs island entry (b + 1) = mergedBefore fs island entry b ++ island b ++ [f] := by
  unfold mergedBefore
  rw [mergeUpTo]
  simp only [hf]

theorem mergedBefore_split {b m : ℕ} {f : AssembledFunction} (hf : fs[b]? = some f) (hb : b < m)
    (hm : m ≤ fs.length) :
    ∃ rest, mergedBefore fs island entry m =
      mergedBefore fs island entry b ++ island b ++ f :: rest := by
  induction m with
  | zero => omega
  | succ m ih =>
    rcases Nat.lt_succ_iff_lt_or_eq.1 hb with hlt | rfl
    · obtain ⟨rest, hrest⟩ := ih hlt (by omega)
      obtain ⟨g, hg⟩ : ∃ g, fs[m]? = some g := ⟨_, List.getElem?_eq_getElem (by omega)⟩
      exact ⟨rest ++ island m ++ [g], by rw [mergedBefore_succ hg, hrest]; simp⟩
    · exact ⟨[], mergedBefore_succ hf⟩

theorem merged_split {b : ℕ} (hb : b ≤ fs.length) :
    ∃ rest, merged fs island entry = mergedBefore fs island entry b ++ island b ++ rest ∧
      ∀ f, fs[b]? = some f → rest.head? = some f := by
  rcases Nat.lt_or_eq_of_le hb with hlt | rfl
  · obtain ⟨f, hf⟩ : ∃ f, fs[b]? = some f := ⟨_, List.getElem?_eq_getElem hlt⟩
    obtain ⟨rest, hrest⟩ := @mergedBefore_split fs island entry _ _ _ hf hlt le_rfl
    refine ⟨f :: (rest ++ island fs.length), by unfold merged; rw [hrest]; simp, ?_⟩
    intro g hg
    rw [hf] at hg
    simpa using hg
  · exact ⟨[], by simp [merged], by simp⟩

theorem merged_place {b : ℕ} {f : AssembledFunction} (hf : fs[b]? = some f) :
    (merged fs island entry)[place fs island entry b]? = some f := by
  obtain ⟨hb, -⟩ := List.getElem?_eq_some_iff.1 hf
  obtain ⟨rest, hrest, hhead⟩ := @merged_split fs island entry _ hb.le
  rw [hrest, place, ← List.length_append, List.getElem?_append_right le_rfl, Nat.sub_self,
    ← List.head?_eq_getElem?]
  exact hhead f hf

theorem place_lt {b b' : ℕ} (h : b < b') (hb : b' < fs.length) :
    place fs island entry b < place fs island entry b' := by
  obtain ⟨f, hf⟩ : ∃ f, fs[b]? = some f := ⟨_, List.getElem?_eq_getElem (h.trans hb)⟩
  obtain ⟨rest, hrest⟩ := @mergedBefore_split fs island entry _ _ _ hf h hb.le
  unfold place
  rw [hrest]
  simp only [List.length_append, List.length_cons]
  omega

theorem offsetOf_place {b : ℕ} (hb : b ≤ fs.length) :
    offsetOf (merged fs island entry) (place fs island entry b) =
      textBytes (mergedBefore fs island entry b) + textBytes (island b) := by
  obtain ⟨rest, hrest, -⟩ := @merged_split fs island entry _ hb
  rw [hrest, place, ← List.length_append, offsetOf_append, textBytes_append]

theorem merged_slot {b : ℕ} (hb : b ≤ fs.length) {pre post : List AssembledFunction}
    {v : AssembledFunction} (hv : island b = pre ++ v :: post) :
    (merged fs island entry)[(mergedBefore fs island entry b).length + pre.length]? = some v ∧
      offsetOf (merged fs island entry) ((mergedBefore fs island entry b).length + pre.length) =
        textBytes (mergedBefore fs island entry b) + textBytes pre := by
  obtain ⟨rest, hrest, -⟩ := @merged_split fs island entry _ hb
  have hsplit : merged fs island entry =
      (mergedBefore fs island entry b ++ pre) ++ (v :: post ++ rest) := by
    rw [hrest, hv]
    simp
  rw [hsplit, ← List.length_append, offsetOf_append, textBytes_append]
  exact ⟨by simp, rfl⟩

theorem mem_mergedBefore {f : AssembledFunction} {m : ℕ}
    (h : f ∈ mergedBefore fs island entry m) : f ∈ fs ∨ ∃ b, f ∈ island b := by
  induction m with
  | zero => simp [mergedBefore, mergeUpTo] at h
  | succ m ih =>
    cases hm : fs[m]? with
    | some g =>
      rw [mergedBefore_succ hm] at h
      rcases List.mem_append.1 h with h | h
      · exact (List.mem_append.1 h).elim ih fun h => .inr ⟨m, h⟩
      · rw [List.mem_singleton.1 h]
        exact .inl (List.mem_of_getElem? hm)
    | none =>
      unfold mergedBefore at h ih
      rw [mergeUpTo] at h
      simp only [hm] at h
      exact (List.mem_append.1 h).elim ih fun h => .inr ⟨m, h⟩

theorem mem_merged {f : AssembledFunction} (h : f ∈ merged fs island entry) :
    f ∈ fs ∨ ∃ b, f ∈ island b :=
  (List.mem_append.1 h).elim mem_mergedBefore fun h => .inr ⟨_, h⟩

theorem mergeUpTo_entry {e m : ℕ} (he : entry = some e) (hm : m ≤ fs.length) :
    (mergeUpTo fs island entry m).2 =
      if e < m then some (place fs island entry e) else none := by
  induction m with
  | zero => simp [mergeUpTo]
  | succ m ih =>
    obtain ⟨g, hg⟩ : ∃ g, fs[m]? = some g := ⟨_, List.getElem?_eq_getElem (by omega)⟩
    rw [mergeUpTo]
    simp only [hg]
    rw [ih (by omega)]
    by_cases hem : e = m
    · subst hem
      simp [he, place, mergedBefore]
    · have hne : ¬ entry = some m := by simp [he, hem]
      simp only [hne, ↓reduceIte]
      split_ifs <;> first | rfl | omega

theorem mergeUpTo_noEntry (he : entry = none) (m : ℕ) : (mergeUpTo fs island entry m).2 = none := by
  subst he
  induction m with
  | zero => rfl
  | succ m ih =>
    rw [mergeUpTo]
    cases hm : fs[m]? with
    | none => exact ih
    | some f => simpa using ih

end Merging

section Positions

variable {L : VeneerLayout} {vs : List PlannedVeneer} {make : ℕ → AssembledFunction}

theorem textBytes_bucket (qs : List (PlannedVeneer × ℕ)) (b : ℕ)
    (hmake : ∀ q ∈ qs, (make q.2).bytes.length = L.sizeOf q.1) :
    textBytes ((bucket qs b).map make) = L.bytesWhere (qs.map (·.1)) fun k => decide (k = b) := by
  induction qs with
  | nil => rfl
  | cons q qs ih =>
    have ih := ih fun r hr => hmake r (List.mem_cons_of_mem _ hr)
    rw [List.map_cons, VeneerLayout.bytesWhere_cons, ← ih]
    by_cases hb : q.1.boundary = b
    · simp [bucket, hb, textBytes, hmake q List.mem_cons_self]
    · simp [bucket, hb]

variable (hmake : ∀ i v, vs[i]? = some v → (make i).bytes.length = L.sizeOf v)
include hmake

theorem textBytes_island (b : ℕ) :
    textBytes ((bucket vs.zipIdx b).map make) = L.bytesWhere vs fun k => decide (k = b) := by
  rw [@textBytes_bucket L make _ _ fun q hq => hmake _ _ (List.mem_zipIdx_iff_getElem?.1 hq),
    List.zipIdx_map_fst]

theorem textBytes_island_take (b i : ℕ) :
    textBytes ((bucket (vs.take i).zipIdx b).map make) =
      L.bytesWhere (vs.take i) fun k => decide (k = b) := by
  have htake : ∀ q ∈ (vs.take i).zipIdx, (make q.2).bytes.length = L.sizeOf q.1 := by
    intro q hq
    have hq' := List.mem_zipIdx_iff_getElem?.1 hq
    rw [List.getElem?_take] at hq'
    split at hq'
    · exact hmake _ _ hq'
    · exact absurd hq' (by simp)
  rw [@textBytes_bucket L make _ _ htake, List.zipIdx_map_fst]

variable {fs : List AssembledFunction} {entry : Option ℕ}
  (hsize : ∀ b f, fs[b]? = some f → f.bytes.length = L.sizeAt b)
include hsize

theorem textBytes_mergedBefore {b : ℕ} (hb : b ≤ fs.length) :
    textBytes (mergedBefore fs (fun b => (bucket vs.zipIdx b).map make) entry b) =
      L.bytesBefore b + L.bytesWhere vs fun k => decide (k < b) := by
  induction b with
  | zero => simp [mergedBefore, mergeUpTo, textBytes, VeneerLayout.bytesBefore,
      VeneerLayout.bytesWhere, VeneerLayout.total]
  | succ b ih =>
    obtain ⟨f, hf⟩ : ∃ f, fs[b]? = some f := ⟨_, List.getElem?_eq_getElem (by omega)⟩
    have hlast : textBytes [f] = L.sizeAt b := by simp [textBytes, hsize b f hf]
    rw [mergedBefore_succ hf, textBytes_append, textBytes_append, ih (by omega),
      textBytes_island hmake, hlast, VeneerLayout.bytesBefore_succ,
      VeneerLayout.bytesWhere_lt_succ]
    omega

end Positions

section DataWords

/-- A data word placed `lit` bytes into a veneer that begins at `start`: it follows the code with no
more than the padding the template allows, and it is aligned. -/
structure Aligned (tp : BodyTemplate) (start lit : ℕ) : Prop where
  after : tp.code.length ≤ lit
  padding : lit - tp.code.length ≤ tp.slack
  aligned : tp.dataAlign ∣ start + lit

theorem dvd_add_padding {a x : ℕ} (ha : 0 < a) : a ∣ x + (a - x % a) % a := by
  have hlt := Nat.mod_lt x ha
  apply Nat.dvd_of_mod_eq_zero
  rw [Nat.add_mod, Nat.mod_mod]
  by_cases hzero : x % a = 0
  · simp [hzero]
  · rw [Nat.mod_eq_of_lt (show a - x % a < a by omega), show x % a + (a - x % a) = a by omega,
      Nat.mod_self]

variable {templateOf : ℕ → BodyTemplate} {make : ℕ → AssembledFunction}
  (hpos : ∀ i, (templateOf i).dataBytes ≠ 0 → 0 < (templateOf i).dataAlign)
  (hmake : ∀ i, (make i).bytes.length = (templateOf i).size)
include hpos hmake

theorem placeWord_spec {st st' : ℕ × (ℕ → ℕ)} {i : ℕ}
    (h : placeWord templateOf st i = .ok st') :
    st'.1 = st.1 + (make i).bytes.length ∧ (∀ j, j ≠ i → st'.2 j = st.2 j) ∧
      ((templateOf i).dataBytes ≠ 0 → Aligned (templateOf i) st.1 (st'.2 i)) := by
  unfold placeWord at h
  simp only at h
  split_ifs at h with hdata hslack
  · obtain rfl := Except.ok.inj h
    refine ⟨by rw [hmake], fun j hj => Function.update_of_ne hj _ _, fun _ => ?_⟩
    simp only [Function.update_self]
    refine ⟨by omega, by omega, ?_⟩
    rw [← Nat.add_assoc]
    exact dvd_add_padding (hpos i hdata)
  · obtain rfl := Except.ok.inj h
    exact ⟨by rw [hmake], fun _ _ => rfl, fun hne => absurd hne hdata⟩

theorem placeIsland_spec {l : List ℕ} (hl : l.Nodup) {st st' : ℕ × (ℕ → ℕ)}
    (h : l.foldlM (placeWord templateOf) st = .ok st') :
    st'.1 = st.1 + textBytes (l.map make) ∧ (∀ j ∉ l, st'.2 j = st.2 j) ∧
      ∀ pre i post, l = pre ++ i :: post → (templateOf i).dataBytes ≠ 0 →
        Aligned (templateOf i) (st.1 + textBytes (pre.map make)) (st'.2 i) := by
  induction l generalizing st with
  | nil =>
    obtain rfl := Except.ok.inj h
    exact ⟨by simp [textBytes], fun _ _ => rfl, by simp⟩
  | cons k l ih =>
    rw [List.foldlM_cons] at h
    obtain ⟨st₁, hk, hrest⟩ := exists_of_bind_eq_ok h
    obtain ⟨hat, hsame, hword⟩ := placeWord_spec hpos hmake hk
    obtain ⟨hat', hsame', hwords⟩ := ih (List.nodup_cons.1 hl).2 hrest
    have hkl := (List.nodup_cons.1 hl).1
    refine ⟨?_, ?_, ?_⟩
    · rw [hat', hat]
      simp [textBytes, Nat.add_assoc]
    · intro j hj
      rw [List.mem_cons, not_or] at hj
      rw [hsame' j hj.2, hsame j hj.1]
    · intro pre i post hsplit hdata
      cases pre with
      | nil =>
        obtain ⟨rfl, rfl⟩ : k = i ∧ l = post := by simpa using hsplit
        rw [hsame' k hkl]
        simpa [textBytes] using hword hdata
      | cons k' pre =>
        obtain ⟨rfl, rfl⟩ : k = k' ∧ l = pre ++ i :: post := by simpa using hsplit
        have haligned := hwords pre i post rfl hdata
        rw [hat, Nat.add_assoc] at haligned
        simpa [textBytes] using haligned

variable {fs : List AssembledFunction} {island : ℕ → List ℕ} {entry : Option ℕ}
  (hnodup : ∀ b, (island b).Nodup)
  (hdisjoint : ∀ b b' i, i ∈ island b → i ∈ island b' → b = b')
include hnodup hdisjoint

theorem placeWords_spec {b : ℕ} (hb : b ≤ fs.length) {st : ℕ × (ℕ → ℕ)}
    (h : placeWords templateOf island (fun b => (fs.getD b default).bytes.length) b = .ok st) :
    st.1 = textBytes (mergedBefore fs (fun b => (island b).map make) entry b) ∧
      ∀ b' < b, ∀ pre i post, island b' = pre ++ i :: post → (templateOf i).dataBytes ≠ 0 →
        Aligned (templateOf i)
          (textBytes (mergedBefore fs (fun b => (island b).map make) entry b') +
            textBytes (pre.map make)) (st.2 i) := by
  induction b generalizing st with
  | zero =>
    obtain rfl := Except.ok.inj h
    exact ⟨rfl, by omega⟩
  | succ b ih =>
    rw [placeWords] at h
    obtain ⟨st₁, hb₁, h⟩ := exists_of_bind_eq_ok h
    obtain ⟨st₂, hisland, h⟩ := exists_of_bind_eq_ok h
    obtain rfl := Except.ok.inj h
    obtain ⟨hat, hwords⟩ := ih (by omega) hb₁
    obtain ⟨hat', hsame, hwords'⟩ := placeIsland_spec hpos hmake (hnodup b) hisland
    obtain ⟨f, hf⟩ : ∃ f, fs[b]? = some f := ⟨_, List.getElem?_eq_getElem (by omega)⟩
    refine ⟨?_, ?_⟩
    · rw [mergedBefore_succ hf, textBytes_append, textBytes_append, ← hat]
      simp only
      rw [hat']
      simp [textBytes, List.getD, hf]
    · intro b' hb' pre i post hsplit hdata
      rcases Nat.lt_succ_iff_lt_or_eq.1 hb' with hlt | rfl
      · have hmem : i ∈ island b' := by simp [hsplit]
        have hnot : i ∉ island b := fun hin => absurd (hdisjoint _ _ _ hmem hin) (by omega)
        simp only
        rw [hsame i hnot]
        exact hwords b' hlt pre i post hsplit hdata
      · rw [← hat]
        exact hwords' pre i post hsplit hdata

theorem placeWords_aligned {st st' : ℕ × (ℕ → ℕ)}
    (h : placeWords templateOf island (fun b => (fs.getD b default).bytes.length) fs.length =
      .ok st)
    (h' : (island fs.length).foldlM (placeWord templateOf) st = .ok st') {b : ℕ}
    (hb : b ≤ fs.length) {pre post : List ℕ} {i : ℕ} (hsplit : island b = pre ++ i :: post)
    (hdata : (templateOf i).dataBytes ≠ 0) :
    Aligned (templateOf i)
      (textBytes (mergedBefore fs (fun b => (island b).map make) entry b) +
        textBytes (pre.map make)) (st'.2 i) := by
  obtain ⟨hat, hwords⟩ :=
    @placeWords_spec _ _ hpos hmake fs island entry hnodup hdisjoint _ le_rfl _ h
  obtain ⟨-, hsame, hwords'⟩ := placeIsland_spec hpos hmake (hnodup _) h'
  rcases Nat.lt_or_eq_of_le hb with hlt | rfl
  · have hmem : i ∈ island b := by simp [hsplit]
    have hnot : i ∉ island fs.length := fun hin => absurd (hdisjoint _ _ _ hmem hin) (by omega)
    rw [hsame i hnot]
    exact hwords b hlt pre i post hsplit hdata
  · rw [← hat]
    exact hwords' pre i post hsplit hdata

end DataWords

end DssPrime
