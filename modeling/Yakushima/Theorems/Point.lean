import Yakushima.Theorems.Place

/-! # Lookups of a key

`get`, `remove` and `put` find a key in the same way: in each layer they find the border for the key and
fetch its slot, and a link leads to the next layer. On a tree at rest no check fails on the way. -/

namespace Yakushima
open M Permutation

/-- Where a key is looked for in a layer: the border for it with its place in the layer, and the slot
    that holds the key. -/
structure Located (s : State) (par : Ptr) (link : KeySlice → Ptr) (dead : NodeId → Prop) (t : BTree) (key : Key)
    (c : Ctx) (b : NodeId) (es : List Entry) (bd : Node) (pos : Option Nat) : Prop where
  plug : t = Ctx.plug c (.border b es)
  between : Ctx.Between c (KeyTuple.ofKey key).code
  node : s.node b = some bd
  ok : NodeOk link dead bd ⟨Ctx.parent par c, Ctx.isRoot true c, .border es⟩
  sorted : (es.map Entry.mark).Pairwise (· < ·)
  find : ∃ N, ∀ retry, ∀ fuel ≥ N, run (findBorder fuel retry (some t.id) (.ofKey key) (keyLength key) fuel .ok) s =
    some ((.ok, some b, bd.version), s)
  fetch : ∀ retry fuel, 0 < fuel → run (getLvOf fuel retry b (.ofKey key) (keyLength key)) s = some ((pos, bd.version), s)
  right : bd.version.wrongNode bd.version = false
  absent : pos = none → ∀ e ∈ t.entries, e.key ≠ .ofKey key
  present : ∀ i, pos = some i → i < 15 ∧ ∃ lo e hi, es = lo ++ e :: hi ∧ e.key = .ofKey key ∧
    (slotsOf bd.permutation)[lo.length]? = some i ∧ bd.slot i = e.slot link

section
variable {s : State} {par : Ptr} {link : KeySlice → Ptr} {dead : NodeId → Prop} {t : BTree} {c : Ctx} {b : NodeId}
  {es : List Entry} {bd : Node}

theorem Ctx.mark_mem_flatLeft {e : Entry} (he : e ∈ (Ctx.bordersLeft c).flatMap (·.2)) : e.mark ∈ Ctx.flatLeft c := by
  induction c with
  | nil => simp [bordersLeft] at he
  | cons f c ih =>
    rw [bordersLeft, List.flatMap_append, List.mem_append] at he
    rw [flatLeft, List.mem_append]
    rcases he with he | he
    · exact Or.inl (ih he)
    · rw [Frame.bordersLeft, List.flatMap_assoc] at he
      obtain ⟨x, hx, he⟩ := List.mem_flatMap.mp he
      exact Or.inr (List.mem_flatMap.mpr ⟨x, hx, List.mem_append_left _ (BTree.mark_mem_flat he)⟩)

theorem Ctx.mark_mem_flatRight {e : Entry} (he : e ∈ (Ctx.bordersRight c).flatMap (·.2)) : e.mark ∈ Ctx.flatRight c := by
  induction c with
  | nil => simp [bordersRight] at he
  | cons f c ih =>
    rw [bordersRight, List.flatMap_append, List.mem_append] at he
    rw [flatRight, List.mem_append]
    rcases he with he | he
    · rw [Frame.bordersRight, List.flatMap_assoc] at he
      obtain ⟨x, hx, he⟩ := List.mem_flatMap.mp he
      exact Or.inl (List.mem_flatMap.mpr ⟨x, hx, List.mem_cons_of_mem _ (BTree.mark_mem_flat he)⟩)
    · exact Or.inr (ih he)

/-- The entry of a key that belongs to a border is in the border. -/
theorem mem_border_of_between {e : Entry} (hb : Ctx.Between c e.key.code)
    (he : e ∈ (Ctx.plug c (.border b es)).entries) : e ∈ es := by
  rw [entries_plug, List.mem_append, List.mem_append] at he
  rcases he with (he | he) | he
  · exact absurd (hb.1 _ (Ctx.mark_mem_flatLeft he)) (Nat.lt_irrefl _)
  · exact he
  · exact absurd (hb.2 _ (Ctx.mark_mem_flatRight he)) (Nat.lt_irrefl _)

theorem LayerOk.located (h : LayerOk s par link dead t) (key : Key) :
    ∃ c b es bd pos, Located s par link dead t key c b es bd pos := by
  have henc := KeyTuple.ofKey_encoded key
  have hnorm : KeyTuple.norm (KeySlice.ofKey key) (keyLength key) = .ofKey key := KeyTuple.norm_of_encoded henc
  obtain ⟨c, b, es, bd, rfl, hbt, hb, hfind⟩ := run_findBorder h (.ofKey key) (keyLength key)
  rw [hnorm] at hbt
  obtain ⟨nd, hn, hok⟩ := h.node_at
  obtain rfl : nd = bd := Option.some.inj (hn.symm.trans hb)
  have hsorted := (List.pairwise_append.mp (List.pairwise_append.mp h.border_sorted).1).2.1
  refine ⟨c, b, es, nd, (slotsOf nd.permutation).find? fun i => decide (nd.key i = .ofKey key), rfl, hbt, hb, hok,
    hsorted, hfind,
    fun retry fuel hf => run_getLvOf hb hok hsorted henc hf, ?_, fun hnone e he hk => ?_, fun i hi => ?_⟩
  · -- Only an emptied root is deleted.
    simp only [Version.wrongNode, ne_eq, not_true_eq_false, false_or, decide_eq_false_iff_not, not_and]
    intro hdel
    have hes : es = [] := by
      by_contra hne
      have := hok.members.2.2.1 hne
      rw [this] at hdel
      exact absurd hdel (by simp)
    subst hes
    obtain rfl := h.ctx_eq_nil
    rw [hok.root]
    simp [Ctx.isRoot]
  · have hes := mem_border_of_between (hk.symm ▸ hbt) he
    have hmem : KeyTuple.ofKey key ∈ (slotsOf nd.permutation).map nd.key := by
      rw [map_key_slots hok.toNodeFits]
      exact List.mem_map.mpr ⟨e, hes, hk⟩
    obtain ⟨i, hi, hik⟩ := List.mem_map.mp hmem
    exact absurd hik (by simpa using List.find?_eq_none.mp hnone i hi)
  · have hkey : nd.key i = .ofKey key := by simpa using List.find?_some hi
    have hmem := List.mem_of_find?_eq_some hi
    obtain ⟨r, hr⟩ := List.mem_iff_getElem?.mp hmem
    obtain ⟨e, he, hslot⟩ := rank_of_slot hok.toNodeFits hr
    obtain ⟨hlt, hget⟩ := List.getElem?_eq_some_iff.mp he
    refine ⟨hok.members.2.2.2.2.1 i hmem, es.take r, e, es.drop (r + 1), ?_, ?_, ?_, hslot⟩
    · rw [← hget, List.getElem_cons_drop, List.take_append_drop]
    · exact (congrArg Prod.fst hslot).symm.trans hkey
    · rw [List.length_take, Nat.min_eq_left (Nat.le_of_lt hlt)]
      exact hr

/-- The key that the slot of a layer leaves for the next one. -/
theorem drop_layer (key : Key) (j : Nat) : (key.drop (8 * j)).drop sliceSize = key.drop (8 * (j + 1)) := by
  rw [List.drop_drop]
  rfl

/-- A forest without a first layer has none at all. -/
theorem Holds.empty {ti : TreeId} {A : Forest} (H : Holds s ti A dead) (hA : A [] = none) (π : Path) : A π = none := by
  induction π with
  | nil => exact hA
  | cons sl π ih =>
    cases hu : A (sl :: π) with
    | none => rfl
    | some u =>
      obtain ⟨t, ht, -⟩ := (H.ok.linked sl π).mp ⟨u, hu⟩
      exact absurd (ht.symm.trans ih) (by simp)

/-- What the slot of a key says in the layer after its first `j` slices. -/
theorem Holds.located_cases {ti : TreeId} {A : Forest} {key : Key} {j : Nat} {pos : Option Nat} (H : Holds s ti A dead)
    (hj : j ≤ Yakushima.layers key) (ht : A (layerPath [] key j) = some t)
    (hl : Located s (A.parent (layerPath [] key j)) (A.link (layerPath [] key j)) dead t (key.drop (8 * j)) c b es bd pos) :
    (pos = none ∧ ∀ v, ¬ A.Binds key v) ∨
    (∃ i v, pos = some i ∧ j = Yakushima.layers key ∧ bd.keyLength i ≤ sliceSize ∧ bd.lv i = .value v ∧ A.Binds key v) ∨
    ∃ i u, pos = some i ∧ j < Yakushima.layers key ∧ ¬ bd.keyLength i ≤ sliceSize ∧ bd.lv i = .link u.id ∧
      A (layerPath [] key (j + 1)) = some u := by
  cases hp : pos with
  | none => exact Or.inl ⟨rfl, fun v => H.not_binds hj ht (hl.absent hp)⟩
  | some i =>
    right
    obtain ⟨hi, lo, e, hi', rfl, hek, -, hslot⟩ := hl.present i hp
    have hmem : e ∈ t.entries :=
      BTree.mem_entries.mpr ⟨b, lo ++ e :: hi', by rw [hl.plug, Ctx.plug_borders]; simp [BTree.borders], by simp⟩
    have hlayer := ((H.layers ht).entry_ok hmem).2
    have hklen : bd.keyLength i = keyLength (key.drop (8 * j)) :=
      congrArg KeyTuple.length ((congrArg Prod.fst hslot).trans hek)
    have hlv : bd.lv i = (e.slot (A.link (layerPath [] key j))).2 := congrArg Prod.snd hslot
    have hdl : (key.drop (8 * j)).length = key.length - 8 * j := List.length_drop
    by_cases hlen : (key.drop (8 * j)).length ≤ 8
    · have hjl : j = Yakushima.layers key := by
        simp only [Yakushima.layers] at hj ⊢
        omega
      rw [keyLength_of_le hlen] at hklen
      cases hc : e.content with
      | layer =>
        have := hlayer.mp hc
        rw [hek, KeyTuple.ofKey, keyLength_of_le hlen] at this
        simp only at this
        omega
      | value v =>
        refine Or.inl ⟨i, v, rfl, hjl, by simp only [sliceSize]; omega, ?_, ⟨t, by rw [keyPath, ← hjl]; exact ht, ?_⟩⟩
        · rw [hlv, Entry.slot, hc]
        · have he : e = ⟨.ofKey (keyRest key), .value v⟩ := by
            rw [keyRest, ← hjl, ← hek, ← hc]
          rw [← he]
          exact hmem
    · have hjl : j < Yakushima.layers key := by
        simp only [Yakushima.layers] at hj ⊢
        omega
      have hc : e.content = .layer := hlayer.mpr (by rw [hek]; exact keyLength_of_gt (by omega))
      have hsl : e.key.slice = .ofKey (key.drop (8 * j)) := by rw [hek]; rfl
      obtain ⟨u, hu⟩ := (H.ok.linked e.key.slice (layerPath [] key j)).mpr ⟨t, ht, e, hmem, rfl, hc⟩
      rw [hsl] at hu
      refine Or.inr ⟨i, u, rfl, hjl, ?_, ?_, hu⟩
      · rw [hklen, keyLength_of_gt (by omega)]
        decide
      rw [hlv]
      refine slot_link.mpr ⟨hc, ?_⟩
      rw [hsl, Forest.link, hu]
      rfl

/-! ### `get` -/

/-- The length that `get_len` answers. -/
def State.lenOf (s : State) : ValuePtr → Nat
  | .word _ => 8
  | .heap v => ((s.block v).map Block.len).getD 0

theorem run_getLen {α : Type} {v : ValuePtr} (h : ∀ w, v = .heap w → ∃ x, s.block w = some x) (k : Nat → M α) :
    run (getLen v >>= k) s = run (k (s.lenOf v)) s := by
  cases v with
  | word w => rfl
  | heap w =>
    obtain ⟨x, hx⟩ := h w rfl
    simp [getLen, run, op, Lib.Prog.run, exec, State.lenOf, hx]

variable {ti : TreeId} {key fullKey : Key} {pos : Option Nat}

/-- One layer of `get`. -/
theorem Located.run_get (hl : Located s par link dead t key c b es bd pos) : ∃ N, ∀ retry, ∀ fuel ≥ N, ∀ k,
    (pos = none → run (getLoop fuel retry ti fullKey (k + 2) (.retryFindBorder (some t.id) key)) s =
      some ((.warnNotExist, none), s)) ∧
    ∀ i, pos = some i → run (getLoop fuel retry ti fullKey (k + 2) (.retryFindBorder (some t.id) key)) s =
      run (if bd.keyLength i ≤ sliceSize then do
          let len ← getLen (bd.lv i).getValue
          pure (.ok, some ((bd.lv i).getValue, len))
        else getLoop fuel retry ti fullKey k (.retryFindBorder (bd.lv i).getNextLayer (key.drop sliceSize))) s := by
  obtain ⟨N, hN⟩ := hl.find
  refine ⟨N + 1, fun retry fuel hf k => ?_⟩
  have hright : ¬ (bd.version.wrongNode bd.version = true) := by simp [hl.right]
  rw [getLoop, run_when_neg (by simp), run_bind_of (hN retry fuel (by omega))]
  simp only [reduceCtorEq, if_false, deref, Lib.Prog.ret_bind]
  rw [getLoop, run_bind_of (hl.fetch retry fuel (by omega))]
  simp only
  rw [if_neg hright]
  refine ⟨?_, ?_⟩
  · rintro rfl
    rfl
  · rintro i rfl
    obtain ⟨hi, -⟩ := hl.present i rfl
    have hk := hl.ok.members.1
    simp only
    rw [run_load_keyLength hl.node hi, run_load_lv hl.node hk hi, run_getStableVersion_bind hl.node hl.ok.stable
      (by omega), if_neg hright,
      if_neg (by simp)]

/-- What `get` answers for a forest. -/
def GetAnswer (s : State) (A : Forest) (key : Key) (r : Status × Option (ValuePtr × Nat)) : Prop :=
  (∃ v, A.Binds key v ∧ r = (.ok, some (v, s.lenOf v))) ∨ (∀ v, ¬ A.Binds key v) ∧ r = (.warnNotExist, none)

/-- The layers of `get` from the one at the first `j` slices on. -/
theorem run_getLoop {A : Forest} (H : Holds s ti A dead) : ∀ (n : Nat) {j : Nat} {t : BTree}, layers key = j + n →
    A (layerPath [] key j) = some t →
    ∃ r N, (∀ retry, ∀ fuel ≥ N, ∀ k ≥ N,
      run (getLoop fuel retry ti fullKey k (.retryFindBorder (some t.id) (key.drop (8 * j)))) s = some (r, s)) ∧
      GetAnswer s A key r := by
  intro n
  induction n with
  | zero =>
    intro j t hj ht
    obtain ⟨c, b, es, bd, pos, hl⟩ := (H.layers ht).located (key.drop (8 * j))
    obtain ⟨N, hN⟩ := hl.run_get
    rcases H.located_cases (by omega) ht hl with ⟨rfl, hno⟩ | ⟨i, v, rfl, -, hlen, hlv, hv⟩ | ⟨i, u, -, hlt, -⟩
    · refine ⟨(.warnNotExist, none), N + 2, fun retry fuel hf k hk => ?_, Or.inr ⟨hno, rfl⟩⟩
      obtain ⟨k, rfl⟩ : ∃ k', k = k' + 2 := ⟨k - 2, by omega⟩
      exact (hN retry fuel (by omega) k).1 rfl
    · refine ⟨(.ok, some (v, s.lenOf v)), N + 2, fun retry fuel hf k hk => ?_, Or.inl ⟨v, hv, rfl⟩⟩
      obtain ⟨k, rfl⟩ : ∃ k', k = k' + 2 := ⟨k - 2, by omega⟩
      rw [(hN retry fuel (by omega) k).2 i rfl, if_pos hlen, hlv, LinkOrValue.getValue_value, run_getLen]
      · rfl
      · rintro w rfl
        obtain ⟨-, x, hx⟩ := H.blocks hv rfl
        exact ⟨x, hx⟩
    · omega
  | succ n ih =>
    intro j t hj ht
    obtain ⟨c, b, es, bd, pos, hl⟩ := (H.layers ht).located (key.drop (8 * j))
    obtain ⟨N, hN⟩ := hl.run_get
    rcases H.located_cases (by omega) ht hl with ⟨rfl, hno⟩ | ⟨i, v, rfl, hjl, -⟩ | ⟨i, u, rfl, hlt, hlen, hlv, hu⟩
    · refine ⟨(.warnNotExist, none), N + 2, fun retry fuel hf k hk => ?_, Or.inr ⟨hno, rfl⟩⟩
      obtain ⟨k, rfl⟩ : ∃ k', k = k' + 2 := ⟨k - 2, by omega⟩
      exact (hN retry fuel (by omega) k).1 rfl
    · omega
    · obtain ⟨r, M, hM, hr⟩ := ih (by omega) hu
      refine ⟨r, M + N + 2, fun retry fuel hf k hk => ?_, hr⟩
      obtain ⟨k, rfl⟩ : ∃ k', k = k' + 2 := ⟨k - 2, by omega⟩
      rw [(hN retry fuel (by omega) k).2 i rfl, if_neg hlen, hlv, LinkOrValue.getNextLayer, drop_layer]
      exact hM retry fuel (by omega) k (by omega)

theorem run_loadRoot {α : Type} (k : Ptr → M α) : run (op (.loadRoot ti) >>= k) s = run (k (s.root ti)) s := rfl

/-- `get` on a tree that holds a forest. -/
theorem run_get {A : Forest} (H : Holds s ti A dead) (key : Key) :
    ∃ r N, (∀ retry, ∀ fuel ≥ N, run (get fuel retry ti key) s = some (r, s)) ∧
    GetAnswer s A key r := by
  cases hA : A [] with
  | none =>
    refine ⟨(.warnNotExist, none), 1, fun retry fuel hf => ?_, Or.inr ⟨fun v hv => ?_, rfl⟩⟩
    · obtain ⟨k, rfl⟩ : ∃ k', fuel = k' + 1 := ⟨fuel - 1, by omega⟩
      rw [get, getLoop, run_loadRoot, H.root, hA, Option.map_none, if_pos rfl]
      rfl
    · obtain ⟨t, ht, -⟩ := hv
      exact absurd (ht.symm.trans (H.empty hA _)) (by simp)
  | some t =>
    obtain ⟨r, N, hN, hr⟩ := run_getLoop H (layers key) (Nat.zero_add _).symm hA
    refine ⟨r, N + 1, fun retry fuel hf => ?_, hr⟩
    obtain ⟨k, rfl⟩ : ∃ k', fuel = k' + 1 := ⟨fuel - 1, by omega⟩
    rw [get, getLoop, run_loadRoot, H.root, hA, if_neg (by simp)]
    exact hN retry (k + 1) (by omega) k (by omega)

/-! ### `remove` -/

theorem Located.locked (hl : Located s par link dead t key c b es bd pos) :
    NodeFits link dead (bd.mapVersion (.setLocked true)) ⟨Ctx.parent par c, Ctx.isRoot true c, .border es⟩ :=
  ⟨hl.ok.parent, hl.ok.root, hl.ok.body, hl.ok.members.mapVersion rfl rfl⟩

/-- The search under the lock finds the same slot. -/
theorem Located.run_getLvOfWithoutLock (hl : Located s par link dead t key c b es bd pos) {i : Nat} (hi : pos = some i) :
    ∃ j, run (getLvOfWithoutLock b (.ofKey key) (keyLength key)) (s.setNode b (bd.mapVersion (.setLocked true))) =
      some (some j, s.setNode b (bd.mapVersion (.setLocked true))) := by
  obtain ⟨-, lo, e, hi', rfl, hek, hr, hslot⟩ := hl.present i hi
  have hkey : (bd.mapVersion (.setLocked true)).key i = .ofKey key := (congrArg Prod.fst hslot).trans hek
  have hrun := run_searchLvWithoutLock (s := s.setNode b (bd.mapVersion (.setLocked true))) (State.setNode_node_same _ _ _)
    (KeyTuple.ofKey_encoded key) none (searchOk_of_fits hl.locked hl.sorted)
  rw [getLvOfWithoutLock, run_load_permutation (State.setNode_node_same _ _ _) (by exact hl.ok.members.1)]
  cases hf : (slotsOf (bd.mapVersion (.setLocked true)).permutation).find?
    fun j => decide ((bd.mapVersion (.setLocked true)).key j = .ofKey key) with
  | none =>
    have hno := List.find?_eq_none.mp hf i (List.mem_of_getElem? hr)
    simp only [decide_eq_true_eq] at hno
    exact absurd hkey hno
  | some j =>
    rw [hf, Option.some_or] at hrun
    exact ⟨j, hrun⟩

/-- One layer of `remove`. -/
theorem Located.run_remove {token : Token} (hl : Located s par link dead t key c b es bd pos) :
    ∃ N, ∀ retry, ∀ fuel ≥ N, ∀ k,
    (pos = none → run (removeLoop fuel retry token ti fullKey (k + 2) (.retryFindBorder (some t.id) key)) s =
      some (.okNotFound, s)) ∧
    ∀ i, pos = some i → run (removeLoop fuel retry token ti fullKey (k + 2) (.retryFindBorder (some t.id) key)) s =
      if bd.keyLength i ≤ sliceSize then run (do
          borderDeleteOf fuel token ti fuel b (.ofKey key) (keyLength key) true
          pure .ok) (s.setNode b (bd.mapVersion (.setLocked true)))
      else run (removeLoop fuel retry token ti fullKey k (.retryFindBorder (bd.lv i).getNextLayer (key.drop sliceSize)))
        s := by
  obtain ⟨N, hN⟩ := hl.find
  refine ⟨N + 1, fun retry fuel hf k => ?_⟩
  have hright : ¬ (bd.version.wrongNode bd.version = true) := by simp [hl.right]
  rw [removeLoop, run_when_neg (by simp), run_bind_of (hN retry fuel (by omega))]
  simp only [reduceCtorEq, if_false]
  rw [removeLoop]
  simp only
  rw [run_bind_of (hl.fetch retry fuel (by omega))]
  simp only
  rw [if_neg hright]
  refine ⟨?_, ?_⟩
  · rintro rfl
    simp only
    rw [run_getStableVersion_bind hl.node hl.ok.stable (by omega), if_neg (by simp)]
    rfl
  · rintro i rfl
    obtain ⟨hi, -⟩ := hl.present i rfl
    have hk := hl.ok.members.1
    simp only
    rw [run_load_keyLength hl.node hi]
    by_cases hlen : bd.keyLength i ≤ sliceSize
    · obtain ⟨j, hj⟩ := hl.run_getLvOfWithoutLock rfl
      rw [if_pos hlen, if_pos hlen, run_lock_bind hl.node (Version.stable_iff.mp hl.ok.stable).2.1 (by omega),
        run_getBody_bind (State.setNode_node_same _ _ _), if_neg (by exact hright),
          if_neg (by simp [Version.setLocked]), run_bind_of hj]
    · rw [if_neg hlen, if_neg hlen, run_load_lv hl.node hk hi, run_getStableVersion_bind hl.node hl.ok.stable
        (by omega), if_neg hright,
        if_neg (by simp)]

/-- What `remove` does to a forest: nothing if the key is not bound, or the deletion of its entry. -/
def RemoveAnswer (s s' : State) (token : Token) (ti : TreeId) (A : Forest) (dead : NodeId → Prop) (key : Key)
    (r : Status) : Prop :=
  (∃ v σ x t t' lost, A.Binds key v ∧ r = .ok ∧
    Cascade s s' token ti A dead (keyPath key) σ ⟨.ofKey (keyRest key), .value v⟩ x t t' lost) ∨
  (∀ v, ¬ A.Binds key v) ∧ r = (if A [] = none then .okRootIsNull else .okNotFound) ∧ s' = s

/-- The layers of `remove` from the one at the first `j` slices on. -/
theorem run_removeLoop {A : Forest} {token : Token} (H : Holds s ti A dead) (hA : A [] ≠ none) :
    ∀ (n : Nat) {j : Nat} {t : BTree},
    layers key = j + n → A (layerPath [] key j) = some t →
    ∃ r s' N, (∀ retry, ∀ fuel ≥ N, ∀ k ≥ N,
        run (removeLoop fuel retry token ti fullKey k (.retryFindBorder (some t.id) (key.drop (8 * j)))) s = some (r, s')) ∧
      RemoveAnswer s s' token ti A dead key r := by
  intro n
  induction n with
  | zero =>
    intro j t hj ht
    obtain ⟨c, b, es, bd, pos, hl⟩ := (H.layers ht).located (key.drop (8 * j))
    obtain ⟨N, hN⟩ := hl.run_remove
    rcases H.located_cases (by omega) ht hl with ⟨rfl, hno⟩ | ⟨i, v, rfl, hjl, hlen, -, hv⟩ | ⟨i, u, -, hlt, -⟩
    · refine ⟨.okNotFound, s, N + 2, fun retry fuel hf k hk => ?_, Or.inr ⟨hno, by rw [if_neg hA], rfl⟩⟩
      obtain ⟨k, rfl⟩ : ∃ k', k = k' + 2 := ⟨k - 2, by omega⟩
      exact (hN retry fuel (by omega) k).1 rfl
    · obtain ⟨-, lo, e, hi, rfl, hek, -, -⟩ := hl.present i rfl
      have hplug := hl.plug
      subst hplug
      have he : e = ⟨.ofKey (keyRest key), .value v⟩ := by
        obtain ⟨u, hu, hmem⟩ := hv
        rw [keyPath, ← hjl, ht] at hu
        obtain rfl := Option.some.inj hu
        refine (H.layers ht).entry_inj
          (BTree.mem_entries.mpr ⟨b, lo ++ e :: hi, by simp [Ctx.plug_borders, BTree.borders], by simp⟩) hmem ?_
        rw [hek, keyRest, ← hjl]
      subst he
      obtain ⟨s', σ, x, t, t', lost, ⟨M, hM⟩, hcas⟩ := run_borderDeleteOf H (layerPath [] key j) (s := s)
        (fun ρ u _ hu => H.layers hu) rfl rfl ht hl.node fun w hw => by
          obtain ⟨-, y, hy⟩ := H.blocks hv hw
          exact ⟨y, hy⟩
      refine ⟨.ok, s', N + M + 2, fun retry fuel hf k hk => ?_, Or.inl ⟨v, σ, x, t, t', lost, hv, rfl, ?_⟩⟩
      · obtain ⟨k, rfl⟩ : ∃ k', k = k' + 2 := ⟨k - 2, by omega⟩
        have hdel := hM fuel (by omega) fuel (by omega)
        rw [(hN retry fuel (by omega) k).2 i rfl, if_pos hlen, show key.drop (8 * j) = keyRest key by rw [keyRest, hjl]]
        exact run_bind_of hdel _
      · rw [keyPath, ← hjl]
        exact hcas
    · omega
  | succ n ih =>
    intro j t hj ht
    obtain ⟨c, b, es, bd, pos, hl⟩ := (H.layers ht).located (key.drop (8 * j))
    obtain ⟨N, hN⟩ := hl.run_remove
    rcases H.located_cases (by omega) ht hl with ⟨rfl, hno⟩ | ⟨i, v, rfl, hjl, -⟩ | ⟨i, u, rfl, hlt, hlen, hlv, hu⟩
    · refine ⟨.okNotFound, s, N + 2, fun retry fuel hf k hk => ?_, Or.inr ⟨hno, by rw [if_neg hA], rfl⟩⟩
      obtain ⟨k, rfl⟩ : ∃ k', k = k' + 2 := ⟨k - 2, by omega⟩
      exact (hN retry fuel (by omega) k).1 rfl
    · omega
    · obtain ⟨r, s', M, hM, hr⟩ := ih (by omega) hu
      refine ⟨r, s', M + N + 2, fun retry fuel hf k hk => ?_, hr⟩
      obtain ⟨k, rfl⟩ : ∃ k', k = k' + 2 := ⟨k - 2, by omega⟩
      rw [(hN retry fuel (by omega) k).2 i rfl, if_neg hlen, hlv, LinkOrValue.getNextLayer, drop_layer]
      exact hM retry fuel (by omega) k (by omega)

/-- `remove` on a tree that holds a forest. -/
theorem run_remove {A : Forest} (H : Holds s ti A dead) (token : Token) (key : Key) :
    ∃ r s' N, (∀ retry, ∀ fuel ≥ N, run (remove fuel retry token ti key) s = some (r, s')) ∧
      RemoveAnswer s s' token ti A dead key r := by
  cases hA : A [] with
  | none =>
    refine ⟨.okRootIsNull, s, 1, fun retry fuel hf => ?_, Or.inr ⟨fun v hv => ?_, by rw [if_pos hA], rfl⟩⟩
    · obtain ⟨k, rfl⟩ : ∃ k', fuel = k' + 1 := ⟨fuel - 1, by omega⟩
      rw [remove, removeLoop, run_loadRoot, H.root, hA, Option.map_none, if_pos rfl]
      rfl
    · obtain ⟨t, ht, -⟩ := hv
      exact absurd (ht.symm.trans (H.empty hA _)) (by simp)
  | some t =>
    obtain ⟨r, s', N, hN, hr⟩ := run_removeLoop H (by simp [hA]) (layers key) (Nat.zero_add _).symm hA
    refine ⟨r, s', N + 1, fun retry fuel hf => ?_, hr⟩
    obtain ⟨k, rfl⟩ : ∃ k', fuel = k' + 1 := ⟨fuel - 1, by omega⟩
    rw [remove, removeLoop, run_loadRoot, H.root, hA, if_neg (by simp)]
    exact hN retry (k + 1) (by omega) k (by omega)

end
end Yakushima
