import Yakushima.Theorems.InteriorDelete

/-! # Deletion from a border

`border_node::delete_of` on a locked border: the entry leaves the border, and a border that becomes empty
leaves the leaf chain and its parent. Only the root of the whole tree stays when it becomes empty. -/

namespace Yakushima
open M Permutation

/-! ### The entry leaves the border -/

/-- The memory after a value was handed to the garbage container; an inline word needs no step. -/
def State.release (s : State) (token : Token) : ValuePtr → State
  | .word _ => s
  | .heap v => match s.block v with
    | some b => { s with
        block := fun u => if u = v then some { b with needDelete := false } else s.block u
        valueContainer := s.valueContainer ++ [⟨token, s.beginEpoch token, (v, b.gcSize, b.align)⟩] }
    | none => s

def State.releaseContent (s : State) (token : Token) : Content → State
  | .value v => s.release token v
  | .layer => s

def Content.isValue : Content → Bool
  | .value _ => true
  | .layer => false

/-- The word of a slot whose entry was deleted: only a heap value is cleared. -/
def LinkOrValue.cleared : LinkOrValue → LinkOrValue
  | .value (.heap _) => .empty
  | lv => lv

/-- A border without the live slot `index` of the rank `rank`. -/
def Node.eraseSlot (nd : Node) (rank index : Nat) : Node :=
  { nd with
    lv := upd nd.lv index (nd.lv index).cleared
    permutation := Permutation.decKeyNum (Permutation.deleteRank nd.permutation rank) }

theorem State.release_node (s : State) (token : Token) (v : ValuePtr) : (s.release token v).node = s.node := by
  cases v with
  | word w => rfl
  | heap v =>
    simp only [release]
    cases s.block v <;> rfl

theorem State.release_nextNode (s : State) (token : Token) (v : ValuePtr) : (s.release token v).nextNode = s.nextNode := by
  cases v with
  | word w => rfl
  | heap v =>
    simp only [release]
    cases s.block v <;> rfl

theorem State.release_root (s : State) (token : Token) (v : ValuePtr) : (s.release token v).root = s.root := by
  cases v with
  | word w => rfl
  | heap v =>
    simp only [release]
    cases s.block v <;> rfl

@[simp] theorem State.releaseContent_node (s : State) (token : Token) (c : Content) :
    (s.releaseContent token c).node = s.node := by
  cases c with
  | value v => exact s.release_node token v
  | layer => rfl

@[simp] theorem State.releaseContent_nextNode (s : State) (token : Token) (c : Content) :
    (s.releaseContent token c).nextNode = s.nextNode := by
  cases c with
  | value v => exact s.release_nextNode token v
  | layer => rfl

@[simp] theorem State.releaseContent_root (s : State) (token : Token) (c : Content) :
    (s.releaseContent token c).root = s.root := by
  cases c with
  | value v => exact s.release_root token v
  | layer => rfl

theorem State.release_setNode (s : State) (token : Token) (v : ValuePtr) (n : NodeId) (nd : Node) :
    (s.setNode n nd).release token v = (s.release token v).setNode n nd := by
  cases v with
  | word w => rfl
  | heap v =>
    simp only [release, setNode_block]
    cases s.block v <;> rfl

theorem State.releaseContent_setNode (s : State) (token : Token) (c : Content) (n : NodeId) (nd : Node) :
    (s.setNode n nd).releaseContent token c = (s.releaseContent token c).setNode n nd := by
  cases c with
  | value v => exact s.release_setNode token v n nd
  | layer => rfl

section
variable {s : State} {n : NodeId} {nd : Node} {link : KeySlice → Ptr} {dead dead' : NodeId → Prop} {token : Token}

/-- The release of a heap value. -/
theorem run_release {α : Type} {v : ValueId} {b : Block} (hb : s.block v = some b) (k : Unit → M α) :
    run (op (.removeDeleteFlag v) >>= fun _ => pushValueContainer token v >>= k) s =
      run (k ()) (s.release token (.heap v)) := by
  have h1 : run (op (.removeDeleteFlag v)) s = some ((), { s with
      block := fun u => if u = v then some { b with needDelete := false } else s.block u }) := by
    simp [run, op, Lib.Prog.run, exec, hb]
  rw [run_bind_of h1]
  have h2 : run (pushValueContainer token v) { s with
      block := fun u => if u = v then some { b with needDelete := false } else s.block u } =
      some ((), s.release token (.heap v)) := by
    simp [run, op, Lib.Prog.run, exec, pushValueContainer, State.release, hb, Block.gcSize]
  rw [run_bind_of h2]

theorem upd_self {β : Type} (f : Nat → β) (i : Nat) : upd f i (f i) = f := by
  funext j
  by_cases hj : j = i
  · rw [hj, upd_same]
  · rw [upd_ne hj]

theorem LinkOrValue.getValue_value (v : ValuePtr) : (LinkOrValue.value v).getValue = v := rfl

theorem run_releaseValue {index : Nat} {v : ValuePtr} (hn : s.node n = some nd) (hk : nd.kind = .border) (hi : index < 15)
    (hv : nd.lv index = .value v) (hblock : ∀ b, v = .heap b → ∃ bd, s.block b = some bd) :
    run (releaseValue token n index) s =
      some ((), (s.release token v).setNode n (nd.set (.lv index) (nd.lv index).cleared)) := by
  rw [releaseValue, run_load_lv hn hk hi]
  cases v with
  | word w =>
    have hcl : (nd.lv index).cleared = nd.lv index := by rw [hv]; rfl
    have hset : nd.set (.lv index) (nd.lv index) = nd := by simp only [Node.set, upd_self]
    have hs : (s.release token (.word w)).setNode n nd = s := State.setNode_self hn
    rw [hcl, hset, hs, hv, LinkOrValue.getValue_value]
    rfl
  | heap b =>
    obtain ⟨bd, hb⟩ := hblock b rfl
    have hs1 : (s.release token (.heap b)).node n = some nd := by rw [State.release_node, hn]
    have hcl : (nd.lv index).cleared = .empty := by rw [hv]; rfl
    rw [hcl, hv, LinkOrValue.getValue_value]
    simp only
    rw [run_release hb, run_store hs1 (admits_lv hk hi)]

theorem run_deleteAt {rank index : Nat} {e : Entry} (hn : s.node n = some nd) (hk : nd.kind = .border) (hi : index < 15)
    (hr : rank < getCnk nd.permutation) (hlv : nd.lv index = (e.slot link).2)
    (hblock : ∀ v, e.content = .value (.heap v) → ∃ b, s.block v = some b) :
    run (deleteAt token n rank index e.content.isValue) s =
      some ((), (s.releaseContent token e.content).setNode n (nd.eraseSlot rank index)) := by
  have hend : ∀ {s' : State} {nd' : Node}, s'.node n = some nd' → nd'.kind = .border →
    rank < getCnk nd'.permutation → run (do
      deleteRank n rank
      decKeyNum n) s' = some ((), s'.setNode n
        (nd'.set .permutation (Permutation.decKeyNum (Permutation.deleteRank nd'.permutation rank)))) := by
    intro s' nd' hn' hk' hr'
    rw [deleteRank]
    simp only [Lib.Prog.bind_assoc]
    rw [run_load_permutation hn' hk', run_store_permutation hn' hk',
      run_decKeyNum (State.setNode_node_same _ _ _) (by exact hk')
        (Nat.lt_of_lt_of_eq (Nat.zero_lt_of_lt hr') (getCnk_deleteRank hr').symm),
      State.setNode_setNode]
    simp only [Node.set]
  rw [deleteAt]
  cases hc : e.content with
  | layer =>
    have hcl : (nd.lv index).cleared = nd.lv index := by
      rw [hlv, Entry.slot, hc]
      dsimp only
      cases link e.key.slice <;> rfl
    rw [run_when_neg (by simp [Content.isValue]), hend hn hk hr]
    simp only [Node.eraseSlot, hcl, upd_self, Node.set, State.releaseContent]
  | value v =>
    have hv : nd.lv index = .value v := by rw [hlv, Entry.slot, hc]
    have hs1 : (s.release token v).node n = some nd := by rw [State.release_node, hn]
    rw [run_when_pos (by simp [Content.isValue]),
      run_bind_of (run_releaseValue hn hk hi hv fun b hb => hblock b (hc.trans (by rw [hb]))),
      hend (State.setNode_node_same _ _ _) (by exact hk) (by exact hr), State.setNode_setNode]
    simp only [Node.eraseSlot, Node.set, State.releaseContent]

theorem eraseSlot_slots {rank index : Nat} (hr : rank < getCnk nd.permutation) (hnd : (slotsOf nd.permutation).Nodup)
    (hi : (slotsOf nd.permutation)[rank]? = some index) :
    (nd.eraseSlot rank index).slots = nd.slots.eraseIdx rank := by
  have hs : slotsOf (nd.eraseSlot rank index).permutation = (slotsOf nd.permutation).eraseIdx rank := slotsOf_delete hr
  rw [Node.slots, hs, Node.slots, List.eraseIdx_map]
  refine List.map_congr_left fun j hj => ?_
  have hne : j ≠ index := by
    rintro rfl
    obtain ⟨r, hr', hjr⟩ := List.mem_eraseIdx_iff_getElem?.mp hj
    exact hr' ((List.getElem?_inj (List.getElem?_eq_some_iff.mp hjr).1 hnd).mp (hjr.trans hi.symm))
  simp only [Node.slot, Node.key, Node.eraseSlot, upd_ne hne]

/-- The members of a border that lost an entry. -/
theorem MembersOk.eraseSlot {lo hi : List Entry} {e : Entry} {index : Nat}
    (h : MembersOk link dead nd (.border (lo ++ e :: hi))) (hi' : (slotsOf nd.permutation)[lo.length]? = some index)
    (hd : ∀ m, dead m → dead' m) (he : ∀ m, (e.slot link).2 = .link m → dead' m) :
    MembersOk link dead' (nd.eraseSlot lo.length index) (.border (lo ++ hi)) := by
  obtain ⟨hkind, hb, hdel, hnd, hbound, hs, hun⟩ := h
  have hcnk : getCnk nd.permutation = (lo ++ e :: hi).length := by rw [← nd.slots_length, hs, List.length_map]
  have hr : lo.length < getCnk nd.permutation := by
    rw [hcnk, List.length_append, List.length_cons]
    omega
  have hso : slotsOf (nd.eraseSlot lo.length index).permutation = (slotsOf nd.permutation).eraseIdx lo.length :=
    slotsOf_delete hr
  have hlv : nd.lv index = (e.slot link).2 := by
    have hx : nd.slots[lo.length]? = some (nd.slot index) := by rw [Node.slots, List.getElem?_map, hi']; rfl
    rw [hs, List.getElem?_map, List.getElem?_append_right (Nat.le_refl _), Nat.sub_self] at hx
    exact congrArg Prod.snd (Option.some.inj hx).symm
  refine ⟨hkind, hb, fun _ => hdel (by simp), ?_, ?_, ?_, ?_⟩
  · rw [hso]
    exact hnd.sublist (List.eraseIdx_sublist ..)
  · intro j hj
    rw [hso] at hj
    exact hbound j (List.mem_of_mem_eraseIdx hj)
  · rw [eraseSlot_slots hr hnd hi', hs, List.eraseIdx_map]
    congr 1
    rw [List.eraseIdx_append_of_length_le (Nat.le_refl _), Nat.sub_self]
    rfl
  · intro j hj hnot
    by_cases hji : j = index
    · subst hji
      simp only [Node.eraseSlot, upd_same, hlv]
      cases hc : e.content with
      | layer =>
        cases hl : link e.key.slice with
        | none => simp [Entry.slot, hc, hl, LinkOrValue.cleared, Unowned]
        | some m =>
          have := he m (by simp [Entry.slot, hc, hl])
          simpa [Entry.slot, hc, hl, LinkOrValue.cleared, Unowned] using this
      | value v => cases v <;> simp [Entry.slot, hc, LinkOrValue.cleared, Unowned]
    · have hold : j ∉ slotsOf nd.permutation := by
        intro hmem
        refine hnot ?_
        rw [hso]
        obtain ⟨r, hrj⟩ := List.mem_iff_getElem?.mp hmem
        refine List.mem_eraseIdx_iff_getElem?.mpr ⟨r, ?_, hrj⟩
        rintro rfl
        exact hji (Option.some.inj (hrj.symm.trans hi'))
      have : (nd.eraseSlot lo.length index).lv j = nd.lv j := by simp [Node.eraseSlot, upd_ne hji]
      rw [this]
      exact (hun j hj hold).mono hd

end

/-! ### The emptied border leaves the leaf chain -/

/-- The memory in which the border at a pointer, if there is one, has `p` after it. -/
def State.setNextAt (s : State) (x p : Ptr) : State :=
  { s with node := fun y => if x = some y then (s.node y).map (·.set .next p) else s.node y }

/-- The memory in which the neighbours of the border `bd` point past it. -/
def State.unlink (s : State) (bd : Node) : State := (s.setNextAt bd.prev bd.next).setPrevAt bd.next bd.prev

section
variable {s : State} {n b : NodeId} {nd bd : Node} {link : KeySlice → Ptr} {dead dead' : NodeId → Prop} {token : Token}

/-- What unlinking does to the nodes. -/
theorem State.unlink_node (bd : Node) (hn : s.node n = some nd) : ∃ nd', (s.unlink bd).node n = some nd' ∧
    nd'.prev = (if bd.next = some n then bd.prev else nd.prev) ∧
      nd'.next = (if bd.prev = some n then bd.next else nd.next) ∧
    (nd' = nd ∨ nd' = nd.set .prev bd.prev ∨ nd' = nd.set .next bd.next ∨
      nd' = (nd.set .next bd.next).set .prev bd.prev) := by
  by_cases h1 : bd.prev = some n
  · by_cases h2 : bd.next = some n
    · exact ⟨(nd.set .next bd.next).set .prev bd.prev, by simp [unlink, setNextAt, setPrevAt, h1, h2, hn],
        by rw [if_pos h2]; rfl, by rw [if_pos h1]; rfl, by simp⟩
    · exact ⟨nd.set .next bd.next, by simp [unlink, setNextAt, setPrevAt, h1, h2, hn], by rw [if_neg h2]; rfl,
        by rw [if_pos h1]; rfl, by simp⟩
  · by_cases h2 : bd.next = some n
    · exact ⟨nd.set .prev bd.prev, by simp [unlink, setNextAt, setPrevAt, h1, h2, hn], by rw [if_pos h2]; rfl,
        by rw [if_neg h1]; rfl, by simp⟩
    · exact ⟨nd, by simp [unlink, setNextAt, setPrevAt, h1, h2, hn], by rw [if_neg h2], by rw [if_neg h1], by simp⟩

theorem State.unlink_frame (h1 : bd.prev ≠ some n) (h2 : bd.next ≠ some n) : (s.unlink bd).node n = s.node n := by
  simp [unlink, setNextAt, setPrevAt, h1, h2]

theorem NodesOk.unlink {l : List (NodeId × Desc)} (h : NodesOk link dead s l) : NodesOk link dead (s.unlink bd) l := by
  intro p hp
  obtain ⟨nd, hn, hok⟩ := h p hp
  obtain ⟨nd', hn', -, -, hnd'⟩ := State.unlink_node bd hn
  refine ⟨nd', hn', ?_⟩
  rcases hnd' with rfl | rfl | rfl | rfl
  · exact hok
  · exact hok.setPrev _
  · exact hok.setNext _
  · exact (hok.setNext _).setPrev _

theorem run_setPrevOfNext {p : Ptr} (hn : s.node n = some nd) (hk : nd.kind = .border)
    (h : ∀ x, nd.next = some x → ∃ xd, s.node x = some xd ∧ xd.kind = .border) :
    run (setPrevOfNext n p) s = some ((), s.setPrevAt nd.next p) := by
  rw [setPrevOfNext, run_load_next hn hk]
  exact run_setPrevAt h

/-- The loop at `retry_prev_lock`, when no other thread is at work. -/
theorem run_unlinkPrev (hb : s.node b = some bd) (hk : bd.kind = .border)
    (hprev : ∀ p, bd.prev = some p → p ≠ b ∧ ∃ pd, s.node p = some pd ∧ pd.kind = .border ∧ pd.version.stable = true ∧
      pd.version.deleted = false)
    (hnext : ∀ x, bd.next = some x → x ≠ b ∧ bd.prev ≠ some x ∧ ∃ xd, s.node x = some xd ∧ xd.kind = .border) :
    ∀ fuel > 0, ∀ k > 0, run (unlinkPrev fuel b k) s = some ((), s.unlink bd) := by
  intro fuel hf k hk0
  obtain ⟨k, rfl⟩ : ∃ j, k = j + 1 := ⟨k - 1, by omega⟩
  rw [unlinkPrev, run_load_prev hb hk]
  cases hp : bd.prev with
  | none =>
    simp only
    rw [run_setPrevOfNext hb hk fun x hx => (hnext x hx).2.2]
    refine congrArg (fun t => some ((), t)) (State.eq_of_node (fun x => ?_) rfl rfl)
    simp [State.unlink, State.setNextAt, State.setPrevAt, hp]
  | some p =>
    simp only
    obtain ⟨hpb, pd, hpd, hpk, hps, hpdel⟩ := hprev p hp
    have hlock : pd.version.locked = false := (Version.stable_iff.mp hps).2.1
    have hv := Version.unlocked_setLocked hps
    have hb1 : (s.setNode p (pd.mapVersion (.setLocked true))).node b = some bd := (State.setNode_node_ne hpb.symm).trans hb
    rw [run_lock_bind hpd hlock hf, run_isStale hb1 (by simp [Field.admits, hk]) (by exact hp)
      (State.setNode_node_same _ _ _) (by exact hpdel),
      if_neg Bool.false_ne_true, run_load_next hb1 hk,
      run_store_next (State.setNode_node_same _ _ _) (by exact hpk), State.setNode_setNode]
    let s1 := s.setNode p ((pd.mapVersion (.setLocked true)).set .next bd.next)
    have hb2 : s1.node b = some bd := (State.setNode_node_ne hpb.symm).trans hb
    have hp2 : s1.node p = some ((pd.mapVersion (.setLocked true)).set .next bd.next) := State.setNode_node_same _ _ _
    have hpn : bd.next ≠ some p := fun hx => (hnext p hx).2.1 hp
    refine (run_bind_of (run_setPrevOfNext hb2 hk fun x hx => ?_) _).trans ?_
    · obtain ⟨-, h2, xd, hxd, hxk⟩ := hnext x hx
      exact ⟨xd, (State.setNode_node_ne fun he => h2 (hp.trans (congrArg some he.symm))).trans hxd, hxk⟩
    · rw [versionUnlock, run_atomicUpdate ((State.setPrevAt_node_ne hpn).trans hp2) hf]
      refine congrArg (fun t => some ((), t)) (State.eq_of_node (fun x => ?_) rfl rfl)
      by_cases hxp : x = p
      · subst hxp
        rw [State.setNode_node_same, State.unlink, State.setPrevAt_node_ne hpn]
        simp [State.setNextAt, hp, hpd, Node.mapVersion, Node.set, hv]
      · rw [State.setNode_node_ne hxp]
        have hxp' : ¬ some p = some x := fun hx => hxp (Option.some.inj hx).symm
        simp only [State.unlink, State.setPrevAt, State.setNextAt, s1, State.setNode_node_ne hxp, if_neg hxp', hp]

/-! ### `delete_of` -/

/-- What `delete_of` does once the border has lost its last entry. -/
def leaveTree (fuel : Nat) (token : Token) (ti : TreeId) (deleteEntry : NodeId → KeySlice → Nat → M Unit)
    (n : NodeId) : M Unit := do
  setVersionDeleted fuel n true
  let root ← op (.loadRoot ti)
  when (root ≠ some n) (setVersionRoot fuel n false)
  unlinkPrev fuel n fuel
  match ← lockParent fuel n with
  | none => versionUnlock fuel n
  | some p => do
    setVersionRoot fuel n false
    versionUnlock fuel n
    leaveParent fuel token ti (deleteEntry p) p n
    op (.pushNode token n)

variable {par : Ptr} {c : Ctx} {lo hi : List Entry} {e : Entry} {ti : TreeId}

/-- The entry leaves the locked border. -/
theorem run_borderDeleteOf_head (h : LayerOk s par link dead (Ctx.plug c (.border b (lo ++ e :: hi))))
    (hb : s.node b = some bd) (hblock : ∀ v, e.content = .value (.heap v) → ∃ x, s.block v = some x)
    (hd : ∀ m, dead m → dead' m) (he : ∀ m, (e.slot link).2 = .link m → dead' m) :
    ∃ bd', bd'.head = (bd.mapVersion (.setLocked true)).head ∧ MembersOk link dead' bd' (.border (lo ++ hi)) ∧
      ∀ fuel k, run (borderDeleteOf fuel token ti (k + 1) b e.key.slice e.key.length e.content.isValue)
        (s.setNode b (bd.mapVersion (.setLocked true))) =
      run (if (lo ++ hi).length = 0
        then leaveTree fuel token ti (fun p slice length => borderDeleteOf fuel token ti k p slice length false) b
        else versionUnlock fuel b) ((s.releaseContent token e.content).setNode b bd') := by
  obtain ⟨nd, hn, hok⟩ := h.node_at
  obtain rfl : nd = bd := Option.some.inj (hn.symm.trans hb)
  have hbd : NodeFits link dead (nd.mapVersion (.setLocked true)) ⟨_, _, .border (lo ++ e :: hi)⟩ :=
    ⟨hok.parent, hok.root, hok.body, hok.members.mapVersion rfl rfl⟩
  have hsorted := (List.pairwise_append.mp (List.pairwise_append.mp h.border_sorted).1).2.1
  have hek : e.key.Encoded := (hok.body.2 e (by simp)).1
  obtain ⟨i, hi', hi15, hslot⟩ := slot_of_rank hbd (r := lo.length) (e := e) (by simp)
  have hcnk : getCnk (nd.mapVersion (.setLocked true)).permutation = (lo ++ e :: hi).length := cnk_eq_length hbd
  refine ⟨(nd.mapVersion (.setLocked true)).eraseSlot lo.length i, rfl, hbd.members.eraseSlot hi' hd he, fun fuel k => ?_⟩
  have hsearch := run_searchKey (s := s.setNode b (nd.mapVersion (.setLocked true))) (k := e.key)
    (State.setNode_node_same _ _ _) hek 0
    (searchOk_of_fits hbd hsorted) hi' (congrArg Prod.fst hslot)
  rw [borderDeleteOf, run_load_permutation (State.setNode_node_same _ _ _) (by exact hok.members.1), run_bind_of hsearch]
  simp only
  have hdel := @run_deleteAt (s.setNode b (nd.mapVersion (.setLocked true))) _ _ _ token lo.length _ e
    (State.setNode_node_same _ _ _) (by exact hok.members.1) hi15
    (Nat.lt_of_lt_of_eq (by simp) hcnk.symm) (congrArg Prod.snd hslot) hblock
  rw [Nat.zero_add, run_bind_of hdel, State.releaseContent_setNode, State.setNode_setNode, hcnk]
  by_cases h0 : (lo ++ hi).length = 0
  · rw [if_pos h0, if_pos (by simp only [List.length_append, List.length_cons] at h0 ⊢; omega)]
    rfl
  · rw [if_neg h0, if_neg (by simp only [List.length_append, List.length_cons] at h0 ⊢; omega)]

/-- The version of a border that left the tree. -/
def Version.left (v : Version) : Version := unlocked (setRoot false (setDeleted true v))

/-- An emptied border leaves the leaf chain, and its parent is locked. -/
theorem run_leaveTree_parent {p : NodeId} {pd : Node} (hb : s.node b = some bd) (hk : bd.kind = .border)
    (hprev : ∀ p, bd.prev = some p → p ≠ b ∧ ∃ pd, s.node p = some pd ∧ pd.kind = .border ∧ pd.version.stable = true ∧
      pd.version.deleted = false)
    (hnext : ∀ x, bd.next = some x → x ≠ b ∧ bd.prev ≠ some x ∧ ∃ xd, s.node x = some xd ∧ xd.kind = .border)
    (hp : bd.parent = some p) (hpb : p ≠ b) (hpp : bd.prev ≠ some p) (hpn : bd.next ≠ some p) (hpd : s.node p = some pd)
    (hlock : pd.version.locked = false) (deleteEntry : NodeId → KeySlice → Nat → M Unit) : ∀ fuel > 0,
    run (leaveTree fuel token ti deleteEntry b) s = run (do
      leaveParent fuel token ti (deleteEntry p) p b
      op (.pushNode token b))
        (((s.unlink bd).setNode b (bd.mapVersion .left)).setNode p (pd.mapVersion (.setLocked true))) := by
  intro fuel hf
  -- The root bit may be cleared twice.
  have hclear : ∃ f : Version → Version, (∀ v, Version.setRoot false (f v) = .setRoot false (.setDeleted true v)) ∧
      ∀ k : M Unit, run (do
        setVersionDeleted fuel b true
        let root ← op (.loadRoot ti)
        when (root ≠ some b) (setVersionRoot fuel b false)
        k) s = run k (s.setNode b (bd.mapVersion f)) := by
    have hload : ∀ (k : Ptr → M Unit), run (op (.loadRoot ti) >>= k) (s.setNode b (bd.mapVersion (.setDeleted true))) =
        run (k (s.root ti)) (s.setNode b (bd.mapVersion (.setDeleted true))) := fun k => run_bind_of (by rfl) k
    by_cases hr : s.root ti = some b
    · refine ⟨.setDeleted true, fun v => rfl, fun k => ?_⟩
      rw [setVersionDeleted, run_atomicUpdate_bind hb hf, hload, run_when_neg (by simp [hr])]
    · refine ⟨fun v => .setRoot false (.setDeleted true v), fun v => rfl, fun k => ?_⟩
      rw [setVersionDeleted, run_atomicUpdate_bind hb hf, hload, run_when_pos (by exact hr), setVersionRoot,
        run_atomicUpdate_bind (State.setNode_node_same _ _ _) hf, State.setNode_setNode]
      rfl
  obtain ⟨f, hfv, hrun⟩ := hclear
  rw [leaveTree, hrun]
  have hb1 : (s.setNode b (bd.mapVersion f)).node b = some (bd.mapVersion f) := State.setNode_node_same _ _ _
  rw [run_bind_of (run_unlinkPrev hb1 (by exact hk)
    (fun q hq => by
      obtain ⟨h1, qd, h2, h3⟩ := hprev q hq
      exact ⟨h1, qd, (State.setNode_node_ne h1).trans h2, h3⟩)
    (fun x hx => by
      obtain ⟨h1, h2, xd, h3, h4⟩ := hnext x hx
      exact ⟨h1, h2, xd, (State.setNode_node_ne h1).trans h3, h4⟩) fuel hf fuel hf)]
  let s1 := (s.setNode b (bd.mapVersion f)).unlink (bd.mapVersion f)
  have hbp : bd.prev ≠ some b := fun he => (hprev b he).1 rfl
  have hbn : bd.next ≠ some b := fun he => (hnext b he).1 rfl
  have hb2 : s1.node b = some (bd.mapVersion f) := (State.unlink_frame (by exact hbp) (by exact hbn)).trans hb1
  have hp2 : s1.node p = some pd := (State.unlink_frame (by exact hpp) (by exact hpn)).trans
    ((State.setNode_node_ne hpb).trans hpd)
  refine (run_bind_of (run_lockParent_some hb2 (by exact hp) hpb.symm hp2 hlock hf) _).trans ?_
  simp only
  rw [setVersionRoot, run_atomicUpdate_bind ((State.setNode_node_ne hpb.symm).trans hb2) hf,
    run_versionUnlock hf (State.setNode_node_same _ _ _), State.setNode_setNode]
  congr 1
  refine State.eq_of_node (fun x => ?_) rfl rfl
  by_cases hxb : x = b
  · subst hxb
    rw [State.setNode_node_same, State.setNode_node_ne hpb.symm, State.setNode_node_same]
    simp [Node.mapVersion, Version.left, hfv]
  · rw [State.setNode_node_ne hxb]
    by_cases hxp : x = p
    · subst hxp
      rw [State.setNode_node_same, State.setNode_node_same]
    · rw [State.setNode_node_ne hxp, State.setNode_node_ne hxp, State.setNode_node_ne hxb]
      simp only [s1, State.unlink, State.setPrevAt, State.setNextAt, State.setNode_node_ne hxb, Node.mapVersion]

end
end Yakushima
