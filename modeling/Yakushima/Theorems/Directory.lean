import Yakushima.Spec.Directory
import Yakushima.Theorems.Clean
import Yakushima.Theorems.GarbageCollection
import Yakushima.Theorems.LinkSlot
import Yakushima.Theorems.World

/-! # The storages refine a map of maps -/

namespace Yakushima
open M Permutation

namespace Directory

/-- The maps of the trees are the storages of a directory. -/
structure Linked (W : TreeId → MapState) (d : DirState) : Prop where
  rooted : (W storages).rooted = d.rooted
  idle : W newInstance = ⟨false, ∅⟩
  bound : ∀ {name b}, (W storages).map.lookup name = some b → ∃ v, b.ptr = .heap v ∧
    d.stores.lookup name = some ⟨instanceAt v, W (instanceAt v)⟩ ∧ (W (instanceAt v)).rooted = true
  unbound : ∀ {name}, (W storages).map.lookup name = none → d.stores.lookup name = none
  unused : ∀ v, (∀ name b, (W storages).map.lookup name = some b → b.ptr ≠ .heap v) → W (instanceAt v) = ⟨false, ∅⟩

/-- A memory with the storages of a directory. -/
def Represents (N : Nat) (s : State) (d : DirState) : Prop := ∃ F W, World N s F W ∧ Linked W d

section
variable {N : Nat} {s s' : State} {F : TreeId → Forest} {W : TreeId → MapState} {d : DirState} {name : Key}
  {S : Store} {α : Type}

theorem instanceAt_ne (v : ValueId) : instanceAt v ≠ storages ∧ instanceAt v ≠ newInstance :=
  ⟨Nat.succ_ne_zero _, fun h => by cases h⟩

theorem instanceAt_inj {u v : ValueId} (h : instanceAt u = instanceAt v) : u = v := Nat.add_right_cancel h

/-- A block is the instance of one name. -/
theorem name_inj (h : World N s F W) {n n' : Key} {b b' : Binding} {v : ValueId} (hb : (W storages).map.lookup n = some b)
    (hb' : (W storages).map.lookup n' = some b') (hp : b.ptr = .heap v) (hp' : b'.ptr = .heap v) : n = n' := by
  obtain ⟨dead, hr⟩ := h.refines storages
  refine hr.holds.binds_key_inj (v := v) ?_ ?_
  · exact hp ▸ (hr.binds n b.ptr).mpr ⟨b.value, hb⟩
  · exact hp' ▸ (hr.binds n' b'.ptr).mpr ⟨b'.value, hb'⟩

theorem Linked.lookup_iff (hd : Linked W d) : d.stores.lookup name = some S ↔
    ∃ b v, (W storages).map.lookup name = some b ∧ b.ptr = .heap v ∧ S = ⟨instanceAt v, W (instanceAt v)⟩ := by
  constructor
  · intro hS
    cases hb : (W storages).map.lookup name with
    | none => exact absurd ((hd.unbound hb).symm.trans hS) (by simp)
    | some b =>
      obtain ⟨v, hp, hl, -⟩ := hd.bound hb
      exact ⟨b, v, rfl, hp, Option.some.inj (hS.symm.trans hl)⟩
  · rintro ⟨b, v, hb, hp, rfl⟩
    obtain ⟨v', hp', hl, -⟩ := hd.bound hb
    obtain rfl : v' = v := by simpa using hp'.symm.trans hp
    exact hl

theorem Linked.lookup_none (hd : Linked W d) : d.stores.lookup name = none ↔ (W storages).map.lookup name = none := by
  refine ⟨fun hn => ?_, hd.unbound⟩
  cases hb : (W storages).map.lookup name with
  | none => rfl
  | some b =>
    obtain ⟨v, -, hl, -⟩ := hd.bound hb
    exact absurd (hn.symm.trans hl) (by simp)

/-! ### Names -/

theorem returns_findStorage (h : World N s F W) (hd : Linked W d) (name : Key) : ∃ r,
    Returns (fun fuel => findStorage fuel (pure ()) name) s r s ∧
      ((d.stores.lookup name = none ∧ r = (.warnNotExist, none)) ∨
      ∃ S, d.stores.lookup name = some S ∧ r = (.ok, some S.tree)) := by
  obtain ⟨dead, hr⟩ := h.refines storages
  obtain ⟨r, ⟨K, hK⟩, hcase⟩ := hr.get_returns (h.representable storages) name
  rcases hcase with ⟨b, hb, rfl⟩ | ⟨hb, rfl⟩
  · obtain ⟨v, hp, hl, -⟩ := hd.bound hb
    refine ⟨_, ⟨K, fun fuel hf => ?_⟩, Or.inr ⟨_, hl, rfl⟩⟩
    change run (findStorage fuel (pure ()) name) s = _
    rw [findStorage, run_bind_of (hK fuel hf), hp]
    rfl
  · refine ⟨_, ⟨K, fun fuel hf => ?_⟩, Or.inl ⟨hd.unbound hb, rfl⟩⟩
    change run (findStorage fuel (pure ()) name) s = _
    rw [findStorage, run_bind_of (hK fuel hf)]
    rfl

/-- An operation on a storage that exists. -/
theorem returns_withStorage (h : World N s F W) (hd : Linked W d) (hS : d.stores.lookup name = some S) {missing a : α}
    {f : Nat → TreeId → M α} (hf : Returns (fun fuel => f fuel S.tree) s a s') :
    Returns (fun fuel => withStorage fuel (pure ()) name missing (f fuel)) s a s' := by
  obtain ⟨r, hr, ⟨hn, -⟩ | ⟨S', hS', rfl⟩⟩ := returns_findStorage h hd name
  · exact absurd (hn.symm.trans hS) (by simp)
  · obtain rfl := Option.some.inj (hS.symm.trans hS')
    obtain ⟨K, hK⟩ := hr
    obtain ⟨K', hK'⟩ := hf
    refine ⟨K + K', fun fuel hk => ?_⟩
    change run (withStorage fuel (pure ()) name missing (f fuel)) s = _
    rw [withStorage, run_bind_of (hK fuel (by lia))]
    exact hK' fuel (by lia)

/-- And on one that does not. -/
theorem returns_withStorage_none (h : World N s F W) (hd : Linked W d) (hn : d.stores.lookup name = none) (missing : α)
    (f : Nat → TreeId → M α) :
    Returns (fun fuel => withStorage fuel (pure ()) name missing (f fuel)) s missing s := by
  obtain ⟨r, hr, ⟨-, rfl⟩ | ⟨S, hS, -⟩⟩ := returns_findStorage h hd name
  · obtain ⟨K, hK⟩ := hr
    refine ⟨K, fun fuel hk => ?_⟩
    change run (withStorage fuel (pure ()) name missing (f fuel)) s = _
    rw [withStorage, run_bind_of (hK fuel hk)]
    rfl
  · exact absurd (hn.symm.trans hS) (by simp)

/-- The release of a tree. -/
theorem returns_releaseTree (h : World N s F W) (ti : TreeId) : ∃ s',
    Returns (fun fuel => releaseTree fuel ti) s () s' ∧
      World N s' (Function.update F ti fun _ => none) (Function.update W ti ⟨false, ∅⟩) := by
  obtain ⟨dead, hr⟩ := h.refines ti
  cases hroot : s.root ti with
  | none =>
    obtain ⟨hF, hW⟩ := hr.eq_null hroot
    refine ⟨s, ⟨0, fun fuel _ => ?_⟩, ?_⟩
    · change run (releaseTree fuel ti) s = some ((), s)
      rw [releaseTree, run_loadRoot, hroot]
      rfl
    · rwa [← hF, ← hW, Function.update_eq_self, Function.update_eq_self]
  | some r =>
    obtain ⟨K, hK⟩ := hr.holds.returns_destroyRoot (hr.ownsBlocks (h.representable ti)) hroot
    refine ⟨_, ⟨K, fun fuel hf => ?_⟩, h.drop ti⟩
    have hrun : run (do
        destroyNode fuel r
        op (.storeRoot ti none)) s = some ((), s.dropTree ti (F ti)) := run_bind_of (hK fuel hf) _
    rw [destroyNode, Lib.Prog.bind_assoc] at hrun
    change run (releaseTree fuel ti) s = some ((), s.dropTree ti (F ti))
    rw [releaseTree, run_loadRoot, hroot]
    exact hrun

/-! ### The calls one by one -/

/-- A call returns, as one call on the directory. -/
def Steps (s : State) (d : DirState) (c : Call N) : Prop := ∃ a s' d', (∃ K, ∀ fuel ≥ K, c.exec fuel s = some (a, s')) ∧
    DirStep d c a d' ∧
  Represents N s' d'

theorem returns_exec {p : Nat → M α} {a : α} (h : Returns p s a s') (f : α → Answer) : ∃ K, ∀ fuel ≥ K,
    ((run (p fuel) s).map fun r => (f r.1, r.2)) = some (f a, s') := by
  obtain ⟨K, hK⟩ := h
  exact ⟨K, fun fuel hf => by rw [hK fuel hf]; rfl⟩

theorem steps_find (h : World N s F W) (hd : Linked W d) (name : Key) : Steps s d (.find (N := N) name) := by
  obtain ⟨r, hr, ⟨hn, rfl⟩ | ⟨S, hS, rfl⟩⟩ := returns_findStorage h hd name
  · exact ⟨_, s, d, returns_exec hr _, .findUnbound name hn, F, W, h, hd⟩
  · exact ⟨_, s, d, returns_exec hr _, .find name S hS, F, W, h, hd⟩

/-- A storage got another content. -/
theorem Linked.setContent (hd : Linked W d) (h : World N s F W) {b : Binding} {v : ValueId} {m' : MapState}
    (hb : (W storages).map.lookup name = some b) (hp : b.ptr = .heap v) (hm : m'.rooted = true) :
    Linked (Function.update W (instanceAt v) m') ⟨d.rooted, d.stores.insert name ⟨instanceAt v, m'⟩⟩ := by
  have hne := instanceAt_ne v
  have hs : Function.update W (instanceAt v) m' storages = W storages := Function.update_of_ne hne.1.symm ..
  refine ⟨by rw [hs]; exact hd.rooted, (Function.update_of_ne hne.2.symm ..).trans hd.idle, fun {n b'} hb' => ?_,
    fun {n} hn => ?_,
    fun u hu => ?_⟩
  · rw [hs] at hb'
    obtain ⟨u, hp', hl, hr⟩ := hd.bound hb'
    by_cases hn : n = name
    · subst hn
      obtain rfl : b' = b := Option.some.inj (hb'.symm.trans hb)
      obtain rfl : u = v := by simpa using hp'.symm.trans hp
      refine ⟨u, hp', ?_⟩
      rw [Function.update_self]
      exact ⟨Finmap.lookup_insert _, hm⟩
    · have huv : u ≠ v := by
        rintro rfl
        exact hn (name_inj h hb' hb hp' hp)
      have hset : Function.update W (instanceAt v) m' (instanceAt u) = W (instanceAt u) :=
        Function.update_of_ne (fun heq => huv (instanceAt_inj heq)) ..
      refine ⟨u, hp', ?_⟩
      rw [hset]
      exact ⟨(Finmap.lookup_insert_of_ne _ hn).trans hl, hr⟩
  · rw [hs] at hn
    have hne : n ≠ name := by
      rintro rfl
      exact absurd (hn.symm.trans hb) (by simp)
    exact (Finmap.lookup_insert_of_ne _ hne).trans (hd.unbound hn)
  · rw [hs] at hu
    rw [Function.update_of_ne fun heq => hu name b hb (by rw [hp, instanceAt_inj heq])]
    exact hd.unused u hu

theorem steps_point (h : World N s F W) (hd : Linked W d) (name : Key) (c : PointCall)
    (hc : ∀ t, c.session = some t → t < N) (hrep : c.Representable) : Steps s d (.point name c hc) := by
  cases hS : d.stores.lookup name with
  | none =>
    exact ⟨_, s, d, returns_exec (returns_withStorage_none h hd hS _ fun fuel => c.prog fuel (pure ())) _,
      .pointUnbound name c hc hS, F, W, h, hd⟩
  | some S =>
    obtain ⟨b, v, hb, hp, rfl⟩ := hd.lookup_iff.mp hS
    obtain ⟨a, s', m', A', hret, hstep, h', -⟩ := h.call (instanceAt v) hc hrep
    have hrooted : (W (instanceAt v)).rooted = true := by
      obtain ⟨u, hp', -, hr⟩ := hd.bound hb
      obtain rfl : u = v := by simpa using hp'.symm.trans hp
      exact hr
    exact ⟨_, s', _, returns_exec (returns_withStorage h hd hS hret) _, .point name c hc _ a m' hS hstep, _, _, h',
      hd.setContent h hb hp (hstep.rooted hrooted)⟩

theorem steps_scan (h : World N s F W) (hd : Linked W d) (name : Key) (args : ScanArgs) (out : ScanOut) :
    Steps s d (.scan (N := N) name args out) := by
  cases hS : d.stores.lookup name with
  | none =>
    exact ⟨_, s, d, returns_exec (returns_withStorage_none h hd hS _ fun fuel ti => scan fuel (pure ()) ti args out) _,
      .scanUnbound name args out hS, F, W, h, hd⟩
  | some S =>
    obtain ⟨b, v, hb, hp, rfl⟩ := hd.lookup_iff.mp hS
    obtain ⟨dead, hr⟩ := h.refines (instanceAt v)
    obtain ⟨r, hret, hans⟩ : ∃ r, Returns (fun fuel => scan fuel (pure ()) (instanceAt v) args out) s r s ∧
        ScanAnswer (W (instanceAt v)) args out r := by
      by_cases hargs : args.Rejected
      · refine ⟨_, ⟨0, fun fuel _ => ?_⟩, fun _ => rfl, fun hno => absurd hargs hno, fun hno => absurd hargs hno⟩
        change run (scan fuel (pure ()) (instanceAt v) args out) s = _
        rw [scan, if_pos (by exact hargs)]
        rfl
      · have hroot : s.root (instanceAt v) ≠ none := by
          obtain ⟨u, hp', -, hrooted⟩ := hd.bound hb
          obtain rfl : u = v := by simpa using hp'.symm.trans hp
          exact hr.rooted_iff.mpr hrooted
        obtain ⟨hidden, shown, hL, hbelow, hscan⟩ := hr.scan_from hroot hargs
        obtain ⟨out', hret, hlim⟩ := hscan args.maxSize out
        exact ⟨_, hret (pure ()), fun hyes => absurd hyes hargs, fun _ => rfl,
          fun _ => ⟨hidden, shown, hL.representable (h.representable _), hlim.givenOut hbelow⟩⟩
    exact ⟨_, s, d, returns_exec (returns_withStorage h hd hS hret) _, .scan name args out _ r hS hans, F, W, h, hd⟩

/-- A new storage. -/
theorem Linked.insertNew {W' : TreeId → MapState} (hd : Linked W d) {v : ValueId} {b : Binding}
    (hn : (W storages).map.lookup name = none) (hp : b.ptr = .heap v)
    (hfree : ∀ n b', (W storages).map.lookup n = some b' → b'.ptr ≠ .heap v)
    (hs : W' storages = ⟨true, (W storages).map.insert name b⟩) (hi : W' newInstance = ⟨false, ∅⟩)
    (hv : W' (instanceAt v) = ⟨true, ∅⟩) (ho : ∀ u, u ≠ v → W' (instanceAt u) = W (instanceAt u)) :
    Linked W' ⟨true, d.stores.insert name ⟨instanceAt v, ⟨true, ∅⟩⟩⟩ := by
  refine ⟨by rw [hs], hi, fun {n b'} hb' => ?_, fun {n} hb' => ?_, fun u hu => ?_⟩
  · rw [hs] at hb'
    by_cases hne : n = name
    · subst hne
      obtain rfl : b = b' := by simpa using hb'
      refine ⟨v, hp, ?_⟩
      rw [hv]
      exact ⟨Finmap.lookup_insert _, rfl⟩
    · rw [Finmap.lookup_insert_of_ne _ hne] at hb'
      obtain ⟨u, hp', hl, hr⟩ := hd.bound hb'
      refine ⟨u, hp', ?_⟩
      rw [ho u fun huv => hfree n b' hb' (huv ▸ hp')]
      exact ⟨(Finmap.lookup_insert_of_ne _ hne).trans hl, hr⟩
  · rw [hs] at hb'
    have hne : n ≠ name := by
      rintro rfl
      simp at hb'
    rw [Finmap.lookup_insert_of_ne _ hne] at hb'
    exact (Finmap.lookup_insert_of_ne _ hne).trans (hd.unbound hb')
  · rw [hs] at hu
    have huv : u ≠ v := by
      rintro rfl
      exact hu name b (Finmap.lookup_insert _) hp
    rw [ho u huv]
    refine hd.unused u fun n b' hb' => hu n b' ?_
    have hne : n ≠ name := by
      rintro rfl
      exact absurd (hn.symm.trans hb') (by simp)
    exact (Finmap.lookup_insert_of_ne _ hne).trans hb'

/-- `create_storage` up to its `put`. -/
theorem run_createStorage {fuel : Nat} (hf : 0 < fuel) (token : Token) (name : Key) :
    run (createStorage fuel (pure ()) token name) s =
    run (do
      let r ← put fuel (pure ()) token storages ⟨name, .heap (instanceBytes s.nextNode) 8, true⟩
      (if r.status = .ok then copyInstance r.created (some s.nextNode) else op (.deleteNode s.nextNode))
      op (.storeRoot newInstance none)
      pure r.status) (s.emptyTree newInstance) := by
  rw [createStorage, run_newNode, run_bind_of (run_initBorder (State.alloc_node_same _ _) hf), State.alloc_setNode]
  rfl

/-- The storage was put: the instance in its block gets the root of `new_instance`. -/
theorem steps_createNew (hd : Linked W d) {token : Fin N} {s₂ : State} {A₁ A₂ : Forest} {v : ValueId} {node : Ptr} {K : Nat}
    (hnone : (W storages).map.lookup name = none)
    (hput : ∀ fuel ≥ K, run (put fuel (pure ()) token storages ⟨name, .heap (instanceBytes s.nextNode) 8, true⟩)
      (s.emptyTree newInstance) =
      some (⟨.ok, some (.value (.heap v)), node⟩, s₂))
    (h₂ : World N s₂ (Function.update (Function.update F newInstance A₁) storages A₂)
      (Function.update (Function.update W newInstance ⟨true, ∅⟩)
      storages ⟨true, (W storages).map.insert name ⟨.heap v, .heap (instanceBytes s.nextNode) 8⟩⟩))
    (hroot : s₂.root newInstance = some s.nextNode) : Steps s d (.create token name) := by
  have hfree : ∀ n b', (W storages).map.lookup n = some b' → b'.ptr ≠ .heap v := by
    intro n b' hb' hp'
    have hne : n ≠ name := by
      rintro rfl
      exact absurd (hnone.symm.trans hb') (by simp)
    have hnew : Finmap.lookup name ((W storages).map.insert name ⟨.heap v, .heap (instanceBytes s.nextNode) 8⟩) =
      some _ := Finmap.lookup_insert _
    refine hne (name_inj h₂ ?_ (by rw [Function.update_self]; exact hnew) hp' rfl)
    rw [Function.update_self]
    exact (Finmap.lookup_insert_of_ne _ hne).trans hb'
  obtain ⟨hv0, hv1⟩ := instanceAt_ne v
  have hnull : s₂.root (instanceAt v) = none := h₂.root_none (by
    rw [Function.update_of_ne hv0, Function.update_of_ne hv1]
    exact hd.unused v hfree)
  refine ⟨.status .ok, _, _, ⟨K + 1, fun fuel hf => ?_⟩, .create token name (instanceAt v) (hd.lookup_none.mpr hnone)
    fun n S hS => ?_, _, _,
    h₂.swap (Equiv.swap newInstance (instanceAt v)),
      hd.insertNew (v := v) (b := ⟨.heap v, .heap (instanceBytes s.nextNode) 8⟩) hnone rfl hfree
      ?_ ?_ ?_ fun u hu => ?_⟩
  · have hrun := run_createStorage (s := s) (Nat.zero_lt_of_lt hf) token name
    rw [run_bind_of (hput fuel (Nat.le_of_succ_le hf))] at hrun
    rw [Call.exec, hrun, ← State.swap_roots hroot hnull]
    rfl
  · obtain ⟨b', u, hb', hp', rfl⟩ := hd.lookup_iff.mp hS
    exact fun heq => hfree n b' hb' (hp'.trans (by rw [instanceAt_inj heq]))
  · rw [Equiv.swap_apply_of_ne_of_ne (by decide) hv0.symm, Function.update_self]
  · rw [Equiv.swap_apply_left, Function.update_of_ne hv0, Function.update_of_ne hv1]
    exact hd.unused v hfree
  · rw [Equiv.swap_apply_right, Function.update_of_ne (by decide), Function.update_self]
  · obtain ⟨hu0, hu1⟩ := instanceAt_ne u
    rw [Equiv.swap_apply_of_ne_of_ne hu1 fun heq => hu (instanceAt_inj heq), Function.update_of_ne hu0,
      Function.update_of_ne hu1]

/-- The name was taken: the new border is deleted. -/
theorem steps_createTaken (hd : Linked W d) {token : Fin N} {s₂ : State} {A₁ A₂ : Forest} {K : Nat}
    (hS : d.stores.lookup name = some S)
    (hput : ∀ fuel ≥ K, run (put fuel (pure ()) token storages ⟨name, .heap (instanceBytes s.nextNode) 8, true⟩)
      (s.emptyTree newInstance) =
      some (⟨.warnUniqueRestriction, none, none⟩, s₂))
    (h₂ : World N s₂ (Function.update (Function.update F newInstance A₁) storages A₂)
      (Function.update (Function.update W newInstance ⟨true, ∅⟩)
      storages (W storages)))
    (hnodes : ∀ x, x ∈ A₁.owned.nodes ↔ x = s.nextNode) (hblocks : ∀ v, v ∉ A₁.owned.blocks) :
    Steps s d (.create token name) := by
  have hF : Function.update (Function.update F newInstance A₁) storages A₂ newInstance = A₁ := by
    rw [Function.update_of_ne (by decide), Function.update_self]
  have hW : Function.update (Function.update (Function.update W newInstance ⟨true, ∅⟩) storages (W storages))
    newInstance ⟨false, ∅⟩ = W := by
    funext u
    by_cases h1 : u = newInstance
    · rw [h1, Function.update_self, hd.idle]
    · rw [Function.update_of_ne h1]
      by_cases h0 : u = storages
      · rw [h0, Function.update_self]
      · rw [Function.update_of_ne h0, Function.update_of_ne h1]
  have hdrop := h₂.drop newInstance
  rw [hF, hW, State.dropTree_single hnodes hblocks] at hdrop
  refine ⟨.status .warnUniqueRestriction, _, d, ⟨K + 1, fun fuel hf => ?_⟩, .createBound token name S hS, _, _, hdrop, hd⟩
  have hrun := run_createStorage (s := s) (Nat.zero_lt_of_lt hf) token name
  rw [run_bind_of (hput fuel (Nat.le_of_succ_le hf))] at hrun
  have hown : s.nextNode ∈ (Function.update (Function.update F newInstance A₁) storages A₂ newInstance).owned.nodes := by
    rw [hF]
    exact (hnodes _).mpr rfl
  obtain ⟨nd, hnd⟩ := Option.ne_none_iff_exists'.mp (h₂.node_owned hown).2
  have hdel : exec (.deleteNode s.nextNode) s₂ =
    some ((), { s₂ with node := fun x => if x = s.nextNode then none else s₂.node x }) := by
    simp only [exec, hnd]
  rw [Call.exec, hrun]
  simp only [reduceCtorEq, if_false, op, Lib.Prog.step_bind, run, Lib.Prog.run, hdel]
  rfl

theorem instanceBytes_representable (root : NodeId) : (ValueArg.heap (instanceBytes root) 8).Representable :=
  ⟨by simp [instanceBytes], by decide⟩

theorem steps_create (h : World N s F W) (hd : Linked W d) (token : Fin N) (name : Key) :
    Steps s d (.create token name) := by
  obtain ⟨A₁, h₁, hnodes, hblocks⟩ := h.create (h.root_none hd.idle)
  obtain ⟨r, s₂, m', A₂, ⟨K, hK⟩, h₂, hroots, hr⟩ := h₁.putUnique storages token name
    (instanceBytes_representable s.nextNode)
  have hroot : (s.emptyTree newInstance).root newInstance = some s.nextNode := by simp [State.emptyTree]
  rw [Function.update_of_ne (show storages ≠ newInstance by decide)] at hr
  rcases hr with ⟨hnone, p, node, rfl, hp, rfl⟩ | ⟨b, hb, rfl, rfl⟩
  · cases p with
    | heap v => exact steps_createNew hd hnone hK h₂ ((hroots newInstance (by decide)).trans hroot)
    | word w => exact hp.elim
  · obtain ⟨v, -, hl, -⟩ := hd.bound hb
    exact steps_createTaken hd hl hK h₂ hnodes hblocks

/-- A storage is gone. -/
theorem Linked.eraseName (hd : Linked W d) (h : World N s F W) {b : Binding} {v : ValueId}
    (hb : (W storages).map.lookup name = some b) (hp : b.ptr = .heap v) {W' : TreeId → MapState}
    (hs : W' storages = ⟨(W storages).rooted, (W storages).map.erase name⟩) (hi : W' newInstance = W newInstance)
    (hv : W' (instanceAt v) = ⟨false, ∅⟩) (ho : ∀ u, u ≠ v → W' (instanceAt u) = W (instanceAt u)) :
    Linked W' ⟨d.rooted, d.stores.erase name⟩ := by
  refine ⟨by rw [hs]; exact hd.rooted, hi.trans hd.idle, fun {n b'} hb' => ?_, fun {n} hn => ?_, fun u hu => ?_⟩
  · rw [hs] at hb'
    have hne : n ≠ name := by
      rintro rfl
      simp at hb'
    rw [Finmap.lookup_erase_ne hne] at hb'
    obtain ⟨u, hp', hl, hr⟩ := hd.bound hb'
    refine ⟨u, hp', ?_⟩
    rw [ho u fun huv => hne (name_inj h hb' hb hp' (huv ▸ hp))]
    exact ⟨(Finmap.lookup_erase_ne hne).trans hl, hr⟩
  · rw [hs] at hn
    by_cases hne : n = name
    · subst hne
      exact Finmap.lookup_erase _ _
    · rw [Finmap.lookup_erase_ne hne] at hn
      exact (Finmap.lookup_erase_ne hne).trans (hd.unbound hn)
  · by_cases huv : u = v
    · rw [huv, hv]
    · rw [ho u huv]
      refine hd.unused u fun n b' hb' hp' => ?_
      have hne : n ≠ name := by
        rintro rfl
        obtain rfl := Option.some.inj (hb'.symm.trans hb)
        exact huv (by simpa using hp'.symm.trans hp)
      exact hu n b' (by rw [hs]; exact (Finmap.lookup_erase_ne hne).trans hb') hp'

theorem steps_delete (h : World N s F W) (hd : Linked W d) (token : Fin N) (name : Key) :
    Steps s d (.delete token name) := by
  obtain ⟨dead, hr⟩ := h.refines storages
  obtain ⟨r, ⟨K₀, hK₀⟩, ⟨b, hb, rfl⟩ | ⟨hn, rfl⟩⟩ := hr.get_returns (h.representable storages) name
  · obtain ⟨v, hp, hl, -⟩ := hd.bound hb
    obtain ⟨hv0, hv1⟩ := instanceAt_ne v
    obtain ⟨s₁, A₁, ⟨K₁, hK₁⟩, h₁⟩ := h.remove storages token hb
    obtain ⟨s₂, ⟨K₂, hK₂⟩, h₂⟩ := returns_releaseTree h₁ (instanceAt v)
    refine ⟨.status .ok, s₂, _, ⟨K₀ + K₁ + K₂, fun fuel hf => ?_⟩, .delete token name _ hl, _, _, h₂,
      hd.eraseName h hb hp ?_ ?_ ?_ fun u hu => ?_⟩
    · rw [Call.exec, deleteStorage, run_bind_of (hK₀ fuel (by omega)), hp]
      simp only [reduceCtorEq, if_false]
      rw [run_bind_of (hK₁ fuel (by omega)), if_pos rfl, firstOf, instanceOf, Lib.Prog.pure_eq, Lib.Prog.ret_bind,
        run_bind_of (hK₂ fuel (by omega))]
      rfl
    · rw [Function.update_of_ne hv0.symm, Function.update_self]
    · rw [Function.update_of_ne hv1.symm, Function.update_of_ne (by decide)]
    · rw [Function.update_self]
    · rw [Function.update_of_ne fun heq => hu (instanceAt_inj heq), Function.update_of_ne (instanceAt_ne u).1]
  · refine ⟨.status .warnNotExist, s, d, ⟨K₀, fun fuel hf => ?_⟩, .deleteUnbound token name (hd.unbound hn), F, W, h, hd⟩
    rw [Call.exec, deleteStorage, run_bind_of (hK₀ fuel hf)]
    rfl

/-! ### All storages -/

/-- The scan of the directory that `list_storages` and `destroy` begin with. -/
theorem returns_everything (h : World N s F W) (ti : TreeId) : ∃ st out,
    Returns (fun fuel => scan fuel (pure ()) ti everything ⟨[], []⟩) s (st, out) s ∧
      Bindings ValueArg.len (W ti) everything out.tuples := by
  obtain ⟨dead, hr⟩ := h.refines ti
  have hargs : ¬ everything.Rejected := by
    rintro ⟨-, h | h⟩ <;> cases h
  by_cases hroot : s.root ti = none
  · obtain ⟨K, hK⟩ := run_scan_null hroot hargs ⟨[], []⟩
    refine ⟨_, _, ⟨K, hK (pure ())⟩, List.Pairwise.nil, fun k v len => ?_⟩
    simp [hr.unrooted hroot k]
  · obtain ⟨L, hL, hscan⟩ := hr.scan hroot hargs fun _ => rfl
    obtain ⟨out, hret, hlim⟩ := hscan 0 ⟨[], []⟩
    refine ⟨_, out, hret (pure ()), ?_⟩
    rw [hlim.all (Or.inl rfl)]
    exact hL.representable (h.representable ti)

theorem contains_everything (k : Key) : everything.Contains k := ⟨trivial, trivial⟩

/-- The instance of a binding of the directory. -/
def treeAt : ValuePtr → TreeId
  | .heap v => instanceAt v
  | .word _ => storages

theorem Linked.treeAt_of_mem (hd : Linked W d) {out : ScanOut}
    (hL : Bindings ValueArg.len (W storages) everything out.tuples) {name : Key} {p : ValuePtr} {len : Nat}
    (ht : (name, p, len) ∈ out.tuples) : ∃ v, p = .heap v ∧
    d.stores.lookup name = some ⟨instanceAt v, W (instanceAt v)⟩ := by
  obtain ⟨-, b, hb, rfl, -⟩ := (hL.mem_iff name p len).mp ht
  obtain ⟨v, hp, hl, -⟩ := hd.bound hb
  exact ⟨v, hp, hl⟩

theorem run_instancesOf {L : List (Key × ValuePtr × Nat)} (hL : ∀ t ∈ L, ∃ v, t.2.1 = .heap v) :
    run (instancesOf L) s = some (L.map fun t => (t.1, treeAt t.2.1), s) := by
  induction L with
  | nil => rfl
  | cons t L ih =>
    obtain ⟨name, p, len⟩ := t
    obtain ⟨v, rfl⟩ := hL _ List.mem_cons_self
    rw [instancesOf, instanceOf, Lib.Prog.pure_eq, Lib.Prog.ret_bind,
      run_bind_of (ih fun t ht => hL t (List.mem_cons_of_mem _ ht))]
    rfl

theorem steps_list (h : World N s F W) (hd : Linked W d) : Steps s d (.list (N := N)) := by
  obtain ⟨st, out, ⟨K, hK⟩, hL⟩ := returns_everything h storages
  have hheap : ∀ t ∈ out.tuples, ∃ v, t.2.1 = .heap v := fun t ht => by
    obtain ⟨v, hp, -⟩ := hd.treeAt_of_mem hL (show (t.1, t.2.1, t.2.2) ∈ out.tuples from ht)
    exact ⟨v, hp⟩
  have hlist : DirStep (N := N) d .list
    (.listed (if out.tuples.map (fun t => (t.1, treeAt t.2.1)) = [] then .warnNotExist else .ok,
      out.tuples.map fun t => (t.1, treeAt t.2.1))) d := by
    refine .list _ ?_ fun name ti => ?_
    · rw [List.map_map]
      exact hL.sorted
    · rw [List.mem_map]
      constructor
      · rintro ⟨⟨n, p, len⟩, ht, heq⟩
        obtain ⟨rfl, rfl⟩ := Prod.mk.inj heq
        obtain ⟨v, rfl, hl⟩ := hd.treeAt_of_mem hL ht
        exact ⟨_, hl, rfl⟩
      · rintro ⟨S, hS, rfl⟩
        obtain ⟨b, v, hb, hp, rfl⟩ := hd.lookup_iff.mp hS
        refine ⟨(name, b.ptr, b.value.len), (hL.mem_iff _ _ _).mpr ⟨contains_everything name, b, hb, rfl, rfl⟩, ?_⟩
        rw [hp]
        rfl
  refine ⟨_, s, d, ⟨K, fun fuel hf => ?_⟩, hlist, F, W, h, hd⟩
  rw [Call.exec, listStorages, run_bind_of (hK fuel hf)]
  simp only [List.map_eq_nil_iff]
  by_cases hnil : out.tuples = []
  · rw [if_pos hnil, if_pos hnil, hnil]
    rfl
  · rw [if_neg hnil, if_neg hnil, run_bind_of (run_instancesOf hheap)]
    rfl

/-- The loop of `destroy` over the storages. -/
theorem returns_destroyLoop {L : List (Key × ValuePtr × Nat)} (h : World N s F W) (hL : ∀ t ∈ L, ∃ v, t.2.1 = .heap v) :
    ∃ s' F' W',
    Returns (fun fuel => forEach (fun elem => do
      let ti ← instanceOf elem.2.1
      releaseTree fuel ti) L) s () s' ∧ World N s' F' W' ∧ W' storages = W storages ∧ W' newInstance = W newInstance ∧
      (∀ t ∈ L, ∀ v, t.2.1 = .heap v → W' (instanceAt v) = ⟨false, ∅⟩) ∧
      ∀ v, W (instanceAt v) = ⟨false, ∅⟩ → W' (instanceAt v) = ⟨false, ∅⟩ := by
  induction L generalizing s F W with
  | nil => exact ⟨s, F, W, Returns.ret () s, h, rfl, rfl, by simp, fun _ hv => hv⟩
  | cons t L ih =>
    obtain ⟨name, p, len⟩ := t
    obtain ⟨v, rfl⟩ := hL _ List.mem_cons_self
    obtain ⟨hv0, hv1⟩ := instanceAt_ne v
    obtain ⟨s₁, hret, h₁⟩ := returns_releaseTree h (instanceAt v)
    have hnull : ∀ u, u = v ∨ W (instanceAt u) = ⟨false, ∅⟩ → Function.update W (instanceAt v) ⟨false, ∅⟩
      (instanceAt u) = ⟨false, ∅⟩ := by
      intro u hu
      by_cases huv : u = v
      · rw [huv, Function.update_self]
      · rw [Function.update_of_ne fun heq => huv (instanceAt_inj heq)]
        exact hu.resolve_left huv
    obtain ⟨s₂, F₂, W₂, hret', h₂, hs, hi, hgone, hkept⟩ := ih h₁ fun t ht => hL t (List.mem_cons_of_mem _ ht)
    refine ⟨s₂, F₂, W₂, ?_, h₂, hs.trans (Function.update_of_ne hv0.symm ..),
      hi.trans (Function.update_of_ne hv1.symm ..), fun t ht u hu => ?_,
      fun u hu => hkept u (hnull u (Or.inr hu))⟩
    · exact hret.bind hret'
    · rcases List.mem_cons.mp ht with rfl | ht
      · exact hkept u (hnull u (Or.inl (by simpa using hu.symm)))
      · exact hgone t ht u hu

theorem forall_tree {P : TreeId → Prop} (h0 : P storages) (h1 : P newInstance) (hv : ∀ v, P (instanceAt v)) : ∀ ti, P ti
  | 0 => h0
  | 1 => h1
  | v + 2 => hv v

/-- Without bindings in the directory all trees are empty. -/
theorem Linked.all_null (hd : Linked W d) (hs : W storages = ⟨false, ∅⟩) (ti : TreeId) : W ti = ⟨false, ∅⟩ := by
  refine forall_tree (P := fun ti => W ti = ⟨false, ∅⟩) hs hd.idle (fun v => hd.unused v fun n b hb => ?_) ti
  rw [hs] at hb
  simp at hb

theorem linked_null (hW : ∀ ti, W ti = ⟨false, ∅⟩) : Linked W .init := by
  refine ⟨by rw [hW]; rfl, hW _, fun {n b} hb => ?_, fun {n} _ => Finmap.lookup_empty n, fun v _ => hW _⟩
  rw [hW] at hb
  simp at hb

/-- `destroy` of everything. -/
theorem returns_destroy (h : World N s F W) (hd : Linked W d) : ∃ st s' F' W',
    Returns (fun fuel => Directory.destroy fuel (pure ())) s st s' ∧ World N s' F' W' ∧ (∀ ti, W' ti = ⟨false, ∅⟩) ∧
      ((d.rooted = true ∧ st = .okDestroyAll) ∨ d.rooted = false ∧ st = .okRootIsNull ∧ Linked W' d) := by
  obtain ⟨dead, hr⟩ := h.refines storages
  by_cases hroot : s.root storages = none
  · obtain ⟨-, hs⟩ := hr.eq_null hroot
    refine ⟨.okRootIsNull, s, F, W, ⟨0, fun fuel _ => ?_⟩, h, hd.all_null hs, Or.inr ⟨?_, rfl, hd⟩⟩
    · change run (Directory.destroy fuel (pure ())) s = _
      rw [Directory.destroy, run_loadRoot, if_pos hroot]
      rfl
    · rw [← hd.rooted, hs]
  · have hrooted : d.rooted = true := by
      rw [← hd.rooted]
      exact hr.rooted_iff.mp hroot
    obtain ⟨st, out, ⟨K₀, hK₀⟩, hL⟩ := returns_everything h storages
    obtain ⟨s₁, F₁, W₁, ⟨K₁, hK₁⟩, h₁, hs₁, hi₁, hgone, hkept⟩ := returns_destroyLoop h fun t ht => by
      obtain ⟨v, hp, -⟩ := hd.treeAt_of_mem hL (show (t.1, t.2.1, t.2.2) ∈ out.tuples from ht)
      exact ⟨v, hp⟩
    obtain ⟨s₂, ⟨K₂, hK₂⟩, h₂⟩ := returns_releaseTree h₁ storages
    refine ⟨.okDestroyAll, s₂, _, _, ⟨K₀ + K₁ + K₂, fun fuel hf => ?_⟩, h₂, forall_tree ?_ ?_ fun v => ?_,
      Or.inl ⟨hrooted, rfl⟩⟩
    · change run (Directory.destroy fuel (pure ())) s = _
      rw [Directory.destroy, run_loadRoot, if_neg hroot, run_bind_of (hK₀ fuel (by lia))]
      simp only []
      rw [run_bind_of (hK₁ fuel (by lia)), run_bind_of (hK₂ fuel (by lia))]
      rfl
    · exact Function.update_self ..
    · exact (Function.update_of_ne (by decide) ..).trans (hi₁.trans hd.idle)
    · rw [Function.update_of_ne (instanceAt_ne v).1]
      by_cases hv : ∃ name b, (W storages).map.lookup name = some b ∧ b.ptr = .heap v
      · obtain ⟨name, b, hb, hp⟩ := hv
        exact hgone (name, b.ptr, b.value.len) ((hL.mem_iff _ _ _).mpr ⟨contains_everything name, b, hb, rfl, rfl⟩) v hp
      · exact hkept v (hd.unused v fun n b hb hp => hv ⟨n, b, hb, hp⟩)

theorem steps_destroy (h : World N s F W) (hd : Linked W d) : Steps s d (.destroy (N := N)) := by
  obtain ⟨st, s', F', W', hret, h', hW', ⟨hrooted, rfl⟩ | ⟨hrooted, rfl, hd'⟩⟩ := returns_destroy h hd
  · exact ⟨_, s', _, returns_exec hret _, .destroy hrooted, F', W', h', linked_null hW'⟩
  · exact ⟨_, s', _, returns_exec hret _, .destroyNull hrooted, F', W', h', hd'⟩

end
end Directory
end Yakushima
