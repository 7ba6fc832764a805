import Yakushima.Theorems.Update

/-! # `put`

A `put` goes down the layers like `get`. It inserts an entry into the first layer that has none for the key,
refuses a bound key under the unique restriction, and else takes the update path. Into a tree without a root
it puts a new border. -/

namespace Yakushima
open M Permutation

/-! ### An empty tree -/

/-- A border as `init_border()` leaves it. -/
def Node.emptyRoot : Node := { Node.fresh .border with version := { Version.init with root := true, border := true } }

/-- The memory in which the tree `ti` has a new root border without entries. -/
def State.emptyTree (s : State) (ti : TreeId) : State :=
  { s.alloc Node.emptyRoot with root := fun u => if u = ti then some s.nextNode else s.root u }

/-- The forest of one border without entries. -/
def Forest.single (n : NodeId) : Forest := fun π => if π = [] then some (.border n []) else none

section
variable {s s' : State} {ti : TreeId} {A : Forest} {dead : NodeId → Prop}

theorem Forest.single_some {n : NodeId} {π : Path} {t : BTree} (h : Forest.single n π = some t) :
    π = [] ∧ t = .border n [] := by
  by_cases hπ : π = []
  · subst hπ
    exact ⟨rfl, (Option.some.inj h).symm⟩
  · rw [single, if_neg hπ] at h
    exact absurd h (by simp)

theorem emptyRoot_members (link : KeySlice → Ptr) (dead : NodeId → Prop) :
    MembersOk link dead Node.emptyRoot (.border []) := by
  have hslots : slotsOf Node.emptyRoot.permutation = [] := by
    have h : Node.emptyRoot.permutation = 0 := rfl
    rw [h, slotsOf, getCnk_init]
    rfl
  refine ⟨rfl, rfl, fun h => absurd rfl h, ?_, ?_, ?_, fun i _ _ => trivial⟩
  · rw [hslots]
    exact List.nodup_nil
  · rw [hslots]
    intro i hi
    exact absurd hi List.not_mem_nil
  · rw [Node.slots, hslots]
    rfl

/-- An empty border is a tree. -/
theorem holds_emptyTree (s : State) (ti : TreeId) (hd : ∀ x, dead x → x < s.nextNode) :
    Holds (s.emptyTree ti) ti (Forest.single s.nextNode) dead := by
  have hids : (BTree.border s.nextNode []).ids = [s.nextNode] := by simp [BTree.ids, BTree.descs]
  have hent : (BTree.border s.nextNode []).entries = [] := by simp [BTree.entries, BTree.borders]
  have hlt : s.nextNode < (s.emptyTree ti).nextNode := Nat.lt_succ_self _
  have hno : ∀ {π e}, ¬ (Forest.single s.nextNode).Has π e := by
    rintro π e ⟨t, ht, he⟩
    obtain ⟨-, rfl⟩ := Forest.single_some ht
    rw [hent] at he
    exact absurd he List.not_mem_nil
  refine ⟨⟨fun sl π => ?_, fun hu hw _ _ => ?_, fun hu => ?_, fun hu e he => ?_, 0, fun π t ht => ?_⟩, ?_,
    fun {π t} ht => ?_, fun {π t x} ht hx => ?_, fun {π t x} ht hx => ?_, fun x hx => ?_,
    fun he _ => absurd he hno, fun he _ _ _ => absurd he hno⟩
  · constructor
    · rintro ⟨u, hu⟩
      exact absurd (Forest.single_some hu).1 (by simp)
    · rintro ⟨t, ht, e, he, -⟩
      exact absurd ⟨t, ht, he⟩ hno
  · rw [(Forest.single_some hu).1, (Forest.single_some hw).1]
  · exact absurd (Forest.single_some hu).1 (by simp)
  · exact absurd ⟨_, hu, he⟩ hno
  · rw [(Forest.single_some ht).1]
    exact Nat.le_refl _
  · exact if_pos rfl
  · obtain ⟨rfl, rfl⟩ := Forest.single_some ht
    have hn : (s.emptyTree ti).node s.nextNode = some Node.emptyRoot := State.alloc_node_same s _
    refine ⟨fun p hp => ?_, ?_, ?_, ?_, ?_⟩
    · simp only [BTree.descs, List.mem_singleton] at hp
      subst hp
      exact ⟨_, hn, ⟨⟨rfl, rfl, ⟨Nat.zero_le _, by simp⟩, emptyRoot_members _ _⟩, rfl⟩⟩
    · rw [hids]
      exact List.nodup_singleton _
    · simp [BTree.flat]
    · simp [BTree.borders]
    · exact ⟨⟨_, hn, rfl, rfl⟩, trivial⟩
  · obtain ⟨rfl, rfl⟩ := Forest.single_some ht
    rw [hids, List.mem_singleton] at hx
    exact hx ▸ hlt
  · obtain ⟨rfl, rfl⟩ := Forest.single_some ht
    rw [hids, List.mem_singleton] at hx
    intro hdx
    exact absurd (hd x hdx) (by rw [hx]; exact Nat.lt_irrefl _)
  · exact Nat.lt_of_lt_of_le (hd x hx) (Nat.le_succ _)

theorem State.created_alloc (s : State) (arg : ValueArg) (nd : Node) :
    (s.alloc nd).created arg = (s.created arg).alloc nd ∧ (s.alloc nd).createdValue arg = s.createdValue arg := by
  cases arg <;> exact ⟨rfl, rfl⟩

/-- The null root branch of `put`, up to the publication of the border. -/
theorem run_putNewBorder {args : PutArgs} (hc : args.value.Clear) (hroot : s.root ti = none) :
    ∃ s', (∀ fuel > layers args.key,
      ∃ s₁, run (putNewBorder fuel args) s = some ((s.nextNode, .value (s.createdValue args.value)), s₁) ∧
        s₁.root ti = none ∧
        s' = { s₁ with root := fun u => if u = ti then some s.nextNode else s₁.root u }) ∧
    Inserted ((Forest.single s.nextNode).link []) dead ((s.created args.value).emptyTree ti) s' ti none
      (.border s.nextNode [])
      (.border s.nextNode [entryOf args.key (s.createdValue args.value)]) s.nextNode args.key
        (s.createdValue args.value) (s.nextNode + 1)
      s.nextNode := by
  set v := s.createdValue args.value with hv
  let s₀ : State := (s.created args.value).alloc (Node.freshLayer none)
  have hnext : (s.created args.value).nextNode = s.nextNode := s.created_nextNode args.value
  have hs₀ : s₀.node s.nextNode = some (Node.freshLayer none) := by
    rw [← hnext]
    exact State.alloc_node_same _ _
  have hlt : s.nextNode < s₀.nextNode := by
    rw [State.alloc_nextNode, hnext]
    exact Nat.lt_succ_self _
  obtain ⟨f, hrun, hfn, hframe, hlayers⟩ := @run_insertLvAt v (layers args.key) _ _ _ 0 _ _ rfl hs₀ hlt rfl
    (by decide) (by decide) (by intro w; exact LinkOrValue.noConfusion)
  obtain ⟨hcreated, hcreatedv⟩ := s.created_alloc args.value (.fresh .border)
  have hnext₀ : s₀.nextNode = s.nextNode + 1 := by rw [State.alloc_nextNode, hnext]
  refine ⟨{ s₀ with
      node := f, nextNode := s₀.nextNode + layers args.key,
      root := fun u => if u = ti then some s.nextNode else s₀.root u },
    fun fuel hf => ⟨{ s₀ with node := f, nextNode := s₀.nextNode + layers args.key }, ?_, ?_, rfl⟩, ?_⟩
  · rw [putNewBorder, run_newNode, run_createValue hc, hcreated, hcreatedv, ← hv]
    have hfresh : ((s.created args.value).alloc (.fresh .border)).node s.nextNode = some (.fresh .border) := by
      rw [← hnext]
      exact State.alloc_node_same _ _
    rw [run_bind_of (run_initBorderHead hfresh (Nat.zero_lt_of_lt hf) true)]
    have hset : ((s.created args.value).alloc (.fresh .border)).setNode s.nextNode
        { Node.fresh .border with version := { Version.init with vinsertDelete := 1, root := true, border := true } } =
          s₀ := by
      rw [← hnext, State.alloc_setNode]
      rfl
    rw [hset, run_bind_of (hrun fuel fuel (Nat.zero_lt_of_lt hf) hf)]
    rfl
  · have : s₀.root = s.root := s.created_root args.value
    exact (congrFun this ti).trans hroot
  · have hone : (0 + 1) % Version.counterSize = 1 := by decide
    have hother : ∀ x, x ≠ s.nextNode → x < s₀.nextNode → f x = ((s.created args.value).emptyTree ti).node x := by
      intro x hx hlt
      rw [hframe x hlt hx]
      have h1 : s₀.node x = (s.created args.value).node x := State.alloc_node_ne (by rw [hnext]; exact hx)
      have h2 : ((s.created args.value).emptyTree ti).node x = (s.created args.value).node x :=
        State.alloc_node_ne (by rw [hnext]; exact hx)
      rw [h1, h2]
    refine ⟨?_, ⟨[], [], by simp [BTree.entries, BTree.borders], by simp [BTree.entries, BTree.borders]⟩,
      fun x hx => Or.inl ?_, fun x hx => ?_,
      ⟨?_, ?_⟩, ⟨[entryOf args.key v], by simp [BTree.borders], List.mem_singleton_self _⟩, ?_, ?_, ?_, ?_, ?_, ?_, ?_, ?_⟩
    · refine freshLayer_ok ?_ fun hlong => if_pos ⟨hlong, rfl⟩
      rw [← hnext₀]
      exact hfn
    · simpa [BTree.ids, BTree.descs] using hx
    · simpa [BTree.ids, BTree.descs] using hx
    · exact Nat.le_of_eq hnext₀
    · exact Nat.le_of_eq (by rw [hnext₀])
    · rw [← hnext₀]
      exact hlayers
    · intro b es e x hb he hne
      simp only [BTree.borders, List.mem_singleton, Prod.mk.injEq] at hb
      rw [hb.2, List.mem_singleton] at he
      exact absurd he hne
    · intro x hx hlt _ _
      exact hother x (by simpa [BTree.ids, BTree.descs] using hx) hlt
    · refine .kept rfl (funext fun u => ?_) (by simp)
      change (if u = ti then some s.nextNode else s₀.root u) = if u = ti then some (s.created args.value).nextNode
        else s₀.root u
      rw [hnext]
    · rfl
    · refine ⟨Node.emptyRoot, _, ?_, hfn, hone.symm⟩
      rw [← hnext]
      exact State.alloc_node_same _ _
    · intro x nd hx _ hlt hne _
      exact ⟨nd, (hother x hne hlt).trans hx, rfl⟩
    · intro x h1 h2
      have hnx : ((s.created args.value).emptyTree ti).nextNode = s.nextNode + 1 := hnext₀
      rw [hnx] at h1
      refine Or.inr ⟨h1, ?_⟩
      rw [← hnext₀]
      exact h2

/-! ### The layers of `put` -/

variable {par : Ptr} {link : KeySlice → Ptr} {t : BTree} {c : Ctx} {b : NodeId} {es : List Entry} {bd : Node}
  {pos : Option Nat} {key : Key} {token : Token} {args : PutArgs}

/-- The border found is still the right one. -/
theorem run_recheck {α : Type} {nd : Node} {v v' : Version} (hn : s.node b = some nd)
    (hright : nd.version.wrongNode v = false) (hv' : nd.version.vinsertDelete = v'.vinsertDelete)
    (k : Option PutLabel → M α) :
    run (recheck b v v' key >>= k) s = run (k none) s := by
  obtain ⟨hv, hgone⟩ : nd.version.vsplit = v.vsplit ∧ (nd.version.deleted = true → nd.version.root = true) := by
    simpa [Version.wrongNode] using hright
  have hwrong : run (nowWrongNode b v) s = some (false, s) := by
    rw [nowWrongNode]
    simp only [Lib.Prog.bind_assoc]
    rw [run_getVersionDeleted hn]
    cases hd : nd.version.deleted with
    | false =>
      simp only [Bool.false_eq_true, if_false, Lib.Prog.pure_eq, Lib.Prog.ret_bind]
      rw [run_getVersionVsplit hn, hv]
      simp
    | true =>
      simp only [if_true, Lib.Prog.bind_assoc]
      rw [run_getVersionRoot hn, hgone hd]
      simp only [Lib.Prog.pure_eq, Lib.Prog.ret_bind, Bool.not_true, Bool.false_eq_true, if_false]
      rw [run_getVersionVsplit hn, hv]
      simp
  refine run_bind_of ?_ k
  rw [recheck, run_bind_of hwrong, if_neg Bool.false_ne_true, run_getVersionVinsertDelete hn, if_neg (by simpa using hv')]
  rfl

/-- One layer of `put`. -/
theorem Located.run_put (hl : Located s par link dead t key c b es bd pos) : ∃ N, ∀ retry, ∀ fuel ≥ N, ∀ k,
    (pos = none → run (putLoop fuel retry token ti args (k + 2) (.retryFindBorder (some t.id) key)) s = run (do
        let value ← createValue args.value
        let rank ← computeRankIfInsert b (.ofKey key) (keyLength key)
        let created ← insertLv fuel ti b key value rank
        pure ⟨.ok, some created, some b⟩) (s.setNode b (bd.mapVersion (.setLocked true)))) ∧
    ∀ i, pos = some i →
      (bd.keyLength i ≤ sliceSize → keyLength key ≤ sliceSize →
        run (putLoop fuel retry token ti args (k + 2) (.retryFindBorder (some t.id) key)) s =
          if args.uniqueRestriction then some (⟨.warnUniqueRestriction, none, none⟩, s)
          else run (putUpdate fuel token args b i) (s.setNode b (bd.mapVersion (.setLocked true)))) ∧
      (¬ bd.keyLength i ≤ sliceSize → (bd.lv i).getNextLayer ≠ none →
        run (putLoop fuel retry token ti args (k + 2) (.retryFindBorder (some t.id) key)) s =
          run (putLoop fuel retry token ti args k (.retryFindBorder (bd.lv i).getNextLayer (key.drop sliceSize))) s) := by
  obtain ⟨N, hN⟩ := hl.find
  refine ⟨N + 1, fun retry fuel hf k => ?_⟩
  have hright : ¬ (bd.version.wrongNode bd.version = true) := by simp [hl.right]
  have hlocked := (Version.stable_iff.mp hl.ok.stable).2.1
  rw [putLoop, run_when_neg (by simp), run_bind_of (hN retry fuel (by omega))]
  simp only [reduceCtorEq, false_and, if_false, deref, Lib.Prog.ret_bind]
  rw [putLoop]
  simp only
  rw [run_bind_of (hl.fetch retry fuel (by omega))]
  simp only
  rw [if_neg hright]
  refine ⟨?_, ?_⟩
  · rintro rfl
    simp only
    rw [run_lock_bind hl.node hlocked (by omega), run_recheck (State.setNode_node_same _ _ _) (by exact hl.right)
      (by exact rfl)]
  · rintro i rfl
    obtain ⟨hi, -⟩ := hl.present i rfl
    have hk := hl.ok.members.1
    simp only
    rw [run_load_keyLength hl.node hi]
    refine ⟨fun hlen hkl => ?_, fun hlen hnl => ?_⟩
    · rw [if_pos ⟨hlen, hkl⟩]
      by_cases hu : args.uniqueRestriction = true
      · rw [if_pos hu, if_pos hu]
        rfl
      · rw [if_neg hu, if_neg hu, run_lock_bind hl.node hlocked (by omega),
          run_recheck (State.setNode_node_same _ _ _) (by exact hl.right) (by exact rfl)]
    · rw [if_neg fun h => hlen h.1, if_neg hlen]
      simp only [Lib.Prog.pure_eq, Lib.Prog.ret_bind]
      rw [run_load_lv hl.node hk hi, run_getStableVersion_bind hl.node hl.ok.stable (by omega), if_neg hright,
        if_neg (by simp), run_when_neg hnl]

/-- The place of a new key in a border. -/
theorem exists_rank {k : KeyTuple} : ∀ {es : List Entry}, (es.map Entry.mark).Pairwise (· < ·) →
    (∀ e ∈ es, e.key.code ≠ k.code) →
    ∃ lo hi, es = lo ++ hi ∧ lo.length = es.findIdx (fun e => decide (k.code < e.key.code)) ∧
      (∀ e ∈ lo, e.key.code < k.code) ∧
      ∀ e ∈ hi, k.code < e.key.code := by
  intro es hs hne
  refine Lib.exists_place (fun e : Entry => e.key.code) ?_ hne
  rw [List.pairwise_map] at hs ⊢
  refine hs.imp fun h => ?_
  simp only [Entry.mark] at h
  omega

/-- `compute_rank_if_insert` for a key that the border does not have. -/
theorem run_computeRankIfInsert {p : Ptr} {root : Bool} {nd : Node} {r : Nat} (hn : s.node b = some nd)
    (hfits : NodeFits link dead nd ⟨p, root, .border es⟩) (hs : (es.map Entry.mark).Pairwise (· < ·))
    (hne : ∀ e ∈ es, e.key.code ≠ (KeyTuple.ofKey key).code)
    (hr : r = es.findIdx (fun e => decide ((KeyTuple.ofKey key).code < e.key.code))) :
    run (computeRankIfInsert b (.ofKey key) (keyLength key)) s = some (r, s) := by
  rw [computeRankIfInsert, run_load_permutation hn hfits.members.1]
  have hsearch := run_computeRankLoop hn (KeyTuple.ofKey_encoded key) 0 (searchOk_of_fits hfits hs) fun i hi hk => ?_
  · rw [Nat.zero_add] at hsearch
    refine hsearch.trans (congrArg (fun r => some (r, _)) ?_)
    have hmap := congrArg (List.findIdx fun k => decide ((KeyTuple.ofKey key).code < k.code)) (map_key_slots hfits)
    rw [List.findIdx_map, List.findIdx_map] at hmap
    exact hmap.trans hr.symm
  · have hkm : nd.key i ∈ es.map Entry.key := by
      rw [← map_key_slots hfits]
      exact List.mem_map_of_mem hi
    obtain ⟨e, he, hek⟩ := List.mem_map.mp hkm
    exact hne e he (by rw [hek, hk])

/-- The insertion of an absent key into the border found for it. -/
theorem Located.run_insert {π : Path} (hc : args.value.Clear) (H : Holds s ti A dead) (ht : A π = some t)
    (hl : Located s (A.parent π) (A.link π) dead t key c b es bd none) : ∃ s' t' m target,
    (∃ N, ∀ fuel ≥ N, run (do
        let value ← createValue args.value
        let rank ← computeRankIfInsert b (.ofKey key) (keyLength key)
        let created ← insertLv fuel ti b key value rank
        pure (⟨.ok, some created, some b⟩ : PutResult)) (s.setNode b (bd.mapVersion (.setLocked true))) =
      some (⟨.ok, some (s.createdValue args.value), some b⟩, s')) ∧
    Inserted (A.link π) dead (s.created args.value) s' ti (A.parent π) t t' b key (s.createdValue args.value) m target := by
  have hplug := hl.plug
  subst hplug
  have habs := hl.absent rfl
  have henc := KeyTuple.ofKey_encoded key
  have hne : ∀ e ∈ es, e.key.code ≠ (KeyTuple.ofKey key).code := fun e he hc =>
    habs e (mem_plug_entries he) (KeyTuple.code_inj (hl.ok.body.2 e he).1.length_le henc.length_le hc)
  obtain ⟨lo, hi, rfl, hlen, hlo, hhi⟩ := exists_rank hl.sorted hne
  have H' := H.created args.value
  have hnode : (s.created args.value).node b = some bd := by rw [State.created_node]; exact hl.node
  obtain ⟨s', t', m, target, ⟨N, hN⟩, hins⟩ := run_insertLv (v := s.createdValue args.value)
    ⟨H'.layers ht, H'.below ht, hnode,
    fun x hx => H'.fresh ht hx, fun p hp => H'.parent_out ht hp, H'.upper ht, hl.between, hlo, hhi, habs⟩
  refine ⟨s', t', m, target, ⟨N, fun fuel hf => ?_⟩, hins⟩
  have hrank := run_computeRankIfInsert (s := (s.created args.value).setNode b (bd.mapVersion (.setLocked true)))
    (State.setNode_node_same _ _ _)
    hl.locked hl.sorted hne hlen
  rw [run_createValue hc, State.created_setNode, State.createdValue_setNode, run_bind_of hrank, run_bind_of (hN fuel hf)]
  rfl

/-- What `put` does to a forest. -/
inductive PutAnswer (s s' : State) (token : Token) (ti : TreeId) (A : Forest) (dead : NodeId → Prop) (args : PutArgs)
    (r : PutResult) : Prop where
  | root (hA : A [] = none) (hr : r = ⟨.ok, some (s.createdValue args.value), some s.nextNode⟩)
      (h : Inserted ((Forest.single s.nextNode).link []) dead ((s.created args.value).emptyTree ti) s' ti none
        (.border s.nextNode [])
        (.border s.nextNode [entryOf args.key (s.createdValue args.value)]) s.nextNode args.key
          (s.createdValue args.value) (s.nextNode + 1)
        s.nextNode)
  | insert (j : Nat) (t t' : BTree) (c : Ctx) (b : NodeId) (es : List Entry) (bd : Node) (m target : NodeId)
      (hj : j ≤ layers args.key)
      (ht : A (layerPath [] args.key j) = some t)
      (hl : Located s (A.parent (layerPath [] args.key j)) (A.link (layerPath [] args.key j)) dead t
        (args.key.drop (8 * j)) c b es bd none)
      (hr : r = ⟨.ok, some (s.createdValue args.value), some b⟩)
      (h : Inserted (A.link (layerPath [] args.key j)) dead (s.created args.value) s' ti
        (A.parent (layerPath [] args.key j)) t t' b
        (args.key.drop (8 * j)) (s.createdValue args.value) m target)
  | unique (v : ValuePtr) (hv : A.Binds args.key v) (hu : args.uniqueRestriction = true)
      (hr : r = ⟨.warnUniqueRestriction, none, none⟩)
      (hs : s' = s)
  | update (v : ValuePtr) (c : Ctx) (b : NodeId) (lo hi : List Entry) (bd : Node) (i : Nat) (hv : A.Binds args.key v)
      (hu : args.uniqueRestriction = false)
      (ht : A (keyPath args.key) = some (Ctx.plug c (.border b (lo ++ ⟨.ofKey (keyRest args.key), .value v⟩ :: hi))))
        (hb : s.node b = some bd)
      (hi' : (slotsOf bd.permutation)[lo.length]? = some i) (hr : r = ⟨.ok, some (s.createdValue args.value), none⟩)
      (hs : s' = ((s.created args.value).retire token args.value.isInline v).setNode b
        (bd.set (.lv i) (.value (s.createdValue args.value))))

/-- The layers of `put` from the one at the first `j` slices on. -/
theorem run_putLoop (hc : args.value.Clear) (H : Holds s ti A dead) : ∀ (n : Nat) {j : Nat} {t : BTree},
    layers args.key = j + n →
    A (layerPath [] args.key j) = some t →
    ∃ r s' N, (∀ retry, ∀ fuel ≥ N, ∀ k ≥ N,
        run (putLoop fuel retry token ti args k (.retryFindBorder (some t.id) (args.key.drop (8 * j)))) s = some (r, s')) ∧
      PutAnswer s s' token ti A dead args r := by
  intro n
  induction n with
  | zero =>
    intro j t hj ht
    obtain ⟨c, b, es, bd, pos, hl⟩ := (H.layers ht).located (args.key.drop (8 * j))
    obtain ⟨N, hN⟩ := hl.run_put
    rcases H.located_cases (by omega) ht hl with ⟨rfl, -⟩ | ⟨i, v, rfl, hjl, hlen, hlv, hv⟩ | ⟨i, u, -, hlt, -⟩
    · obtain ⟨s', t', m, target, ⟨M, hM⟩, hins⟩ := hl.run_insert hc H ht
      refine ⟨_, s', N + M + 2, fun retry fuel hf k hk => ?_, .insert j t t' c b es bd m target (by omega) ht hl rfl hins⟩
      obtain ⟨k, rfl⟩ : ∃ k', k = k' + 2 := ⟨k - 2, by omega⟩
      rw [(hN retry fuel (by omega) k).1 rfl]
      exact hM fuel (by omega)
    · obtain ⟨hi15, lo, e, hi, rfl, hek, hrank, hslot⟩ := hl.present i rfl
      have hplug := hl.plug
      subst hplug
      have he : e = ⟨.ofKey (keyRest args.key), .value v⟩ := by
        obtain ⟨u, hu, hmem⟩ := hv
        rw [keyPath, ← hjl, ht] at hu
        obtain rfl := Option.some.inj hu
        refine (H.layers ht).entry_inj
          (BTree.mem_entries.mpr ⟨b, lo ++ e :: hi, by simp [Ctx.plug_borders, BTree.borders], by simp⟩) hmem ?_
        rw [hek, keyRest, ← hjl]
      subst he
      have hkl : keyLength (args.key.drop (8 * j)) ≤ sliceSize := by
        have h8 := keyRest_length args.key
        rw [hjl, ← keyRest, keyLength_of_le h8]
        exact h8
      by_cases hu : args.uniqueRestriction = true
      · refine ⟨_, s, N + 2, fun retry fuel hf k hk => ?_, .unique v hv hu rfl rfl⟩
        obtain ⟨k, rfl⟩ : ∃ k', k = k' + 2 := ⟨k - 2, by omega⟩
        rw [((hN retry fuel (by omega) k).2 i rfl).1 hlen hkl, if_pos hu]
      · refine ⟨_, _, N + 2, fun retry fuel hf k hk => ?_,
          .update v c b lo hi bd i hv (by simpa using hu) (by rw [keyPath, ← hjl]; exact ht) hl.node hrank rfl rfl⟩
        obtain ⟨k, rfl⟩ : ∃ k', k = k' + 2 := ⟨k - 2, by omega⟩
        rw [((hN retry fuel (by omega) k).2 i rfl).1 hlen hkl, if_neg hu]
        refine run_putUpdate hc (by omega) hl.node hl.ok.members.1 hl.ok.stable hi15 hlv fun w hw => ?_
        exact H.blocks hv (by rw [hw])
    · omega
  | succ n ih =>
    intro j t hj ht
    obtain ⟨c, b, es, bd, pos, hl⟩ := (H.layers ht).located (args.key.drop (8 * j))
    obtain ⟨N, hN⟩ := hl.run_put
    rcases H.located_cases (by omega) ht hl with ⟨rfl, -⟩ | ⟨i, v, rfl, hjl, -⟩ | ⟨i, u, rfl, hlt, hlen, hlv, hu⟩
    · obtain ⟨s', t', m, target, ⟨M, hM⟩, hins⟩ := hl.run_insert hc H ht
      refine ⟨_, s', N + M + 2, fun retry fuel hf k hk => ?_, .insert j t t' c b es bd m target (by omega) ht hl rfl hins⟩
      obtain ⟨k, rfl⟩ : ∃ k', k = k' + 2 := ⟨k - 2, by omega⟩
      rw [(hN retry fuel (by omega) k).1 rfl]
      exact hM fuel (by omega)
    · omega
    · obtain ⟨r, s', M, hM, hr⟩ := ih (by omega) hu
      refine ⟨r, s', M + N + 2, fun retry fuel hf k hk => ?_, hr⟩
      obtain ⟨k, rfl⟩ : ∃ k', k = k' + 2 := ⟨k - 2, by omega⟩
      rw [((hN retry fuel (by omega) k).2 i rfl).2 hlen (by rw [hlv]; simp [LinkOrValue.getNextLayer]), hlv,
        LinkOrValue.getNextLayer, drop_layer]
      exact hM retry fuel (by omega) k (by omega)

/-- `put` on a tree that holds a forest. -/
theorem run_put (H : Holds s ti A dead) (token : Token) (args : PutArgs) (hc : args.value.Clear) :
    ∃ r s' N, (∀ retry, ∀ fuel ≥ N, run (put fuel retry token ti args) s = some (r, s')) ∧
      PutAnswer s s' token ti A dead args r := by
  cases hA : A [] with
  | none =>
    have hroot : s.root ti = none := by rw [H.root, hA]; rfl
    obtain ⟨s', hrun, hins⟩ := run_putNewBorder hc hroot
    refine ⟨_, s', layers args.key + 1, fun retry fuel hf => ?_, .root hA rfl hins⟩
    obtain ⟨s₁, hnew, hroot₁, rfl⟩ := hrun fuel hf
    obtain ⟨k, rfl⟩ : ∃ k', fuel = k' + 1 := ⟨fuel - 1, by omega⟩
    rw [put, putLoop, run_loadRoot, hroot, if_pos rfl, run_bind_of hnew]
    simp [publishRoot, run, op, Lib.Prog.run, exec, hroot₁]
  | some t =>
    obtain ⟨r, s', N, hN, hr⟩ := run_putLoop hc H (layers args.key) (Nat.zero_add _).symm hA
    refine ⟨r, s', N + 2, fun retry fuel hf => ?_, hr⟩
    obtain ⟨k, rfl⟩ : ∃ k', fuel = k' + 2 := ⟨fuel - 2, by omega⟩
    have hroot : s.root ti = some t.id := by rw [H.root, hA]; rfl
    rw [put, putLoop, run_loadRoot, hroot, if_neg (by simp), putLoop, run_loadRoot, hroot, if_neg (by simp)]
    exact hN retry (k + 2) (by omega) k (by omega)

end
end Yakushima
