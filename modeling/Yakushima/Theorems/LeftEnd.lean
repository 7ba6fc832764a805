import Mathlib.Logic.Relation
import Yakushima.Theorems.Interval

/-! # Scans without a left end

A scan without a left end still starts in the border for its left key. What it answers does not depend on this key
just when the borders for both keys are the same one, or when all keys from either border on are right of the
interval. -/

namespace Yakushima
open M Permutation

/-- The leaf chain leads from one border to another. -/
def After (s : State) : NodeId → NodeId → Prop := Relation.ReflTransGen fun x y => ∃ nd, s.node x = some nd ∧
    nd.next = some y

/-- `find_border` answers this border of the first layer. -/
def FoundAt (s : State) (ti : TreeId) (key : Key) (length : Nat) (b : NodeId) : Prop :=
  ∃ r v, s.root ti = some r ∧ Returns (fun fuel => findBorder fuel (pure ()) (some r) (.ofKey key) length fuel .ok) s
    (.ok, some b, v) s

/-- Two left keys lead to the same border, or all keys from the border of either on are right of the interval. -/
def StartsAlike (s : State) (ti : TreeId) (args : ScanArgs) (l₁ l₂ : Key) : Prop :=
  ∀ b₁ b₂, FoundAt s ti l₁ (l₁.length % 256) b₁ → FoundAt s ti l₂ (l₂.length % 256) b₂ → b₁ = b₂ ∨
    ∀ k r b, Returns (fun fuel => get fuel (pure ()) ti k) s (.ok, some r) s → args.InRight k →
      FoundAt s ti k (keyLength k) b →
      ¬ After s b₁ b ∧ ¬ After s b₂ b

section
variable {s : State} {ti : TreeId} {A : Forest} {dead : NodeId → Prop} {t : BTree} {π : Path} {n D : Nat}

theorem Chain.after_iff {p : Ptr} {b x : NodeId} {l : List NodeId} (h : Chain s p (b :: l) none) : After s b x ↔
    x ∈ b :: l := by
  constructor
  · intro hax
    have hstep : ∀ {l : List NodeId} {p : Ptr} {y z : NodeId}, Chain s p l none → y ∈ l →
      (∃ nd, s.node y = some nd ∧ nd.next = some z) → z ∈ l := by
      intro l
      induction l with
      | nil => simp
      | cons a l ih =>
        intro p y z hc hy hyz
        obtain ⟨⟨nd, hn, -, hnext⟩, hc'⟩ := hc
        rcases List.mem_cons.mp hy with rfl | hy
        · obtain ⟨nd', hn', hz⟩ := hyz
          obtain rfl : nd = nd' := Option.some.inj (hn.symm.trans hn')
          rw [hnext, Option.or_none] at hz
          exact List.mem_cons_of_mem _ (List.mem_of_mem_head? hz)
        · exact List.mem_cons_of_mem _ (ih hc' hy hyz)
    unfold After at hax
    induction hax with
    | refl => exact List.mem_cons_self
    | tail _ hyz ih => exact hstep h ih hyz
  · induction l generalizing b p with
    | nil =>
      intro hx
      rw [List.mem_singleton.mp hx]
      exact Relation.ReflTransGen.refl
    | cons c l ih =>
      intro hx
      obtain ⟨⟨nd, hn, -, hnext⟩, hc⟩ := h
      rcases List.mem_cons.mp hx with rfl | hx
      · exact Relation.ReflTransGen.refl
      · exact Relation.ReflTransGen.head ⟨nd, hn, hnext⟩ (ih hc hx)

/-- Where `find_border` leads in the first layer. -/
theorem Holds.foundAt (H : Holds s ti A dead) (ht : A [] = some t) (key : Key) (length : Nat) :
    ∃ c b es, t = Ctx.plug c (.border b es) ∧
    Ctx.Between c (KeyTuple.norm (.ofKey key) length).code ∧ ∀ b', FoundAt s ti key length b' ↔ b' = b := by
  have hroot : s.root ti = some t.id := by
    rw [H.root, ht]
    rfl
  obtain ⟨c, b, es, bd, rfl, hbt, hb, N, hN⟩ := run_findBorder (H.layers ht) (.ofKey key) length
  refine ⟨c, b, es, rfl, hbt, fun b' => ⟨?_, ?_⟩⟩
  · rintro ⟨r, v, hr, hret⟩
    obtain rfl := Option.some.inj (hroot.symm.trans hr)
    have := (Returns.det hret ⟨N, fun fuel hf => hN (pure ()) fuel hf⟩).1
    simp only [Prod.mk.injEq, Option.some.injEq, true_and] at this
    exact this.1
  · rintro rfl
    exact ⟨_, bd.version, hroot, N, fun fuel hf => hN (pure ()) fuel hf⟩

/-- There is a key behind every entry. -/
theorem Holds.entryKeys_ne_nil (H : Holds s ti A dead) (hD : ∀ π t, A π = some t → π.length ≤ D) :
    ∀ {n : Nat} {π : Path} {t : BTree} {e : Entry},
    A π = some t → e ∈ t.entries → D < π.length + n + 1 → entryKeys (A.listing n) π e ≠ [] := by
  intro n
  induction n with
  | zero =>
    intro π t e ht he hlt
    cases hc : e.content with
    | value v => simp [entryKeys, hc]
    | layer =>
      obtain ⟨b, es, hb, he'⟩ := BTree.mem_entries.mp he
      obtain ⟨u, hu, -⟩ := H.behind ht hb he' hc
      have := hD _ _ hu
      rw [List.length_cons] at this
      omega
  | succ n ih =>
    intro π t e ht he hlt
    cases hc : e.content with
    | value v => simp [entryKeys, hc]
    | layer =>
      obtain ⟨b, es, hb, he'⟩ := BTree.mem_entries.mp he
      obtain ⟨u, hu, -⟩ := H.behind ht hb he' hc
      obtain ⟨e', he'⟩ := List.exists_mem_of_ne_nil _ (H.ok.nonempty hu)
      obtain ⟨p, hp⟩ := List.exists_mem_of_ne_nil _ (ih hu he' (by rw [List.length_cons]; omega))
      simp only [entryKeys, hc, Forest.listing, hu]
      exact List.ne_nil_of_mem (List.mem_flatMap.mpr ⟨e', he', hp⟩)

/-- The entry that a key is behind in the first layer. -/
theorem Holds.key_of_leads (H : Holds s ti A dead) (ht : A [] = some t) {e : Entry} (he : e ∈ t.entries) {k : Key}
    (h : e.Leads [] k) :
    e.key = .ofKey k := by
  obtain ⟨henc, -⟩ := (H.layers ht).entry_ok he
  obtain ⟨x, hx, h8, h9⟩ := h
  have hk : k = e.key.bytes ++ x := hx
  rcases Nat.lt_or_ge 8 e.key.length with hl | hl
  · have hlen : e.key.length = 9 := by
      have := henc.length_le
      omega
    rw [KeyTuple.bytes_of_nine hlen] at hk
    have hlong : 8 < k.length := by
      have := List.length_pos_of_ne_nil (h9 hlen)
      rw [hk, List.length_append, e.key.slice.size]
      omega
    have hs : KeySlice.ofKey k = e.key.slice := by rw [hk, ofKey_bytes_append]
    obtain ⟨⟨sl, l⟩, c⟩ := e
    simp only at hlen hs
    rw [KeyTuple.ofKey, keyLength_of_gt hlong, hs, hlen]
  · rw [h8 hl, List.append_nil] at hk
    have hlen : k.length = e.key.length := by
      rw [hk, KeyTuple.bytes, List.length_take, e.key.slice.size]
      omega
    have hs : KeySlice.ofKey k = e.key.slice := by
      rw [hk]
      exact congrArg KeyTuple.slice (KeyTuple.norm_of_encoded henc)
    rw [KeyTuple.ofKey, keyLength_of_le (by omega), hs, hlen]

/-- The borders from the one for a left key on. -/
structure StartList (s : State) (ti : TreeId) (t : BTree) (l : Key) (b : NodeId) (es : List Entry)
    (bs : List (NodeId × List Entry)) : Prop where
  found : ∀ b', FoundAt s ti l (l.length % 256) b' ↔ b' = b
  suffix : (b, es) :: bs <:+ t.borders
  from_eq : t.fromCode (KeyTuple.norm (.ofKey l) (l.length % 256)).code = (b, es) :: bs
  after_iff : ∀ x, After s b x ↔ x ∈ ((b, es) :: bs).map (·.1)
  right : ∀ e ∈ bs.flatMap (·.2), (KeyTuple.norm (.ofKey l) (l.length % 256)).code < e.key.code

theorem Holds.startList (H : Holds s ti A dead) (ht : A [] = some t) (l : Key) : ∃ b es bs, StartList s ti t l b es bs := by
  obtain ⟨c, b, es, rfl, hbt, hfound⟩ := H.foundAt ht l (l.length % 256)
  obtain ⟨p, hchain⟩ := (H.layers ht).chain.from
  refine ⟨b, es, Ctx.bordersRight c, hfound, ?_, fromCode_eq hbt, fun x => hchain.after_iff, fun e he => ?_⟩
  · rw [Ctx.plug_borders, List.append_assoc]
    exact List.suffix_append _ _
  · have := hbt.2 _ (Ctx.mark_mem_flatRight he)
    simp only [Entry.mark] at this
    omega

section
variable {args : ScanArgs} {l l₁ l₂ : Key} {b b₁ b₂ : NodeId} {es es₁ es₂ : List Entry}
  {bs bs₁ bs₂ : List (NodeId × List Entry)}

/-- The border that a bound key is found in holds the entry that it is behind. -/
theorem Holds.border_of_key (H : Holds s ti A dead) (ht : A [] = some t) {x : NodeId} {fs : List Entry}
    (hx : (x, fs) ∈ t.borders) {e : Entry} (he : e ∈ fs) {k : Key} (hk : e.Leads [] k) (y : NodeId) :
    FoundAt s ti k (keyLength k) y ↔ y = x := by
  have hmem : e ∈ t.entries := BTree.mem_entries.mpr ⟨x, fs, hx, he⟩
  obtain ⟨c, b, es, hplug, hbt, hfound⟩ := H.foundAt ht k (keyLength k)
  have hnorm : KeyTuple.norm (KeySlice.ofKey k) (keyLength k) = .ofKey k :=
    KeyTuple.norm_of_encoded (KeyTuple.ofKey_encoded k)
  rw [hnorm, ← H.key_of_leads ht hmem hk] at hbt
  have hb : (b, es) ∈ t.borders := hplug ▸ Ctx.mem_borders
  have hes : e ∈ es := mem_border_of_between hbt (hplug ▸ hmem)
  have hxb : x = b := congrArg Prod.fst ((H.layers ht).border_inj hx hb he hes)
  rw [hfound, hxb]

/-- The keys that a scan without a left end answers, by the borders they are found in. -/
theorem Holds.mem_hits_iff (H : Holds s ti A dead) (hD : ∀ π t, A π = some t → π.length ≤ D) (ht : A [] = some t)
    (hinf : args.lEnd = .inf) (hl : StartList s ti t l b es bs) {x : Hit} :
    x ∈ hits s A D [] args (((b, es) :: bs).flatMap (·.2)) ↔
      A.Binds x.1 x.2.1 ∧ args.InRight x.1 ∧ x.2.2 = s.lenOf x.2.1 ∧ ∃ y, FoundAt s ti x.1 (keyLength x.1) y ∧
        After s b y := by
  obtain ⟨k, v, len⟩ := x
  have hin : args.In [] k ↔ args.InRight k := by simp [ScanArgs.In, ScanArgs.InLeft, hinf]
  rw [hits, mem_hitsOf]
  simp only [hin, hl.after_iff]
  constructor
  · rintro ⟨hk, hr, hlen⟩
    obtain ⟨e, he, hke⟩ := List.mem_flatMap.mp hk
    obtain ⟨⟨y, fs⟩, hy, hef⟩ := List.mem_flatMap.mp he
    have hyt : (y, fs) ∈ t.borders := hl.suffix.subset hy
    have hmem : e ∈ t.entries := BTree.mem_entries.mpr ⟨y, fs, hyt, hef⟩
    refine ⟨?_, hr, hlen, y, (H.border_of_key ht hyt hef (H.leads ht hmem hke) y).mpr rfl, List.mem_map.mpr ⟨_, hy, rfl⟩⟩
    refine (H.mem_listing_iff hD).mp ?_
    simp only [Forest.listing, ht]
    exact List.mem_flatMap.mpr ⟨e, hmem, hke⟩
  · rintro ⟨hv, hr, hlen, y, hy, hmem⟩
    refine ⟨?_, hr, hlen⟩
    have hlist := (H.mem_listing_iff hD).mpr hv
    simp only [Forest.listing, ht] at hlist
    obtain ⟨e, he, hke⟩ := List.mem_flatMap.mp hlist
    obtain ⟨z, fs, hz, hef⟩ := BTree.mem_entries.mp he
    obtain rfl := (H.border_of_key ht hz hef (H.leads ht he hke) y).mp hy
    obtain ⟨⟨y', fs'⟩, hy', rfl⟩ := List.mem_map.mp hmem
    have hfs : fs' = fs := by
      have hnd := (H.layers ht).nodup.sublist (BTree.borders_ids_sublist t)
      exact congrArg Prod.snd (List.inj_on_of_nodup_map hnd (hl.suffix.subset hy') hz rfl)
    exact List.mem_flatMap.mpr ⟨e, List.mem_flatMap.mpr ⟨_, hy', hfs ▸ hef⟩, hke⟩

theorem Holds.hits_sorted (H : Holds s ti A dead) (ht : A [] = some t) (hl : StartList s ti t l b es bs) :
    ((hits s A D [] args (((b, es) :: bs).flatMap (·.2))).map (·.1)).Pairwise (· < ·) := by
  obtain ⟨B, hB⟩ := hl.suffix
  have hs := H.listing_sorted (n := D + 1) (π := [])
  have hlist : A.listing (D + 1) [] = (B.flatMap (·.2)).flatMap (entryKeys (A.listing D) []) ++
      (((b, es) :: bs).flatMap (·.2)).flatMap (entryKeys (A.listing D) []) := by
    rw [← List.flatMap_append, ← List.flatMap_append, hB]
    simp only [Forest.listing, ht]
    rfl
  rw [hlist, List.map_append] at hs
  have hs' := (List.pairwise_append.mp hs).2.1
  rw [hits, hitsOf, List.map_map]
  rw [List.pairwise_map] at hs' ⊢
  exact hs'.filter _

/-- A scan that starts further left answers more, unless all its keys are right of the interval. -/
theorem Holds.beyond_of_hits_eq (H : Holds s ti A dead) (hD : ∀ π t, A π = some t → π.length ≤ D) (ht : A [] = some t)
    (hinf : args.lEnd = .inf) (hl₁ : StartList s ti t l₁ b₁ es₁ bs₁) (hl₂ : StartList s ti t l₂ b₂ es₂ bs₂)
    (hsuf : (b₂, es₂) :: bs₂ <:+ bs₁)
    (heq : ∀ x, x ∈ hits s A D [] args (((b₁, es₁) :: bs₁).flatMap (·.2)) →
      x ∈ hits s A D [] args (((b₂, es₂) :: bs₂).flatMap (·.2))) :
    ∀ k v y, A.Binds k v → args.InRight k → FoundAt s ti k (keyLength k) y → ¬ After s b₁ y ∧ ¬ After s b₂ y := by
  have hnd := ((H.layers ht).nodup.sublist (BTree.borders_ids_sublist t)).sublist (hl₁.suffix.sublist.map _)
  rw [List.map_cons, List.nodup_cons] at hnd
  have hb₁ : (b₁, es₁) ∈ t.borders := hl₁.suffix.subset List.mem_cons_self
  -- A key in the left border is answered by the left scan only.
  have hleft : ∀ k v, A.Binds k v → FoundAt s ti k (keyLength k) b₁ → ¬ args.InRight k := by
    intro k v hv hf hr
    have h1 := (H.mem_hits_iff hD ht hinf hl₁ (x := (k, v, s.lenOf v))).mpr
      ⟨hv, hr, rfl, b₁, hf, (hl₁.after_iff b₁).mpr List.mem_cons_self⟩
    obtain ⟨-, -, -, y, hy, hafter⟩ := (H.mem_hits_iff hD ht hinf hl₂).mp (heq _ h1)
    obtain ⟨c, b, es, -, -, hfound⟩ := H.foundAt ht k (keyLength k)
    obtain rfl := ((hfound b₁).mp hf).trans ((hfound y).mp hy).symm
    exact hnd.1 ((hsuf.sublist.map _).subset ((hl₂.after_iff b₁).mp hafter))
  have hes : es₁ ≠ [] := by
    rintro rfl
    have htree := (H.layers ht).nonempty _ hb₁ rfl
    have hlen := hl₁.suffix.length_le
    have hlen' := hsuf.length_le
    rw [htree, BTree.borders] at hlen
    simp only [List.length_cons, List.length_nil] at hlen hlen'
    omega
  obtain ⟨e₀, he₀⟩ := List.exists_mem_of_ne_nil _ hes
  have hmem₀ : e₀ ∈ t.entries := BTree.mem_entries.mpr ⟨b₁, es₁, hb₁, he₀⟩
  obtain ⟨⟨k₀, v₀⟩, hk₀⟩ := List.exists_mem_of_ne_nil _ (H.entryKeys_ne_nil hD (n := D) ht hmem₀ (by simp))
  have hlead₀ := H.leads ht hmem₀ hk₀
  have hno₀ : ¬ args.InRight k₀ := by
    refine hleft k₀ v₀ ((H.mem_listing_iff hD).mp ?_) ((H.border_of_key ht hb₁ he₀ hlead₀ b₁).mpr rfl)
    simp only [Forest.listing, ht]
    exact List.mem_flatMap.mpr ⟨e₀, hmem₀, hk₀⟩
  have hall : ∀ k v y, A.Binds k v → args.InRight k → FoundAt s ti k (keyLength k) y → ¬ After s b₁ y := by
    intro k v y hv hr hf hafter
    obtain ⟨⟨y', fs⟩, hy, rfl⟩ := List.mem_map.mp ((hl₁.after_iff y).mp hafter)
    rcases List.mem_cons.mp hy with hy1 | hybs
    · simp only [Prod.mk.injEq] at hy1
      rw [hy1.1] at hf
      exact hleft k v hv hf hr
    · -- The key is in a later border, and so it is right of one in the left border.
      have hlist := (H.mem_listing_iff hD).mpr hv
      simp only [Forest.listing, ht] at hlist
      obtain ⟨e, he, hke⟩ := List.mem_flatMap.mp hlist
      obtain ⟨z, gs, hz, hez⟩ := BTree.mem_entries.mp he
      have hlead := H.leads ht he hke
      have hyz := (H.border_of_key ht hz hez hlead _).mp hf
      simp only at hyz
      subst hyz
      have hfs : fs = gs := by
        have hnd' := (H.layers ht).nodup.sublist (BTree.borders_ids_sublist t)
        exact congrArg Prod.snd (List.inj_on_of_nodup_map hnd' (hl₁.suffix.subset hy) hz rfl)
      subst hfs
      have hlt : e₀.key.code < e.key.code := by
        have hs := (H.layers ht).codes
        obtain ⟨B, hB⟩ := hl₁.suffix
        rw [BTree.entries, ← hB, List.flatMap_append, List.flatMap_cons, List.map_append, List.map_append] at hs
        exact (List.pairwise_append.mp (List.pairwise_append.mp hs).2.1).2.2 _ (List.mem_map.mpr ⟨e₀, he₀, rfl⟩) _
          (List.mem_map.mpr ⟨e, List.mem_flatMap.mpr ⟨_, hybs, hez⟩, rfl⟩)
      exact hno₀ (hr.of_lt (hlead₀.lt hlead ((H.layers ht).entry_ok hmem₀).1 ((H.layers ht).entry_ok he).1 hlt))
  refine fun k v y hv hr hf => ⟨hall k v y hv hr hf, fun hafter => hall k v y hv hr hf ?_⟩
  exact (hl₁.after_iff y).mpr (List.mem_cons_of_mem _ ((hsuf.sublist.map _).subset ((hl₂.after_iff y).mp hafter)))

/-- Two scans without a left end answer the same tuples just when they start alike. -/
theorem Holds.hits_eq_iff (H : Holds s ti A dead) (hD : ∀ π t, A π = some t → π.length ≤ D) (ht : A [] = some t)
    (hinf : args.lEnd = .inf) (hl₁ : StartList s ti t l₁ b₁ es₁ bs₁) (hl₂ : StartList s ti t l₂ b₂ es₂ bs₂) :
    hits s A D [] args (((b₁, es₁) :: bs₁).flatMap (·.2)) = hits s A D [] args (((b₂, es₂) :: bs₂).flatMap (·.2)) ↔
      b₁ = b₂ ∨ ∀ k v y, A.Binds k v → args.InRight k → FoundAt s ti k (keyLength k) y → ¬ After s b₁ y ∧
        ¬ After s b₂ y := by
  have hiff₁ := fun x => H.mem_hits_iff hD ht hinf hl₁ (x := x)
  have hiff₂ := fun x => H.mem_hits_iff hD ht hinf hl₂ (x := x)
  constructor
  · intro heq
    rcases List.suffix_or_suffix_of_suffix hl₁.suffix hl₂.suffix with hsuf | hsuf
    · rcases List.suffix_cons_iff.mp hsuf with h | h
      · exact Or.inl (congrArg Prod.fst (List.cons.inj h).1)
      · refine Or.inr fun k v y hv hr hf => ?_
        exact (H.beyond_of_hits_eq hD ht hinf hl₂ hl₁ h (fun x hx => heq ▸ hx) k v y hv hr hf).symm
    · rcases List.suffix_cons_iff.mp hsuf with h | h
      · exact Or.inl (congrArg Prod.fst (List.cons.inj h).1).symm
      · exact Or.inr (H.beyond_of_hits_eq hD ht hinf hl₁ hl₂ h fun x hx => heq ▸ hx)
  · intro hcond
    refine eq_of_sorted_keys (H.hits_sorted ht hl₁) (H.hits_sorted ht hl₂) fun x => ?_
    rw [hiff₁, hiff₂]
    rcases hcond with rfl | hno
    · rfl
    · constructor
      · rintro ⟨hv, hr, -, y, hf, ha⟩
        exact absurd ha (hno _ _ y hv hr hf).1
      · rintro ⟨hv, hr, -, y, hf, ha⟩
        exact absurd ha (hno _ _ y hv hr hf).2

theorem hits_congr {args' : ScanArgs} {E : List Entry} (h : ∀ k, args.In π k ↔ args'.In π k) :
    hits s A n π args E = hits s A n π args' E :=
  hitsOf_congr h

/-- The first layer's tuples of a scan without a limit. -/
theorem Holds.scan_from (H : Holds s ti A dead) (hD : ∀ π t, A π = some t → π.length ≤ D) (ht : A [] = some t)
    (hmax : args.maxSize = 0) (hargs : ¬ ScanArgs.Rejected { args with lKey := l }) (hl : StartList s ti t l b es bs)
    (hinf : args.lEnd = .inf) (out : ScanOut) : ∃ o, (∀ retry,
      Returns (fun fuel => scan fuel retry ti { args with lKey := l } out) s (.ok, o) s) ∧
        o.tuples = hits s A D [] args (((b, es) :: bs).flatMap (·.2)) := by
  obtain ⟨N, hN⟩ := run_scan H (by simp [ht]) hD { args with lKey := l } hargs out
  obtain ⟨R, htR, hlR⟩ := H.firstLayer_appends (n := D) ht { args with lKey := l }
  refine ⟨_, fun retry => ⟨N, hN retry⟩, ?_⟩
  have hstart : ScanArgs.startCode { args with lKey := l } = (KeyTuple.norm (.ofKey l) (l.length % 256)).code := rfl
  rw [hstart, hl.from_eq] at hlR
  rw [htR, hlR.all (Or.inl hmax)]
  exact hits_congr fun k => by simp [ScanArgs.In, ScanArgs.InLeft, ScanArgs.InRight, hinf]

theorem RefinesIn.scan_left {m : MapState} (h : RefinesIn s ti A dead m) (hinf : args.lEnd = .inf) (hmax : args.maxSize = 0)
    (h₁ : ¬ ScanArgs.Rejected { args with lKey := l₁ }) (h₂ : ¬ ScanArgs.Rejected { args with lKey := l₂ })
    (out : ScanOut) : ∃ st₁ o₁ st₂ o₂,
      (∀ retry, Returns (fun fuel => Yakushima.scan fuel retry ti { args with lKey := l₁ } out) s (st₁, o₁) s) ∧
      (∀ retry, Returns (fun fuel => Yakushima.scan fuel retry ti { args with lKey := l₂ } out) s (st₂, o₂) s) ∧
      (st₁ = st₂ ∧ o₁.tuples = o₂.tuples ↔ StartsAlike s ti args l₁ l₂) := by
  have H := h.holds
  cases ht : A [] with
  | none =>
    have hroot : s.root ti = none := by
      rw [H.root, ht]
      rfl
    obtain ⟨N, hN⟩ := run_scan_null hroot h₁ out
    obtain ⟨N', hN'⟩ := run_scan_null hroot h₂ out
    refine ⟨.okRootIsNull, ⟨[], []⟩, .okRootIsNull, ⟨[], []⟩, fun retry => ⟨N, hN retry⟩, fun retry => ⟨N', hN' retry⟩,
      iff_of_true ⟨rfl, rfl⟩ ?_⟩
    rintro b₁ b₂ ⟨r, v, hr, -⟩
    exact absurd (hroot.symm.trans hr) (by simp)
  | some t =>
    obtain ⟨D, hD⟩ := H.ok.bounded
    obtain ⟨b₁, es₁, bs₁, hl₁⟩ := H.startList ht l₁
    obtain ⟨b₂, es₂, bs₂, hl₂⟩ := H.startList ht l₂
    obtain ⟨o₁, hret₁, ho₁⟩ := H.scan_from hD ht hmax h₁ hl₁ hinf out
    obtain ⟨o₂, hret₂, ho₂⟩ := H.scan_from hD ht hmax h₂ hl₂ hinf out
    refine ⟨.ok, o₁, .ok, o₂, hret₁, hret₂, ?_⟩
    rw [eq_self_iff_true, true_and, ho₁, ho₂, H.hits_eq_iff hD ht hinf hl₁ hl₂]
    constructor
    · intro hcond b₁' b₂' hf₁ hf₂
      obtain rfl := (hl₁.found b₁').mp hf₁
      obtain rfl := (hl₂.found b₂').mp hf₂
      refine hcond.imp id fun hno k r y hg hr hf => ?_
      obtain ⟨r', N, hN, hans⟩ := run_get H k
      obtain ⟨rfl, -⟩ := Returns.det (p := fun fuel => get fuel (pure ()) ti k) ⟨N, fun fuel hf => hN (pure ()) fuel hf⟩ hg
      rcases hans with ⟨v, hv, -⟩ | ⟨-, habs⟩
      · exact hno k v y hv hr hf
      · simp at habs
    · intro halike
      refine (halike b₁ b₂ ((hl₁.found b₁).mpr rfl) ((hl₂.found b₂).mpr rfl)).imp id fun hno k v y hv hr hf => ?_
      obtain ⟨r, N, hN, hans⟩ := run_get H k
      rcases hans with ⟨w, hw, rfl⟩ | ⟨habs, -⟩
      · exact hno k _ y ⟨N, fun fuel hf => hN (pure ()) fuel hf⟩ hr hf
      · exact absurd hv (habs v)

end
end

/-- In every tree whose inline words have clear tag bits, a scan without a left end answers the same for two left keys
    just when they lead to the same border, or all keys from the border of either on are right of the interval. -/
theorem scan_inf_same_iff {s : State} {ti : TreeId} {m : MapState} (h : Start ti s m) (calls : List PointCall)
    (hc : ∀ c ∈ calls, c.Clear) :
    ∃ as s₁,
    Returns (fun fuel => runAll (calls.map fun c => c.prog fuel (pure ()) ti)) s as s₁ ∧
      ∀ args l₁ l₂ out, args.lEnd = .inf → args.maxSize = 0 → ¬ ScanArgs.Rejected { args with lKey := l₁ } →
        ¬ ScanArgs.Rejected { args with lKey := l₂ } → ∃ st₁ o₁ st₂ o₂,
          Returns (fun fuel => scan fuel (pure ()) ti { args with lKey := l₁ } out) s₁ (st₁, o₁) s₁ ∧
          Returns (fun fuel => scan fuel (pure ()) ti { args with lKey := l₂ } out) s₁ (st₂, o₂) s₁ ∧
          (st₁ = st₂ ∧ o₁.tuples = o₂.tuples ↔ StartsAlike s₁ ti args l₁ l₂) := by
  obtain ⟨A, hA⟩ := h.refinesIn
  obtain ⟨as, s₁, m₁, hret, -, B, dead, hB⟩ := hA.run calls hc
  refine ⟨as, s₁, hret (pure ()), fun args l₁ l₂ out hinf hmax h₁ h₂ => ?_⟩
  obtain ⟨st₁, o₁, st₂, o₂, hr₁, hr₂, hiff⟩ := hB.scan_left hinf hmax h₁ h₂ out
  exact ⟨st₁, o₁, st₂, o₂, hr₁ (pure ()), hr₂ (pure ()), hiff⟩

/-- Two left keys in a tree with two borders. -/
theorem scan_inf_same_iff_sample : ∃ as s₁ st₁ o₁ st₂ o₂,
    Returns (fun fuel => runAll ((sampleKeys.map PointCall.putWord).map fun c => c.prog fuel (pure ()) 0))
      State.init as s₁ ∧
      Returns (fun fuel => scan fuel (pure ()) 0 ⟨[2], .inf, [12], .inclusive, 0, false⟩ ⟨[], []⟩) s₁ (st₁, o₁) s₁ ∧
      Returns (fun fuel => scan fuel (pure ()) 0 ⟨[16], .inf, [12], .inclusive, 0, false⟩ ⟨[], []⟩) s₁ (st₂, o₂) s₁ ∧
      (st₁ = st₂ ∧ o₁.tuples = o₂.tuples ↔ StartsAlike s₁ 0 ⟨[], .inf, [12], .inclusive, 0, false⟩ [2] [16]) := by
  obtain ⟨as, s₁, hret, hscan⟩ := scan_inf_same_iff (.null (s := State.init) rfl) (sampleKeys.map PointCall.putWord)
    (PointCall.clear_of_representable (PointCall.putWords_representable sampleKeys))
  obtain ⟨st₁, o₁, st₂, o₂, h₁, h₂, hiff⟩ := hscan ⟨[], .inf, [12], .inclusive, 0, false⟩ [2] [16] ⟨[], []⟩ rfl rfl
    (by decide) (by decide)
  exact ⟨as, s₁, st₁, o₁, st₂, o₂, hret, h₁, h₂, hiff⟩

/-- The keys of the borders left of the one for the left key are not answered. -/
theorem left_key_hides_keys : ¬ ∀ (s : State) (ti : TreeId) (m : MapState), Start ti s m →
    ∀ calls : List PointCall, ∃ as s₁,
    Returns (fun fuel => runAll (calls.map fun c => c.prog fuel (pure ()) ti)) s as s₁ ∧
      ∀ (args : ScanArgs) l₁ l₂ out, args.lEnd = .inf → args.maxSize = 0 → ¬ ScanArgs.Rejected { args with lKey := l₁ } →
        ¬ ScanArgs.Rejected { args with lKey := l₂ } → ∃ st₁ o₁ st₂ o₂,
          Returns (fun fuel => scan fuel (pure ()) ti { args with lKey := l₁ } out) s₁ (st₁, o₁) s₁ ∧
          Returns (fun fuel => scan fuel (pure ()) ti { args with lKey := l₂ } out) s₁ (st₂, o₂) s₁ ∧ st₁ = st₂ ∧
            o₁.tuples = o₂.tuples := by
  intro hall
  have hnull : Start 0 State.init ⟨false, ∅⟩ := .null rfl
  -- Sixteen keys do not fit into one border.
  let keys : List Key := [[0], [1], [2], [3], [4], [5], [6], [7], [8], [9], [10], [11], [12], [13], [14], [15]]
  let args : ScanArgs := ⟨[], .inf, [], .inf, 0, false⟩
  obtain ⟨as, s₁, hret, hscan⟩ := hall _ _ _ hnull (keys.map PointCall.putWord)
  obtain ⟨A, hA⟩ := hnull.refinesIn
  obtain ⟨as', s₁', m₁, hret', hrun, B, dead, hB⟩ := hA.run (keys.map PointCall.putWord)
    (PointCall.clear_of_representable (PointCall.putWords_representable keys))
  obtain ⟨-, rfl⟩ := hret.det (hret' (pure ()))
  have H := hB.holds
  have hbound : ∀ k ∈ keys, ∃ v, B.Binds k v := by
    intro k hk
    have hmem : k ∈ m₁.map.keys := by
      rw [hrun.putWords.1]
      exact Finset.mem_union_right _ (List.mem_toFinset.mpr hk)
    obtain ⟨b, hb⟩ := Finmap.mem_iff.mp (Finmap.mem_keys.mp hmem)
    exact ⟨b.ptr, (hB.binds k b.ptr).mpr ⟨b.value, hb⟩⟩
  obtain ⟨t, ht⟩ : ∃ t, B [] = some t := by
    obtain ⟨v, t, ht, -⟩ := hbound [0] List.mem_cons_self
    exact ⟨t, ht⟩
  obtain ⟨D, hD⟩ := H.ok.bounded
  obtain ⟨b₁, es₁, bs₁, hl₁⟩ := H.startList ht []
  obtain ⟨b₂, es₂, bs₂, hl₂⟩ := H.startList ht [15]
  obtain ⟨o₁, hr₁, ho₁⟩ := H.scan_from hD ht (by rfl : args.maxSize = 0) (by decide) hl₁ rfl ⟨[], []⟩
  obtain ⟨o₂, hr₂, ho₂⟩ := H.scan_from hD ht (by rfl : args.maxSize = 0) (by decide) hl₂ rfl ⟨[], []⟩
  obtain ⟨st₁, p₁, st₂, p₂, g₁, g₂, -, heq⟩ := hscan args [] [15] ⟨[], []⟩ rfl rfl (by decide) (by decide)
  obtain ⟨hp₁, -⟩ := g₁.det (hr₁ (pure ()))
  obtain ⟨hp₂, -⟩ := g₂.det (hr₂ (pure ()))
  simp only [Prod.mk.injEq] at hp₁ hp₂
  rw [hp₁.2, hp₂.2, ho₁, ho₂] at heq
  -- Every key is in the border for the last one.
  have hin : ∀ k ∈ keys, KeyTuple.ofKey k ∈ es₂.map Entry.key := by
    intro k hk
    obtain ⟨v, hv⟩ := hbound k hk
    have hfirst : (k, v, s₁.lenOf v) ∈ hits s₁ B D [] args (((b₁, es₁) :: bs₁).flatMap (·.2)) := by
      have hstart := H.hits_start (n := D) ht (fun _ => rfl : args.lEnd = .inf → args.lKey = [])
      rw [show args.startCode = (KeyTuple.norm (.ofKey []) (([] : Key).length % 256)).code from rfl, hl₁.from_eq] at hstart
      rw [hstart]
      exact mem_hitsOf.mpr ⟨(H.mem_listing_iff hD).mpr hv, ⟨trivial, trivial⟩, rfl⟩
    rw [heq] at hfirst
    obtain ⟨e, he, hke⟩ := List.mem_flatMap.mp (mem_hitsOf.mp hfirst).1
    have hmem : e ∈ t.entries := by
      obtain ⟨x, hx, hex⟩ := List.mem_flatMap.mp he
      exact BTree.mem_entries.mpr ⟨x.1, x.2, hl₂.suffix.subset hx, hex⟩
    have hkey := H.key_of_leads ht hmem (H.leads ht hmem hke)
    rw [List.flatMap_cons, List.mem_append] at he
    rcases he with he | he
    · exact List.mem_map.mpr ⟨e, he, hkey⟩
    · have hlt := hl₂.right e he
      rw [hkey] at hlt
      have hle : ∀ k ∈ keys,
        (KeyTuple.ofKey k).code ≤ (KeyTuple.norm (.ofKey [15]) (([15] : Key).length % 256)).code := by decide
      exact absurd (hle k hk) (Nat.not_le.mpr hlt)
  have hsub : keys.map KeyTuple.ofKey ⊆ es₂.map Entry.key := by
    intro x hx
    obtain ⟨k, hk, rfl⟩ := List.mem_map.mp hx
    exact hin k hk
  have hnd : (keys.map KeyTuple.ofKey).Nodup := by decide
  have hlen := (List.subperm_of_subset hnd hsub).length_le
  have hle15 : es₂.length ≤ 15 := by
    obtain ⟨p, rt, hd⟩ := BTree.border_desc (hl₂.suffix.subset List.mem_cons_self) (B.parent []) true
    obtain ⟨nd, -, hok⟩ := (H.layers ht).nodes _ hd
    exact hok.body.1
  simp only [List.length_map, keys, List.length_cons, List.length_nil] at hlen
  omega

end Yakushima
